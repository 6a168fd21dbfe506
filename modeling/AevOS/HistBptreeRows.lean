import AevOS.HistBptree

/-! The shape of the tree, level by level: a row lists the nodes of one level with the lower bounds of
their keys. -/

namespace AevOS.BpTree
open ArrayPrefix OrderedAssoc List

abbrev Row := List (Nat × Nat)

def NodeStore.kids (s : NodeStore) (e : Nat × Nat) : Row := (s.node e.2).kids e.1
def HistBpNode.body (n : HistBpNode) : HistBpNode := { n with parent := 0 }

@[simp] theorem body_setParent (n : HistBpNode) (q : Nat) :
    ({ n with parent := q } : HistBpNode).body = n.body := rfl

variable {a b : HistBpNode} {U : Row} {s : NodeStore} {e : Nat × Nat}

section
variable (h : a.body = b.body)
include h

theorem kids_of_body (lo : Nat) : a.kids lo = b.kids lo := congrArg (fun n => n.kids lo) h

theorem entries_of_body : a.entries = b.entries := congrArg (fun n => n.entries) h

theorem isLeaf_of_body : a.isLeaf = b.isLeaf := congrArg (fun n => n.isLeaf) h
theorem nkeys_of_body : a.nkeys = b.nkeys := congrArg (fun n => n.nkeys) h
theorem next_of_body : a.next = b.next := congrArg (fun n => n.next) h

end

structure RowOk (s : NodeStore) (lvl : Nat → Nat) (j : Nat) (L : Row) : Prop where
  sorted : L.Pairwise (fun a b => a.1 < b.1)
  names : (L.map Prod.snd).Nodup
  level : ∀ e ∈ L, lvl e.2 = j
  pos : ∀ e ∈ L, 0 < e.2
  below : ∀ e ∈ L, e.2 < s.fresh

structure InnerRow (s : NodeStore) (U : Row) : Prop where
  inner : ∀ e ∈ U, (s.node e.2).isLeaf = false
  parent : ∀ e ∈ U, ∀ c ∈ s.kids e, (s.node c.2).parent = e.2

inductive Ladder (s : NodeStore) (lvl : Nat → Nat) (top : Nat) (T : Row) : Nat → Row → Prop where
  | top : RowOk s lvl top T → Ladder s lvl top T top T
  | down {j : Nat} {U : Row} : Ladder s lvl top T (j+1) U → InnerRow s U →
      RowOk s lvl j (U.flatMap s.kids) → Ladder s lvl top T j (U.flatMap s.kids)

section
variable {s s' : NodeStore} {lvl lvl' : Nat → Nat} {top j : Nat} {T L : Row}

section
variable (h : Ladder s lvl top T j L)
include h

theorem Ladder.le : j ≤ top := by
  induction h with
  | top _ => exact le_refl _
  | down _ _ _ ih => omega

theorem Ladder.lowest : RowOk s lvl j L := by
  cases h with
  | top h | down _ _ h => exact h

theorem Ladder.highest : RowOk s lvl top T := by
  induction h with
  | top h => exact h
  | down _ _ _ ih => exact ih

end

theorem Ladder.of_eq (h : Ladder s lvl top T top L) : L = T := by
  generalize hj : top = k at h
  cases h with
  | top _ => rfl
  | down h _ _ =>
    have hle := h.le
    omega

theorem Ladder.trans {k : Nat} {M : Row} (h1 : Ladder s lvl top T j L)
    (h2 : Ladder s lvl j L k M) : Ladder s lvl top T k M := by
  induction h2 with
  | top _ => exact h1
  | down _ hi hr ih => exact .down ih hi hr

theorem Ladder.cons (hr : RowOk s lvl (top+1) T) (hi : InnerRow s T)
    (h : Ladder s lvl top (T.flatMap s.kids) j L) : Ladder s lvl (top+1) T j L :=
  (Ladder.down (.top hr) hi h.highest).trans h

theorem Ladder.uncons (h : Ladder s lvl (top+1) T j L) (hj : j ≤ top) :
    InnerRow s T ∧ Ladder s lvl top (T.flatMap s.kids) j L := by
  induction h with
  | top _ => omega
  | @down j U hup hi hr ih =>
    by_cases he : j = top
    · subst he
      obtain rfl := hup.of_eq
      exact ⟨hi,.top hr⟩
    · obtain ⟨h1,h2⟩ := ih (by omega)
      exact ⟨h1,.down h2 hi hr⟩

theorem RowOk.frame (h : RowOk s lvl j L) (hf : s.fresh ≤ s'.fresh)
    (hl : ∀ q, q < s.fresh → lvl' q = lvl q) : RowOk s' lvl' j L :=
  ⟨h.sorted,h.names,fun e he => (hl e.2 (h.below e he)).trans (h.level e he),h.pos,
    fun e he => lt_of_lt_of_le (h.below e he) hf⟩

theorem flatMap_kids_of_body (hb : ∀ e ∈ U, (s'.node e.2).body = (s.node e.2).body) :
    U.flatMap s'.kids = U.flatMap s.kids :=
  flatMap_congr (fun e he => kids_of_body (hb e he) e.1)

theorem InnerRow.frame (h : InnerRow s U) (hb : ∀ e ∈ U, (s'.node e.2).body = (s.node e.2).body)
    (hp : ∀ c ∈ U.flatMap s.kids, (s'.node c.2).parent = (s.node c.2).parent) : InnerRow s' U := by
  refine ⟨?_,?_⟩
  · intro e he
    rw [isLeaf_of_body (hb e he)]
    exact h.inner e he
  intro e he c hc
  have hc' : c ∈ s.kids e := by
    rw [NodeStore.kids,← kids_of_body (hb e he)]
    exact hc
  rw [hp c (mem_flatMap.mpr ⟨e,he,hc'⟩)]
  exact h.parent e he c hc'

theorem Ladder.frame (h : Ladder s lvl top T j L) (hf : s.fresh ≤ s'.fresh)
    (hl : ∀ q, q < s.fresh → lvl' q = lvl q)
    (hb : ∀ q, q < s.fresh → j < lvl q → lvl q ≤ top → (s'.node q).body = (s.node q).body)
    (hp : ∀ q, q < s.fresh → j ≤ lvl q → lvl q < top → (s'.node q).parent = (s.node q).parent) :
    Ladder s' lvl' top T j L := by
  induction h with
  | top hr => exact .top (hr.frame hf hl)
  | @down j U hup hi hr ih =>
    have hle := hup.le
    have hU := hup.lowest
    have hbd : ∀ e ∈ U, (s'.node e.2).body = (s.node e.2).body := by
      intro e he
      have hlev := hU.level e he
      exact hb e.2 (hU.below e he) (by omega) (by omega)
    have hpar : ∀ c ∈ U.flatMap s.kids, (s'.node c.2).parent = (s.node c.2).parent := by
      intro c hc
      have hlev := hr.level c hc
      exact hp c.2 (hr.below c hc) (by omega) (by omega)
    have hrow := hr.frame hf hl
    rw [← flatMap_kids_of_body hbd] at hrow ⊢
    exact .down
      (ih (fun q hq h1 h2 => hb q hq (by omega) h2) (fun q hq h1 h2 => hp q hq (by omega) h2))
      (hi.frame hbd hpar) hrow

end

theorem kids_cons (s : NodeStore) (e : Nat × Nat) : ∃ K, s.kids e = (e.1,(s.node e.2).children 0) :: K :=
  ⟨_,firsts_cons _ _⟩

theorem lows_sublist (s : NodeStore) (U : Row) :
    (U.map Prod.fst).Sublist ((U.flatMap s.kids).map Prod.fst) := by
  induction U with
  | nil => exact Sublist.slnil
  | cons e U ih =>
    obtain ⟨K,hK⟩ := kids_cons s e
    simp only [flatMap_cons,hK,map_cons,cons_append,map_append]
    exact (ih.trans (sublist_append_right _ _)).cons_cons _

theorem low_le_of_mem_kids {c : Nat × Nat} (hs : (s.kids e).Pairwise (fun a b => a.1 < b.1))
    (hc : c ∈ s.kids e) : e.1 ≤ c.1 := by
  obtain ⟨K,hK⟩ := kids_cons s e
  rw [hK] at hs hc
  obtain ⟨hh,-⟩ := pairwise_cons.mp hs
  rcases mem_cons.mp hc with rfl | hmem
  · exact le_refl _
  · exact le_of_lt (hh c hmem)

theorem kids_sorted (h : (U.flatMap s.kids).Pairwise (fun a b => a.1 < b.1)) (he : e ∈ U) :
    (s.kids e).Pairwise (fun a b => a.1 < b.1) :=
  (pairwise_flatMap.mp h).1 e he

theorem flatMap_eq_append_cons {α β : Type} {f : α → List β} {U : List α} {A B : List β}
    {x : β} (h : U.flatMap f = A ++ x :: B) : ∃ UA u UB KA KB, U = UA ++ u :: UB ∧ f u = KA ++ x :: KB ∧
      A = UA.flatMap f ++ KA ∧ B = KB ++ UB.flatMap f := by
  induction U generalizing A with
  | nil => simp at h
  | cons u U ih =>
    rw [flatMap_cons] at h
    rcases append_eq_append_iff.mp h with ⟨C,hA,hC⟩ | ⟨C,hu,hC⟩
    · obtain ⟨UA,v,UB,KA,KB,rfl,hv,rfl,rfl⟩ := ih hC
      exact ⟨u :: UA,v,UB,KA,KB,rfl,hv,by simp [hA],rfl⟩
    cases C with
    | nil =>
      obtain ⟨UA,v,UB,KA,KB,rfl,hv,hA,rfl⟩ := ih (A := []) (by simpa using hC.symm)
      exact ⟨u :: UA,v,UB,KA,KB,rfl,hv,by simp [← hA,hu],rfl⟩
    | cons y C =>
      obtain ⟨rfl,rfl⟩ : x = y ∧ B = C ++ U.flatMap f := by simpa using hC
      exact ⟨[],u,U,A,C,rfl,by simpa using hu,by simp,rfl⟩

def firstName : Row → Nat
  | [] => 0
  | e :: _ => e.2

def Chained (s : NodeStore) : Row → Prop
  | [] => True
  | e :: L => (s.node e.2).next = firstName L ∧ Chained s L

structure LeafRow (s : NodeStore) (L : Row) : Prop where
  leaf : ∀ e ∈ L, (s.node e.2).isLeaf = true
  ascending : ∀ e ∈ L, Ascending (s.node e.2).entries
  low : ∀ e ∈ L, ∀ a ∈ (s.node e.2).entries, e.1 ≤ a.1
  separated : L.Pairwise (fun e f => ∀ a ∈ (s.node e.2).entries, a.1 < f.1)
  chained : Chained s L

def contents (s : NodeStore) (L : Row) : List (Nat × Nat) :=
  L.flatMap (fun e => (s.node e.2).entries)

variable {s s' : NodeStore} {L B : Row} {e : Nat × Nat} {lvl : Nat → Nat} {j fuel : Nat}

theorem Chained.frame (h : Chained s L) (hn : ∀ e ∈ L, (s'.node e.2).next = (s.node e.2).next) :
    Chained s' L := by
  induction L with
  | nil => trivial
  | cons e L ih =>
    refine ⟨?_,ih h.2 (fun f hf => hn f (mem_cons_of_mem _ hf))⟩
    rw [hn e mem_cons_self]
    exact h.1

theorem LeafRow.frame (h : LeafRow s L) (hb : ∀ e ∈ L, (s'.node e.2).body = (s.node e.2).body) :
    LeafRow s' L := by
  constructor
  · intro e he
    rw [isLeaf_of_body (hb e he)]
    exact h.leaf e he
  · intro e he
    rw [entries_of_body (hb e he)]
    exact h.ascending e he
  · intro e he
    rw [entries_of_body (hb e he)]
    exact h.low e he
  · refine h.separated.imp_of_mem ?_
    intro e f he _ hsep
    rw [entries_of_body (hb e he)]
    exact hsep
  · exact h.chained.frame (fun e he => next_of_body (hb e he))

theorem contents_of_body (hb : ∀ e ∈ L, (s'.node e.2).body = (s.node e.2).body) :
    contents s' L = contents s L :=
  flatMap_congr (fun e he => entries_of_body (hb e he))

theorem contents_append_cons (s : NodeStore) (A B : Row) (e : Nat × Nat) :
    contents s (A ++ e :: B) = contents s A ++ ((s.node e.2).entries ++ contents s B) := by
  simp [contents]

theorem kids_upperIndex {key : Nat} (hs : (s.kids e).Pairwise (fun a b => a.1 < b.1))
    (hkey : e.1 ≤ key) : ∃ KA c KB, s.kids e = KA ++ c :: KB ∧
      KA.length = upperIndex (s.node e.2) key 0 ∧ c.2 = (s.node e.2).children (upperIndex (s.node e.2) key 0) ∧
      c.1 ≤ key ∧ ∀ b ∈ KB, key < b.1 := by
  obtain ⟨hle,hlow,hh⟩ := upperIndex_spec (s.node e.2) key 0 (Nat.zero_le _) (fun j hj => by omega)
  generalize upperIndex (s.node e.2) key 0 = i at hle hlow hh
  refine ⟨_,_,_,firsts_split _ (show i < (s.node e.2).nkeys+1 by omega),firsts_length _ i,rfl,?_,?_⟩
  · cases i with
    | zero => exact hkey
    | succ i => exact hlow i (by omega)
  intro b hb
  obtain ⟨k,hk,rfl⟩ := mem_firsts.mp hb
  have hn := hh (by omega)
  have hm := pairwise_firsts.mp hs
  cases k with
  | zero => exact hn
  | succ k =>
    have h := hm (i+1) (i+1+(k+1)) (by omega) (by omega)
    exact Nat.lt_trans hn h

theorem leafSearch_spec (key : Nat) {A : Row} (h : Ladder s lvl j (A ++ e :: B) 0 L)
    (hl : LeafRow s L) (hfl : j < fuel) (hkey : e.1 ≤ key) (hB : ∀ b ∈ B, key < b.1) :
    ∃ LA lo LB, L = LA ++ (lo,leafSearch s key fuel e.2) :: LB ∧ lo ≤ key ∧ ∀ b ∈ LB, key < b.1 := by
  -- one level further down with every turn of the loop
  induction j generalizing A B e fuel with
  | zero =>
    obtain rfl := h.of_eq
    obtain ⟨fuel,rfl⟩ : ∃ k, fuel = k+1 := ⟨fuel-1,by omega⟩
    have hlf := hl.leaf e (by simp)
    refine ⟨A,e.1,B,?_,hkey,hB⟩
    simp [leafSearch,hlf]
  | succ j ih =>
    obtain ⟨hi,hd⟩ := h.uncons (Nat.zero_le _)
    obtain ⟨fuel,rfl⟩ : ∃ k, fuel = k+1 := ⟨fuel-1,by omega⟩
    have hmem : e ∈ A ++ e :: B := by simp
    have hs := hd.highest.sorted
    obtain ⟨KA,c,KB,hK,-,hc,hck,hKB⟩ := kids_upperIndex (kids_sorted hs hmem) hkey
    have hpos := h.highest.pos e hmem
    have hin := hi.inner e hmem
    have hst : leafSearch s key (fuel+1) e.2 = leafSearch s key fuel c.2 := by
      rw [hc]
      simp [leafSearch,hin,show e.2 ≠ 0 by omega]
    rw [hst]
    apply ih (A := A.flatMap s.kids ++ KA) (e := c) (B := KB ++ B.flatMap s.kids)
      ?_ (by omega) hck ?_
    · have hrow : (A ++ e :: B).flatMap s.kids =
          (A.flatMap s.kids ++ KA) ++ c :: (KB ++ B.flatMap s.kids) := by simp [hK]
      rw [← hrow]
      exact hd
    intro b hb
    rcases mem_append.mp hb with hb | hb
    · exact hKB b hb
    obtain ⟨f,hf,hbf⟩ := mem_flatMap.mp hb
    have hfm : f ∈ A ++ e :: B := by simp [hf]
    have hlow := low_le_of_mem_kids (kids_sorted hs hfm) hbf
    exact Nat.lt_of_lt_of_le (hB f hf) hlow

theorem leftmostLeaf_spec (h : Ladder s lvl j (e :: B) 0 L) (hl : LeafRow s L) (hf : j < fuel) :
    leftmostLeaf s fuel e.2 = firstName L := by
  induction j generalizing B e fuel with
  | zero =>
    obtain rfl := h.of_eq
    obtain ⟨fuel,rfl⟩ : ∃ k, fuel = k+1 := ⟨fuel-1,by omega⟩
    have hlf := hl.leaf e (by simp)
    simp [leftmostLeaf,hlf,firstName]
  | succ j ih =>
    obtain ⟨hi,hd⟩ := h.uncons (Nat.zero_le _)
    obtain ⟨fuel,rfl⟩ : ∃ k, fuel = k+1 := ⟨fuel-1,by omega⟩
    have hpos := h.highest.pos e (by simp)
    have hin := hi.inner e (by simp)
    obtain ⟨K,hK⟩ := kids_cons s e
    rw [flatMap_cons,hK,cons_append] at hd
    have hs := ih hd (show j < fuel by omega)
    simp [leftmostLeaf,hin,show e.2 ≠ 0 by omega]
    exact hs

def picked (minSeq n : Nat) (m : List (Nat × Nat)) : List Nat :=
  ((m.filter (fun a => minSeq ≤ a.1)).take n).map Prod.snd

def scanPair (minSeq maxOut : Nat) (out : List Nat) (a : Nat × Nat) : List Nat :=
  if minSeq ≤ a.1 ∧ out.length < maxOut then out ++ [a.2] else out

theorem scanLeaf_eq (n : HistBpNode) (minSeq maxOut : Nat) (out : List Nat) :
    scanLeaf n minSeq maxOut out = n.entries.foldl (scanPair minSeq maxOut) out := by
  simp only [scanLeaf,HistBpNode.entries,firsts,foldl_map,scanPair]

theorem foldl_scanPair (minSeq maxOut : Nat) (m : List (Nat × Nat)) (out : List Nat) :
    m.foldl (scanPair minSeq maxOut) out = out ++ picked minSeq (maxOut-out.length) m := by
  induction m generalizing out with
  | nil => simp [picked]
  | cons a m ih =>
    rw [foldl_cons,ih,scanPair]
    by_cases hmin : minSeq ≤ a.1
    · by_cases hr : out.length < maxOut
      · obtain ⟨k,hk⟩ : ∃ k, maxOut-out.length = k+1 := ⟨maxOut-out.length-1,by omega⟩
        rw [if_pos ⟨hmin,hr⟩,hk]
        simp [picked,hmin,show maxOut-(out.length+1) = k by omega]
      · rw [if_neg (by omega),show maxOut-out.length = 0 by omega]
        simp [picked]
    · simp [picked,hmin]

theorem scanChain_spec (minSeq maxOut : Nat) (out : List Nat) (hc : Chained s L)
    (hp : ∀ e ∈ L, 0 < e.2) (hfl : L.length ≤ fuel) : scanChain s minSeq maxOut fuel (firstName L) out =
      (contents s L).foldl (scanPair minSeq maxOut) out := by
  induction L generalizing fuel out with
  | nil => cases fuel <;> simp [scanChain,firstName,contents]
  | cons e L ih =>
    simp only [length_cons] at hfl
    obtain ⟨fuel,rfl⟩ : ∃ k, fuel = k+1 := ⟨fuel-1,by omega⟩
    have hpos := hp e mem_cons_self
    have hfr : firstName (e :: L) = e.2 := rfl
    rw [hfr,scanChain,if_neg (by omega),hc.1,
      ih _ hc.2 (fun f hf => hp f (mem_cons_of_mem _ hf)) (by omega),scanLeaf_eq,
      ← List.foldl_append]
    rfl

theorem RowOk.length_le (h : RowOk s lvl j L) : L.length ≤ s.fresh := by
  have hsub : (L.map Prod.snd).toFinset ⊆ Finset.range s.fresh := by
    intro q hq
    obtain ⟨e,he,rfl⟩ := mem_map.mp (mem_toFinset.mp hq)
    exact Finset.mem_range.mpr (h.below e he)
  have hc := Finset.card_le_card hsub
  rwa [toFinset_card_of_nodup h.names,length_map,Finset.card_range] at hc

def Fits (s : NodeStore) : Prop := ∀ q, (s.node q).nkeys ≤ bpMax

structure Grown (s : NodeStore) (lvl : Nat → Nat) (root d : Nat) (L : Row) : Prop where
  rows : Ladder s lvl d [(0,root)] 0 L
  leaves : LeafRow s L
  orphan : (s.node root).parent = 0
  room : d < s.fresh

def Represents (t : HistBptree) (m : List (Nat × Nat)) : Prop :=
  0 < t.store.fresh ∧ Fits t.store ∧ (t.root = 0 ∧ m = [] ∨
      t.root ≠ 0 ∧ ∃ lvl d L, Grown t.store lvl t.root d L ∧ contents t.store L = m)

theorem histBptRangeFromSeq_spec {t : HistBptree} {m : List (Nat × Nat)}
    (h : Represents t m) (minSeq maxOut : Nat) :
    histBptRangeFromSeq t minSeq maxOut = picked minSeq maxOut m := by
  obtain ⟨-,-,⟨hr,rfl⟩ | ⟨hr,lvl,d,L,hg,rfl⟩⟩ := h
  · simp [histBptRangeFromSeq,hr,picked]
  unfold histBptRangeFromSeq
  by_cases hmax : maxOut = 0
  · simp [hmax,picked]
  rw [if_neg (by tauto),leftmostLeaf_spec (e := (0,t.root)) hg.rows hg.leaves hg.room,
    scanChain_spec _ _ _ hg.leaves.chained hg.rows.lowest.pos hg.rows.lowest.length_le,
    foldl_scanPair]
  simp

end AevOS.BpTree
