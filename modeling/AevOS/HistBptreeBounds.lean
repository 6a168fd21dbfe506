import AevOS.HistBptreeInsert

/-! Which insertions stay inside the arrays of a node: a leaf with `bpMax` keys is filled once more
before it is split. -/

namespace AevOS.BpTree
open ArrayPrefix OrderedAssoc List

def Field.size : Field → Nat
  | .keys => bpMax
  | .vals => bpMax
  | .children => bpMax+1

def Write.InBounds (w : Write) : Prop := w.index < w.field.size
  deriving Decidable

def WritesInBounds (t : HistBptree) : Prop := ∀ w ∈ t.store.writes, w.InBounds
  deriving Decidable

def Logs (s s' : NodeStore) : Prop := ∀ w ∈ s.writes, w ∈ s'.writes

theorem Logs.refl (s : NodeStore) : Logs s s := fun _ h => h

variable {a s : NodeStore} {t : HistBptree} {m : List (Nat × Nat)}

theorem Logs.trans {b c : NodeStore} (h1 : Logs a b) (h2 : Logs b c) : Logs a c :=
  fun w h => h2 w (h1 w h)

theorem Logs.setKey (h : Logs a s) (p i k : Nat) :
    Logs a (s.setKey p i k) := fun w hw => mem_cons_of_mem _ (h w hw)

theorem Logs.setVal (h : Logs a s) (p i v : Nat) :
    Logs a (s.setVal p i v) := fun w hw => mem_cons_of_mem _ (h w hw)

theorem Logs.setChild (h : Logs a s) (p i c : Nat) :
    Logs a (s.setChild p i c) := fun w hw => mem_cons_of_mem _ (h w hw)

section
variable (grant : Nat → Bool) (p : Nat) (t : HistBptree) (s : NodeStore)

theorem logs_leafShift (leaf key i : Nat) (s : NodeStore) : Logs s (leafShift leaf key i s).2 := by
  induction i generalizing s with
  | zero => exact Logs.refl s
  | succ i ih =>
    unfold leafShift
    split
    · exact (((Logs.refl s).setKey _ _ _).setVal _ _ _).trans (ih _)
    · exact Logs.refl s

theorem logs_leafInsertSorted (leaf key val : Nat) : Logs s (leafInsertSorted s leaf key val) :=
  ((logs_leafShift leaf key (s.node leaf).nkeys s).setKey _ _ _).setVal _ _ _

theorem logs_internalShift (pos i : Nat) (s : NodeStore) : Logs s (internalShift p pos i s) := by
  induction i generalizing s with
  | zero => exact Logs.refl s
  | succ i ih =>
    unfold internalShift
    split
    · exact (((Logs.refl s).setKey _ _ _).setChild _ _ _).trans (ih _)
    · exact Logs.refl s

theorem logs_internalInsert (p pos key newChild : Nat) : Logs s (internalInsert s p pos key newChild) :=
  ((logs_internalShift p pos (s.node p).nkeys s).setKey _ _ _).setChild _ _ _

theorem logs_nodeAlloc (leaf : Bool) (s : NodeStore) : Logs s (nodeAlloc grant leaf s).2 := by
  unfold nodeAlloc
  split
  · exact Logs.refl s
  · exact Logs.refl s

theorem logs_foldl {α : Type} (f : NodeStore → α → NodeStore) (hf : ∀ s a, Logs s (f s a))
    (l : List α) (s : NodeStore) : Logs s (l.foldl f s) := by
  induction l generalizing s with
  | nil => exact Logs.refl s
  | cons a l ih => exact (hf s a).trans (ih _)

theorem logs_splitLeafNode (leaf : Nat) : Logs s (splitLeafNode grant s leaf).2 := by
  have ha := logs_nodeAlloc grant true s
  unfold splitLeafNode
  simp only
  split
  · exact ha
  · refine ha.trans (fun w hw => ?_)
    exact logs_foldl _ (fun s i => ((Logs.refl s).setKey _ _ _).setVal _ _ _) _ _ w hw

theorem logs_adoptChild (right j i : Nat) (s : NodeStore) : Logs s (adoptChild p right j i s) := (Logs.refl s).setChild _ _ _

theorem logs_splitInternalNode (p : Nat) : Logs s (splitInternalNode grant s p).2.2 := by
  have ha := logs_nodeAlloc grant false s
  unfold splitInternalNode
  simp only
  split
  · exact ha
  · refine ha.trans (fun w hw => logs_adoptChild _ _ _ _ _ w ?_)
    exact logs_foldl _ (fun s j => ((Logs.refl s).setKey _ _ _).trans
      (logs_adoptChild _ _ _ _ _)) _ _ w hw

theorem logs_growRoot (left sep newR : Nat) : Logs s (growRoot grant t s left sep newR).2.store := by
  have ha := logs_nodeAlloc grant false s
  unfold growRoot
  simp only
  split
  · exact ha
  · exact ((ha.setKey _ _ _).setChild _ _ _).setChild _ _ _

theorem logs_insertUp (fuel : Nat) (s : NodeStore) (left sep newR parent : Nat) :
    Logs s (insertUp grant t fuel s left sep newR parent).2.store := by
  induction fuel generalizing s left sep newR parent with
  | zero => exact Logs.refl s
  | succ fuel ih =>
    have hins := logs_internalInsert s parent (upperIndex (s.node parent) sep 0) sep newR
    have hs := hins.trans (logs_splitInternalNode grant _ parent)
    unfold insertUp
    simp only
    split
    · exact logs_growRoot grant t s left sep newR
    split
    · exact hins
    · split
      · exact hs
      · exact hs.trans (ih _ _ _ _ _)

theorem logs_histBptInsert (seq ringIdx : Nat) :
    Logs t.store (histBptInsert grant t seq ringIdx).2.store := by
  have ha := logs_nodeAlloc grant true t.store
  unfold histBptInsert
  simp only
  split
  · split
    · exact ha
    · exact (ha.setKey _ _ _).setVal _ _ _
  split
  · exact Logs.refl _
  split
  · exact (Logs.refl _).setVal _ _ _
  generalize leafSearch t.store seq t.store.fresh t.root = leaf
  have hins := logs_leafInsertSorted t.store leaf seq ringIdx
  have hs := hins.trans (logs_splitLeafNode grant _ leaf)
  split
  · exact hins
  · split
    · exact hs
    · exact hs.trans (logs_insertUp _ _ _ _ _ _ _ _)

theorem logs_insertEach (ops : List (Nat × Nat)) (t : HistBptree) :
    Logs t.store (insertEach grant ops t).store := by
  induction ops generalizing t with
  | nil => exact Logs.refl _
  | cons o ops ih => exact (logs_histBptInsert grant t o.1 o.2).trans (ih _)

theorem leafShift_inBounds (leaf key i : Nat) (s : NodeStore) (hi : i < bpMax)
    (h : ∀ w ∈ s.writes, w.InBounds) : ∀ w ∈ (leafShift leaf key i s).2.writes, w.InBounds := by
  induction i generalizing s with
  | zero => exact h
  | succ i ih =>
    unfold leafShift
    split
    · apply ih _ (by omega)
      intro w hw
      rcases mem_cons.mp hw with rfl | hw
      · exact hi
      · rcases mem_cons.mp hw with rfl | hw
        · exact hi
        · exact h w hw
    · exact h

theorem leafInsertSorted_inBounds (leaf key val : Nat) (hn : (s.node leaf).nkeys < bpMax)
    (h : ∀ w ∈ s.writes, w.InBounds) : ∀ w ∈ (leafInsertSorted s leaf key val).writes, w.InBounds := by
  have hpos := lt_of_le_of_lt (leafShift_le leaf key (s.node leaf).nkeys s) hn
  intro w hw
  rcases mem_cons.mp hw with rfl | hw
  · exact hpos
  · rcases mem_cons.mp hw with rfl | hw
    · exact hpos
    · exact leafShift_inBounds leaf key _ s hn h w hw

theorem leafInsertSorted_full (leaf key val : Nat) (hn : (s.node leaf).nkeys = bpMax) :
    ⟨.keys,bpMax⟩ ∈ (leafInsertSorted s leaf key val).writes := by
  unfold leafInsertSorted
  rw [hn]
  by_cases hlt : key < (s.node leaf).keys (bpMax-1)
  · have hs : (⟨.keys,bpMax⟩ : Write) ∈ (leafShift leaf key bpMax s).2.writes := by
      rw [show bpMax = (bpMax-1)+1 from rfl,leafShift,if_pos hlt]
      apply logs_leafShift
      exact mem_cons_of_mem _ mem_cons_self
    exact mem_cons_of_mem _ (mem_cons_of_mem _ hs)
  have hst : leafShift leaf key bpMax s = (bpMax,s) := by
    rw [show bpMax = (bpMax-1)+1 from rfl,leafShift,if_neg hlt]
  rw [hst]
  exact mem_cons_of_mem _ mem_cons_self

end

structure OneLeaf (t : HistBptree) (m : List (Nat × Nat)) : Prop where
  root : t.root ≠ 0
  fresh : 0 < t.store.fresh
  leaf : (t.store.node t.root).isLeaf = true
  entries : (t.store.node t.root).entries = m
  ascending : Ascending m
  fits : m.length ≤ bpMax
  safe : WritesInBounds t

theorem OneLeaf.nkeys (h : OneLeaf t m) : (t.store.node t.root).nkeys = m.length := by
  rw [← h.entries,HistBpNode.entries,firsts_length]

theorem OneLeaf.search (h : OneLeaf t m) (key : Nat) :
    leafSearch t.store key t.store.fresh t.root = t.root := by
  obtain ⟨fuel,hf⟩ : ∃ k, t.store.fresh = k+1 := ⟨t.store.fresh-1,by have := h.fresh; omega⟩
  rw [hf,leafSearch,if_pos (.inr h.leaf)]

section
variable {t : HistBptree} {m : List (Nat × Nat)} {seq : Nat}

section
variable (h : OneLeaf t m)
include h

theorem OneLeaf.insert_found (grant : Nat → Bool) (idx : Nat) {i : Nat}
    (hf : findKey (t.store.node t.root) seq = some i) :
    OneLeaf (histBptInsert grant t seq idx).2 (insertPair seq idx m) := by
  obtain ⟨hik,hkey⟩ := findKey_some hf
  have hasc := h.ascending
  have hnk := h.nkeys
  have hft := h.fits
  obtain rfl := h.entries
  have hnew := setVal_entries idx hik hkey hasc
  have hlen : (insertPair seq idx (t.store.node t.root).entries).length =
      (t.store.node t.root).entries.length := by
    rw [← hnew,HistBpNode.entries,firsts_length,setVal_node,setAt_self,hnk]
  have hins : histBptInsert grant t seq idx =
      (0,{ t with store := t.store.setVal t.root i idx }) := by
    simp only [histBptInsert,h.search seq,hf]
    rw [if_neg h.root,if_neg h.root]
  rw [hins]
  refine ⟨h.root,h.fresh,?_,hnew,hasc.insertPair seq idx,by omega,?_⟩
  · simp only [setVal_node,setAt_self]
    exact h.leaf
  intro w hw
  rcases mem_cons.mp hw with rfl | hw
  · show i < bpMax
    omega
  · exact h.safe w hw

theorem OneLeaf.insert_length (idx : Nat)
    (hf : findKey (t.store.node t.root) seq = none) : (insertPair seq idx m).length = m.length+1 ∧
      ((leafInsertSorted t.store t.root seq idx).node t.root).entries = insertPair seq idx m := by
  have hnk := h.nkeys
  have hasc := h.ascending
  obtain rfl := h.entries
  have hbig : (t.store.node t.root).nkeys < 255 := by
    rw [hnk]
    exact lt_of_le_of_lt h.fits (by decide)
  have hnew := leafInsertSorted_entries t.store t.root seq idx hbig hasc (findKey_none hf)
  refine ⟨?_,hnew⟩
  rw [← hnew,HistBpNode.entries,firsts_length,(leafInsertSorted_leaf t.store t.root seq idx hbig).2.1,
    hnk]

theorem OneLeaf.insert_new (grant : Nat → Bool) (idx : Nat)
    (hf : findKey (t.store.node t.root) seq = none) (hr : m.length < bpMax) :
    OneLeaf (histBptInsert grant t seq idx).2 (insertPair seq idx m) := by
  obtain ⟨hlen,hnew⟩ := h.insert_length idx hf
  have hnk : (t.store.node t.root).nkeys < bpMax := by
    rw [h.nkeys]
    exact hr
  have hins : histBptInsert grant t seq idx =
      (0,{ t with store := leafInsertSorted t.store t.root seq idx }) := by
    simp only [histBptInsert,h.search seq,hf]
    rw [if_neg h.root,if_neg h.root,if_pos hnk]
  rw [hins]
  have hl := (leafInsertSorted_leaf t.store t.root seq idx (lt_trans hnk (by decide))).1
  refine ⟨h.root,?_,hl.trans h.leaf,hnew,h.ascending.insertPair seq idx,by omega,
    leafInsertSorted_inBounds t.store t.root seq idx hnk h.safe⟩
  simp only [leafInsertSorted_fresh]
  exact h.fresh

theorem OneLeaf.insert_full (grant : Nat → Bool) (idx : Nat)
    (hf : findKey (t.store.node t.root) seq = none) (hfl : m.length = bpMax) :
    ¬ WritesInBounds (histBptInsert grant t seq idx).2 := by
  have hnk : (t.store.node t.root).nkeys = bpMax := h.nkeys.trans hfl
  have hbad := leafInsertSorted_full t.store t.root seq idx hnk
  have hout : ¬ (⟨.keys,bpMax⟩ : Write).InBounds := by decide
  intro hall
  apply hout
  apply hall
  simp only [histBptInsert,h.search seq,hf]
  rw [if_neg h.root,if_neg h.root,if_neg (by omega)]
  split
  · exact logs_splitLeafNode grant _ _ _ hbad
  · exact logs_insertUp _ _ _ _ _ _ _ _ _ (logs_splitLeafNode grant _ _ _ hbad)

theorem OneLeaf.insert (grant : Nat → Bool) (seq idx : Nat) :
    ((insertPair seq idx m).length ≤ bpMax ∧
        OneLeaf (histBptInsert grant t seq idx).2 (insertPair seq idx m)) ∨
      (bpMax < (insertPair seq idx m).length ∧ ¬ WritesInBounds (histBptInsert grant t seq idx).2) := by
  cases hf : findKey (t.store.node t.root) seq with
  | some i =>
    have hone := h.insert_found grant idx hf
    exact .inl ⟨hone.fits,hone⟩
  | none =>
    obtain ⟨hlen,-⟩ := h.insert_length idx hf
    have hft := h.fits
    rcases lt_or_ge m.length bpMax with hlt | hge
    · have hone := h.insert_new grant idx hf hlt
      exact .inl ⟨hone.fits,hone⟩
    · exact .inr ⟨by omega,h.insert_full grant idx hf (by omega)⟩

end

end

def rooted (grant : Nat → Bool) : Nat → List (Nat × Nat) → List (Nat × Nat)
  | _, [] => []
  | a, o :: ops => if grant a then o :: ops else rooted grant (a+1) ops

theorem insertEach_oneLeaf (grant : Nat → Bool) (ops done : List (Nat × Nat)) (t : HistBptree)
    (h : OneLeaf t (insertAll done)) : WritesInBounds (insertEach grant ops t) ↔
      ((done ++ ops).map Prod.fst).toFinset.card ≤ bpMax := by
  induction ops generalizing done t with
  | nil =>
    rw [append_nil,← length_insertAll]
    exact ⟨fun _ => h.fits,fun _ => h.safe⟩
  | cons o ops ih =>
    have hins := h.insert grant o.1 o.2
    rw [← insertAll_append_singleton] at hins
    rw [append_cons]
    rcases hins with ⟨-,hone⟩ | ⟨hbig,hbad⟩
    · exact ih (done ++ [o]) _ hone
    · -- the log keeps the bad write, and the set of keys keeps its four members
      constructor
      · intro hall
        exact absurd (fun w hw => hall w (logs_insertEach grant ops _ w hw)) hbad
      intro hc
      rw [length_insertAll] at hbig
      have hsub : ((done ++ [o]).map Prod.fst).toFinset ⊆
          ((done ++ [o] ++ ops).map Prod.fst).toFinset := by
        intro k hk
        simp only [mem_toFinset,map_append,mem_append] at hk ⊢
        tauto
      have hle := Finset.card_le_card hsub
      omega

theorem histBptInsert_first (grant : Nat → Bool) (t : HistBptree) (o : Nat × Nat)
    (hr : t.root = 0) (hpos : 0 < t.store.fresh) (hs : WritesInBounds t) :
    if grant t.store.attempts then OneLeaf (histBptInsert grant t o.1 o.2).2 [o]
    else (histBptInsert grant t o.1 o.2).2 =
      { t with store := { t.store with attempts := t.store.attempts+1 } } := by
  unfold histBptInsert
  rw [if_pos hr]
  cases hg : grant t.store.attempts with
  | true =>
    rw [if_pos rfl]
    simp only [nodeAlloc_granted true hg]
    rw [if_neg (by omega)]
    refine ⟨by simp only; omega,Nat.succ_pos _,?_,?_,pairwise_singleton _ _,
      (by decide : 1 ≤ bpMax),?_⟩
    · simp only [setNkeys_node,setVal_node,setKey_node,setAt_self]
      rfl
    · simp only [setNkeys_node,setVal_node,setKey_node,setAt_self]
      rfl
    intro w hw
    rcases mem_cons.mp hw with rfl | hw
    · show 0 < bpMax
      decide
    rcases mem_cons.mp hw with rfl | hw
    · show 0 < bpMax
      decide
    · exact hs w hw
  | false =>
    simp [nodeAlloc,hg]

theorem insertEach_inBounds_from (grant : Nat → Bool) (ops : List (Nat × Nat)) (t : HistBptree)
    (hr : t.root = 0) (hpos : 0 < t.store.fresh) (hs : WritesInBounds t) :
    WritesInBounds (insertEach grant ops t) ↔
      ((rooted grant t.store.attempts ops).map Prod.fst).toFinset.card ≤ bpMax := by
  induction ops generalizing t with
  | nil => exact ⟨fun _ => Nat.zero_le _,fun _ => hs⟩
  | cons o ops ih =>
    have hf := histBptInsert_first grant t o hr hpos hs
    rw [rooted]
    split at hf
    · rename_i hg
      rw [if_pos hg]
      exact insertEach_oneLeaf grant ops [o] _ hf
    · rename_i hg
      rw [if_neg hg,insertEach,foldl_cons,hf]
      exact ih _ hr hpos hs

theorem insertEach_inBounds_iff (grant : Nat → Bool) (ops : List (Nat × Nat)) :
    WritesInBounds (insertEach grant ops histBptInit) ↔
      ((rooted grant 0 ops).map Prod.fst).toFinset.card ≤ bpMax :=
  insertEach_inBounds_from grant ops histBptInit rfl (by decide)
    (fun w hw => absurd hw (not_mem_nil))

theorem insertEach_four_outOfBounds : ¬ WritesInBounds
    (insertEach (fun _ => true) [(1,0),(2,1),(3,2),(4,3)] histBptInit) := by
  decide +kernel

end AevOS.BpTree
