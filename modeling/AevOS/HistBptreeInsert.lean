import AevOS.HistBptreeRows

/-! Insertion keeps the tree's shape. Hanging a pending node into its parent ends the insertion, or
splits the parent and leaves a pending node one level up. -/

namespace AevOS.BpTree
open ArrayPrefix List

theorem split_length_eq {α : Type} (P : α → Bool) {A A' B B' : List α} {c c' : α}
    (h : A ++ c :: B = A' ++ c' :: B') (hA : ∀ a ∈ A, P a) (hc : P c) (hB : ∀ b ∈ B, ¬ P b)
    (hA' : ∀ a ∈ A', P a) (hc' : P c') (hB' : ∀ b ∈ B', ¬ P b) : A.length = A'.length := by
  have hcn := congrArg (countP P) h
  rw [countP_append,countP_append,countP_cons_of_pos hc,
    countP_cons_of_pos hc',countP_eq_length.mpr hA,countP_eq_length.mpr hA',
    countP_eq_zero.mpr hB,countP_eq_zero.mpr hB'] at hcn
  omega

variable {s : NodeStore} {e c x : Nat × Nat} {p ulo i right promo q : Nat} {UA UB : Row}

theorem upperIndex_eq {key : Nat} {KA KB : Row} (hK : s.kids e = KA ++ c :: KB)
    (hs : (s.kids e).Pairwise (fun a b => a.1 < b.1)) (hc : c.1 ≤ key) (hKB : ∀ b ∈ KB, key < b.1) :
    upperIndex (s.node e.2) key 0 = KA.length := by
  have hle : e.1 ≤ key := le_trans (low_le_of_mem_kids hs (by simp [hK])) hc
  obtain ⟨KA',c',KB',hK',hlen,-,hck,hKB'⟩ := kids_upperIndex hs hle
  have hf : ∀ {A B : Row} {x : Nat × Nat}, s.kids e = A ++ x :: B → x.1 ≤ key →
      ∀ a ∈ A, a.1 ≤ key := by
    intro A B x hx hxk a ha
    rw [hx] at hs
    have hlt := (pairwise_append.mp hs).2.2 a ha x mem_cons_self
    omega
  rw [← hlen]
  apply split_length_eq (fun a => decide (a.1 ≤ key)) (hK'.symm.trans hK)
  · simpa using hf hK' hck
  · simpa using hck
  · simpa using hKB'
  · simpa using hf hK hc
  · simpa using hc
  · simpa using hKB

theorem internalInsert_kids_split (key newChild : Nat) {KA KB : Row} (hK : s.kids e = KA ++ c :: KB)
    (hn : (s.node e.2).nkeys < 255) (hne : newChild ≠ e.2) :
    (internalInsert s e.2 KA.length key newChild).kids e = KA ++ c :: (key,newChild) :: KB := by
  have hlen : (s.node e.2).nkeys+1 = KA.length+1+KB.length := by
    have h := congrArg List.length hK
    simp only [NodeStore.kids,HistBpNode.kids,firsts_length,length_append,length_cons] at h
    omega
  have hs := firsts_add (fun i => ((s.node e.2).low e.1 i,(s.node e.2).children i))
    (KA.length+1) KB.length
  rw [← hlen] at hs
  have hb := hs.symm.trans (hK.trans (append_cons KA c KB))
  obtain ⟨hl,hr⟩ := append_inj hb (by simp)
  rw [NodeStore.kids,internalInsert_kids s e.2 KA.length key newChild e.1 (by omega) hn hne,
    hl,show (s.node e.2).nkeys+1-(KA.length+1) = KB.length by omega,hr]
  simp

structure Pending (s : NodeStore) (lvl : Nat → Nat) (root d j : Nat) (A B : Row)
    (lo left sep newR : Nat) (L : Row) : Prop where
  up : Ladder s lvl d [(0,root)] j (A ++ (lo,left) :: B)
  down : Ladder s lvl j (A ++ (lo,left) :: (sep,newR) :: B) 0 L
  leaves : LeafRow s L
  orphan : (s.node root).parent = 0
  room : d < s.fresh

structure Joined (s : NodeStore) (lvl : Nat → Nat) (root d j : Nat) (U L : Row) : Prop where
  up : Ladder s lvl d [(0,root)] (j+1) U
  inner : InnerRow s U
  down : Ladder s lvl j (U.flatMap s.kids) 0 L
  leaves : LeafRow s L
  orphan : (s.node root).parent = 0
  room : d < s.fresh

section
variable {s s' : NodeStore} {lvl : Nat → Nat} {root d j : Nat} {A B L : Row}
  {lo left sep newR : Nat}

theorem Joined.grown {U : Row} (h : Joined s lvl root d j U L) : Grown s lvl root d L :=
  ⟨h.up.trans (.cons h.up.lowest h.inner h.down),h.leaves,h.orphan,h.room⟩

theorem RowOk.ne_of_mem (h : RowOk s lvl j (A ++ x :: B)) (he : e ∈ A ∨ e ∈ B) : e.2 ≠ x.2 := by
  have hn := h.names
  rw [map_append,map_cons,nodup_append] at hn
  obtain ⟨-,hx,hdis⟩ := hn
  rcases he with he | he
  · exact hdis _ (mem_map_of_mem he) _ mem_cons_self
  · intro heq
    exact (nodup_cons.mp hx).1 (heq ▸ mem_map_of_mem he)

theorem RowOk.eq_or_ne (h : RowOk s lvl j (A ++ x :: B)) (he : e ∈ A ++ x :: B) : e = x ∨ e.2 ≠ x.2 := by
  by_cases hee : e = x
  · exact .inl hee
  · exact .inr (h.ne_of_mem (by simpa [hee] using he))

theorem mem_of_mem_insert {y : Nat × Nat} (h : e ∈ A ++ x :: y :: B) : e = y ∨ e ∈ A ++ x :: B := by
  simp only [mem_append,mem_cons] at h ⊢
  tauto

theorem RowOk.insertFresh (h : RowOk s lvl j (A ++ x :: B)) (hpos : 0 < s.fresh)
    (hf : s.fresh < s'.fresh) (hs : (A ++ x :: (sep,s.fresh) :: B).Pairwise (fun a b => a.1 < b.1)) :
    RowOk s' (setAt lvl s.fresh j) j (A ++ x :: (sep,s.fresh) :: B) := by
  refine ⟨hs,?_,?_,?_,?_⟩
  · rw [append_cons,map_append,map_cons,nodup_middle,← map_append,← append_cons]
    refine nodup_cons.mpr ⟨fun hx => ?_,h.names⟩
    obtain ⟨e,he,hee⟩ := mem_map.mp hx
    have hb := h.below e he
    omega
  all_goals
    intro e he
    rcases mem_of_mem_insert he with rfl | he
  · exact setAt_self _ _ _
  · have hb := h.below e he
    rw [setAt_ne _ _ (by omega)]
    exact h.level e he
  · exact hpos
  · exact h.pos e he
  · exact hf
  · exact lt_trans (h.below e he) hf

theorem Pending.locate (h : Pending s lvl root d j A B lo left sep newR L) (hj : j < d) :
    ∃ UA ulo UB KA KB, Ladder s lvl d [(0,root)] (j+1) (UA ++ (ulo,(s.node left).parent) :: UB) ∧
      InnerRow s (UA ++ (ulo,(s.node left).parent) :: UB) ∧
      s.kids (ulo,(s.node left).parent) = KA ++ (lo,left) :: KB ∧
      A = UA.flatMap s.kids ++ KA ∧ B = KB ++ UB.flatMap s.kids ∧
      upperIndex (s.node (s.node left).parent) sep 0 = KA.length := by
  have hs := h.down.highest.sorted
  obtain ⟨hup,-,-,-⟩ := h
  generalize hrow : A ++ (lo,left) :: B = R at hup
  cases hup with
  | top _ => omega
  | @down _ U hup hi hr =>
    obtain ⟨UA,u,UB,KA,KB,rfl,hu,hA,hB⟩ := flatMap_eq_append_cons hrow.symm
    have hmem : u ∈ UA ++ u :: UB := by simp
    have hpar : (s.node left).parent = u.2 := hi.parent u hmem (lo,left) (by simp [hu])
    obtain ⟨ulo,p⟩ := u
    simp only at hpar
    rw [hpar]
    refine ⟨UA,ulo,UB,KA,KB,hup,hi,hu,hA,hB,?_⟩
    obtain ⟨-,ht,-⟩ := pairwise_append.mp hs
    obtain ⟨hl,ht⟩ := pairwise_cons.mp ht
    obtain ⟨hrg,-⟩ := pairwise_cons.mp ht
    refine upperIndex_eq (c := (lo,left)) hu (kids_sorted hr.sorted hmem)
      (le_of_lt (hl _ mem_cons_self)) ?_
    intro b hb
    exact hrg b (by simp [hB,hb])

structure Hung (s s' : NodeStore) (p newR : Nat) : Prop where
  fresh : s'.fresh = s.fresh
  isLeaf : (s'.node p).isLeaf = (s.node p).isLeaf
  adopted : (s'.node newR).parent = p
  body : ∀ q, q ≠ p → (s'.node q).body = (s.node q).body
  parent : ∀ q, q ≠ newR → (s'.node q).parent = (s.node q).parent

theorem internalInsert_hung {pos : Nat} (sep newR : Nat) (hpos : pos ≤ (s.node p).nkeys)
    (hn : (s.node p).nkeys < 255) (hne : newR ≠ p) : Hung s (internalInsert s p pos sep newR) p newR := by
  have hnd := internalInsert_node s p pos sep newR hpos hn hne
  refine ⟨internalInsert_fresh s p pos sep newR,?_,?_,?_,?_⟩
  · rw [hnd,setAt_self]
  · rw [hnd,setAt_ne _ _ hne,setAt_self]
  · intro q hq
    rw [hnd,setAt_ne _ _ hq]
    by_cases hc : q = newR
    · rw [hc,setAt_self,body_setParent]
    · rw [setAt_ne _ _ hc]
  intro q hq
  rw [hnd]
  by_cases hc : q = p
  · rw [hc,setAt_self]
  · rw [setAt_ne _ _ hc,setAt_ne _ _ hq]

theorem Hung.innerRow (hs : Hung s s' p newR) (hrow : RowOk s lvl (j+1) (UA ++ (ulo,p) :: UB))
    (hi : InnerRow s (UA ++ (ulo,p) :: UB)) (hkd : ∀ c ∈ s'.kids (ulo,p), c.2 = newR ∨ c ∈ s.kids (ulo,p))
    (hnew : ∀ c ∈ (UA ++ (ulo,p) :: UB).flatMap s.kids, c.2 ≠ newR) : InnerRow s' (UA ++ (ulo,p) :: UB) := by
  have hk : ∀ e ∈ UA ++ (ulo,p) :: UB, ∀ c ∈ s.kids e, (s'.node c.2).parent = e.2 := by
    intro e he c hc
    rw [hs.parent c.2 (hnew c (mem_flatMap.mpr ⟨e,he,hc⟩))]
    exact hi.parent e he c hc
  refine ⟨?_,?_⟩
  · intro e he
    rcases hrow.eq_or_ne he with rfl | hep
    · rw [hs.isLeaf]
      exact hi.inner _ he
    · rw [isLeaf_of_body (hs.body e.2 hep)]
      exact hi.inner e he
  intro e he c hc
  rcases hrow.eq_or_ne he with rfl | hep
  · rcases hkd c hc with hcR | hold
    · rw [hcR]
      exact hs.adopted
    · exact hk _ he c hold
  · rw [NodeStore.kids,kids_of_body (hs.body e.2 hep)] at hc
    exact hk e he c hc

theorem Hung.flatMap_kids (hs : Hung s s' p newR) (hrow : RowOk s lvl (j+1) (UA ++ (ulo,p) :: UB)) :
    (UA ++ (ulo,p) :: UB).flatMap s'.kids = UA.flatMap s.kids ++ (s'.kids (ulo,p) ++ UB.flatMap s.kids) := by
  have hb : ∀ e, e ∈ UA ∨ e ∈ UB → (s'.node e.2).body = (s.node e.2).body :=
    fun e he => hs.body e.2 (hrow.ne_of_mem he)
  rw [flatMap_append,flatMap_cons,flatMap_kids_of_body (fun e he => hb e (.inl he)),
    flatMap_kids_of_body (fun e he => hb e (.inr he))]

theorem Pending.hang (h : Pending s lvl root d j A B lo left sep newR L) (hj : j < d) (hfit : Fits s) :
    ∃ UA ulo UB, Joined (internalInsert s (s.node left).parent
        (upperIndex (s.node (s.node left).parent) sep 0) sep newR) lvl root d j
      (UA ++ (ulo,(s.node left).parent) :: UB) L ∧ contents (internalInsert s (s.node left).parent
        (upperIndex (s.node (s.node left).parent) sep 0) sep newR) L = contents s L := by
  obtain ⟨UA,ulo,UB,KA,KB,hup,hi,hK,rfl,rfl,hpos⟩ := h.locate hj
  obtain ⟨p,hp⟩ : ∃ p, p = (s.node left).parent := ⟨_,rfl⟩
  rw [← hp] at hup hi hK hpos ⊢
  rw [hpos]
  have hrow := h.down.highest
  have hpl : lvl p = j+1 := hup.lowest.level (ulo,p) (by simp)
  have hrl : lvl newR = j := hrow.level (sep,newR) (by simp)
  have hne : newR ≠ p := fun he => by rw [he] at hrl; omega
  have hn : (s.node p).nkeys < 255 := by
    have hf := hfit p
    simp only [bpMax] at hf
    omega
  have hr : KA.length ≤ (s.node p).nkeys := by
    have hlen := congrArg List.length hK
    simp [NodeStore.kids,HistBpNode.kids] at hlen
    omega
  have hs := internalInsert_hung sep newR hr hn hne
  have hk := internalInsert_kids_split sep newR hK hn hne
  simp only at hk
  generalize internalInsert s p KA.length sep newR = s' at hs hk
  have hl : ∀ e ∈ L, (s'.node e.2).body = (s.node e.2).body := by
    intro e he
    have hlev := h.down.lowest.level e he
    exact hs.body e.2 (fun heq => by rw [heq] at hlev; omega)
  have hfl : (UA ++ (ulo,p) :: UB).flatMap s'.kids =
      UA.flatMap s.kids ++ KA ++ (lo,left) :: (sep,newR) :: (KB ++ UB.flatMap s.kids) := by
    rw [hs.flatMap_kids hup.lowest,hk]
    simp
  refine ⟨UA,ulo,UB,⟨?_,hs.innerRow hup.lowest hi ?_ ?_,?_,h.leaves.frame hl,?_,
    hs.fresh ▸ h.room⟩,contents_of_body hl⟩
  · refine hup.frame (le_of_eq hs.fresh.symm) (fun _ _ => rfl) ?_ ?_
    · intro q _ h1 _
      exact hs.body q (fun he => by rw [he] at h1; omega)
    · intro q _ h1 _
      exact hs.parent q (fun he => by rw [he] at h1; omega)
  · intro c hc
    rw [hk] at hc
    rw [hK]
    exact (mem_of_mem_insert hc).imp_left (fun he => by rw [he])
  · intro c hc
    rw [flatMap_append,flatMap_cons,hK] at hc
    rw [append_cons] at hrow
    refine hrow.ne_of_mem ?_
    rw [← mem_append,← append_cons]
    simpa using hc
  · rw [hfl]
    refine h.down.frame (le_of_eq hs.fresh.symm) (fun _ _ => rfl) ?_ ?_
    · intro q _ _ h2
      exact hs.body q (fun he => by rw [he] at h2; omega)
    · intro q _ _ h2
      exact hs.parent q (fun he => by rw [he] at h2; omega)
  · have hrt : lvl root = d := h.up.highest.level (0,root) (by simp)
    rw [hs.parent root (fun he => by rw [he] at hrt; omega)]
    exact h.orphan

theorem mem_kids (e : Nat × Nat) (hi : i ≤ (s.node e.2).nkeys) :
    ((s.node e.2).low e.1 i,(s.node e.2).children i) ∈ s.kids e :=
  mem_firsts.mpr ⟨i,by omega,rfl⟩

theorem children_ne (h : ((s.kids (lo,left)).map Prod.snd).Nodup) {k : Nat} (hik : i < k)
    (hk : k ≤ (s.node left).nkeys) : (s.node left).children i ≠ (s.node left).children k := by
  rw [NodeStore.kids,HistBpNode.kids,map_firsts] at h
  exact pairwise_firsts.mp h i k hik (Nat.lt_succ_of_le hk)

section
variable (hs : InnerSplit s s' p right promo)
include hs

theorem InnerSplit.kids_left (lo : Nat) :
    s'.kids (lo,p) = (s.kids (lo,p)).take ((s.node p).nkeys/2+1) := by
  simp only [NodeStore.kids]
  rw [hs.left,HistBpNode.kids,HistBpNode.kids,firsts_take _ (by omega)]
  rfl

theorem InnerSplit.body (h1 : q ≠ p) (h2 : q ≠ right) : (s'.node q).body = (s.node q).body := by
  by_cases hm : ∃ i, (s.node p).nkeys/2 < i ∧ i ≤ (s.node p).nkeys ∧ (s.node p).children i = q
  · obtain ⟨i,hi1,hi2,rfl⟩ := hm
    rw [hs.moved i hi1 hi2,body_setParent]
  · rw [hs.other q h1 h2 (fun i hi1 hi2 he => hm ⟨i,hi1,hi2,he⟩)]

theorem InnerSplit.parent_eq (hq : q ≠ right)
    (hm : ∀ i, (s.node p).nkeys/2 < i → i ≤ (s.node p).nkeys → (s.node p).children i ≠ q) :
    (s'.node q).parent = (s.node q).parent := by
  by_cases hp : q = p
  · rw [hp,hs.left]
  · rw [hs.other q hp hq hm]

end

theorem InnerSplit.innerRow {u : Nat} (hs : InnerSplit s s' u s.fresh promo)
    (hi : InnerRow s (UA ++ (ulo,u) :: UB)) (hrow : RowOk s lvl (j+1) (UA ++ (ulo,u) :: UB))
    (hkd : RowOk s lvl j ((UA ++ (ulo,u) :: UB).flatMap s.kids)) :
    InnerRow s' (UA ++ (ulo,u) :: (promo,s.fresh) :: UB) := by
  have hmem : (ulo,u) ∈ UA ++ (ulo,u) :: UB := by simp
  have hnd : ((s.kids (ulo,u)).map Prod.snd).Nodup := by
    have hn := hkd.names
    simp only [flatMap_append,flatMap_cons,map_append] at hn
    exact hn.of_append_right.of_append_left
  refine ⟨?_,?_⟩
  · intro e he
    rcases mem_of_mem_insert he with rfl | he
    · exact hs.isLeaf
    rcases hrow.eq_or_ne he with rfl | heu
    · rw [hs.left]
      exact hi.inner _ hmem
    · rw [isLeaf_of_body (hs.body heu (ne_of_lt (hrow.below e he)))]
      exact hi.inner e he
  intro e he c hc
  rcases mem_of_mem_insert he with rfl | he
  · rw [show s'.kids (promo,s.fresh) = _ from hs.kids ulo,HistBpNode.kids,
      firsts_drop _ (by omega)] at hc
    obtain ⟨k,hk,rfl⟩ := mem_firsts.mp hc
    simp only
    rw [hs.moved _ (by omega) (by omega)]
  rcases hrow.eq_or_ne he with rfl | heu
  · rw [hs.kids_left,NodeStore.kids,HistBpNode.kids,firsts_take _ (by simp; omega)] at hc
    obtain ⟨k,hk,rfl⟩ := mem_firsts.mp hc
    simp only at hk ⊢
    have hin := mem_kids (s := s) (i := k) (ulo,u) (by simp only; omega)
    have hb := hkd.below _ (mem_flatMap.mpr ⟨_,hmem,hin⟩)
    rw [hs.parent_eq (ne_of_lt hb) (fun i h1 h2 => (children_ne hnd (by omega) h2).symm)]
    exact hi.parent _ hmem _ hin
  rw [NodeStore.kids,kids_of_body (hs.body heu (ne_of_lt (hrow.below e he)))] at hc
  have hb := hkd.below _ (mem_flatMap.mpr ⟨e,he,hc⟩)
  rw [hs.parent_eq (ne_of_lt hb)]
  · exact hi.parent e he c hc
  · -- a child of `u` has `u` for its parent, not `e`
    intro i _ h2 hic
    have hpu := hi.parent _ hmem _ (mem_kids (s := s) (ulo,u) h2)
    simp only [hic] at hpu
    exact heu ((hi.parent e he c hc).symm.trans hpu)

theorem Joined.split {u : Nat} (h : Joined s lvl root d j (UA ++ (ulo,u) :: UB) L)
    (hs : InnerSplit s s' u s.fresh promo) :
    Pending s' (setAt lvl s.fresh (j+1)) root d (j+1) UA UB ulo u promo s.fresh L ∧
      contents s' L = contents s L := by
  have hrow := h.up.lowest
  have hmem : (ulo,u) ∈ UA ++ (ulo,u) :: UB := by simp
  have hul : lvl u = j+1 := hrow.level _ hmem
  have hlvl : ∀ q, q < s.fresh → setAt lvl s.fresh (j+1) q = lvl q :=
    fun q hq => setAt_ne _ _ (by omega)
  have hf : s.fresh ≤ s'.fresh := by rw [hs.fresh]; omega
  have hlow : ∀ e ∈ UA ++ (ulo,u) :: UB, ∀ c ∈ s.kids e, lvl c.2 = j ∧ c.2 < s.fresh := by
    intro e he c hc
    have hc' := mem_flatMap.mpr ⟨e,he,hc⟩
    exact ⟨h.down.highest.level c hc',h.down.highest.below c hc'⟩
  have hb : ∀ q, q < s.fresh → q ≠ u → (s'.node q).body = (s.node q).body :=
    fun q hq hqu => hs.body hqu (by omega)
  have hpar : ∀ q, q < s.fresh → lvl q ≠ j → (s'.node q).parent = (s.node q).parent := by
    intro q hq hqj
    refine hs.parent_eq (by omega) (fun i _ hi he => hqj ?_)
    rw [← he]
    exact (hlow _ hmem _ (mem_kids (ulo,u) hi)).1
  have hU : ∀ e, e ∈ UA ∨ e ∈ UB → (s'.node e.2).body = (s.node e.2).body := by
    intro e he
    have hm : e ∈ UA ++ (ulo,u) :: UB := by
      rcases he with he | he <;> simp [he]
    exact hb e.2 (hrow.below e hm) (hrow.ne_of_mem he)
  have hfl : (UA ++ (ulo,u) :: (promo,s.fresh) :: UB).flatMap s'.kids =
      (UA ++ (ulo,u) :: UB).flatMap s.kids := by
    simp only [flatMap_append,flatMap_cons]
    rw [hs.kids_left,show s'.kids (promo,s.fresh) = _ from hs.kids ulo,
      flatMap_kids_of_body (fun e he => hU e (.inl he)),
      flatMap_kids_of_body (fun e he => hU e (.inr he)),← append_assoc (take _ _)]
    exact congrArg (fun K => UA.flatMap s.kids ++ (K ++ UB.flatMap s.kids)) (take_append_drop _ _)
  have hnew : RowOk s' (setAt lvl s.fresh (j+1)) (j+1)
      (UA ++ (ulo,u) :: (promo,s.fresh) :: UB) := by
    refine hrow.insertFresh (Nat.zero_lt_of_lt h.room) (by rw [hs.fresh]; omega) ?_
    have hsub := lows_sublist s' (UA ++ (ulo,u) :: (promo,s.fresh) :: UB)
    rw [hfl] at hsub
    exact pairwise_map.mp ((pairwise_map.mpr h.down.highest.sorted).sublist hsub)
  have hl : ∀ e ∈ L, (s'.node e.2).body = (s.node e.2).body := by
    intro e he
    have hlev := h.down.lowest.level e he
    exact hb e.2 (h.down.lowest.below e he) (fun heq => by rw [heq] at hlev; omega)
  refine ⟨⟨?_,.cons hnew (hs.innerRow h.inner hrow h.down.highest) ?_,
    h.leaves.frame hl,?_,lt_of_lt_of_le h.room hf⟩,contents_of_body hl⟩
  · refine h.up.frame hf hlvl ?_ ?_
    · intro q hq h1 _
      exact hb q hq (fun he => by rw [he] at h1; omega)
    · intro q hq h1 _
      exact hpar q hq (by omega)
  · rw [hfl]
    refine h.down.frame hf hlvl ?_ ?_
    · intro q hq _ h2
      exact hb q hq (fun he => by rw [he] at h2; omega)
    · intro q hq _ h2
      exact hpar q hq (by omega)
  have hr := h.up.highest.level (0,root) mem_cons_self
  have hle := h.up.le
  rw [hpar root (h.up.highest.below (0,root) mem_cons_self) (by simp at hr; omega)]
  exact h.orphan

end

/-! The tree is an ordered map: insertion is `insertPair` on the contents and the
range query reads the contents in order. -/

open OrderedAssoc

variable {right p i leaf key val : Nat} {t : HistBptree} {x y : Nat × Nat} {n : HistBpNode}
    {m : List (Nat × Nat)}

section
variable {s s' : NodeStore} {lvl : Nat → Nat} {root d j : Nat} {A B L : Row}
  {lo left sep newR : Nat} {grant : Nat → Bool}

structure RootGrown (s s' : NodeStore) (left sep newR right : Nat) : Prop where
  fresh : s'.fresh = s.fresh+1
  isLeaf : (s'.node right).isLeaf = false
  nkeys : (s'.node right).nkeys = 1
  parent : (s'.node right).parent = 0
  kids : s'.kids (0,right) = [(0,left),(sep,newR)]
  leftParent : (s'.node left).parent = right
  newParent : (s'.node newR).parent = right
  body : ∀ q, q ≠ right → (s'.node q).body = (s.node q).body
  other : ∀ q, q ≠ right → q ≠ left → q ≠ newR → (s'.node q).parent = (s.node q).parent

theorem growRoot_spec (t : HistBptree) (sep : Nat) (hg : grant s.attempts = true) (hpos : 0 < s.fresh)
    (hl : left < s.fresh) (hnew : newR < s.fresh) :
    (growRoot grant t s left sep newR).1 = 0 ∧ (growRoot grant t s left sep newR).2.root = s.fresh ∧
      RootGrown s (growRoot grant t s left sep newR).2.store left sep newR s.fresh := by
  have h1 : s.fresh ≠ left := by omega
  have h2 : s.fresh ≠ newR := by omega
  unfold growRoot
  simp only [nodeAlloc_granted false hg]
  rw [if_neg (by omega)]
  refine ⟨rfl,rfl,by simp,?_,?_,?_,?_,?_,?_,?_,?_⟩
  · simp [h1,h2,zeroedNode]
  · simp [h1,h2]
  · simp [h1,h2,zeroedNode]
  · simp only [NodeStore.kids,setParent_node,setNkeys_node,setChild_node,setKey_node,
      setAt_self,setAt_ne _ _ h1,setAt_ne _ _ h2]
    rfl
  · by_cases hc : left = newR <;> simp [hc]
  · simp
  · intro q hq
    by_cases hqn : q = newR <;> by_cases hql : q = left <;>
      simp_all [setAt,body_setParent]
  · intro q hq hql hqn
    simp [hq,hqn,hql]

theorem RootGrown.fits (hs : RootGrown s s' left sep newR right) (hfit : Fits s) : Fits s' := by
  intro q
  by_cases hq : q = right
  · rw [hq,hs.nkeys]
    decide
  · rw [nkeys_of_body (hs.body q hq)]
    exact hfit q

theorem Pending.at_top (h : Pending s lvl root d d A B lo left sep newR L) :
    A = [] ∧ B = [] ∧ lo = 0 ∧ left = root := by
  have hrow := h.up.of_eq
  cases A with
  | nil => simpa [and_assoc,and_comm,and_left_comm] using hrow
  | cons a A => simp at hrow

theorem Pending.grow (h : Pending s lvl root d d A B lo left sep newR L)
    (hs : RootGrown s s' left sep newR s.fresh) :
    Grown s' (setAt lvl s.fresh (d+1)) s.fresh (d+1) L ∧ contents s' L = contents s L := by
  obtain ⟨rfl,rfl,rfl,rfl⟩ := h.at_top
  have hrow := h.down.highest
  have hpos := h.room
  have hf : s.fresh ≤ s'.fresh := by rw [hs.fresh]; omega
  have hlvl : ∀ q, q < s.fresh → setAt lvl s.fresh (d+1) q = lvl q :=
    fun q hq => setAt_ne _ _ (by omega)
  have hb : ∀ q, q < s.fresh → (s'.node q).body = (s.node q).body :=
    fun q hq => hs.body q (by omega)
  have hlv : ∀ e ∈ L, (s'.node e.2).body = (s.node e.2).body :=
    fun e he => hb e.2 (h.down.lowest.below e he)
  refine ⟨⟨.cons ?_ ⟨?_,?_⟩ ?_,h.leaves.frame hlv,hs.parent,?_⟩,contents_of_body hlv⟩
  · refine ⟨pairwise_singleton _ _,nodup_singleton _,?_,?_,?_⟩
    all_goals
      intro e he
      obtain rfl := mem_singleton.mp he
      simp only
    · exact setAt_self _ _ _
    · omega
    · rw [hs.fresh]
      omega
  · intro e he
    obtain rfl := mem_singleton.mp he
    exact hs.isLeaf
  · intro e he c hc
    obtain rfl := mem_singleton.mp he
    rw [hs.kids] at hc
    rcases mem_cons.mp hc with rfl | hc
    · exact hs.leftParent
    · obtain rfl := mem_singleton.mp hc
      exact hs.newParent
  · rw [flatMap_singleton,hs.kids]
    refine h.down.frame hf hlvl (fun q hq _ _ => hb q hq) ?_
    intro q hq _ h2
    have hl := hrow.level (0,left) (by simp)
    have hn := hrow.level (sep,newR) (by simp)
    refine hs.other q (by omega) ?_ ?_
    · rintro rfl
      simp only at hl
      omega
    · rintro rfl
      simp only at hn
      omega
  · rw [hs.fresh]
    omega

theorem internalInsert_nkeys {pos q : Nat} (hpos : pos ≤ (s.node p).nkeys)
    (hn : (s.node p).nkeys < 255) (hne : newR ≠ p) : ((internalInsert s p pos sep newR).node q).nkeys =
      if q = p then (s.node p).nkeys+1 else (s.node q).nkeys := by
  rw [internalInsert_node s p pos sep newR hpos hn hne]
  by_cases hq : q = p
  · simp [hq]
  · by_cases hc : q = newR <;> simp [hq,hc,hne]

theorem fits_of_split (hp : (s.node p).nkeys = bpMax+1) (hl : (s'.node p).nkeys = (s.node p).nkeys/2)
    (hr : (s'.node right).nkeys ≤ (s.node p).nkeys-(s.node p).nkeys/2)
    (ho : ∀ q, q ≠ p → q ≠ right → (s'.node q).nkeys = (s.node q).nkeys)
    (hfit : ∀ q, q ≠ p → (s.node q).nkeys ≤ bpMax) : Fits s' := by
  intro q
  rw [hp] at hl hr
  by_cases hqp : q = p
  · rw [hqp,hl]
    decide
  by_cases hqr : q = right
  · rw [hqr]
    exact le_trans hr (by decide)
  · rw [ho q hqp hqr]
    exact hfit q hqp

theorem InnerSplit.fits {promo : Nat} (hs : InnerSplit s s' p right promo)
    (hp : (s.node p).nkeys = bpMax+1) (hfit : ∀ q, q ≠ p → (s.node q).nkeys ≤ bpMax) : Fits s' :=
  fits_of_split hp (by rw [hs.left]) (by rw [hs.nkeys]; omega)
    (fun _ h1 h2 => nkeys_of_body (hs.body h1 h2)) hfit

theorem Pending.parent_pos (h : Pending s lvl root d j A B lo left sep newR L) (hj : j < d) :
    (s.node left).parent ≠ 0 ∧ (s.node left).parent ≠ newR := by
  obtain ⟨UA,ulo,UB,_,_,hup,-⟩ := h.locate hj
  have hpos := hup.lowest.pos (ulo,(s.node left).parent) (by simp)
  have hlev := hup.lowest.level (ulo,(s.node left).parent) (by simp)
  have hnew := h.down.highest.level (sep,newR) (by simp)
  simp only at hpos hlev hnew
  exact ⟨by omega,fun he => by rw [he] at hlev; omega⟩

theorem Joined.children_below {UA UB : Row} {ulo : Nat}
    (h : Joined s lvl root d j (UA ++ (ulo,p) :: UB) L) (hi : i ≤ (s.node p).nkeys) :
    (s.node p).children i ≠ p ∧ (s.node p).children i < s.fresh := by
  have hmem : (ulo,p) ∈ UA ++ (ulo,p) :: UB := by simp
  have hin := mem_flatMap.mpr ⟨_,hmem,mem_kids (s := s) (ulo,p) hi⟩
  have hup := h.up.lowest.level _ hmem
  have hd := h.down.highest.level _ hin
  simp only at hup hd
  exact ⟨fun he => by rw [he] at hd; omega,h.down.highest.below _ hin⟩

theorem insertUp_spec (hg : ∀ i, grant i = true) (fuel : Nat)
    (h : Pending s lvl t.root d j A B lo left sep newR L) (hfit : Fits s) (hf : d-j < fuel) :
    (insertUp grant t fuel s left sep newR (s.node left).parent).1 = 0 ∧
      Represents (insertUp grant t fuel s left sep newR (s.node left).parent).2 (contents s L) := by
  induction fuel generalizing s lvl j A B lo left sep newR with
  | zero => omega
  | succ fuel ih =>
    have hle := h.up.le
    have hrt := h.up.highest.pos (0,t.root) mem_cons_self
    rcases Nat.lt_or_ge j d with hj | hj
    · obtain ⟨hp0,hpn⟩ := h.parent_pos hj
      obtain ⟨UA,ulo,UB,hjn,hc⟩ := h.hang hj hfit
      have hpos := (upperIndex_spec (s.node (s.node left).parent) sep 0 (Nat.zero_le _)
        (fun j hj => by omega)).1
      obtain ⟨p,hp⟩ : ∃ p, p = (s.node left).parent := ⟨_,rfl⟩
      rw [← hp] at hp0 hpn hjn hc hpos ⊢
      have hn := hfit p
      have hnk : ∀ q, ((internalInsert s p (upperIndex (s.node p) sep 0) sep newR).node q).nkeys =
          if q = p then (s.node p).nkeys+1 else (s.node q).nkeys :=
        fun q => internalInsert_nkeys hpos (by simp [bpMax] at hn; omega) hpn.symm
      unfold insertUp
      simp only
      rw [if_neg hp0]
      generalize internalInsert s p (upperIndex (s.node p) sep 0) sep newR = s1 at hjn hc hnk ⊢
      split
      · rename_i hlt
        refine ⟨rfl,Nat.zero_lt_of_lt hjn.room,?_,.inr ⟨by simp only; omega,lvl,d,L,hjn.grown,hc⟩⟩
        intro q
        rw [hnk q]
        split
        · omega
        · exact hfit q
      rename_i hge
      have hnp : (s1.node p).nkeys = bpMax+1 := by
        rw [hnk p,if_pos rfl]
        omega
      have hrow := hjn.up.lowest
      have hmem : (ulo,p) ∈ UA ++ (ulo,p) :: UB := by simp
      obtain ⟨hr,hs⟩ := splitInternalNode_spec (p := p) (hg s1.attempts)
        (Nat.zero_lt_of_lt hjn.room) (hrow.below _ hmem) (by rw [hnp]; decide)
        (by rw [hnp]; decide) (fun i hi => hjn.children_below hi)
      rw [hr] at *
      obtain ⟨hnx,hsm⟩ := hjn.split hs
      have hf' := hs.fits hnp (fun q hq => by
        rw [hnk q,if_neg hq]
        exact hfit q)
      have hst := ih hnx hf' (by omega)
      rw [if_neg (by have := hjn.room; omega)]
      rw [hsm,hc] at hst
      exact hst
    obtain rfl : j = d := by omega
    obtain ⟨-,-,-,hr'⟩ := h.at_top
    have hrow := h.down.highest
    obtain ⟨h1,h2,h3⟩ := growRoot_spec t sep (hg s.attempts)
      (Nat.zero_lt_of_lt h.room) (hrow.below (lo,left) (by simp))
      (hrow.below (sep,newR) (by simp))
    obtain ⟨hgr,hc⟩ := h.grow h3
    unfold insertUp
    rw [if_pos (by rw [hr',h.orphan])]
    refine ⟨h1,Nat.zero_lt_of_lt hgr.room,h3.fits hfit,.inr ⟨?_,
      setAt lvl s.fresh (j+1),j+1,L,?_,hc⟩⟩
    · rw [h2]
      exact Nat.ne_of_gt (Nat.zero_lt_of_lt h.room)
    · rw [h2]
      exact hgr

structure LeafUpdated (s s' : NodeStore) (leaf key val : Nat) : Prop where
  fresh : s'.fresh = s.fresh
  other : ∀ q, q ≠ leaf → s'.node q = s.node q
  isLeaf : (s'.node leaf).isLeaf = (s.node leaf).isLeaf
  parent : (s'.node leaf).parent = (s.node leaf).parent
  next : (s'.node leaf).next = (s.node leaf).next
  entries : (s'.node leaf).entries = insertPair key val (s.node leaf).entries

theorem LeafUpdated.parent_eq (hs : LeafUpdated s s' leaf key val) (q : Nat) :
    (s'.node q).parent = (s.node q).parent := by
  by_cases hq : q = leaf
  · rw [hq,hs.parent]
  · rw [hs.other q hq]

theorem LeafUpdated.key_cases (hs : LeafUpdated s s' leaf key val) {a : Nat × Nat}
    (ha : a ∈ (s'.node leaf).entries) : a.1 = key ∨ ∃ b ∈ (s.node leaf).entries, b.1 = a.1 := by
  rw [hs.entries] at ha
  have hk := (mem_keys_insertPair key val (s.node leaf).entries a.1).mp (mem_map_of_mem ha)
  simpa using hk

theorem LeafRow.update (h : LeafRow s (A ++ (lo,leaf) :: B))
    (hrow : RowOk s lvl j (A ++ (lo,leaf) :: B)) (hs : LeafUpdated s s' leaf key val)
    (hlo : lo ≤ key) (hB : ∀ b ∈ B, key < b.1) : LeafRow s' (A ++ (lo,leaf) :: B) := by
  have hmem : (lo,leaf) ∈ A ++ (lo,leaf) :: B := by simp
  constructor
  · intro e he
    rcases hrow.eq_or_ne he with rfl | hne
    · rw [hs.isLeaf]
      exact h.leaf _ hmem
    · rw [hs.other _ hne]
      exact h.leaf e he
  · intro e he
    rcases hrow.eq_or_ne he with rfl | hne
    · rw [hs.entries]
      exact (h.ascending _ hmem).insertPair key val
    · rw [hs.other _ hne]
      exact h.ascending e he
  · intro e he a ha
    rcases hrow.eq_or_ne he with rfl | hne
    · rcases hs.key_cases ha with hk | ⟨b,hb,hba⟩
      · rw [hk]
        exact hlo
      · rw [← hba]
        exact h.low _ hmem b hb
    · rw [hs.other _ hne] at ha
      exact h.low e he a ha
  · -- whatever stands behind the leaf has a larger lower bound, so it is in `B`
    have hbh : ∀ f ∈ A ++ (lo,leaf) :: B, lo < f.1 → key < f.1 := by
      intro f hf hlt
      rcases mem_append.mp hf with hfA | hfB
      · have hgt := (pairwise_append.mp hrow.sorted).2.2 f hfA (lo,leaf) mem_cons_self
        simp only at hgt
        omega
      · rcases mem_cons.mp hfB with rfl | hfB
        · exact absurd hlt (lt_irrefl _)
        · exact hB f hfB
    refine (h.separated.and hrow.sorted).imp_of_mem ?_
    intro e f he hf hef a ha
    rcases hrow.eq_or_ne he with rfl | hne
    · rcases hs.key_cases ha with hk | ⟨b,hb,hba⟩
      · rw [hk]
        exact hbh f hf hef.2
      · rw [← hba]
        exact hef.1 b hb
    · rw [hs.other _ hne] at ha
      exact hef.1 a ha
  refine h.chained.frame (fun e he => ?_)
  rcases hrow.eq_or_ne he with rfl | hne
  · exact hs.next
  · rw [hs.other _ hne]

theorem LeafUpdated.contents_eq (hs : LeafUpdated s s' leaf key val)
    (hrow : RowOk s lvl j (A ++ (lo,leaf) :: B)) (h : LeafRow s (A ++ (lo,leaf) :: B))
    (hlo : lo ≤ key) (hB : ∀ b ∈ B, key < b.1) :
    contents s' (A ++ (lo,leaf) :: B) = insertPair key val (contents s (A ++ (lo,leaf) :: B)) := by
  have hr : ∀ e, e ∈ A ∨ e ∈ B → (s'.node e.2).body = (s.node e.2).body :=
    fun e he => by rw [hs.other _ (hrow.ne_of_mem he)]
  rw [contents_append_cons,contents_append_cons,contents_of_body (fun e he => hr e (.inl he)),
    contents_of_body (fun e he => hr e (.inr he)),hs.entries,insertPair_append]
  · intro a ha
    obtain ⟨e,he,hae⟩ := mem_flatMap.mp ha
    have hlt := (pairwise_append.mp h.separated).2.2 e he (lo,leaf) mem_cons_self a hae
    exact lt_of_lt_of_le hlt hlo
  · intro a ha
    obtain ⟨e,he,hae⟩ := mem_flatMap.mp ha
    exact lt_of_lt_of_le (hB e he) (h.low e (by simp [he]) a hae)

theorem Grown.updateLeaf (h : Grown s lvl root d (A ++ (lo,leaf) :: B))
    (hs : LeafUpdated s s' leaf key val) (hlo : lo ≤ key) (hB : ∀ b ∈ B, key < b.1) :
    Grown s' lvl root d (A ++ (lo,leaf) :: B) ∧ contents s' (A ++ (lo,leaf) :: B) =
      insertPair key val (contents s (A ++ (lo,leaf) :: B)) := by
  have hrow := h.rows.lowest
  refine ⟨⟨?_,h.leaves.update hrow hs hlo hB,?_,by rw [hs.fresh]; exact h.room⟩,
    hs.contents_eq hrow h.leaves hlo hB⟩
  · refine h.rows.frame (le_of_eq hs.fresh.symm) (fun _ _ => rfl) ?_ (fun q _ _ _ => hs.parent_eq q)
    intro q _ h1 _
    have hlev := hrow.level (lo,leaf) (by simp)
    rw [hs.other q (fun he => by rw [he] at h1; simp only at hlev; omega)]
  · rw [hs.parent_eq]
    exact h.orphan

theorem Chained.insert (h : Chained s (A ++ x :: B))
    (hn : ∀ e, e ∈ A ∨ e ∈ B → (s'.node e.2).next = (s.node e.2).next)
    (hx : (s'.node x.2).next = y.2) (hy : (s'.node y.2).next = (s.node x.2).next) :
    Chained s' (A ++ x :: y :: B) := by
  induction A with
  | nil =>
    obtain ⟨h1,h2⟩ := h
    exact ⟨hx,hy.trans h1,h2.frame (fun e he => hn e (.inr he))⟩
  | cons a A ih =>
    obtain ⟨h1,h2⟩ := h
    refine ⟨?_,ih h2 (fun e he => hn e (he.imp (mem_cons_of_mem _) id))⟩
    rw [hn a (.inl mem_cons_self),h1]
    cases A <;> rfl

theorem LeafSplit.entries_left (hs : LeafSplit s s' leaf right) :
    (s'.node leaf).entries = (s.node leaf).entries.take ((s.node leaf).nkeys/2) := by
  rw [hs.left,HistBpNode.entries,HistBpNode.entries,firsts_take _ (by omega)]

theorem LeafSplit.halves (hs : LeafSplit s s' leaf right) (hasc : Ascending (s.node leaf).entries)
    (htwo : 2 ≤ (s.node leaf).nkeys) :
    (s.node leaf).entries = (s'.node leaf).entries ++ (s'.node right).entries ∧
      (∃ a, a ∈ (s'.node leaf).entries) ∧ (∃ b, b ∈ (s.node leaf).entries ∧ b.1 = (s'.node right).keys 0) ∧
      (∀ a ∈ (s'.node leaf).entries, a.1 < (s'.node right).keys 0) ∧
      ∀ b ∈ (s'.node right).entries, (s'.node right).keys 0 ≤ b.1 := by
  have hsp : (s.node leaf).entries = (s'.node leaf).entries ++ (s'.node right).entries := by
    rw [hs.entries_left,hs.entries,take_append_drop]
  have hh : ((s'.node right).keys 0,(s'.node right).vals 0) ∈ (s'.node right).entries :=
    mem_firsts.mpr ⟨0,by rw [hs.nkeys]; omega,rfl⟩
  have hf : ((s'.node leaf).keys 0,(s'.node leaf).vals 0) ∈ (s'.node leaf).entries :=
    mem_firsts.mpr ⟨0,by rw [hs.left]; simp only; omega,rfl⟩
  rw [hsp] at hasc
  obtain ⟨-,hr,hc⟩ := pairwise_append.mp hasc
  refine ⟨hsp,⟨_,hf⟩,⟨_,by rw [hsp]; exact mem_append_right _ hh,rfl⟩,fun a ha => hc a ha _ hh,?_⟩
  intro b hb
  obtain ⟨i,hi,rfl⟩ := mem_firsts.mp hb
  rcases Nat.eq_zero_or_pos i with rfl | hpos
  · exact le_refl _
  · exact le_of_lt (pairwise_firsts.mp hr 0 i hpos hi)

theorem LeafSplit.rest (hs : LeafSplit s s' leaf s.fresh)
    (hrow : RowOk s lvl j (A ++ (lo,leaf) :: B)) {e : Nat × Nat} (he : e ∈ A ∨ e ∈ B) :
    s'.node e.2 = s.node e.2 := by
  have hm : e ∈ A ++ (lo,leaf) :: B := by
    rcases he with he | he <;> simp [he]
  exact hs.other e.2 (hrow.ne_of_mem he) (ne_of_lt (hrow.below e hm))

theorem pairwise_insert {R : Nat × Nat → Nat × Nat → Prop} (h : (A ++ x :: B).Pairwise R)
    (hA : ∀ a ∈ A, R a y) (hx : R x y) (hB : ∀ b ∈ B, R y b) : (A ++ x :: y :: B).Pairwise R := by
  simp only [pairwise_append,pairwise_cons,forall_mem_cons] at h ⊢
  exact ⟨h.1,⟨⟨hx,h.2.1.1⟩,hB,h.2.1.2⟩,fun a ha =>
    ⟨(h.2.2 a ha).1,hA a ha,(h.2.2 a ha).2⟩⟩

theorem LeafRow.insert (h : LeafRow s (A ++ (lo,leaf) :: B))
    (hrow : RowOk s lvl j (A ++ (lo,leaf) :: B)) (hs : LeafSplit s s' leaf s.fresh)
    (hsep : (s'.node s.fresh).keys 0 = sep) (htwo : 2 ≤ (s.node leaf).nkeys) :
    LeafRow s' (A ++ (lo,leaf) :: (sep,s.fresh) :: B) := by
  have hmem : (lo,leaf) ∈ A ++ (lo,leaf) :: B := by simp
  obtain ⟨hsp,-,⟨b0,hb0,hb0'⟩,hl,hrg⟩ := hs.halves (h.ascending _ hmem) htwo
  rw [hsep] at hb0' hl hrg
  have hr : ∀ a ∈ (s'.node s.fresh).entries, a ∈ (s.node leaf).entries :=
    fun a ha => hsp ▸ mem_append_right _ ha
  have hasc := h.ascending _ hmem
  simp only at hasc
  rw [hsp] at hasc
  obtain ⟨hac,har,-⟩ := pairwise_append.mp hasc
  have hsm : ∀ e ∈ A ++ (lo,leaf) :: B, e = (lo,leaf) ∨ s'.node e.2 = s.node e.2 :=
    fun e he => (hrow.eq_or_ne he).imp_right
      (fun hne => hs.other _ hne (ne_of_lt (hrow.below e he)))
  have hfw : ∀ e ∈ A ++ (lo,leaf) :: B, ∀ a ∈ (s'.node e.2).entries, a ∈ (s.node e.2).entries := by
    intro e he a ha
    rcases hsm e he with rfl | hn
    · exact hsp ▸ mem_append_left _ ha
    · rwa [hn] at ha
  constructor
  · intro e he
    rcases mem_of_mem_insert he with rfl | he
    · exact hs.isLeaf
    rcases hsm e he with rfl | hn
    · rw [hs.left]
      exact h.leaf _ hmem
    · rw [hn]
      exact h.leaf e he
  · intro e he
    rcases mem_of_mem_insert he with rfl | he
    · exact har
    rcases hsm e he with rfl | hn
    · exact hac
    · rw [hn]
      exact h.ascending e he
  · intro e he a ha
    rcases mem_of_mem_insert he with rfl | he
    · exact hrg a ha
    · exact h.low e he a (hfw e he a ha)
  · have hsr := pairwise_append.mp h.separated
    refine pairwise_insert (h.separated.imp_of_mem ?_) ?_ hl ?_
    · intro e f he _ hef a ha
      exact hef a (hfw e he a ha)
    · intro e he a ha
      have hlt := hsr.2.2 e he (lo,leaf) mem_cons_self a (hfw e (by simp [he]) a ha)
      have hlow := h.low _ hmem b0 hb0
      simp only at hlt hlow ⊢
      omega
    · intro f hf a ha
      exact (pairwise_cons.mp hsr.2.1).1 f hf a (hr a ha)
  · refine h.chained.insert (fun e he => by rw [hs.rest hrow he]) ?_ hs.next
    rw [hs.left]

theorem Grown.splitLeaf (h : Grown s lvl root d (A ++ (lo,leaf) :: B))
    (hs : LeafSplit s s' leaf s.fresh) (htwo : 2 ≤ (s.node leaf).nkeys) :
    Pending s' (setAt lvl s.fresh 0) root d 0 A B lo leaf ((s'.node s.fresh).keys 0) s.fresh
        (A ++ (lo,leaf) :: ((s'.node s.fresh).keys 0,s.fresh) :: B) ∧
      contents s' (A ++ (lo,leaf) :: ((s'.node s.fresh).keys 0,s.fresh) :: B) =
        contents s (A ++ (lo,leaf) :: B) := by
  have hrow := h.rows.lowest
  have hl := h.leaves
  have hmem : (lo,leaf) ∈ A ++ (lo,leaf) :: B := by simp
  have hrm := Nat.zero_lt_of_lt h.room
  obtain ⟨hsp,⟨a0,ha0⟩,⟨b0,hb0,hb0'⟩,hlf,hrg⟩ := hs.halves (hl.ascending _ hmem) htwo
  generalize hsep : (s'.node s.fresh).keys 0 = sep at *
  have hr : ∀ e, e ∈ A ∨ e ∈ B → (s'.node e.2).body = (s.node e.2).body :=
    fun e he => by rw [hs.rest hrow he]
  have hpar : ∀ q, q < s.fresh → (s'.node q).parent = (s.node q).parent := by
    intro q hq
    by_cases hql : q = leaf
    · rw [hql,hs.left]
    · rw [hs.other q hql (by omega)]
  have hls : lo < sep :=
    lt_of_le_of_lt (hl.low _ hmem a0 (by rw [hsp]; exact mem_append_left _ ha0)) (hlf a0 ha0)
  have hnew : LeafRow s' (A ++ (lo,leaf) :: (sep,s.fresh) :: B) :=
    hl.insert hrow hs hsep htwo
  refine ⟨⟨?_,.top (hrow.insertFresh hrm (by rw [hs.fresh]; omega) ?_),hnew,?_,?_⟩,?_⟩
  · refine h.rows.frame (by rw [hs.fresh]; omega) (fun q hq => setAt_ne _ _ (by omega)) ?_
      (fun q hq _ _ => hpar q hq)
    intro q hq h1 _
    have hlev := hrow.level _ hmem
    rw [hs.other q (fun he => by rw [he] at h1; simp only at hlev; omega) (by omega)]
  · refine pairwise_insert hrow.sorted ?_ hls ?_
    · intro a ha
      have hlt := (pairwise_append.mp hrow.sorted).2.2 a ha (lo,leaf) mem_cons_self
      exact lt_trans hlt hls
    intro b hb
    simp only
    rw [← hb0']
    obtain ⟨-,hsx,-⟩ := pairwise_append.mp hl.separated
    exact (pairwise_cons.mp hsx).1 b hb b0 hb0
  · rw [hpar root (h.rows.highest.below (0,root) mem_cons_self)]
    exact h.orphan
  · rw [hs.fresh]
    exact Nat.lt_succ_of_lt h.room
  rw [contents_append_cons,contents_append_cons,hsp,contents_of_body (fun e he => hr e (.inl he)),
    ← contents_of_body (fun e he => hr e (.inr he))]
  simp [contents]

theorem findKey_some (h : findKey n key = some i) : i < n.nkeys ∧ n.keys i = key := by
  have hmem := mem_of_find?_eq_some h
  have hkey := find?_some h
  exact ⟨mem_range.mp hmem,by simpa using hkey⟩

theorem findKey_none (h : findKey n key = none) : ∀ e ∈ n.entries, e.1 ≠ key := by
  intro e he
  obtain ⟨i,hi,rfl⟩ := mem_firsts.mp he
  have hne := find?_eq_none.mp h i (mem_range.mpr hi)
  simpa using hne

theorem setVal_entries (val : Nat) (hi : i < (s.node leaf).nkeys) (hk : (s.node leaf).keys i = key)
    (hasc : Ascending (s.node leaf).entries) :
    ((s.setVal leaf i val).node leaf).entries = insertPair key val (s.node leaf).entries := by
  have hm := pairwise_firsts.mp hasc
  simp only [setVal_node,setAt_self,HistBpNode.entries]
  generalize s.node leaf = n at *
  rw [firsts_split _ hi,firsts_split (fun i => (n.keys i,n.vals i)) hi,hk,setAt_self,
    insertPair_replace]
  · congr 1
    · refine firsts_congr fun k hk => ?_
      simp [ne_of_lt hk]
    · congr 1
      refine firsts_congr fun k hk => ?_
      rw [setAt_ne _ _ (by omega)]
  · intro a ha
    obtain ⟨k,hlt,rfl⟩ := mem_firsts.mp ha
    exact hk ▸ hm k i hlt hi
  · intro a ha
    obtain ⟨k,hlt,rfl⟩ := mem_firsts.mp ha
    exact hk ▸ hm i (i+1+k) (by omega) (by omega)

theorem setVal_updated (val : Nat) (hi : i < (s.node leaf).nkeys) (hk : (s.node leaf).keys i = key)
    (hasc : Ascending (s.node leaf).entries) :
    LeafUpdated s (s.setVal leaf i val) leaf key val where
  fresh := rfl
  other q hq := by simp [hq]
  isLeaf := by simp
  parent := by simp
  next := by simp
  entries := setVal_entries val hi hk hasc

theorem leafInsertSorted_updated (val : Nat) (hn : (s.node leaf).nkeys < 255)
    (hasc : Ascending (s.node leaf).entries) (hnew : ∀ e ∈ (s.node leaf).entries, e.1 ≠ key) :
    LeafUpdated s (leafInsertSorted s leaf key val) leaf key val := by
  obtain ⟨h1,-,h2,h3⟩ := leafInsertSorted_leaf s leaf key val hn
  exact ⟨leafInsertSorted_fresh s leaf key val,
    fun q hq => leafInsertSorted_other s leaf key val hq,h1,h2,h3,
    leafInsertSorted_entries s leaf key val hn hasc hnew⟩

theorem LeafSplit.fits (hs : LeafSplit s s' leaf right) (hp : (s.node leaf).nkeys = bpMax+1)
    (hfit : ∀ q, q ≠ leaf → (s.node q).nkeys ≤ bpMax) : Fits s' :=
  fits_of_split hp (by rw [hs.left]) (le_of_eq hs.nkeys)
    (fun _ h1 h2 => by rw [hs.other _ h1 h2]) hfit

theorem histBptInit_represents : Represents histBptInit [] :=
  ⟨by decide,fun _ => Nat.zero_le _,.inl ⟨rfl,rfl⟩⟩

theorem histBptClear_represents (h : Represents t m) : Represents (histBptClear t) [] :=
  ⟨h.1,h.2.1,.inl ⟨rfl,rfl⟩⟩

theorem histBptInsert_empty (hg : ∀ i, grant i = true) (seq idx : Nat) (hpos : 0 < t.store.fresh)
    (hfit : Fits t.store) (hr : t.root = 0) : (histBptInsert grant t seq idx).1 = 0 ∧
      Represents (histBptInsert grant t seq idx).2 [(seq,idx)] := by
  unfold histBptInsert
  rw [if_pos hr]
  simp only [nodeAlloc_granted true (hg _)]
  rw [if_neg (by omega)]
  generalize hs : NodeStore.setNkeys _ t.store.fresh 1 = s
  have ho : ∀ q, q ≠ t.store.fresh → s.node q = t.store.node q := by
    intro q hq
    simp [← hs,hq]
  have hn : s.node t.store.fresh =
      { zeroedNode true with
        nkeys := 1
        keys := setAt (fun _ => 0) 0 seq
        vals := setAt (fun _ => 0) 0 idx } := by
    simp [← hs,zeroedNode]
  have hent : (s.node t.store.fresh).entries = [(seq,idx)] := by
    rw [hn]
    rfl
  have hf : s.fresh = t.store.fresh+1 := by simp [← hs]
  have hrow : RowOk s (fun _ => 0) 0 [(0,t.store.fresh)] :=
    ⟨pairwise_singleton _ _,nodup_singleton _,fun _ _ => rfl,by simp [hpos],by simp [hf]⟩
  have hl : LeafRow s [(0,t.store.fresh)] := by
    refine ⟨?_,?_,by simp,pairwise_singleton _ _,?_,trivial⟩
    · simp [hn,zeroedNode]
    · simp [hent,Ascending]
    · simp [hn,zeroedNode,firstName]
  refine ⟨rfl,by simp only; omega,?_,.inr ⟨by simp only; omega,fun _ => 0,0,_,
    ⟨.top hrow,hl,by simp [hn,zeroedNode],by simp only; omega⟩,by simp [contents,hent]⟩⟩
  intro q
  by_cases hq : q = t.store.fresh
  · simp [hq,hn,bpMax]
  · simp only [ho q hq]
    exact hfit q

theorem histBptInsert_spec (hg : ∀ i, grant i = true) (h : Represents t m) (seq idx : Nat) :
    (histBptInsert grant t seq idx).1 = 0 ∧
      Represents (histBptInsert grant t seq idx).2 (insertPair seq idx m) := by
  obtain ⟨hpos,hfit,⟨hrt,rfl⟩ | ⟨hrt,lvl,d,L,hgr,rfl⟩⟩ := h
  · exact histBptInsert_empty hg seq idx hpos hfit hrt
  obtain ⟨A,lo,B,hL,hlo,hB⟩ := leafSearch_spec (A := []) (B := []) (e := (0,t.root)) seq
    hgr.rows hgr.leaves hgr.room (Nat.zero_le _) (by simp)
  unfold histBptInsert
  rw [if_neg hrt]
  simp only at hL ⊢
  generalize leafSearch t.store seq t.store.fresh t.root = leaf at hL ⊢
  subst hL
  have hmem : (lo,leaf) ∈ A ++ (lo,leaf) :: B := by simp
  have hl := hgr.rows.lowest.pos _ hmem
  have hasc := hgr.leaves.ascending _ hmem
  have hn := hfit leaf
  simp only at hl hasc
  rw [if_neg (by omega)]
  split
  · rename_i i hi
    obtain ⟨hik,hkey⟩ := findKey_some hi
    obtain ⟨hg',hc'⟩ := hgr.updateLeaf (setVal_updated idx hik hkey hasc) hlo hB
    refine ⟨rfl,hpos,?_,.inr ⟨hrt,lvl,d,_,hg',hc'⟩⟩
    intro q
    by_cases hq : q = leaf
    · simp only [hq,setVal_node,setAt_self]
      exact hn
    · simp only [setVal_node,setAt_ne _ _ hq]
      exact hfit q
  rename_i hnn
  have hnk : (t.store.node leaf).nkeys < 255 := Nat.lt_of_le_of_lt hn (by decide)
  have hc := (leafInsertSorted_leaf t.store leaf seq idx hnk).2.1
  have hins := leafInsertSorted_updated idx hnk hasc (findKey_none hnn)
  obtain ⟨hg',hc'⟩ := hgr.updateLeaf hins hlo hB
  have ho : ∀ q, q ≠ leaf → ((leafInsertSorted t.store leaf seq idx).node q).nkeys ≤ bpMax := by
    intro q hq
    rw [hins.other q hq]
    exact hfit q
  generalize leafInsertSorted t.store leaf seq idx = s1 at hc hg' hc' ho ⊢
  have hp1 := Nat.zero_lt_of_lt hg'.room
  split
  · refine ⟨rfl,hp1,?_,.inr ⟨hrt,lvl,d,_,hg',hc'⟩⟩
    intro q
    by_cases hq : q = leaf
    · simp only [hq,hc]
      omega
    · exact ho q hq
  have hov : (s1.node leaf).nkeys = bpMax+1 := by omega
  obtain ⟨hr,hs⟩ := splitLeafNode_spec (hg s1.attempts) hp1
    (show leaf < s1.fresh from hg'.rows.lowest.below _ hmem) (by rw [hov]; decide)
  obtain ⟨hp,hcn⟩ := hg'.splitLeaf hs (by rw [hov]; decide)
  have hup := insertUp_spec hg (splitLeafNode grant s1 leaf).2.fresh hp
    (hs.fits hov ho) (by have := hp.room; omega)
  rw [hr,if_neg (by omega),← hc',← hcn]
  exact hup

def insertEach (grant : Nat → Bool) (ops : List (Nat × Nat)) (t : HistBptree) : HistBptree :=
  ops.foldl (fun t o => (histBptInsert grant t o.1 o.2).2) t

theorem insertEach_represents (hg : ∀ i, grant i = true) (ops : List (Nat × Nat)) :
    Represents (insertEach grant ops histBptInit) (insertAll ops) := by
  induction ops using reverseRecOn with
  | nil => exact histBptInit_represents
  | append_singleton ops o ih =>
    rw [insertAll_append_singleton,insertEach,List.foldl_append]
    exact (histBptInsert_spec hg ih o.1 o.2).2

end

theorem histBptRangeFromSeq_insertEach (grant : Nat → Bool) (hg : ∀ i, grant i = true)
    (ops : List (Nat × Nat)) (minSeq maxOut : Nat) :
    histBptRangeFromSeq (insertEach grant ops histBptInit) minSeq maxOut =
      ((((ops.map Prod.fst).toFinset.sort).filter (fun k => minSeq ≤ k)).take maxOut).map
        (latest ops) := by
  rw [histBptRangeFromSeq_spec (insertEach_represents hg ops),picked,insertAll_eq_sort,
    filter_map,← map_take,map_map]
  rfl

theorem histBptRangeFromSeq_insertEach_six : histBptRangeFromSeq (insertEach (fun _ => true)
    [(5,50),(1,10),(3,30),(5,51),(9,90),(7,70)] histBptInit) 3 3 = [30,51,70] :=
  (histBptRangeFromSeq_insertEach (fun _ => true) (fun _ => rfl) _ 3 3).trans
    (by rw [← keys_insertAll]; decide)

end AevOS.BpTree
