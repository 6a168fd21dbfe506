import AevOS.HistoryImage

/-! Which ring slot owns which text buffer. Of an empty text the buffer is given back by `krealloc`
while the entry keeps the pointer. -/

namespace AevOS.Hist
open ArrayPrefix RingWindow Slab BpTree Wire Lz4
open UInt32 (ofNat toNat_add toNat_one toNat_ofNat')

theorem entryFree_heap (m : Heap) (e : HistEntry) : (entryFree m e).1 = kfree m e.data := by
  unfold entryFree
  split
  · rename_i h
    rw [h,kfree_zero]
  · rfl

structure Buffered (env : PushEnv) (text : Bytes) (m m' : Heap) : Prop where
  nonnull : env.buffer ≠ 0
  free : m.allocated env.buffer = false
  fits : compMax text ≤ 65536
  others : ∀ a, a ≠ env.buffer → m'.allocated a = m.allocated a ∧ m'.bytes a = m.bytes a
  packed : text ≠ [] → m'.allocated env.buffer = true ∧
    load m' env.buffer (packText text).2.length = (packText text).2

theorem allocText_cases (env : PushEnv) (text : Bytes) (m : Heap) : allocText env text m = (0,m) ∨
    ∃ m', allocText env text m = (env.buffer,m') ∧ Buffered env text m m' := by
  rcases kmalloc_cases m (compMax text) env.buffer with hn | ⟨c,hc,hmax,hne,hf,-,ha⟩
  · exact .inl (by simp [allocText,hn])
  have hft : compMax text ≤ 65536 := by omega
  have hlz : text.length ≤ lz4MaxInputSize := by
    unfold compMax at hc
    unfold lz4MaxInputSize
    omega
  refine .inr ?_
  simp only [allocText,ha,if_neg hne]
  rcases packText_cases text hlz with ⟨hnil,hp⟩ | ⟨hnil,hlen,hpos,hle,-⟩
  · rw [hp,krealloc_zero _ hne]
    refine ⟨_,rfl,hne,hf,hft,?_,fun h => absurd hnil h⟩
    intro a hane
    rw [kfree_allocated_ne _ hane,kfree_bytes]
    simp [store,setAt_ne _ _ hane]
  rw [krealloc_fits hne (by omega) (by simp only [store,setAt_self]; omega)]
  refine ⟨_,by rw [if_neg hne],hne,hf,hft,?_,fun _ => ⟨by simp [store],load_store _ _ _⟩⟩
  intro a hane
  simp [store,setAt_ne _ _ hane]

def pushedEntry (env : PushEnv) (role : UInt8) (text : Bytes) (seq : UInt64) : HistEntry :=
  ⟨env.now,seq,role,estimateTokens text,env.buffer,ofNat (packText text).1,ofNat text.length⟩

structure Pushed (grant : Nat → Bool) (env : PushEnv) (role : UInt8) (text : Bytes)
    (w w' : World) (m' : Heap) (k : Nat) (v : World) : Prop where
  buffered : Buffered env text w.heap m'
  evicted : v = evictOldest^[k] { w with heap := m' }
  evictions : k ≤ (historyCount w.hist).toNat
  room : (historyCount v.hist).toNat < histRingSize
  budget : ¬ OverBudget (estimateTokens text) v.hist
  cause : 0 < k → histRingSize ≤ (historyCount w.hist).toNat ∨
    OverBudget (estimateTokens text) w.hist
  heap : w'.heap = kfree v.heap (v.hist.ring (slotOf v.hist.head)).data
  placed : ∃ t, w'.hist =
    { placeEntry grant v.hist (pushedEntry env role text w.hist.nextSeq) with
      nextSeq := w.hist.nextSeq+1
      bpt := t }

theorem historyPush_cases (grant : Nat → Bool) (env : PushEnv) (role : UInt8) (text : Bytes) (w : World) :
    historyPush grant env role text w = (-enomem,w) ∨ (historyPush grant env role text w).1 = 0 ∧
      ∃ m' k v, Pushed grant env role text w (historyPush grant env role text w).2 m' k v := by
  rcases allocText_cases env text w.heap with hn | ⟨m',hs,hbuf⟩
  · refine .inl ?_
    simp [historyPush,hn]
  have hne := hbuf.nonnull
  obtain ⟨k,hk,hr,hend,hwhy,hmk⟩ :=
    makeRoom_spec grant (estimateTokens text) { w with heap := m' }
  have hseq : (evictOldest^[k] { w with heap := m' }).hist.nextSeq = w.hist.nextSeq :=
    evictIter_nextSeq _ k
  refine .inr ⟨by simp [historyPush,hs,if_neg hne],m',k,_,hbuf,rfl,hk,hr,hend,hwhy,?_,?_⟩
  · by_cases hz : k = 0
    · subst hz
      simp [historyPush,hs,if_neg hne,hmk,entryFree_heap]
    · simp [historyPush,hs,if_neg hne,hmk,if_neg hz,entryFree_heap]
  by_cases hz : k = 0
  · subst hz
    simp [historyPush,hs,if_neg hne,hmk,placeEntry,pushedEntry]
  · simp [historyPush,hs,if_neg hne,hmk,if_neg hz,placeEntry,pushedEntry,hseq]

structure Owned (m : Heap) (ring : Nat → HistEntry) : Prop where
  allocated : ∀ j, j < histRingSize → (ring j).data ≠ 0 → m.allocated (ring j).data = true
  apart : ∀ i j, i < histRingSize → j < histRingSize → i ≠ j → (ring i).data ≠ 0 →
    (ring i).data ≠ (ring j).data

def Unclaimed (q : Addr) (ring : Nat → HistEntry) : Prop :=
  ∀ j, j < histRingSize → (ring j).data ≠ q

variable {q : Addr} {w : World}

section
variable {m m' : Heap} {ring : Nat → HistEntry} {e : HistEntry} {j : Nat}

theorem owned_iff_owners : Owned m ring ↔ Owners m (fun j : Fin histRingSize => (ring j).data) := by
  constructor
  · intro h
    exact ⟨fun j => h.allocated j j.isLt,
      fun i j hij => h.apart i j i.isLt j.isLt (Fin.val_ne_of_ne hij)⟩
  · intro h
    exact ⟨fun j hj => h.allocated ⟨j,hj⟩,
      fun i j hi hj hij => h.apart ⟨i,hi⟩ ⟨j,hj⟩ (Fin.ne_of_val_ne hij)⟩

theorem Owned.replace (h : Owned m ring) (hj : j < histRingSize)
    (hm : ∀ a, a ≠ (ring j).data → m.allocated a = true → m'.allocated a = true)
    (he : e.data ≠ 0 → m'.allocated e.data = true)
    (hnew : e.data ≠ 0 → ∀ i, i < histRingSize → i ≠ j → (ring i).data ≠ e.data) :
    Owned m' (setAt ring j e) := by
  have hs : (setAt ring j e j).data = e.data := by rw [setAt_self]
  refine owned_iff_owners.mpr ((owned_iff_owners.mp h).replace (i := ⟨j,hj⟩) ?_ hm ?_ ?_)
  · intro k hk
    have hkj : (k : Nat) ≠ j := Fin.val_ne_of_ne hk
    rw [setAt_ne _ _ hkj]
  · rw [hs]
    exact he
  · rw [hs]
    exact fun hd k hk => hnew hd k k.isLt (Fin.val_ne_of_ne hk)

theorem Owned.release (h : Owned m ring) (hj : j < histRingSize) (he : e.data = 0) :
    Owned (kfree m (ring j).data) (setAt ring j e) :=
  h.replace hj (fun _ ha hall => by rw [kfree_allocated_ne _ ha]; exact hall)
    (fun hd => absurd he hd) (fun hd => absurd he hd)

theorem Owned.unclaimed (h : Owned m ring) (hq : q ≠ 0) (hf : m.allocated q = false) : Unclaimed q ring :=
  fun i hi => (owned_iff_owners.mp h).unclaimed hq hf ⟨i,hi⟩

theorem Unclaimed.setAt (h : Unclaimed q ring) (he : e.data ≠ q) : Unclaimed q (setAt ring j e) := by
  intro i hi
  by_cases hij : i = j
  · subst hij
    rw [setAt_self]
    exact he
  · rw [setAt_ne _ _ hij]
    exact h i hi

theorem Owned.buffered (h : Owned m ring) {env : PushEnv} {text : Bytes}
    (hb : Buffered env text m m') : Owned m' ring := by
  refine ⟨fun j hj hd => ?_,h.apart⟩
  rw [(hb.others _ (h.unclaimed hb.nonnull hb.free j hj)).1]
  exact h.allocated j hj hd

end

theorem evictOldest_owned (w : World) (h : Owned w.heap w.hist.ring) :
    Owned (evictOldest w).heap (evictOldest w).hist.ring := by
  unfold evictOldest
  split
  · exact h
  · simp only [entryFree_heap]
    exact h.release (slotOf_lt _) rfl

section
variable (h : Owned w.heap w.hist.ring)
include h

theorem evictIter_owned (k : Nat) :
    Owned (evictOldest^[k] w).heap (evictOldest^[k] w).hist.ring :=
  Function.Iterate.rec (fun u : World => Owned u.heap u.hist.ring) h evictOldest_owned k

theorem dropNewest_owned :
    Owned (dropNewest w).heap (dropNewest w).hist.ring := by
  simp only [dropNewest,entryFree_heap]
  exact h.release (slotOf_lt _) rfl

theorem truncateLoop_owned (drop : Nat) :
    Owned (truncateLoop drop w).heap (truncateLoop drop w).hist.ring := by
  induction drop generalizing w with
  | zero => exact h
  | succ drop ih =>
    unfold truncateLoop
    split
    · exact h
    · exact ih (dropNewest_owned h)

end

structure Reserved (q : Addr) (bs : Bytes) (w : World) : Prop where
  allocated : w.heap.allocated q = true
  bytes : load w.heap q bs.length = bs
  unclaimed : Unclaimed q w.hist.ring

theorem evictOldest_reserved {bs : Bytes} (hq : q ≠ 0) (w : World) (h : Reserved q bs w) :
    Reserved q bs (evictOldest w) := by
  unfold evictOldest
  split
  · exact h
  simp only [entryFree_heap]
  have hne := h.unclaimed _ (slotOf_lt w.hist.tail)
  refine ⟨?_,?_,?_⟩
  · rw [kfree_allocated_ne _ (Ne.symm hne)]
    exact h.allocated
  · rw [load,kfree_bytes]
    exact h.bytes
  · exact h.unclaimed.setAt (Ne.symm hq)

section
variable {grant : Nat → Bool} {env : PushEnv} {role : UInt8} {text : Bytes} {w w' v : World}
  {m' : Heap} {k : Nat}

section
variable (h : Pushed grant env role text w w' m' k v)
include h

theorem Pushed.reserved (hne : text ≠ [])
    (hun : Unclaimed env.buffer w.hist.ring) : Reserved env.buffer (packText text).2 v := by
  obtain ⟨hall,hb⟩ := h.buffered.packed hne
  have hs : Reserved env.buffer (packText text).2 { w with heap := m' } :=
    ⟨hall,hb,hun⟩
  rw [h.evicted]
  exact Function.Iterate.rec _ hs (evictOldest_reserved h.buffered.nonnull) k

theorem Pushed.ring : w'.hist.ring =
    setAt v.hist.ring (slotOf v.hist.head) (pushedEntry env role text w.hist.nextSeq) := by
  obtain ⟨t,ht⟩ := h.placed
  rw [ht]
  rfl

theorem Pushed.owned (hne : text ≠ [])
    (hw : Owned w.heap w.hist.ring) : Owned w'.heap w'.hist.ring := by
  have hres := h.reserved hne (hw.unclaimed h.buffered.nonnull h.buffered.free)
  have hv : Owned v.heap v.hist.ring := by
    rw [h.evicted]
    exact evictIter_owned (w := { w with heap := m' }) (hw.buffered h.buffered) k
  have hlt := slotOf_lt v.hist.head
  rw [h.heap,h.ring]
  refine hv.replace hlt ?_ (fun _ => ?_) (fun _ i hi _ => hres.unclaimed i hi)
  · intro a ha hall
    rw [kfree_allocated_ne _ ha]
    exact hall
  · rw [pushedEntry,kfree_allocated_ne _ (Ne.symm (hres.unclaimed _ hlt))]
    exact hres.allocated

end

end

def Op.Nonempty : Op → Prop
  | .push _ _ text => text ≠ []
  | _ => True

theorem evictAll_owned (h : Owned w.heap w.hist.ring) : Owned (evictAll w).heap (evictAll w).hist.ring := by
  obtain ⟨k,hk⟩ := evictAll_spec w
  rw [hk]
  exact evictIter_owned h k

theorem historyInit_owned (m : Heap) (maxTokens : UInt32) : Owned m (historyInit maxTokens).ring :=
  ⟨fun _ _ hd => absurd rfl hd,fun _ _ _ _ _ hd => absurd rfl hd⟩

theorem step_owned (grant : Nat → Bool) {o : Op} (ho : o.Nonempty) (h : Owned w.heap w.hist.ring) :
    Owned (step grant w o).heap (step grant w o).hist.ring := by
  cases o with
  | init maxTokens => exact historyInit_owned _ _
  | push env role text =>
    rcases historyPush_cases grant env role text w with hf | ⟨-,m',k,v,hp⟩
    · rw [step,hf]
      exact h
    · exact hp.owned ho h
  | truncateKeep keepCount =>
    unfold step historyTruncateKeep
    simp only
    split
    · exact h
    · exact truncateLoop_owned h _
  | clear => exact evictAll_owned h

/-! What `history_get` delivers of a text that was pushed. Into a buffer too small for the whole text it
copies the compressed bytes. -/

open List

def follow (w w' : World) (i : Nat) : Op → Option Nat
  | .push _ _ _ =>
    let k := (w'.hist.tail-w.hist.tail).toNat
    if k ≤ i then some (i-k) else none
  | .truncateKeep _ => if i < (historyCount w'.hist).toNat then some i else none
  | .init _ => none
  | .clear => none

def followRun (grant : Nat → Bool) : List Op → World → Nat → Option (World × Nat)
  | [], w, i => some (w,i)
  | o :: ops, w, i =>
    match follow w (step grant w o) i o with
    | none => none
    | some j => followRun grant ops (step grant w o) j

structure HoldsText (m : Heap) (ring : Nat → HistEntry) (s : Nat) (q : Addr) (bs : Bytes) :
    Prop where
  nonnull : q ≠ 0
  allocated : m.allocated q = true
  bytes : load m q bs.length = bs
  alone : ∀ j, j < histRingSize → j ≠ s → (ring j).data ≠ q

structure Kept (e : HistEntry) (bs : Bytes) (w : World) (i : Nat) : Prop where
  count : (historyCount w.hist).toNat ≤ histRingSize
  index : i < (historyCount w.hist).toNat
  entry : entryAt w.hist i = e
  text : bs ≠ [] → HoldsText w.heap w.hist.ring (slotOf (w.hist.tail+ofNat i)) e.data bs

variable {w' w : World} {j i b : Nat} {text bs : Bytes} {e : HistEntry}

section
variable {e : HistEntry} {bs : Bytes} {w : World} {i : Nat}

theorem Kept.other (h : Kept e bs w i) {i' : Nat} {x : HistEntry}
    (hc : (historyCount w'.hist).toNat ≤ histRingSize) (hi : i' < (historyCount w'.hist).toNat)
    (hs : slotOf (w'.hist.tail+ofNat i') = slotOf (w.hist.tail+ofNat i))
    (hj : j < histRingSize) (hne : j ≠ slotOf (w.hist.tail+ofNat i))
    (hr : w'.hist.ring = setAt w.hist.ring j x)
    (hh : w'.heap = kfree w.heap (w.hist.ring j).data) (hx : bs ≠ [] → x.data ≠ e.data) :
    Kept e bs w' i' := by
  refine ⟨hc,hi,?_,?_⟩
  · rw [entryAt,hs,hr,setAt_ne _ _ (Ne.symm hne)]
    exact h.entry
  intro hbs
  have ht := h.text hbs
  rw [hs,hr,hh]
  refine ⟨ht.nonnull,?_,?_,?_⟩
  · rw [kfree_allocated_ne _ (Ne.symm (ht.alone j hj hne))]
    exact ht.allocated
  · rw [load,kfree_bytes]
    exact ht.bytes
  intro k hk hks
  by_cases hkj : k = j
  · subst hkj
    rw [setAt_self]
    exact hx hbs
  · rw [setAt_ne _ _ hkj]
    exact ht.alone k hk hks

theorem Kept.evictOldest (h : Kept e bs w (i+1)) : Kept e bs (evictOldest w) i := by
  have hc := h.count
  have hi := h.index
  have hcn := evictOldest_count w
  have hne : w.hist.head ≠ w.hist.tail := fun he => by
    rw [count_eq_zero.mpr he] at hi
    omega
  refine h.other (j := slotOf w.hist.tail) (by omega) (by omega) ?_ (slotOf_lt _) ?_
    (by simp only [Hist.evictOldest,if_neg hne]; rfl)
    (by simp only [Hist.evictOldest,if_neg hne,entryFree_heap])
    (fun hbs => Ne.symm (h.text hbs).nonnull)
  · simp only [Hist.evictOldest,if_neg hne,slotOf_add]
    simp only [toNat_add,toNat_one,histRingSize]
    omega
  · rw [slotOf_add]
    exact slot_ne (i := 0) (Nat.succ_pos i) (by omega)

theorem Kept.evictIter (k : Nat) (h : Kept e bs w (i+k)) : Kept e bs (Hist.evictOldest^[k] w) i := by
  induction k generalizing w with
  | zero => exact h
  | succ k ih => exact ih h.evictOldest

theorem Kept.dropNewest (h : Kept e bs w i) (hi : i+1 < (historyCount w.hist).toNat) :
    Kept e bs (dropNewest w) i := by
  have hc := h.count
  have hne : w.hist.head ≠ w.hist.tail := fun he => by
    rw [count_eq_zero.mpr he] at hi
    omega
  have hcn := dropNewest_count hne
  refine h.other (j := slotOf (w.hist.head-1)) (by omega) (by omega) rfl (slotOf_lt _) ?_ rfl
    (by simp only [Hist.dropNewest,entryFree_heap])
    (fun hbs => Ne.symm (h.text hbs).nonnull)
  rw [slotOf_add,slotOf_newest hne]
  exact Ne.symm (slot_ne (by omega) (by omega))

theorem truncateLoop_count_le (drop : Nat) (w : World) :
    (historyCount (truncateLoop drop w).hist).toNat ≤ (historyCount w.hist).toNat := by
  induction drop generalizing w with
  | zero => exact le_refl _
  | succ drop ih =>
    unfold truncateLoop
    split
    · exact le_refl _
    rename_i hlt
    have hne : w.hist.head ≠ w.hist.tail := fun he => hlt (he ▸ UInt32.le_refl _)
    have hc := dropNewest_count hne
    have hr := ih (dropNewest w)
    omega

theorem Kept.truncateLoop (drop : Nat) (h : Kept e bs w i)
    (hi : i < (historyCount (truncateLoop drop w).hist).toNat) : Kept e bs (truncateLoop drop w) i := by
  induction drop generalizing w with
  | zero => exact h
  | succ drop ih =>
    by_cases hlt : w.hist.head ≤ w.hist.tail
    · rw [Hist.truncateLoop,if_pos hlt]
      exact h
    rw [Hist.truncateLoop,if_neg hlt] at hi ⊢
    have hne : w.hist.head ≠ w.hist.tail := fun he => hlt (he ▸ UInt32.le_refl _)
    have hc := dropNewest_count hne
    have hle := truncateLoop_count_le drop (Hist.dropNewest w)
    exact ih (h.dropNewest (by omega)) hi

theorem Kept.buffered (h : Kept e bs w i) {env : PushEnv} {m' : Heap}
    (hb : Buffered env text w.heap m') : Kept e bs { w with heap := m' } i := by
  refine ⟨h.count,h.index,h.entry,fun hbs => ?_⟩
  have ht := h.text hbs
  have hne : e.data ≠ env.buffer := by
    intro heq
    have hall := ht.allocated
    rw [heq,hb.free] at hall
    exact Bool.noConfusion hall
  obtain ⟨hall,hby⟩ := hb.others _ hne
  refine ⟨ht.nonnull,?_,?_,ht.alone⟩
  · rw [hall]
    exact ht.allocated
  · rw [load,hby]
    exact ht.bytes

end

section
variable {grant : Nat → Bool} {env : PushEnv} {role : UInt8} {text : Bytes} {w w' v : World}
  {m' : Heap} {k : Nat}

theorem evictIter_tail (w : World) {k : Nat} (hk : k ≤ (historyCount w.hist).toNat) :
    (evictOldest^[k] w).hist.tail = w.hist.tail+ofNat k := by
  induction k with
  | zero => exact (UInt32.add_zero _).symm
  | succ k ih =>
    have hc := evictIter_count w k
    have hne : (evictOldest^[k] w).hist.head ≠ (evictOldest^[k] w).hist.tail := fun he => by
      rw [count_eq_zero.mpr he] at hc
      omega
    rw [Function.iterate_succ_apply',evictOldest,if_neg hne]
    simp only [ih (by omega)]
    apply UInt32.toNat_inj.mp
    simp only [toNat_add,toNat_one,toNat_ofNat']
    omega

section
variable (h : Pushed grant env role text w w' m' k v)
include h

theorem Pushed.tail : w'.hist.tail = v.hist.tail ∧ (w'.hist.tail-w.hist.tail).toNat = k := by
  obtain ⟨t,ht⟩ := h.placed
  have htl : w'.hist.tail = v.hist.tail := by
    rw [ht]
    rfl
  refine ⟨htl,?_⟩
  have hk := h.evictions
  have hlt := (historyCount w.hist).toNat_lt
  have h2 := w.hist.tail.toNat_lt
  rw [htl,h.evicted,evictIter_tail { w with heap := m' } hk]
  simp only [UInt32.toNat_sub,toNat_add,toNat_ofNat']
  omega

theorem Pushed.count : (historyCount w'.hist).toNat = (historyCount v.hist).toNat+1 := by
  obtain ⟨t,ht⟩ := h.placed
  rw [ht]
  exact placeEntry_count grant (pushedEntry env role text w.hist.nextSeq) h.room

theorem Pushed.kept (hk : Kept e bs w (i+k)) : Kept e bs w' i := by
  have hbuf := hk.buffered h.buffered
  have hv : Kept e bs v i := by
    rw [h.evicted]
    exact hbuf.evictIter k
  have hr := h.room
  have hi := hv.index
  have hc := h.count
  refine hv.other (by omega) (by omega) (by rw [h.tail.1]) (slotOf_lt _) ?_ h.ring h.heap ?_
  · rw [slotOf_add,slotOf_head]
    exact Ne.symm (slot_ne hi (by omega))
  intro hbs heq
  have hall := (hk.text hbs).allocated
  rw [← heq] at hall
  simp only [pushedEntry,h.buffered.free] at hall
  exact Bool.noConfusion hall

theorem Pushed.newest (hun : Unclaimed env.buffer w.hist.ring) :
    Kept (pushedEntry env role text w.hist.nextSeq) (packText text).2 w'
      ((historyCount w'.hist).toNat-1) := by
  have hr := h.room
  have hc := h.count
  have hs : slotOf (w'.hist.tail+ofNat ((historyCount w'.hist).toNat-1)) = slotOf v.hist.head := by
    rw [slotOf_add,h.tail.1,hc,Nat.add_sub_cancel,slotOf_head]
  refine ⟨by omega,by omega,?_,?_⟩
  · rw [entryAt,hs,h.ring,setAt_self]
  intro hbs
  have hne : text ≠ [] := by
    rintro rfl
    exact hbs rfl
  have hres := h.reserved hne hun
  rw [hs,h.heap,h.ring]
  refine ⟨h.buffered.nonnull,?_,?_,?_⟩
  · rw [pushedEntry,kfree_allocated_ne _ (Ne.symm (hres.unclaimed _ (slotOf_lt _)))]
    exact hres.allocated
  · rw [load,kfree_bytes]
    exact hres.bytes
  · intro j hj hne
    rw [setAt_ne _ _ hne]
    exact hres.unclaimed j hj

end

end

theorem Kept.step (grant : Nat → Bool) {o : Op} (h : Kept e bs w i)
    (hf : follow w (step grant w o) i o = some j) : Kept e bs (step grant w o) j := by
  cases o with
  | init maxTokens | clear => exact absurd hf (by simp [follow])
  | truncateKeep keepCount =>
    simp only [follow,Option.ite_none_right_eq_some,Option.some.injEq] at hf
    obtain ⟨hi,rfl⟩ := hf
    revert hi
    unfold Hist.step historyTruncateKeep
    simp only
    split
    · exact fun _ => h
    · intro hi
      have hk := h.truncateLoop _ hi
      exact ⟨hk.count,hk.index,hk.entry,hk.text⟩
  | push env role text =>
    simp only [follow,Option.ite_none_right_eq_some,Option.some.injEq] at hf
    obtain ⟨hle,rfl⟩ := hf
    rcases historyPush_cases grant env role text w with hfl | ⟨-,m',k,v,hp⟩
    · simp only [Hist.step,hfl,UInt32.sub_self]
      exact h
    have hk := hp.tail.2
    simp only [Hist.step] at hle ⊢
    rw [hk] at hle ⊢
    refine hp.kept ?_
    rw [Nat.sub_add_cancel hle]
    exact h

theorem Kept.followRun (grant : Nat → Bool) {ops : List Op} (h : Kept e bs w i)
    (hf : followRun grant ops w i = some (w',j)) : Kept e bs w' j := by
  induction ops generalizing w i with
  | nil =>
    cases hf
    exact h
  | cons o ops ih =>
    unfold Hist.followRun at hf
    split at hf
    · cases hf
    · rename_i j hj
      exact ih (h.step grant hj) hf

def unpack (bs : Bytes) (rawLen b : Nat) : Int × Bytes :=
  let d := lz4Decompress bs (min (b-1) rawLen)
  if d.1 ≤ 0 then
    let copyLen := min bs.length ((b-1)%2^32)
    (copyLen,bs.take copyLen)
  else d

section
variable {e : HistEntry} {bs : Bytes} {w : World} {i b : Nat}

theorem Kept.index_lt (h : Kept e bs w i) : ¬ historyCount w.hist ≤ ofNat i := by
  have hi := h.index
  rw [UInt32.le_iff_toNat_le,toNat_ofNat']
  omega

theorem Kept.get_empty (h : Kept e bs w i) (hb : 0 < b) (he : e.dataLen = 0) :
    historyGet w (ofNat i) b = (-enoent,[]) := by
  have hen := h.entry
  rw [entryAt] at hen
  rw [historyGet,if_neg (by omega),if_neg h.index_lt]
  simp [hen,he]

theorem Kept.get (h : Kept e bs w i) (hb : 0 < b) (hbs : bs ≠ []) (he : e.dataLen.toNat = bs.length) :
    historyGet w (ofNat i) b = unpack bs e.rawLen.toNat b := by
  have hen := h.entry
  have ht := h.text hbs
  have hlen : e.dataLen ≠ 0 := by
    intro hz
    rw [hz] at he
    exact hbs (length_eq_zero_iff.mp he.symm)
  rw [entryAt] at hen
  rw [historyGet,if_neg (by omega),if_neg h.index_lt]
  simp only [hen,ht.nonnull,hlen,or_self,if_false,he,ht.bytes]
  rfl

end

def Delivers (text : Bytes) (b : Nat) (r : Int × Bytes) : Prop :=
  r = (((min (b-1) text.length : Nat) : Int),text.take (b-1))
  deriving Decidable

/-- What decides whether `history_get` gives the text back into `b` bytes. -/
def Retrievable (text : Bytes) (b : Nat) : Prop :=
  text ≠ [] ∧ (text.length < b ∧ ¬ CutShort text ∨
      (packText text).2.take ((b-1)%2^32) = text.take (b-1))

theorem delivers_copy : Delivers text b
      (((min bs.length ((b-1)%2^32) : Nat) : Int),bs.take (min bs.length ((b-1)%2^32))) ↔
    bs.take ((b-1)%2^32) = text.take (b-1) := by
  have ht : bs.take (min bs.length ((b-1)%2^32)) = bs.take ((b-1)%2^32) := by
    rw [min_comm,← take_take,take_length]
  rw [Delivers,ht,Prod.mk.injEq]
  constructor
  · exact fun h => h.2
  intro h
  refine ⟨?_,h⟩
  have hlen := congrArg List.length h
  rw [length_take,length_take] at hlen
  rw [min_comm bs.length]
  exact congrArg _ hlen

theorem unpack_delivers_iff (hne : text ≠ []) (hout : Outcome text (packText text).2) :
    Delivers text b (unpack (packText text).2 text.length b) ↔ Retrievable text b := by
  have hf : (lz4Decompress (packText text).2 (min (b-1) text.length)).1 = -1 →
      (Delivers text b (unpack (packText text).2 text.length b) ↔
        (packText text).2.take ((b-1)%2^32) = text.take (b-1)) := by
    intro hd
    rw [unpack]
    simp only [hd]
    exact delivers_copy
  have hpos : 0 < text.length := length_pos_iff.mpr hne
  by_cases hcut : CutShort text
  · rw [hf ((hout.1 hcut).decompress _),Retrievable]
    simp [hcut,hne]
  by_cases hlt : text.length < b
  · have hall : min (b-1) text.length = text.length := by omega
    have hd := (hout.2 hcut).decompress (le_refl text.length)
    refine iff_of_true ?_ ⟨hne,.inl ⟨hlt,hcut⟩⟩
    rw [unpack,hall]
    simp only [hd]
    rw [if_neg (by omega),Delivers,hall,take_of_length_le (by omega)]
  · rw [hf ((hout.2 hcut).decompress_short (by omega)),Retrievable]
    simp [hlt,hne]

theorem historyGet_pushed_iff (grant : Nat → Bool) {env : PushEnv} {role : UInt8}
    {text : Bytes} {w w' v : World} {ops : List Op} {i b : Nat}
    (hun : Unclaimed env.buffer w.hist.ring)
    (hpush : historyPush grant env role text w = (0,w'))
    (hrun : followRun grant ops w' ((historyCount w'.hist).toNat-1) = some (v,i))
    (hb : 1 < b) :
    Delivers text b (historyGet v (ofNat i) b) ↔ Retrievable text b := by
  rcases historyPush_cases grant env role text w with hfail | ⟨-,m',k,u,hp⟩
  · rw [hpush] at hfail
    exact absurd (congrArg Prod.fst hfail) (by simp [enomem])
  rw [hpush] at hp
  have hk := (hp.newest hun).followRun grant hrun
  have hfits := hp.buffered.fits
  have hmax : text.length ≤ lz4MaxInputSize := by
    unfold compMax at hfits
    unfold lz4MaxInputSize
    omega
  have hraw : (ofNat text.length).toNat = text.length := by
    unfold compMax at hfits
    rw [toNat_ofNat']
    omega
  rcases packText_cases text hmax with ⟨hnil,hpack⟩ | ⟨hne,hlen,hpos,hle,hout⟩
  · have hzero : (pushedEntry env role text w.hist.nextSeq).dataLen = 0 := by
      rw [pushedEntry,hpack]
      rfl
    rw [hk.get_empty (by omega) hzero]
    refine iff_of_false ?_ (fun hr => hr.1 hnil)
    intro hd
    have hz := congrArg Prod.fst hd
    rw [hnil] at hz
    exact absurd hz (by simp [enoent])
  rw [hk.get (by omega) (length_pos_iff.mp hpos) ?_]
  · simp only [pushedEntry,hraw]
    exact unpack_delivers_iff hne hout
  · rw [pushedEntry,toNat_ofNat']
    omega

theorem historyGet_pushed_hello :
    let push := historyPush (fun _ => true) ⟨1,0,0⟩ 0 [104,101,108,108,111]
      ⟨⟨fun _ => false,fun _ => 0,fun _ _ => 0⟩,historyInit 100⟩
    let later := step (fun _ => true) push.2 (.push ⟨2,0,1⟩ 1 [98,121,101])
    push.1 = 0 ∧ Retrievable [104,101,108,108,111] 16 ∧
      Delivers [104,101,108,108,111] 16 (historyGet later 0 16) := by
  intro push later
  have hok : push.1 = 0 := by decide +kernel
  have hfollow : follow push.2 later ((historyCount push.2.hist).toNat-1)
      (.push ⟨2,0,1⟩ 1 [98,121,101]) = some 0 := by decide +kernel
  have hret : Retrievable [104,101,108,108,111] 16 :=
    ⟨by decide,.inl ⟨by decide,by decide +kernel⟩⟩
  have hpush : push = (0,push.2) := Prod.ext hok rfl
  have hrun : followRun (fun _ => true) [.push ⟨2,0,1⟩ 1 [98,121,101]] push.2
      ((historyCount push.2.hist).toNat-1) = some (later,0) := by
    rw [followRun,hfollow]
    rfl
  have hiff := historyGet_pushed_iff (fun _ => true) (fun _ _ => Nat.zero_ne_one) hpush hrun
    (show 1 < 16 by decide)
  exact ⟨hok,hret,hiff.mpr hret⟩

theorem historyGet_pushed_short : let text : Bytes := [104,101,108,108,111,32,119,111,114,108,100]
    let push := historyPush (fun _ => true) ⟨1,0,0⟩ 0 text
      ⟨⟨fun _ => false,fun _ => 0,fun _ _ => 0⟩,historyInit 100⟩
    push.1 = 0 ∧ historyCount push.2.hist = 1 ∧
      historyGet push.2 0 4 = (3,[176,104,101]) ∧ ¬ Delivers text 4 (historyGet push.2 0 4) := by
  decide +kernel

end AevOS.Hist
