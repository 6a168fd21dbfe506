import AevOS.MemoryImage

/-! Which entry of the memory engine owns which block of content, over whole runs and after an image. -/

namespace AevOS.Memory
open ArrayPrefix Wire Slab Hnsw List

def readBlock (m : Heap) (p : Addr) (n : Nat) : Option Bytes :=
  if m.allocated p = true ∧ n ≤ m.objSize p then some (load m p n) else none

variable {i k : Nat} {m : Heap}

section
variable {F : Type}

def memoryFetchById (w : World F) (id : UInt64) (buf : Addr) (bufMax : Nat) :
    Option (Int × Bytes) :=
  if buf = 0 ∨ bufMax = 0 then some (-einval,[])
  else
    match (live w.engine).find? (fun x => x.id == id) with
    | none => some (-enoent,[])
    | some x =>
      if x.content = 0 ∨ x.contentLen = 0 then some (0,[0])
      else do
        let cpy := if x.contentLen.toNat < bufMax-1 then x.contentLen.toNat else bufMax-1
        let bytes ← readBlock w.heap x.content cpy
        some ((Int32.ofNat cpy).toInt,bytes ++ [0])

def slots (e : Engine F) (i : Nat) : Addr := (e.entries i).content

def Holds (w : World F) (i : Nat) : Prop :=
  slots w.engine i = 0 ∨ w.heap.allocated (slots w.engine i) = true ∧
      (w.engine.entries i).contentLen.toNat ≤ w.heap.objSize (slots w.engine i) ∧
      ∀ j, j ≠ i → slots w.engine j ≠ slots w.engine i

/-- Every entry owns the block it points to, and the block is long enough. -/
def Contents (w : World F) : Prop := ∀ i, i < w.engine.count → Holds w i

theorem Contents.memoryFetchById {w : World F} (h : Contents w) (id : UInt64) (buf : Addr)
    (bufMax : Nat) : ∃ r, memoryFetchById w id buf bufMax = some r := by
  unfold Memory.memoryFetchById
  split
  · exact ⟨_,rfl⟩
  split
  · exact ⟨_,rfl⟩
  rename_i x hx
  split
  · exact ⟨_,rfl⟩
  rename_i hnot
  obtain ⟨i,hi,rfl⟩ := mem_firsts.mp (mem_of_find?_eq_some hx)
  rw [not_or] at hnot
  obtain ⟨hall,hs,-⟩ := (h i hi).resolve_left hnot.1
  have hr : ∀ n, n ≤ (w.engine.entries i).contentLen.toNat →
      readBlock w.heap (w.engine.entries i).content n =
        some (load w.heap (w.engine.entries i).content n) :=
    fun n hn => if_pos ⟨hall,hn.trans hs⟩
  have hcpy : (if (w.engine.entries i).contentLen.toNat < bufMax-1 then
      (w.engine.entries i).contentLen.toNat else bufMax-1) ≤
        (w.engine.entries i).contentLen.toNat := by
    split <;> omega
  dsimp only
  rw [hr _ hcpy]
  exact ⟨_,rfl⟩

structure Sound (w : World F) : Prop where
  owners : Owners w.heap (slots w.engine)
  room : w.engine.count ≤ w.engine.capacity
  beyond : ∀ i, w.engine.capacity ≤ i → slots w.engine i = 0

theorem sound_memoryInit (fl : Floats F) (m : Heap) : Sound ⟨memoryInit fl,m⟩ :=
  ⟨⟨fun _ hi => absurd rfl hi,fun _ _ _ hi => absurd rfl hi⟩,Nat.zero_le _,fun _ _ => rfl⟩

theorem Sound.same {w w' : World F} (h : Sound w) (hh : w'.heap = w.heap)
    (hs : slots w'.engine = slots w.engine) (hc : w'.engine.count ≤ w.engine.count)
    (hcap : w.engine.capacity ≤ w'.engine.capacity) : Sound w' := by
  refine ⟨?_,hc.trans (h.room.trans hcap),?_⟩
  · rw [hh,hs]
    exact h.owners
  · intro i hi
    rw [hs]
    exact h.beyond i (hcap.trans hi)

theorem Sound.put {w w' : World F} (h : Sound w) (hi : i < w.engine.capacity) (size : Nat)
    (bytes : Bytes) (p : Addr) (hcp : copyContent w.heap size bytes p = (slots w'.engine i,w'.heap))
    (ho : ∀ k, k ≠ i → slots w'.engine k = slots w.engine k)
    (hcap : w'.engine.capacity = w.engine.capacity) (hcn : w'.engine.count ≤ w.engine.capacity) :
    Sound w' := by
  refine ⟨?_,hcn.trans_eq hcap.symm,?_⟩
  · rcases copyContent_cases w.heap size bytes p with hn | ⟨m',hs,hc⟩
    · rw [hcp] at hn
      obtain ⟨hz,hm⟩ := Prod.mk.inj hn
      exact h.owners.replace ho (fun _ _ ha => by rw [hm]; exact ha) (fun hne => absurd hz hne)
        (fun hne => absurd hz hne)
    rw [hcp] at hs
    obtain ⟨hp,rfl⟩ := Prod.mk.inj hs
    refine h.owners.replace ho (fun _ _ ha => (hc.keeps ha).1) ?_ ?_
    · exact fun _ => hp ▸ hc.held
    · exact fun _ k _ => hp ▸ h.owners.unclaimed hc.nonnull hc.free k
  intro k hk
  rw [hcap] at hk
  rw [ho k (by omega)]
  exact h.beyond k hk

theorem slots_setAt_ne (e : Engine F) (x : Entry F) (h : k ≠ i) :
    (setAt e.entries i x k).content = slots e k := by
  rw [setAt_ne _ _ h,slots]

theorem slots_setAt_same (e : Engine F) {x : Entry F} (h : x.content = slots e i) :
    (fun k => (setAt e.entries i x k).content) = slots e := by
  funext k
  by_cases hk : k = i
  · rw [hk,setAt_self,h]
  · exact slots_setAt_ne e x hk

theorem report_slots {D S : Type} (scoreOf : D → S) (clock : Nat → UInt64) (ps : List (Nat × D))
    (i : Nat) (e : Engine F) : slots (report scoreOf clock i e ps).2 = slots e := by
  induction ps generalizing i e with
  | nil => rfl
  | cons p ps ih =>
    rw [report]
    rw [ih]
    exact slots_setAt_same e rfl

section
variable {D : Type} [LinearOrder D] (fl : Floats F) (dist : Embedding → Embedding → D)

theorem memoryGrow_sound (env : GrowEnv) {w : World F} (h : Sound w) :
    Sound { w with engine := (memoryGrow fl dist env w.engine).2 } ∧
      slots (memoryGrow fl dist env w.engine).2 = slots w.engine ∧
      (memoryGrow fl dist env w.engine).2.count = w.engine.count := by
  have hc : (fun i => (if w.engine.capacity ≤ i ∧
      i < min (w.engine.capacity*2) memMaxEntries then zeroEntry fl
        else w.engine.entries i).content) = slots w.engine := by
    funext i
    split
    · rename_i hi
      exact (h.beyond i hi.1).symm
    · rfl
  unfold memoryGrow
  dsimp only
  split_ifs with h1 h2 h3
  · exact ⟨h,rfl,rfl⟩
  · exact ⟨h,rfl,rfl⟩
  · exact ⟨h.same rfl hc (le_refl _) (le_refl _),hc,rfl⟩
  · exact ⟨h.same rfl hc (le_refl _) (le_of_lt (Nat.not_le.mp h1)),hc,rfl⟩

section
variable (env : StoreEnv) (content : Bytes) (embedding : Embedding) (importance : F)

theorem storeAt_sound {w : World F} (h : Sound w) (hr : w.engine.count < w.engine.capacity) :
    Sound (storeAt dist env content embedding importance w).2 := by
  refine h.put hr (content.length+1) content env.pick ?_ ?_ rfl hr
  · rw [slots]
    simp only [storeAt,setAt_self]
  · exact fun k hk => slots_setAt_ne w.engine _ hk

theorem memoryStore_sound {w : World F} (h : Sound w) :
    Sound (memoryStore fl dist env content embedding importance w).2 := by
  obtain ⟨hg,-,hc⟩ := memoryGrow_sound fl dist env.grow h
  unfold memoryStore
  dsimp only
  split_ifs with h1 h2
  · exact hg
  · refine storeAt_sound dist env content embedding importance hg ?_
    rw [hc]
    exact h.room.trans_lt (memoryGrow_capacity fl dist h2)
  · exact storeAt_sound dist env content embedding importance h (Nat.not_le.mp h1)

end

theorem memoryRetrieve_sound {S : Type} (scoreOf : D → S) (env : RetrieveEnv) (query : Embedding)
    (topK : Nat) {w : World F} (h : Sound w) : Sound (memoryRetrieve dist scoreOf env query topK w).2.2 := by
  unfold memoryRetrieve
  dsimp only
  split_ifs
  · exact h
  · obtain ⟨-,hc,hcap,-⟩ := report_spec scoreOf env.clock
      (hnswSearch w.engine.index (fun x => dist query (w.engine.entries x).embedding) topK
        env.results env.level) 0 w.engine
    exact h.same rfl (report_slots scoreOf env.clock _ 0 w.engine) hc.le hcap.ge
  · exact h

theorem removeAt_slots (now : UInt64) {e : Engine F} (h : i < e.count) :
    slots (removeAt fl now i e) = setAt (slots e) i 0 ∘ Equiv.swap i (e.count-1) := by
  funext k
  rw [Function.comp_apply,slots,removeAt]
  dsimp only
  by_cases hl : i < e.count-1
  · rw [if_pos hl]
    by_cases hk : k = e.count-1
    · rw [hk,setAt_self,Equiv.swap_apply_right,setAt_self]
      rfl
    rw [setAt_ne _ _ hk]
    by_cases hki : k = i
    · rw [hki,setAt_self,Equiv.swap_apply_left,setAt_ne _ _ (by omega),setAt_ne _ _ (by omega)]
      rfl
    · rw [setAt_ne _ _ hki,setAt_ne _ _ hki,Equiv.swap_apply_of_ne_of_ne hki hk,setAt_ne _ _ hki]
      rfl
  obtain rfl : i = e.count-1 := by omega
  rw [if_neg hl,Equiv.swap_self,Equiv.refl_apply]
  by_cases hk : k = e.count-1
  · rw [hk,setAt_self,setAt_self]
  · rw [setAt_ne _ _ hk,setAt_ne _ _ hk]
    rfl

theorem removeAt_sound (now : UInt64) {w : World F} (h : Sound w) (hi : i < w.engine.count) :
    Sound ⟨removeAt fl now i w.engine,kfree w.heap (w.engine.entries i).content⟩ := by
  have hr := h.room
  refine ⟨?_,(Nat.sub_le _ _).trans h.room,?_⟩
  · rw [removeAt_slots fl now hi]
    refine (h.owners.release (i := i) (fun k hk => ?_) (setAt_self _ _ _)).comp (Equiv.injective _)
    exact setAt_ne _ _ hk
  intro k hk
  have hk' : w.engine.capacity ≤ k := hk
  rw [removeAt_slots fl now hi,Function.comp_apply,
    Equiv.swap_apply_of_ne_of_ne (by omega) (by omega),setAt_ne _ _ (by omega)]
  exact h.beyond k hk

theorem forgetLoop_sound (now : UInt64) (i : Nat) {w : World F} (h : Sound w) :
    Sound (forgetLoop fl now i w) := by
  induction i, w using forgetLoop.induct fl now with
  | case1 i w hi hf ih =>
    rw [forgetLoop,if_pos hi,if_pos hf]
    exact ih (removeAt_sound fl now h hi)
  | case2 i w hi hf ih =>
    rw [forgetLoop,if_pos hi,if_neg hf]
    exact ih (h.same rfl (slots_setAt_same w.engine rfl) (le_refl _) (le_refl _))
  | case3 i w hi =>
    rw [forgetLoop,if_neg hi]
    exact h

theorem memoryForget_sound (now : UInt64) {w : World F} (h : Sound w) : Sound (memoryForget fl now w) := by
  rw [memoryForget]
  split
  · exact h
  · exact forgetLoop_sound fl now 0 h

theorem growTo_sound (env : Nat → GrowEnv) (count k : Nat) (m : Heap) {e : Engine F} (h : Sound ⟨e,m⟩) :
    Sound ⟨(growTo fl dist env count k e).2,m⟩ ∧ slots (growTo fl dist env count k e).2 = slots e ∧
      (¬ (growTo fl dist env count k e).1 < 0 → count ≤ (growTo fl dist env count k e).2.capacity) := by
  induction k, e using growTo.induct fl dist env count with
  | case1 k e hlt hneg =>
    obtain ⟨hg,hs,-⟩ := memoryGrow_sound fl dist (env k) h
    rw [growTo,if_pos hlt,dif_pos hneg]
    exact ⟨hg,hs,fun h0 => absurd (show -enomem < 0 by decide) h0⟩
  | case2 k e hlt hneg ih =>
    obtain ⟨hg,hs,-⟩ := memoryGrow_sound fl dist (env k) h
    rw [growTo,if_pos hlt,dif_neg hneg]
    obtain ⟨hsn,hsm,hcap⟩ := ih hg
    exact ⟨hsn,hsm.trans hs,hcap⟩
  | case3 k e hlt =>
    rw [growTo,if_neg hlt]
    exact ⟨h,rfl,fun _ => Nat.not_lt.mp hlt⟩

def Covered (m : Heap) (x : Entry F) : Prop :=
  x.content = 0 ∨ x.contentLen.toNat ≤ m.objSize x.content

theorem Sound.contents_iff {w : World F} (h : Sound w) :
    Contents w ↔ ∀ x ∈ live w.engine, Covered w.heap x := by
  constructor
  · intro hc x hx
    obtain ⟨i,hi,rfl⟩ := mem_firsts.mp hx
    exact (hc i hi).imp id (fun hb => hb.2.1)
  intro hc i hi
  by_cases hz : slots w.engine i = 0
  · exact .inl hz
  · have hlen := (hc _ (mem_firsts.mpr ⟨i,hi,rfl⟩)).resolve_left hz
    refine .inr ⟨h.owners.allocated i hz,hlen,fun j hj => ?_⟩
    exact (h.owners.apart i j hj.symm hz).symm

def CutFits (w : World F) (i : Nat) (r : Record) : Prop :=
  r.content = none → slots w.engine i = 0 ∨ r.contentLen.toNat ≤ w.heap.objSize (slots w.engine i)

theorem copied_contentLen {m' : Heap} {p : Addr} {len : UInt32} {bytes : Bytes}
    (h : Copied m m' p (len+1).toNat bytes) : len.toNat ≤ m'.objSize p := by
  have hlt := len.toNat_lt
  have hpos := h.pos
  have hs := h.size_le
  rw [UInt32.toNat_add,UInt32.toNat_one] at hpos hs
  omega

theorem loadContent_objSize (r : Record) (old p : Addr) {a : Addr} (ha : m.allocated a = true) :
    (loadContent m r old p).2.objSize a = m.objSize a := by
  unfold loadContent
  split
  · rfl
  rename_i bytes _
  rcases copyContent_cases m (r.contentLen+1).toNat bytes p with hn | ⟨m',hs,hc⟩
  · rw [hn]
  · rw [hs]
    exact (hc.keeps ha).2.1

section
variable (env : LoadEnv) {w : World F} {i : Nat}

theorem acceptRecord_slots_ne (r : Record) (hk : k ≠ i) :
    slots (acceptRecord fl dist env i w r).engine k = slots w.engine k :=
  slots_setAt_ne w.engine _ hk

theorem acceptRecord_slots_self (r : Record) : slots (acceptRecord fl dist env i w r).engine i =
    (loadContent w.heap r (slots w.engine i) (env.pick i)).1 := by
  rw [slots]
  simp only [acceptRecord,setAt_self]
  rfl

theorem acceptRecord_sound (h : Sound w) (hcn : w.engine.count = i)
    (hi : i < w.engine.capacity) (r : Record) : Sound (acceptRecord fl dist env i w r) := by
  have hs := acceptRecord_slots_self fl dist env (w := w) (i := i) r
  have hh := acceptRecord_heap fl dist env i w r
  have hr : (acceptRecord fl dist env i w r).engine.count ≤ w.engine.capacity := by
    show w.engine.count+1 ≤ w.engine.capacity
    omega
  have ho := fun k => acceptRecord_slots_ne fl dist env (w := w) (i := i) (k := k) r
  cases hc : r.content with
  | none =>
    rw [loadContent,hc] at hs hh
    have hsl : slots (acceptRecord fl dist env i w r).engine = slots w.engine := by
      funext k
      by_cases hk : k = i
      · rw [hk,hs]
      · exact ho k hk
    refine ⟨?_,hr,?_⟩
    · rw [hh,hsl]
      exact h.owners
    · rw [hsl]
      exact h.beyond
  | some bytes =>
    rw [loadContent,hc] at hs hh
    refine h.put hi (r.contentLen+1).toNat bytes (env.pick i) ?_ ho rfl hr
    rw [hs,hh]

theorem acceptedEntry_covered (r : Record) :
    Covered (acceptRecord fl dist env i w r).heap (acceptedEntry fl env i w r) ↔ CutFits w i r := by
  have hh : (acceptRecord fl dist env i w r).heap =
      (loadContent w.heap r (slots w.engine i) (env.pick i)).2 := acceptRecord_heap fl dist env i w r
  have hs : (acceptedEntry fl env i w r).content =
      (loadContent w.heap r (slots w.engine i) (env.pick i)).1 := rfl
  have hlen : (acceptedEntry fl env i w r).contentLen = r.contentLen := rfl
  rw [Covered,CutFits,hh,hs,hlen]
  cases hc : r.content with
  | none =>
    rw [loadContent,hc]
    simp
  | some bytes =>
    rw [loadContent,hc]
    simp only [reduceCtorEq,false_implies,iff_true]
    rcases copyContent_cases w.heap (r.contentLen+1).toNat bytes (env.pick i) with
      hn | ⟨m',hsm,hcp⟩
    · rw [hn]
      exact .inl rfl
    · rw [hsm]
      exact .inr (copied_contentLen hcp)

theorem acceptRecord_objSize (h : Sound w) (r : Record) (hk : slots w.engine k ≠ 0) :
    (acceptRecord fl dist env i w r).heap.objSize (slots w.engine k) = w.heap.objSize (slots w.engine k) :=
  loadContent_objSize r _ _ (h.owners.allocated k hk)

theorem acceptRecord_cutFits (h : Sound w) (r : Record) (hk : k ≠ i) (r' : Record) :
    CutFits (acceptRecord fl dist env i w r) k r' ↔ CutFits w k r' := by
  rw [CutFits,CutFits,acceptRecord_slots_ne fl dist env r hk]
  by_cases hz : slots w.engine k = 0
  · simp [hz]
  · rw [acceptRecord_objSize fl dist env h r hz]

theorem acceptRecord_covered (h : Sound w) (hc : w.engine.count = i) (r : Record) :
    (∀ x ∈ live (acceptRecord fl dist env i w r).engine, Covered (acceptRecord fl dist env i w r).heap x) ↔
      (∀ x ∈ live w.engine, Covered w.heap x) ∧ CutFits w i r := by
  have hold : ∀ x ∈ live w.engine,
      (Covered (acceptRecord fl dist env i w r).heap x ↔ Covered w.heap x) := by
    intro x hx
    obtain ⟨k,hk,rfl⟩ := mem_firsts.mp hx
    by_cases hz : slots w.engine k = 0
    · exact ⟨fun _ => .inl hz,fun _ => .inl hz⟩
    · rw [Covered,Covered]
      exact or_congr Iff.rfl (iff_of_eq (congrArg _ (acceptRecord_objSize fl dist env h r hz)))
  rw [acceptRecord_live fl dist env hc r]
  simp only [forall_mem_append,forall_mem_singleton]
  exact and_congr (forall₂_congr hold) (acceptedEntry_covered fl dist env r)

end

theorem forall_getElem?_cons {α : Type} (P : Nat → α → Prop) (a : α) (l : List α) (i : Nat) :
    (∀ k x, (a :: l)[k]? = some x → P (i+k) x) ↔ P i a ∧ ∀ k x, l[k]? = some x → P (i+1+k) x := by
  constructor
  · intro h
    refine ⟨h 0 a rfl,fun k x hx => ?_⟩
    rw [add_assoc,add_comm 1 k]
    exact h (k+1) x hx
  rintro ⟨h0,h⟩ k x hx
  cases k with
  | zero =>
    exact Option.some.inj hx ▸ h0
  | succ k =>
    have hk := h k x hx
    rwa [add_assoc,add_comm 1 k] at hk

theorem acceptAll_covered (env : LoadEnv) (rs : List Record) {w : World F} (h : Sound w)
    (hc : w.engine.count = i) (hr : i+rs.length ≤ w.engine.capacity) :
    Sound (acceptAll fl dist env i w rs) ∧ ((∀ x ∈ live (acceptAll fl dist env i w rs).engine,
        Covered (acceptAll fl dist env i w rs).heap x) ↔
      (∀ x ∈ live w.engine, Covered w.heap x) ∧ ∀ k r, rs[k]? = some r → CutFits w (i+k) r) := by
  induction rs generalizing i w with
  | nil => exact ⟨h,by simp [acceptAll]⟩
  | cons r rs ih =>
    rw [length_cons] at hr
    have hs := acceptRecord_sound fl dist env h hc (by omega) r
    obtain ⟨hsn,hiff⟩ := ih hs (congrArg Nat.succ hc)
      (show i+1+rs.length ≤ w.engine.capacity by omega)
    refine ⟨hsn,hiff.trans ?_⟩
    rw [acceptRecord_covered fl dist env h hc r,and_assoc,forall_getElem?_cons (CutFits w) r rs i]
    refine and_congr Iff.rfl (and_congr Iff.rfl (forall₃_congr fun k r' _ => ?_))
    exact acceptRecord_cutFits fl dist env h r (by omega) r'

theorem memoryDeserialize_sound (env : LoadEnv) (buf : Bytes) {w : World F} (h : Sound w) :
    ∃ r, memoryDeserialize fl dist env buf w = some r ∧ Sound r.2 ∧ (r.1 = 0 → (Contents r.2 ↔
      ∀ i x, (imageRecords buf)[i]? = some x → CutFits w i x)) := by
  obtain ⟨hg,hsl,hcap⟩ := growTo_sound fl dist env.grow (imageCount buf) 0 w.heap h
  rcases memoryDeserialize_cases fl dist env buf w with ⟨-,heq⟩ | ⟨-,⟨hneg,heq⟩ | ⟨hneg,heq⟩⟩
  · exact ⟨_,heq,h,fun h0 => absurd h0 (show -einval ≠ 0 by decide)⟩
  · exact ⟨_,heq,hg,fun h0 => absurd h0 (ne_of_lt hneg)⟩
  have hlen := (records_length buf (imageCount buf) 16).trans (hcap hneg)
  generalize growTo fl dist env.grow (imageCount buf) 0 w.engine = g at *
  have ho : Sound ⟨openImage buf g.2,w.heap⟩ :=
    hg.same rfl rfl (Nat.zero_le _) (Nat.le_refl _)
  obtain ⟨hs,hiff⟩ := acceptAll_covered fl dist env (imageRecords buf) (i := 0) ho rfl
    ((Nat.zero_add _).trans_le hlen)
  refine ⟨_,heq,hs,fun _ => ?_⟩
  rw [hs.contents_iff,hiff]
  have hs' : slots (openImage buf g.2) = slots w.engine := hsl
  simp only [CutFits,hs',Nat.zero_add]
  refine ⟨fun hc => hc.2,fun hc => ⟨fun x hx => ?_,hc⟩⟩
  exact absurd hx not_mem_nil

variable {S : Type} (scoreOf : D → S)

inductive Reached : World F → Prop
  | init (m : Heap) : Reached ⟨memoryInit fl,m⟩
  | call {w : World F} (op : Op F) (h : Reached w) : Reached (step fl dist scoreOf w op)
  | elsewhere {w : World F} (m : Heap) (h : Reached w)
      (hm : ∀ i, slots w.engine i ≠ 0 → m.allocated (slots w.engine i) = true) :
      Reached { w with heap := m }

theorem step_sound {w : World F} (h : Sound w) (op : Op F) : Sound (step fl dist scoreOf w op) := by
  cases op with
  | store env content embedding importance =>
    exact memoryStore_sound fl dist env content embedding importance h
  | forget now => exact memoryForget_sound fl now h
  | deserialize env buf =>
    obtain ⟨r,heq,hs,-⟩ := memoryDeserialize_sound fl dist env buf h
    rw [step,heq]
    exact hs
  | retrieve env query topK => exact memoryRetrieve_sound dist scoreOf env query topK h

variable {fl} {dist} {scoreOf}

theorem Reached.sound {w : World F} (h : Reached fl dist scoreOf w) : Sound w := by
  induction h with
  | init m => exact sound_memoryInit fl m
  | call op _ ih => exact step_sound fl dist scoreOf ih op
  | elsewhere m _ hm ih =>
    refine ⟨ih.owners.heap fun i hi => ?_,ih.room,ih.beyond⟩
    rw [hm i hi,ih.owners.allocated i hi]

theorem memoryDeserialize_contents_iff {w : World F} (h : Reached fl dist scoreOf w)
    (env : LoadEnv) (buf : Bytes) :
    ∃ r, memoryDeserialize fl dist env buf w = some r ∧
      (r.1 = 0 → (Contents r.2 ↔ ∀ i x, (imageRecords buf)[i]? = some x → x.content = none →
        (w.engine.entries i).content = 0 ∨
          x.contentLen.toNat ≤ w.heap.objSize (w.engine.entries i).content)) ∧
      (Contents r.2 → ∀ id dst bufMax, ∃ out, memoryFetchById r.2 id dst bufMax = some out) := by
  obtain ⟨r,heq,-,hiff⟩ := memoryDeserialize_sound fl dist env buf h.sound
  exact ⟨r,heq,hiff,fun hc id dst bufMax => hc.memoryFetchById id dst bufMax⟩

end

end

def cutImage (len : Nat) : Bytes :=
  leBytes 4 memSerialMagic ++ leBytes 4 1 ++ leBytes 8 9 ++
    (leBytes 8 7 ++ List.replicate embedDim 0 ++ leBytes 4 100 ++ leBytes 8 0 ++ leBytes 4 1 ++
      leBytes 4 len)

def oneStored : World Nat :=
  step hundredths firstDistance (fun d => d) ⟨memoryInit hundredths,emptyHeap⟩ (storeOne 1 1 100)

theorem oneStored_reached : Reached hundredths firstDistance (fun d => d) oneStored :=
  .call _ (.init emptyHeap)

def loadCut (len : Nat) : Option (Int × World Nat) :=
  memoryDeserialize hundredths firstDistance loadGranted (cutImage len) oneStored

theorem memoryDeserialize_contents_short : ∃ r, loadCut 32 = some r ∧ r.1 = 0 ∧ Contents r.2 := by
  obtain ⟨r,heq,hiff,-⟩ := memoryDeserialize_contents_iff oneStored_reached loadGranted (cutImage 32)
  have hzero : (loadCut 32).map (fun r => r.1) = some 0 := by decide +kernel
  have hres : loadCut 32 = some r := heq
  rw [hres,Option.map_some,Option.some.injEq] at hzero
  refine ⟨r,hres,hzero,(hiff hzero).mpr ?_⟩
  intro i x hx _
  have hall : (imageRecords (cutImage 32)).map (fun x => x.contentLen) = [32] := by
    decide +kernel
  have hx' := congrArg (Option.map (fun x : Record => x.contentLen)) hx
  rw [← getElem?_map,hall] at hx'
  cases i with
  | zero =>
    refine .inr ?_
    have hlen : x.contentLen = 32 := (Option.some.inj hx').symm
    rw [hlen]
    decide +kernel
  | succ i => exact absurd hx' (by simp)

theorem memoryFetchById_past_block : (loadCut 33).map (fun r => r.1) = some 0 ∧
    ((loadCut 33).bind fun r => memoryFetchById r.2 7 1 100) = none := by
  decide +kernel

end AevOS.Memory
