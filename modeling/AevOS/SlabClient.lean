import AevOS.Slab

/-! A client of the slab allocator: it holds the objects it was given with the sizes it
asked for, writes to them, resizes them and gives them back. -/

namespace AevOS.SlabHeap
open ArrayPrefix BitWords MemRange List
open Option (some.inj)

section
variable {h h' : Heap} {c d : CacheId} {k i k' i' ptr ptr' grant : Nat} {size : UInt64}

def RequestOk (h : Heap) (size : UInt64) (grant : Nat) : Prop :=
  ∀ c, findCache size = some c → GrantOk h c grant

theorem findCache_fits (hc : findCache size = some c) : size.toNat ≤ objSize c := by
  have hf := find?_some hc
  exact of_decide_eq_true hf

theorem Object.ne_zero (ho : Object h c k i ptr) (hs : Sound h) : ptr ≠ 0 := by
  have hpos := hs.base_pos ho.cache
  rw [ho.addr]
  omega

theorem Handed.object (hh : Handed h h' c k i ptr) : Object h' c k i ptr :=
  ⟨hh.cache,hh.index,hh.addr⟩

theorem Sound.objects_apart (hs : Sound h) (ho : Object h c k i ptr) (ho' : Object h d k' i' ptr')
    (hne : ¬ (k' = k ∧ i' = i)) : Disjoint (span ptr (objSize c)) (span ptr' (objSize d)) := by
  by_cases hkk : k' = k
  · subst hkk
    obtain rfl : c = d := some.inj (ho.cache.symm.trans ho'.cache)
    rw [ho.addr,ho'.addr]
    exact object_disjoint (fun heq => hne ⟨rfl,heq.symm⟩)
  · exact (hs.apart k k' c d ho.cache ho'.cache (Ne.symm hkk)).mono ho.inside ho'.inside

theorem Sound.objects_ne (hs : Sound h) (ho : Object h c k i ptr) (ho' : Object h d k' i' ptr')
    (hne : ¬ (k' = k ∧ i' = i)) : ptr ≠ ptr' := by
  rintro rfl
  have hmem : ptr ∈ span ptr (objSize c) ∧ ptr ∈ span ptr (objSize d) := by
    have hc := (slab_shape c).1
    have hd := (slab_shape d).1
    rw [mem_span,mem_span]
    omega
  exact Finset.disjoint_left.mp (hs.objects_apart ho ho' hne) hmem.1 hmem.2

theorem kmalloc_spec (hs : Sound h) (hg : RequestOk h size grant) :
    Sound (kmalloc size grant h).2 ∧ Kept h (kmalloc size grant h).2 ∧
      (((kmalloc size grant h).1 = 0 ∧ ∀ k i, Held (kmalloc size grant h).2 k i ↔ Held h k i) ∨
        ∃ c k i, size.toNat ≤ objSize c ∧
          Handed h (kmalloc size grant h).2 c k i (kmalloc size grant h).1) := by
  rw [kmalloc]
  split
  · exact ⟨hs,Kept.refl h,.inl ⟨rfl,fun _ _ => Iff.rfl⟩⟩
  cases hc : findCache size with
  | none => exact ⟨hs,Kept.refl h,.inl ⟨rfl,fun _ _ => Iff.rfl⟩⟩
  | some c =>
    obtain ⟨hsn,hk,hres⟩ := cacheAlloc_spec hs (hg c hc)
    refine ⟨hsn,hk,hres.imp_right ?_⟩
    rintro ⟨k,i,hh⟩
    exact ⟨c,k,i,findCache_fits hc,hh⟩

theorem kfree_spec (hs : Sound h) (ptr : Nat) (ho : Object h c k i ptr) (hh : Held h k i) :
    Freed h (kfree ptr h) k i := by
  rw [kfree,if_neg (ho.ne_zero hs),findCacheForPtr_eq hs ho]
  exact cacheFree_spec hs ho hh

abbrev SameSlabs (h h' : Heap) : Prop := ∀ k c, (h.pool k).cache = some c →
  (h'.pool k).cache = some c ∧ (h'.pool k).base = (h.pool k).base

theorem Object.kept (ho : Object h c k i ptr) (hs : SameSlabs h h') : Object h' c k i ptr := by
  obtain ⟨hc,hb⟩ := hs k c ho.cache
  exact ⟨hc,ho.index,hb.symm ▸ ho.addr⟩

def LiveObj (h : Heap) (o : Nat × Nat) : Prop :=
  ∃ c k i, Object h c k i o.1 ∧ Held h k i ∧ o.2 ≤ objSize c

inductive Resized (h h' : Heap) (ptr : Nat) (c : CacheId) (k i : Nat) (size : UInt64) :
    Nat → Prop where
  | same (hfit : size.toNat ≤ objSize c) (hheap : h' = h) : Resized h h' ptr c k i size ptr
  | failed (hsound : Sound h') (hslab : SameSlabs h h')
      (hheld : ∀ k i, Held h' k i ↔ Held h k i) : Resized h h' ptr c k i size 0
  | moved (d : CacheId) (k' i' newPtr : Nat) (hsound : Sound h') (hslab : SameSlabs h h')
      (hobj : Object h' d k' i' newPtr) (hfit : size.toNat ≤ objSize d) (hfresh : ¬ Held h k' i')
      (hheld : ∀ x y, Held h' x y ↔ (Held h x y ∨ (x = k' ∧ y = i')) ∧ ¬ (x = k ∧ y = i))
      (hbytes : ∀ j, j < objSize c → h'.mem (newPtr+j) = h.mem (ptr+j)) :
      Resized h h' ptr c k i size newPtr

theorem krealloc_spec (hs : Sound h) (hg : RequestOk h size grant) (ho : Object h c k i ptr)
    (hhl : Held h k i) (hsz : size ≠ 0) :
    Resized h (krealloc ptr size grant h).2 ptr c k i size (krealloc ptr size grant h).1 := by
  rw [krealloc,if_neg (ho.ne_zero hs),if_neg hsz,findCacheForPtr_eq hs ho]
  dsimp only
  by_cases hfit : size.toNat ≤ objSize c
  · rw [if_pos hfit]
    exact .same hfit rfl
  rw [if_neg hfit]
  obtain ⟨hs1,hk,hres⟩ := kmalloc_spec hs hg
  generalize kmalloc size grant h = r at hs1 hk hres
  obtain ⟨newPtr,h1⟩ := r
  rcases hres with ⟨hzr,hsm⟩ | ⟨d,k',i',hft,hh⟩
  · obtain rfl : newPtr = 0 := hzr
    exact .failed hs1 hk.slab hsm
  have hnew := hh.object
  have hold := ho.kept hk.slab
  have hd : ¬ (k = k' ∧ i = i') := by
    rintro ⟨rfl,rfl⟩
    exact hh.fresh hhl
  -- the copy goes from one object to the other
  have hds : Disjoint (span newPtr (objSize c)) (span ptr (objSize c)) := by
    refine (hs1.objects_apart hnew hold hd).mono ?_ (Finset.Subset.refl _)
    exact span_subset (le_refl _) (by omega)
  have hs2 := hs1.mem (copyBytes (objSize c) newPtr ptr h1.mem)
  have hf := kfree_spec hs2 ptr ⟨hold.cache,hold.index,hold.addr⟩ ((hh.held k i).mpr (.inl hhl))
  have hsl : SameSlabs h
      (kfree ptr { h1 with mem := copyBytes (objSize c) newPtr ptr h1.mem }) := by
    intro x e hx
    obtain ⟨hx1,hb1⟩ := hk.slab x e hx
    obtain ⟨hx2,hb2⟩ := hf.kept.slab x e hx1
    exact ⟨hx2,hb2.trans hb1⟩
  have hne : newPtr ≠ 0 := hnew.ne_zero hs1
  split
  · rename_i hz
    exact absurd (congrArg Prod.fst hz) hne
  rename_i hz
  obtain ⟨rfl,rfl⟩ := Prod.mk.inj hz
  refine .moved d k' i' newPtr hf.sound hsl ?_ hft hh.fresh ?_ ?_
  · exact Object.kept ⟨hnew.cache,hnew.index,hnew.addr⟩ hf.kept.slab
  · intro x y
    rw [hf.held x y]
    exact and_congr_left' (hh.held x y)
  intro j hj
  rw [hf.mem]
  refine (copyBytes_inside hds hj).trans ?_
  refine hk.bytes k c ho.cache _ (ho.inside ?_)
  rw [mem_span]
  omega

end

structure Client where
  heap : Heap
  live : List (Nat × Nat)

inductive Op where
  | kmalloc (size : UInt64) (grant : Nat)
  | kcalloc (count size : UInt64) (grant : Nat)
  | krealloc (k : Nat) (newSize : UInt64) (grant : Nat)
  | kfree (k : Nat)
  | write (k off : Nat) (v : UInt8)
  deriving DecidableEq

def keep (r : Nat × Heap) (size : Nat) (live : List (Nat × Nat)) : Client :=
  ⟨r.2,if r.1 = 0 then live else (r.1,size) :: live⟩

def step (c : Client) : Op → Client
  | .kmalloc size grant => keep (kmalloc size grant c.heap) size.toNat c.live
  | .kcalloc count size grant =>
    keep (kcalloc count size grant c.heap) (count.toNat*size.toNat) c.live
  | .krealloc k newSize grant =>
    match c.live[k]? with
    | none => keep (krealloc 0 newSize grant c.heap) newSize.toNat c.live
    | some o =>
      let r := krealloc o.1 newSize grant c.heap
      if newSize = 0 then ⟨r.2,c.live.eraseIdx k⟩
      else if r.1 = 0 then ⟨r.2,c.live⟩
      else ⟨r.2,(r.1,newSize.toNat) :: c.live.eraseIdx k⟩
  | .kfree k =>
    match c.live[k]? with
    | none => ⟨kfree 0 c.heap,c.live⟩
    | some o => ⟨kfree o.1 c.heap,c.live.eraseIdx k⟩
  | .write k off v =>
    match c.live[k]? with
    | none => c
    | some o =>
      if off < o.2 then { c with heap := { c.heap with mem := setAt c.heap.mem (o.1+off) v } }
      else c

def run (ops : List Op) (c : Client) : Client := ops.foldl step c

def Op.GrantOk (h : Heap) : Op → Prop
  | .kmalloc size grant => RequestOk h size grant
  | .kcalloc count size grant => RequestOk h (count*size) grant
  | .krealloc _ newSize grant => RequestOk h newSize grant
  | _ => True

def RunOk : List Op → Client → Prop
  | [], _ => True
  | o :: ops, c => o.GrantOk c.heap ∧ RunOk ops (step c o)

structure Client.Ok (c : Client) : Prop where
  sound : Sound c.heap
  objs : ∀ o ∈ c.live, LiveObj c.heap o
  nodup : (c.live.map Prod.fst).Nodup

variable {h : Heap} {o : Nat × Nat} {d : CacheId} {k i n grant : Nat} {size : UInt64}

section
variable {c : Client} {h' : Heap}

theorem LiveObj.kept (hl : LiveObj h o) (hs : SameSlabs h h')
    (hhl : ∀ k i, Held h k i → Held h' k i) : LiveObj h' o := by
  obtain ⟨d,k,i,ho,hh,hfit⟩ := hl
  exact ⟨d,k,i,ho.kept hs,hhl k i hh,hfit⟩

section
variable (hc : c.Ok)
include hc

theorem Client.Ok.kept (hs : Sound h') (hsl : SameSlabs c.heap h')
    (hh : ∀ k i, Held c.heap k i → Held h' k i) : (⟨h',c.live⟩ : Client).Ok :=
  ⟨hs,fun o ho => (hc.objs o ho).kept hsl hh,hc.nodup⟩

theorem Client.Ok.add {live : List (Nat × Nat)} (hl : (⟨h',live⟩ : Client).Ok)
    {ptr size : Nat} (ho : Object h' d k i ptr) (hh : Held h' k i) (hfit : size ≤ objSize d)
    (hs : SameSlabs c.heap h') (hsub : ∀ o ∈ live, o ∈ c.live) (hf : ¬ Held c.heap k i) :
    (⟨h',(ptr,size) :: live⟩ : Client).Ok := by
  refine ⟨hl.sound,forall_mem_cons.mpr ⟨⟨d,k,i,ho,hh,hfit⟩,hl.objs⟩,?_⟩
  rw [map_cons,nodup_cons]
  refine ⟨?_,hl.nodup⟩
  intro hmem
  obtain ⟨o,hol,hptr⟩ := mem_map.mp hmem
  obtain ⟨e,k',i',ho',hh',-⟩ := hc.objs o (hsub o hol)
  refine hl.sound.objects_ne ho (ho'.kept hs) ?_ hptr.symm
  rintro ⟨rfl,rfl⟩
  exact hf hh'

theorem Client.Ok.nodup_at (hn : c.live[n]? = some o) :
    o.1 ∉ (c.live.eraseIdx n).map Prod.fst ∧ ((c.live.eraseIdx n).map Prod.fst).Nodup := by
  obtain ⟨hlt,rfl⟩ := List.getElem?_eq_some_iff.mp hn
  have hp := (getElem_cons_eraseIdx_perm hlt).symm.map Prod.fst
  have hnd := hp.nodup_iff.mp hc.nodup
  rwa [map_cons,nodup_cons] at hnd

theorem Client.Ok.drop (hn : c.live[n]? = some o) (ho : Object c.heap d k i o.1)
    (hs : Sound h') (hsl : SameSlabs c.heap h')
    (hh : ∀ x y, Held c.heap x y → ¬ (x = k ∧ y = i) → Held h' x y) :
    (⟨h',c.live.eraseIdx n⟩ : Client).Ok := by
  have hnd := hc.nodup_at hn
  refine ⟨hs,?_,hnd.2⟩
  intro x hx
  obtain ⟨e,k',i',ho',hh',hfit⟩ := hc.objs x (mem_of_mem_eraseIdx hx)
  refine ⟨e,k',i',ho'.kept hsl,hh k' i' hh' ?_,hfit⟩
  rintro ⟨rfl,rfl⟩
  -- the same object would have the same address
  obtain rfl : d = e := some.inj (ho.cache.symm.trans ho'.cache)
  have hsm : x.1 = o.1 := ho'.addr.trans ho.addr.symm
  exact hnd.1 (mem_map.mpr ⟨x,hx,hsm⟩)

theorem Client.Ok.mem (m : Memory) : (⟨{ c.heap with mem := m },c.live⟩ : Client).Ok :=
  hc.kept (hc.sound.mem m) (fun _ _ hk => ⟨hk,rfl⟩) (fun _ _ hh => hh)

theorem Client.Ok.keep_kmalloc (hg : RequestOk c.heap size grant) (hn : n ≤ size.toNat) :
    (keep (kmalloc size grant c.heap) n c.live).Ok := by
  obtain ⟨hs,hk,hres⟩ := kmalloc_spec hc.sound hg
  rw [keep]
  rcases hres with ⟨hz,hsm⟩ | ⟨d,k,i,hfit,hh⟩
  · rw [if_pos hz]
    exact hc.kept hs hk.slab (fun x y => (hsm x y).mpr)
  rw [if_neg (hh.object.ne_zero hs)]
  refine hc.add (hc.kept hs hk.slab ?_) hh.object ((hh.held k i).mpr (.inr ⟨rfl,rfl⟩))
    (by omega) hk.slab (fun o ho => ho) hh.fresh
  exact fun x y hxy => (hh.held x y).mpr (.inl hxy)

end

theorem total_exact {count : UInt64} (h : ¬ (count ≠ 0 ∧ count*size/count ≠ size)) :
    (count*size).toNat = count.toNat*size.toNat := by
  by_cases hz : count = 0
  · rw [hz,UInt64.zero_mul,UInt64.toNat_zero,zero_mul]
  have hdiv : count*size/count = size := by
    by_contra hne
    exact h ⟨hz,hne⟩
  have hnat := congrArg UInt64.toNat hdiv
  rw [UInt64.toNat_div] at hnat
  have hge := Nat.div_mul_le_self (count*size).toNat count.toNat
  rw [hnat] at hge
  have hle : (count*size).toNat ≤ count.toNat*size.toNat := by
    exact Nat.mod_le _ _
  rw [mul_comm] at hge
  omega

theorem Client.Ok.step (hc : c.Ok) {o : Op} (hg : o.GrantOk c.heap) : (step c o).Ok := by
  cases o with
  | kmalloc size grant => exact hc.keep_kmalloc hg (le_refl _)
  | kcalloc count size grant =>
    rw [SlabHeap.step,kcalloc]
    by_cases hw : count ≠ 0 ∧ count*size/count ≠ size
    · simp only [if_pos hw]
      exact hc
    simp only [if_neg hw]
    have ha := hc.keep_kmalloc hg (total_exact hw).ge
    generalize kmalloc (count*size) grant c.heap = r at ha
    obtain ⟨ptr,h1⟩ := r
    split
    · rename_i hr
      rwa [hr] at ha
    · rename_i hr
      rw [hr] at ha
      exact Client.Ok.mem ha _
  | krealloc n newSize grant =>
    rw [SlabHeap.step]
    cases hn : c.live[n]? with
    | none => exact hc.keep_kmalloc hg (le_refl _)
    | some o =>
      obtain ⟨d,k,i,ho,hh,hfit⟩ := hc.objs o (mem_of_getElem? hn)
      dsimp only
      by_cases hz : newSize = 0
      · rw [if_pos hz,krealloc,if_neg (ho.ne_zero hc.sound),if_pos hz]
        have hf := kfree_spec hc.sound _ ho hh
        exact hc.drop hn ho hf.sound hf.kept.slab (fun x y hxy hne => (hf.held x y).mpr ⟨hxy,hne⟩)
      rw [if_neg hz]
      have hres := krealloc_spec hc.sound hg ho hh hz
      generalize krealloc o.1 newSize grant c.heap = r at hres
      obtain ⟨newPtr,h1⟩ := r
      cases hres with
      | same hft hhp =>
        obtain rfl : h1 = c.heap := hhp
        rw [if_neg (ho.ne_zero hc.sound)]
        refine ⟨hc.sound,forall_mem_cons.mpr ⟨⟨d,k,i,ho,hh,hft⟩,?_⟩,?_⟩
        · exact fun x hx => hc.objs x (mem_of_mem_eraseIdx hx)
        · have hnd := hc.nodup_at hn
          exact nodup_cons.mpr hnd
      | failed hs hsl hhl =>
        exact hc.kept hs hsl (fun x y => (hhl x y).mpr)
      | moved e k' i' newPtr hs hsl hobj hft hfr hhl hb =>
        rw [if_neg (hobj.ne_zero hs)]
        have hd := hc.drop hn ho hs hsl (fun x y hxy hne => (hhl x y).mpr ⟨.inl hxy,hne⟩)
        refine hc.add hd hobj ((hhl k' i').mpr ⟨.inr ⟨rfl,rfl⟩,?_⟩) hft hsl
          (fun x hx => mem_of_mem_eraseIdx hx) hfr
        rintro ⟨rfl,rfl⟩
        exact hfr hh
  | kfree n =>
    rw [SlabHeap.step]
    cases hn : c.live[n]? with
    | none => exact hc
    | some o =>
      obtain ⟨d,k,i,ho,hh,hfit⟩ := hc.objs o (mem_of_getElem? hn)
      have hf := kfree_spec hc.sound _ ho hh
      exact hc.drop hn ho hf.sound hf.kept.slab (fun x y hxy hne => (hf.held x y).mpr ⟨hxy,hne⟩)
  | write n off v =>
    rw [SlabHeap.step]
    cases hn : c.live[n]? with
    | none => exact hc
    | some o =>
      dsimp only
      split
      · exact hc.mem _
      · exact hc

theorem Client.Ok.run (hc : c.Ok) {ops : List Op} (hok : RunOk ops c) : (run ops c).Ok := by
  induction ops generalizing c with
  | nil => exact hc
  | cons o ops ih => exact ih (hc.step hok.1) hok.2

def usableSize (h : Heap) (ptr : Nat) : Nat :=
  match findCacheForPtr h ptr with
  | none => 0
  | some c => objSize c

theorem usableSize_eq {ptr : Nat} (hs : Sound h) (ho : Object h d k i ptr) :
    usableSize h ptr = objSize d := by
  rw [usableSize,findCacheForPtr_eq hs ho]

theorem Client.Ok.apart (hc : c.Ok) : c.live.Pairwise (fun o o' =>
    Disjoint (span o.1 (usableSize c.heap o.1)) (span o'.1 (usableSize c.heap o'.1))) := by
  refine (pairwise_map.mp hc.nodup).imp_of_mem ?_
  intro o o' ho ho' hne
  obtain ⟨d,k,i,hobj,-,-⟩ := hc.objs o ho
  obtain ⟨d',k',i',hob',-,-⟩ := hc.objs o' ho'
  rw [usableSize_eq hc.sound hobj,usableSize_eq hc.sound hob']
  refine hc.sound.objects_apart hobj hob' ?_
  rintro ⟨rfl,rfl⟩
  obtain rfl : d = d' := some.inj (hobj.cache.symm.trans hob'.cache)
  exact hne (hobj.addr.trans hob'.addr.symm)

theorem Client.Ok.realloc_bytes (hc : c.Ok) (ho : o ∈ c.live) (hg : RequestOk c.heap size grant)
    (hne : (krealloc o.1 size grant c.heap).1 ≠ 0) : ∀ j, j < min o.2 size.toNat →
      (krealloc o.1 size grant c.heap).2.mem ((krealloc o.1 size grant c.heap).1+j) = c.heap.mem (o.1+j) := by
  obtain ⟨d,k,i,hobj,hh,hfit⟩ := hc.objs o ho
  have hsz : size ≠ 0 := by
    intro hz
    rw [krealloc,if_neg (hobj.ne_zero hc.sound),if_pos hz] at hne
    exact hne rfl
  have hres := krealloc_spec hc.sound hg hobj hh hsz
  generalize krealloc o.1 size grant c.heap = r at hres hne
  obtain ⟨newPtr,h1⟩ := r
  intro j hj
  cases hres with
  | same hf hhp =>
    obtain rfl : h1 = c.heap := hhp
    rfl
  | failed hs hsl hhl => exact absurd rfl hne
  | moved e k' i' newPtr hs hsl ho' hf hfr hhl hb =>
    exact hb j (by omega)

theorem Sound.partial_iff (hs : Sound h) (hk : (h.pool k).cache = some d) :
    k ∈ h.partialSlabs d ↔ ∃ i, i < (h.pool k).totalObj ∧ test (h.pool k).bitmap i = false := by
  rw [hs.onPartial k d hk,(hs.ok k d hk).count,Finset.card_pos]
  constructor
  · rintro ⟨i,hi⟩
    exact ⟨i,mem_clearSet.mp hi⟩
  · rintro ⟨i,hi⟩
    exact ⟨i,mem_clearSet.mpr hi⟩

end

theorem run_slabs (mem : Memory) (ops : List Op) (hok : RunOk ops ⟨slabInit mem,[]⟩) :
    let c := run ops ⟨slabInit mem,[]⟩
    c.live.Pairwise (fun o o' =>
        Disjoint (span o.1 (usableSize c.heap o.1)) (span o'.1 (usableSize c.heap o'.1))) ∧
      (∀ o ∈ c.live, o.2 ≤ usableSize c.heap o.1) ∧
      (∀ k d, (c.heap.pool k).cache = some d → (c.heap.pool k).freeCount.toNat =
            (clearSet (c.heap.pool k).bitmap (c.heap.pool k).totalObj).card ∧
          (k ∈ c.heap.partialSlabs d ↔
            ∃ i, i < (c.heap.pool k).totalObj ∧ test (c.heap.pool k).bitmap i = false)) ∧
      (∀ d k, k ∈ c.heap.partialSlabs d → (c.heap.pool k).cache = some d) ∧
      ∀ o ∈ c.live, ∀ size grant, RequestOk c.heap size grant →
        (krealloc o.1 size grant c.heap).1 ≠ 0 → ∀ j, j < min o.2 size.toNat →
          (krealloc o.1 size grant c.heap).2.mem ((krealloc o.1 size grant c.heap).1+j) =
            c.heap.mem (o.1+j) := by
  intro c
  have hstart : (⟨slabInit mem,[]⟩ : Client).Ok :=
    ⟨sound_slabInit mem,fun o ho => absurd ho not_mem_nil,nodup_nil⟩
  have hc : c.Ok := hstart.run hok
  refine ⟨hc.apart,?_,?_,?_,?_⟩
  · intro o ho
    obtain ⟨d,k,i,hobj,-,hfit⟩ := hc.objs o ho
    rw [usableSize_eq hc.sound hobj]
    exact hfit
  · exact fun k d hk => ⟨(hc.sound.ok k d hk).count,hc.sound.partial_iff hk⟩
  · exact fun d k hk => hc.sound.listed d k (.inl hk)
  · exact fun o ho size grant hg hne => hc.realloc_bytes ho hg hne

def twoCalls : List Op := [.kmalloc 100 0x100000,.kmalloc 100 0,.write 0 3 7]
def twoObjects : Client := run twoCalls ⟨slabInit (fun _ => 0),[]⟩

theorem twoCalls_ok : RunOk twoCalls ⟨slabInit (fun _ => 0),[]⟩ := by
  refine ⟨fun c hc hne => ⟨?_,fun k d hk => nomatch hk⟩,fun c hc hne => absurd rfl hne,trivial,trivial⟩
  obtain rfl : (2 : CacheId) = c := some.inj hc
  decide

theorem twoObjects_request : RequestOk twoObjects.heap 200 0x200000 := by
  intro c hc _
  obtain rfl : (3 : CacheId) = c := some.inj hc
  have hstart : (⟨slabInit fun _ => 0,[]⟩ : Client).Ok :=
    ⟨sound_slabInit _,fun o ho => absurd ho not_mem_nil,nodup_nil⟩
  refine ⟨by decide,fun k d hk => ?_⟩
  have hok : twoObjects.Ok := hstart.run twoCalls_ok
  have hnext : twoObjects.heap.poolNext = 1 := by decide +kernel
  obtain rfl : k = 0 := by
    by_contra h0
    rw [hok.sound.unused k (by omega)] at hk
    cases hk
  have hpool : (twoObjects.heap.pool 0).cache = some 2 := by decide +kernel
  obtain rfl : 2 = d := some.inj (hpool.symm.trans hk)
  rw [show (twoObjects.heap.pool 0).phys = 0x100000 by decide +kernel]
  refine Finset.disjoint_left.mpr fun a ha hb => ?_
  have h3 : slabBytes 2 = 4096 := by decide
  rw [mem_span] at ha hb
  omega

/-- Two objects of one slab, the second of which `krealloc` moves to a larger one. -/
theorem run_slabs_two : twoObjects.live.length = 2 ∧
    twoObjects.live.Pairwise (fun o o' => Disjoint (span o.1 (usableSize twoObjects.heap o.1))
      (span o'.1 (usableSize twoObjects.heap o'.1))) ∧
    ∀ o ∈ twoObjects.live.head?, (krealloc o.1 200 0x200000 twoObjects.heap).1 ≠ o.1 ∧
      (krealloc o.1 200 0x200000 twoObjects.heap).2.mem ((krealloc o.1 200 0x200000 twoObjects.heap).1+3) = 7 := by
  have h := run_slabs (fun _ => 0) twoCalls twoCalls_ok
  rw [show run twoCalls ⟨slabInit fun _ => 0,[]⟩ = twoObjects from rfl] at h
  obtain ⟨hd,-,-,-,hb⟩ := h
  refine ⟨by decide +kernel,hd,fun o ho => ?_⟩
  obtain rfl : (0xFFFF800000100080,100) = o := by
    have : twoObjects.live.head? = some (0xFFFF800000100080,100) := by decide +kernel
    simpa [this] using ho
  refine ⟨by decide +kernel,?_⟩
  exact (hb _ (mem_of_mem_head? ho) 200 0x200000 twoObjects_request (by decide +kernel) 3 (by decide)).trans
    (by decide +kernel)

end AevOS.SlabHeap
