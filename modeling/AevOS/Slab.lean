import AevOS.BitWords
import AevOS.MemRange
import AevOS.Runs
import AevOS.Common

/-! The slab allocator of `kernel/mm/slab.c`: caches with lists of slabs, given by their numbers in the
pool. What `pmm_alloc_pages` answers is an argument. -/

namespace AevOS.SlabHeap
open ArrayPrefix BitWords MemRange List Function

abbrev CacheId := Fin 12

def slabPoolSize : Nat := 512
def slabMaxObjects : Nat := 128
def objSize (c : CacheId) : Nat := cacheSizes.getD c 0

def pagesPerSlab (c : CacheId) : Nat :=
  if objSize c ≤ pageSize.toNat then 1 else (objSize c+pageSize.toNat-1)/pageSize.toNat

def objPerSlab (c : CacheId) : Nat :=
  let n := pagesPerSlab c*pageSize.toNat/objSize c
  if slabMaxObjects < n then slabMaxObjects else n

def slabBytes (c : CacheId) : Nat := pagesPerSlab c*pageSize.toNat

structure Slab where
  phys : Nat
  base : Nat
  totalObj : Nat
  freeCount : UInt32
  bitmap : Words
  cache : Option CacheId

structure Heap where
  pool : Nat → Slab
  poolNext : Nat
  partialSlabs : CacheId → List Nat
  fullSlabs : CacheId → List Nat
  mem : Memory

def slabInit (mem : Memory) : Heap :=
  ⟨fun _ => ⟨0,0,0,0,fun _ => 0#64,none⟩,0,fun _ => [],fun _ => [],mem⟩

def slabBmFindFree (s : Slab) : Option Nat :=
  findFirstClear s.bitmap s.totalObj ((s.totalObj+63)/64) 0

def slabCreate (c : CacheId) (grant : Nat) (h : Heap) : Option Nat × Heap :=
  if h.poolNext < slabPoolSize then
    let k := h.poolNext
    if grant = 0 then
      (none,{ h with poolNext := k+1, pool := setAt h.pool k { h.pool k with phys := 0 } })
    else
      let base := (grant+physMapBase.toNat)%2^64
      (some k,
        { h with
          poolNext := k+1
          pool := setAt h.pool k ⟨grant,base,objPerSlab c,UInt32.ofNat (objPerSlab c),fun _ => 0#64,some c⟩
          mem := setBytes 0 (slabBytes c) base h.mem })
  else (none,h)

def markObject (s : Slab) (idx : Nat) : Slab :=
  { s with bitmap := setBit s.bitmap idx, freeCount := s.freeCount-1 }

def clearObject (s : Slab) (idx : Nat) : Slab :=
  { s with bitmap := clearBit s.bitmap idx, freeCount := s.freeCount+1 }

def takeObject (c : CacheId) (k : Nat) (h : Heap) : Nat × Heap :=
  match slabBmFindFree (h.pool k) with
  | none => (0,h)
  | some idx =>
    let s := markObject (h.pool k) idx
    (s.base+idx*objSize c, if s.freeCount = 0 then
        { h with
          pool := setAt h.pool k s
          partialSlabs := update h.partialSlabs c ((h.partialSlabs c).erase k)
          fullSlabs := update h.fullSlabs c (k :: h.fullSlabs c) }
      else { h with pool := setAt h.pool k s })

def cacheAlloc (c : CacheId) (grant : Nat) (h : Heap) : Nat × Heap :=
  match h.partialSlabs c with
  | k :: _ => takeObject c k h
  | [] =>
    match slabCreate c grant h with
    | (none,h1) => (0,h1)
    | (some k,h1) =>
      takeObject c k { h1 with partialSlabs := update h1.partialSlabs c (k :: h1.partialSlabs c) }

def inSlab (h : Heap) (c : CacheId) (ptr k : Nat) : Bool :=
  decide ((h.pool k).base ≤ ptr ∧ ptr < (h.pool k).base+slabBytes c)

def giveObject (c : CacheId) (k : Nat) (wasFull : Bool) (ptr : Nat) (h : Heap) : Heap :=
  let idx := (ptr-(h.pool k).base)%2^32/objSize c
  if test (h.pool k).bitmap idx = false then h
  else
    let s := clearObject (h.pool k) idx
    if wasFull = true then
      { h with
        pool := setAt h.pool k s
        fullSlabs := update h.fullSlabs c ((h.fullSlabs c).erase k)
        partialSlabs := update h.partialSlabs c (k :: h.partialSlabs c) }
    else { h with pool := setAt h.pool k s }

def cacheFree (c : CacheId) (ptr : Nat) (h : Heap) : Heap :=
  match (h.partialSlabs c).find? (inSlab h c ptr) with
  | some k => giveObject c k false ptr h
  | none =>
    match (h.fullSlabs c).find? (inSlab h c ptr) with
    | some k => giveObject c k true ptr h
    | none => h

def findCache (size : UInt64) : Option CacheId :=
  (List.finRange 12).find? (fun c => size.toNat ≤ objSize c)

def findCacheForPtr (h : Heap) (ptr : Nat) : Option CacheId :=
  (List.finRange 12).find? (fun c =>
    (h.partialSlabs c).any (inSlab h c ptr) || (h.fullSlabs c).any (inSlab h c ptr))

def kmalloc (size : UInt64) (grant : Nat) (h : Heap) : Nat × Heap :=
  if size = 0 then (0,h)
  else
    match findCache size with
    | none => (0,h)
    | some c => cacheAlloc c grant h

def kfree (ptr : Nat) (h : Heap) : Heap :=
  if ptr = 0 then h
  else
    match findCacheForPtr h ptr with
    | none => h
    | some c => cacheFree c ptr h

def krealloc (ptr : Nat) (newSize : UInt64) (grant : Nat) (h : Heap) : Nat × Heap :=
  if ptr = 0 then kmalloc newSize grant h
  else if newSize = 0 then (0,kfree ptr h)
  else
    match findCacheForPtr h ptr with
    | none => (0,h)
    | some old =>
      if newSize.toNat ≤ objSize old then (ptr,h)
      else
        match kmalloc newSize grant h with
        | (0,h1) => (0,h1)
        | (newPtr,h1) =>
          (newPtr,kfree ptr { h1 with mem := copyBytes (objSize old) newPtr ptr h1.mem })

def kcalloc (count size : UInt64) (grant : Nat) (h : Heap) : Nat × Heap :=
  let total := count*size
  if count ≠ 0 ∧ total/count ≠ size then (0,h)
  else
    match kmalloc total grant h with
    | (0,h1) => (0,h1)
    | (ptr,h1) => (ptr,{ h1 with mem := setBytes 0 total.toNat ptr h1.mem })

theorem slab_shape (c : CacheId) : 0 < objSize c ∧ 0 < objPerSlab c ∧ objPerSlab c ≤ 128 ∧
    objPerSlab c*objSize c = slabBytes c ∧ slabBytes c ≤ 65536 := by
  revert c
  decide

structure SlabOk (s : Slab) (c : CacheId) : Prop where
  total : s.totalObj = objPerSlab c
  count : s.freeCount.toNat = (clearSet s.bitmap s.totalObj).card
  place : s.base = s.phys+physMapBase.toNat
  inside : s.phys+slabBytes c ≤ 2^32

def Slab.pages (s : Slab) (c : CacheId) : Finset Nat := span s.base (slabBytes c)

structure Sound (h : Heap) : Prop where
  ok : ∀ k c, (h.pool k).cache = some c → SlabOk (h.pool k) c
  listed : ∀ c k, k ∈ h.partialSlabs c ∨ k ∈ h.fullSlabs c → (h.pool k).cache = some c
  onPartial : ∀ k c, (h.pool k).cache = some c →
    (k ∈ h.partialSlabs c ↔ 0 < (h.pool k).freeCount.toNat)
  onFull : ∀ k c, (h.pool k).cache = some c → (k ∈ h.fullSlabs c ↔ (h.pool k).freeCount = 0)
  nodup : ∀ c, (h.partialSlabs c).Nodup ∧ (h.fullSlabs c).Nodup
  unused : ∀ k, h.poolNext ≤ k → (h.pool k).cache = none
  apart : ∀ k k' c c', (h.pool k).cache = some c → (h.pool k').cache = some c' → k ≠ k' →
    Disjoint ((h.pool k).pages c) ((h.pool k').pages c')

def Held (h : Heap) (k i : Nat) : Prop :=
  (h.pool k).cache.isSome = true ∧ test (h.pool k).bitmap i = true

variable {s : Slab} {ps fs : List Nat}

section
variable {h h' : Heap} {c : CacheId} {k i ptr grant : Nat}

theorem Sound.mem (hs : Sound h) (m : Memory) : Sound { h with mem := m } :=
  ⟨hs.ok,hs.listed,hs.onPartial,hs.onFull,hs.nodup,hs.unused,hs.apart⟩

theorem sound_slabInit (m : Memory) : Sound (slabInit m) := by
  refine ⟨?_,?_,?_,?_,fun c => ⟨nodup_nil,nodup_nil⟩,fun _ _ => rfl,?_⟩ <;> simp [slabInit]

theorem Sound.put (hs : Sound h) {s : Slab} {ps fs : List Nat} {next : Nat} {m : Memory}
    (hc : s.cache = some c) (hok : SlabOk s c) (hst : ∀ d, (h.pool k).cache = some d → d = c)
    (hp : ∀ j d, j ≠ k → (h.pool j).cache = some d → Disjoint (s.pages c) ((h.pool j).pages d))
    (hps : ps.Nodup) (hfs : fs.Nodup) (hpk : k ∈ ps ↔ 0 < s.freeCount.toNat)
    (hfk : k ∈ fs ↔ s.freeCount = 0) (hpo : ∀ j, j ≠ k → (j ∈ ps ↔ j ∈ h.partialSlabs c))
    (hfo : ∀ j, j ≠ k → (j ∈ fs ↔ j ∈ h.fullSlabs c)) (hn : h.poolNext ≤ next) (hlt : k < next) :
    Sound ⟨setAt h.pool k s,next,update h.partialSlabs c ps,update h.fullSlabs c fs,m⟩ := by
  have hcd : ∀ {d}, s.cache = some d → d = c := fun hd => Option.some.inj (hd.symm.trans hc)
  -- the lists of every cache hold the other slabs they held
  have hpl : ∀ d j, j ≠ k → (j ∈ update h.partialSlabs c ps d ↔ j ∈ h.partialSlabs d) := by
    intro d j hj
    by_cases hd : d = c <;> simp_all
  have hfl : ∀ d j, j ≠ k → (j ∈ update h.fullSlabs c fs d ↔ j ∈ h.fullSlabs d) := by
    intro d j hj
    by_cases hd : d = c <;> simp_all
  refine ⟨?_,?_,?_,?_,?_,?_,?_⟩ <;> dsimp only
  · intro j d hj
    by_cases hjk : j = k
    · simp only [hjk,setAt_self] at hj ⊢
      exact hcd hj ▸ hok
    · simp only [setAt_ne _ _ hjk] at hj ⊢
      exact hs.ok j d hj
  · intro d j hj
    by_cases hjk : j = k
    · by_cases hd : d = c
      · simp [hjk,hc,hd]
      · simp only [hjk,update_of_ne hd] at hj
        exact absurd (hst d (hs.listed d k hj)) hd
    · rw [hpl d j hjk,hfl d j hjk] at hj
      simpa [hjk] using hs.listed d j hj
  · intro j d hj
    by_cases hjk : j = k
    · simp only [hjk,setAt_self] at hj ⊢
      rwa [hcd hj,update_self]
    · simp only [setAt_ne _ _ hjk] at hj ⊢
      exact (hpl d j hjk).trans (hs.onPartial j d hj)
  · intro j d hj
    by_cases hjk : j = k
    · simp only [hjk,setAt_self] at hj ⊢
      rwa [hcd hj,update_self]
    · simp only [setAt_ne _ _ hjk] at hj ⊢
      exact (hfl d j hjk).trans (hs.onFull j d hj)
  · intro d
    by_cases hd : d = c
    · simp [hd,hps,hfs]
    · simpa [hd] using hs.nodup d
  · intro j hj
    rw [setAt_ne _ _ (by omega)]
    exact hs.unused j (by omega)
  · intro j j' d d' hj hj' hne
    by_cases hjk : j = k
    · have hjk' : j' ≠ k := fun heq => hne (hjk.trans heq.symm)
      simp only [hjk,setAt_self,setAt_ne _ _ hjk'] at hj hj' ⊢
      exact hcd hj ▸ hp j' d' hjk' hj'
    by_cases hjk' : j' = k
    · simp only [hjk',setAt_self,setAt_ne _ _ hjk] at hj hj' ⊢
      exact hcd hj' ▸ (hp j d hjk hj).symm
    · simp only [setAt_ne _ _ hjk,setAt_ne _ _ hjk'] at hj hj' ⊢
      exact hs.apart j j' d d' hj hj' hne

theorem Sound.replace (hs : Sound h) (hk : (h.pool k).cache = some c) (hc : s.cache = some c)
    (hb : s.base = (h.pool k).base) (hok : SlabOk s c) (hps : ps.Nodup) (hfs : fs.Nodup)
    (hpk : k ∈ ps ↔ 0 < s.freeCount.toNat) (hfk : k ∈ fs ↔ s.freeCount = 0)
    (hpo : ∀ j, j ≠ k → (j ∈ ps ↔ j ∈ h.partialSlabs c))
    (hfo : ∀ j, j ≠ k → (j ∈ fs ↔ j ∈ h.fullSlabs c)) :
    Sound { h with
      pool := setAt h.pool k s
      partialSlabs := update h.partialSlabs c ps
      fullSlabs := update h.fullSlabs c fs } := by
  have hlt : k < h.poolNext := by
    by_contra hge
    exact absurd (hk.symm.trans (hs.unused k (by omega))) (by simp)
  refine hs.put hc hok ?_ ?_ hps hfs hpk hfk hpo hfo (le_refl _) hlt
  · exact fun d hd => Option.some.inj (hd.symm.trans hk)
  · intro j d hj hd
    rw [Slab.pages,hb]
    exact hs.apart k j c d hk hd (Ne.symm hj)

def GrantOk (h : Heap) (c : CacheId) (grant : Nat) : Prop :=
  grant ≠ 0 → grant+slabBytes c ≤ 2^32 ∧ ∀ k d, (h.pool k).cache = some d →
      Disjoint (span grant (slabBytes c)) (span (h.pool k).phys (slabBytes d))

structure Kept (h h' : Heap) : Prop where
  slab : ∀ k c, (h.pool k).cache = some c →
    (h'.pool k).cache = some c ∧ (h'.pool k).base = (h.pool k).base
  bytes : ∀ k c, (h.pool k).cache = some c → ∀ a ∈ (h.pool k).pages c, h'.mem a = h.mem a

theorem Kept.refl (h : Heap) : Kept h h := ⟨fun _ _ hk => ⟨hk,rfl⟩,fun _ _ _ _ _ => rfl⟩

theorem Kept.trans {h1 h2 : Heap} (h01 : Kept h h1) (h12 : Kept h1 h2) : Kept h h2 := by
  refine ⟨?_,?_⟩
  · intro k c hk
    obtain ⟨hk1,hb1⟩ := h01.slab k c hk
    obtain ⟨hk2,hb2⟩ := h12.slab k c hk1
    exact ⟨hk2,hb2.trans hb1⟩
  intro k c hk a ha
  obtain ⟨hk1,hb1⟩ := h01.slab k c hk
  have ha1 : a ∈ (h1.pool k).pages c := by
    rw [Slab.pages,hb1]
    exact ha
  rw [h12.bytes k c hk1 a ha1,h01.bytes k c hk a ha]

theorem span_shift {a n b m d : Nat} (hd : Disjoint (span a n) (span b m)) :
    Disjoint (span (a+d) n) (span (b+d) m) := by
  rw [Finset.disjoint_left] at hd ⊢
  intro x hx hx'
  rw [mem_span] at hx hx'
  exact hd (a := x-d) (by rw [mem_span]; omega) (by rw [mem_span]; omega)

def newSlab (c : CacheId) (grant : Nat) : Slab :=
  ⟨grant,grant+physMapBase.toNat,objPerSlab c,UInt32.ofNat (objPerSlab c),fun _ => 0#64,some c⟩

theorem test_blank (i : Nat) : test (fun _ => 0#64) i = false := by simp [test]

theorem ofNat_objPerSlab (c : CacheId) : (UInt32.ofNat (objPerSlab c)).toNat = objPerSlab c := by
  revert c
  decide

theorem newSlab_ok (hfit : grant+slabBytes c ≤ 2^32) : SlabOk (newSlab c grant) c := by
  have hc : clearSet (fun _ => 0#64) (objPerSlab c) = Finset.range (objPerSlab c) := by
    ext i
    simp [test_blank]
  refine ⟨rfl,?_,rfl,hfit⟩
  rw [newSlab,hc,Finset.card_range,ofNat_objPerSlab]

theorem slabCreate_eq (hg : grant ≠ 0) (hfit : grant+slabBytes c ≤ 2^32)
    (hr : h.poolNext < slabPoolSize) :
    slabCreate c grant h = (some h.poolNext,
      { h with
        poolNext := h.poolNext+1
        pool := setAt h.pool h.poolNext (newSlab c grant)
        mem := setBytes 0 (slabBytes c) (grant+physMapBase.toNat) h.mem }) := by
  have hbn : physMapBase.toNat+2^32 < 2^64 := by decide
  have hb : (grant+physMapBase.toNat)%2^64 = grant+physMapBase.toNat := Nat.mod_eq_of_lt (by omega)
  rw [slabCreate,if_pos hr]
  simp only [if_neg hg,hb]
  rfl

theorem slabCreate_none (hs : Sound h) (hf : ¬ (h.poolNext < slabPoolSize ∧ grant ≠ 0)) :
    (slabCreate c grant h).1 = none ∧ Sound (slabCreate c grant h).2 ∧ Kept h (slabCreate c grant h).2 ∧
      ∀ k, ((slabCreate c grant h).2.pool k).cache = (h.pool k).cache ∧
        ((slabCreate c grant h).2.pool k).bitmap = (h.pool k).bitmap := by
  rw [slabCreate]
  by_cases hr : h.poolNext < slabPoolSize
  · obtain rfl : grant = 0 := by simpa [hr] using hf
    simp only [if_pos hr,if_true]
    have hn := hs.unused h.poolNext le_rfl
    generalize hp : setAt h.pool h.poolNext { h.pool h.poolNext with phys := 0 } = pool
    have hof : ∀ j, (pool j).cache = (h.pool j).cache ∧ (pool j).bitmap = (h.pool j).bitmap := by
      intro j
      by_cases hj : j = h.poolNext <;> simp [← hp,hj]
    have hold : ∀ {j d}, (pool j).cache = some d → (h.pool j).cache = some d ∧ pool j = h.pool j := by
      intro j d hj
      rw [(hof j).1] at hj
      refine ⟨hj,hp ▸ setAt_ne _ _ ?_⟩
      rintro rfl
      simp [hn] at hj
    refine ⟨trivial,⟨?_,?_,?_,?_,hs.nodup,?_,?_⟩,⟨?_,fun _ _ _ _ _ => rfl⟩,hof⟩ <;> dsimp only
    · intro j d hj
      rw [(hold hj).2]
      exact hs.ok j d (hold hj).1
    · intro d j hj
      rw [(hof j).1]
      exact hs.listed d j hj
    · intro j d hj
      rw [(hold hj).2]
      exact hs.onPartial j d (hold hj).1
    · intro j d hj
      rw [(hold hj).2]
      exact hs.onFull j d (hold hj).1
    · intro j hj
      rw [(hof j).1]
      exact hs.unused j (Nat.le_of_succ_le hj)
    · intro j j' d d' hj hj' hne
      rw [(hold hj).2,(hold hj').2]
      exact hs.apart j j' d d' (hold hj).1 (hold hj').1 hne
    · intro j d hj
      rw [← (hof j).1] at hj
      exact ⟨hj,by rw [(hold hj).2]⟩
  · rw [if_neg hr]
    exact ⟨rfl,hs,Kept.refl h,fun _ => ⟨rfl,rfl⟩⟩

def withSlab (c : CacheId) (grant : Nat) (h : Heap) : Heap :=
  ⟨setAt h.pool h.poolNext (newSlab c grant),h.poolNext+1,
    update h.partialSlabs c (h.poolNext :: h.partialSlabs c),h.fullSlabs,
    setBytes 0 (slabBytes c) (grant+physMapBase.toNat) h.mem⟩

theorem withSlab_sound (hs : Sound h) (hg : GrantOk h c grant) (hgr : grant ≠ 0) :
    Sound (withSlab c grant h) ∧ Kept h (withSlab c grant h) := by
  obtain ⟨hfit,hap⟩ := hg hgr
  have hc : 0 < (newSlab c grant).freeCount.toNat := by
    rw [newSlab,ofNat_objPerSlab]
    exact (slab_shape c).2.1
  have hn : (h.pool h.poolNext).cache = none := hs.unused _ le_rfl
  have hp : ∀ j d, (h.pool j).cache = some d →
      Disjoint ((newSlab c grant).pages c) ((h.pool j).pages d) := by
    intro j d hj
    rw [Slab.pages,Slab.pages,(hs.ok j d hj).place]
    exact span_shift (hap j d hj)
  have hnot : ∀ d, ¬ (h.poolNext ∈ h.partialSlabs d ∨ h.poolNext ∈ h.fullSlabs d) :=
    fun d hmem => by simpa [hn] using hs.listed d _ hmem
  constructor
  · have hput := hs.put (c := c) (k := h.poolNext) (s := newSlab c grant)
      (m := setBytes 0 (slabBytes c) (grant+physMapBase.toNat) h.mem) rfl (newSlab_ok hfit)
      (fun d hd => by simp [hn] at hd) (fun j d _ => hp j d)
      (nodup_cons.mpr ⟨fun hmem => hnot c (.inl hmem),(hs.nodup c).1⟩) (hs.nodup c).2
      ⟨fun _ => hc,fun _ => mem_cons_self⟩
      ⟨fun hmem => absurd (.inr hmem) (hnot c),fun hz => by simp [hz] at hc⟩
      (fun j hj => by simp [hj]) (fun _ _ => Iff.rfl) (Nat.le_succ _) (Nat.lt_succ_self _)
    rw [update_eq_self] at hput
    exact hput
  refine ⟨?_,?_⟩
  · intro j d hj
    have hne : j ≠ h.poolNext := by
      rintro rfl
      simp [hn] at hj
    simp [withSlab,hne,hj]
  · intro j d hj a ha
    exact setBytes_outside (fun hin => Finset.disjoint_left.mp (hp j d hj) hin ha)

theorem kept_replace {ps fs : CacheId → List Nat} (hc : s.cache = (h.pool k).cache)
    (hb : s.base = (h.pool k).base) :
    Kept h { h with pool := setAt h.pool k s, partialSlabs := ps, fullSlabs := fs } := by
  refine ⟨?_,fun _ _ _ _ _ => rfl⟩
  intro j d hj
  by_cases hjk : j = k
  · simp [hjk,hc,hb,← hj]
  · simp [hjk,hj]

structure Handed (h h' : Heap) (c : CacheId) (k i ptr : Nat) : Prop where
  cache : (h'.pool k).cache = some c
  index : i < objPerSlab c
  addr : ptr = (h'.pool k).base+i*objSize c
  fresh : ¬ Held h k i
  held : ∀ k' i', Held h' k' i' ↔ Held h k' i' ∨ (k' = k ∧ i' = i)

theorem Sound.find_free (hs : Sound h) (hk : k ∈ h.partialSlabs c) :
    ∃ i, slabBmFindFree (h.pool k) = some i ∧ i < objPerSlab c ∧ test (h.pool k).bitmap i = false := by
  have hcc := hs.listed c k (.inl hk)
  have hok := hs.ok k c hcc
  have hpos := (hs.onPartial k c hcc).mp hk
  obtain ⟨hsm,hn⟩ := findFirstClear_spec (h.pool k).bitmap (h.pool k).totalObj
    (((h.pool k).totalObj+63)/64) 0 (by omega)
  cases hf : slabBmFindFree (h.pool k) with
  | none =>
    have he : clearSet (h.pool k).bitmap (h.pool k).totalObj = ∅ := by
      rw [Finset.eq_empty_iff_forall_notMem]
      intro i hi
      obtain ⟨hlt,hc⟩ := mem_clearSet.mp hi
      rw [hn hf i (Nat.zero_le _) hlt] at hc
      exact Bool.noConfusion hc
    rw [hok.count,he,Finset.card_empty] at hpos
    exact absurd hpos (Nat.lt_irrefl 0)
  | some i =>
    obtain ⟨-,hlt,hc,-⟩ := hsm i hf
    exact ⟨i,rfl,hok.total ▸ hlt,hc⟩

theorem markObject_ok (hok : SlabOk s c) (hi : i < objPerSlab c) (hc : test s.bitmap i = false) :
    SlabOk (markObject s i) c ∧ (markObject s i).freeCount.toNat+1 = s.freeCount.toNat := by
  have hmem : i ∈ clearSet s.bitmap s.totalObj := mem_clearSet.mpr ⟨hok.total ▸ hi,hc⟩
  have hpos := Finset.card_pos.mpr ⟨i,hmem⟩
  rw [← hok.count] at hpos
  have hcn : (markObject s i).freeCount.toNat = s.freeCount.toNat-1 := by
    rw [markObject,UInt32.toNat_sub_of_le _ _ (by rw [UInt32.le_iff_toNat_le]; exact hpos)]
    rfl
  refine ⟨⟨hok.total,?_,hok.place,hok.inside⟩,by omega⟩
  rw [hcn,hok.count,markObject,clearSet_setBit,Finset.card_erase_of_mem hmem]

theorem takeObject_eq (hf : slabBmFindFree (h.pool k) = some i) :
    takeObject c k h = ((h.pool k).base+i*objSize c, if (markObject (h.pool k) i).freeCount = 0 then
        { h with
          pool := setAt h.pool k (markObject (h.pool k) i)
          partialSlabs := update h.partialSlabs c ((h.partialSlabs c).erase k)
          fullSlabs := update h.fullSlabs c (k :: h.fullSlabs c) }
      else { h with pool := setAt h.pool k (markObject (h.pool k) i) }) := by
  rw [takeObject,hf]
  rfl

theorem handed_mark (hc : (h.pool k).cache = some c) (hi : i < objPerSlab c)
    (hcl : test (h.pool k).bitmap i = false) (ps fs : CacheId → List Nat) :
    Handed h
      { h with pool := setAt h.pool k (markObject (h.pool k) i), partialSlabs := ps, fullSlabs := fs }
      c k i ((h.pool k).base+i*objSize c) := by
  refine ⟨by simpa [markObject] using hc,hi,by simp [markObject],by simp [Held,hcl],?_⟩
  intro k' i'
  by_cases hkk : k' = k <;> simp [Held,hkk,markObject,test_setBit,hc,or_comm]

theorem takeObject_spec (hs : Sound h) (hk : k ∈ h.partialSlabs c) :
    Sound (takeObject c k h).2 ∧ Kept h (takeObject c k h).2 ∧
      ∃ i, Handed h (takeObject c k h).2 c k i (takeObject c k h).1 := by
  have hc := hs.listed c k (.inl hk)
  obtain ⟨i,hf,hi,hcl⟩ := hs.find_free hk
  obtain ⟨hok,hcn⟩ := markObject_ok (hs.ok k c hc) hi hcl
  obtain ⟨hps,hfs⟩ := hs.nodup c
  have hn : k ∉ h.fullSlabs c := by
    rw [hs.onFull k c hc]
    intro hz
    simp [hz] at hcn
  rw [takeObject_eq hf]
  by_cases hzr : (markObject (h.pool k) i).freeCount = 0
  · rw [if_pos hzr]
    refine ⟨hs.replace hc hc rfl hok (hps.erase k) (nodup_cons.mpr ⟨hn,hfs⟩) ?_ ?_ ?_ ?_,
      kept_replace rfl rfl,i,handed_mark hc hi hcl _ _⟩
    · simp [hps.mem_erase_iff,hzr]
    · simp [hzr]
    · intro j hj
      simp [hps.mem_erase_iff,hj]
    · intro j hj
      simp [hj]
  rw [if_neg hzr]
  have hpos : 0 < (markObject (h.pool k) i).freeCount.toNat := by
    rw [pos_iff_ne_zero]
    exact fun hz => hzr (UInt32.toNat_inj.mp hz)
  have hsn := hs.replace hc (s := markObject (h.pool k) i) hc rfl hok hps hfs
    ⟨fun _ => hpos,fun _ => hk⟩
    ⟨fun hmem => absurd hmem hn,fun hz => absurd hz hzr⟩ (fun _ _ => Iff.rfl)
    (fun _ _ => Iff.rfl)
  rw [update_eq_self,update_eq_self] at hsn
  exact ⟨hsn,kept_replace rfl rfl,i,handed_mark hc hi hcl _ _⟩

theorem cacheAlloc_spec (hs : Sound h) (hg : GrantOk h c grant) :
    Sound (cacheAlloc c grant h).2 ∧ Kept h (cacheAlloc c grant h).2 ∧
      (((cacheAlloc c grant h).1 = 0 ∧ ∀ k i, Held (cacheAlloc c grant h).2 k i ↔ Held h k i) ∨
        ∃ k i, Handed h (cacheAlloc c grant h).2 c k i (cacheAlloc c grant h).1) := by
  rw [cacheAlloc]
  cases hl : h.partialSlabs c with
  | cons k ks =>
    obtain ⟨hsn,hk,i,hh⟩ := takeObject_spec hs (hl ▸ mem_cons_self : k ∈ h.partialSlabs c)
    exact ⟨hsn,hk,.inr ⟨k,i,hh⟩⟩
  | nil =>
    by_cases hm : h.poolNext < slabPoolSize ∧ grant ≠ 0
    · rw [slabCreate_eq hm.2 (hg hm.2).1 hm.1]
      obtain ⟨hs1,hk1⟩ := withSlab_sound hs hg hm.2
      have htop : h.poolNext ∈ (withSlab c grant h).partialSlabs c := by simp [withSlab]
      obtain ⟨hsn,hk,i,hh⟩ := takeObject_spec hs1 htop
      have hsm : ∀ k' i', Held (withSlab c grant h) k' i' ↔ Held h k' i' := by
        intro k' i'
        by_cases hkk : k' = h.poolNext
        · simp [Held,withSlab,hkk,hs.unused _ le_rfl,newSlab,test_blank]
        · simp [Held,withSlab,hkk]
      refine ⟨hsn,hk1.trans hk,.inr ⟨h.poolNext,i,hh.cache,hh.index,hh.addr,?_,?_⟩⟩
      · rw [← hsm]
        exact hh.fresh
      · intro k' i'
        rw [← hsm]
        exact hh.held k' i'
    obtain ⟨hn,hsn,hk,hsm⟩ := slabCreate_none (c := c) hs hm
    generalize slabCreate c grant h = r at hn hsn hk hsm
    obtain ⟨r1,h1⟩ := r
    obtain rfl : r1 = none := hn
    exact ⟨hsn,hk,.inl ⟨rfl,fun k i => by rw [Held,Held,(hsm k).1,(hsm k).2]⟩⟩

theorem clearObject_ok (hok : SlabOk s c) (hi : i < objPerSlab c) (hset : test s.bitmap i = true) :
    SlabOk (clearObject s i) c ∧ (clearObject s i).freeCount.toNat = s.freeCount.toNat+1 := by
  have hnot : i ∉ clearSet s.bitmap s.totalObj := by
    rw [mem_clearSet,hset]
    simp
  have hlt : i < s.totalObj := hok.total ▸ hi
  have hle := clearSet_card_le s.bitmap s.totalObj
  have hs := (slab_shape c).2.2.1
  have ht := hok.total
  have hold := hok.count
  have hc : (clearObject s i).freeCount.toNat = s.freeCount.toNat+1 := by
    rw [clearObject,UInt32.toNat_add,UInt32.toNat_one,Nat.mod_eq_of_lt (by omega)]
  refine ⟨⟨hok.total,?_,hok.place,hok.inside⟩,hc⟩
  rw [hc,hok.count,clearObject,clearSet_clearBit _ hlt,Finset.card_insert_of_notMem hnot]

structure Object (h : Heap) (c : CacheId) (k i ptr : Nat) : Prop where
  cache : (h.pool k).cache = some c
  index : i < objPerSlab c
  addr : ptr = (h.pool k).base+i*objSize c

theorem Object.inside (ho : Object h c k i ptr) : span ptr (objSize c) ⊆ (h.pool k).pages c := by
  rw [ho.addr,Slab.pages,← (slab_shape c).2.2.2.1]
  exact object_subset ho.index

theorem Object.mem_pages (ho : Object h c k i ptr) : ptr ∈ (h.pool k).pages c := by
  refine ho.inside ?_
  rw [mem_span]
  have hpos := (slab_shape c).1
  omega

theorem Sound.slab_unique (hs : Sound h) (ho : Object h c k i ptr) {d : CacheId} {j : Nat}
    (hj : (h.pool j).cache = some d) (hin : inSlab h d ptr j = true) : j = k ∧ d = c := by
  rw [inSlab,decide_eq_true_eq,← mem_span] at hin
  by_cases hjk : j = k
  · subst hjk
    exact ⟨rfl,Option.some.inj (hj.symm.trans ho.cache)⟩
  · exact absurd ho.mem_pages (Finset.disjoint_left.mp (hs.apart j k d c hj ho.cache hjk) hin)

theorem Object.inSlab (ho : Object h c k i ptr) : inSlab h c ptr k = true := by
  rw [SlabHeap.inSlab,decide_eq_true_eq,← mem_span]
  exact ho.mem_pages

theorem Sound.on_list (hs : Sound h) (hc : (h.pool k).cache = some c) :
    k ∈ h.partialSlabs c ∨ k ∈ h.fullSlabs c := by
  rw [hs.onPartial k c hc,hs.onFull k c hc,← UInt32.toNat_inj,UInt32.toNat_zero]
  omega

theorem findCacheForPtr_eq (hs : Sound h) (ho : Object h c k i ptr) : findCacheForPtr h ptr = some c := by
  have hown : ∀ d, ((h.partialSlabs d).any (inSlab h d ptr) ||
      (h.fullSlabs d).any (inSlab h d ptr)) = true ↔ d = c := by
    intro d
    rw [Bool.or_eq_true,any_eq_true,any_eq_true]
    constructor
    · rintro (⟨j,hj,hin⟩ | ⟨j,hj,hin⟩)
      · exact (hs.slab_unique ho (hs.listed d j (.inl hj)) hin).2
      · exact (hs.slab_unique ho (hs.listed d j (.inr hj)) hin).2
    rintro rfl
    rcases hs.on_list ho.cache with hmem | hmem
    · exact .inl ⟨k,hmem,ho.inSlab⟩
    · exact .inr ⟨k,hmem,ho.inSlab⟩
  rw [findCacheForPtr]
  cases hf : (finRange 12).find? (fun d =>
      (h.partialSlabs d).any (inSlab h d ptr) || (h.fullSlabs d).any (inSlab h d ptr)) with
  | none => exact absurd ((hown c).mpr rfl) (find?_eq_none.mp hf c (mem_finRange c))
  | some d =>
    have hd := find?_some hf
    exact congrArg some ((hown d).mp hd)

theorem giveObject_eq (ho : Object h c k i ptr) (hset : test (h.pool k).bitmap i = true)
    (wasFull : Bool) :
    giveObject c k wasFull ptr h = if wasFull = true then
        { h with
          pool := setAt h.pool k (clearObject (h.pool k) i)
          fullSlabs := update h.fullSlabs c ((h.fullSlabs c).erase k)
          partialSlabs := update h.partialSlabs c (k :: h.partialSlabs c) }
      else { h with pool := setAt h.pool k (clearObject (h.pool k) i) } := by
  obtain ⟨hpos,-,hobj,hs,hb⟩ := slab_shape c
  have hle : i*objSize c ≤ objPerSlab c*objSize c :=
    Nat.mul_le_mul_right _ (le_of_lt ho.index)
  have hidx : (ptr-(h.pool k).base)%2^32/objSize c = i := by
    rw [ho.addr,Nat.add_sub_cancel_left,Nat.mod_eq_of_lt (by omega),Nat.mul_div_cancel _ hpos]
  rw [giveObject,hidx]
  simp only [hset,Bool.true_eq_false,if_false]

structure Freed (h h' : Heap) (k i : Nat) : Prop where
  sound : Sound h'
  kept : Kept h h'
  mem : h'.mem = h.mem
  held : ∀ k' i', Held h' k' i' ↔ Held h k' i' ∧ ¬ (k' = k ∧ i' = i)

theorem held_clear (hc : (h.pool k).cache = some c) (ps fs : CacheId → List Nat) (k' i' : Nat) :
    Held { h with
        pool := setAt h.pool k (clearObject (h.pool k) i), partialSlabs := ps, fullSlabs := fs } k' i' ↔
      Held h k' i' ∧ ¬ (k' = k ∧ i' = i) := by
  by_cases hkk : k' = k <;> simp [Held,hkk,clearObject,test_clearBit,hc,and_comm]

theorem cacheFree_spec (hs : Sound h) (ho : Object h c k i ptr) (hh : Held h k i) :
    Freed h (cacheFree c ptr h) k i := by
  obtain ⟨hok,hc⟩ := clearObject_ok (hs.ok k c ho.cache) ho.index hh.2
  obtain ⟨hps,hfs⟩ := hs.nodup c
  have hpos : 0 < (clearObject (h.pool k) i).freeCount.toNat := by omega
  have hne : ¬ (clearObject (h.pool k) i).freeCount = 0 := by
    intro hz
    simp [hz] at hpos
  -- the slab found is the one the object is in
  have hfn : ∀ {ls : List Nat} {j : Nat}, (∀ x ∈ ls, (h.pool x).cache = some c) →
      ls.find? (inSlab h c ptr) = some j → j = k := fun hls hj =>
    (hs.slab_unique ho (hls _ (mem_of_find?_eq_some hj)) (find?_some hj)).1
  have hm : ∀ {ls : List Nat}, ls.find? (inSlab h c ptr) = none → k ∉ ls := fun hnn hmem =>
    absurd ho.inSlab (find?_eq_none.mp hnn k hmem)
  rw [cacheFree]
  cases hp : (h.partialSlabs c).find? (inSlab h c ptr) with
  | some j =>
    obtain rfl := hfn (fun x hx => hs.listed c x (.inl hx)) hp
    have hmem := mem_of_find?_eq_some hp
    have hnt : j ∉ h.fullSlabs c := by
      have hfr := (hs.onPartial j c ho.cache).mp hmem
      rw [hs.onFull j c ho.cache]
      intro hz
      simp [hz] at hfr
    have hsn := hs.replace ho.cache (s := clearObject (h.pool j) i) ho.cache rfl hok hps hfs
      ⟨fun _ => hpos,fun _ => hmem⟩
      ⟨fun hf => absurd hf hnt,fun hz => absurd hz hne⟩ (fun _ _ => Iff.rfl)
      (fun _ _ => Iff.rfl)
    rw [update_eq_self,update_eq_self] at hsn
    dsimp only
    rw [giveObject_eq ho hh.2,if_neg Bool.false_ne_true]
    exact ⟨hsn,kept_replace rfl rfl,rfl,held_clear ho.cache _ _⟩
  | none =>
    have hn := hm hp
    have hfl : k ∈ h.fullSlabs c := (hs.on_list ho.cache).resolve_left hn
    cases hf : (h.fullSlabs c).find? (inSlab h c ptr) with
    | none => exact absurd hfl (hm hf)
    | some j =>
      obtain rfl := hfn (fun x hx => hs.listed c x (.inr hx)) hf
      dsimp only
      rw [giveObject_eq ho hh.2,if_pos rfl]
      refine ⟨?_,kept_replace rfl rfl,rfl,held_clear ho.cache _ _⟩
      refine hs.replace ho.cache ho.cache rfl hok (nodup_cons.mpr ⟨hn,hps⟩) (hfs.erase j)
        ⟨fun _ => hpos,fun _ => mem_cons_self⟩ ?_ ?_ ?_
      · simp [hfs.mem_erase_iff,hne]
      · intro x hx
        simp [hx]
      · intro x hx
        simp [hfs.mem_erase_iff,hx]

end

/-! What the calls of `kmalloc` that return null leave behind. -/

open Runs

def attempt (h : Heap) (call : UInt64 × Nat) : Heap := (kmalloc call.1 call.2 h).2

/-- A new slab is needed, a descriptor is left for it and there are no pages. -/
def Starved (h : Heap) (call : UInt64 × Nat) : Prop :=
  call.1 ≠ 0 ∧
    ∃ c, findCache call.1 = some c ∧ h.partialSlabs c = [] ∧ h.poolNext < slabPoolSize ∧ call.2 = 0

/-- A call that returns null, with the pages it is granted inside the direct map. -/
structure Refused (h : Heap) (call : UInt64 × Nat) : Prop where
  null : (kmalloc call.1 call.2 h).1 = 0
  page : call.2+physMapBase.toNat < 2^64

variable {h : Heap} {c : CacheId} {k : Nat} {call : UInt64 × Nat}

theorem takeObject_null (hb : (h.pool k).base ≠ 0) (h0 : (takeObject c k h).1 = 0) :
    slabBmFindFree (h.pool k) = none ∧ (takeObject c k h).2 = h := by
  unfold takeObject at h0 ⊢
  cases hf : slabBmFindFree (h.pool k) with
  | none => exact ⟨rfl,rfl⟩
  | some idx =>
    simp only [hf,markObject] at h0
    omega

theorem fresh_free (c : CacheId) :
    findFirstClear (fun _ => 0#64) (objPerSlab c) ((objPerSlab c+63)/64) 0 = some 0 := by
  revert c
  decide +kernel

theorem Sound.base_pos (hs : Sound h) (hk : (h.pool k).cache = some c) : 0 < (h.pool k).base := by
  rw [(hs.ok k c hk).place]
  have hpos : 0 < physMapBase.toNat := by decide
  omega

theorem cacheAlloc_null (hs : Sound h) {grant : Nat} (hg : grant+physMapBase.toNat < 2^64)
    (hst : ¬ (h.partialSlabs c = [] ∧ h.poolNext < slabPoolSize ∧ grant = 0))
    (h0 : (cacheAlloc c grant h).1 = 0) : (cacheAlloc c grant h).2 = h := by
  unfold cacheAlloc at h0 ⊢
  cases hp : h.partialSlabs c with
  | cons k ks =>
    simp only [hp] at h0
    exact (takeObject_null (hs.base_pos (hs.listed c k (by simp [hp]))).ne' h0).2
  | nil =>
    by_cases hn : h.poolNext < slabPoolSize
    · have hz : grant ≠ 0 := fun hz => hst ⟨hp,hn,hz⟩
      simp only [hp,slabCreate,hn,hz,if_true,if_false] at h0
      have hb : (grant+physMapBase.toNat)%2^64 ≠ 0 := by
        rw [Nat.mod_eq_of_lt hg]
        have hpos : 0 < physMapBase.toNat := by decide
        omega
      have hf := (takeObject_null (by simpa only [setAt_self] using hb) h0).1
      simp [slabBmFindFree,setAt_self,fresh_free] at hf
    · simp [slabCreate,hn]

theorem Refused.unchanged (hs : Sound h) (hr : Refused h call) (hst : ¬ Starved h call) :
    attempt h call = h := by
  have h0 := hr.null
  unfold attempt
  unfold kmalloc at h0 ⊢
  split
  · rfl
  rename_i hz
  rw [if_neg hz] at h0
  cases hc : findCache call.1 with
  | none => rfl
  | some c =>
    simp only [hc] at h0
    exact cacheAlloc_null hs hr.page (fun hn => hst ⟨hz,c,hc,hn⟩) h0

theorem takeObject_poolNext (c : CacheId) (k : Nat) (h : Heap) :
    (takeObject c k h).2.poolNext = h.poolNext := by
  unfold takeObject
  cases slabBmFindFree (h.pool k) with
  | none => rfl
  | some idx =>
    dsimp only
    split <;> rfl

theorem slabCreate_poolNext (c : CacheId) (grant : Nat) (h : Heap) :
    h.poolNext ≤ (slabCreate c grant h).2.poolNext := by
  unfold slabCreate
  split_ifs <;> simp

theorem attempt_poolNext (h : Heap) (call : UInt64 × Nat) : h.poolNext ≤ (attempt h call).poolNext := by
  unfold attempt kmalloc
  split
  · exact le_refl _
  split
  · exact le_refl _
  rename_i c _
  unfold cacheAlloc
  split
  · exact (takeObject_poolNext ..).ge
  have hc := slabCreate_poolNext c call.2 h
  split <;> rename_i hs <;> rw [hs] at hc
  · exact hc
  · exact (takeObject_poolNext ..).symm ▸ hc

theorem foldl_attempt_poolNext (h : Heap) (calls : List (UInt64 × Nat)) :
    h.poolNext ≤ (calls.foldl attempt h).poolNext := by
  induction calls generalizing h with
  | nil => exact le_refl _
  | cons call calls ih => exact (attempt_poolNext h call).trans (ih _)

theorem Starved.poolNext (hst : Starved h call) : (attempt h call).poolNext = h.poolNext+1 := by
  obtain ⟨hz,c,hc,hp,hn,hg⟩ := hst
  simp [attempt,kmalloc,hz,hc,cacheAlloc,hp,slabCreate,hn,hg]

/-- Failing calls leave the allocator as it was exactly if none of them is starved: a starved one uses
up a descriptor for good. -/
theorem refused_unchanged_iff (h : Heap) (hs : Sound h) (calls : List (UInt64 × Nat))
    (hr : Along attempt Refused h calls) :
    calls.foldl attempt h = h ↔ ∀ call ∈ calls, ¬ Starved h call := by
  induction calls with
  | nil => simp
  | cons call calls ih =>
    rw [foldl_cons,forall_mem_cons]
    by_cases hst : Starved h call
    · refine iff_of_false (fun he => ?_) fun hn => hn.1 hst
      have hle := foldl_attempt_poolNext (attempt h call) calls
      rw [he,hst.poolNext] at hle
      omega
    · have hc := hr.1.unchanged hs hst
      rw [hc,ih (hc ▸ hr.2),and_iff_right hst]

theorem refused_unchanged_iff_large :
    [((0x20000 : UInt64),0),(0,0)].foldl attempt (slabInit fun _ => 0) = slabInit fun _ => 0 := by
  refine (refused_unchanged_iff _ (sound_slabInit _) [(0x20000,0),(0,0)]
    ⟨⟨by decide +kernel,by decide⟩,⟨by decide +kernel,by decide⟩,trivial⟩).mpr ?_
  rw [forall_mem_cons,forall_mem_singleton]
  refine ⟨?_,fun h => h.1 rfl⟩
  rintro ⟨-,c,hc,-⟩
  revert c
  decide +kernel

theorem refused_loses_descriptors : (kmalloc 32 0 (slabInit fun _ => 0)).1 = 0 ∧
    (attempt (slabInit fun _ => 0) (32,0)).poolNext = 1 ∧
    (kmalloc 32 4096 (slabInit fun _ => 0)).1 ≠ 0 ∧
    (kmalloc 32 4096 ((replicate 512 (32,0)).foldl attempt (slabInit fun _ => 0))).1 = 0 := by
  decide +kernel

end AevOS.SlabHeap
