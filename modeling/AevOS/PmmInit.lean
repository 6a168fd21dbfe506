import AevOS.Pmm

/-! `pmm_init`: from the memory map of the boot loader to the bitmap, in `uint64_t` arithmetic that wraps. -/

namespace AevOS.Frames
open BitWords List
open UInt64 (ofNat le_iff_toNat_le toNat_inj toNat_sub toNat_add toNat_one toNat_ofNat' toNat_zero)

inductive MmapType where
  | usable | reserved | acpiReclaim | acpiNvs | framebuffer | kernel | bootloader
  deriving DecidableEq

structure MmapEntry where
  base : UInt64
  length : UInt64
  type : MmapType
  deriving DecidableEq

structure BootInfo where
  mmap : List MmapEntry
  kernelPhysBase : UInt64
  kernelSize : UInt64
  totalMemory : UInt64
  deriving DecidableEq

def bootTotal (mmap : List MmapEntry) : UInt64 :=
  mmap.foldl (fun t e => if t < e.base+e.length then e.base+e.length else t) 0

def alignUp (x a : UInt64) : UInt64 := (x+a-1) &&& ~~~ (a-1)
def alignDown (x a : UInt64) : UInt64 := x &&& ~~~ (a-1)

def freeRegion (s : Pmm) (e : MmapEntry) : Pmm :=
  if e.type ≠ .usable then s
  else
    let base := alignUp e.base pageSize
    let stop := alignDown (e.base+e.length) pageSize
    if stop ≤ base then s
    else
      let startPage := base/pageSize
      let numPages := (stop-base)/pageSize
      let numPages :=
        if s.totalPages < startPage+numPages then s.totalPages-startPage else numPages
      { s with
        bitmap := bmClearRange startPage numPages s.bitmap
        freePages := s.freePages+numPages }

def reservePage (s : Pmm) (i : Nat) : Pmm :=
  if test s.bitmap i then s
  else { s with bitmap := setBit s.bitmap i, freePages := s.freePages-1 }

def reserveRange (start stop : Nat) (s : Pmm) : Pmm :=
  (List.range' start (min stop s.total-start)).foldl reservePage s

def totalOf (totalMemory : UInt64) : UInt64 :=
  if ofNat pmmMaxPages < totalMemory/pageSize then ofNat pmmMaxPages
  else totalMemory/pageSize

theorem totalOf_le (totalMemory : UInt64) : (totalOf totalMemory).toNat ≤ pmmMaxPages := by
  rw [totalOf]
  split
  · decide
  · rename_i h
    rw [UInt64.not_lt,le_iff_toNat_le] at h
    exact h

def pmmFull (totalMemory : UInt64) : Pmm :=
  ⟨fun _ => BitVec.allOnes 64,totalOf totalMemory,0,totalOf_le totalMemory⟩

def kernelStart (bi : BootInfo) : UInt64 := bi.kernelPhysBase/pageSize
def kernelPages (bi : BootInfo) : UInt64 := alignUp bi.kernelSize pageSize/pageSize
def lowPages : Nat := 1024*1024/4096

def pmmInit (bi : BootInfo) : Pmm :=
  reserveRange 0 lowPages (reserveRange (kernelStart bi).toNat (kernelStart bi+kernelPages bi).toNat
      (bi.mmap.foldl freeRegion (pmmFull bi.totalMemory)))

theorem and_pageMask {n : Nat} (h : n < 2^64) : n &&& (2^64-4096) = n/4096*4096 := by
  rw [show (2^64-4096 : Nat) = (2^52-1)*2^12 by decide,and_field,Nat.mod_eq_of_lt (by omega)]
  rfl

theorem alignDown_toNat (x : UInt64) : (alignDown x pageSize).toNat = x.toNat/4096*4096 :=
  and_pageMask x.toNat_lt

theorem alignUp_toNat (x : UInt64) : (alignUp x pageSize).toNat = (x.toNat+4095)%2^64/4096*4096 := by
  have hsum : x+pageSize-1 = x+4095 := by
    rw [pageSize]
    apply toNat_inj.mp
    rw [toNat_sub,toNat_add,toNat_add]
    simp only [UInt64.reduceToNat,toNat_one]
    omega
  rw [alignUp,hsum,UInt64.toNat_and,show (~~~ (pageSize-1)).toNat = 2^64-4096 from rfl,
    and_pageMask (x+4095).toNat_lt,toNat_add]
  rfl

namespace MmapEntry

def firstPage (e : MmapEntry) : Nat := (e.base.toNat+4095)/4096
def endPage (e : MmapEntry) : Nat := (e.base.toNat+e.length.toNat)/4096
def Wraps (e : MmapEntry) : Prop := 2^64-4096 < e.base.toNat
  deriving Decidable

def pages (total : Nat) (e : MmapEntry) : Finset Nat :=
  if e.type = .usable then
    if e.Wraps then Finset.range total else Finset.Ico e.firstPage (min e.endPage total)
  else ∅

def above (total : Nat) (e : MmapEntry) : Nat :=
  if e.type = .usable ∧ e.firstPage < e.endPage then e.firstPage-total else 0

def Covers (e : MmapEntry) (page : Nat) : Prop :=
  e.base.toNat ≤ page*4096 ∧ page*4096+4096 ≤ e.base.toNat+e.length.toNat

end MmapEntry

structure Freed (s s' : Pmm) (S : Finset Nat) (n d : Nat) : Prop where
  total : s'.totalPages = s.totalPages
  bits : ∀ i, test s'.bitmap i = (!decide (i ∈ S) && test s.bitmap i)
  count : s'.freePages+ofNat d = s.freePages+ofNat n

variable {start : UInt64} {p : Nat} {es : List MmapEntry} {e : MmapEntry} {s : Pmm}

section
variable {s : Pmm} {e : MmapEntry}

theorem freed_none (s : Pmm) : Freed s s ∅ 0 0 :=
  ⟨rfl,fun i => by simp,rfl⟩

theorem bmClearRange_bits {count : UInt64} {b : Words} (i : Nat) {stop : Nat}
    (hs : (start+count).toNat = stop) (hle : stop ≤ pmmMaxPages) : test (bmClearRange start count b) i =
      (!decide (i ∈ Finset.Ico start.toNat stop) && test b i) := by
  rw [bmClearRange,test_clearRange,hs,min_eq_left hle]
  simp only [Finset.mem_Ico]

theorem clearCut_freed (s : Pmm) {num : UInt64} {first last : Nat} (hs : start.toNat = first)
    (hnum : num.toNat = last-first) (hle : first ≤ last) (hl : last < 2^52) :
    Freed s
      { s with
        bitmap := bmClearRange start (if s.totalPages < start+num then s.totalPages-start else num) s.bitmap
        freePages := s.freePages+if s.totalPages < start+num then s.totalPages-start else num }
      (Finset.Ico first (min last s.total)) (Finset.Ico first (min last s.total)).card (first-s.total) := by
  have hmax := s.total_le
  have ht : s.total = s.totalPages.toNat := rfl
  have hsum : (start+num).toNat = last := by
    rw [toNat_add,hs,hnum]
    omega
  by_cases hcut : s.totalPages < start+num
  · -- the pages reach behind the last page counted, or lie there
    rw [if_pos hcut]
    rw [UInt64.lt_iff_toNat_lt,hsum] at hcut
    have hmin : min last s.total = s.total := by omega
    have hb : start+(s.totalPages-start) = s.totalPages := by
      rw [UInt64.add_comm,UInt64.sub_add_cancel]
    rw [hmin,← hs]
    refine ⟨rfl,fun i => bmClearRange_bits i (congrArg UInt64.toNat hb) s.inBitmap,?_⟩
    apply toNat_inj.mp
    simp only [toNat_add,toNat_sub,toNat_ofNat',hs,Nat.card_Ico]
    omega
  rw [if_neg hcut]
  rw [UInt64.lt_iff_toNat_lt,hsum] at hcut
  have hmin : min last s.total = last := by omega
  have hz : start.toNat-s.total = 0 := by omega
  rw [hmin,← hs,hz]
  refine ⟨rfl,fun i => bmClearRange_bits i hsum (by rw [pmmMaxPages]; omega),?_⟩
  apply toNat_inj.mp
  simp only [toNat_add,toNat_ofNat',hnum,hs,Nat.card_Ico]
  omega

theorem freeRegion_usable (hu : e.type = .usable) (hend : e.base.toNat+e.length.toNat < 2^64) :
    Freed s (freeRegion s e) (e.pages s.total) (e.pages s.total).card (e.above s.total) := by
  have hmax := s.total_le
  have hup := alignUp_toNat e.base
  have hd := alignDown_toNat (e.base+e.length)
  have hsum : (e.base+e.length).toNat = e.base.toNat+e.length.toNat := by
    rw [toNat_add]
    omega
  rw [hsum] at hd
  rw [freeRegion,if_neg (not_not.mpr hu)]
  generalize alignUp e.base pageSize = base at *
  generalize alignDown (e.base+e.length) pageSize = stop at *
  have hnum : stop.toNat ≥ base.toNat → ((stop-base)/pageSize).toNat =
      (stop.toNat-base.toNat)/4096 := by
    intro hle
    rw [addr_page,UInt64.toNat_sub_of_le _ _ (le_iff_toNat_le.mpr hle)]
  by_cases hw : e.Wraps
  · -- the base is rounded up to 0: every page counted is cleared
    have hlt : 2^64-4096 < e.base.toNat := hw
    have hz : base.toNat = 0 := by omega
    have hnot : ¬ stop ≤ base := by
      rw [le_iff_toNat_le]
      omega
    have ha : e.above s.total = 0-s.total := by
      rw [MmapEntry.above,if_neg,Nat.zero_sub]
      rintro ⟨-,hlt'⟩
      rw [MmapEntry.firstPage,MmapEntry.endPage] at hlt'
      omega
    have hp : e.pages s.total = Finset.Ico 0 (min (2^52-1) s.total) := by
      rw [MmapEntry.pages,if_pos hu,if_pos hw,min_eq_right (by omega),Nat.Ico_zero_eq_range]
    rw [if_neg hnot,ha,hp]
    apply clearCut_freed
    · rw [addr_page,hz]
    · omega
    · omega
    · omega
  have hle : e.base.toNat ≤ 2^64-4096 := by
    rw [MmapEntry.Wraps] at hw
    omega
  have hb : base.toNat = e.firstPage*4096 := by
    rw [hup,Nat.mod_eq_of_lt (by omega),MmapEntry.firstPage]
  have hs : stop.toNat = e.endPage*4096 := hd
  have hp : e.pages s.total = Finset.Ico e.firstPage (min e.endPage s.total) := by
    rw [MmapEntry.pages,if_pos hu,if_neg hw]
  by_cases he : stop ≤ base
  · rw [if_pos he]
    rw [le_iff_toNat_le] at he
    have hnil : e.pages s.total = ∅ := by
      rw [hp,Finset.Ico_eq_empty_iff]
      omega
    have ha : e.above s.total = 0 := by
      rw [MmapEntry.above,if_neg]
      omega
    rw [hnil,ha]
    exact freed_none s
  rw [if_neg he]
  rw [le_iff_toNat_le] at he
  have hlt : e.firstPage < e.endPage := by omega
  have ha : e.above s.total = e.firstPage-s.total := by
    rw [MmapEntry.above,if_pos ⟨hu,hlt⟩]
  rw [ha,hp]
  apply clearCut_freed
  · rw [addr_page,hb]
    omega
  · omega
  · omega
  · omega

theorem freeRegion_freed (hend : e.base.toNat+e.length.toNat < 2^64) (s : Pmm) :
    Freed s (freeRegion s e) (e.pages s.total) (e.pages s.total).card (e.above s.total) := by
  by_cases hu : e.type = .usable
  · exact freeRegion_usable hu hend
  have hn := freed_none s
  rw [freeRegion,if_pos hu,MmapEntry.pages,if_neg hu,MmapEntry.above,if_neg (fun h => hu h.1)]
  exact hn

end

def clearedPages (total : Nat) : List MmapEntry → Finset Nat
  | [] => ∅
  | e :: es => e.pages total ∪ clearedPages total es

def countedPages (total : Nat) (es : List MmapEntry) : Nat :=
  (es.map (fun e => (e.pages total).card)).sum

def pagesAbove (total : Nat) (es : List MmapEntry) : Nat := (es.map (MmapEntry.above total)).sum

theorem mem_clearedPages {total : Nat} : p ∈ clearedPages total es ↔ ∃ e ∈ es, p ∈ e.pages total := by
  induction es with
  | nil => simp [clearedPages]
  | cons e es ih => simp [clearedPages,ih]

theorem freeRegions_freed (hen : ∀ e ∈ es, e.base.toNat+e.length.toNat < 2^64) (s : Pmm) :
    Freed s (es.foldl freeRegion s) (clearedPages s.total es) (countedPages s.total es)
      (pagesAbove s.total es) := by
  induction es generalizing s with
  | nil => exact freed_none s
  | cons e es ih =>
    obtain ⟨he,hes⟩ := forall_mem_cons.mp hen
    have hone := freeRegion_freed he s
    have hr := ih hes (freeRegion s e)
    have ht : (freeRegion s e).total = s.total := congrArg UInt64.toNat hone.total
    rw [ht] at hr
    refine ⟨hr.total.trans hone.total,?_,?_⟩
    · intro i
      rw [foldl_cons,hr.bits i,hone.bits i,clearedPages,Bool.eq_iff_iff]
      simp only [Bool.and_eq_true,Bool.not_eq_true',decide_eq_false_iff_not,Finset.mem_union]
      tauto
    have h1 := congrArg UInt64.toNat hone.count
    have h2 := congrArg UInt64.toNat hr.count
    apply toNat_inj.mp
    simp only [foldl_cons,countedPages,pagesAbove,map_cons,sum_cons,
      toNat_add,toNat_ofNat'] at h1 h2 ⊢
    omega

theorem pages_lt {total : Nat} (h : p ∈ e.pages total) : p < total := by
  rw [MmapEntry.pages] at h
  split_ifs at h
  · exact Finset.mem_range.mp h
  · rw [Finset.mem_Ico] at h
    omega
  · exact absurd h (Finset.notMem_empty p)

theorem covers_of_pages {total : Nat} (hw : ¬ e.Wraps) (h : p ∈ e.pages total) :
    e.type = .usable ∧ e.Covers p := by
  rw [MmapEntry.pages,if_neg hw] at h
  split_ifs at h with hu
  · rw [Finset.mem_Ico,MmapEntry.firstPage,MmapEntry.endPage] at h
    refine ⟨hu,?_,?_⟩
    · omega
    · omega
  · exact absurd h (Finset.notMem_empty p)

def MmapEntry.Apart (e e' : MmapEntry) : Prop :=
  e.base.toNat+e.length.toNat ≤ e'.base.toNat ∨ e'.base.toNat+e'.length.toNat ≤ e.base.toNat

theorem pages_disjoint {e' : MmapEntry} {total : Nat} (hw : ¬ e.Wraps) (hw' : ¬ e'.Wraps)
    (h : e.Apart e') : Disjoint (e.pages total) (e'.pages total) := by
  rw [Finset.disjoint_left]
  intro p hp hp'
  obtain ⟨-,hlo,hhi⟩ := covers_of_pages hw hp
  obtain ⟨-,hlo',hhi'⟩ := covers_of_pages hw' hp'
  rcases h with h | h
  · omega
  · omega

theorem countedPages_eq {total : Nat} (hw : ∀ e ∈ es, e.type = .usable → ¬ e.Wraps)
    (ha : es.Pairwise MmapEntry.Apart) : countedPages total es = (clearedPages total es).card := by
  have hd : ∀ e e' : MmapEntry, (e.type = .usable → ¬ e.Wraps) →
      (e'.type = .usable → ¬ e'.Wraps) → e.Apart e' → Disjoint (e.pages total) (e'.pages total) := by
    intro e e' he he' h
    by_cases hu : e.type = .usable
    · by_cases hu' : e'.type = .usable
      · exact pages_disjoint (he hu) (he' hu') h
      · rw [MmapEntry.pages,MmapEntry.pages,if_neg hu']
        exact Finset.disjoint_empty_right _
    · rw [MmapEntry.pages,if_neg hu]
      exact Finset.disjoint_empty_left _
  induction es with
  | nil => rfl
  | cons e es ih =>
    obtain ⟨hh,ht⟩ := pairwise_cons.mp ha
    obtain ⟨he,hes⟩ := forall_mem_cons.mp hw
    have hs : Disjoint (e.pages total) (clearedPages total es) := by
      rw [Finset.disjoint_left]
      intro p hp hmem
      obtain ⟨e',he',hp'⟩ := mem_clearedPages.mp hmem
      exact Finset.disjoint_left.mp (hd e e' he (hes e' he') (hh e' he')) hp hp'
    rw [clearedPages,Finset.card_union_of_disjoint hs,← ih hes ht]
    rfl

def Pmm.drift (s : Pmm) : UInt64 := s.freePages-ofNat s.clear.card

theorem counted_iff_drift : s.Counted ↔ s.drift = 0 := by
  have hmax := s.clear_card_le
  have hof : (ofNat s.clear.card).toNat = s.clear.card := by
    rw [toNat_ofNat']
    omega
  rw [Pmm.Counted,Pmm.drift]
  constructor
  · intro h
    have heq : s.freePages = ofNat s.clear.card := toNat_inj.mp (by rw [hof]; exact h)
    rw [heq,UInt64.sub_self]
  intro h
  have hlt := s.freePages.toNat_lt
  have hz := congrArg UInt64.toNat h
  rw [toNat_sub,hof,toNat_zero] at hz
  omega

structure Marked (s s' : Pmm) (is : List Nat) : Prop where
  total : s'.totalPages = s.totalPages
  bits : ∀ j, test s'.bitmap j = (decide (j ∈ is) || test s.bitmap j)
  drift : s'.drift = s.drift

theorem reservePage_marked {i : Nat} (hi : i < s.total) : Marked s (reservePage s i) [i] := by
  rw [reservePage]
  by_cases hbit : test s.bitmap i = true
  · rw [if_pos hbit]
    refine ⟨rfl,fun j => ?_,rfl⟩
    by_cases hj : j = i
    · rw [hj,hbit,Bool.or_true]
    · simp [hj]
  rw [if_neg hbit]
  refine ⟨rfl,fun j => by simp,?_⟩
  have hmem : i ∈ s.clear := mem_clearSet.mpr ⟨hi,by simpa using hbit⟩
  have hpos := Finset.card_pos.mpr ⟨i,hmem⟩
  have hc : (clearSet (setBit s.bitmap i) s.total).card = s.clear.card-1 := by
    rw [clearSet_setBit]
    exact Finset.card_erase_of_mem hmem
  show s.freePages-1-ofNat (clearSet (setBit s.bitmap i) s.total).card =
    s.freePages-ofNat s.clear.card
  apply toNat_inj.mp
  simp only [toNat_sub,toNat_one,toNat_ofNat']
  omega

theorem reservePages_marked {is : List Nat} (his : ∀ i ∈ is, i < s.total) :
    Marked s (is.foldl reservePage s) is := by
  induction is generalizing s with
  | nil => exact ⟨rfl,fun j => by simp,rfl⟩
  | cons i is ih =>
    obtain ⟨hi,hr⟩ := forall_mem_cons.mp his
    have hone := reservePage_marked hi
    have ht : (reservePage s i).total = s.total := congrArg UInt64.toNat hone.total
    have hm := ih (s := reservePage s i) (by rw [ht]; exact hr)
    refine ⟨hm.total.trans hone.total,?_,hm.drift.trans hone.drift⟩
    intro j
    rw [foldl_cons,hm.bits,hone.bits,Bool.eq_iff_iff]
    simp only [Bool.or_eq_true,decide_eq_true_eq,mem_cons]
    tauto

theorem reserveRange_marked (start stop : Nat) (s : Pmm) :
    Marked s (reserveRange start stop s) (range' start (min stop s.total-start)) := by
  apply reservePages_marked
  intro i hi
  rw [mem_range'_sub] at hi
  omega

def KernelMarked (bi : BootInfo) (p : Nat) : Prop :=
  (kernelStart bi).toNat ≤ p ∧ p < (kernelStart bi).toNat+(kernelPages bi).toNat

def OutsideKernel (bi : BootInfo) (p : Nat) : Prop :=
  ∀ a, p*4096 ≤ a → a < p*4096+4096 →
    ¬ (bi.kernelPhysBase.toNat ≤ a ∧ a < bi.kernelPhysBase.toNat+bi.kernelSize.toNat)

def InUsable (bi : BootInfo) (p : Nat) : Prop :=
  ∃ e ∈ bi.mmap, e.type = .usable ∧ e.Covers p

/-- The count is right; free pages are usable, above 1 MiB and outside of the kernel. -/
structure InitSound (bi : BootInfo) : Prop where
  counted : (pmmInit bi).Counted
  places : ∀ p, p < pmmMaxPages → test (pmmInit bi).bitmap p = false →
    InUsable bi p ∧ OutsideKernel bi p ∧ 1024*1024 ≤ p*4096

def BootInfo.total (bi : BootInfo) : Nat := (totalOf bi.totalMemory).toNat

section
variable {bi : BootInfo}

theorem kernelStart_add : (kernelStart bi+kernelPages bi).toNat =
    (kernelStart bi).toNat+(kernelPages bi).toNat := by
  have h1 : (kernelStart bi).toNat < 2^52 := by
    have hlt := bi.kernelPhysBase.toNat_lt
    rw [kernelStart,addr_page]
    omega
  have h2 : (kernelPages bi).toNat < 2^52 := by
    have hlt := (alignUp bi.kernelSize pageSize).toNat_lt
    rw [kernelPages,addr_page]
    omega
  rw [toNat_add]
  omega

theorem clearedPages_lt {total p : Nat} {mmap : List MmapEntry} (hp : p ∈ clearedPages total mmap) :
    p < total := by
  obtain ⟨e,-,hpe⟩ := mem_clearedPages.mp hp
  exact pages_lt hpe

theorem pmmInit_spec (he : ∀ e ∈ bi.mmap, e.base.toNat+e.length.toNat < 2^64) :
    ((pmmInit bi).Counted ↔ (pagesAbove bi.total bi.mmap+(clearedPages bi.total bi.mmap).card) %
      2^64 = countedPages bi.total bi.mmap%2^64) ∧ ∀ p, test (pmmInit bi).bitmap p = false ↔
      p ∈ clearedPages bi.total bi.mmap ∧ ¬ KernelMarked bi p ∧ 256 ≤ p := by
  have hf := freeRegions_freed he (pmmFull bi.totalMemory)
  rw [show (pmmFull bi.totalMemory).total = bi.total from rfl] at hf
  generalize hs1 : bi.mmap.foldl freeRegion (pmmFull bi.totalMemory) = s1 at hf
  have ht1 : s1.total = bi.total := congrArg UInt64.toNat hf.total
  have hfl : ∀ p, test (pmmFull bi.totalMemory).bitmap p = true := by
    intro p
    rw [test_eq,show (pmmFull bi.totalMemory).bitmap (p/64) = BitVec.allOnes 64 from rfl,
      BitVec.getLsbD_allOnes,decide_eq_true_eq]
    omega
  have hb1 : ∀ p, test s1.bitmap p = !decide (p ∈ clearedPages bi.total bi.mmap) := by
    intro p
    rw [hf.bits p,hfl,Bool.and_true]
  have hc1 : s1.clear = clearedPages bi.total bi.mmap := by
    ext p
    rw [Pmm.clear,mem_clearSet,ht1,hb1,Bool.not_eq_false',decide_eq_true_eq]
    exact ⟨fun h => h.2,fun h => ⟨clearedPages_lt h,h⟩⟩
  have hk := reserveRange_marked (kernelStart bi).toNat (kernelStart bi+kernelPages bi).toNat s1
  have hlow := reserveRange_marked 0 lowPages
    (reserveRange (kernelStart bi).toNat (kernelStart bi+kernelPages bi).toNat s1)
  have hi : pmmInit bi = reserveRange 0 lowPages
      (reserveRange (kernelStart bi).toNat (kernelStart bi+kernelPages bi).toNat s1) := by
    rw [pmmInit,hs1]
  generalize reserveRange (kernelStart bi).toNat (kernelStart bi+kernelPages bi).toNat s1 = s2
    at hk hlow hi
  have ht2 : s2.total = s1.total := congrArg UInt64.toNat hk.total
  constructor
  · rw [hi,counted_iff_drift,hlow.drift,hk.drift,Pmm.drift,hc1]
    have hc := congrArg UInt64.toNat hf.count
    have h1 := s1.freePages.toNat_lt
    have hz : (pmmFull bi.totalMemory).freePages.toNat = 0 := rfl
    rw [toNat_add,toNat_add,toNat_ofNat',toNat_ofNat',hz] at hc
    rw [← toNat_inj,toNat_sub,toNat_ofNat',toNat_zero]
    omega
  intro p
  rw [hi,hlow.bits,hk.bits,hb1,Bool.or_eq_false_iff,Bool.or_eq_false_iff,
    decide_eq_false_iff_not,decide_eq_false_iff_not,Bool.not_eq_false',decide_eq_true_eq,
    mem_range'_sub,mem_range'_sub,kernelStart_add,KernelMarked,lowPages]
  constructor
  · rintro ⟨h1,h2,h3⟩
    have hp := clearedPages_lt h3
    refine ⟨h3,?_,?_⟩
    · omega
    · omega
  rintro ⟨h3,h2,h1⟩
  refine ⟨?_,?_,h3⟩
  · omega
  · omega

theorem pmmInit_sound_iff (bi : BootInfo)
    (hends : ∀ e ∈ bi.mmap, e.base.toNat+e.length.toNat < 2^64)
    (hapart : bi.mmap.Pairwise MmapEntry.Apart) :
    InitSound bi ↔
      ((∀ e ∈ bi.mmap, e.type = .usable → ¬ e.Wraps) ∧ pagesAbove bi.total bi.mmap%2^64 = 0 ∧
        ∀ e ∈ bi.mmap, ∀ p ∈ e.pages bi.total, 256 ≤ p → ¬ KernelMarked bi p → OutsideKernel bi p) ∨
      ((∃ e ∈ bi.mmap, e.type = .usable ∧ e.Wraps) ∧
        (pagesAbove bi.total bi.mmap+bi.total)%2^64 = countedPages bi.total bi.mmap%2^64 ∧
        ∀ p, p < bi.total → 256 ≤ p → ¬ KernelMarked bi p →
          InUsable bi p ∧ OutsideKernel bi p) := by
  obtain ⟨hcounted,hbits⟩ := pmmInit_spec hends
  have hmax : bi.total ≤ pmmMaxPages := totalOf_le bi.totalMemory
  have hsound : InitSound bi ↔
      ((pagesAbove bi.total bi.mmap+(clearedPages bi.total bi.mmap).card)%2^64 =
        countedPages bi.total bi.mmap%2^64) ∧
      ∀ p ∈ clearedPages bi.total bi.mmap, 256 ≤ p → ¬ KernelMarked bi p →
        InUsable bi p ∧ OutsideKernel bi p := by
    constructor
    · rintro ⟨hc,hplaces⟩
      refine ⟨hcounted.mp hc,?_⟩
      intro p hp h256 hk
      obtain ⟨hin,hout,-⟩ := hplaces p ((clearedPages_lt hp).trans_le hmax) ((hbits p).mpr ⟨hp,hk,h256⟩)
      exact ⟨hin,hout⟩
    rintro ⟨hc,hplaces⟩
    refine ⟨hcounted.mpr hc,?_⟩
    intro p _ hfree
    obtain ⟨hp,hk,h256⟩ := (hbits p).mp hfree
    obtain ⟨hin,hout⟩ := hplaces p hp h256 hk
    exact ⟨hin,hout,by omega⟩
  rw [hsound]
  by_cases hwrap : ∃ e ∈ bi.mmap, e.type = .usable ∧ e.Wraps
  · -- a base that wraps clears every page counted
    have hall : clearedPages bi.total bi.mmap = Finset.range bi.total := by
      ext p
      rw [mem_clearedPages,Finset.mem_range]
      constructor
      · rintro ⟨e,-,hpe⟩
        exact pages_lt hpe
      · intro hp
        obtain ⟨e,he,hu,hw⟩ := hwrap
        exact ⟨e,he,by rw [MmapEntry.pages,if_pos hu,if_pos hw]; exact Finset.mem_range.mpr hp⟩
    rw [hall,Finset.card_range]
    simp only [Finset.mem_range]
    constructor
    · exact fun h => .inr ⟨hwrap,h⟩
    rintro (⟨hno,-⟩ | ⟨-,h⟩)
    · obtain ⟨e,he,hu,hw⟩ := hwrap
      exact absurd hw (hno e he hu)
    · exact h
  have hno : ∀ e ∈ bi.mmap, e.type = .usable → ¬ e.Wraps :=
    fun e he hu hw => hwrap ⟨e,he,hu,hw⟩
  have hin : ∀ p ∈ clearedPages bi.total bi.mmap, InUsable bi p := by
    intro p hp
    obtain ⟨e,he,hpe⟩ := mem_clearedPages.mp hp
    by_cases hu : e.type = .usable
    · exact ⟨e,he,covers_of_pages (hno e he hu) hpe⟩
    · rw [MmapEntry.pages,if_neg hu] at hpe
      exact absurd hpe (Finset.notMem_empty p)
  rw [countedPages_eq hno hapart]
  constructor
  · rintro ⟨hc,hplaces⟩
    refine .inl ⟨hno,by omega,?_⟩
    intro e he p hp h256 hk
    exact (hplaces p (mem_clearedPages.mpr ⟨e,he,hp⟩) h256 hk).2
  rintro (⟨-,habove,hplaces⟩ | ⟨hex,-⟩)
  · refine ⟨by omega,?_⟩
    intro p hp h256 hk
    obtain ⟨e,he,hpe⟩ := mem_clearedPages.mp hp
    exact ⟨hin p hp,hplaces e he p hpe h256 hk⟩
  · exact absurd hex hwrap

end

def smallBoot : BootInfo :=
  ⟨[⟨0x200000,0x10000,.usable⟩],0x100000,0x1000,bootTotal [⟨0x200000,0x10000,.usable⟩]⟩

theorem smallBoot_sound : InitSound smallBoot := by
  refine (pmmInit_sound_iff smallBoot (by decide) (pairwise_singleton _ _)).mpr
    (.inl ⟨by decide,by decide,?_⟩)
  intro e he p hp _ _ a ha _ hkernel
  obtain rfl : e = ⟨0x200000,0x10000,.usable⟩ := mem_singleton.mp he
  have hfirst : 512 ≤ p := by
    exact (Finset.mem_Ico.mp hp).1
  have hlast : a < 0x100000+0x1000 := hkernel.2
  omega

theorem pmmInit_above_limit :
    ∃ bi : BootInfo, bi.mmap = [⟨0x200000,0x10000,.usable⟩,⟨0x140000000,0x1000,.usable⟩] ∧
      bi.totalMemory = bootTotal bi.mmap ∧ bi.mmap.Pairwise MmapEntry.Apart ∧
      (pmmInit bi).freePages.toNat = 2^64+16-262144 ∧ ¬ InitSound bi := by
  have hbad : ∀ bi, (pmmInit bi).freePages.toNat = 2^64+16-262144 →
      (pmmInit bi).freePages.toNat = 2^64+16-262144 ∧ ¬ InitSound bi := by
    refine fun bi hfree => ⟨hfree,fun hsound => ?_⟩
    have hcount := hsound.counted
    rw [Pmm.Counted,hfree] at hcount
    have hmax := Pmm.clear_card_le (pmmInit bi)
    omega
  exact ⟨⟨[⟨0x200000,0x10000,.usable⟩,⟨0x140000000,0x1000,.usable⟩],0x100000,0x1000,
    bootTotal [⟨0x200000,0x10000,.usable⟩,⟨0x140000000,0x1000,.usable⟩]⟩,rfl,rfl,
    pairwise_pair.mpr (.inl (by decide)),hbad _ (by decide +kernel)⟩

end AevOS.Frames
