import AevOS.BitWords
import AevOS.Common

/-! The page frame allocator of `kernel/mm/pmm.c`: a bitmap of the pages in use and a count of the free
ones. A client holds the runs of pages it was given. -/

namespace AevOS.Frames
open BitWords List
open UInt64 (ofNat toNat_ofNat' reduceToNat toNat_add toNat_one toNat_inj toNat_zero)

def pmmMaxPages : Nat := 2^20

structure Pmm where
  bitmap : Words
  totalPages : UInt64
  freePages : UInt64
  inBitmap : totalPages.toNat ≤ pmmMaxPages

def Pmm.total (s : Pmm) : Nat := s.totalPages.toNat
def Pmm.clear (s : Pmm) : Finset Nat := clearSet s.bitmap s.total

def bmSetRange (start count : UInt64) (b : Words) : Words :=
  setRange start.toNat (min (start+count).toNat pmmMaxPages) b

def bmClearRange (start count : UInt64) (b : Words) : Words :=
  clearRange start.toNat (min (start+count).toNat pmmMaxPages) b

def bmFindFree (s : Pmm) (start count : UInt64) : Option Nat :=
  findRun s.bitmap count.toNat (s.total-start.toNat) start.toNat 0 start.toNat

def bmFindFirstFree (s : Pmm) : Option Nat := findFirstClear s.bitmap s.total ((s.total+63)/64) 0

def pmmAllocPage (s : Pmm) : UInt64 × Pmm :=
  match bmFindFirstFree s with
  | none => (0,s)
  | some page =>
    (ofNat page*pageSize, { s with bitmap := setBit s.bitmap page, freePages := s.freePages-1 })

def pmmAllocPages (count : UInt64) (s : Pmm) : UInt64 × Pmm :=
  if count = 0 then (0,s)
  else if count = 1 then pmmAllocPage s
  else
    match bmFindFree s 0 count with
    | none => (0,s)
    | some start =>
      (ofNat start*pageSize,
        { s with
          bitmap := bmSetRange (ofNat start) count s.bitmap
          freePages := s.freePages-count })

def releasePage (page : UInt64) (s : Pmm) : Pmm :=
  if test s.bitmap page.toNat then
    { s with bitmap := clearBit s.bitmap page.toNat, freePages := s.freePages+1 }
  else s

def pmmFreePage (paddr : UInt64) (s : Pmm) : Pmm :=
  if s.totalPages ≤ paddr/pageSize then s else releasePage (paddr/pageSize) s

def freeLoop : Nat → UInt64 → Pmm → Pmm
  | 0, _, s => s
  | n+1, p, s => if s.totalPages ≤ p then s else freeLoop n (p+1) (releasePage p s)

def pmmFreePages (paddr count : UInt64) (s : Pmm) : Pmm :=
  freeLoop count.toNat (paddr/pageSize) s

def Pmm.Counted (s : Pmm) : Prop := s.freePages.toNat = s.clear.card

structure Taken (s s' : Pmm) (page count : Nat) : Prop where
  inside : page+count ≤ s.total
  free : ClearRun s.bitmap page count
  total : s'.totalPages = s.totalPages
  bits : ∀ i, i < s.total →
    test s'.bitmap i = (decide (page ≤ i ∧ i < page+count) || test s.bitmap i)
  fewer : s'.freePages = s.freePages-ofNat count

theorem Pmm.total_le (s : Pmm) : s.total ≤ 2^20 := s.inBitmap

theorem Pmm.clear_card_le (s : Pmm) : s.clear.card ≤ 2^20 :=
  (clearSet_card_le s.bitmap s.total).trans s.inBitmap

variable {page count : Nat} {paddr : UInt64} {s' : Pmm}

section
variable {s s' : Pmm}

theorem Taken.clear (h : Taken s s' page count) : s'.clear = s.clear \ Finset.Ico page (page+count) := by
  have ht : s'.total = s.total := congrArg UInt64.toNat h.total
  ext i
  rw [Pmm.clear,Pmm.clear,ht,Finset.mem_sdiff,mem_clearSet,mem_clearSet,Finset.mem_Ico]
  constructor
  · rintro ⟨hi,hc⟩
    rw [h.bits i hi,Bool.or_eq_false_iff,decide_eq_false_iff_not] at hc
    exact ⟨⟨hi,hc.2⟩,hc.1⟩
  rintro ⟨⟨hi,hc⟩,hout⟩
  refine ⟨hi,?_⟩
  rw [h.bits i hi,hc,decide_eq_false hout]
  rfl

theorem Taken.subset (h : Taken s s' page count) : Finset.Ico page (page+count) ⊆ s.clear := by
  intro i hi
  rw [Finset.mem_Ico] at hi
  have hin := h.inside
  exact mem_clearSet.mpr ⟨by omega,h.free i hi.1 hi.2⟩

theorem Taken.counted (h : Taken s s' page count) (hs : s.Counted) : s'.Counted := by
  have hsub := h.subset
  have hc : (Finset.Ico page (page+count)).card = count := by
    rw [Nat.card_Ico]
    omega
  have hle := Finset.card_le_card hsub
  have hmax := s.clear_card_le
  have hof : (ofNat count).toNat = count := by
    rw [toNat_ofNat']
    omega
  have hcn : s.freePages.toNat = s.clear.card := hs
  rw [Pmm.Counted,h.fewer,h.clear,Finset.card_sdiff_of_subset hsub,hc,
    UInt64.toNat_sub_of_le _ _ (by rw [UInt64.le_iff_toNat_le,hof]; omega),hof,hcn]

theorem bmFindFirstFree_some (h : bmFindFirstFree s = some page) :
    page < s.total ∧ test s.bitmap page = false := by
  obtain ⟨hs,-⟩ := findFirstClear_spec s.bitmap s.total ((s.total+63)/64) 0 (by omega)
  obtain ⟨-,hlt,hc,-⟩ := hs page h
  exact ⟨hlt,hc⟩

theorem bmFindFirstFree_none (h : bmFindFirstFree s = none) : ∀ i, i < s.total → test s.bitmap i = true := by
  obtain ⟨-,hn⟩ := findFirstClear_spec s.bitmap s.total ((s.total+63)/64) 0 (by omega)
  exact fun i hi => hn h i (Nat.zero_le _) hi

theorem bmFindFree_spec {count : UInt64} (hpos : 0 < count.toNat) :
    (∀ page, bmFindFree s 0 count = some page →
      page+count.toNat ≤ s.total ∧ ClearRun s.bitmap page count.toNat) ∧ (bmFindFree s 0 count = none →
      ∀ page, page+count.toNat ≤ s.total → ¬ ClearRun s.bitmap page count.toNat) := by
  obtain ⟨hs,hnn⟩ := findRun_spec 0 s.total 0 0 0 hpos rfl
    (fun i _ hi => by omega) (Nat.le_refl 0) (fun i _ hi => by omega) (fun h => by omega)
  rw [Nat.zero_add] at hs hnn
  exact ⟨fun page hp => (hs page hp).2,fun hn page hle => hnn hn page (Nat.zero_le _) hle⟩

theorem page_addr (h : page < 2^20) : (ofNat page*pageSize).toNat = page*4096 := by
  rw [UInt64.toNat_mul,toNat_ofNat',pageSize]
  simp only [reduceToNat]
  omega

theorem addr_page (paddr : UInt64) : (paddr/pageSize).toNat = paddr.toNat/4096 := by
  rw [UInt64.toNat_div,pageSize]
  simp only [reduceToNat]

theorem pmmAllocPage_cases (s : Pmm) :
    (∃ page, (pmmAllocPage s).1.toNat = page*4096 ∧ Taken s (pmmAllocPage s).2 page 1) ∨
      (pmmAllocPage s = (0,s) ∧ ∀ i, i < s.total → test s.bitmap i = true) := by
  rw [pmmAllocPage]
  cases hf : bmFindFirstFree s with
  | none => exact .inr ⟨rfl,bmFindFirstFree_none hf⟩
  | some page =>
    obtain ⟨hlt,hc⟩ := bmFindFirstFree_some hf
    have hmax := s.total_le
    refine .inl ⟨page,page_addr (by omega),hlt,?_,rfl,?_,rfl⟩
    · intro i hi hi'
      obtain rfl : i = page := by omega
      exact hc
    intro i _
    rw [test_setBit]
    congr 2
    rw [eq_iff_iff]
    omega

theorem bmSetRange_bits (start count : UInt64) (b : Words) (i : Nat)
    (hfit : start.toNat+count.toNat ≤ 2^20) : test (bmSetRange start count b) i =
      (decide (start.toNat ≤ i ∧ i < start.toNat+count.toNat) || test b i) := by
  have hsum : (start+count).toNat = start.toNat+count.toNat := by
    rw [toNat_add]
    omega
  rw [bmSetRange,test_setRange,hsum,pmmMaxPages,min_eq_left (by omega)]

theorem pmmAllocPages_cases (count : UInt64) (hpos : 0 < count.toNat) (s : Pmm) :
    (∃ page, (pmmAllocPages count s).1.toNat = page*4096 ∧
      Taken s (pmmAllocPages count s).2 page count.toNat) ∨ (pmmAllocPages count s = (0,s) ∧
      ∀ page, page+count.toNat ≤ s.total → ¬ ClearRun s.bitmap page count.toNat) := by
  have hne : count ≠ 0 := by
    rintro rfl
    exact absurd hpos (by decide)
  rw [pmmAllocPages,if_neg hne]
  by_cases hone : count = 1
  · subst hone
    rcases pmmAllocPage_cases s with hs | ⟨hn,hall⟩
    · exact .inl hs
    refine .inr ⟨hn,?_⟩
    intro page hle hrun
    have hbit := hrun page (le_refl _) (Nat.lt_succ_self _)
    rw [hall page (by omega)] at hbit
    exact Bool.noConfusion hbit
  rw [if_neg hone]
  obtain ⟨hs,hn⟩ := bmFindFree_spec (s := s) hpos
  cases hf : bmFindFree s 0 count with
  | none => exact .inr ⟨rfl,hn hf⟩
  | some page =>
    obtain ⟨hle,hrun⟩ := hs page hf
    have hmax := s.total_le
    have hof : (ofNat page).toNat = page := by
      rw [toNat_ofNat']
      omega
    refine .inl ⟨page,page_addr (by omega),hle,hrun,rfl,?_,?_⟩
    · intro i _
      have hb := bmSetRange_bits (ofNat page) count s.bitmap i (by rw [hof]; omega)
      rw [hof] at hb
      exact hb
    · rw [UInt64.ofNat_toNat]

structure Given (s s' : Pmm) (page count : Nat) : Prop where
  total : s'.totalPages = s.totalPages
  bits : ∀ i, test s'.bitmap i = (!decide (page ≤ i ∧ i < page+count) && test s.bitmap i)
  more : s'.freePages = s.freePages+ofNat count

theorem freeLoop_given (n : Nat) {p : UInt64} (hfit : p.toNat+n ≤ s.total)
    (hu : ∀ i, p.toNat ≤ i → i < p.toNat+n → test s.bitmap i = true) :
    Given s (freeLoop n p s) p.toNat n := by
  induction n generalizing p s with
  | zero =>
    refine ⟨rfl,fun i => ?_,?_⟩
    · rw [decide_eq_false (by omega)]
      rfl
    · exact (UInt64.add_zero _).symm
  | succ n ih =>
    have hmax := s.total_le
    have hlt : ¬ s.totalPages ≤ p := by
      rw [UInt64.le_iff_toNat_le]
      have ht : s.total = s.totalPages.toNat := rfl
      omega
    have hp1 : (p+1).toNat = p.toNat+1 := by
      rw [toNat_add,toNat_one]
      omega
    have hbit := hu p.toNat (le_refl _) (by omega)
    rw [freeLoop,if_neg hlt,releasePage,if_pos hbit]
    have hr := ih (s := { s with bitmap := clearBit s.bitmap p.toNat, freePages := s.freePages+1 })
      (p := p+1) (by rw [hp1]; exact (by omega : p.toNat+1+n ≤ s.total))
      (fun i hi hi' => by
        rw [test_clearBit,decide_eq_false (by omega),hu i (by omega) (by omega)]
        rfl)
    refine ⟨hr.total,?_,?_⟩
    · intro i
      rw [hr.bits i,test_clearBit,Bool.eq_iff_iff]
      simp only [Bool.and_eq_true,Bool.not_eq_true',decide_eq_false_iff_not]
      constructor
      · rintro ⟨h1,h2,h3⟩
        exact ⟨by omega,h3⟩
      · rintro ⟨h1,h2⟩
        exact ⟨by omega,by omega,h2⟩
    rw [hr.more]
    apply toNat_inj.mp
    simp only [toNat_add,toNat_one,toNat_ofNat']
    omega

theorem pmmFreePage_given (hfit : paddr.toNat/4096 < s.total) (hu : test s.bitmap (paddr.toNat/4096) = true) :
    Given s (pmmFreePage paddr s) (paddr.toNat/4096) 1 := by
  have hg := freeLoop_given (s := s) 1 (p := paddr/pageSize) (by rw [addr_page]; exact hfit)
    (fun i hi hi' => by
      rw [addr_page] at hi hi'
      obtain rfl : i = paddr.toNat/4096 := by omega
      exact hu)
  exact hg

theorem pmmFreePages_given {paddr count : UInt64} (hfit : paddr.toNat/4096+count.toNat ≤ s.total)
    (hu : ∀ i, paddr.toNat/4096 ≤ i → i < paddr.toNat/4096+count.toNat → test s.bitmap i = true) :
    Given s (pmmFreePages paddr count s) (paddr.toNat/4096) count.toNat := by
  have hg := freeLoop_given (s := s) count.toNat (p := paddr/pageSize)
    (by rw [addr_page]; exact hfit) (by rw [addr_page]; exact hu)
  exact hg

theorem Given.clear (h : Given s s' page count) (hfit : page+count ≤ s.total) :
    s'.clear = s.clear ∪ Finset.Ico page (page+count) := by
  have ht : s'.total = s.total := congrArg UInt64.toNat h.total
  ext i
  rw [Pmm.clear,Pmm.clear,ht,Finset.mem_union,mem_clearSet,mem_clearSet,Finset.mem_Ico,
    h.bits i,Bool.and_eq_false_iff,Bool.not_eq_false',decide_eq_true_eq]
  constructor
  · tauto
  · rintro (hold | hnew)
    · exact ⟨hold.1,.inr hold.2⟩
    · exact ⟨by omega,.inl hnew⟩

theorem Given.counted (h : Given s s' page count) (hfit : page+count ≤ s.total)
    (hu : ∀ i, page ≤ i → i < page+count → test s.bitmap i = true) (hs : s.Counted) : s'.Counted := by
  have hd : Disjoint s.clear (Finset.Ico page (page+count)) := by
    rw [Finset.disjoint_left]
    intro i hi hmem
    rw [Finset.mem_Ico] at hmem
    have hc := (mem_clearSet.mp hi).2
    rw [hu i hmem.1 hmem.2] at hc
    exact Bool.noConfusion hc
  have hcr : s'.clear.card = s.clear.card+count := by
    rw [h.clear hfit,Finset.card_union_of_disjoint hd,Nat.card_Ico]
    omega
  have hmax := s.total_le
  have hle := s.clear_card_le
  have hcn : s.freePages.toNat = s.clear.card := hs
  rw [Pmm.Counted,h.more,hcr,toNat_add,toNat_ofNat',hcn]
  omega

end

abbrev Run := UInt64 × UInt64

def Run.pages (r : Run) : Finset Nat :=
  Finset.Ico (r.1.toNat/4096) (r.1.toNat/4096+r.2.toNat)

structure Client where
  pmm : Pmm
  runs : List Run

inductive Op where
  | allocPage
  | allocPages (count : UInt64)
  | free (k : Nat) (single : Bool)
  deriving DecidableEq

def keep (r : UInt64 × Pmm) (count : UInt64) (runs : List Run) : Client :=
  ⟨r.2,if r.1 = 0 then runs else (r.1,count) :: runs⟩

def step (c : Client) : Op → Client
  | .allocPage => keep (pmmAllocPage c.pmm) 1 c.runs
  | .allocPages count => keep (pmmAllocPages count c.pmm) count c.runs
  | .free k single =>
    match c.runs[k]? with
    | none => c
    | some r =>
      ⟨if single = true ∧ r.2 = 1 then pmmFreePage r.1 c.pmm else pmmFreePages r.1 r.2 c.pmm,
        c.runs.eraseIdx k⟩

def run (ops : List Op) (c : Client) : Client := ops.foldl step c

structure Client.Sane (c : Client) : Prop where
  zero : test c.pmm.bitmap 0 = true
  counted : c.pmm.Counted
  nonzero : ∀ r ∈ c.runs, 0 ∉ Run.pages r
  inside : ∀ r ∈ c.runs, r.1.toNat/4096+r.2.toNat ≤ c.pmm.total
  used : ∀ r ∈ c.runs, ∀ i ∈ Run.pages r, test c.pmm.bitmap i = true
  apart : c.runs.Pairwise (fun r r' => Disjoint (Run.pages r) (Run.pages r'))

theorem ClearRun.pos {b : Words} (h : ClearRun b page count) (hpos : 0 < count)
    (hzr : test b 0 = true) : 0 < page := by
  by_contra hz
  have hbit := h 0 (by omega) (by omega)
  rw [hzr] at hbit
  exact Bool.noConfusion hbit

variable {r : Run}

section
variable {c : Client}

section
variable (h : c.Sane)
include h

theorem Client.Sane.disjoint (ht : Taken c.pmm s' page count) (hr : r ∈ c.runs) :
    Disjoint (Run.pages r) (Finset.Ico page (page+count)) := by
  rw [Finset.disjoint_left]
  intro i hi hmem
  rw [Finset.mem_Ico] at hmem
  have hc := ht.free i hmem.1 hmem.2
  rw [h.used r hr i hi] at hc
  exact Bool.noConfusion hc

theorem Client.Sane.take {a : UInt64} {count : UInt64} (hpos : 0 < count.toNat)
    (ha : a.toNat = page*4096) (ht : Taken c.pmm s' page count.toNat) :
    a ≠ 0 ∧ (⟨s',(a,count) :: c.runs⟩ : Client).Sane := by
  have hpg : 0 < page := ClearRun.pos ht.free hpos h.zero
  have hdiv : a.toNat/4096 = page := by omega
  have hp : Run.pages (a,count) = Finset.Ico page (page+count.toNat) := by
    rw [Run.pages,hdiv]
  have hin := ht.inside
  have htt : s'.total = c.pmm.total := congrArg UInt64.toNat ht.total
  have hb : ∀ i, i < c.pmm.total → test c.pmm.bitmap i = true → test s'.bitmap i = true := by
    intro i hi hbit
    rw [ht.bits i hi,hbit,Bool.or_true]
  refine ⟨fun hz => ?_,?_,ht.counted h.counted,?_,?_,?_,?_⟩
  · rw [hz] at ha
    simp only [toNat_zero] at ha
    omega
  · exact hb 0 (by omega) h.zero
  · refine forall_mem_cons.mpr ⟨?_,h.nonzero⟩
    rw [hp,Finset.mem_Ico]
    omega
  · rw [htt]
    refine forall_mem_cons.mpr ⟨?_,h.inside⟩
    rw [hdiv]
    exact hin
  · refine forall_mem_cons.mpr ⟨?_,?_⟩
    · intro i hi
      rw [hp,Finset.mem_Ico] at hi
      rw [ht.bits i (by omega),decide_eq_true hi]
      rfl
    intro r hr i hi
    have hlt : i < c.pmm.total := by
      have hie := h.inside r hr
      rw [Run.pages,Finset.mem_Ico] at hi
      omega
    exact hb i hlt (h.used r hr i hi)
  refine pairwise_cons.mpr ⟨?_,h.apart⟩
  intro r hr
  rw [hp]
  exact (h.disjoint ht hr).symm

theorem Client.Sane.give {k : Nat} (hk : c.runs[k]? = some r)
    (hg : Given c.pmm s' (r.1.toNat/4096) r.2.toNat) : (⟨s',c.runs.eraseIdx k⟩ : Client).Sane := by
  have hr := mem_of_getElem? hk
  have hold : ∀ x ∈ c.runs.eraseIdx k, x ∈ c.runs := fun x hx => mem_of_mem_eraseIdx hx
  have ht : s'.total = c.pmm.total := congrArg UInt64.toNat hg.total
  have hmem : ∀ i, i ∈ Run.pages r ↔ r.1.toNat/4096 ≤ i ∧ i < r.1.toNat/4096+r.2.toNat :=
    fun i => Finset.mem_Ico
  -- the run given back is apart from every run that is kept
  have ha : ∀ x ∈ c.runs.eraseIdx k, Disjoint (Run.pages x) (Run.pages r) := by
    obtain ⟨hlt,rfl⟩ := List.getElem?_eq_some_iff.mp hk
    have hp := getElem_cons_eraseIdx_perm hlt
    have hpr := (hp.pairwise_iff (fun h => Disjoint.symm h)).mpr h.apart
    exact fun x hx => ((pairwise_cons.mp hpr).1 x hx).symm
  refine ⟨?_,?_,fun x hx => h.nonzero x (hold x hx),?_,?_,h.apart.sublist (eraseIdx_sublist _ _)⟩
  · have hz := h.nonzero r hr
    rw [hmem] at hz
    rw [hg.bits,h.zero,decide_eq_false hz]
    rfl
  · refine hg.counted (h.inside r hr) (fun i hi hi' => h.used r hr i ((hmem i).mpr ⟨hi,hi'⟩)) h.counted
  · rw [ht]
    exact fun x hx => h.inside x (hold x hx)
  intro x hx i hi
  have hnot : ¬ (r.1.toNat/4096 ≤ i ∧ i < r.1.toNat/4096+r.2.toNat) := by
    rw [← hmem]
    exact Finset.disjoint_left.mp (ha x hx) hi
  rw [hg.bits,decide_eq_false hnot,h.used x (hold x hx) i hi]
  rfl

theorem Client.Sane.keep {r : UInt64 × Pmm} (count : UInt64) (hpos : 0 < count.toNat)
    (hr : (∃ page, r.1.toNat = page*4096 ∧ Taken c.pmm r.2 page count.toNat) ∨ r = (0,c.pmm)) :
    (keep r count c.runs).Sane := by
  rcases hr with ⟨page,ha,ht⟩ | rfl
  · obtain ⟨hne,hs⟩ := h.take hpos ha ht
    rw [Frames.keep,if_neg hne]
    exact hs
  · exact h

theorem Client.Sane.step (o : Op) : (step c o).Sane := by
  cases o with
  | allocPage =>
    refine h.keep 1 (by decide) ?_
    rcases pmmAllocPage_cases c.pmm with hs | ⟨hn,-⟩
    · exact .inl hs
    · exact .inr hn
  | allocPages count =>
    rcases Nat.eq_zero_or_pos count.toNat with hz | hpos
    · have hzr : count = 0 := toNat_inj.mp hz
      subst hzr
      exact h
    refine h.keep count hpos ?_
    rcases pmmAllocPages_cases count hpos c.pmm with hs | ⟨hn,-⟩
    · exact .inl hs
    · exact .inr hn
  | free k single =>
    rw [Frames.step]
    cases hk : c.runs[k]? with
    | none => exact h
    | some r =>
      have hr := mem_of_getElem? hk
      have hu : ∀ i, r.1.toNat/4096 ≤ i → i < r.1.toNat/4096+r.2.toNat →
          test c.pmm.bitmap i = true :=
        fun i hi hi' => h.used r hr i (Finset.mem_Ico.mpr ⟨hi,hi'⟩)
      refine h.give hk ?_
      split
      · rename_i hone
        have hin := h.inside r hr
        rw [hone.2,toNat_one] at hin hu ⊢
        exact pmmFreePage_given (by omega) (hu _ (le_refl _) (by omega))
      · exact pmmFreePages_given (h.inside r hr) hu

theorem Client.Sane.run (ops : List Op) : (run ops c).Sane := by
  induction ops generalizing c with
  | nil => exact h
  | cons o ops ih => exact ih (h.step o)

end

end

/-- A granted run was clear and held by nobody; a refusal means there is no such run. -/
structure Answer (c : Client) (count : Nat) (r : UInt64 × Pmm) : Prop where
  granted : r.1 ≠ 0 → ∃ page, r.1.toNat = page*4096 ∧ page+count ≤ c.pmm.total ∧
    ClearRun c.pmm.bitmap page count ∧
    ∀ x ∈ c.runs, Disjoint (Run.pages x) (Finset.Ico page (page+count))
  refused : r.1 = 0 → 0 < count →
    ∀ page, page+count ≤ c.pmm.total → ¬ ClearRun c.pmm.bitmap page count

theorem Client.Sane.answer {c : Client} (h : c.Sane) (count : Nat) {r : UInt64 × Pmm} (hpos : 0 < count)
    (hr : (∃ page, r.1.toNat = page*4096 ∧ Taken c.pmm r.2 page count) ∨
      (r = (0,c.pmm) ∧ ∀ page, page+count ≤ c.pmm.total → ¬ ClearRun c.pmm.bitmap page count)) :
    Answer c count r := by
  rcases hr with ⟨page,ha,ht⟩ | ⟨rfl,hn⟩
  · refine ⟨fun _ => ⟨page,ha,ht.inside,ht.free,fun x hx => h.disjoint ht hx⟩,?_⟩
    intro hz
    have hp : 0 < page := ClearRun.pos ht.free hpos h.zero
    rw [hz,toNat_zero] at ha
    omega
  · exact ⟨fun hne => absurd rfl hne,fun _ _ => hn⟩

theorem run_allocates (s : Pmm) (hzero : test s.bitmap 0 = true) (hcount : s.Counted)
    (ops : List Op) :
    (run ops ⟨s,[]⟩).pmm.Counted ∧
      (run ops ⟨s,[]⟩).runs.Pairwise (fun r r' => Disjoint (Run.pages r) (Run.pages r')) ∧
      Answer (run ops ⟨s,[]⟩) 1 (pmmAllocPage (run ops ⟨s,[]⟩).pmm) ∧
      ∀ count : UInt64,
        Answer (run ops ⟨s,[]⟩) count.toNat (pmmAllocPages count (run ops ⟨s,[]⟩).pmm) := by
  have hstart : (⟨s,[]⟩ : Client).Sane :=
    ⟨hzero,hcount,fun r hr => absurd hr not_mem_nil,fun r hr => absurd hr not_mem_nil,
      fun r hr => absurd hr not_mem_nil,Pairwise.nil⟩
  have h := hstart.run ops
  generalize run ops ⟨s,[]⟩ = c at h
  refine ⟨h.counted,h.apart,?_,?_⟩
  · have hanswer := pmmAllocPages_cases 1 (by decide) c.pmm
    exact h.answer 1 (by decide) hanswer
  intro count
  rcases Nat.eq_zero_or_pos count.toNat with hz | hpos
  · have hzero : count = 0 := toNat_inj.mp hz
    subst hzero
    exact ⟨fun hne => absurd rfl hne,fun _ hpos => absurd hpos (by decide)⟩
  · exact h.answer count.toNat hpos (pmmAllocPages_cases count hpos c.pmm)

theorem run_allocates_four : (run [.allocPages 2,.free 0 false,.allocPages 3]
    ⟨⟨fun _ => 1#64,4,3,by decide⟩,[]⟩).pmm.Counted :=
  (run_allocates ⟨fun _ => 1#64,4,3,by decide⟩ (by decide)
    (show (3 : UInt64).toNat = (clearSet (fun _ => 1#64) 4).card by decide) _).1

end AevOS.Frames
