import AevOS.PmmInit

/-! What the boot loader leaves for the kernel (`boot/efi_main.c`), and the pages that can be handed
out after `pmm_init`. -/

namespace AevOS.Frames
open BitWords List

def efiLoaderCode : UInt32 := 1
def efiLoaderData : UInt32 := 2
def efiBootServicesCode : UInt32 := 3
def efiBootServicesData : UInt32 := 4
def efiConventionalMemory : UInt32 := 7
def efiAcpiReclaimMemory : UInt32 := 9
def efiAcpiMemoryNvs : UInt32 := 10

structure EfiDescriptor where
  type : UInt32
  physicalStart : UInt64
  numberOfPages : UInt64
  aligned : 4096 ∣ physicalStart.toNat

def efiToAevosMemtype (type : UInt32) : MmapType :=
  if type = efiConventionalMemory ∨ type = efiBootServicesCode ∨ type = efiBootServicesData ∨ type = efiLoaderCode ∨
    type = efiLoaderData then .usable
  else if type = efiAcpiReclaimMemory then .acpiReclaim
  else if type = efiAcpiMemoryNvs then .acpiNvs
  else .reserved

def mmapMaxEntries : Nat := 256

def EfiDescriptor.entry (d : EfiDescriptor) : MmapEntry :=
  ⟨d.physicalStart,d.numberOfPages*4096,efiToAevosMemtype d.type⟩

def MmapEntry.HoldsKernel (lo hi : UInt64) (e : MmapEntry) : Prop := e.base ≤ lo ∧ hi ≤ e.base+e.length
  deriving Decidable

def markKernel (lo hi : UInt64) : List MmapEntry → List MmapEntry
  | [] => []
  | e :: es => if e.HoldsKernel lo hi then { e with type := .kernel } :: es else e :: markKernel lo hi es

def efiBootInfo (map : List EfiDescriptor) (lo hi : UInt64) : BootInfo :=
  let entries := (map.take mmapMaxEntries).map EfiDescriptor.entry
  ⟨markKernel lo hi entries,lo,hi-lo,bootTotal entries⟩

def sizeofBootInfo : Nat := 5236
def ptPages : Nat := 6

structure Placement where
  biPhys : UInt64
  ptBase : Option UInt64

def Placement.Touches (w : Placement) (p : Nat) : Prop :=
  (∃ a, w.biPhys.toNat ≤ a ∧ a < w.biPhys.toNat+sizeofBootInfo ∧ a/4096 = p) ∨
    ∃ pt, w.ptBase = some pt ∧ ∃ a, pt.toNat ≤ a ∧ a < pt.toNat+ptPages*4096 ∧ a/4096 = p

structure Client.From (S : Finset Nat) (c : Client) : Prop where
  free : c.pmm.clear ⊆ S
  held : ∀ r ∈ c.runs, Run.pages r ⊆ S

variable {s : Pmm} {p : Nat} {e : MmapEntry} {es : List MmapEntry}

section
variable {S : Finset Nat} {c : Client}

theorem releasePage_bits {page : UInt64} {i : Nat} (h : test (releasePage page s).bitmap i = false) :
    test s.bitmap i = false ∨ i = page.toNat := by
  unfold releasePage at h
  split at h
  · rw [test_clearBit,Bool.and_eq_false_iff,Bool.not_eq_false',decide_eq_true_eq] at h
    exact h.symm
  · exact .inl h

theorem releasePage_total (page : UInt64) (s : Pmm) : (releasePage page s).totalPages = s.totalPages := by
  unfold releasePage
  split <;> rfl

theorem freeLoop_bits (n : Nat) (p : UInt64) (s : Pmm) :
    (freeLoop n p s).totalPages = s.totalPages ∧ ∀ i, test (freeLoop n p s).bitmap i = false →
      test s.bitmap i = false ∨ p.toNat ≤ i ∧ i < p.toNat+n := by
  induction n generalizing p s with
  | zero => exact ⟨rfl,fun i h => .inl h⟩
  | succ n ih =>
    rw [freeLoop]
    split
    · exact ⟨rfl,fun i h => .inl h⟩
    rename_i hlt
    have hbn := UInt64.lt_iff_toNat_lt.mp (UInt64.not_le.mp hlt)
    have hmax : s.totalPages.toNat ≤ 2^20 := s.total_le
    have hn : (p+1).toNat = p.toNat+1 := by
      rw [UInt64.toNat_add,UInt64.toNat_one]
      omega
    obtain ⟨ht,hb⟩ := ih (p+1) (releasePage p s)
    refine ⟨ht.trans (releasePage_total p s),?_⟩
    intro i h
    rcases hb i h with hold | hr
    · rcases releasePage_bits hold with hold | hp
      · exact .inl hold
      · exact .inr (by omega)
    · exact .inr (by omega)

theorem pmmFreePage_bits (a : UInt64) (s : Pmm) :
    (pmmFreePage a s).totalPages = s.totalPages ∧ ∀ i, test (pmmFreePage a s).bitmap i = false →
      test s.bitmap i = false ∨ a.toNat/4096 ≤ i ∧ i < a.toNat/4096+1 := by
  unfold pmmFreePage
  split
  · exact ⟨rfl,fun i h => .inl h⟩
  refine ⟨releasePage_total _ _,fun i h => ?_⟩
  rcases releasePage_bits h with hold | hp
  · exact .inl hold
  · rw [addr_page] at hp
    exact .inr (by omega)

theorem Client.From.give (h : c.From S) {r : Run} (hr : Run.pages r ⊆ S) {s' : Pmm} {runs : List Run}
    (hrn : ∀ x ∈ runs, x ∈ c.runs) (ht : s'.totalPages = c.pmm.totalPages)
    (hb : ∀ i, test s'.bitmap i = false → test c.pmm.bitmap i = false ∨
      r.1.toNat/4096 ≤ i ∧ i < r.1.toNat/4096+r.2.toNat) : (⟨s',runs⟩ : Client).From S := by
  refine ⟨?_,fun x hx => h.held x (hrn x hx)⟩
  intro i hi
  have ht' : s'.total = c.pmm.total := congrArg UInt64.toNat ht
  obtain ⟨hlt,hc⟩ := mem_clearSet.mp hi
  rcases hb i hc with hold | hrg
  · exact h.free (mem_clearSet.mpr ⟨ht' ▸ hlt,hold⟩)
  · exact hr (Finset.mem_Ico.mpr hrg)

theorem Client.From.keep (h : c.From S) {r : UInt64 × Pmm} {count : UInt64}
    (hr : (∃ page, r.1.toNat = page*4096 ∧ Taken c.pmm r.2 page count.toNat) ∨ r = (0,c.pmm)) :
    (keep r count c.runs).From S := by
  rcases hr with ⟨page,ha,ht⟩ | rfl
  · have hdiv : r.1.toNat/4096 = page := by omega
    have hf : r.2.clear ⊆ S := by
      rw [ht.clear]
      exact Finset.sdiff_subset.trans h.free
    unfold Frames.keep
    split
    · exact ⟨hf,h.held⟩
    · refine ⟨hf,forall_mem_cons.mpr ⟨?_,h.held⟩⟩
      rw [Run.pages,hdiv]
      exact ht.subset.trans h.free
  · unfold Frames.keep
    exact h

theorem Client.From.step (h : c.From S) (o : Op) : (step c o).From S := by
  cases o with
  | allocPage =>
    refine h.keep ?_
    rcases pmmAllocPage_cases c.pmm with hs | ⟨hn,_⟩
    · exact .inl hs
    · exact .inr hn
  | allocPages count =>
    rcases Nat.eq_zero_or_pos count.toNat with hz | hpos
    · have hzr : count = 0 := UInt64.toNat_inj.mp hz
      subst hzr
      exact h
    refine h.keep ?_
    rcases pmmAllocPages_cases count hpos c.pmm with hs | ⟨hn,_⟩
    · exact .inl hs
    · exact .inr hn
  | free k single =>
    rw [Frames.step]
    cases hk : c.runs[k]? with
    | none => exact h
    | some r =>
      have hr := h.held r (mem_of_getElem? hk)
      have hrn : ∀ x ∈ c.runs.eraseIdx k, x ∈ c.runs := fun x hx => mem_of_mem_eraseIdx hx
      by_cases hone : single = true ∧ r.2 = 1
      · have hb := pmmFreePage_bits r.1 c.pmm
        have hc : r.2.toNat = 1 := by rw [hone.2]; rfl
        simp only [if_pos hone]
        exact h.give hr hrn hb.1 (by rw [hc]; exact hb.2)
      have hb := freeLoop_bits r.2.toNat (r.1/pageSize) c.pmm
      simp only [if_neg hone]
      exact h.give hr hrn hb.1 hb.2

theorem Client.From.run (h : c.From S) (ops : List Op) : (run ops c).From S := by
  induction ops generalizing c with
  | nil => exact h
  | cons o ops ih => exact ih (h.step o)

theorem free_page_returned (n : Nat) (hn : s.clear.card ≤ n) (hz : 0 ∉ s.clear)
    (hp : p ∈ s.clear) (runs : List Run) : ∃ ops, ∃ r ∈ (run ops ⟨s,runs⟩).runs, p ∈ Run.pages r := by
  induction n generalizing s runs with
  | zero =>
    rw [Nat.le_zero,Finset.card_eq_zero] at hn
    rw [hn] at hp
    exact absurd hp (Finset.notMem_empty p)
  | succ n ih =>
    rcases pmmAllocPage_cases s with ⟨page,ha,ht⟩ | ⟨_,hnn⟩
    · have hmem : page ∈ s.clear := ht.subset (Finset.mem_Ico.mpr ⟨le_refl _,Nat.lt_succ_self _⟩)
      have hpa : page ≠ 0 := fun h => hz (h ▸ hmem)
      have hne : (pmmAllocPage s).1 ≠ 0 := by
        intro h
        rw [h,UInt64.toNat_zero] at ha
        omega
      have hpg : Run.pages ((pmmAllocPage s).1,1) = Finset.Ico page (page+1) := by
        rw [Run.pages,ha,UInt64.toNat_one,Nat.mul_div_cancel _ (by decide)]
      have hs : step ⟨s,runs⟩ .allocPage = ⟨(pmmAllocPage s).2,((pmmAllocPage s).1,1) :: runs⟩ := by
        rw [step,keep,if_neg hne]
      by_cases heq : p = page
      · refine ⟨[.allocPage],((pmmAllocPage s).1,1),?_,?_⟩
        · show _ ∈ (step ⟨s,runs⟩ .allocPage).runs
          rw [hs]
          exact mem_cons_self
        · rw [hpg,heq,Finset.mem_Ico]
          omega
      have hcr : (pmmAllocPage s).2.clear.card ≤ n := by
        rw [ht.clear,Finset.card_sdiff_of_subset ht.subset,Nat.card_Ico]
        omega
      have hc : ∀ i, i ∈ (pmmAllocPage s).2.clear ↔ i ∈ s.clear ∧ i ≠ page := by
        intro i
        rw [ht.clear,Finset.mem_sdiff,Finset.mem_Ico]
        exact and_congr_right fun _ => by omega
      obtain ⟨ops,r,hr,hpr⟩ := ih hcr (fun h => hz ((hc 0).mp h).1) ((hc p).mpr ⟨hp,heq⟩)
        (((pmmAllocPage s).1,1) :: runs)
      refine ⟨.allocPage :: ops,r,?_,hpr⟩
      show r ∈ (run ops (step ⟨s,runs⟩ .allocPage)).runs
      rw [hs]
      exact hr
    · obtain ⟨hlt,hc⟩ := mem_clearSet.mp hp
      rw [hnn p hlt] at hc
      cases hc

end

theorem returned_iff_free (hz : 0 ∉ s.clear) (p : Nat) :
    (∃ ops, ∃ r ∈ (run ops ⟨s,[]⟩).runs, p ∈ Run.pages r) ↔ p ∈ s.clear := by
  constructor
  · rintro ⟨ops,r,hr,hp⟩
    have hs : (⟨s,[]⟩ : Client).From s.clear := ⟨Finset.Subset.refl _,fun r hr => absurd hr not_mem_nil⟩
    exact (hs.run ops).held r hr hp
  · exact fun hp => free_page_returned s.clear.card (le_refl _) hz hp []

def MmapEntry.Ends (e : MmapEntry) : Prop := e.base.toNat+e.length.toNat < 2^64
  deriving Decidable

theorem freeRegion_skips (ha : 4096 ∣ e.base.toNat) (he : ¬ e.Ends) (s : Pmm) : freeRegion s e = s := by
  have hlen := e.length.toNat_lt
  have hb := e.base.toNat_lt
  have ho : 2^64 ≤ e.base.toNat+e.length.toNat := Nat.le_of_not_lt he
  have hsum : (e.base+e.length).toNat = e.base.toNat+e.length.toNat-2^64 := by
    rw [UInt64.toNat_add]
    omega
  have hle : alignDown (e.base+e.length) pageSize ≤ alignUp e.base pageSize := by
    rw [UInt64.le_iff_toNat_le,alignDown_toNat,alignUp_toNat,hsum]
    omega
  unfold freeRegion
  rw [if_pos hle,ite_self]

theorem pmmInit_filter {bi : BootInfo} (ha : ∀ e ∈ bi.mmap, 4096 ∣ e.base.toNat) :
    pmmInit bi = pmmInit { bi with mmap := bi.mmap.filter fun e => decide e.Ends } := by
  have hf : ∀ es : List MmapEntry, (∀ e ∈ es, 4096 ∣ e.base.toNat) → ∀ s,
      es.foldl freeRegion s = (es.filter fun e => decide e.Ends).foldl freeRegion s := by
    intro es
    induction es with
    | nil => exact fun _ _ => rfl
    | cons e es ih =>
      intro hes s
      obtain ⟨he,hes⟩ := forall_mem_cons.mp hes
      by_cases hen : e.Ends
      · rw [filter_cons_of_pos (by simpa using hen),foldl_cons,foldl_cons]
        exact ih hes _
      · rw [filter_cons_of_neg (by simpa using hen),foldl_cons,freeRegion_skips he hen]
        exact ih hes s
  unfold pmmInit
  rw [hf bi.mmap ha]
  rfl

theorem markKernel_mem {lo hi : UInt64} (hu : e.type = .usable) :
    e ∈ markKernel lo hi es ↔ ∃ before behind, es = before ++ e :: behind ∧
      ¬ (e.HoldsKernel lo hi ∧ ∀ b ∈ before, ¬ b.HoldsKernel lo hi) := by
  induction es with
  | nil => simp [markKernel]
  | cons f es ih =>
    rw [markKernel]
    by_cases hf : f.HoldsKernel lo hi
    · rw [if_pos hf,mem_cons]
      constructor
      · rintro (rfl | hmem)
        · cases hu
        · obtain ⟨before,behind,rfl⟩ := append_of_mem hmem
          exact ⟨f :: before,behind,rfl,fun h => h.2 f mem_cons_self hf⟩
      rintro ⟨before,behind,hs,hnot⟩
      cases before with
      | nil =>
        obtain ⟨rfl,rfl⟩ := cons.inj hs
        exact absurd ⟨hf,fun b hb => absurd hb not_mem_nil⟩ hnot
      | cons b before =>
        obtain ⟨rfl,rfl⟩ := cons.inj hs
        exact .inr (mem_append_right _ mem_cons_self)
    rw [if_neg hf,mem_cons,ih]
    constructor
    · rintro (rfl | ⟨before,behind,rfl,hnot⟩)
      · exact ⟨[],es,rfl,fun h => hf h.1⟩
      · exact ⟨f :: before,behind,rfl,fun h => hnot ⟨h.1,fun b hb => h.2 b (mem_cons_of_mem _ hb)⟩⟩
    rintro ⟨before,behind,hs,hnot⟩
    cases before with
    | nil => exact .inl (cons.inj hs).1.symm
    | cons b before =>
      obtain ⟨rfl,rfl⟩ := cons.inj hs
      refine .inr ⟨before,behind,rfl,fun h => hnot ⟨h.1,?_⟩⟩
      exact forall_mem_cons.mpr ⟨hf,h.2⟩

theorem le_bootTotal (he : e ∈ es) : e.base+e.length ≤ bootTotal es := by
  have hg : ∀ (es : List MmapEntry) (t : UInt64),
      t ≤ es.foldl (fun t e => if t < e.base+e.length then e.base+e.length else t) t := by
    intro es
    induction es with
    | nil => exact fun t => UInt64.le_refl t
    | cons f es ih =>
      intro t
      rw [foldl_cons]
      refine UInt64.le_trans ?_ (ih _)
      split
      · exact UInt64.le_of_lt (by assumption)
      · exact UInt64.le_refl t
  obtain ⟨before,behind,rfl⟩ := append_of_mem he
  unfold bootTotal
  rw [List.foldl_append,foldl_cons]
  refine UInt64.le_trans ?_ (hg behind _)
  split
  · exact UInt64.le_refl _
  · exact UInt64.not_lt.mp (by assumption)

def Offered (map : List EfiDescriptor) (lo hi : UInt64) (p : Nat) : Prop :=
  ∃ before d behind, map.take mmapMaxEntries = before ++ d :: behind ∧ d.entry.type = .usable ∧ d.entry.Covers p ∧
    d.entry.Ends ∧ ¬ (d.entry.HoldsKernel lo hi ∧ ∀ b ∈ before, ¬ b.entry.HoldsKernel lo hi)

def Spared (map : List EfiDescriptor) (lo hi : UInt64) (p : Nat) : Prop :=
  p < 256 ∨ pmmMaxPages ≤ p ∨ KernelMarked (efiBootInfo map lo hi) p ∨ ¬ Offered map lo hi p

section
variable (map : List EfiDescriptor) (lo hi : UInt64)

theorem markKernel_aligned (h : ∀ e ∈ es, 4096 ∣ e.base.toNat) :
    ∀ e ∈ markKernel lo hi es, 4096 ∣ e.base.toNat := by
  induction es with
  | nil => exact h
  | cons f es ih =>
    obtain ⟨hf,hes⟩ := forall_mem_cons.mp h
    rw [markKernel]
    split
    · exact forall_mem_cons.mpr ⟨hf,hes⟩
    · exact forall_mem_cons.mpr ⟨hf,ih hes⟩

theorem offered_iff (p : Nat) : Offered map lo hi p ↔
    ∃ e ∈ (efiBootInfo map lo hi).mmap, e.type = .usable ∧ e.Covers p ∧ e.Ends := by
  constructor
  · rintro ⟨before,d,behind,hs,hu,hc,hen,hnot⟩
    refine ⟨d.entry,(markKernel_mem hu).mpr ?_,hu,hc,hen⟩
    refine ⟨before.map EfiDescriptor.entry,behind.map EfiDescriptor.entry,?_,?_⟩
    · rw [hs,map_append,map_cons]
    · simpa only [forall_mem_map] using hnot
  rintro ⟨e,he,hu,hc,hen⟩
  obtain ⟨before,behind,hs,hnot⟩ := (markKernel_mem hu).mp he
  obtain ⟨before',rest,ht,hb,hr⟩ := map_eq_append_iff.mp hs
  obtain ⟨d,behind',rfl,rfl,_⟩ := map_eq_cons_iff.mp hr
  subst hb
  refine ⟨before',d,behind',ht,hu,hc,hen,?_⟩
  simpa only [forall_mem_map] using hnot

theorem covers_iff_pages (ha : 4096 ∣ e.base.toNat) (hu : e.type = .usable)
    (total p : Nat) : p ∈ e.pages total ↔ e.Covers p ∧ p < total := by
  have hb := e.base.toNat_lt
  have hw : ¬ e.Wraps := by
    unfold MmapEntry.Wraps
    omega
  rw [MmapEntry.pages,if_pos hu,if_neg hw,Finset.mem_Ico,MmapEntry.Covers,MmapEntry.firstPage,MmapEntry.endPage]
  omega

theorem pmmInit_total {bi : BootInfo} (he : ∀ e ∈ bi.mmap, e.Ends) : (pmmInit bi).total = bi.total := by
  have hf := (freeRegions_freed he (pmmFull bi.totalMemory)).total
  have hk := (reserveRange_marked (kernelStart bi).toNat (kernelStart bi+kernelPages bi).toNat
    (bi.mmap.foldl freeRegion (pmmFull bi.totalMemory))).total
  have hlow := (reserveRange_marked 0 lowPages
    (reserveRange (kernelStart bi).toNat (kernelStart bi+kernelPages bi).toNat
      (bi.mmap.foldl freeRegion (pmmFull bi.totalMemory)))).total
  exact congrArg UInt64.toNat (hlow.trans (hk.trans hf))

theorem offered_lt_total (he : e ∈ (efiBootInfo map lo hi).mmap) (hu : e.type = .usable)
    (hc : e.Covers p) (hen : e.Ends) (hp : p < pmmMaxPages) : p < (efiBootInfo map lo hi).total := by
  obtain ⟨before,behind,hs,_⟩ := (markKernel_mem hu).mp he
  have hmem : e ∈ (map.take mmapMaxEntries).map EfiDescriptor.entry := hs ▸ mem_append_right _ mem_cons_self
  have hle := UInt64.le_iff_toNat_le.mp (le_bootTotal hmem)
  have hsum : (e.base+e.length).toNat = e.base.toNat+e.length.toNat := by
    exact Nat.mod_eq_of_lt hen
  have hpg : p < (bootTotal ((map.take mmapMaxEntries).map EfiDescriptor.entry)/pageSize).toNat := by
    have hend := hc.2
    rw [addr_page]
    omega
  show p < (totalOf (bootTotal ((map.take mmapMaxEntries).map EfiDescriptor.entry))).toNat
  unfold totalOf
  split
  · exact hp
  · exact hpg

theorem pmmInit_clear (p : Nat) : p ∈ (pmmInit (efiBootInfo map lo hi)).clear ↔ ¬ Spared map lo hi p := by
  have ha : ∀ e ∈ (efiBootInfo map lo hi).mmap, 4096 ∣ e.base.toNat := by
    apply markKernel_aligned
    intro e he
    obtain ⟨d,_,rfl⟩ := mem_map.mp he
    exact d.aligned
  have hen : ∀ e ∈ (efiBootInfo map lo hi).mmap.filter (fun e => decide e.Ends), e.Ends :=
    fun e he => of_decide_eq_true (mem_filter.mp he).2
  have hb := (@pmmInit_spec { efiBootInfo map lo hi with
    mmap := (efiBootInfo map lo hi).mmap.filter fun e => decide e.Ends } hen).2 p
  have ht := @pmmInit_total { efiBootInfo map lo hi with
    mmap := (efiBootInfo map lo hi).mmap.filter fun e => decide e.Ends } hen
  rw [pmmInit_filter ha,Pmm.clear,mem_clearSet,hb,ht,mem_clearedPages]
  have hmax : (efiBootInfo map lo hi).total ≤ pmmMaxPages := totalOf_le _
  have hs : ¬ Spared map lo hi p ↔
      256 ≤ p ∧ p < pmmMaxPages ∧ ¬ KernelMarked (efiBootInfo map lo hi) p ∧ Offered map lo hi p := by
    simp only [Spared,not_or,not_not,not_lt,not_le]
  rw [hs,offered_iff]
  constructor
  · rintro ⟨hlt,⟨e,he,hpg⟩,hk,hlow⟩
    obtain ⟨he,hend⟩ := mem_filter.mp he
    have hu : e.type = .usable := by
      by_contra hno
      rw [MmapEntry.pages,if_neg hno] at hpg
      exact absurd hpg (Finset.notMem_empty p)
    have hc := ((covers_iff_pages (ha e he) hu _ p).mp hpg).1
    exact ⟨hlow,lt_of_lt_of_le hlt hmax,hk,e,he,hu,hc,of_decide_eq_true hend⟩
  rintro ⟨hlow,hp,hk,e,he,hu,hc,hend⟩
  have hlt := offered_lt_total map lo hi he hu hc hend hp
  exact ⟨hlt,⟨e,mem_filter.mpr ⟨he,decide_eq_true hend⟩,
    (covers_iff_pages (ha e he) hu _ p).mpr ⟨hc,hlt⟩⟩,hk,hlow⟩

theorem bootData_survives_iff (w : Placement) :
    (∀ ops, ∀ r ∈ (run ops ⟨pmmInit (efiBootInfo map lo hi),[]⟩).runs, ∀ p ∈ Run.pages r, ¬ w.Touches p) ↔
      ∀ p, w.Touches p → Spared map lo hi p := by
  have hzero : 0 ∉ (pmmInit (efiBootInfo map lo hi)).clear := by
    rw [pmmInit_clear,not_not]
    exact .inl (by decide)
  have hreturned := fun p => (returned_iff_free hzero p).trans (pmmInit_clear map lo hi p)
  constructor
  · intro h p htouches
    by_contra hspared
    obtain ⟨ops,r,hr,hp⟩ := (hreturned p).mpr hspared
    exact h ops r hr p hp htouches
  · intro h ops r hr p hp htouches
    exact (hreturned p).mp ⟨ops,r,hr,hp⟩ (h p htouches)

end

theorem kernelStart_aligned : 4096 ∣ (0x100000 : UInt64).toNat := by decide
theorem loaderStart_aligned : 4096 ∣ (0x200000 : UInt64).toNat := by decide

def loaderMap : List EfiDescriptor :=
  [⟨efiLoaderData,0x100000,16,kernelStart_aligned⟩,⟨efiLoaderData,0x200000,8,loaderStart_aligned⟩]

theorem bootInfo_handed_out :
    (pmmAllocPage (pmmInit (efiBootInfo loaderMap 0x100000 0x110000))).1 = 0x200000 ∧
      (run [.allocPage] ⟨pmmInit (efiBootInfo loaderMap 0x100000 0x110000),[]⟩).runs = [(0x200000,1)] ∧
      512 ∈ Run.pages (0x200000,1) ∧ (⟨0x200000,some 0x202000⟩ : Placement).Touches 512 := by
  refine ⟨by decide +kernel,by decide +kernel,by decide +kernel,.inl ⟨0x200000,by decide,by decide,by decide⟩⟩

end AevOS.Frames
