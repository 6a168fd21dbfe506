import AevOS.PmmInit
import AevOS.VmmContext
import AevOS.Runs

/-! The kernel's address space as `vmm_init` builds it on x86-64, in pages of 2 MiB. -/

namespace AevOS.Vmm
open ArrayPrefix BitWords Frames Radix List
open UInt64 (toNat_inj toNat_or toNat_and ofNat ofNat_add)

def framebufferVbase : UInt64 := 0xFFFF900000000000
def pciMmio64PhysLo : UInt64 := 0xC000000000
def pciMmio64PhysSz : UInt64 := 0x40000000
def hugeSize : UInt64 := 0x200000

structure Framebuffer where
  base : UInt64
  height : UInt32
  pitch : UInt32
  deriving DecidableEq

def openTable (t i : Nat) (s : Machine) : Nat × Machine :=
  if s.mem t i &&& ptePresent = 0 then
    let r := allocTable s
    (frame (tableEntry r.1 &&& pteAddrMask),⟨setEntry r.2.mem t i (tableEntry r.1),r.2.pmm⟩)
  else (frame (s.mem t i &&& pteAddrMask),s)

def mapHugePage (ctx : VmmCtx) (vaddr entry : UInt64) (s : Machine) : Machine :=
  let pdpt := openTable ctx.root (pml4Index vaddr) s
  let pd := openTable pdpt.1 (pdptIndex vaddr) pdpt.2
  ⟨setEntry pd.2.mem pd.1 (pdIndex vaddr) entry,pd.2.pmm⟩

structure HugeRange where
  vbase : UInt64
  pbase : UInt64
  size : UInt64
  flags : UInt64
  deriving DecidableEq

def HugeRange.vaddr (r : HugeRange) (phys : UInt64) : UInt64 := r.vbase+(phys-r.pbase)
def HugeRange.entry (r : HugeRange) (phys : UInt64) : UInt64 := phys ||| r.flags ||| pteHuge

def mapHugeLoop (ctx : VmmCtx) (r : HugeRange) : Nat → UInt64 → Machine → Machine
  | 0, _, s => s
  | n+1, phys, s =>
    if phys < r.pbase+r.size then
      mapHugeLoop ctx r n (phys+hugeSize) (mapHugePage ctx (r.vaddr phys) (r.entry phys) s)
    else s

def mapHugeRange (ctx : VmmCtx) (s : Machine) (r : HugeRange) : Machine :=
  mapHugeLoop ctx r (r.size/hugeSize).toNat r.pbase s

def mapSize (totalMemory : UInt64) : UInt64 :=
  let size := alignUp totalMemory hugeSize
  if size < 0x100000000 then 0x100000000 else size

def fbSize (fb : Framebuffer) : UInt64 :=
  let size := alignUp (fb.pitch.toUInt64*fb.height.toUInt64) hugeSize
  if size = 0 then hugeSize else size

def initFlags : UInt64 := ptePresent ||| pteWritable ||| pteGlobal

def memoryRanges (totalMemory : UInt64) : List HugeRange :=
  [⟨0,0,0x100000000,initFlags⟩,⟨physMapBase,0,mapSize totalMemory,initFlags⟩,
    ⟨physMapBase+pciMmio64PhysLo,pciMmio64PhysLo,pciMmio64PhysSz,initFlags ||| pteNoCache⟩]

def fbRange (fb : Framebuffer) : HugeRange :=
  ⟨framebufferVbase,fb.base,fbSize fb,initFlags ||| pteNoCache⟩

def initRanges (totalMemory : UInt64) (fb : Framebuffer) : List HugeRange :=
  memoryRanges totalMemory ++ if fb.base = 0 then [] else [fbRange fb]

def vmmInit (totalMemory : UInt64) (fb : Framebuffer) (s : Machine) : VmmCtx × Machine :=
  let r := allocTable s
  (⟨r.1,none⟩,(initRanges totalMemory fb).foldl (mapHugeRange ⟨r.1,none⟩) r.2)

theorem vmmInit_eq (totalMemory : UInt64) (fb : Framebuffer) (s : Machine) :
    vmmInit totalMemory fb s = (⟨(allocTable s).1,none⟩,
      (initRanges totalMemory fb).foldl (mapHugeRange ⟨(allocTable s).1,none⟩) (allocTable s).2) :=
  rfl

def Opened (t i : Nat) (s : Machine) : Prop :=
  s.mem t i &&& ptePresent = 0 → (allocTable s).1 ≠ 0
  deriving Decidable

def PageOpened (ctx : VmmCtx) (vaddr : UInt64) (s : Machine) : Prop :=
  Opened ctx.root (pml4Index vaddr) s ∧
    Opened (openTable ctx.root (pml4Index vaddr) s).1 (pdptIndex vaddr)
      (openTable ctx.root (pml4Index vaddr) s).2

def LoopOpened (ctx : VmmCtx) (r : HugeRange) : Nat → UInt64 → Machine → Prop
  | 0, _, _ => True
  | n+1, phys, s =>
    phys < r.pbase+r.size → PageOpened ctx (r.vaddr phys) s ∧
      LoopOpened ctx r n (phys+hugeSize) (mapHugePage ctx (r.vaddr phys) (r.entry phys) s)

def RangesOpened (ctx : VmmCtx) : List HugeRange → Machine → Prop
  | [], _ => True
  | r :: rs, s => LoopOpened ctx r (r.size/hugeSize).toNat r.pbase s ∧
      RangesOpened ctx rs (mapHugeRange ctx s r)

def InitOpened (totalMemory : UInt64) (fb : Framebuffer) (s : Machine) : Prop :=
  (allocTable s).1 ≠ 0 ∧
    RangesOpened ⟨(allocTable s).1,none⟩ (initRanges totalMemory fb) (allocTable s).2

abbrev fullFan (_ : Nat) : Nat := 512

theorem or_and (a b m : UInt64) : (a ||| b) &&& m = (a &&& m) ||| (b &&& m) := by
  apply toNat_inj.mp
  exact Nat.and_or_distrib_right _ _ _

theorem kindOf_entry (r : HugeRange) (phys : UInt64) : kindOf (r.entry phys) = .leaf := by
  refine if_pos ?_
  have hbit : r.entry phys &&& pteHuge = ((phys ||| r.flags) &&& pteHuge) ||| pteHuge := by
    rw [HugeRange.entry,or_and,UInt64.and_self]
  rw [hbit,ne_eq,← toNat_inj,toNat_or,UInt64.toNat_zero,Nat.or_eq_zero_iff]
  exact fun h => absurd h.2 (by decide)

section
variable {s : Machine} {ctx : VmmCtx} {t i last : Nat} {is : List Nat}

theorem openTable_walk (hk : kindOf (s.mem t i) ≠ .leaf) (ho : Opened t i s) :
    walk true (i :: is) last t s = walk true is last (openTable t i s).1 (openTable t i s).2 := by
  have hh : ¬ s.mem t i &&& pteHuge ≠ 0 := fun h => hk (if_pos h)
  rw [walk,if_neg hh,openTable]
  by_cases hp : s.mem t i &&& ptePresent = 0
  · simp only [if_pos hp,if_neg (ho hp),if_true]
  · rw [if_neg hp,if_neg hp]

theorem openTable_plain (hs : Rooted fullFan s (is.length+1) t) (ho : Opened t i s)
    (hp : (look kindOf 0 s.mem (i :: is) last t).2 = false) :
    (look kindOf 0 (openTable t i s).2.mem is last (openTable t i s).1).2 = false := by
  rw [look] at hp
  cases hk : kindOf (s.mem t i) with
  | leaf =>
    rw [hk] at hp
    exact Bool.noConfusion hp
  | table c =>
    have hop : openTable t i s = (c,s) := by
      rw [kindOf] at hk
      split at hk
      · exact absurd hk (by simp)
      split at hk
      · exact absurd hk (by simp)
      · rename_i hpr
        rw [openTable,if_neg hpr,Kind.table.inj hk]
    rw [hk] at hp
    rw [hop]
    exact hp
  | absent =>
    have hpr : s.mem t i &&& ptePresent = 0 := by
      rw [kindOf] at hk
      split at hk
      · exact absurd hk (by simp)
      · split at hk
        · assumption
        · exact absurd hk (by simp)
    rcases allocTable_cases (s := s) hs.zero with ⟨page,hpos,hlt,ha,hmem,ht⟩ | ⟨hn,-⟩
    · have hf : frame (tableEntry (allocTable s).1 &&& pteAddrMask) = page := by
        rw [frame_mask,tableEntry_toNat ha]
        omega
      have hpt : page ≠ t := fun h =>
        hs.not_fresh ht (mem_singleton_self page) (h ▸ self_mem_tables)
      rw [openTable]
      simp only [if_pos hpr,hf,hmem]
      refine congrArg Prod.snd (look_blank kindOf_zero (fun j => ?_) is last)
      rw [setEntry_ne _ hpt,setAt_self]
    · exact absurd (by rw [hn]) (ho hpr)

theorem mapHugePage_eq_walk {vaddr : UInt64} (entry : UInt64) (hs : Rooted fullFan s 2 ctx.root)
    (hp : (look kindOf 0 s.mem [pml4Index vaddr,pdptIndex vaddr] (pdIndex vaddr) ctx.root).2 = false)
    (ho : PageOpened ctx vaddr s) :
    ∃ t s', walk true [pml4Index vaddr,pdptIndex vaddr] (pdIndex vaddr) ctx.root s =
        (some (t,pdIndex vaddr),s') ∧
      mapHugePage ctx vaddr entry s = ⟨setEntry s'.mem t (pdIndex vaddr) entry,s'.pmm⟩ := by
  have hn : ∀ {m : Machine} {t i : Nat} {is : List Nat},
      (look kindOf 0 m.mem (i :: is) (pdIndex vaddr) t).2 = false → kindOf (m.mem t i) ≠ .leaf := by
    intro m t i is h hl
    rw [look,hl] at h
    exact Bool.noConfusion h
  have hp' := openTable_plain hs ho.1 hp
  rw [openTable_walk (hn hp) ho.1,openTable_walk (hn hp') ho.2]
  exact ⟨_,_,rfl,rfl⟩

end

structure Built (before : Machine) (ctx : VmmCtx) (s : Machine) : Prop where
  rooted : Rooted fullFan s 2 ctx.root
  plain : ∀ (js : List Nat) (j : Nat), js.length = 2 → Bounded fullFan js →
    (look kindOf 0 s.mem js j ctx.root).2 = false
  leaves : ∀ (js : List Nat) (j : Nat), js.length = 2 → Bounded fullFan js →
    ∀ c, kindOf (look kindOf 0 s.mem js j ctx.root).1 ≠ .table c
  total : s.pmm.total = before.pmm.total
  far : ∀ p, before.pmm.total ≤ p → s.mem p = before.mem p

variable {totalMemory : UInt64} {fb : Framebuffer} {n k : Nat}

section
variable {before s : Machine} {ctx : VmmCtx}

theorem pml4_pdpt_bounded (vaddr : UInt64) : Bounded fullFan [pml4Index vaddr,pdptIndex vaddr] :=
  ⟨(index_lt vaddr).1,(index_lt vaddr).2.1,trivial⟩

theorem Built.page (h : Built before ctx s) {vaddr entry : UInt64} (he : kindOf entry = .leaf)
    (ho : PageOpened ctx vaddr s) : Built before ctx (mapHugePage ctx vaddr entry s) ∧
      look kindOf 0 (mapHugePage ctx vaddr entry s).mem [pml4Index vaddr,pdptIndex vaddr]
        (pdIndex vaddr) ctx.root = (entry,false) := by
  have hb := pml4_pdpt_bounded vaddr
  have hpl := h.plain _ (pdIndex vaddr) rfl hb
  obtain ⟨t,s',hwl,heq⟩ := mapHugePage_eq_walk entry h.rooted hpl ho
  obtain ⟨fresh,hw⟩ := walk_spec (pdIndex vaddr) h.rooted hb
  rw [hwl] at hw
  have hr := h.rooted.grown hw.grown hw.took
  obtain ⟨hlf,-⟩ := hw.found hpl t (pdIndex vaddr) rfl
  obtain ⟨ht,hl⟩ := setLeaf_spec 0 entry (pdIndex vaddr) hb hlf hr.nodup
  have htt := hw.took.total_eq
  rw [heq]
  refine ⟨⟨⟨?_,?_,hr.zero⟩,?_,?_,?_,?_⟩,?_⟩
  · exact ht.symm ▸ hr.nodup
  · exact ht.symm ▸ hr.used
  · intro js j hlen hbj
    rw [hl js j hlen hbj,hw.grown.same js j hlen hbj]
    split
    · rfl
    · exact h.plain js j hlen hbj
  · intro js j hlen hbj c
    rw [hl js j hlen hbj,hw.grown.same js j hlen hbj]
    split
    · rw [he]
      exact Kind.noConfusion
    · exact h.leaves js j hlen hbj c
  · exact htt.trans h.total
  · intro p hp
    have hlt : s.pmm.total ≤ p := h.total ▸ hp
    have hold : p ∉ tables kindOf fullFan s.mem 2 ctx.root := by
      intro hmem
      have hu := (h.rooted.used p hmem).1
      omega
    have hf : p ∉ fresh := by
      intro hmem
      have hfr := (hw.took.free p hmem).1
      omega
    have hpt : p ≠ t := by
      rintro rfl
      have hu := (hr.used p (leafTable_mem hb hlf)).1
      omega
    exact ((setEntry_ne _ hpt).trans (hw.grown.outside p hold hf)).trans (h.far p hp)
  · rw [hl _ _ rfl hb,if_pos ⟨rfl,rfl⟩]

theorem Built.loop (h : Built before ctx s) (r : HugeRange) (n : Nat) (phys : UInt64)
    (ho : LoopOpened ctx r n phys s) : Built before ctx (mapHugeLoop ctx r n phys s) := by
  induction n generalizing phys s with
  | zero => exact h
  | succ n ih =>
    rw [mapHugeLoop]
    split
    · rename_i hlt
      obtain ⟨hp,hr⟩ := ho hlt
      exact ih (h.page (kindOf_entry r phys) hp).1 _ hr
    · exact h

theorem Built.ranges (h : Built before ctx s) (rs : List HugeRange)
    (ho : RangesOpened ctx rs s) : Built before ctx (rs.foldl (mapHugeRange ctx) s) := by
  induction rs generalizing s with
  | nil => exact h
  | cons r rs ih => exact ih (h.loop r _ _ ho.1) ho.2

theorem built_root (hz : test s.pmm.bitmap 0 = true) (hne : (allocTable s).1 ≠ 0) :
    Built s ⟨(allocTable s).1,none⟩ (allocTable s).2 := by
  rcases allocTable_cases hz with ⟨page,hpos,hlt,ha,hmem,ht⟩ | ⟨hn,-⟩
  · have hr : VmmCtx.root ⟨(allocTable s).1,none⟩ = page := by
      rw [VmmCtx.root,frame,ha]
      exact Nat.mul_div_cancel _ (by decide)
    have hb : ∀ j, (allocTable s).2.mem page j = 0 := by
      intro j
      rw [hmem,setAt_self]
    have htr : tables kindOf fullFan (allocTable s).2.mem 2 page = [page] :=
      tables_blank (fun j => by rw [hb,kindOf_zero])
    have hl := look_blank kindOf_zero hb
    have hpg := ht.free page (mem_singleton_self page)
    refine ⟨⟨?_,?_,?_⟩,?_,?_,ht.total_eq,?_⟩
    · rw [hr,htr]
      exact nodup_singleton page
    · rw [hr,htr]
      exact fun p hp => ht.used_fresh hp
    · exact ht.used (Nat.zero_lt_of_lt hpg.1) hz
    · intro js j _ _
      rw [hr,hl]
    · intro js j _ _ c
      rw [hr,hl,kindOf_zero]
      exact Kind.noConfusion
    · intro p hp
      rw [hmem,setAt_ne _ _ (by omega)]
  · exact absurd (by rw [hn]) hne

theorem vmmInit_built (hz : test s.pmm.bitmap 0 = true) (ho : InitOpened totalMemory fb s) :
    Built s (vmmInit totalMemory fb s).1 (vmmInit totalMemory fb s).2 := by
  obtain ⟨hr,hrn⟩ := ho
  have hb := (built_root hz hr).ranges (initRanges totalMemory fb) hrn
  rw [vmmInit_eq]
  dsimp only
  exact hb

theorem Built.rooted_full (h : Built before ctx s) : Rooted fullFan s 3 ctx.root := by
  have ht := tables_succ_of_leaves kindOf 0 s.mem 2 ctx.root 512
    (fun js j hlen hb _ => h.leaves js j hlen hb)
  refine ⟨?_,?_,h.rooted.zero⟩
  · rw [ht]
    exact h.rooted.nodup
  · rw [ht]
    exact h.rooted.used

end

/-! What a mapping does to the translation, as long as it is not made inside a page of 2 MiB. -/

def Canonical (vaddr : UInt64) : Prop := vaddr.toNat < 2^47 ∨ 2^64-2^47 ≤ vaddr.toNat
  deriving Decidable

def translate (e vaddr : UInt64) : UInt64 :=
  if e &&& ptePresent = 0 then 0
  else if e &&& pteHuge ≠ 0 then (e &&& pteAddrMask) ||| (vaddr &&& 0x1FFFFF)
  else (e &&& pteAddrMask) ||| (vaddr &&& 0xFFF)

variable {v w o flags p : UInt64} {is : List Nat} {ctx : VmmCtx} {s : Machine}

section
variable {s : Machine} {ctx : VmmCtx} {vaddr : UInt64}

theorem vmmGetPhys_eq (ctx : VmmCtx) (vaddr : UInt64) (s : Machine) : vmmGetPhys ctx vaddr s =
    translate (look kindOf 0 s.mem (upper vaddr) (ptIndex vaddr) ctx.root).1 vaddr := by
  have hs : (walk false (upper vaddr) (ptIndex vaddr) ctx.root s).2 = s := walk_false_state
  have hc := walk_false_cases (upper vaddr) (ptIndex vaddr) ctx.root s
  rw [vmmGetPhys,vmmWalk]
  generalize walk false (upper vaddr) (ptIndex vaddr) ctx.root s = w at hs hc
  obtain ⟨r,s'⟩ := w
  obtain rfl : s' = s := hs
  rcases hc with ⟨hn,hl⟩ | ⟨t,i,hsm,hl,-⟩
  · obtain rfl : r = none := hn
    rw [hl]
    rfl
  · obtain rfl : r = some (t,i) := hsm
    rw [hl]
    rfl

theorem upper_bounded (vaddr : UInt64) : Bounded fullFan (upper vaddr) :=
  ⟨(index_lt vaddr).1,(index_lt vaddr).2.1,(index_lt vaddr).2.2,trivial⟩

theorem page_of_indices (hv : Canonical v) (hw : Canonical w) (hu : upper w = upper v)
    (hl : ptIndex w = ptIndex v) : w.toNat/4096 = v.toNat/4096 := by
  simp only [upper,cons.injEq,and_true] at hu
  obtain ⟨h4,h3,h2⟩ := hu
  rw [pml4Index_eq,pml4Index_eq] at h4
  rw [pdptIndex_eq,pdptIndex_eq] at h3
  rw [pdIndex_eq,pdIndex_eq] at h2
  rw [ptIndex_eq,ptIndex_eq] at hl
  have hvlt := v.toNat_lt
  have hwlt := w.toNat_lt
  rw [Canonical] at hv hw
  omega

theorem offset_toNat (hv : v.toNat%4096 = 0) (ho : o.toNat < 4096) : (v+o).toNat = v.toNat+o.toNat := by
  have hvlt := v.toNat_lt
  rw [UInt64.toNat_add]
  omega

theorem indices_offset (hv : v.toNat%4096 = 0) (ho : o.toNat < 4096) :
    upper (v+o) = upper v ∧ ptIndex (v+o) = ptIndex v := by
  have hsum := offset_toNat hv ho
  refine ⟨?_,?_⟩
  · simp only [upper,pml4Index_eq,pdptIndex_eq,pdIndex_eq,hsum,cons.injEq,and_true]
    omega
  · rw [ptIndex_eq,ptIndex_eq,hsum]
    omega

theorem pageEntry_flag {paddr m : UInt64} (hin : pteAddrMask &&& m = 0)
    (hout : ~~~ pteAddrMask &&& m = m) : pageEntry paddr flags &&& m = flags &&& m := by
  rw [pageEntry,or_and,UInt64.and_assoc,UInt64.and_assoc,hin,hout,UInt64.and_zero,UInt64.zero_or]

theorem pageEntry_addr (paddr flags : UInt64) :
    pageEntry paddr flags &&& pteAddrMask = paddr &&& pteAddrMask := by
  have hnot : ~~~ pteAddrMask &&& pteAddrMask = 0 := by decide
  rw [pageEntry,or_and,UInt64.and_assoc,UInt64.and_assoc,UInt64.and_self,hnot,UInt64.and_zero,
    UInt64.or_zero]

theorem addr_aligned (hp : p &&& pteAddrMask = p) : p.toNat%4096 = 0 := by
  have hf := and_field p.toNat 12 40
  have hm : (p &&& pteAddrMask).toNat = p.toNat := by rw [hp]
  rw [toNat_and,show pteAddrMask.toNat = (2^40-1)*2^12 from rfl,hf] at hm
  omega

theorem translate_pageEntry (hv : v.toNat%4096 = 0) (hp : p &&& pteAddrMask = p)
    (hpr : flags &&& ptePresent ≠ 0) (hh : flags &&& pteHuge = 0) (ho : o.toNat < 4096) :
    translate (pageEntry p flags) (v+o) = p+o := by
  have ha := addr_aligned hp
  rw [translate,pageEntry_flag (m := ptePresent) (by decide) (by decide),if_neg hpr,
    pageEntry_flag (m := pteHuge) (by decide) (by decide),if_neg (not_not.mpr hh),
    pageEntry_addr,hp]
  apply toNat_inj.mp
  have hlow : ((v+o) &&& 0xFFF).toNat = o.toNat := by
    rw [toNat_and,offset_toNat hv ho]
    refine (Nat.and_two_pow_sub_one_eq_mod _ 12).trans ?_
    omega
  have hb : p.toNat = 2^12*(p.toNat/4096) := by omega
  rw [toNat_or,hlow,offset_toNat ha ho,hb]
  exact (Nat.two_pow_add_eq_or_of_lt ho _).symm

/-- An address of the direct map of physical memory, by which `vmm.c` reaches its tables; the walk does
not look at the upper 16 bits. -/
def InDirectMap (totalMemory vaddr : UInt64) : Prop :=
  (vaddr-physMapBase).toNat%2^48 < (mapSize totalMemory).toNat

/-- No map call is for an address inside a larger page, and the direct map stays. -/
def PlainRun (totalMemory : UInt64) (ctx : VmmCtx) : List Op → Machine → Prop
  | [], _ => True
  | .map vaddr paddr flags :: ops, s =>
    Plain ctx vaddr s ∧ PlainRun totalMemory ctx ops (vmmMapPage ctx vaddr paddr flags s)
  | .unmap vaddr :: ops, s =>
    ¬ InDirectMap totalMemory vaddr ∧ PlainRun totalMemory ctx ops (vmmUnmapPage ctx vaddr s)

theorem Rooted.run {totalMemory : UInt64} (hs : Rooted fullFan s 3 ctx.root) (ops : List Op)
    (hp : PlainRun totalMemory ctx ops s) : Rooted fullFan (run ctx ops s) 3 ctx.root := by
  induction ops generalizing s with
  | nil => exact hs
  | cons o ops ih =>
    cases o with
    | map vaddr paddr flags =>
      obtain ⟨e,fresh,hm,-⟩ := vmmMapPage_spec paddr flags hs (upper_bounded vaddr) hp.1
      exact ih hm.rooted hp.2
    | unmap vaddr => exact ih (hs.unmap (upper_bounded vaddr)) hp.2

theorem Rooted.map_law (hs : Rooted fullFan s 3 ctx.root) (hc : Canonical v)
    (ha : v.toNat%4096 = 0) (hp : p &&& pteAddrMask = p) (hpr : flags &&& ptePresent ≠ 0)
    (hh : flags &&& pteHuge = 0) (hpl : Plain ctx v s) (hwl : (vmmWalk ctx v true s).1 ≠ none) :
    (∀ o : UInt64, o.toNat < 4096 → vmmGetPhys ctx (v+o) (vmmMapPage ctx v p flags s) = p+o) ∧
    ∀ w, Canonical w → w.toNat/4096 ≠ v.toNat/4096 →
      vmmGetPhys ctx w (vmmMapPage ctx v p flags s) = vmmGetPhys ctx w s := by
  obtain ⟨e,fresh,hm,he⟩ := vmmMapPage_spec p flags hs (upper_bounded v) hpl
  obtain rfl := he hwl
  constructor
  · intro o ho
    obtain ⟨hu,hl⟩ := indices_offset ha ho
    rw [vmmGetPhys_eq,hu,hl,hm.looked _ _ rfl (upper_bounded v),if_pos ⟨rfl,rfl⟩]
    exact translate_pageEntry ha hp hpr hh ho
  intro w hw hpg
  have hne : ¬ (upper w = upper v ∧ ptIndex w = ptIndex v) :=
    fun h => hpg (page_of_indices hc hw h.1 h.2)
  rw [vmmGetPhys_eq,vmmGetPhys_eq,hm.looked _ _ rfl (upper_bounded w),if_neg hne]

end

theorem vmmMapPage_translates (totalMemory : UInt64) (fb : Framebuffer) (s : Machine)
    (hzero : test s.pmm.bitmap 0 = true) (hinit : InitOpened totalMemory fb s) (ops : List Op)
    (hrun : PlainRun totalMemory (vmmInit totalMemory fb s).1 ops (vmmInit totalMemory fb s).2)
    (v p flags : UInt64) (hcanon : Canonical v) (halign : v.toNat%4096 = 0)
    (hp : p &&& pteAddrMask = p) (hpresent : flags &&& ptePresent ≠ 0)
    (hhuge : flags &&& pteHuge = 0) :
    let ctx := (vmmInit totalMemory fb s).1
    let before := run ctx ops (vmmInit totalMemory fb s).2
    Plain ctx v before → (vmmWalk ctx v true before).1 ≠ none → (∀ o : UInt64, o.toNat < 4096 →
        vmmGetPhys ctx (v+o) (vmmMapPage ctx v p flags before) = p+o) ∧
      ∀ w, Canonical w → w.toNat/4096 ≠ v.toNat/4096 →
        vmmGetPhys ctx w (vmmMapPage ctx v p flags before) = vmmGetPhys ctx w before := by
  intro ctx before hplain hwalk
  have hroot := (vmmInit_built hzero hinit).rooted_full.run ops hrun
  exact hroot.map_law hcanon halign hp hpresent hhuge hplain hwalk

theorem vmm_spaces_isolated (kernel other ctx : VmmCtx) (s : Machine) (hother : Rooted fullFan s 3 other.root)
    (hctx : (vmmCreateCtx kernel s).1 = some ctx) (ops : List Op) (hops : ∀ o ∈ ops, UserHalf o.vaddr)
    (vaddr : UInt64) : vmmGetPhys other vaddr (run ctx ops (vmmCreateCtx kernel s).2) =
      vmmGetPhys other vaddr s := by
  rw [vmmGetPhys_eq,vmmGetPhys_eq]
  congr 2
  refine look_congr (upper_bounded vaddr) fun p hp => ?_
  obtain ⟨hlt,hu⟩ := hother.used p hp
  rcases vmmCreateCtx_cases kernel hother.zero with ⟨cr3,own,hsome,hheld⟩ | ⟨hnone,-⟩
  · obtain rfl : ⟨cr3,some own⟩ = ctx := Option.some.inj (hsome.symm.trans hctx)
    exact (held_run_outside hheld hops hlt hu).trans (vmmCreateCtx_outside kernel hother.zero hu)
  · rw [hnone] at hctx
    cases hctx

def eightPages : Machine := ⟨fun _ _ => 0,⟨fun _ => 3#64,8,6,by decide⟩⟩

theorem eightPages_rooted : Rooted fullFan eightPages 3 1 := by
  have ht : tables kindOf fullFan eightPages.mem 3 1 = [1] := tables_blank fun _ => kindOf_zero
  exact ⟨by simp [ht],by rw [ht]; decide,by decide⟩

theorem vmm_spaces_isolated_eight : vmmGetPhys ⟨0x1000,none⟩ 0x400000 (run ⟨0x2000,some 0x3000⟩
      [.map 0x400000 0x7000 7] (vmmCreateCtx ⟨0x1000,none⟩ eightPages).2) =
    vmmGetPhys ⟨0x1000,none⟩ 0x400000 eightPages :=
  vmm_spaces_isolated ⟨0x1000,none⟩ ⟨0x1000,none⟩ ⟨0x2000,some 0x3000⟩ eightPages eightPages_rooted
    (by decide +kernel) [.map 0x400000 0x7000 7] (by decide) 0x400000

theorem vmmUnmapPage_plain (hpl : Plain ctx v s) :
    (vmmUnmapPage ctx v s = s ∧ (look kindOf 0 s.mem (upper v) (ptIndex v) ctx.root).1 &&& ptePresent = 0) ∨
      ∃ t, vmmUnmapPage ctx v s = ⟨setEntry s.mem t (ptIndex v) 0,s.pmm⟩ ∧
        leafTable kindOf s.mem (upper v) ctx.root = some t := by
  have hst : (walk false (upper v) (ptIndex v) ctx.root s).2 = s := walk_false_state
  have hc := walk_false_cases (upper v) (ptIndex v) ctx.root s
  rw [vmmUnmapPage,vmmWalk]
  generalize walk false (upper v) (ptIndex v) ctx.root s = r at hst hc
  obtain ⟨r,s'⟩ := r
  obtain rfl : s' = s := hst
  rcases hc with ⟨hn,hl⟩ | ⟨t,i,hr,hl,hc⟩
  · obtain rfl : r = none := hn
    exact .inl ⟨rfl,by rw [hl]; rfl⟩
  obtain rfl : r = some (t,i) := hr
  obtain ⟨hlt,rfl⟩ := hc.resolve_right fun h => Bool.noConfusion (h.1.symm.trans hpl)
  dsimp only
  split
  · exact .inl ⟨rfl,by rwa [hl]⟩
  · exact .inr ⟨t,rfl,hlt⟩

theorem Rooted.unmap_law (hs : Rooted fullFan s 3 ctx.root) (hpl : Plain ctx v s) (hc : Canonical v)
    (hw : Canonical w) : vmmGetPhys ctx w (vmmUnmapPage ctx v s) =
      if w.toNat/4096 = v.toNat/4096 then 0 else vmmGetPhys ctx w s := by
  rw [vmmGetPhys_eq]
  by_cases hpg : w.toNat/4096 = v.toNat/4096
  · have hi : upper w = upper v ∧ ptIndex w = ptIndex v := by
      simp only [upper,cons.injEq,and_true,pml4Index_eq,pdptIndex_eq,pdIndex_eq,ptIndex_eq]
      omega
    rw [if_pos hpg,hi.1,hi.2]
    rcases vmmUnmapPage_plain hpl with ⟨heq,habs⟩ | ⟨t,heq,hl⟩
    · rw [heq,translate,if_pos habs]
    · rw [heq,(setLeaf_spec 0 0 (ptIndex v) (upper_bounded v) hl hs.nodup).2 _ _ rfl (upper_bounded v),
        if_pos ⟨rfl,rfl⟩]
      rfl
  · rw [if_neg hpg,vmmGetPhys_eq]
    rcases vmmUnmapPage_plain hpl with ⟨heq,-⟩ | ⟨t,heq,hl⟩
    · rw [heq]
    · rw [heq,(setLeaf_spec 0 0 (ptIndex v) (upper_bounded v) hl hs.nodup).2 (upper w) _ rfl (upper_bounded w),
        if_neg fun h => hpg (page_of_indices hc hw h.1 h.2)]

def Regular (ctx : VmmCtx) (s : Machine) (o : Op) : Prop :=
  Canonical o.vaddr ∧ Plain ctx o.vaddr s ∧ match o with
    | .map v p flags => (v.toNat%4096 = 0 ∧ p &&& pteAddrMask = p ∧ flags &&& ptePresent ≠ 0 ∧
        flags &&& pteHuge = 0) ∧ (vmmWalk ctx v true s).1 ≠ none
    | .unmap _ => True

/-- The translation of `w` after a call, from what it was before. -/
def Op.target (w old : UInt64) (o : Op) : UInt64 :=
  if w.toNat/4096 = o.vaddr.toNat/4096 then
    match o with
    | .map v p _ => p+(w-v)
    | .unmap _ => 0
  else old

theorem step_translates {o : Op} (hs : Rooted fullFan s 3 ctx.root)
    (ho : Regular ctx s o) (hw : Canonical w) : Rooted fullFan (step ctx s o) 3 ctx.root ∧
      vmmGetPhys ctx w (step ctx s o) = o.target w (vmmGetPhys ctx w s) := by
  obtain ⟨hc,hpl,hm⟩ := ho
  cases o with
  | map v p flags =>
    obtain ⟨⟨ha,hp,hpr,hh⟩,hwl⟩ := hm
    obtain ⟨e,fresh,hmp,-⟩ := vmmMapPage_spec p flags hs (upper_bounded v) hpl
    obtain ⟨hin,hout⟩ := hs.map_law hc ha hp hpr hh hpl hwl
    refine ⟨hmp.rooted,?_⟩
    rw [Op.target]
    split
    · rename_i hpg
      dsimp only [Op.vaddr] at hpg hin
      have hle : v ≤ w := UInt64.le_iff_toNat_le.mpr (by omega)
      have hsub := hin (w-v) (by rw [UInt64.toNat_sub_of_le _ _ hle]; omega)
      rwa [UInt64.add_comm,UInt64.sub_add_cancel] at hsub
    · exact hout w hw ‹_›
  | unmap v => exact ⟨hs.unmap (upper_bounded v),hs.unmap_law hpl hc hw⟩

theorem vmm_run_translates (ctx : VmmCtx) (s : Machine) (hs : Rooted fullFan s 3 ctx.root) (ops : List Op)
    (hops : Runs.Along (step ctx) (Regular ctx) s ops) (w : UInt64) (hw : Canonical w) :
    vmmGetPhys ctx w (run ctx ops s) = ops.foldl (Op.target w) (vmmGetPhys ctx w s) := by
  induction ops generalizing s with
  | nil => rfl
  | cons o ops ih =>
    obtain ⟨hr,ht⟩ := step_translates hs hops.1 hw
    exact (ih _ hr hops.2).trans (by rw [ht]; rfl)

theorem vmm_run_translates_eight : vmmGetPhys ⟨0x1000,none⟩ 0x400010
    (run ⟨0x1000,none⟩ [.map 0x400000 0x7000 7,.unmap 0x401000] eightPages) = 0x7010 :=
  (vmm_run_translates ⟨0x1000,none⟩ eightPages eightPages_rooted [.map 0x400000 0x7000 7,.unmap 0x401000]
    (by
      simp only [Runs.Along,Regular,Plain]
      decide +kernel) 0x400010 (by decide)).trans (by decide +kernel)

section
variable {s : Machine} {ctx : VmmCtx} {r : HugeRange} {a b pdpt pd d n : Nat} {phys : UInt64}

/-- The entries of `n` pages in one table, from the index `d` on. -/
def fillTable (r : HugeRange) (pd d n : Nat) (phys : UInt64) (s : Machine) : Machine :=
  ⟨setAt s.mem pd fun i => if d ≤ i ∧ i < d+n then r.entry (phys+hugeSize*ofNat (i-d))
    else s.mem pd i,s.pmm⟩

abbrev Linked (s : Machine) (root a b pdpt pd : Nat) : Prop :=
  (s.mem root a &&& ptePresent ≠ 0 ∧ frame (s.mem root a &&& pteAddrMask) = pdpt) ∧
    (s.mem pdpt b &&& ptePresent ≠ 0 ∧ frame (s.mem pdpt b &&& pteAddrMask) = pd) ∧
    pd ≠ root ∧ pd ≠ pdpt

def within (r : HugeRange) (a b : Nat) : Nat → Nat → UInt64 → Bool
  | 0, _, _ => true
  | n+1, d, phys => decide (phys < r.pbase+r.size ∧ pml4Index (r.vaddr phys) = a ∧
      pdptIndex (r.vaddr phys) = b ∧ pdIndex (r.vaddr phys) = d) &&
      within r a b n (d+1) (phys+hugeSize)

theorem fillTable_zero (r : HugeRange) (pd d : Nat) (phys : UInt64) (s : Machine) :
    fillTable r pd d 0 phys s = s := by
  have hf : ∀ i, ¬ (d ≤ i ∧ i < d+0) := by omega
  simp only [fillTable,hf,if_false]
  congr 1
  funext t
  by_cases h : t = pd <;> simp [setAt,h]

theorem fillTable_succ (r : HugeRange) (pd d n : Nat) (phys : UInt64) (s : Machine) :
    fillTable r pd (d+1) n (phys+hugeSize) ⟨setEntry s.mem pd d (r.entry phys),s.pmm⟩ =
      fillTable r pd d (n+1) phys s := by
  simp only [fillTable,setEntry,setAt_setAt,setAt_self]
  congr 2
  funext i
  by_cases hi : i = d
  · simp [hi]
  by_cases h : d+1 ≤ i ∧ i < d+1+n
  · rw [if_pos h,if_pos (by omega),show i-d = i-(d+1)+1 by omega,ofNat_add,UInt64.mul_add,
      UInt64.add_assoc,UInt64.add_comm hugeSize]
    rfl
  · rw [if_neg h,if_neg (by omega),setAt_ne _ _ hi]

theorem linked_page (hl : Linked s ctx.root a b pdpt pd) {vaddr : UInt64} (ha : pml4Index vaddr = a)
    (hb : pdptIndex vaddr = b) (entry : UInt64) : PageOpened ctx vaddr s ∧
      mapHugePage ctx vaddr entry s = ⟨setEntry s.mem pd (pdIndex vaddr) entry,s.pmm⟩ := by
  obtain ⟨⟨h1,h2⟩,⟨h3,h4⟩,-⟩ := hl
  have hf : openTable ctx.root a s = (pdpt,s) := by rw [openTable,if_neg h1,h2]
  have hs : openTable pdpt b s = (pd,s) := by rw [openTable,if_neg h3,h4]
  simp only [PageOpened,mapHugePage,ha,hb,hf,hs]
  exact ⟨⟨fun h => absurd h h1,fun h => absurd h h3⟩,trivial⟩

theorem linked_loop (hl : Linked s ctx.root a b pdpt pd) (hw : within r a b n d phys = true) (k : Nat) :
    mapHugeLoop ctx r (n+k) phys s =
        mapHugeLoop ctx r k (phys+hugeSize*ofNat n) (fillTable r pd d n phys s) ∧
      (LoopOpened ctx r k (phys+hugeSize*ofNat n) (fillTable r pd d n phys s) →
        LoopOpened ctx r (n+k) phys s) := by
  induction n generalizing d phys s with
  | zero => simp [fillTable_zero]
  | succ n ih =>
    rw [within,Bool.and_eq_true,decide_eq_true_eq] at hw
    obtain ⟨⟨hlt,ha,hb,hd⟩,hw⟩ := hw
    obtain ⟨ho,hp⟩ := linked_page hl ha hb (r.entry phys)
    have hl' : Linked ⟨setEntry s.mem pd d (r.entry phys),s.pmm⟩ ctx.root a b pdpt pd := by
      unfold Linked
      dsimp only
      rw [setEntry_ne _ hl.2.2.1.symm,setEntry_ne _ hl.2.2.2.symm]
      exact hl
    have hr := ih hl' hw
    rw [fillTable_succ,UInt64.add_assoc,show hugeSize+hugeSize*ofNat n =
      hugeSize*ofNat (n+1) by rw [ofNat_add,UInt64.mul_add,UInt64.add_comm]; rfl] at hr
    rw [Nat.succ_add,mapHugeLoop,if_pos hlt,LoopOpened,hp,hd]
    exact ⟨hr.1,fun h _ => ⟨ho,hr.2 h⟩⟩

/-- The tables a range is put in: the first page of each opens it, `rest` more follow. -/
structure Layout where
  range : HugeRange
  pdpt : Nat
  rest : Nat
  pds : List Nat

def layTables (ctx : VmmCtx) (r : HugeRange) (rest : Nat) : List Nat → UInt64 → Machine → Machine
  | [], _, s => s
  | pd :: pds, phys, s => layTables ctx r rest pds (phys+hugeSize+hugeSize*ofNat rest)
      (fillTable r pd 1 rest (phys+hugeSize) (mapHugePage ctx (r.vaddr phys) (r.entry phys) s))

def layTablesOk (ctx : VmmCtx) (r : HugeRange) (pdpt rest : Nat) : List Nat → UInt64 → Machine → Bool
  | [], _, _ => true
  | pd :: pds, phys, s =>
    let v := r.vaddr phys
    let s1 := mapHugePage ctx v (r.entry phys) s
    decide (phys < r.pbase+r.size ∧ (Opened ctx.root (pml4Index v) s ∧
      Opened (openTable ctx.root (pml4Index v) s).1 (pdptIndex v) (openTable ctx.root (pml4Index v) s).2) ∧
      Linked s1 ctx.root (pml4Index v) (pdptIndex v) pdpt pd) &&
      (within r (pml4Index v) (pdptIndex v) rest 1 (phys+hugeSize) &&
      layTablesOk ctx r pdpt rest pds (phys+hugeSize+hugeSize*ofNat rest)
        (fillTable r pd 1 rest (phys+hugeSize) s1))

theorem layTables_loop {rest : Nat} {pds : List Nat} (h : layTablesOk ctx r pdpt rest pds phys s = true) :
    mapHugeLoop ctx r ((rest+1)*pds.length) phys s = layTables ctx r rest pds phys s ∧
      LoopOpened ctx r ((rest+1)*pds.length) phys s := by
  induction pds generalizing phys s with
  | nil => exact ⟨rfl,trivial⟩
  | cons pd pds ih =>
    simp only [layTablesOk,Bool.and_eq_true,decide_eq_true_eq] at h
    obtain ⟨⟨hlt,ho,hl⟩,hw,hok⟩ := h
    obtain ⟨hm,ho'⟩ := linked_loop hl hw ((rest+1)*pds.length)
    obtain ⟨ht,hlast⟩ := ih hok
    rw [length_cons,Nat.mul_succ,show (rest+1)*pds.length+(rest+1) =
      rest+(rest+1)*pds.length+1 by omega,mapHugeLoop,if_pos hlt,hm,ht]
    exact ⟨rfl,fun _ => ⟨ho,ho' hlast⟩⟩

def layOut (ctx : VmmCtx) (s : Machine) (x : Layout) : Machine :=
  layTables ctx x.range x.rest x.pds x.range.pbase s

def layOutOk (ctx : VmmCtx) : List Layout → Machine → Bool
  | [], _ => true
  | x :: xs, s => decide ((x.range.size/hugeSize).toNat = (x.rest+1)*x.pds.length) &&
      (layTablesOk ctx x.range x.pdpt x.rest x.pds x.range.pbase s && layOutOk ctx xs (layOut ctx s x))

theorem layOut_ranges {xs : List Layout} (h : layOutOk ctx xs s = true) :
    RangesOpened ctx (xs.map Layout.range) s ∧
      (xs.map Layout.range).foldl (mapHugeRange ctx) s = xs.foldl (layOut ctx) s := by
  induction xs generalizing s with
  | nil => exact ⟨trivial,rfl⟩
  | cons x xs ih =>
    simp only [layOutOk,Bool.and_eq_true,decide_eq_true_eq] at h
    obtain ⟨hn,ht,hxs⟩ := h
    obtain ⟨hm,ho⟩ := layTables_loop ht
    rw [← hn] at hm ho
    obtain ⟨hr,hf⟩ := ih hxs
    have hs : mapHugeRange ctx s x.range = layOut ctx s x := hm
    refine ⟨⟨ho,hs ▸ hr⟩,?_⟩
    rw [map_cons,foldl_cons,foldl_cons,hs,hf]

end

def smallMachine : Machine :=
  ⟨fun _ _ => 0,⟨setBit (fun _ => 0#64) 0,16384,16383,by decide⟩⟩

def smallFb : Framebuffer := ⟨0x80000000,512,4096⟩

def smallLayout : List Layout :=
  [⟨⟨0,0,0x100000000,initFlags⟩,2,511,[3,4,5,6]⟩,
    ⟨⟨physMapBase,0,0x100000000,initFlags⟩,7,511,[8,9,10,11]⟩,
    ⟨⟨physMapBase+pciMmio64PhysLo,pciMmio64PhysLo,pciMmio64PhysSz,initFlags ||| pteNoCache⟩,12,511,[13]⟩,
    ⟨fbRange smallFb,14,0,[15]⟩]

theorem smallInit : InitOpened 0x4000000 smallFb smallMachine ∧ vmmInit 0x4000000 smallFb smallMachine =
    (⟨0x1000,none⟩,smallLayout.foldl (layOut ⟨0x1000,none⟩) (allocTable smallMachine).2) := by
  have hroot : (allocTable smallMachine).1 = 0x1000 := by decide +kernel
  have hr : initRanges 0x4000000 smallFb = smallLayout.map Layout.range := by decide +kernel
  have hl : layOutOk ⟨0x1000,none⟩ smallLayout (allocTable smallMachine).2 := by decide +kernel
  obtain ⟨ho,hf⟩ := layOut_ranges hl
  rw [InitOpened,vmmInit_eq,hroot,hr,hf]
  exact ⟨⟨by decide,ho⟩,rfl⟩

theorem vmmMapPage_inside_huge : let ctx := (vmmInit 0x4000000 smallFb smallMachine).1
    let before := (vmmInit 0x4000000 smallFb smallMachine).2
    let after := vmmMapPage ctx framebufferVbase 0xFEC00000 0x3 before
    (vmmWalk ctx framebufferVbase true before).1 ≠ none ∧
      vmmGetPhys ctx framebufferVbase after = 0 ∧
      vmmGetPhys ctx (framebufferVbase+0x1000) before = 0x80001000 ∧
      vmmGetPhys ctx (framebufferVbase+0x1000) after = 0 := by
  rw [smallInit.2]
  decide +kernel

theorem vmmMapPage_translates_small :
    vmmGetPhys (vmmInit 0x4000000 smallFb smallMachine).1 (framebufferVbase+0x10)
      (vmmMapPage (vmmInit 0x4000000 smallFb smallMachine).1 framebufferVbase 0xFEC00000 0x3
        (run (vmmInit 0x4000000 smallFb smallMachine).1 [.unmap framebufferVbase]
          (vmmInit 0x4000000 smallFb smallMachine).2)) = 0xFEC00000+0x10 := by
  refine (vmmMapPage_translates 0x4000000 smallFb smallMachine (by decide) smallInit.1
    [.unmap framebufferVbase] ⟨by unfold InDirectMap; decide,trivial⟩ framebufferVbase 0xFEC00000 0x3 (by decide) (by decide)
    (by decide) (by decide) (by decide) ?_ ?_).1 0x10 (by decide)
  · rw [smallInit.2,Plain]
    decide +kernel
  · rw [smallInit.2]
    decide +kernel

end AevOS.Vmm
