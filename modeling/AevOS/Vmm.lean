import AevOS.Pmm
import AevOS.RadixTables

/-! The page tables of `kernel/mm/vmm.c` on x86-64. Physical memory is a table of entries for each page,
reached by its number. -/

namespace AevOS.Frames
open BitWords List

structure Took (s s' : Pmm) (fresh : List Nat) : Prop where
  total : s'.totalPages = s.totalPages
  nodup : fresh.Nodup
  free : ∀ p ∈ fresh, p < s.total ∧ test s.bitmap p = false
  bits : ∀ i, i < s.total → test s'.bitmap i = (decide (i ∈ fresh) || test s.bitmap i)
  fewer : s'.freePages+UInt64.ofNat fresh.length = s.freePages

section
variable {s s1 s2 : Pmm} {f1 f2 fresh : List Nat}

theorem Took.refl (s : Pmm) : Took s s [] :=
  ⟨rfl,nodup_nil,fun _ hp => absurd hp not_mem_nil,fun _ _ => rfl,UInt64.add_zero _⟩

theorem Took.total_eq (h : Took s s1 fresh) : s1.total = s.total := congrArg UInt64.toNat h.total

theorem Took.used (h : Took s s1 fresh) {i : Nat} (hi : i < s.total)
    (hbit : test s.bitmap i = true) : test s1.bitmap i = true := by
  rw [h.bits i hi,hbit,Bool.or_true]

theorem Took.used_fresh (h : Took s s1 fresh) {p : Nat} (hp : p ∈ fresh) :
    p < s1.total ∧ test s1.bitmap p = true := by
  have hlt := (h.free p hp).1
  refine ⟨h.total_eq ▸ hlt,?_⟩
  rw [h.bits p hlt,decide_eq_true hp]
  rfl

theorem Took.trans (h1 : Took s s1 f1) (h2 : Took s1 s2 f2) : Took s s2 (f1 ++ f2) := by
  have hd : ∀ p ∈ f1, p ∉ f2 := by
    intro p hp1 hp2
    have hu := (h1.used_fresh hp1).2
    rw [(h2.free p hp2).2] at hu
    exact Bool.noConfusion hu
  have hf : ∀ p ∈ f2, p < s.total ∧ test s.bitmap p = false := by
    intro p hp
    obtain ⟨hlt,hc⟩ := h2.free p hp
    rw [h1.total_eq] at hlt
    rw [h1.bits p hlt,Bool.or_eq_false_iff] at hc
    exact ⟨hlt,hc.2⟩
  refine ⟨h2.total.trans h1.total,?_,?_,?_,?_⟩
  · rw [nodup_append]
    refine ⟨h1.nodup,h2.nodup,?_⟩
    rintro p hp1 q hp2 rfl
    exact hd p hp1 hp2
  · intro p hp
    rcases mem_append.mp hp with hp | hp
    · exact h1.free p hp
    · exact hf p hp
  · intro i hi
    rw [h2.bits i (h1.total_eq ▸ hi),h1.bits i hi,Bool.eq_iff_iff]
    simp only [Bool.or_eq_true,decide_eq_true_eq,mem_append]
    tauto
  rw [← h1.fewer,← h2.fewer]
  apply UInt64.toNat_inj.mp
  simp only [UInt64.toNat_add,UInt64.toNat_ofNat',length_append]
  omega

theorem Taken.took {page : Nat} (h : Taken s s1 page 1) : Took s s1 [page] := by
  have hin := h.inside
  refine ⟨h.total,nodup_singleton page,?_,?_,?_⟩
  · intro p hp
    rw [mem_singleton] at hp
    subst hp
    exact ⟨by omega,h.free p (le_refl p) (Nat.lt_succ_self p)⟩
  · intro i hi
    rw [h.bits i hi]
    congr 2
    rw [eq_iff_iff,mem_singleton]
    omega
  rw [h.fewer]
  apply UInt64.toNat_inj.mp
  have hlt := s.freePages.toNat_lt
  simp only [UInt64.toNat_add,UInt64.toNat_sub,UInt64.toNat_ofNat',length_singleton]
  omega

section
variable (h : Took s s1 fresh)
include h

theorem Took.give {paddr : UInt64} (hp : paddr.toNat/4096 ∈ fresh) :
    Took s (pmmFreePage paddr s1) (fresh.erase (paddr.toNat/4096)) := by
  obtain ⟨hlt,hu⟩ := h.used_fresh hp
  have hg := pmmFreePage_given hlt hu
  have hc := (h.free _ hp).2
  refine ⟨hg.total.trans h.total,h.nodup.erase _,?_,?_,?_⟩
  · exact fun p hpe => h.free p (mem_of_mem_erase hpe)
  · intro i hi
    rw [hg.bits i,h.bits i hi,Bool.eq_iff_iff]
    simp only [Bool.and_eq_true,Bool.or_eq_true,Bool.not_eq_true',decide_eq_true_eq,
      decide_eq_false_iff_not,h.nodup.mem_erase_iff]
    constructor
    · rintro ⟨hne,hmem | hbit⟩
      · exact .inl ⟨by omega,hmem⟩
      · exact .inr hbit
    rintro (⟨hne,hmem⟩ | hbit)
    · exact ⟨by omega,.inl hmem⟩
    refine ⟨fun hin => ?_,.inr hbit⟩
    obtain rfl : i = paddr.toNat/4096 := by omega
    rw [hc] at hbit
    exact Bool.noConfusion hbit
  have hlen := length_erase_of_mem hp
  have hpos := length_pos_of_mem hp
  rw [← h.fewer,hg.more,hlen]
  apply UInt64.toNat_inj.mp
  simp only [UInt64.toNat_add,UInt64.toNat_ofNat']
  omega

theorem Took.give_all {addrs : List UInt64}
    (hp : (addrs.map (fun a => a.toNat/4096)).Perm fresh) :
    Took s (addrs.foldl (fun pmm a => pmmFreePage a pmm) s1) [] := by
  induction addrs generalizing s1 fresh with
  | nil =>
    obtain rfl := nil_perm.mp hp
    exact h
  | cons a addrs ih =>
    have ha : a.toNat/4096 ∈ fresh := hp.subset mem_cons_self
    refine ih (h.give ha) ?_
    exact cons_perm_iff_perm_erase.mp hp |>.2

theorem Took.clear : s1.clear = s.clear \ fresh.toFinset := by
  ext i
  rw [Pmm.clear,Pmm.clear,h.total_eq,Finset.mem_sdiff,mem_clearSet,mem_clearSet,mem_toFinset]
  constructor
  · rintro ⟨hi,hc⟩
    rw [h.bits i hi,Bool.or_eq_false_iff,decide_eq_false_iff_not] at hc
    exact ⟨⟨hi,hc.2⟩,hc.1⟩
  rintro ⟨⟨hi,hc⟩,hout⟩
  refine ⟨hi,?_⟩
  rw [h.bits i hi,hc,decide_eq_false hout]
  rfl

theorem Took.subset : fresh.toFinset ⊆ s.clear := by
  intro p hp
  exact mem_clearSet.mpr (h.free p (mem_toFinset.mp hp))

end

end

end AevOS.Frames

namespace AevOS.Vmm
open ArrayPrefix BitWords Frames Radix List

def ptePresent : UInt64 := 0x1
def pteWritable : UInt64 := 0x2
def pteUser : UInt64 := 0x4
def pteNoCache : UInt64 := 0x10
def pteHuge : UInt64 := 0x80
def pteGlobal : UInt64 := 0x100
def pteAddrMask : UInt64 := 0x000FFFFFFFFFF000

def pml4Index (addr : UInt64) : Nat := ((addr >>> 39) &&& 0x1FF).toNat
def pdptIndex (addr : UInt64) : Nat := ((addr >>> 30) &&& 0x1FF).toNat
def pdIndex (addr : UInt64) : Nat := ((addr >>> 21) &&& 0x1FF).toNat
def ptIndex (addr : UInt64) : Nat := ((addr >>> 12) &&& 0x1FF).toNat
def frame (paddr : UInt64) : Nat := paddr.toNat/4096

structure Machine where
  mem : Tables UInt64
  pmm : Pmm

structure VmmCtx where
  cr3 : UInt64
  own : Option UInt64
  deriving DecidableEq

def VmmCtx.root (ctx : VmmCtx) : Nat := frame ctx.cr3

def zeroPage (paddr : UInt64) (mem : Tables UInt64) : Tables UInt64 :=
  setAt mem (frame paddr) (fun _ => 0)

def allocTable (s : Machine) : UInt64 × Machine :=
  let r := pmmAllocPage s.pmm
  if r.1 = 0 then (0,⟨s.mem,r.2⟩) else (r.1,⟨zeroPage r.1 s.mem,r.2⟩)

def tableEntry (table : UInt64) : UInt64 := table ||| ptePresent ||| pteWritable ||| pteUser

/-- Where `vmm_walk` ends. A table is read by its physical page, which is what `ptov` gives as long as
the direct map stands. -/
def walk (create : Bool) : List Nat → Nat → Nat → Machine → Option (Nat × Nat) × Machine
  | [], last, t, s => (some (t,last),s)
  | i :: is, last, t, s =>
    if s.mem t i &&& pteHuge ≠ 0 then (some (t,i),s)
    else if s.mem t i &&& ptePresent = 0 then
      if create = true then
        let r := allocTable s
        if r.1 = 0 then (none,r.2)
        else walk create is last (frame (tableEntry r.1 &&& pteAddrMask))
          ⟨setEntry r.2.mem t i (tableEntry r.1),r.2.pmm⟩
      else (none,s)
    else walk create is last (frame (s.mem t i &&& pteAddrMask)) s

def upper (vaddr : UInt64) : List Nat := [pml4Index vaddr,pdptIndex vaddr,pdIndex vaddr]

def vmmWalk (ctx : VmmCtx) (vaddr : UInt64) (create : Bool) (s : Machine) :
    Option (Nat × Nat) × Machine :=
  walk create (upper vaddr) (ptIndex vaddr) ctx.root s

def pageEntry (paddr flags : UInt64) : UInt64 :=
  (paddr &&& pteAddrMask) ||| (flags &&& ~~~ pteAddrMask)

def vmmMapPage (ctx : VmmCtx) (vaddr paddr flags : UInt64) (s : Machine) : Machine :=
  match vmmWalk ctx vaddr true s with
  | (none,s') => s'
  | (some (t,i),s') => ⟨setEntry s'.mem t i (pageEntry paddr flags),s'.pmm⟩

def vmmUnmapPage (ctx : VmmCtx) (vaddr : UInt64) (s : Machine) : Machine :=
  match vmmWalk ctx vaddr false s with
  | (none,s') => s'
  | (some (t,i),s') =>
    if s'.mem t i &&& ptePresent = 0 then s' else ⟨setEntry s'.mem t i 0,s'.pmm⟩

def vmmGetPhys (ctx : VmmCtx) (vaddr : UInt64) (s : Machine) : UInt64 :=
  match vmmWalk ctx vaddr false s with
  | (none,_) => 0
  | (some (t,i),s') =>
    if s'.mem t i &&& ptePresent = 0 then 0
    else if s'.mem t i &&& pteHuge ≠ 0 then (s'.mem t i &&& pteAddrMask) ||| (vaddr &&& 0x1FFFFF)
    else (s'.mem t i &&& pteAddrMask) ||| (vaddr &&& 0xFFF)

def kindOf (e : UInt64) : Kind :=
  if e &&& pteHuge ≠ 0 then .leaf
  else if e &&& ptePresent = 0 then .absent
  else .table (frame (e &&& pteAddrMask))

@[simp] theorem kindOf_zero : kindOf 0 = .absent := rfl

theorem frame_mask (e : UInt64) : frame (e &&& pteAddrMask) = e.toNat/2^12%2^40 := by
  rw [frame,UInt64.toNat_and,show pteAddrMask.toNat = (2^40-1)*2^12 from rfl,and_field]
  exact Nat.mul_div_cancel _ (by decide)

theorem and_bit_eq_zero {e m : UInt64} {k : Nat} (hm : m.toNat = 2^k) : e &&& m = 0 ↔ e.toNat/2^k%2 = 0 := by
  rw [← UInt64.toNat_inj,UInt64.toNat_and,hm,UInt64.toNat_zero]
  have hf := and_field e.toNat k 1
  rw [show (2^1-1)*2^k = 2^k by omega] at hf
  rw [hf,mul_eq_zero,Nat.pow_one]
  have hpos : 2^k ≠ 0 := by positivity
  tauto

theorem present_eq_zero {e : UInt64} : e &&& ptePresent = 0 ↔ e.toNat%2 = 0 := by
  rw [and_bit_eq_zero (k := 0) rfl,Nat.pow_zero,Nat.div_one]

theorem huge_eq_zero {e : UInt64} : e &&& pteHuge = 0 ↔ e.toNat/128%2 = 0 :=
  and_bit_eq_zero (k := 7) rfl

theorem tableEntry_toNat {table : UInt64} {page : Nat} (h : table.toNat = page*4096) :
    (tableEntry table).toNat = page*4096+7 := by
  have hor : tableEntry table = table ||| 7 := by
    rw [tableEntry,UInt64.or_assoc,UInt64.or_assoc]
    rfl
  rw [hor,UInt64.toNat_or,h,mul_comm page 4096]
  exact (Nat.two_pow_add_eq_or_of_lt (i := 12) (by decide) page).symm

theorem kindOf_tableEntry {table : UInt64} {page : Nat} (h : table.toNat = page*4096)
    (hlt : page < 2^20) : kindOf (tableEntry table) = .table page := by
  have he := tableEntry_toNat h
  have hh : tableEntry table &&& pteHuge = 0 := by
    rw [huge_eq_zero,he]
    omega
  have hp : tableEntry table &&& ptePresent ≠ 0 := by
    rw [ne_eq,present_eq_zero,he]
    omega
  rw [kindOf,if_neg (not_not.mpr hh),if_neg hp,frame_mask,he]
  congr 1
  omega

theorem index_toNat (v k : UInt64) (hk : k.toNat < 64) :
    ((v >>> k) &&& 0x1FF).toNat = v.toNat/2^k.toNat%512 := by
  rw [UInt64.toNat_and,UInt64.toNat_shiftRight,Nat.mod_eq_of_lt hk,Nat.shiftRight_eq_div_pow]
  exact Nat.and_two_pow_sub_one_eq_mod _ 9

theorem pml4Index_eq (v : UInt64) : pml4Index v = v.toNat/2^39%512 :=
  index_toNat v 39 (by decide)

theorem pdptIndex_eq (v : UInt64) : pdptIndex v = v.toNat/2^30%512 :=
  index_toNat v 30 (by decide)

theorem pdIndex_eq (v : UInt64) : pdIndex v = v.toNat/2^21%512 :=
  index_toNat v 21 (by decide)

theorem index_lt (v : UInt64) : pml4Index v < 512 ∧ pdptIndex v < 512 ∧ pdIndex v < 512 := by
  rw [pml4Index_eq,pdptIndex_eq,pdIndex_eq]
  omega

theorem ptIndex_eq (v : UInt64) : ptIndex v = v.toNat/2^12%512 :=
  index_toNat v 12 (by decide)

section
variable {s s' : Machine} {fan : Nat → Nat} {n t : Nat} {is : List Nat} {last : Nat}

structure Rooted (fan : Nat → Nat) (s : Machine) (n t : Nat) : Prop where
  nodup : (tables kindOf fan s.mem n t).Nodup
  used : ∀ p ∈ tables kindOf fan s.mem n t, p < s.pmm.total ∧ test s.pmm.bitmap p = true
  zero : test s.pmm.bitmap 0 = true

theorem Rooted.not_fresh (h : Rooted fan s n t) {pmm' : Pmm} {fresh : List Nat}
    (ht : Took s.pmm pmm' fresh) {p : Nat} (hp : p ∈ fresh) : p ∉ tables kindOf fan s.mem n t := by
  intro hmem
  have hc := (ht.free p hp).2
  rw [(h.used p hmem).2] at hc
  exact Bool.noConfusion hc

theorem Rooted.grown (h : Rooted fan s n t) {fresh : List Nat}
    (hg : Grown kindOf 0 fan s.mem s'.mem n t fresh) (ht : Took s.pmm s'.pmm fresh) : Rooted fan s' n t := by
  have hpos : 0 < s.pmm.total := Nat.zero_lt_of_lt (h.used t self_mem_tables).1
  refine ⟨?_,?_,ht.used hpos h.zero⟩
  · rw [hg.pages.nodup_iff,nodup_append]
    refine ⟨h.nodup,ht.nodup,?_⟩
    rintro p hp q hq rfl
    exact h.not_fresh ht hq hp
  intro p hp
  rcases mem_append.mp (hg.pages.mem_iff.mp hp) with hold | hnew
  · obtain ⟨hlt,hbit⟩ := h.used p hold
    exact ⟨ht.total_eq ▸ hlt,ht.used hlt hbit⟩
  · exact ht.used_fresh hnew

theorem Rooted.child {i c : Nat} (h : Rooted fan s (n+1) t) (hi : i < fan n)
    (hk : kindOf (s.mem t i) = .table c) : Rooted fan s n c :=
  ⟨(nodup_split hi hk h.nodup).1,fun p hp => h.used p (mem_tables_child hi hk hp),h.zero⟩

theorem allocTable_cases (hzr : test s.pmm.bitmap 0 = true) :
    (∃ page, 0 < page ∧ page < 2^20 ∧ (allocTable s).1.toNat = page*4096 ∧
        (allocTable s).2.mem = setAt s.mem page (fun _ => 0) ∧ Took s.pmm (allocTable s).2.pmm [page]) ∨
      (allocTable s = (0,s) ∧ s.pmm.clear = ∅) := by
  rcases pmmAllocPage_cases s.pmm with ⟨page,ha,ht⟩ | ⟨hn,hall⟩
  · have hpos : 0 < page := ClearRun.pos ht.free Nat.one_pos hzr
    have hin := ht.inside
    have hmax := s.pmm.total_le
    have hne : (pmmAllocPage s.pmm).1 ≠ 0 := by
      intro hz
      rw [hz,UInt64.toNat_zero] at ha
      omega
    have hf : frame (pmmAllocPage s.pmm).1 = page := by
      rw [frame,ha]
      exact Nat.mul_div_cancel _ (by decide)
    have heq : allocTable s =
        ((pmmAllocPage s.pmm).1,⟨zeroPage (pmmAllocPage s.pmm).1 s.mem,(pmmAllocPage s.pmm).2⟩) :=
      if_neg hne
    rw [heq,zeroPage,hf]
    exact .inl ⟨page,hpos,by omega,ha,rfl,ht.took⟩
  refine .inr ⟨?_,?_⟩
  · rw [allocTable,hn]
    rfl
  rw [Finset.eq_empty_iff_forall_notMem]
  intro i hi
  obtain ⟨hlt,hc⟩ := mem_clearSet.mp hi
  rw [hall i hlt] at hc
  exact Bool.noConfusion hc

theorem walk_cons (create : Bool) (i : Nat) (is : List Nat) (last t : Nat) (s : Machine) :
    walk create (i :: is) last t s = match kindOf (s.mem t i) with
      | .leaf => (some (t,i),s)
      | .table c => walk create is last c s
      | .absent =>
        if create = true then
          if (allocTable s).1 = 0 then (none,(allocTable s).2)
          else walk create is last (frame (tableEntry (allocTable s).1 &&& pteAddrMask))
            ⟨setEntry (allocTable s).2.mem t i (tableEntry (allocTable s).1),(allocTable s).2.pmm⟩
        else (none,s) := by
  rw [walk,kindOf]
  split
  · rfl
  · split
    · rfl
    · rfl

structure Walked (fan : Nat → Nat) (s s' : Machine) (is : List Nat) (last t : Nat)
    (r : Option (Nat × Nat)) (fresh : List Nat) : Prop where
  grown : Grown kindOf 0 fan s.mem s'.mem is.length t fresh
  took : Took s.pmm s'.pmm fresh
  found : (look kindOf 0 s.mem is last t).2 = false → ∀ t' i', r = some (t',i') →
    leafTable kindOf s'.mem is t = some t' ∧ i' = last

theorem walked_stop {r : Option (Nat × Nat)}
    (h : (look kindOf 0 s.mem is last t).2 = false → ∀ t' i', r = some (t',i') →
      leafTable kindOf s.mem is t = some t' ∧ i' = last) : Walked fan s s is last t r [] :=
  ⟨Grown.refl s.mem is.length t,Took.refl s.pmm,h⟩

theorem Walked.lift {i c : Nat} {r : Option (Nat × Nat)} {fresh : List Nat}
    (h : Walked fan s s' is last c r fresh) (hs : Rooted fan s (is.length+1) t)
    (hi : i < fan is.length) (hk : kindOf (s.mem t i) = .table c) :
    Walked fan s s' (i :: is) last t r fresh := by
  have hfr : ∀ p ∈ fresh, p ∉ tables kindOf fan s.mem (is.length+1) t :=
    fun p hp => hs.not_fresh h.took hp
  have hrow : s'.mem t = s.mem t :=
    h.grown.outside t (nodup_split hi hk hs.nodup).2.1 (fun hf => hfr t hf self_mem_tables)
  refine ⟨h.grown.lift hi hk hs.nodup hfr,h.took,?_⟩
  intro hl t' i' hr
  rw [look,hk] at hl
  rw [leafTable,hrow,hk]
  exact h.found hl t' i' hr

theorem walk_spec (last : Nat) (hs : Rooted fan s is.length t) (hb : Bounded fan is) :
    ∃ fresh, Walked fan s (walk true is last t s).2 is last t (walk true is last t s).1 fresh := by
  induction is generalizing t s with
  | nil =>
    refine ⟨[],walked_stop ?_⟩
    rintro - t' i' ⟨⟩
    exact ⟨rfl,rfl⟩
  | cons i is ih =>
    rw [walk_cons]
    cases hk : kindOf (s.mem t i) with
    | leaf =>
      refine ⟨[],walked_stop ?_⟩
      intro hle
      rw [look,hk] at hle
      exact Bool.noConfusion hle
    | table c =>
      obtain ⟨fresh,hw⟩ := ih (hs.child hb.1 hk) hb.2
      exact ⟨fresh,hw.lift hs hb.1 hk⟩
    | absent =>
      rcases allocTable_cases (s := s) hs.zero with ⟨page,hpos,hlt,ha,hmem,ht⟩ | ⟨hn,-⟩
      · have hne : (allocTable s).1 ≠ 0 := by
          intro hz
          rw [hz,UInt64.toNat_zero] at ha
          omega
        have he := kindOf_tableEntry ha hlt
        have hf : frame (tableEntry (allocTable s).1 &&& pteAddrMask) = page := by
          rw [frame_mask,tableEntry_toNat ha]
          omega
        rw [if_neg hne,hf,hmem]
        -- the new table is linked, then the walk goes on below it
        have hnew : page ∉ tables kindOf fan s.mem (is.length+1) t :=
          hs.not_fresh ht (mem_singleton_self page)
        have hl := grown_link kindOf_zero hb.1 hk he hs.nodup hnew
        generalize hm : (⟨setEntry (setAt s.mem page (fun _ => 0)) t i
          (tableEntry (allocTable s).1),(allocTable s).2.pmm⟩ : Machine) = m at *
        have hmm : m.mem = setEntry (setAt s.mem page (fun _ => 0)) t i
          (tableEntry (allocTable s).1) := by rw [← hm]
        have hmp : m.pmm = (allocTable s).2.pmm := by rw [← hm]
        rw [← hmm] at hl
        rw [← hmp] at ht
        have hr : Rooted fan m (is.length+1) t := hs.grown hl ht
        have hpt : t ≠ page := fun h => hnew (h ▸ self_mem_tables)
        have hkm : kindOf (m.mem t i) = .table page := by
          rw [hmm,setEntry_self,setAt_self]
          exact he
        have hbl : ∀ j, m.mem page j = 0 := by
          intro j
          rw [hmm,setEntry_ne _ hpt.symm,setAt_self]
        obtain ⟨fresh,hw⟩ := ih (hr.child hb.1 hkm) hb.2
        have hlf := hw.lift hr hb.1 hkm
        refine ⟨[page] ++ fresh,hl.trans hlf.grown,ht.trans hlf.took,?_⟩
        intro _
        refine hlf.found ?_
        rw [look,hkm]
        exact congrArg Prod.snd (look_blank kindOf_zero hbl is last)
      · rw [hn,if_pos rfl]
        refine ⟨[],walked_stop ?_⟩
        rintro - t' i' ⟨⟩

theorem walk_false_state : (walk false is last t s).2 = s := by
  induction is generalizing t with
  | nil => rfl
  | cons i is ih =>
    rw [walk_cons]
    cases kindOf (s.mem t i) with
    | leaf | absent => rfl
    | table c => exact ih

theorem walk_false_cases (is : List Nat) (last t : Nat) (s : Machine) :
    ((walk false is last t s).1 = none ∧ look kindOf 0 s.mem is last t = (0,false)) ∨
      ∃ t' i', (walk false is last t s).1 = some (t',i') ∧ (look kindOf 0 s.mem is last t).1 = s.mem t' i' ∧
        ((leafTable kindOf s.mem is t = some t' ∧ i' = last) ∨
          ((look kindOf 0 s.mem is last t).2 = true ∧ kindOf (s.mem t' i') = .leaf)) := by
  induction is generalizing t with
  | nil => exact .inr ⟨t,last,rfl,rfl,.inl ⟨rfl,rfl⟩⟩
  | cons i is ih =>
    rw [walk_cons,look,leafTable]
    cases hk : kindOf (s.mem t i) with
    | leaf => exact .inr ⟨t,i,rfl,rfl,.inr ⟨rfl,hk⟩⟩
    | absent => exact .inl ⟨rfl,rfl⟩
    | table c => exact ih c

variable {ctx : VmmCtx} {vaddr : UInt64}

/-- No larger page stands on the way to `vaddr`. -/
def Plain (ctx : VmmCtx) (vaddr : UInt64) (s : Machine) : Prop :=
  (look kindOf 0 s.mem (upper vaddr) (ptIndex vaddr) ctx.root).2 = false

structure Mapped (fan : Nat → Nat) (ctx : VmmCtx) (vaddr e : UInt64) (s s' : Machine)
    (fresh : List Nat) : Prop where
  rooted : Rooted fan s' 3 ctx.root
  took : Took s.pmm s'.pmm fresh
  pages : (tables kindOf fan s'.mem 3 ctx.root).Perm (tables kindOf fan s.mem 3 ctx.root ++ fresh)
  looked : ∀ (js : List Nat) (j : Nat), js.length = 3 → Bounded fan js →
    look kindOf 0 s'.mem js j ctx.root = if js = upper vaddr ∧ j = ptIndex vaddr then (e,false)
      else look kindOf 0 s.mem js j ctx.root

theorem vmmMapPage_spec (paddr flags : UInt64) (hs : Rooted fan s 3 ctx.root)
    (hb : Bounded fan (upper vaddr)) (hp : Plain ctx vaddr s) :
    ∃ e fresh, Mapped fan ctx vaddr e s (vmmMapPage ctx vaddr paddr flags s) fresh ∧
      ((vmmWalk ctx vaddr true s).1 ≠ none → e = pageEntry paddr flags) := by
  obtain ⟨fresh,hw⟩ := walk_spec (ptIndex vaddr) hs hb
  have hr := hs.grown hw.grown hw.took
  rw [vmmMapPage,vmmWalk]
  generalize hwl : walk true (upper vaddr) (ptIndex vaddr) ctx.root s = w at hw hr
  obtain ⟨r,s'⟩ := w
  cases r with
  | none =>
    refine ⟨(look kindOf 0 s.mem (upper vaddr) (ptIndex vaddr) ctx.root).1,fresh,
      ⟨hr,hw.took,hw.grown.pages,?_⟩,fun h => absurd rfl h⟩
    intro js j hlen hbj
    rw [hw.grown.same js j hlen hbj]
    split
    · rename_i h
      rw [h.1,h.2]
      exact Prod.ext rfl hp
    · rfl
  | some w =>
    obtain ⟨t',i'⟩ := w
    obtain ⟨hl,rfl⟩ := hw.found hp t' i' rfl
    obtain ⟨ht,hlk⟩ := setLeaf_spec 0 (pageEntry paddr flags) (ptIndex vaddr) hb hl hr.nodup
    refine ⟨pageEntry paddr flags,fresh,⟨⟨?_,?_,hr.zero⟩,hw.took,?_,?_⟩,fun _ => rfl⟩
    · exact ht.symm ▸ hr.nodup
    · exact ht.symm ▸ hr.used
    · exact ht.symm ▸ hw.grown.pages
    · intro js j hlen hbj
      rw [← hw.grown.same js j hlen hbj]
      exact hlk js j hlen hbj

theorem vmmUnmapPage_cases (ctx : VmmCtx) (vaddr : UInt64) (s : Machine) :
    vmmUnmapPage ctx vaddr s = s ∨ ∃ t i, vmmUnmapPage ctx vaddr s = ⟨setEntry s.mem t i 0,s.pmm⟩ ∧
      ((leafTable kindOf s.mem (upper vaddr) ctx.root = some t ∧ i = ptIndex vaddr) ∨
        (¬ Plain ctx vaddr s ∧ kindOf (s.mem t i) = .leaf)) := by
  have hs : (walk false (upper vaddr) (ptIndex vaddr) ctx.root s).2 = s := walk_false_state
  have hc := walk_false_cases (upper vaddr) (ptIndex vaddr) ctx.root s
  rw [vmmUnmapPage,vmmWalk]
  generalize walk false (upper vaddr) (ptIndex vaddr) ctx.root s = w at hs hc
  obtain ⟨r,s'⟩ := w
  obtain rfl : s' = s := hs
  rcases hc with ⟨hn,-⟩ | ⟨t,i,hsm,-,hw⟩
  · obtain rfl : r = none := hn
    exact .inl rfl
  obtain rfl : r = some (t,i) := hsm
  simp only
  split
  · exact .inl rfl
  refine .inr ⟨t,i,rfl,hw.imp_right ?_⟩
  rintro ⟨hup,hl⟩
  refine ⟨?_,hl⟩
  rw [Plain,hup]
  exact Bool.noConfusion

theorem vmmUnmapPage_rooted (hs : Rooted fan s 3 ctx.root) (hb : Bounded fan (upper vaddr)) :
    tables kindOf fan (vmmUnmapPage ctx vaddr s).mem 3 ctx.root = tables kindOf fan s.mem 3 ctx.root ∧
      (vmmUnmapPage ctx vaddr s).pmm = s.pmm := by
  rcases vmmUnmapPage_cases ctx vaddr s with hsm | ⟨t,i,heq,hw⟩
  · rw [hsm]
    exact ⟨rfl,rfl⟩
  rw [heq]
  refine ⟨?_,rfl⟩
  rcases hw with ⟨hl,-⟩ | ⟨-,hl⟩
  · exact (setLeaf_spec 0 0 i hb hl hs.nodup).1
  · refine tables_setEntry (fun c => ?_)
    rw [hl,kindOf_zero]
    simp

theorem Rooted.unmap (hs : Rooted fan s 3 ctx.root) (hb : Bounded fan (upper vaddr)) :
    Rooted fan (vmmUnmapPage ctx vaddr s) 3 ctx.root := by
  obtain ⟨ht,hpmm⟩ := vmmUnmapPage_rooted hs hb
  refine ⟨?_,?_,?_⟩
  · exact ht.symm ▸ hs.nodup
  · rw [ht,hpmm]
    exact hs.used
  · rw [hpmm]
    exact hs.zero

end

end AevOS.Vmm
