import AevOS.Vmm

/-! The address space of an agent, from `vmm_create_ctx` to `vmm_destroy_ctx`. -/

namespace AevOS.Vmm
open ArrayPrefix BitWords Frames Radix List

def shareKernel (kernel root : Nat) (mem : Tables UInt64) : Tables UInt64 :=
  setAt mem root (fun i => if 256 ≤ i ∧ i < 512 then mem kernel i else mem root i)

def vmmCreateCtx (kernel : VmmCtx) (s : Machine) : Option VmmCtx × Machine :=
  let r := allocTable s
  if r.1 = 0 then (none,r.2)
  else
    let mem := shareKernel kernel.root (frame r.1) r.2.mem
    let c := pmmAllocPage r.2.pmm
    if c.1 = 0 then (none,⟨mem,pmmFreePage r.1 c.2⟩)
    else (some ⟨r.1,some c.1⟩,⟨mem,c.2⟩)

def pdFrees (mem : Tables UInt64) (pd : Nat) : List UInt64 :=
  (List.range 512).flatMap (fun i2 =>
    if mem pd i2 &&& ptePresent = 0 then []
    else if mem pd i2 &&& pteHuge ≠ 0 then []
    else [mem pd i2 &&& pteAddrMask])

def pdptFrees (mem : Tables UInt64) (pdpt : Nat) : List UInt64 :=
  (List.range 512).flatMap (fun i3 =>
    if mem pdpt i3 &&& ptePresent = 0 then []
    else if mem pdpt i3 &&& pteHuge ≠ 0 then []
    else pdFrees mem (frame (mem pdpt i3 &&& pteAddrMask)) ++ [mem pdpt i3 &&& pteAddrMask])

def pml4Frees (mem : Tables UInt64) (pml4 : Nat) : List UInt64 :=
  (List.range 256).flatMap (fun i4 =>
    if mem pml4 i4 &&& ptePresent = 0 then []
    else pdptFrees mem (frame (mem pml4 i4 &&& pteAddrMask)) ++ [mem pml4 i4 &&& pteAddrMask])

def destroyFrees (mem : Tables UInt64) (ctx : VmmCtx) : List UInt64 :=
  match ctx.own with
  | none => []
  | some own => pml4Frees mem ctx.root ++ [ctx.cr3,own]

def vmmDestroyCtx (ctx : Option VmmCtx) (s : Machine) : Machine :=
  match ctx with
  | none => s
  | some ctx => ⟨s.mem,(destroyFrees s.mem ctx).foldl (fun pmm a => pmmFreePage a pmm) s.pmm⟩

inductive Op where
  | map (vaddr paddr flags : UInt64)
  | unmap (vaddr : UInt64)
  deriving DecidableEq

def step (ctx : VmmCtx) (s : Machine) : Op → Machine
  | .map vaddr paddr flags => vmmMapPage ctx vaddr paddr flags s
  | .unmap vaddr => vmmUnmapPage ctx vaddr s

def run (ctx : VmmCtx) (ops : List Op) (s : Machine) : Machine := ops.foldl (step ctx) s

def Op.vaddr : Op → UInt64
  | .map vaddr _ _ => vaddr
  | .unmap vaddr => vaddr

def UserHalf (vaddr : UInt64) : Prop := vaddr.toNat < 2^47
  deriving Decidable

def userFan (n : Nat) : Nat := if n = 2 then 256 else 512

def sharedTables (mem : Tables UInt64) (kernel : VmmCtx) : List Nat :=
  (List.range 256).flatMap (fun i =>
    (kindOf (mem kernel.root (256+i))).sub (tables kindOf (fun _ => 512) mem 2))

theorem upper_user {vaddr : UInt64} (h : UserHalf vaddr) : Bounded userFan (upper vaddr) := by
  refine ⟨?_,(index_lt vaddr).2.1,(index_lt vaddr).2.2,trivial⟩
  have hv : vaddr.toNat < 2^47 := h
  have h4 := pml4Index_eq vaddr
  exact (by omega : pml4Index vaddr < 256)

section
variable {mem : Tables UInt64}

theorem frees_perm {fan : Nat → Nat} {n t : Nat} (f : Nat → List UInt64) (h : ∀ i, i < fan n →
      ((f i).map frame).Perm ((kindOf (mem t i)).sub (tables kindOf fan mem n))) :
    (((List.range (fan n)).flatMap f).map frame ++ [t]).Perm (tables kindOf fan mem (n+1) t) := by
  rw [tables,map_flatMap]
  refine perm_append_comm.trans ?_
  exact Perm.cons t (Perm.flatMap_left _ (fun i hi => h i (mem_range.mp hi)))

theorem pdFrees_perm (pd : Nat) :
    ((pdFrees mem pd).map frame ++ [pd]).Perm (tables kindOf userFan mem 1 pd) := by
  rw [pdFrees,show 512 = userFan 0 from rfl]
  refine frees_perm _ (fun i _ => ?_)
  rw [kindOf]
  split <;> split <;> exact Perm.refl _

theorem pdptFrees_perm (pdpt : Nat) :
    ((pdptFrees mem pdpt).map frame ++ [pdpt]).Perm (tables kindOf userFan mem 2 pdpt) := by
  rw [pdptFrees,show 512 = userFan 1 from rfl]
  refine frees_perm _ (fun i _ => ?_)
  rw [kindOf]
  split <;> split
  · exact Perm.refl _
  · exact Perm.refl _
  · exact Perm.refl _
  · rw [map_append]
    exact pdFrees_perm _

theorem pml4Frees_perm (pml4 : Nat) (h : ∀ i, i < 256 → kindOf (mem pml4 i) ≠ .leaf) :
    ((pml4Frees mem pml4).map frame ++ [pml4]).Perm (tables kindOf userFan mem 3 pml4) := by
  rw [pml4Frees,show 256 = userFan 2 from rfl]
  refine frees_perm _ (fun i hi => ?_)
  have hl := h i hi
  rw [kindOf] at hl ⊢
  by_cases hh : mem pml4 i &&& pteHuge ≠ 0
  · exact absurd (if_pos hh) hl
  split
  · exact Perm.refl _
  · rw [map_append]
    exact pdptFrees_perm _

end

/-- The pages taken since `before` are the context, its tables and no others. -/
structure Held (before : Pmm) (ctx : VmmCtx) (own : UInt64) (s : Machine) : Prop where
  rooted : Rooted userFan s 3 ctx.root
  plain : ∀ (js : List Nat) (j : Nat), js.length = 3 → Bounded userFan js →
    (look kindOf 0 s.mem js j ctx.root).2 = false
  took : ∃ fresh, Took before s.pmm fresh ∧
    fresh.Perm (frame own :: tables kindOf userFan s.mem 3 ctx.root)

section
variable {before : Pmm} {ctx : VmmCtx} {own : UInt64} {s : Machine}

section
variable (h : Held before ctx own s)
include h

theorem Held.map {vaddr : UInt64} (hv : UserHalf vaddr)
    (paddr flags : UInt64) : Held before ctx own (vmmMapPage ctx vaddr paddr flags s) := by
  have hb := upper_user hv
  obtain ⟨e,new,hm,-⟩ := vmmMapPage_spec paddr flags h.rooted hb (h.plain _ _ rfl hb)
  refine ⟨hm.rooted,?_,?_⟩
  · intro js j hlen hbj
    rw [hm.looked js j hlen hbj]
    split
    · rfl
    · exact h.plain js j hlen hbj
  · obtain ⟨fresh,ht,hp⟩ := h.took
    refine ⟨fresh ++ new,ht.trans hm.took,?_⟩
    exact (hp.append_right new).trans (hm.pages.symm.cons (frame own))

theorem Held.unmap {vaddr : UInt64} (hv : UserHalf vaddr) :
    Held before ctx own (vmmUnmapPage ctx vaddr s) := by
  have hb := upper_user hv
  obtain ⟨ht,hpmm⟩ := vmmUnmapPage_rooted h.rooted hb
  refine ⟨h.rooted.unmap hb,?_,?_⟩
  · rcases vmmUnmapPage_cases ctx vaddr s with hs | ⟨t,i,heq,⟨hl,rfl⟩ | ⟨hup,-⟩⟩
    · rw [hs]
      exact h.plain
    · intro js j hlen hbj
      rw [heq,(setLeaf_spec 0 0 (ptIndex vaddr) hb hl h.rooted.nodup).2 js j hlen hbj]
      split
      · rfl
      · exact h.plain js j hlen hbj
    · exact absurd (h.plain _ _ rfl hb) hup
  · rw [hpmm,ht]
    exact h.took

theorem Held.run (ops : List Op)
    (hops : ∀ o ∈ ops, UserHalf o.vaddr) : Held before ctx own (run ctx ops s) := by
  induction ops generalizing s with
  | nil => exact h
  | cons o ops ih =>
    have ho := hops o mem_cons_self
    refine ih ?_ (fun o' ho' => hops o' (mem_cons_of_mem o ho'))
    cases o with
    | map vaddr paddr flags => exact h.map ho paddr flags
    | unmap vaddr => exact h.unmap ho

theorem Held.frees (hown : ctx.own = some own) :
    ∃ fresh, Took before s.pmm fresh ∧ ((destroyFrees s.mem ctx).map frame).Perm fresh := by
  obtain ⟨fresh,ht,hpr⟩ := h.took
  refine ⟨fresh,ht,Perm.trans ?_ hpr.symm⟩
  have htop : ∀ i, i < 256 → kindOf (s.mem ctx.root i) ≠ .leaf := by
    intro i hi hl
    have hp := h.plain [i,0,0] 0 rfl ⟨hi,by decide,by decide,trivial⟩
    rw [look,hl] at hp
    exact Bool.noConfusion hp
  have htr := pml4Frees_perm ctx.root htop
  rw [destroyFrees,hown]
  simp only [map_append,map_cons,map_nil]
  have hls : (pml4Frees s.mem ctx.root).map frame ++ [frame ctx.cr3,frame own] =
      ((pml4Frees s.mem ctx.root).map frame ++ [ctx.root]) ++ [frame own] := by
    rw [append_assoc]
    rfl
  rw [hls]
  exact perm_append_comm.trans (htr.cons (frame own))

end

end

variable {a : UInt64} {page : Nat}

section
variable {s : Machine}

theorem held_blank {mem : Tables UInt64} {pmm before : Pmm} {cr3 own : UInt64}
    (hlow : ∀ i, i < 256 → mem (frame cr3) i = 0)
    (htk : Took before pmm [frame cr3,frame own]) (hz : test pmm.bitmap 0 = true) :
    Held before ⟨cr3,some own⟩ own ⟨mem,pmm⟩ := by
  have ht : tables kindOf userFan mem 3 (frame cr3) = [frame cr3] := by
    rw [tables,flatMap_eq_nil_iff.mpr]
    intro i hi
    rw [hlow i (mem_range.mp hi)]
    rfl
  have hr : VmmCtx.root ⟨cr3,some own⟩ = frame cr3 := rfl
  refine ⟨⟨?_,?_,hz⟩,?_,_,htk,?_⟩
  · rw [hr,ht]
    exact nodup_singleton _
  · rw [hr,ht]
    intro p hp
    rw [mem_singleton] at hp
    exact htk.used_fresh (hp ▸ mem_cons_self)
  · intro js j hlen hb
    cases js with
    | nil => exact absurd hlen (by decide)
    | cons i is =>
      have hbn := hb.1
      rw [Nat.succ.inj hlen] at hbn
      have he : kindOf (mem (frame cr3) i) = .absent := by rw [hlow i hbn,kindOf_zero]
      rw [hr,look]
      simp only [he]
  · rw [hr,ht]
    exact Perm.swap _ _ _

theorem frame_page (h : a.toNat = page*4096) : frame a = page := by
  rw [frame,h]
  exact Nat.mul_div_cancel _ (by decide)

theorem addr_ne_zero (h : a.toNat = page*4096) (hpos : 0 < page) : a ≠ 0 := by
  rintro rfl
  rw [UInt64.toNat_zero] at h
  omega

theorem vmmCreateCtx_cases (kernel : VmmCtx) (hz : test s.pmm.bitmap 0 = true) :
    (∃ cr3 own, (vmmCreateCtx kernel s).1 = some ⟨cr3,some own⟩ ∧
        Held s.pmm ⟨cr3,some own⟩ own (vmmCreateCtx kernel s).2) ∨
      ((vmmCreateCtx kernel s).1 = none ∧ Took s.pmm (vmmCreateCtx kernel s).2.pmm []) := by
  rw [vmmCreateCtx]
  rcases allocTable_cases hz with ⟨page,hpos,hlt,ha,hmem,ht⟩ | ⟨hn,-⟩
  · obtain rfl := frame_page ha
    simp only [if_neg (addr_ne_zero ha hpos)]
    have hz' : test (allocTable s).2.pmm.bitmap 0 = true :=
      ht.used (Nat.zero_lt_of_lt (ht.free _ (mem_singleton_self _)).1) hz
    rcases pmmAllocPage_cases (allocTable s).2.pmm with ⟨own,hown,htk⟩ | ⟨hf,-⟩
    · have ho : 0 < own := ClearRun.pos htk.free Nat.one_pos hz'
      obtain rfl := frame_page hown
      rw [if_neg (addr_ne_zero hown ho)]
      refine .inl ⟨_,_,rfl,held_blank ?_ (ht.trans htk.took) ?_⟩
      · intro i hi
        rw [shareKernel,setAt_self,if_neg (by omega),hmem,setAt_self]
      · exact htk.took.used (Nat.zero_lt_of_lt htk.inside) hz'
    rw [hf,if_pos rfl]
    have hg := ht.give (mem_singleton_self (frame (allocTable s).1))
    rw [frame,erase_cons_head] at hg
    exact .inr ⟨rfl,hg⟩
  · rw [hn,if_pos rfl]
    exact .inr ⟨rfl,Took.refl s.pmm⟩

end

section
variable {before : Pmm} {ctx : VmmCtx} {own : UInt64} {s : Machine} {p : Nat}

/-- A page that is in use and is none of the tables keeps its entries. -/
theorem vmmMapPage_outside {fan : Nat → Nat} {vaddr : UInt64} (paddr flags : UInt64)
    (hs : Rooted fan s 3 ctx.root) (hb : Bounded fan (upper vaddr)) (hpl : Plain ctx vaddr s)
    (hp : test s.pmm.bitmap p = true) (hnt : p ∉ tables kindOf fan s.mem 3 ctx.root) :
    (vmmMapPage ctx vaddr paddr flags s).mem p = s.mem p := by
  obtain ⟨fresh,hw⟩ := walk_spec (ptIndex vaddr) hs hb
  have hnf : p ∉ fresh := fun hf => by simpa [hp] using (hw.took.free p hf).2
  have ho := hw.grown.outside p hnt hnf
  rw [vmmMapPage,vmmWalk]
  generalize walk true (upper vaddr) (ptIndex vaddr) ctx.root s = w at hw ho
  obtain ⟨r,s'⟩ := w
  cases r with
  | none => exact ho
  | some w =>
    obtain ⟨hl,-⟩ := hw.found hpl w.1 w.2 rfl
    have ht := hw.grown.pages.mem_iff.mp (leafTable_mem hb hl)
    refine (setEntry_ne _ ?_).trans ho
    rintro rfl
    exact (mem_append.mp ht).elim hnt hnf

theorem Held.step_outside (h : Held before ctx own s) {o : Op} (ho : UserHalf o.vaddr)
    (hp : p < before.total) (hu : test before.bitmap p = true) : (step ctx s o).mem p = s.mem p := by
  obtain ⟨fresh,ht,hpr⟩ := h.took
  have hnt : p ∉ tables kindOf userFan s.mem 3 ctx.root := fun hm => by
    simpa [hu] using (ht.free p (hpr.mem_iff.mpr (mem_cons_of_mem _ hm))).2
  have hb := upper_user ho
  cases o with
  | map vaddr paddr flags =>
    exact vmmMapPage_outside paddr flags h.rooted hb (h.plain _ _ rfl hb) (ht.used hp hu) hnt
  | unmap vaddr =>
    rw [step]
    rcases vmmUnmapPage_cases ctx vaddr s with hs | ⟨t,i,heq,⟨hl,-⟩ | ⟨hup,-⟩⟩
    · rw [hs]
    · rw [heq]
      exact setEntry_ne _ fun hpt => hnt (hpt ▸ leafTable_mem hb hl)
    · exact absurd (h.plain _ _ rfl hb) hup

theorem held_run_outside (h : Held before ctx own s) {ops : List Op} (hops : ∀ o ∈ ops, UserHalf o.vaddr)
    (hp : p < before.total) (hu : test before.bitmap p = true) : (run ctx ops s).mem p = s.mem p := by
  induction ops generalizing s with
  | nil => rfl
  | cons o ops ih =>
    have ho := hops o mem_cons_self
    exact (ih (h.run [o] (by simpa using ho)) fun o' ho' => hops o' (mem_cons_of_mem o ho')).trans
      (h.step_outside ho hp hu)

theorem vmmCreateCtx_outside (kernel : VmmCtx) (hz : test s.pmm.bitmap 0 = true)
    (hu : test s.pmm.bitmap p = true) : (vmmCreateCtx kernel s).2.mem p = s.mem p := by
  rw [vmmCreateCtx]
  rcases allocTable_cases hz with ⟨page,hpos,-,ha,hmem,ht⟩ | ⟨hn,-⟩
  · have hne : p ≠ page := fun h => by simpa [h ▸ hu] using (ht.free page (mem_singleton_self _)).2
    have hs : shareKernel kernel.root page (allocTable s).2.mem p = s.mem p := by
      rw [shareKernel,setAt_ne _ _ hne,hmem,setAt_ne _ _ hne]
    simp only [if_neg (addr_ne_zero ha hpos),frame_page ha]
    split <;> exact hs
  · rw [hn]
    rfl

end

theorem createRunDestroy_restores (kernel : VmmCtx) (s : Machine)
    (hzero : test s.pmm.bitmap 0 = true) (ops : List Op) (hops : ∀ o ∈ ops, UserHalf o.vaddr) :
    (∀ ctx, (vmmCreateCtx kernel s).1 = some ctx → let used := run ctx ops (vmmCreateCtx kernel s).2
      let freed := (destroyFrees used.mem ctx).map frame
      freed.Nodup ∧ freed.toFinset = s.pmm.clear \ used.pmm.clear ∧
        used.pmm.clear = s.pmm.clear \ freed.toFinset ∧
        (vmmDestroyCtx (some ctx) used).pmm.clear = s.pmm.clear ∧
        (vmmDestroyCtx (some ctx) used).pmm.freePages = s.pmm.freePages ∧
        ((∀ p ∈ sharedTables s.mem kernel, p ∉ s.pmm.clear) →
          ∀ p ∈ sharedTables s.mem kernel, p ∉ freed)) ∧
    ((vmmCreateCtx kernel s).1 = none → (vmmCreateCtx kernel s).2.pmm.clear = s.pmm.clear ∧
        (vmmCreateCtx kernel s).2.pmm.freePages = s.pmm.freePages) := by
  have hempty : ∀ {s' : Pmm}, Took s.pmm s' [] →
      s'.clear = s.pmm.clear ∧ s'.freePages = s.pmm.freePages := by
    intro s' h
    refine ⟨?_,?_⟩
    · rw [h.clear,toFinset_nil,Finset.sdiff_empty]
    · rw [← h.fewer]
      exact (UInt64.add_zero _).symm
  rcases vmmCreateCtx_cases kernel hzero with ⟨cr3,own,hsome,hheld⟩ | ⟨hnone,htook⟩
  · refine ⟨?_,fun h => absurd (hsome.symm.trans h) (by simp)⟩
    intro ctx hctx
    obtain rfl : ⟨cr3,some own⟩ = ctx := Option.some.inj (hsome.symm.trans hctx)
    obtain ⟨fresh,htook,hperm⟩ := (hheld.run ops hops).frees rfl
    have hset : ((destroyFrees (run ⟨cr3,some own⟩ ops (vmmCreateCtx kernel s).2).mem
        ⟨cr3,some own⟩).map frame).toFinset = fresh.toFinset := toFinset_eq_of_perm _ _ hperm
    have hend := hempty (htook.give_all hperm)
    intro used freed
    refine ⟨hperm.nodup_iff.mpr htook.nodup,?_,?_,hend.1,hend.2,?_⟩
    · rw [hset,htook.clear,Finset.sdiff_sdiff_eq_self htook.subset]
    · rw [hset,htook.clear]
    · intro hshared p hp hfreed
      exact hshared p hp (htook.subset (mem_toFinset.mpr (hperm.subset hfreed)))
  · exact ⟨fun ctx h => absurd (hnone.symm.trans h) (by simp),fun _ => hempty htook⟩

theorem createRunDestroy_restores_eight : (vmmDestroyCtx (some ⟨0x2000,some 0x3000⟩)
    (run ⟨0x2000,some 0x3000⟩ [.map 0x400000 0x7000 7,.unmap 0x400000]
      (vmmCreateCtx ⟨0x1000,none⟩ ⟨fun _ _ => 0,⟨fun _ => 3#64,8,6,by decide⟩⟩).2)).pmm.clear =
    (⟨fun _ => 3#64,8,6,by decide⟩ : Pmm).clear :=
  ((createRunDestroy_restores ⟨0x1000,none⟩ ⟨fun _ _ => 0,⟨fun _ => 3#64,8,6,by decide⟩⟩
    (by decide) [.map 0x400000 0x7000 7,.unmap 0x400000] (by decide)).1
    ⟨0x2000,some 0x3000⟩ (by decide +kernel)).2.2.2.1

end AevOS.Vmm
