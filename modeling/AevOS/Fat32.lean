import AevOS.ByteBuffer
import AevOS.ClusterChain
import AevOS.LinkWalk
import AevOS.Common

/-! Reading a file with the driver `kernel/fs/fs_fat32.c`. -/

namespace AevOS.Fat32
open Wire Buffer Clusters ArrayPrefix List
open Option (some.inj bind_some map_some elim_some)

structure Fat32Ctx where
  fatBeginLba : Nat
  dataBeginLba : Nat
  bytesPerSector : Nat
  sectorsPerCluster : Nat
  totalClusters : Nat

structure Fat32Node where
  firstClus : Nat
  size : Nat
  isDir : Bool

structure Image where
  sectors : Nat
  bytes : Buf

def endMark : Nat := 0x0FFFFFF8

def readSec (img : Image) (lba : Nat) : Option Buf :=
  if lba < img.sectors then some (fun i => img.bytes (lba*512+i)) else none

def fatNext (c : Fat32Ctx) (img : Image) (cluster : Nat) : Nat :=
  if cluster < 2 ∨ u32 (c.totalClusters+2) ≤ cluster then endMark
  else
    let fatOffset := u32 (cluster*4)
    let off := fatOffset%c.bytesPerSector
    match readSec img (u32 (c.fatBeginLba+fatOffset/c.bytesPerSector)) with
    | none => endMark
    | some buf =>
      if c.bytesPerSector < off+4 then endMark else leValue (get buf off 4)%2^28

def clusToLba (c : Fat32Ctx) (clus : Nat) : Nat :=
  u32 (c.dataBeginLba+u32 (clus+2^32-2)*c.sectorsPerCluster)

def copySector (sec : Buf) (size : Nat) : List Nat → Nat → Bytes → Nat × Bytes
  | [], skip, out => (skip,out)
  | o :: os, skip, out =>
    if size ≤ out.length then (skip,out)
    else if 0 < skip then copySector sec size os (skip-1) out
    else copySector sec size os skip (out ++ [sec o])

def copySectors (c : Fat32Ctx) (img : Image) (base size : Nat) :
    List Nat → Nat → Bytes → Except Errno (Nat × Bytes)
  | [], skip, out => .ok (skip,out)
  | si :: sis, skip, out =>
    if size ≤ out.length then .ok (skip,out)
    else if 512 < c.bytesPerSector then .error .eio
    else
      match readSec img (u32 (base+si)) with
      | none => .error .eio
      | some sec =>
        let r := copySector sec size (List.range c.bytesPerSector) skip out
        copySectors c img base size sis r.1 r.2

def inUse (cl : Nat) : Prop := 2 ≤ cl ∧ cl < endMark
  deriving Decidable

def skipClusters (c : Fat32Ctx) (img : Image) (clusSize offset : Nat) : Nat → Nat → Nat → Option (Nat × Nat)
  | 0, _, _ => none
  | fuel+1, filePos, cl =>
    if filePos+clusSize ≤ offset ∧ inUse cl then
      skipClusters c img clusSize offset fuel (filePos+clusSize) (fatNext c img cl)
    else some (filePos,cl)

def copyClusters (c : Fat32Ctx) (img : Image) (size : Nat) : Nat → Nat → Nat → Bytes → Option (Except Errno Bytes)
  | 0, _, _, _ => none
  | fuel+1, cl, skip, out =>
    if out.length < size ∧ inUse cl then
      match copySectors c img (clusToLba c cl) size (List.range c.sectorsPerCluster) skip out with
      | .error e => some (.error e)
      | .ok r => copyClusters c img size fuel (fatNext c img cl) r.1 r.2
    else some (.ok out)

def fat32Read (fuel : Nat) (c : Fat32Ctx) (img : Image) (fn : Fat32Node) (offset size : Nat) :
    Option (Except Errno Bytes) :=
  if fn.isDir then some (.error .einval)
  else if fn.size ≤ offset then some (.ok [])
  else
    let size := min size (fn.size-offset)
    let clusSize := u32 (c.bytesPerSector*c.sectorsPerCluster)
    (skipClusters c img clusSize offset fuel 0 fn.firstClus).bind fun r =>
      copyClusters c img size fuel r.2 (u32 (offset-r.1)) []

def copied (size skip : Nat) (l out : Bytes) : Bytes := out ++ (l.drop skip).take (size-out.length)

section
variable {size skip : Nat} {out : Bytes}

theorem copied_full (h : size ≤ out.length) (l : Bytes) : copied size skip l out = out := by
  rw [copied,Nat.sub_eq_zero_of_le h,take_zero,append_nil]

@[simp] theorem copied_nil : copied size skip [] out = out := by simp [copied]

theorem copied_append (l m : Bytes) :
    copied size skip (l ++ m) out = copied size (skip-l.length) m (copied size skip l out) := by
  simp only [copied,drop_append,take_append,append_assoc,length_append,length_take]
  congr 3
  omega

theorem copySector_eq (size skip : Nat) (out : Bytes) (sec : Buf) (os : List Nat) :
    (copySector sec size os skip out).2 = copied size skip (os.map sec) out ∧
      ((copySector sec size os skip out).2.length < size →
        (copySector sec size os skip out).1 = skip-os.length) := by
  fun_induction copySector sec size os skip out with
  | case1 skip out => simp
  | case2 o os skip out hf =>
    rw [copied_full hf]
    exact ⟨rfl,fun hlt => absurd hlt (Nat.not_lt.mpr hf)⟩
  | case3 o os skip out hout hs ih =>
    obtain ⟨k,rfl⟩ : ∃ k, skip = k+1 := ⟨skip-1,by omega⟩
    rw [Nat.add_sub_cancel] at ih ⊢
    refine ⟨ih.1,fun hlt => ?_⟩
    rw [ih.2 hlt,length_cons,Nat.add_sub_add_right]
  | case4 o os skip out hout hs ih =>
    obtain rfl : skip = 0 := by omega
    have hone : copied size 0 [sec o] out = out ++ [sec o] := by
      rw [copied,drop_zero,take_of_length_le]
      rw [length_singleton]
      omega
    refine ⟨?_,fun hlt => ?_⟩
    · have happ : copied size 0 ([sec o] ++ os.map sec) out = _ := copied_append [sec o] (os.map sec)
      rw [hone,Nat.zero_sub] at happ
      exact ih.1.trans happ.symm
    · rw [ih.2 hlt,Nat.zero_sub,Nat.zero_sub]

end

structure Geometry (c : Fat32Ctx) (img : Image) : Prop where
  sector : c.bytesPerSector = 512
  cluster : 0 < c.sectorsPerCluster ∧ c.sectorsPerCluster < 256
  numbers : c.totalClusters+2 ≤ endMark
  table : c.fatBeginLba+(c.totalClusters+2)*4/512 < img.sectors
  clusters : c.dataBeginLba+c.totalClusters*c.sectorsPerCluster ≤ img.sectors
  size : img.sectors ≤ 2^32

def clusterSize (c : Fat32Ctx) : Nat := 512*c.sectorsPerCluster

def clusterData (c : Fat32Ctx) (img : Image) (cl : Nat) : Bytes :=
  get img.bytes ((c.dataBeginLba+(cl-2)*c.sectorsPerCluster)*512) (clusterSize c)

/-- The link that the table on the disk holds for a cluster. -/
def fatEntry (c : Fat32Ctx) (img : Image) (cl : Nat) : Nat :=
  leValue (get img.bytes (c.fatBeginLba*512+4*cl) 4)%2^28

/-- The clusters of a file as the disk links them, enough of them for its size. -/
structure FileChain (c : Fat32Ctx) (img : Image) (fn : Fat32Node) (chain : List Nat) : Prop where
  first : ∀ cl ∈ chain.head?, cl = fn.firstClus
  valid : ∀ cl ∈ chain, 2 ≤ cl ∧ cl < c.totalClusters+2
  links : chain.IsChain (fun cl cl' => fatEntry c img cl = cl')
  holds : fn.size ≤ clusterSize c*chain.length

variable {cl fuel : Nat} {chain : List Nat}

section
variable {c : Fat32Ctx} {img : Image} {size skip : Nat} {out : Bytes}

theorem Geometry.inUse (h : Geometry c img) (hcl : 2 ≤ cl ∧ cl < c.totalClusters+2) : inUse cl :=
  ⟨hcl.1,lt_of_lt_of_le hcl.2 h.numbers⟩

theorem Geometry.clusToLba (h : Geometry c img) (hcl : 2 ≤ cl ∧ cl < c.totalClusters+2) :
    clusToLba c cl = c.dataBeginLba+(cl-2)*c.sectorsPerCluster ∧
      c.dataBeginLba+(cl-2)*c.sectorsPerCluster+c.sectorsPerCluster ≤ img.sectors := by
  have hn : c.totalClusters+2 ≤ 0x0FFFFFF8 := h.numbers
  have hle : (cl-2)*c.sectorsPerCluster+c.sectorsPerCluster ≤ c.totalClusters*c.sectorsPerCluster := by
    rw [← Nat.succ_mul]
    exact Nat.mul_le_mul_right _ (by omega)
  have hc := h.clusters
  have hs := h.size
  have hpos := h.cluster.1
  have hsub : u32 (cl+2^32-2) = cl-2 := by
    rw [u32,show cl+2^32-2 = (cl-2)+2^32 by omega,Nat.add_mod_right,Nat.mod_eq_of_lt (by omega)]
  refine ⟨?_,by omega⟩
  rw [Fat32.clusToLba,hsub,u32,Nat.mod_eq_of_lt (by omega)]

theorem Geometry.fatNext (h : Geometry c img) (hcl : 2 ≤ cl ∧ cl < c.totalClusters+2) :
    fatNext c img cl = fatEntry c img cl := by
  have hn : c.totalClusters+2 ≤ 0x0FFFFFF8 := h.numbers
  have ht := h.table
  have hs := h.size
  have hsec : readSec img (c.fatBeginLba+cl*4/512) =
      some fun i => img.bytes ((c.fatBeginLba+cl*4/512)*512+i) := if_pos (by omega)
  have hu : ∀ n, n < 2^32 → u32 n = n := fun n hn => Nat.mod_eq_of_lt hn
  rw [Fat32.fatNext,h.sector,hu (c.totalClusters+2) (by omega),hu (cl*4) (by omega),if_neg (by omega)]
  dsimp only
  rw [hu (c.fatBeginLba+cl*4/512) (by omega),hsec]
  have hget : get (fun i => img.bytes ((c.fatBeginLba+cl*4/512)*512+i)) (cl*4%512) 4 =
      get img.bytes (c.fatBeginLba*512+4*cl) 4 :=
    firsts_congr fun k _ => congrArg img.bytes (by omega)
  dsimp only
  rw [if_neg (by omega),fatEntry,hget]

theorem FileChain.read {fn : Fat32Node} (hc : FileChain c img fn chain) (h : Geometry c img) :
    chain.IsChain (fun a b => Fat32.fatNext c img a = b) :=
  hc.links.imp_of_mem_imp fun a _ ha _ hab => (h.fatNext (hc.valid a ha)).trans hab

theorem copySectors_eq (size skip : Nat) (out : Bytes) (h : Geometry c img) {base : Nat} (si : Nat) {n : Nat}
    (hin : base+si+n ≤ img.sectors) : ∃ skip', copySectors c img base size (range' si n) skip out =
        .ok (skip',copied size skip (get img.bytes ((base+si)*512) (512*n)) out) ∧
      ((copied size skip (get img.bytes ((base+si)*512) (512*n)) out).length < size →
        skip' = skip-512*n) := by
  have hsz := h.size
  induction n generalizing skip out si with
  | zero =>
    have hnil : get img.bytes ((base+si)*512) (512*0) = [] := rfl
    rw [hnil,copied_nil]
    exact ⟨skip,rfl,fun _ => rfl⟩
  | succ n ih =>
    have hsp : get img.bytes ((base+si)*512) (512*(n+1)) =
        get img.bytes ((base+si)*512) 512 ++ get img.bytes ((base+(si+1))*512) (512*n) := by
      have hn : (base+(si+1))*512 = (base+si)*512+512 := by omega
      have hlen : 512*(n+1) = 512+512*n := by omega
      rw [hlen,get_append,hn]
    rw [range'_succ,copySectors]
    split
    · next hf =>
      rw [copied_full hf]
      exact ⟨skip,rfl,fun hlt => absurd hlt (Nat.not_lt.mpr hf)⟩
    · next hout =>
      have hsec : readSec img (u32 (base+si)) = some fun i => img.bytes ((base+si)*512+i) := by
        rw [u32,Nat.mod_eq_of_lt (by omega),readSec,if_pos (by omega)]
      have hmap : (List.range 512).map (fun i => img.bytes ((base+si)*512+i)) =
          get img.bytes ((base+si)*512) 512 := rfl
      obtain ⟨hc,hs⟩ := copySector_eq size skip out
        (fun i => img.bytes ((base+si)*512+i)) (List.range 512)
      rw [if_neg (by rw [h.sector]; omega),hsec,h.sector]
      dsimp only
      rw [hmap] at hc
      rw [hsp,copied_append,get_length,← hc]
      generalize copySector (fun i => img.bytes ((base+si)*512+i)) size (List.range 512)
        skip out = r at hs ⊢
      obtain ⟨skip1,out1⟩ := r
      by_cases hf : size ≤ out1.length
      · -- nothing more is copied
        obtain ⟨skip',heq,-⟩ := ih skip1 out1 (si+1) (by omega)
        rw [copied_full hf] at heq ⊢
        exact ⟨skip',heq,fun hlt => absurd hlt (Nat.not_lt.mpr hf)⟩
      · rw [hs (Nat.not_le.mp hf),length_range]
        obtain ⟨skip',heq,hr⟩ := ih (skip-512) out1 (si+1) (by omega)
        exact ⟨skip',heq,fun hlt => by rw [hr hlt]; omega⟩

theorem copyCluster_eq (size skip : Nat) (out : Bytes) (h : Geometry c img)
    (hcl : 2 ≤ cl ∧ cl < c.totalClusters+2) :
    ∃ skip', copySectors c img (clusToLba c cl) size (List.range c.sectorsPerCluster) skip out =
        .ok (skip',copied size skip (clusterData c img cl) out) ∧
      ((copied size skip (clusterData c img cl) out).length < size → skip' = skip-clusterSize c) := by
  obtain ⟨hlba,hin⟩ := h.clusToLba hcl
  rw [hlba,range_eq_range']
  exact copySectors_eq size skip out h 0 hin

theorem head?_tail_of_links {next : Nat → Nat} {cs : List Nat}
    (h : (cl :: cs).IsChain fun a b => next a = b) : ∀ x ∈ cs.head?, x = next cl := by
  intro x hx
  cases cs with
  | nil => cases hx
  | cons d cs =>
    obtain rfl : d = x := some.inj hx
    exact (isChain_cons_cons.mp h).1.symm

theorem copyClusters_eq (h : Geometry c img) (hh : ∀ x ∈ chain.head?, x = cl)
    (hv : ∀ x ∈ chain, 2 ≤ x ∧ x < c.totalClusters+2)
    (hl : chain.IsChain fun a b => fatNext c img a = b) (hfl : chain.length < fuel)
    (hf : size ≤ (copied size skip (chain.flatMap (clusterData c img)) out).length) :
    copyClusters c img size fuel cl skip out =
      some (.ok (copied size skip (chain.flatMap (clusterData c img)) out)) := by
  induction chain generalizing cl skip out fuel with
  | nil =>
    obtain ⟨fuel,rfl⟩ := Nat.exists_eq_succ_of_ne_zero (ne_of_gt hfl)
    rw [flatMap_nil,copied_nil] at hf ⊢
    rw [copyClusters,if_neg fun hlt => absurd hlt.1 (Nat.not_lt.mpr hf)]
  | cons d cs ih =>
    obtain ⟨fuel,rfl⟩ := Nat.exists_eq_succ_of_ne_zero (Nat.ne_zero_of_lt hfl)
    obtain rfl : d = cl := hh d rfl
    have hd := hv d mem_cons_self
    rw [copyClusters]
    by_cases hout : out.length < size
    · obtain ⟨skip',heq,hs⟩ := copyCluster_eq size skip out h hd
      have hlen : (clusterData c img d).length = clusterSize c := get_length _ _ _
      rw [if_pos ⟨hout,h.inUse hd⟩,heq]
      rw [flatMap_cons,copied_append,hlen] at hf ⊢
      have hr : copied size skip' (cs.flatMap (clusterData c img)) (copied size skip (clusterData c img d) out) =
          copied size (skip-clusterSize c) (cs.flatMap (clusterData c img))
            (copied size skip (clusterData c img d) out) := by
        by_cases hdn : size ≤ (copied size skip (clusterData c img d) out).length
        · rw [copied_full hdn,copied_full hdn]
        · rw [hs (Nat.not_le.mp hdn)]
      rw [← hr] at hf ⊢
      exact ih (head?_tail_of_links hl) (fun x hx => hv x (mem_cons_of_mem _ hx))
        hl.tail (Nat.lt_of_succ_lt_succ hfl) hf
    · rw [if_neg fun hlt => hout hlt.1,copied_full (Nat.not_lt.mp hout)]

theorem skipClusters_eq (h : Geometry c img) {offset filePos : Nat}
    (hh : ∀ x ∈ chain.head?, x = cl) (hv : ∀ x ∈ chain, 2 ≤ x ∧ x < c.totalClusters+2)
    (hl : chain.IsChain fun a b => fatNext c img a = b) (hf : chain.length < fuel)
    (hlow : filePos ≤ offset) (hhg : offset < filePos+clusterSize c*chain.length) :
    ∃ k cl', skipClusters c img (clusterSize c) offset fuel filePos cl =
        some (filePos+clusterSize c*k,cl') ∧ (∀ x ∈ (chain.drop k).head?, x = cl') ∧
      filePos+clusterSize c*k ≤ offset ∧ offset < filePos+clusterSize c*k+clusterSize c := by
  induction chain generalizing cl filePos fuel with
  | nil =>
    rw [length_nil] at hhg
    omega
  | cons d cs ih =>
    obtain ⟨fuel,rfl⟩ := Nat.exists_eq_succ_of_ne_zero (Nat.ne_zero_of_lt hf)
    obtain rfl : d = cl := hh d rfl
    rw [skipClusters]
    by_cases hm : filePos+clusterSize c ≤ offset
    · rw [if_pos ⟨hm,h.inUse (hv d mem_cons_self)⟩]
      rw [length_cons,Nat.mul_succ] at hhg
      obtain ⟨k,cl',heq,hcl',hk,hk'⟩ := ih (head?_tail_of_links hl)
        (fun x hx => hv x (mem_cons_of_mem _ hx)) hl.tail (Nat.lt_of_succ_lt_succ hf) hm
        (by omega)
      have hpos : filePos+clusterSize c+clusterSize c*k = filePos+clusterSize c*(k+1) := by
        rw [Nat.mul_succ]
        omega
      rw [hpos] at heq hk hk'
      exact ⟨k+1,cl',heq,hcl',hk,hk'⟩
    · rw [if_neg fun hlt => hm hlt.1]
      exact ⟨0,d,rfl,hh,hlow,by omega⟩

end

theorem fat32Read_eq (c : Fat32Ctx) (img : Image) (h : Geometry c img) (fn : Fat32Node)
    (hfile : fn.isDir = false) (chain : List Nat) (hchain : FileChain c img fn chain) (offset size fuel : Nat)
    (hfuel : chain.length < fuel) :
    fat32Read fuel c img fn offset size =
      some (.ok ((((chain.flatMap (clusterData c img)).take fn.size).drop offset).take size)) := by
  have hdata : ∀ cl, (clusterData c img cl).length = clusterSize c := fun _ => get_length _ _ _
  have hlen := length_flatMap_uniform hdata chain
  have hholds := hchain.holds
  have hspec : (((chain.flatMap (clusterData c img)).take fn.size).drop offset).take size =
      ((chain.flatMap (clusterData c img)).drop offset).take (min size (fn.size-offset)) := by
    rw [drop_take,take_take]
  rw [hspec,fat32Read,hfile,if_neg (by decide)]
  by_cases hoff : fn.size ≤ offset
  · rw [if_pos hoff,Nat.sub_eq_zero_of_le hoff,Nat.min_zero,take_zero]
  have hspc := h.cluster.2
  have hsize : u32 (c.bytesPerSector*c.sectorsPerCluster) = clusterSize c := by
    rw [h.sector,clusterSize,u32,Nat.mod_eq_of_lt (by omega)]
  obtain ⟨k,cl,heq,hcl,hlow,hhigh⟩ := skipClusters_eq h hchain.first hchain.valid (hchain.read h) hfuel
    (Nat.zero_le offset) (by omega)
  rw [Nat.zero_add] at heq hlow hhigh
  have hbound : clusterSize c ≤ 512*256 := Nat.mul_le_mul_left 512 hspc.le
  have hskip : u32 (offset-clusterSize c*k) = offset-clusterSize c*k := Nat.mod_eq_of_lt (by omega)
  have hwindow : copied (min size (fn.size-offset)) (offset-clusterSize c*k)
      ((chain.drop k).flatMap (clusterData c img)) [] =
        ((chain.flatMap (clusterData c img)).drop offset).take (min size (fn.size-offset)) := by
    rw [copied,nil_append,length_nil,Nat.sub_zero,← drop_flatMap_uniform hdata chain k,
      drop_drop,Nat.add_sub_cancel' hlow]
  rw [if_neg hoff]
  dsimp only
  rw [hsize,heq,bind_some]
  rw [hskip,← hwindow]
  refine copyClusters_eq h hcl (fun x hx => hchain.valid x (mem_of_mem_drop hx))
    ((hchain.read h).drop k) ?_ ?_
  · rw [length_drop]
    omega
  · rw [hwindow,length_take,length_drop,hlen]
    omega

def twoClusters : Image := ⟨4,put (put zeros 520 [3,0,0,0]) 1535 [7,8]⟩

theorem fat32Read_eq_twoClusters : fat32Read 3 ⟨1,2,512,1,2⟩ twoClusters ⟨2,600,false⟩ 510 4 =
    some (.ok (((([2,3].flatMap (clusterData ⟨1,2,512,1,2⟩ twoClusters)).take 600).drop 510).take 4)) := by
  have hgeometry : Geometry ⟨1,2,512,1,2⟩ twoClusters := ⟨rfl,by decide,by decide,by decide,by decide,by decide⟩
  have hchain : FileChain ⟨1,2,512,1,2⟩ twoClusters ⟨2,600,false⟩ [2,3] := by
    refine ⟨by simp,by simp,?_,by decide⟩
    decide +kernel
  exact fat32Read_eq _ _ hgeometry _ rfl _ hchain 510 4 3 (by decide)

/-! Mounting a volume with `kernel/fs/fs_fat32.c` and its directories. A function logs the sectors, the
places of its sector buffer and the entries it meets; `behind` is what lies behind that buffer. -/

open LinkWalk

def vfsNameMax : Nat := 128

def bpbBytesPerSector (s0 : Buf) : Nat := leValue (get s0 11 2)
def bpbSectorsPerCluster (s0 : Buf) : Nat := (s0 13).toNat
def bpbReserved (s0 : Buf) : Nat := leValue (get s0 14 2)
def bpbNfat (s0 : Buf) : Nat := (s0 16).toNat
def bpbRootEnt (s0 : Buf) : Nat := leValue (get s0 17 2)
def bpbSpf32 (s0 : Buf) : Nat := leValue (get s0 36 4)
def bpbRootClus (s0 : Buf) : Nat := leValue (get s0 44 4)

def bpbTotalSec (s0 : Buf) : Nat :=
  if leValue (get s0 32 4) = 0 then leValue (get s0 19 2) else leValue (get s0 32 4)

structure Fat32Volume extends Fat32Ctx where
  partLba : Nat
  rootCluster : Nat
  sectorsPerFat32 : Nat

def parseFat32Bpb (s0 : Buf) : Option Fat32Volume :=
  if bpbBytesPerSector s0 ≠ 512 ∧ bpbBytesPerSector s0 ≠ 1024 ∧ bpbBytesPerSector s0 ≠ 2048 ∧
      bpbBytesPerSector s0 ≠ 4096 then none
  else if bpbSectorsPerCluster s0 = 0 then none
  else if bpbRootEnt s0 ≠ 0 ∨ bpbSpf32 s0 = 0 then none
  else if bpbRootClus s0 < 2 then none
  else
    let dataBegin := u32 (bpbReserved s0+bpbNfat s0*bpbSpf32 s0)
    some {
      fatBeginLba := bpbReserved s0
      dataBeginLba := dataBegin
      bytesPerSector := bpbBytesPerSector s0
      sectorsPerCluster := bpbSectorsPerCluster s0
      totalClusters := u32 (bpbTotalSec s0+2^32-dataBegin)/bpbSectorsPerCluster s0
      partLba := 0
      rootCluster := bpbRootClus s0
      sectorsPerFat32 := bpbSpf32 s0 }

def Fat32Volume.moved (v : Fat32Volume) (p : Nat) : Fat32Volume :=
  { v with
    fatBeginLba := u32 (v.fatBeginLba+p)
    dataBeginLba := u32 (v.dataBeginLba+p)
    partLba := p }

def probeEntries (img : Image) : List Nat → Buf → Fat32Volume ⊕ Buf
  | [], sec => .inr sec
  | i :: is, sec =>
    let pe := 0x1BE+i*16
    if sec (pe+4) ≠ 0x0C ∧ sec (pe+4) ≠ 0x0B then probeEntries img is sec
    else
      let lba := leValue (get sec (pe+8) 4)
      match readSec img lba with
      | none => probeEntries img is sec
      | some sec =>
        match parseFat32Bpb sec with
        | some v => .inl (v.moved lba)
        | none => probeEntries img is sec

def probePartition (img : Image) : Option Fat32Volume :=
  (readSec img 0).bind fun sec =>
    if sec 510 = 0x55 ∧ sec 511 = 0xAA ∧ sec 450 ≠ 0xEE then
      match probeEntries img [0,1,2,3] sec with
      | .inl v => some v
      | .inr sec => (parseFat32Bpb sec).map fun v => v.moved 0
    else (parseFat32Bpb sec).map fun v => v.moved 0

def rtrim (bs : Bytes) : Bytes := (bs.reverse.dropWhile (· == 32)).reverse
def upper (b : UInt8) : UInt8 := if 97 ≤ b ∧ b ≤ 122 then b-32 else b

def trim83 (e : Buf) : Bytes :=
  let base := cstr (rtrim (get e 0 8))
  let ext := cstr (rtrim (get e 8 3))
  ((if ext = [] then base else base ++ 46 :: ext).take (vfsNameMax-1)).map upper

def nameEqFat (a fatNorm : Bytes) : Bool := (a.take (vfsNameMax-1)).map upper == fatNorm

structure Dirent where
  name : Bytes
  firstClus : Nat
  size : Nat
  isDir : Bool
  deriving DecidableEq

def readDirent (e : Buf) : Dirent :=
  ⟨trim83 e,leValue (get e 26 2)+leValue (get e 20 2)*2^16,leValue (get e 28 4),e 11 &&& 0x10 != 0⟩

def skipped (e : Buf) : Bool := e 0 == 0xE5 || e 11 == 0x0F || e 11 &&& 0x08 != 0

inductive Event where
  | sector (lba : Nat)
  | bytes (off n : Nat)
  | entry (d : Dirent)
  | out (d : Dirent)
  deriving DecidableEq

def Event.sector? : Event → Option Nat
  | .sector lba => some lba
  | _ => none

def Event.isSector (e : Event) : Bool := e.sector?.isSome

def Event.entry? : Event → Option Dirent
  | .entry d => some d
  | _ => none

def skipEvents (e : Buf) (off : Nat) : List Event :=
  if e 0 = 0xE5 then [.bytes off 1] else [.bytes off 1,.bytes (off+11) 1]

def entryEvents (d : Dirent) (off : Nat) : List Event :=
  [.bytes off 1,.bytes (off+11) 1,.bytes off 11,.bytes (off+26) 2,.bytes (off+20) 2,
    .bytes (off+28) 4,.entry d]

section
variable (c : Fat32Ctx) (img : Image) (behind : Buf)

def sectorBuf (lba : Nat) : Option Buf :=
  (readSec img lba).map fun sec i => if i < 512 then sec i else behind i

def fatNextLog (cluster : Nat) : Nat × List Event :=
  if cluster < 2 ∨ u32 (c.totalClusters+2) ≤ cluster then (endMark,[])
  else
    let fatOffset := u32 (cluster*4)
    let sec := u32 (c.fatBeginLba+fatOffset/c.bytesPerSector)
    let off := fatOffset%c.bytesPerSector
    match sectorBuf img behind sec with
    | none => (endMark,[.sector sec])
    | some buf =>
      if c.bytesPerSector < off+4 then (endMark,[.sector sec])
      else (leValue (get buf off 4)%2^28,[.sector sec,.bytes off 4])

def scanEntries (found : Dirent → Bool) (sec : Buf) : List Nat → Option (Option Dirent) × List Event
  | [] => (none,[])
  | off :: offs =>
    let e : Buf := fun i => sec (off+i)
    if e 0 = 0 then (some none,[.bytes off 1])
    else if skipped e then
      let r := scanEntries found sec offs
      (r.1,skipEvents e off ++ r.2)
    else if found (readDirent e) then (some (some (readDirent e)),entryEvents (readDirent e) off)
    else
      let r := scanEntries found sec offs
      (r.1,entryEvents (readDirent e) off ++ r.2)

def entryOffsets : List Nat := (List.range (c.bytesPerSector/32)).map (32*·)

def scanSectors (found : Dirent → Bool) (lba : Nat) : List Nat → Option Dirent × List Event
  | [] => (none,[])
  | s :: ss =>
    match sectorBuf img behind (u32 (lba+s)) with
    | none => (none,[.sector (u32 (lba+s))])
    | some sec =>
      let r := scanEntries found sec (entryOffsets c)
      match r.1 with
      | some d => (d,.sector (u32 (lba+s)) :: r.2)
      | none =>
        let rest := scanSectors found lba ss
        (rest.1,.sector (u32 (lba+s)) :: r.2 ++ rest.2)

def scanDirCluster (cluster : Nat) (want : Bytes) : Option Dirent × List Event :=
  scanSectors c img behind (fun d => nameEqFat want d.name) (clusToLba c cluster)
    (List.range c.sectorsPerCluster)

def listDirCluster (cluster : Nat) : List Event :=
  (scanSectors c img behind (fun _ => false) (clusToLba c cluster)
    (List.range c.sectorsPerCluster)).2

def findInDir (name : Bytes) : Nat → Nat → Option (Option Dirent × List Event)
  | 0, _ => none
  | fuel+1, cl =>
    let scan := scanDirCluster c img behind cl name
    match scan.1 with
    | some d => some (some d,scan.2)
    | none =>
      let nx := fatNextLog c img behind cl
      if endMark ≤ nx.1 then some (none,scan.2 ++ nx.2)
      else (findInDir name fuel nx.1).map fun r => (r.1,scan.2 ++ nx.2 ++ r.2)

def intOf (max : Nat) : Int := if u32 max < 2^31 then (u32 max : Int) else (u32 max : Int)-2^32

def taken (max n cl : Nat) : List Dirent :=
  ((listDirCluster c img behind cl).filterMap Event.entry?).take (max-n)

def readdirLoop (max : Nat) : Nat → Nat → Nat → Option (List Event)
  | 0, _, _ => none
  | fuel+1, cl, n =>
    let ds := taken c img behind max n cl
    let nx := fatNextLog c img behind cl
    let log := listDirCluster c img behind cl ++ ds.map .out ++ nx.2
    if endMark ≤ nx.1 ∨ intOf max ≤ (n+ds.length : Nat) then some log
    else (readdirLoop max fuel nx.1 (n+ds.length)).map fun r => log ++ r

def fat32Lookup (fuel : Nat) (pdn : Fat32Node) (name : Bytes) (mem : Bool) :
    Option (Option Fat32Node × List Event) :=
  if !pdn.isDir then some (none,[])
  else
    (findInDir c img behind name fuel pdn.firstClus).map fun r =>
      (if mem then r.1.map fun d => ⟨d.firstClus,d.size,d.isDir⟩ else none,r.2)

def fat32Readdir (fuel : Nat) (fn : Fat32Node) (max : Nat) : Option (Except Errno (List Event)) :=
  if !fn.isDir then some (.error .einval)
  else (readdirLoop c img behind max fuel fn.firstClus 0).map .ok

def lookupVisit (name : Bytes) (cl : Nat) : Visit Nat (Option Dirent) :=
  match (scanDirCluster c img behind cl name).1 with
  | some d => .stop (some d)
  | none =>
    if endMark ≤ (fatNextLog c img behind cl).1 then .stop none
    else .next (fatNextLog c img behind cl).1

def lookupLog (name : Bytes) (cl : Nat) : List Event :=
  match (scanDirCluster c img behind cl name).1 with
  | some _ => (scanDirCluster c img behind cl name).2
  | none => (scanDirCluster c img behind cl name).2 ++ (fatNextLog c img behind cl).2

def listVisit (max : Nat) (x : Nat × Nat) : Visit (Nat × Nat) Unit :=
  if endMark ≤ (fatNextLog c img behind x.1).1 ∨
      intOf max ≤ (x.2+(taken c img behind max x.2 x.1).length : Nat) then .stop ()
  else .next ((fatNextLog c img behind x.1).1,x.2+(taken c img behind max x.2 x.1).length)

def listLog (max : Nat) (x : Nat × Nat) : List Event :=
  listDirCluster c img behind x.1 ++ (taken c img behind max x.2 x.1).map .out ++
    (fatNextLog c img behind x.1).2

def chainVisit (cl : Nat) : Visit Nat Unit :=
  if endMark ≤ (fatNextLog c img behind cl).1 then .stop () else .next (fatNextLog c img behind cl).1

theorem findInDir_eq_walk (name : Bytes) (fuel cl : Nat) : findInDir c img behind name fuel cl =
    walk (lookupVisit c img behind name) (lookupLog c img behind name) fuel cl := by
  induction fuel generalizing cl with
  | zero => rfl
  | succ fuel ih =>
    cases hs : (scanDirCluster c img behind cl name).1 with
    | some d => simp [findInDir,walk,lookupVisit,lookupLog,hs]
    | none =>
      by_cases hend : endMark ≤ (fatNextLog c img behind cl).1
      · simp [findInDir,walk,lookupVisit,lookupLog,hs,hend]
      · simp [findInDir,walk,lookupVisit,lookupLog,hs,hend,ih]

theorem readdirLoop_eq_walk (max fuel : Nat) (x : Nat × Nat) : readdirLoop c img behind max fuel x.1 x.2 =
    (walk (listVisit c img behind max) (listLog c img behind max) fuel x).map Prod.snd := by
  induction fuel generalizing x with
  | zero => rfl
  | succ fuel ih =>
    by_cases hend : endMark ≤ (fatNextLog c img behind x.1).1 ∨
        intOf max ≤ (x.2+(taken c img behind max x.2 x.1).length : Nat)
    · simp only [readdirLoop,walk,listVisit,listLog,hend,if_true,map_some]
    have := ih ((fatNextLog c img behind x.1).1,x.2+(taken c img behind max x.2 x.1).length)
    simp only [readdirLoop,walk,listVisit,hend,if_false,Option.map_map] at this ⊢
    rw [this]
    simp [listLog,Function.comp_def]

end

variable {cl max : Nat} {x : Nat × Nat}

section
variable {c : Fat32Ctx} {img : Image} {behind : Buf}

theorem scanEntries_sectors (found : Dirent → Bool) (sec : Buf) (offs : List Nat) :
    (scanEntries found sec offs).2.filterMap Event.sector? = [] := by
  induction offs with
  | nil => rfl
  | cons off offs ih =>
    rw [scanEntries]
    split
    · rfl
    split
    · rw [filterMap_append,ih,skipEvents]
      split <;> rfl
    split
    · rfl
    · rw [filterMap_append,ih]
      rfl

theorem scanSectors_sectors (found : Dirent → Bool) (lba : Nat) (ss : List Nat) :
    (scanSectors c img behind found lba ss).2.filterMap Event.sector? <+: ss.map fun s => u32 (lba+s) := by
  induction ss with
  | nil => exact nil_prefix
  | cons s ss ih =>
    have hone : [u32 (lba+s)] <+: (s :: ss).map fun s => u32 (lba+s) :=
      prefix_append [u32 (lba+s)] (ss.map fun s => u32 (lba+s))
    rw [scanSectors]
    cases hsec : sectorBuf img behind (u32 (lba+s)) with
    | none => exact hone
    | some sec =>
      have hn := scanEntries_sectors found sec (entryOffsets c)
      dsimp only
      cases hr : (scanEntries found sec (entryOffsets c)).1 with
      | some d => simp [Event.sector?,hn]
      | none =>
        rw [filterMap_append,filterMap_cons,hn]
        exact (prefix_cons_inj _).mpr ih

theorem scanSectors_reads (found : Dirent → Bool) (lba : Nat) (ss : List Nat) :
    (scanSectors c img behind found lba ss).2.countP Event.isSector ≤ ss.length := by
  have hle := (@scanSectors_sectors c img behind found lba ss).length_le
  rwa [length_filterMap_eq_countP,length_map] at hle

theorem fatNextLog_reads (cl : Nat) : (fatNextLog c img behind cl).2.countP Event.isSector ≤ 1 := by
  unfold fatNextLog
  split
  · simp
  dsimp only
  split
  · simp [Event.isSector,Event.sector?]
  · split <;> simp [countP_cons,Event.isSector,Event.sector?]

/-- While a table entry lies inside the sector buffer, what lies behind it does not matter. -/
theorem fatNextLog_fst (h : c.bytesPerSector ≤ 512) (cl : Nat) :
    (fatNextLog c img behind cl).1 = fatNext c img cl := by
  unfold fatNextLog fatNext sectorBuf
  split
  · rfl
  dsimp only
  cases readSec img (u32 (c.fatBeginLba+u32 (cl*4)/c.bytesPerSector)) with
  | none => rfl
  | some sec =>
    dsimp only [map_some]
    split
    · rfl
    dsimp only
    congr 2
    exact firsts_congr fun k hk => if_pos (by omega)

theorem lookupLog_reads (name : Bytes) (cl : Nat) :
    (lookupLog c img behind name cl).countP Event.isSector ≤ c.sectorsPerCluster+1 := by
  have hs : (scanDirCluster c img behind cl name).2.countP Event.isSector ≤ c.sectorsPerCluster := by
    simpa [scanDirCluster] using scanSectors_reads (c := c) _ _ (List.range c.sectorsPerCluster)
  have hn := @fatNextLog_reads c img behind cl
  unfold lookupLog
  split
  · omega
  · rw [countP_append]
    omega

theorem listLog_reads (max : Nat) (x : Nat × Nat) :
    (listLog c img behind max x).countP Event.isSector ≤ c.sectorsPerCluster+1 := by
  have hl : (listDirCluster c img behind x.1).countP Event.isSector ≤ c.sectorsPerCluster := by
    simpa [listDirCluster] using scanSectors_reads (c := c) _ _ (List.range c.sectorsPerCluster)
  have hn := @fatNextLog_reads c img behind x.1
  have hout : ((taken c img behind max x.2 x.1).map Event.out).countP Event.isSector = 0 := by
    rw [countP_map]
    exact countP_eq_zero.mpr fun d _ => by simp [Event.isSector,Event.sector?]
  rw [listLog,countP_append,countP_append]
  omega

variable (c) in
def linked : Finset Nat := Finset.Ico 2 (u32 (c.totalClusters+2))

theorem linked_card : (linked c).card ≤ c.totalClusters := by
  have hle : u32 (c.totalClusters+2) ≤ c.totalClusters+2 := Nat.mod_le _ _
  rw [linked,Nat.card_Ico]
  omega

theorem mem_linked (h : ¬ endMark ≤ (fatNextLog c img behind cl).1) : cl ∈ linked c := by
  rw [linked,Finset.mem_Ico]
  by_contra hout
  apply h
  rw [fatNextLog,if_pos (by omega)]

theorem lookupVisit_linked {name : Bytes}
    (h : (lookupVisit c img behind name cl).next?.isSome = true) : cl ∈ linked c := by
  unfold lookupVisit at h
  split at h
  · simp [Visit.next?] at h
  · split at h
    · simp [Visit.next?] at h
    · exact mem_linked ‹_›

theorem intOf_lt (max : Nat) : intOf max < 2^31 := by
  have hlt : u32 max < 2^32 := Nat.mod_lt _ (by decide)
  unfold intOf
  split <;> omega

theorem listVisit_linked (h : (listVisit c img behind max x).next?.isSome = true) :
    x ∈ linked c ×ˢ Finset.range (2^31) := by
  unfold listVisit at h
  split at h
  case isTrue => simp [Visit.next?] at h
  case isFalse hgo =>
    obtain ⟨hl,hr⟩ := not_or.mp hgo
    have := intOf_lt max
    rw [Finset.mem_product,Finset.mem_range]
    exact ⟨mem_linked hl,by omega⟩

theorem chainVisit_linked (h : (chainVisit c img behind cl).next?.isSome = true) : cl ∈ linked c := by
  unfold chainVisit at h
  split at h
  · simp [Visit.next?] at h
  · exact mem_linked ‹_›

theorem listVisit_trail {k : Nat} {y : Nat × Nat} (h : trail (listVisit c img behind max) k x = some y) :
    trail (chainVisit c img behind) k x.1 = some y.1 := by
  induction k generalizing x with
  | zero =>
    obtain rfl : x = y := by simpa [trail] using h
    rfl
  | succ k ih =>
    by_cases hend : endMark ≤ (fatNextLog c img behind x.1).1 ∨
        intOf max ≤ (x.2+(taken c img behind max x.2 x.1).length : Nat)
    · simp only [trail,listVisit,hend,if_true,Visit.next?,Option.bind_none,reduceCtorEq] at h
    · simp only [trail,listVisit,hend,if_false,Visit.next?,bind_some] at h
      simpa only [trail,chainVisit,(not_or.mp hend).1,if_false,Visit.next?,bind_some] using ih h

def readBound (c : Fat32Ctx) : Nat := (c.totalClusters+1)*(c.sectorsPerCluster+1)
def listBound (c : Fat32Ctx) : Nat := (c.totalClusters*2^31+1)*(c.sectorsPerCluster+1)

theorem linked_bound : ((linked c).card+1)*(c.sectorsPerCluster+1) ≤ readBound c :=
  Nat.mul_le_mul_right _ (Nat.succ_le_succ linked_card)

theorem linked_listBound :
    ((linked c ×ˢ Finset.range (2^31)).card+1)*(c.sectorsPerCluster+1) ≤ listBound c := by
  rw [Finset.card_product,Finset.card_range]
  exact Nat.mul_le_mul_right _ (Nat.succ_le_succ (Nat.mul_le_mul_right _ linked_card))

end

section
variable (c : Fat32Ctx) (img : Image) (behind : Buf)

def LookupBounded (dir : Fat32Node) (name : Bytes) (mem : Bool) : Prop :=
  ∃ fuel r, fat32Lookup c img behind fuel dir name mem = some r ∧
    r.2.countP Event.isSector ≤ readBound c

def ReaddirWithin (bound : Nat) (dir : Fat32Node) (max : Nat) : Prop :=
  ∃ fuel log, fat32Readdir c img behind fuel dir max = some (.ok log) ∧
    log.countP Event.isSector ≤ bound

theorem lookupBounded_iff (cl size : Nat) (name : Bytes) (mem : Bool) :
    LookupBounded c img behind ⟨cl,size,true⟩ name mem ↔ NoRevisit (lookupVisit c img behind name) cl := by
  have hrun : ∀ fuel, fat32Lookup c img behind fuel ⟨cl,size,true⟩ name mem =
      (walk (lookupVisit c img behind name) (lookupLog c img behind name) fuel cl).map fun r =>
        (if mem then r.1.map fun d => ⟨d.firstClus,d.size,d.isDir⟩ else none,r.2) := by
    intro fuel
    rw [fat32Lookup,findInDir_eq_walk]
    rfl
  unfold LookupBounded
  simp only [hrun]
  constructor
  · rintro ⟨fuel,r,hr,-⟩
    obtain ⟨r',hr',-⟩ := Option.map_eq_some_iff.mp hr
    exact NoRevisit.of_ends ⟨fuel,r',hr'⟩
  intro h
  obtain ⟨fuel,r,hr,hrd⟩ := h.bounded (linked c) (fun _ => lookupVisit_linked)
    (@lookupLog_reads c img behind name)
  exact ⟨fuel,_,by rw [hr]; rfl,hrd.trans linked_bound⟩

theorem fat32Readdir_eq_walk (fuel cl size max : Nat) : fat32Readdir c img behind fuel ⟨cl,size,true⟩ max =
    (walk (listVisit c img behind max) (listLog c img behind max) fuel (cl,0)).map fun r => .ok r.2 := by
  rw [fat32Readdir,if_neg (by simp),readdirLoop_eq_walk c img behind max fuel (cl,0),Option.map_map]
  rfl

theorem readdirWithin_iff (cl size max : Nat) : ReaddirWithin c img behind (listBound c) ⟨cl,size,true⟩ max ↔
    NoRevisit (listVisit c img behind max) (cl,0) := by
  unfold ReaddirWithin
  simp only [fat32Readdir_eq_walk]
  constructor
  · rintro ⟨fuel,log,hlog,-⟩
    obtain ⟨r,hr,-⟩ := Option.map_eq_some_iff.mp hlog
    exact NoRevisit.of_ends ⟨fuel,r,hr⟩
  intro h
  obtain ⟨fuel,r,hr,hrd⟩ := h.bounded (linked c ×ˢ Finset.range (2^31))
    (fun _ => listVisit_linked) (@listLog_reads c img behind max)
  exact ⟨fuel,r.2,by rw [hr]; rfl,hrd.trans linked_listBound⟩

theorem readdirWithin_of_chain (h : NoRevisit (chainVisit c img behind) cl) (size max : Nat) :
    ReaddirWithin c img behind (readBound c) ⟨cl,size,true⟩ max := by
  have hc := h.trail_none (linked c) fun _ => chainVisit_linked
  have hl : trail (listVisit c img behind max) ((linked c).card+1) (cl,0) = none := by
    cases ht : trail (listVisit c img behind max) ((linked c).card+1) (cl,0) with
    | none => rfl
    | some y =>
      rw [listVisit_trail ht] at hc
      cases hc
  obtain ⟨r,hr,hrd⟩ := walk_of_trail (@listLog_reads c img behind max) hl
  refine ⟨(linked c).card+1,r.2,?_,hrd.trans linked_bound⟩
  rw [fat32Readdir_eq_walk,hr]
  rfl

theorem directory_operations_bounded (cl size : Nat) :
    (∀ name mem, LookupBounded c img behind ⟨cl,size,true⟩ name mem ↔
      NoRevisit (lookupVisit c img behind name) cl) ∧
    (∀ max, ReaddirWithin c img behind (listBound c) ⟨cl,size,true⟩ max ↔
      NoRevisit (listVisit c img behind max) (cl,0)) ∧
    (NoRevisit (chainVisit c img behind) cl →
      ∀ max, ReaddirWithin c img behind (readBound c) ⟨cl,size,true⟩ max) :=
  ⟨lookupBounded_iff c img behind cl size,readdirWithin_iff c img behind cl size,
    fun h => readdirWithin_of_chain c img behind h size⟩

end

def loopImage : Image where
  sectors := 4
  bytes := put (put (put (put (put (put (put zeros 11 [0,2]) 13 [1]) 14 [1,0,1]) 32 [4]) 36 [1]) 44 [2])
    520 [2]

def loopVolume : Fat32Volume :=
  { fatBeginLba := 1, dataBeginLba := 2, bytesPerSector := 512, sectorsPerCluster := 1,
    totalClusters := 2, partLba := 0, rootCluster := 2, sectorsPerFat32 := 1 }

theorem loopImage_never_ends : probePartition loopImage = some loopVolume ∧
    (∀ fuel, fat32Lookup loopVolume.toFat32Ctx loopImage zeros fuel ⟨2,0,true⟩ [65] true = none) ∧
    ∀ fuel, fat32Readdir loopVolume.toFat32Ctx loopImage zeros fuel ⟨2,0,true⟩ 16 = none := by
  have hscan : (scanDirCluster loopVolume.toFat32Ctx loopImage zeros 2 [65]).1 = none := by
    decide +kernel
  have hnext : (fatNextLog loopVolume.toFat32Ctx loopImage zeros 2).1 = 2 := by decide +kernel
  have htaken : taken loopVolume.toFat32Ctx loopImage zeros 16 0 2 = [] := by decide +kernel
  have hfind : ∀ fuel, findInDir loopVolume.toFat32Ctx loopImage zeros [65] fuel 2 = none := by
    intro fuel
    induction fuel with
    | zero => rfl
    | succ fuel ih => simp [findInDir,hscan,hnext,ih,endMark]
  have hlist : ∀ fuel, readdirLoop loopVolume.toFat32Ctx loopImage zeros 16 fuel 2 0 = none := by
    intro fuel
    induction fuel with
    | zero => rfl
    | succ fuel ih => simp [readdirLoop,htaken,hnext,ih,endMark,intOf,u32]
  refine ⟨rfl,fun fuel => ?_,fun fuel => ?_⟩
  · simp [fat32Lookup,hfind]
  · simp [fat32Readdir,hlist]

section
variable {img : Image} {mbr t s : Buf} {i lba : Nat} {v : Fat32Volume}

end

def twoEntries (lba : UInt8) : Image where
  sectors := 3
  bytes n := if n < 1024 then
    put (put (put zeros 450 [11,0,0,0,lba]) 466 [11,0,0,0,2]) 510 [0x55,0xAA] n
    else loopImage.bytes (n-1024)

end AevOS.Fat32
