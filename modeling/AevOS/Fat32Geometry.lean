import AevOS.Fat32

/-! The geometry a boot sector describes, and the sectors and buffer places that lookups in
the table and directory scans use after `parse_fat32_bpb` has accepted it. -/

namespace AevOS.Fat32
open Wire Buffer List

section
variable (s0 : Buf) (p : Nat)

def bpbDataBegin : Nat := bpbReserved s0+bpbNfat s0*bpbSpf32 s0
def volumeClusters : Nat := (bpbTotalSec s0-bpbDataBegin s0)/bpbSectorsPerCluster s0
def IsCluster (cl : Nat) : Prop := 2 ≤ cl ∧ cl < volumeClusters s0+2
  deriving Decidable

def tableSector (cl : Nat) : Nat := p+(bpbReserved s0*bpbBytesPerSector s0+cl*4)/512
def tableEnd : Nat := p+(bpbReserved s0+bpbSpf32 s0)*bpbBytesPerSector s0/512

def dataSector (cl s : Nat) : Nat :=
  p+(bpbDataBegin s0+(cl-2)*bpbSectorsPerCluster s0+s)*bpbBytesPerSector s0/512

end

def InBuffer (log : List Event) : Prop := ∀ off n, Event.bytes off n ∈ log → off+n ≤ 512

structure LookupHonoured (s0 : Buf) (p : Nat) (c : Fat32Ctx) (cl : Nat) (img : Image) (behind : Buf) :
    Prop where
  sectors : (fatNextLog c img behind cl).2.filterMap Event.sector? =
    if IsCluster s0 cl then [tableSector s0 p cl] else []
  table : IsCluster s0 cl → tableSector s0 p cl < tableEnd s0 p
  inside : InBuffer (fatNextLog c img behind cl).2

structure ScanHonoured (s0 : Buf) (p : Nat) (c : Fat32Ctx) (cl : Nat) (want : Bytes) (img : Image)
    (behind : Buf) : Prop where
  sectors : IsCluster s0 cl → (scanDirCluster c img behind cl want).2.filterMap Event.sector? <+:
    (List.range (bpbSectorsPerCluster s0)).map (dataSector s0 p cl)
  inside : InBuffer (scanDirCluster c img behind cl want).2

/-- Sectors are read where the boot sector says, and bytes inside of the sector buffer. -/
def Honoured (s0 : Buf) (p : Nat) (c : Fat32Ctx) : Prop :=
  ∀ cl < 2^32, ∀ img behind, LookupHonoured s0 p c cl img behind ∧
    ∀ want, ScanHonoured s0 p c cl want img behind

def GeometryOk (s0 : Buf) (p : Nat) : Prop :=
  bpbBytesPerSector s0 = 512 ∧ if volumeClusters s0 = 0 then
      u32 (u32 (bpbTotalSec s0+2^32-u32 (bpbDataBegin s0))/bpbSectorsPerCluster s0+2) ≤ 2
    else
      (volumeClusters s0+1)*4 < 2^32 ∧ (volumeClusters s0+1)*4/512 < bpbSpf32 s0 ∧
      p+bpbReserved s0+(volumeClusters s0+1)*4/512 < 2^32 ∧
      p+bpbDataBegin s0+volumeClusters s0*bpbSectorsPerCluster s0 ≤ 2^32

def geometry (s0 : Buf) (p : Nat) : Fat32Ctx where
  fatBeginLba := u32 (bpbReserved s0+p)
  dataBeginLba := u32 (u32 (bpbDataBegin s0)+p)
  bytesPerSector := bpbBytesPerSector s0
  sectorsPerCluster := bpbSectorsPerCluster s0
  totalClusters := u32 (bpbTotalSec s0+2^32-u32 (bpbDataBegin s0))/bpbSectorsPerCluster s0

variable {v : Fat32Volume} {off cl : Nat}

theorem parseFat32Bpb_eq_some {s0 : Buf} (h : parseFat32Bpb s0 = some v) :
    (bpbBytesPerSector s0 = 512 ∨ 1024 ≤ bpbBytesPerSector s0) ∧ 0 < bpbSectorsPerCluster s0 ∧
      ∀ p, (v.moved p).toFat32Ctx = geometry s0 p := by
  unfold parseFat32Bpb at h
  split at h
  · simp at h
  split at h
  · simp at h
  split at h
  · simp at h
  split at h
  · simp at h
  · obtain rfl := Option.some.inj h
    exact ⟨by omega,by omega,fun p => rfl⟩

section
variable {c : Fat32Ctx} {img : Image} {behind : Buf}

theorem fatNextLog_sectors (cl : Nat) : (fatNextLog c img behind cl).2.filterMap Event.sector? =
    if 2 ≤ cl ∧ cl < u32 (c.totalClusters+2) then
      [u32 (c.fatBeginLba+u32 (cl*4)/c.bytesPerSector)] else [] := by
  unfold fatNextLog
  split
  · rw [if_neg (by omega)]
    rfl
  rw [if_pos (by omega)]
  dsimp only
  split
  · rfl
  · split <;> rfl

theorem fatNextLog_inside (h : c.bytesPerSector = 512) (cl : Nat) :
    InBuffer (fatNextLog c img behind cl).2 := by
  intro off n hmem
  unfold fatNextLog at hmem
  split at hmem
  · simp at hmem
  dsimp only at hmem
  split at hmem
  · simp at hmem
  split at hmem
  · simp at hmem
  · simp only [mem_cons,reduceCtorEq,Event.bytes.injEq,not_mem_nil,or_false,false_or] at hmem
    omega

theorem InBuffer.append {log log' : List Event} (h : InBuffer log) (h' : InBuffer log') :
    InBuffer (log ++ log') := by
  intro off n hmem
  rcases mem_append.mp hmem with hmem | hmem
  · exact h off n hmem
  · exact h' off n hmem

theorem skipEvents_inside (h : off+32 ≤ 512) (e : Buf) : InBuffer (skipEvents e off) := by
  intro off' n hmem
  unfold skipEvents at hmem
  split at hmem
  all_goals
    simp only [mem_cons,Event.bytes.injEq,not_mem_nil,or_false] at hmem
    omega

theorem entryEvents_inside (h : off+32 ≤ 512) (d : Dirent) : InBuffer (entryEvents d off) := by
  intro off' n hmem
  simp only [entryEvents,mem_cons,Event.bytes.injEq,reduceCtorEq,not_mem_nil,or_false] at hmem
  omega

theorem scanEntries_inside (found : Dirent → Bool) (sec : Buf) (offs : List Nat)
    (h : ∀ off ∈ offs, off+32 ≤ 512) : InBuffer (scanEntries found sec offs).2 := by
  induction offs with
  | nil =>
    intro off n hmem
    simp [scanEntries] at hmem
  | cons off offs ih =>
    obtain ⟨hoff,ho⟩ := forall_mem_cons.mp h
    rw [scanEntries]
    split
    · intro off' n hmem
      simp only [mem_singleton,Event.bytes.injEq] at hmem
      omega
    split
    · exact (skipEvents_inside hoff _).append (ih ho)
    split
    · exact entryEvents_inside hoff _
    · exact (entryEvents_inside hoff _).append (ih ho)

theorem scanSectors_inside (h : c.bytesPerSector = 512) (found : Dirent → Bool) (lba : Nat)
    (ss : List Nat) : InBuffer (scanSectors c img behind found lba ss).2 := by
  have ho : ∀ off ∈ entryOffsets c, off+32 ≤ 512 := by
    intro off hoff
    obtain ⟨i,hi,rfl⟩ := mem_map.mp hoff
    have hi : i < c.bytesPerSector/32 := mem_range.mp hi
    omega
  have hc : ∀ {lba log}, InBuffer log → InBuffer (.sector lba :: log) := by
    intro lba log hlog off n hmem
    exact hlog off n (by simpa using hmem)
  induction ss with
  | nil =>
    intro off n hmem
    simp [scanSectors] at hmem
  | cons s ss ih =>
    rw [scanSectors]
    split
    · intro off n hmem
      simp at hmem
    dsimp only
    split
    · exact hc (scanEntries_inside found _ _ ho)
    · exact hc ((scanEntries_inside found _ _ ho).append ih)

end

def deletedImage : Image := ⟨2^32,fun _ => 0xE5⟩

section
variable (c : Fat32Ctx) (found : Dirent → Bool) (lba : Nat) (ss : List Nat)

theorem deletedImage_sectorBuf {lba : Nat} (h : lba < 2^32) :
    sectorBuf deletedImage (fun _ => 0xE5) lba = some (fun _ => 0xE5) := by
  rw [sectorBuf,readSec,if_pos (show lba < deletedImage.sectors from h)]
  simp [deletedImage]

theorem scanEntries_deleted (offs : List Nat) :
    scanEntries found (fun _ => 0xE5) offs = (none,offs.map (Event.bytes · 1)) := by
  induction offs with
  | nil => rfl
  | cons off offs ih => simp [scanEntries,skipped,skipEvents,ih]

theorem scanSectors_deleted : (scanSectors c deletedImage (fun _ => 0xE5) found lba ss).2 =
    ss.flatMap fun s => .sector (u32 (lba+s)) :: (entryOffsets c).map (Event.bytes · 1) := by
  induction ss with
  | nil => rfl
  | cons s ss ih =>
    have hw : u32 (lba+s) < 2^32 := Nat.mod_lt _ (by decide)
    have hsec := deletedImage_sectorBuf hw
    simp [scanSectors,hsec,scanEntries_deleted,ih]

theorem scanSectors_deleted_sectors :
    (scanSectors c deletedImage (fun _ => 0xE5) found lba ss).2.filterMap Event.sector? =
      ss.map fun s => u32 (lba+s) := by
  rw [scanSectors_deleted]
  induction ss with
  | nil => rfl
  | cons s ss ih =>
    have hn : ((entryOffsets c).map (Event.bytes · 1)).filterMap Event.sector? = [] := by
      simp [filterMap_map,Function.comp_def,Event.sector?]
    rw [flatMap_cons,filterMap_append,ih,filterMap_cons]
    simp [Event.sector?,hn]

end

section
variable {s0 : Buf} {p : Nat}

theorem bpbTotalSec_lt (s0 : Buf) : bpbTotalSec s0 < 2^32 := by
  unfold bpbTotalSec
  split
  · exact (leValue_get_lt s0 19 2).trans (by decide)
  · exact leValue_get_lt s0 32 4

theorem geometry_totalClusters (h : volumeClusters s0 ≠ 0) :
    (geometry s0 p).totalClusters = volumeClusters s0 := by
  have hpos : 0 < bpbTotalSec s0-bpbDataBegin s0 := by
    apply Nat.pos_of_ne_zero
    intro hz
    exact h (by rw [volumeClusters,hz,Nat.zero_div])
  have ht := bpbTotalSec_lt s0
  have hb : u32 (bpbDataBegin s0) = bpbDataBegin s0 := Nat.mod_eq_of_lt (by omega)
  have hl : u32 (bpbTotalSec s0+2^32-bpbDataBegin s0) = bpbTotalSec s0-bpbDataBegin s0 := by
    unfold u32
    omega
  show u32 (bpbTotalSec s0+2^32-u32 (bpbDataBegin s0))/_ = _
  rw [hb,hl]
  rfl

theorem tableSector_eq (h : bpbBytesPerSector s0 = 512) (cl : Nat) :
    tableSector s0 p cl = p+bpbReserved s0+cl*4/512 := by
  rw [tableSector,h]
  omega

theorem dataSector_eq (h : bpbBytesPerSector s0 = 512) (cl s : Nat) :
    dataSector s0 p cl s = p+bpbDataBegin s0+(cl-2)*bpbSectorsPerCluster s0+s := by
  rw [dataSector,h,Nat.mul_div_cancel _ (by decide)]
  omega

theorem IsCluster.pos (h : IsCluster s0 cl) : volumeClusters s0 ≠ 0 := by
  unfold IsCluster at h
  omega

theorem lookup_of_geometryOk (hok : GeometryOk s0 p) (img : Image) (behind : Buf) :
    LookupHonoured s0 p (geometry s0 p) cl img behind := by
  obtain ⟨hbps,hok⟩ := hok
  have hs := @fatNextLog_sectors (geometry s0 p) img behind cl
  by_cases hz : volumeClusters s0 = 0
  · -- no cluster, and the driver takes no number for one
    rw [if_pos hz] at hok
    have hn : ¬ IsCluster s0 cl := fun h => h.pos hz
    have hout : ¬ (2 ≤ cl ∧ cl < u32 ((geometry s0 p).totalClusters+2)) :=
      fun h => absurd (h.1.trans_lt (h.2.trans_le hok)) (by omega)
    exact ⟨by rw [hs,if_neg hout,if_neg hn],fun h => absurd h hn,fatNextLog_inside hbps cl⟩
  rw [if_neg hz] at hok
  have hl : u32 ((geometry s0 p).totalClusters+2) = volumeClusters s0+2 := by
    rw [geometry_totalClusters hz]
    exact Nat.mod_eq_of_lt (by omega)
  refine ⟨?_,?_,fatNextLog_inside hbps cl⟩
  · rw [hs,hl]
    by_cases hcl : IsCluster s0 cl
    · have hlt := hcl.2
      rw [if_pos hcl,if_pos (show 2 ≤ cl ∧ cl < volumeClusters s0+2 from hcl),tableSector_eq hbps]
      show [u32 (u32 (bpbReserved s0+p)+u32 (cl*4)/bpbBytesPerSector s0)] = _
      rw [hbps]
      congr 1
      unfold u32
      omega
    · rw [if_neg hcl,if_neg (show ¬ (2 ≤ cl ∧ cl < volumeClusters s0+2) from hcl)]
  intro hcl
  have hlt := hcl.2
  rw [tableSector_eq hbps,tableEnd,hbps]
  omega

theorem clusToLba_geometry (hbps : bpbBytesPerSector s0 = 512) (hw : cl < 2^32) (hcl : IsCluster s0 cl)
    (hf : p+bpbDataBegin s0+volumeClusters s0*bpbSectorsPerCluster s0 ≤ 2^32) {s : Nat}
    (hs : s < bpbSectorsPerCluster s0) : u32 (clusToLba (geometry s0 p) cl+s) = dataSector s0 p cl s := by
  have hrow : (cl-2)*bpbSectorsPerCluster s0+bpbSectorsPerCluster s0 ≤
      volumeClusters s0*bpbSectorsPerCluster s0 := by
    rw [← Nat.succ_mul]
    exact Nat.mul_le_mul_right _ (by have := hcl.1; have := hcl.2; omega)
  have hi : u32 (cl+2^32-2) = cl-2 := by
    have := hcl.1
    unfold u32
    omega
  rw [dataSector_eq hbps,clusToLba,hi]
  show u32 (u32 (u32 (u32 (bpbDataBegin s0)+p)+(cl-2)*bpbSectorsPerCluster s0)+s) = _
  unfold u32
  omega

theorem scan_of_geometryOk (hok : GeometryOk s0 p) (hw : cl < 2^32) (want : Bytes)
    (img : Image) (behind : Buf) : ScanHonoured s0 p (geometry s0 p) cl want img behind := by
  obtain ⟨hbps,hok⟩ := hok
  refine ⟨fun hcl => ?_,scanSectors_inside hbps _ _ _⟩
  rw [if_neg hcl.pos] at hok
  have hr := @scanSectors_sectors (geometry s0 p) img behind (fun d => nameEqFat want d.name)
    (clusToLba (geometry s0 p) cl) (List.range (bpbSectorsPerCluster s0))
  rwa [map_congr_left fun s hs =>
    clusToLba_geometry hbps hw hcl hok.2.2.2 (mem_range.mp hs)] at hr

theorem bytesPerSector_of_honoured (hspc : 0 < bpbSectorsPerCluster s0)
    (hbps : bpbBytesPerSector s0 = 512 ∨ 1024 ≤ bpbBytesPerSector s0)
    (h : Honoured s0 p (geometry s0 p)) : bpbBytesPerSector s0 = 512 := by
  refine hbps.resolve_right fun hw => ?_
  have hs := ((h 2 (by decide) deletedImage fun _ => 0xE5).2 []).inside 512 1
  rw [scanDirCluster,scanSectors_deleted] at hs
  have hmem : Event.bytes 512 1 ∈ (entryOffsets (geometry s0 p)).map (Event.bytes · 1) := by
    refine mem_map.mpr ⟨512,mem_map.mpr ⟨16,mem_range.mpr ?_,rfl⟩,rfl⟩
    show 16 < bpbBytesPerSector s0/32
    omega
  have := hs (mem_flatMap.mpr ⟨0,mem_range.mpr hspc,mem_cons_of_mem _ hmem⟩)
  omega

theorem table_of_honoured (hbps : bpbBytesPerSector s0 = 512) (h : Honoured s0 p (geometry s0 p))
    (hw : cl < 2^32) (hcl : IsCluster s0 cl) :
    u32 (u32 (bpbReserved s0+p)+u32 (cl*4)/512) = p+bpbReserved s0+cl*4/512 ∧ cl*4/512 < bpbSpf32 s0 := by
  obtain ⟨hs,ht,-⟩ := (h cl hw deletedImage zeros).1
  have ht := ht hcl
  rw [tableSector_eq hbps,tableEnd,hbps] at ht
  refine ⟨?_,by omega⟩
  rw [fatNextLog_sectors,if_pos hcl,tableSector_eq hbps] at hs
  split at hs
  · have hsc : u32 (u32 (bpbReserved s0+p)+u32 (cl*4)/bpbBytesPerSector s0) = _ :=
      head_eq_of_cons_eq hs
    rwa [hbps] at hsc
  · simp at hs

theorem lastCluster_of_honoured (hspc : 0 < bpbSectorsPerCluster s0) (hbps : bpbBytesPerSector s0 = 512)
    (h : Honoured s0 p (geometry s0 p)) (hpos : volumeClusters s0 ≠ 0) :
    (volumeClusters s0+1)*4 < 2^32 ∧ (volumeClusters s0+1)*4/512 < bpbSpf32 s0 ∧
      p+bpbReserved s0+(volumeClusters s0+1)*4/512 < 2^32 ∧
      p+bpbDataBegin s0+volumeClusters s0*bpbSectorsPerCluster s0 ≤ 2^32 := by
  have hsm : (volumeClusters s0+1)*4 < 2^32 := by
    -- otherwise the entry of cluster 2^30 is looked for where the table begins
    by_contra hbig
    have hcl : IsCluster s0 (2^30) := ⟨by decide,by omega⟩
    have ht := (table_of_honoured hbps h (by decide) hcl).1
    unfold u32 at ht
    omega
  have hl : IsCluster s0 (volumeClusters s0+1) := ⟨by omega,by omega⟩
  have hw : volumeClusters s0+1 < 2^32 := by omega
  obtain ⟨ht,hr⟩ := table_of_honoured hbps h hw hl
  have hs := ((h _ hw deletedImage fun _ => 0xE5).2 []).sectors hl
  rw [scanDirCluster,scanSectors_deleted_sectors] at hs
  have hlen : ((List.range (bpbSectorsPerCluster s0)).map
      fun s => u32 (clusToLba (geometry s0 p) (volumeClusters s0+1)+s)).length =
      ((List.range (bpbSectorsPerCluster s0)).map (dataSector s0 p (volumeClusters s0+1))).length := by
    simp
  have hall := map_inj_left.mp (hs.eq_of_length hlen) (bpbSectorsPerCluster s0-1)
    (mem_range.mpr (show bpbSectorsPerCluster s0-1 < bpbSectorsPerCluster s0 by omega))
  have hrow : (volumeClusters s0+1-2)*bpbSectorsPerCluster s0+bpbSectorsPerCluster s0 =
      volumeClusters s0*bpbSectorsPerCluster s0 := by
    rw [← Nat.succ_mul,show (volumeClusters s0+1-2).succ = volumeClusters s0 by omega]
  rw [dataSector_eq hbps] at hall
  have hlt : u32 (clusToLba (geometry s0 p) (volumeClusters s0+1)+(bpbSectorsPerCluster s0-1)) <
      2^32 := Nat.mod_lt _ (by decide)
  have hlt' : u32 (u32 (bpbReserved s0+p)+u32 ((volumeClusters s0+1)*4)/512) < 2^32 :=
    Nat.mod_lt _ (by decide)
  exact ⟨hsm,hr,by omega,by omega⟩

theorem geometryOk_of_honoured (hspc : 0 < bpbSectorsPerCluster s0)
    (hbps : bpbBytesPerSector s0 = 512 ∨ 1024 ≤ bpbBytesPerSector s0)
    (h : Honoured s0 p (geometry s0 p)) : GeometryOk s0 p := by
  have hbps := bytesPerSector_of_honoured hspc hbps h
  refine ⟨hbps,?_⟩
  split
  · rename_i hz
    -- cluster 2 is none of the volume's, so the driver must not look it up
    have hs := (h 2 (by decide) deletedImage zeros).1.sectors
    rw [fatNextLog_sectors,if_neg fun hcl : IsCluster s0 2 => hcl.pos hz] at hs
    split at hs
    · simp at hs
    · rename_i hout
      exact Nat.le_of_not_lt fun hlt => hout ⟨le_refl 2,hlt⟩
  · exact lastCluster_of_honoured hspc hbps h ‹_›

end

theorem scanDirCluster_unchecked {c : Fat32Ctx} (hspc : 0 < c.sectorsPerCluster) (img : Image)
    (behind : Buf) (cl : Nat) (want : Bytes) :
    Event.sector (u32 (clusToLba c cl)) ∈ (scanDirCluster c img behind cl want).2 := by
  obtain ⟨n,hn⟩ := Nat.exists_eq_add_of_lt hspc
  rw [scanDirCluster,hn,zero_add,range_succ_eq_map,scanSectors]
  split
  · simp
  · dsimp only
    split <;> simp

theorem geometry_honoured_iff {s0 : Buf} {v : Fat32Volume} (h : parseFat32Bpb s0 = some v) (p : Nat) :
    (Honoured s0 p (v.moved p).toFat32Ctx ↔ GeometryOk s0 p) ∧
      ∀ img behind cl want, Event.sector (u32 (clusToLba (v.moved p).toFat32Ctx cl)) ∈
        (scanDirCluster (v.moved p).toFat32Ctx img behind cl want).2 := by
  obtain ⟨hbps,hspc,hgeometry⟩ := parseFat32Bpb_eq_some h
  rw [hgeometry]
  refine ⟨⟨geometryOk_of_honoured hspc hbps,fun hok cl hword img behind => ?_⟩,
    scanDirCluster_unchecked hspc⟩
  exact ⟨lookup_of_geometryOk hok img behind,fun want => scan_of_geometryOk hok hword want img behind⟩

theorem geometry_honoured_loopImage : Honoured loopImage.bytes 0 (loopVolume.moved 0).toFat32Ctx :=
  (@geometry_honoured_iff loopImage.bytes loopVolume rfl 0).1.mpr
    (by unfold GeometryOk; decide +kernel)

def wideSector : Buf :=
  put (put (put (put (put (put zeros 11 [0,4]) 13 [1]) 14 [1,0,1]) 32 [4]) 36 [1]) 44 [2]

theorem wideSector_not_honoured : (parseFat32Bpb wideSector).isSome = true ∧
    ∀ v ∈ parseFat32Bpb wideSector, ¬ Honoured wideSector 0 v.toFat32Ctx ∧
      Event.bytes 512 1 ∈ (scanDirCluster v.toFat32Ctx deletedImage (fun _ => 0xE5) 2 [65]).2 := by
  refine ⟨by decide +kernel,fun v hv => ?_⟩
  obtain rfl : _ = v := Option.some.inj (show some _ = some v from hv)
  have hmem : Event.bytes 512 1 ∈ (scanDirCluster
      (geometry wideSector 0) deletedImage (fun _ => 0xE5) 2 [65]).2 := by decide +kernel
  exact ⟨fun h => absurd (((h 2 (by decide) _ _).2 [65]).inside 512 1 hmem) (by decide),hmem⟩

end AevOS.Fat32
