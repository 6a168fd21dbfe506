import AevOS.AevosFs
import AevOS.ClusterChain

/-! The image tool `tools/mkfs_aevos.c`. The host's calls succeed; a run is the list of its writes to the
image. -/

namespace AevOS.Mkfs
open Wire Buffer

def sectorSize : Nat := 512
def gptEntriesSectors : Nat := 32
def efiPartStartLba : Nat := 2048
def efiPartSizeMb : Nat := 64
def aevosMagic : Nat := 0x41494F5346530000
def sectorsPerCluster : Nat := 8
def clusterBytes : Nat := sectorsPerCluster*sectorSize
def endOfChain : Nat := 0x0FFFFFFF

def u64 (n : Nat) : Nat := n%2^64

def diskWriteFile (offset : Nat) (data : Bytes) : List Write :=
  if _h : data = [] then []
  else (offset,data.take 4096) :: diskWriteFile (offset+(data.take 4096).length) (data.drop 4096)
termination_by data.length
decreasing_by
  have hpos : 0 < data.length := List.length_pos_iff.mpr _h
  simp only [List.length_drop]
  omega

structure EspLayout where
  offset : Nat
  fat : Nat
  fat2 : Nat
  dataStart : Nat
  root : Nat
  deriving DecidableEq

def reservedSects : Nat := 32
def fatSize (espSectors : Nat) : Nat := max 1 (u32 ((espSectors+127)/128))

def espLayout (espStartLba espSectors : Nat) : EspLayout :=
  let offset := u64 (espStartLba*sectorSize)
  let fat := u32 (offset+reservedSects*sectorSize)
  let dataStart := u32 (reservedSects+2*fatSize espSectors)
  { offset := offset
    fat := fat
    fat2 := u32 (fat+fatSize espSectors*sectorSize)
    dataStart := dataStart
    root := u64 (offset+dataStart*sectorSize) }

def bpbBytes (espStartLba espSectors : Nat) : Bytes :=
  [0xEB,0x58,0x90] ++ ascii "AevOS   " ++ leBytes 2 sectorSize ++ leBytes 1 sectorsPerCluster ++
    leBytes 2 reservedSects ++ leBytes 1 2 ++ leBytes 2 0 ++ leBytes 2 0 ++ leBytes 1 0xF8 ++ leBytes 2 0 ++
    leBytes 2 63 ++ leBytes 2 255 ++ leBytes 4 espStartLba ++ leBytes 4 espSectors ++
    leBytes 4 (fatSize espSectors) ++ leBytes 2 0 ++ leBytes 2 0 ++ leBytes 4 2 ++ leBytes 2 1 ++
    leBytes 2 6 ++ List.replicate 12 0 ++ leBytes 1 0x80 ++ [0] ++ leBytes 1 0x29 ++
    leBytes 4 0xA105DA7A ++ ascii "AevOS EFI  " ++ ascii "FAT32   " ++ List.replicate 420 0 ++
    leBytes 2 0xAA55

def direntSize : Nat := 32

def direntBytes (name : Bytes) (attr cluster size : Nat) : Bytes :=
  name ++ (leBytes 1 attr ++ (List.replicate 8 0 ++ (leBytes 2 (cluster/2^16) ++
    (List.replicate 4 0 ++ (leBytes 2 cluster ++ leBytes 4 size)))))

def EspLayout.cluster (l : EspLayout) (c : Nat) : Nat :=
  u64 (l.offset+u32 (l.dataStart+(c-2)*sectorsPerCluster)*sectorSize)

def EspLayout.fatEntry (l : EspLayout) (c val : Nat) : List Write :=
  [(u32 (l.fat+c*4),leBytes 4 val),(u32 (l.fat2+c*4),leBytes 4 val)]

def fileClusters (size : Nat) : Nat := u32 (u32 size+clusterBytes-1)/clusterBytes

def fatLinks (l : EspLayout) (next n : Nat) : List Write :=
  (List.range n).flatMap fun c => l.fatEntry (next+c) (if c = n-1 then endOfChain else next+c+1)

def addFile (l : EspLayout) (name : Bytes) (next dirIdx : Nat) (data : Bytes) : List Write :=
  (l.root+dirIdx*direntSize,direntBytes name 0x20 next data.length) ::
    (diskWriteFile (l.cluster next) data ++ fatLinks l next (fileClusters data.length))

def bootName : Bytes := ascii "BOOTX64 EFI"
def kernelName : Bytes := ascii "KERNEL  ELF"
def modelName : Bytes := ascii "MODEL   GUF"
def jsonName : Bytes := ascii "BOOT    JSN"

@[irreducible] def bootJson : Bytes := ascii
  ("\x7b\n  \"kernel\": \"kernel.elf\",\n  \"n_threads\": 4,\n  \"use_gpu\": false,\n" ++
    "  \"target_fps\": 60,\n  \"screen_width\": 1920,\n  \"screen_height\": 1080\n\x7d\n")

def espHeader (espStartLba espSectors : Nat) (l : EspLayout) : List Write :=
  [(l.offset,bpbBytes espStartLba espSectors),
    (l.fat,leBytes 4 0x0FFFFFF8),(u32 (l.fat+4),leBytes 4 0x0FFFFFFF),
    (u32 (l.fat+8),leBytes 4 endOfChain),(l.fat2,leBytes 4 0x0FFFFFF8),
    (u32 (l.fat2+4),leBytes 4 0x0FFFFFFF),(u32 (l.fat2+8),leBytes 4 endOfChain),
    (l.root,direntBytes (ascii "AevOS EFI  ") 0x08 0 0)]

structure EspState where
  writes : List Write
  nextCluster : Nat
  dirIdx : Nat

def EspState.file (l : EspLayout) (name : Bytes) (s : EspState) : Option Bytes → EspState
  | none => s
  | some data =>
    ⟨s.writes ++ addFile l name s.nextCluster s.dirIdx data,s.nextCluster+fileClusters data.length,
      s.dirIdx+1⟩

def EspState.modelFile (l : EspLayout) (s : EspState) (model : Option Bytes) : EspState :=
  { s.file l modelName model with nextCluster := s.nextCluster }

def EspState.json (l : EspLayout) (s : EspState) : List Write :=
  s.writes ++ ((l.root+s.dirIdx*direntSize,direntBytes jsonName 0x20 s.nextCluster bootJson.length) ::
    (l.cluster s.nextCluster,bootJson) :: l.fatEntry s.nextCluster endOfChain)

def writeFat32Esp (espStartLba espSectors : Nat) (boot kernel model : Option Bytes) : List Write :=
  let l := espLayout espStartLba espSectors
  let s : EspState := ⟨espHeader espStartLba espSectors l,3,1⟩
  (((s.file l bootName boot).file l kernelName kernel).modelFile l model).json l

structure AevosfsSuper where
  magic : Nat
  version : Nat
  blockSize : Nat
  totalBlocks : Nat
  freeBlocks : Nat
  rootInode : Nat
  inodeCount : Nat
  label : Bytes
  deriving DecidableEq

def AevosfsSuper.bytes (b : AevosfsSuper) : Bytes :=
  leBytes 8 b.magic ++ (leBytes 4 b.version ++ (leBytes 4 b.blockSize ++ (leBytes 8 b.totalBlocks ++
    (leBytes 8 b.freeBlocks ++ (leBytes 8 b.rootInode ++ (leBytes 8 b.inodeCount ++
      (b.label ++ List.replicate (64-b.label.length) 0 ++ List.replicate 384 0)))))))

def aevosfsSuper (dataSectors : Nat) : AevosfsSuper :=
  let totalBlocks := u64 (dataSectors*sectorSize)/4096
  ⟨aevosMagic,1,4096,totalBlocks,u64 (totalBlocks+2^64-16),1,0,ascii "AevOS-DATA"⟩

def writeAevosfsSuper (dataStartLba dataSectors : Nat) : Write :=
  (u64 (dataStartLba*sectorSize),(aevosfsSuper dataSectors).bytes)

def espSectors : Nat := efiPartSizeMb*1024*1024/sectorSize

def dataPartition (diskSz : Nat) : Option (Nat × Nat) :=
  if diskSz < 128*1024*1024 then none
  else
    let espEnd := efiPartStartLba+espSectors-1
    let dataStart := espEnd+1
    let dataEnd := diskSz/sectorSize-gptEntriesSectors-2
    some (dataStart,dataEnd-dataStart+1)

/-! The image and its readers: the kernel's mount, and the files of the boot partition. -/

open Clusters List

def partitionBlocks (startLba : Nat) (disk : Buf) : Nat → Buf :=
  fun blk i => disk (u64 (startLba*sectorSize)+blk*4096+i)

def onPartition (dataStart dataSectors : Nat) (disk : Buf) (s : AevosFs.Fs) : AevosFs.Fs :=
  { s with
    blocks := partitionBlocks dataStart (applyWrites [writeAevosfsSuper dataStart dataSectors] disk)
    reads := []
    writes := [] }

/-- The kernel mounts what `mkfs_aevos` wrote, with the same geometry. -/
structure Agrees (dataSectors : Nat) (s : AevosFs.Fs) : Prop where
  recognised : ¬ AevosFs.Blank s
  blockSize : (AevosFs.mounted s).sb.blockSize = (aevosfsSuper dataSectors).blockSize
  totalBlocks : (AevosFs.mounted s).sb.totalBlocks = (aevosfsSuper dataSectors).totalBlocks
  rootInode : (AevosFs.mounted s).sb.rootInode = (aevosfsSuper dataSectors).rootInode

theorem onPartition_blank (dataStart dataSectors : Nat) (disk : Buf) (s : AevosFs.Fs) :
    AevosFs.Blank (onPartition dataStart dataSectors disk s) := by
  have hm : get ((onPartition dataStart dataSectors disk s).blocks 0) 0 4 = leBytes 4 aevosMagic := by
    have hget : get (put disk (u64 (dataStart*sectorSize)) (aevosfsSuper dataSectors).bytes) _ 4 = _ :=
      get_put_inside (show 0+4 ≤ _ by rw [AevosfsSuper.bytes,length_append,leBytes_length]; omega)
    rwa [← get_shift] at hget
  show ¬ leValue (get ((onPartition dataStart dataSectors disk s).blocks 0) 0 4) = _
  rw [hm]
  decide

theorem mounted_onPartition (dataStart dataSectors : Nat) (disk : Buf) (s : AevosFs.Fs) :
    ¬ Agrees dataSectors (onPartition dataStart dataSectors disk s) ∧
      (AevosFs.mounted (onPartition dataStart dataSectors disk s)).sb = AevosFs.freshSuperblock 1 := by
  have hblank := onPartition_blank dataStart dataSectors disk s
  refine ⟨fun h => h.recognised hblank,?_⟩
  rw [AevosFs.mounted_blank hblank]

theorem smallest_image_formatted : dataPartition (128*1024*1024) = some (133120,128991) ∧
    ¬ Agrees 128991 (onPartition 133120 128991 zeros AevosFs.bootFs) := by
  refine ⟨by decide,fun h => ?_⟩
  have htotal := h.totalBlocks
  rw [AevosFs.mounted_blank (onPartition_blank 133120 128991 zeros AevosFs.bootFs)] at htotal
  revert htotal
  decide

def esp : EspLayout := espLayout efiPartStartLba espSectors

@[simp] theorem esp_offset : esp.offset = 1048576 := by decide
@[simp] theorem esp_fat : esp.fat = 1064960 := by decide
@[simp] theorem esp_fat2 : esp.fat2 = 1589248 := by decide
@[simp] theorem esp_dataStart : esp.dataStart = 2080 := by decide
@[simp] theorem esp_root : esp.root = 2113536 := by decide

def espEnd : Nat := 68157440
def clusterLimit : Nat := 16126
def clusterOffset (c : Nat) : Nat := esp.root+(c-2)*clusterBytes
def clusterData (disk : Buf) (c : Nat) : Bytes := get disk (clusterOffset c) clusterBytes

def fatNext (disk : Buf) (c : Nat) : Option Nat :=
  let v := leValue (get disk (esp.fat+c*4) 4)%2^28
  if 0x0FFFFFF8 ≤ v then none else some v

def slotOffset (k : Nat) : Nat := esp.root+k*direntSize
def entryName (disk : Buf) (k : Nat) : Bytes := get disk (slotOffset k) 11

def entryFirst (disk : Buf) (k : Nat) : Nat :=
  leValue (get disk (slotOffset k+26) 2)+2^16*leValue (get disk (slotOffset k+20) 2)

def entrySize (disk : Buf) (k : Nat) : Nat := leValue (get disk (slotOffset k+28) 4)
def clustersOf (size : Nat) : Nat := (size+clusterBytes-1)/clusterBytes

structure FileAt (disk : Buf) (k : Nat) (f : Bytes × Bytes) (chain : List Nat) : Prop where
  name : entryName disk k = f.1
  size : entrySize disk k = f.2.length
  links : chain = [] ∧ entryFirst disk k = 0 ∨
    chain.head? = some (entryFirst disk k) ∧ Chain (fatNext disk) chain
  covers : chain.length = clustersOf f.2.length
  contents : (chain.flatMap (clusterData disk)).take f.2.length = f.2

def FilesAt (disk : Buf) : Nat → List (Bytes × Bytes) → List (List Nat) → Prop
  | _, [], [] => True
  | k, f :: fs, chain :: chains => FileAt disk k f chain ∧ FilesAt disk (k+1) fs chains
  | _, _, _ => False

/-- Writes stay in the partition; the root and every file have a chain of their own. -/
structure EspOk (files : List (Bytes × Bytes)) (ws : List Write) (disk : Buf) : Prop where
  inside : ∀ w ∈ ws, esp.offset ≤ w.1 ∧ w.1+w.2.length ≤ espEnd
  root : Chain (fatNext disk) [2]
  files : ∃ chains, FilesAt disk 1 files chains ∧ ([2] :: chains).Pairwise List.Disjoint

def espFiles (boot kernel model : Option Bytes) : List (Bytes × Bytes) :=
  boot.toList.map (bootName,·) ++ (kernel.toList.map (kernelName,·) ++
    (model.toList.map (modelName,·) ++ [(jsonName,bootJson)]))

variable {c size a k : Nat} {w : Write} {disk : Buf} {ws : List Write} {f : Bytes × Bytes}
    {chain : List Nat} {chains : List (List Nat)}

theorem cluster_eq (hlow : 2 ≤ c) (hh : c ≤ clusterLimit) : esp.cluster c = clusterOffset c := by
  have hc : c ≤ 16126 := hh
  simp only [EspLayout.cluster,clusterOffset,esp_offset,esp_dataStart,esp_root,sectorsPerCluster,
    sectorSize,clusterBytes,u32,u64]
  omega

theorem fileClusters_eq (h : size+clusterBytes < 2^32) : fileClusters size = clustersOf size := by
  have h : size+4096 < 2^32 := h
  simp only [fileClusters,clustersOf,u32,clusterBytes,sectorsPerCluster,sectorSize]
  rw [Nat.mod_eq_of_lt (a := size) (by omega),Nat.mod_eq_of_lt (by omega)]

theorem applyWrites_diskWriteFile (b : Buf) (offset : Nat) (data : Bytes) :
    applyWrites (diskWriteFile offset data) b = put b offset data := by
  fun_induction diskWriteFile offset data generalizing b with
  | case1 offset => exact (put_nil b offset).symm
  | case2 offset data h ih => rw [applyWrites_cons,ih,put_append,take_append_drop]

theorem diskWriteFile_inside {lo hi offset : Nat} {data : Bytes} (hd : data ≠ []) :
    (∀ w ∈ diskWriteFile offset data, lo ≤ w.1 ∧ w.1+w.2.length ≤ hi) ↔
      lo ≤ offset ∧ offset+data.length ≤ hi := by
  fun_induction diskWriteFile offset data with
  | case1 offset => exact absurd rfl hd
  | case2 offset data h ih =>
    have hlen : (data.take 4096).length+(data.drop 4096).length = data.length := by simp; omega
    rw [forall_mem_cons]
    by_cases hr : data.drop 4096 = []
    · rw [hr,diskWriteFile]
      rw [hr,length_nil] at hlen
      simp only [dif_pos,not_mem_nil,false_implies,implies_true,and_true]
      omega
    · rw [ih hr]
      dsimp only
      omega

def addFiles (l : EspLayout) : Nat → Nat → List (Bytes × Bytes) → List Write
  | _, _, [] => []
  | next, k, f :: fs =>
    addFile l f.1 next k f.2 ++ addFiles l (next+fileClusters f.2.length) (k+1) fs

def After (a k : Nat) (w : Write) : Prop :=
  (slotOffset k ≤ w.1 ∧ w.1+w.2.length ≤ clusterOffset 3) ∨
    (esp.fat+a*4 ≤ w.1 ∧ w.1+w.2.length ≤ esp.fat2) ∨
    (esp.fat2+a*4 ≤ w.1 ∧ w.1+w.2.length ≤ esp.root) ∨
    (clusterOffset a ≤ w.1 ∧ w.1+w.2.length ≤ espEnd)

theorem clusterOffset_val (c : Nat) : clusterOffset c = 2113536+(c-2)*4096 := by
  simp [clusterOffset,clusterBytes,sectorsPerCluster,sectorSize]

theorem slotOffset_val (k : Nat) : slotOffset k = 2113536+k*32 := by
  simp [slotOffset,direntSize]

theorem After.mono {a' k' : Nat} (h : After a' k' w) (ha : a ≤ a') (hk : k ≤ k') : After a k w := by
  simp only [After,slotOffset_val,clusterOffset_val] at h ⊢
  omega

theorem After.inside (h : After a k w) : esp.offset ≤ w.1 ∧ w.1+w.2.length ≤ espEnd := by
  simp only [After,slotOffset_val,clusterOffset_val,esp_fat,esp_fat2,esp_root,espEnd] at h ⊢
  rw [esp_offset]
  omega

theorem direntBytes_length {name : Bytes} (hn : name.length = 11) (attr cluster size : Nat) :
    (direntBytes name attr cluster size).length = 32 := by
  simp [direntBytes,hn]

theorem mem_fatLinks {l : EspLayout} {next n : Nat} (h : w ∈ fatLinks l next n) :
    ∃ c < n, w ∈ l.fatEntry (next+c) (if c = n-1 then endOfChain else next+c+1) := by
  rw [fatLinks,mem_flatMap] at h
  obtain ⟨c,hc,hw⟩ := h
  exact ⟨c,mem_range.mp hc,hw⟩

theorem mem_fatEntry {val : Nat} (hc : c < clusterLimit) (h : w ∈ esp.fatEntry c val) :
    w.2.length = 4 ∧ (w.1 = esp.fat+c*4 ∨ w.1 = esp.fat2+c*4) := by
  have hc : c < 16126 := hc
  simp only [EspLayout.fatEntry,esp_fat,esp_fat2,u32,mem_cons,not_mem_nil,or_false] at h
  rcases h with rfl | rfl
  · exact ⟨leBytes_length 4 _,.inl (Nat.mod_eq_of_lt (by omega))⟩
  · exact ⟨leBytes_length 4 _,.inr (Nat.mod_eq_of_lt (by omega))⟩

section
variable {name data : Bytes} {next k : Nat}

structure Fits (name : Bytes) (next k : Nat) (data : Bytes) : Prop where
  name : name.length = 11
  low : 3 ≤ next
  high : next+clustersOf data.length ≤ clusterLimit
  slot : k < 127

theorem clustersOf_le (size : Nat) : size ≤ clustersOf size*4096 := by
  simp only [clustersOf,clusterBytes,sectorsPerCluster,sectorSize]
  omega

theorem Fits.clusters (h : Fits name next k data) : fileClusters data.length = clustersOf data.length := by
  apply fileClusters_eq
  have hh : next+clustersOf data.length ≤ 16126 := h.high
  have hle := clustersOf_le data.length
  simp only [clusterBytes,sectorsPerCluster,sectorSize]
  omega

theorem addFile_rest (h : Fits name next k data)
    (hw : w ∈ diskWriteFile (esp.cluster next) data ++ fatLinks esp next (fileClusters data.length)) :
    After next 128 w := by
  have hh : next+clustersOf data.length ≤ 16126 := h.high
  have hlow := h.low
  have hle := clustersOf_le data.length
  rw [h.clusters,mem_append] at hw
  rcases hw with hw | hw
  · have hd : data ≠ [] := by
      rintro rfl
      rw [diskWriteFile] at hw
      cases hw
    refine .inr (.inr (.inr ((diskWriteFile_inside hd).mpr ?_ w hw)))
    rw [cluster_eq (by omega) (by rw [clusterLimit]; omega)]
    refine ⟨le_refl _,?_⟩
    simp only [clusterOffset_val,espEnd]
    omega
  obtain ⟨c,hc,hw⟩ := mem_fatLinks hw
  obtain ⟨hlen,hpos⟩ := mem_fatEntry (by rw [clusterLimit]; omega) hw
  simp only [After,hlen,esp_fat,esp_fat2,esp_root] at hpos ⊢
  omega

theorem addFile_after (h : Fits name next k data) (hw : w ∈ addFile esp name next k data) :
    After next k w := by
  have hs := h.slot
  rcases mem_cons.mp hw with rfl | hw
  · refine .inl ⟨le_refl _,?_⟩
    simp only [direntBytes_length h.name,clusterOffset_val,esp_root,direntSize]
    omega
  · exact (addFile_rest h hw).mono (le_refl _) (by omega)

def SlotAt (disk : Buf) (k : Nat) (name : Bytes) (first size : Nat) : Prop :=
  get disk (slotOffset k) 32 = direntBytes name 0x20 first size

theorem SlotAt.fields {first : Nat} (h : SlotAt disk k name first size) (hnm : name.length = 11)
    (hf : first < 2^32) (hsi : size < 2^32) :
    entryName disk k = name ∧ entryFirst disk k = first ∧ entrySize disk k = size := by
  have hs : ∀ {i n : Nat}, i+n ≤ 32 → get disk (slotOffset k+i) n =
      slice (direntBytes name 0x20 first size) i n := by
    intro i n hin
    rw [get_slice disk _ hin,h]
  have hn : get disk (slotOffset k) 11 = name := by
    have h0 := hs (i := 0) (n := 11) (by decide)
    rwa [direntBytes,slice_front _ hnm] at h0
  have hsz : slice (leBytes 4 size) 0 4 = leBytes 4 size := take_of_length_le (leBytes_length 4 size).le
  refine ⟨hn,?_,?_⟩
  · rw [entryFirst,hs (by decide),hs (by decide)]
    simp (disch := simp [hnm]) only [direntBytes,slice_append_right,slice_front,leBytes_length,
      length_replicate,hnm,Nat.reduceSub,leValue_leBytes_mod]
    omega
  · rw [entrySize,hs (by decide)]
    simp (disch := simp [hnm]) only [direntBytes,slice_append_right,leBytes_length,
      length_replicate,hnm,Nat.reduceSub,hsz]
    exact leValue_leBytes 4 _ hsi

theorem After.slot_outside (h : After a (k+1) w) (ha : 3 ≤ a) (hk : k < 127) :
    slotOffset k+32 ≤ w.1 ∨ w.1+w.2.length ≤ slotOffset k := by
  simp only [After,slotOffset_val,clusterOffset_val,esp_fat,esp_fat2,esp_root] at h ⊢
  omega

theorem After.link_outside (h : After a (k+1) w) (hc : c < a) (hl : c < clusterLimit) :
    esp.fat+c*4+4 ≤ w.1 ∨ w.1+w.2.length ≤ esp.fat+c*4 := by
  have hl : c < 16126 := hl
  simp only [After,slotOffset_val,clusterOffset_val,esp_fat,esp_fat2,esp_root] at h ⊢
  omega

theorem After.cluster_outside (h : After a (k+1) w) (hlow : 3 ≤ c) (hc : c < a) :
    clusterOffset c+clusterBytes ≤ w.1 ∨ w.1+w.2.length ≤ clusterOffset c := by
  simp only [After,slotOffset_val,clusterOffset_val,esp_fat,esp_fat2,esp_root,clusterBytes,
    sectorsPerCluster,sectorSize] at h ⊢
  omega

theorem SlotAt.applyWrites {first : Nat} (h : SlotAt disk k name first size) (ha : 3 ≤ a)
    (hk : k < 127) (hws : ∀ w ∈ ws, After a (k+1) w) : SlotAt (applyWrites ws disk) k name first size := by
  rw [SlotAt,get_applyWrites_outside (fun w hw => (hws w hw).slot_outside ha hk),h]

theorem FileAt.applyWrites (h : FileAt disk k f chain) (hch : ∀ c ∈ chain, 3 ≤ c ∧ c < a)
    (ha : 3 ≤ a) (hl : a ≤ clusterLimit) (hk : k < 127) (hws : ∀ w ∈ ws, After a (k+1) w) :
    FileAt (applyWrites ws disk) k f chain := by
  have hs : ∀ {i n : Nat}, i+n ≤ 32 →
      get (Buffer.applyWrites ws disk) (slotOffset k+i) n = get disk (slotOffset k+i) n := by
    intro i n hin
    refine get_applyWrites_outside fun w hw => ?_
    have hout := (hws w hw).slot_outside ha hk
    omega
  have hf : entryFirst (Buffer.applyWrites ws disk) k = entryFirst disk k := by
    rw [entryFirst,entryFirst,hs (by decide),hs (by decide)]
  have hn : ∀ c ∈ chain, fatNext (Buffer.applyWrites ws disk) c = fatNext disk c := by
    intro c hc
    obtain ⟨-,hca⟩ := hch c hc
    rw [fatNext,fatNext,get_applyWrites_outside fun w hw =>
      (hws w hw).link_outside hca (lt_of_lt_of_le hca hl)]
  have hd : ∀ c ∈ chain, clusterData (Buffer.applyWrites ws disk) c = clusterData disk c := by
    intro c hc
    obtain ⟨hlow,hca⟩ := hch c hc
    exact get_applyWrites_outside fun w hw => (hws w hw).cluster_outside hlow hca
  refine ⟨?_,?_,?_,h.covers,?_⟩
  · rw [← h.name]
    exact hs (i := 0) (by decide)
  · rw [← h.size,entrySize,entrySize,hs (by decide)]
  · rw [hf]
    exact h.links.imp id fun ⟨hh,hln⟩ => ⟨hh,hln.congr hn⟩
  · rw [flatMap_congr hd,h.contents]

theorem addFile_slot (h : Fits name next k data) (b : Buf) :
    SlotAt (applyWrites (addFile esp name next k data) b) k name next data.length := by
  have hs : SlotAt (put b (esp.root+k*direntSize) (direntBytes name 0x20 next data.length)) k name
      next data.length := by
    have hget := @get_put_self b (slotOffset k) (direntBytes name 0x20 next data.length)
    rwa [direntBytes_length h.name] at hget
  refine hs.applyWrites h.low h.slot fun w hw => ?_
  exact (addFile_rest h hw).mono (le_refl _) (Nat.succ_le_of_lt (h.slot.trans (by decide)))

def linkOf (next n c : Nat) : Nat := if c = n-1 then endOfChain else next+c+1

theorem fatLinks_get {n : Nat} (hc : c < n) (hh : next+n ≤ clusterLimit) (b : Buf) :
    get (applyWrites (fatLinks esp next n) b) (esp.fat+(next+c)*4) 4 = leBytes 4 (linkOf next n c) := by
  have hh : next+n ≤ 16126 := hh
  have hpos : ∀ {d : Nat}, d < n → u32 (esp.fat+(next+d)*4) = esp.fat+(next+d)*4 ∧
      u32 (esp.fat2+(next+d)*4) = esp.fat2+(next+d)*4 := by
    intro d hd
    rw [esp_fat,esp_fat2]
    exact ⟨Nat.mod_eq_of_lt (by omega),Nat.mod_eq_of_lt (by omega)⟩
  have hmem : (esp.fat+(next+c)*4,leBytes 4 (linkOf next n c)) ∈ fatLinks esp next n := by
    rw [fatLinks,mem_flatMap]
    refine ⟨c,mem_range.mpr hc,?_⟩
    rw [EspLayout.fatEntry,(hpos hc).1]
    exact mem_cons_self
  have hget := get_applyWrites_mem hmem (fun v hv => ?_) b
  · rwa [leBytes_length] at hget
  obtain ⟨d,hd,hv⟩ := mem_fatLinks hv
  rw [EspLayout.fatEntry,(hpos hd).1,(hpos hd).2] at hv
  rcases mem_cons.mp hv with rfl | hv
  · by_cases hdc : d = c
    · subst hdc
      exact .inl rfl
    · refine .inr ?_
      simp only [Apart,leBytes_length]
      omega
  obtain rfl := mem_singleton.mp hv
  refine .inr ?_
  simp only [Apart,leBytes_length,esp_fat,esp_fat2]
  omega

theorem addFile_links (h : Fits name next k data) (hc : c < clustersOf data.length) (b : Buf) :
    get (applyWrites (addFile esp name next k data) b) (esp.fat+(next+c)*4) 4 =
      leBytes 4 (linkOf next (clustersOf data.length) c) := by
  rw [addFile,applyWrites_cons,applyWrites_append,h.clusters]
  exact fatLinks_get hc h.high _

theorem addFile_data (h : Fits name next k data) (b : Buf) :
    get (applyWrites (addFile esp name next k data) b) (clusterOffset next) data.length = data := by
  have hlow := h.low
  have hh : next+clustersOf data.length ≤ 16126 := h.high
  rw [addFile,applyWrites_cons,applyWrites_append,applyWrites_diskWriteFile,h.clusters,
    cluster_eq (by omega) (by rw [clusterLimit]; omega),get_applyWrites_outside,get_put_self]
  intro w hw
  obtain ⟨c,hc,hw⟩ := mem_fatLinks hw
  obtain ⟨hlen,hpos⟩ := mem_fatEntry (by rw [clusterLimit]; omega) hw
  simp only [hlen,clusterOffset_val,esp_fat,esp_fat2] at hpos ⊢
  omega

theorem flatMap_clusterData (disk : Buf) (n : Nat) (ha : 2 ≤ a) :
    (range' a n).flatMap (clusterData disk) = get disk (clusterOffset a) (clusterBytes*n) := by
  induction n generalizing a with
  | zero => rfl
  | succ n ih =>
    have hn : clusterOffset (a+1) = clusterOffset a+clusterBytes := by
      simp only [clusterOffset_val,clusterBytes,sectorsPerCluster,sectorSize]
      omega
    rw [range'_succ,flatMap_cons,ih (by omega),hn,mul_add,mul_one,
      add_comm (clusterBytes*n),get_append,clusterData]

theorem addFile_fileAt (h : Fits name next k data) (hd : data ≠ []) (b : Buf) :
    FileAt (applyWrites (addFile esp name next k data) b) k (name,data)
      (range' next (clustersOf data.length)) := by
  have hlow := h.low
  have hh : next+clustersOf data.length ≤ 16126 := h.high
  have hle := clustersOf_le data.length
  obtain ⟨n,hn⟩ : ∃ n, clustersOf data.length = n+1 := by
    have hpos : 0 < data.length := length_pos_iff.mpr hd
    exact Nat.exists_eq_succ_of_ne_zero (by omega)
  obtain ⟨hnm,hf,hs⟩ := (addFile_slot h b).fields h.name (by omega) (by omega)
  refine ⟨hnm,hs,.inr ⟨?_,?_⟩,length_range',?_⟩
  · rw [hf,hn]
    rfl
  · have hl : ∀ c, c < n+1 → fatNext (applyWrites (addFile esp name next k data) b) (next+c) =
        if c = n then none else some (next+c+1) := by
      intro c hc
      rw [fatNext,addFile_links h (hn ▸ hc),hn,linkOf,Nat.add_sub_cancel]
      split
      · next hcn =>
        decide
      · next hcn =>
        rw [leValue_leBytes 4 _ (by omega),Nat.mod_eq_of_lt (by omega),if_neg (by omega)]
    rw [hn]
    refine chain_range' n next (fun c hc hcn => ?_) ?_
    · obtain ⟨d,rfl⟩ := Nat.exists_eq_add_of_le hc
      rw [hl d (by omega),if_neg (by omega)]
    · rw [hl n (by omega),if_pos rfl]
  have ht : data.length ≤ clusterBytes*clustersOf data.length := by
    rw [mul_comm]
    exact hle
  rw [flatMap_clusterData _ _ (by omega),get_take _ _ ht,addFile_data h]

end

def FitsAll : Nat → Nat → List (Bytes × Bytes) → Prop
  | _, _, [] => True
  | next, k, f :: fs => Fits f.1 next k f.2 ∧ FitsAll (next+clustersOf f.2.length) (k+1) fs

def chainsOf : Nat → List (Bytes × Bytes) → List (List Nat)
  | _, [] => []
  | next, f :: fs =>
    List.range' next (clustersOf f.2.length) :: chainsOf (next+clustersOf f.2.length) fs

def SlotsAt (disk : Buf) : Nat → Nat → List (Bytes × Bytes) → Prop
  | _, _, [] => True
  | next, k, f :: fs =>
    SlotAt disk k f.1 next f.2.length ∧ SlotsAt disk (next+clustersOf f.2.length) (k+1) fs

section
variable {fs : List (Bytes × Bytes)} {next k : Nat}

theorem addFiles_after (h : FitsAll next k fs) (hw : w ∈ addFiles esp next k fs) : After next k w := by
  induction fs generalizing next k with
  | nil => cases hw
  | cons f fs ih =>
    rw [addFiles,h.1.clusters] at hw
    rcases mem_append.mp hw with hw | hw
    · exact addFile_after h.1 hw
    · exact (ih h.2 hw).mono (Nat.le_add_right _ _) (Nat.le_succ k)

theorem addFiles_slots (h : FitsAll next k fs) (b : Buf) :
    SlotsAt (applyWrites (addFiles esp next k fs) b) next k fs := by
  induction fs generalizing next k b with
  | nil => trivial
  | cons f fs ih =>
    rw [addFiles,h.1.clusters,applyWrites_append]
    refine ⟨(addFile_slot h.1 b).applyWrites ?_ h.1.slot fun w hw => addFiles_after h.2 hw,ih h.2 _⟩
    exact le_trans h.1.low (Nat.le_add_right _ _)

theorem addFiles_filesAt (h : FitsAll next k fs) (hd : ∀ f ∈ fs, f.2 ≠ []) (b : Buf) :
    FilesAt (applyWrites (addFiles esp next k fs) b) k fs (chainsOf next fs) := by
  induction fs generalizing next k b with
  | nil => trivial
  | cons f fs ih =>
    rw [addFiles,h.1.clusters,applyWrites_append]
    have hlow := h.1.low
    refine ⟨(addFile_fileAt h.1 (hd f mem_cons_self) b).applyWrites (fun c hc => ?_) ?_ h.1.high
      h.1.slot fun w hw => addFiles_after h.2 hw,
      ih h.2 (fun g hg => hd g (mem_cons_of_mem _ hg)) _⟩
    · obtain ⟨hn,hh⟩ := mem_range'_1.mp hc
      omega
    · omega

theorem chainsOf_low (fs : List (Bytes × Bytes)) (next : Nat) :
    ∀ chain ∈ chainsOf next fs, ∀ c ∈ chain, next ≤ c := by
  induction fs generalizing next with
  | nil => simp [chainsOf]
  | cons f fs ih =>
    intro chain hch c hc
    rcases mem_cons.mp hch with rfl | hch
    · exact (mem_range'_1.mp hc).1
    · exact le_trans (Nat.le_add_right _ _) (ih _ chain hch c hc)

theorem chainsOf_disjoint (fs : List (Bytes × Bytes)) (next : Nat) :
    (chainsOf next fs).Pairwise Disjoint := by
  induction fs generalizing next with
  | nil => exact Pairwise.nil
  | cons f fs ih =>
    refine pairwise_cons.mpr ⟨fun chain hch c hc hc' => ?_,ih _⟩
    have hlow := chainsOf_low fs _ chain hch c hc'
    obtain ⟨-,hh⟩ := mem_range'_1.mp hc
    omega

theorem FileAt.nonempty (h : FileAt disk k f chain) (hfit : Fits f.1 next k f.2)
    (hs : SlotAt disk k f.1 next f.2.length) : f.2 ≠ [] ∧ chain.head? = some next := by
  have hlow := hfit.low
  have hhg : next+clustersOf f.2.length ≤ 16126 := hfit.high
  have hle := clustersOf_le f.2.length
  obtain ⟨-,hf,-⟩ := hs.fields hfit.name (by omega) (by omega)
  rcases h.links with ⟨-,hz⟩ | ⟨hh,-⟩
  · omega
  refine ⟨fun hnil => ?_,hf ▸ hh⟩
  have hc := h.covers
  rw [hnil] at hc
  obtain rfl : chain = [] := length_eq_zero_iff.mp hc
  cases hh

theorem FilesAt.nonempty (h : FilesAt disk k fs chains) (hfit : FitsAll next k fs)
    (hs : SlotsAt disk next k fs) : ∀ f ∈ fs, f.2 ≠ [] := by
  induction fs generalizing next k chains with
  | nil => simp
  | cons f fs ih =>
    cases chains with
    | nil => exact h.elim
    | cons chain chains =>
      exact forall_mem_cons.mpr ⟨(h.1.nonempty hfit.1 hs.1).1,ih h.2 hfit.2 hs.2⟩

theorem fitsAll_iff (hn : ∀ f ∈ fs, f.1.length = 11) (hlow : 3 ≤ next) (hnx : next ≤ clusterLimit)
    (hk : k+fs.length ≤ 127) : FitsAll next k fs ↔
      next+(fs.map fun f => clustersOf f.2.length).sum ≤ clusterLimit := by
  induction fs generalizing next k with
  | nil => simpa [FitsAll] using hnx
  | cons f fs ih =>
    rw [length_cons] at hk
    rw [map_cons,sum_cons,FitsAll,← add_assoc]
    constructor
    · intro h
      exact (ih (fun g hg => hn g (mem_cons_of_mem _ hg)) (by omega) h.1.high (by omega)).mp h.2
    intro h
    have hh : next+clustersOf f.2.length ≤ clusterLimit := le_trans (Nat.le_add_right _ _) h
    exact ⟨⟨hn f mem_cons_self,hlow,hh,by omega⟩,
      (ih (fun g hg => hn g (mem_cons_of_mem _ hg)) (by omega) hh (by omega)).mpr h⟩

theorem FilesAt.split {gs : List (Bytes × Bytes)} (h : FilesAt disk k (fs ++ gs) chains) :
    ∃ c1 c2, chains = c1 ++ c2 ∧ FilesAt disk (k+fs.length) gs c2 := by
  induction fs generalizing k chains with
  | nil => exact ⟨[],chains,rfl,h⟩
  | cons f fs ih =>
    cases chains with
    | nil => exact h.elim
    | cons chain chains =>
      obtain ⟨c1,c2,rfl,hc2⟩ := ih h.2
      refine ⟨chain :: c1,c2,rfl,?_⟩
      rwa [length_cons,add_comm fs.length,← add_assoc]

theorem addFile_fits (hnm : f.1.length = 11) (hlow : 3 ≤ next) (hn : next ≤ clusterLimit) (hk : k < 127)
    (hi : ∀ w ∈ addFile esp f.1 next k f.2, esp.offset ≤ w.1 ∧ w.1+w.2.length ≤ espEnd) :
    Fits f.1 next k f.2 := by
  refine ⟨hnm,hlow,?_,hk⟩
  by_cases hd : f.2 = []
  · rw [hd]
    exact hn
  have hin := (diskWriteFile_inside hd).mp fun w hw =>
    hi w (mem_cons_of_mem _ (mem_append_left _ hw))
  rw [cluster_eq (by omega) hn] at hin
  have hend := hin.2
  simp only [clusterOffset_val,espEnd] at hend
  simp only [clustersOf,clusterBytes,sectorsPerCluster,sectorSize,clusterLimit]
  omega

theorem addFiles_fits (hn : ∀ f ∈ fs, f.1.length = 11) (hlow : 3 ≤ next) (hnx : next ≤ clusterLimit)
    (hk : k+fs.length ≤ 127) (hi : ∀ w ∈ addFiles esp next k fs, esp.offset ≤ w.1 ∧ w.1+w.2.length ≤ espEnd) :
    FitsAll next k fs := by
  induction fs generalizing next k with
  | nil => trivial
  | cons f fs ih =>
    rw [length_cons] at hk
    have hfit := addFile_fits (hn f mem_cons_self) hlow hnx (by omega)
      fun w hw => hi w (mem_append_left _ hw)
    refine ⟨hfit,ih (fun g hg => hn g (mem_cons_of_mem _ hg)) (by omega) hfit.high (by omega)
      fun w hw => hi w ?_⟩
    rw [addFiles,hfit.clusters]
    exact mem_append_right _ hw

end

def clusterAfter : Nat → List (Bytes × Bytes) → Nat
  | next, [] => next
  | next, f :: fs => clusterAfter (next+fileClusters f.2.length) fs

theorem addFiles_append (l : EspLayout) (next k : Nat) (fs gs : List (Bytes × Bytes)) :
    addFiles l next k (fs ++ gs) =
      addFiles l next k fs ++ addFiles l (clusterAfter next fs) (k+fs.length) gs := by
  induction fs generalizing next k with
  | nil => rfl
  | cons f fs ih =>
    rw [cons_append,addFiles,ih,addFiles,clusterAfter,append_assoc,length_cons,
      add_right_comm,add_assoc k]

theorem clusterAfter_append (next : Nat) (fs gs : List (Bytes × Bytes)) :
    clusterAfter next (fs ++ gs) = clusterAfter (clusterAfter next fs) gs := by
  induction fs generalizing next with
  | nil => rfl
  | cons f fs ih => exact ih _

theorem FitsAll.clusterAfter_eq {next : Nat} {fs : List (Bytes × Bytes)} (h : FitsAll next k fs)
    (hlow : 3 ≤ next) (hn : next ≤ clusterLimit) :
    3 ≤ clusterAfter next fs ∧ clusterAfter next fs ≤ clusterLimit := by
  induction fs generalizing next k with
  | nil => exact ⟨hlow,hn⟩
  | cons f fs ih =>
    rw [clusterAfter,h.1.clusters]
    exact ih h.2 (by omega) h.1.high

theorem file_eq (l : EspLayout) (name : Bytes) (s : EspState) (o : Option Bytes) : s.file l name o =
    ⟨s.writes ++ addFiles l s.nextCluster s.dirIdx (o.toList.map (name,·)),
      clusterAfter s.nextCluster (o.toList.map (name,·)),s.dirIdx+(o.toList.map (name,·)).length⟩ := by
  cases o with
  | none | some data => simp [EspState.file,addFiles,clusterAfter]

theorem bootJson_length : bootJson.length = 136 := by
  unfold bootJson ascii
  decide +kernel

theorem bootJson_ne_nil : bootJson ≠ [] := ne_nil_of_length_pos (by simp [bootJson_length])

theorem json_eq (l : EspLayout) (s : EspState) :
    s.json l = s.writes ++ addFile l jsonName s.nextCluster s.dirIdx bootJson := by
  have hlen := bootJson_length
  have hf : diskWriteFile (l.cluster s.nextCluster) bootJson = [(l.cluster s.nextCluster,bootJson)] := by
    rw [diskWriteFile,dif_neg bootJson_ne_nil,take_of_length_le (by omega),drop_eq_nil_of_le (by omega),
      diskWriteFile,dif_pos rfl]
  have hone : fileClusters bootJson.length = 1 := by
    rw [hlen]
    decide
  rw [EspState.json,addFile,hf,hone]
  simp [fatLinks]

section
variable (boot kernel : Option Bytes)

def givenFiles : List (Bytes × Bytes) :=
  boot.toList.map (bootName,·) ++ kernel.toList.map (kernelName,·)

theorem espFiles_none : espFiles boot kernel none = givenFiles boot kernel ++ [(jsonName,bootJson)] := by
  simp [espFiles,givenFiles]

theorem writeFat32Esp_none : writeFat32Esp efiPartStartLba espSectors boot kernel none =
    espHeader efiPartStartLba espSectors esp ++ addFiles esp 3 1 (espFiles boot kernel none) := by
  have hesp : espLayout efiPartStartLba espSectors = esp := rfl
  rw [writeFat32Esp,hesp,espFiles_none,addFiles_append,json_eq]
  simp [EspState.modelFile,file_eq,givenFiles,addFiles,addFiles_append,clusterAfter_append,clusterAfter,
    add_assoc]

theorem writeFat32Esp_some (m : Bytes) : writeFat32Esp efiPartStartLba espSectors boot kernel (some m) =
    espHeader efiPartStartLba espSectors esp ++ (addFiles esp 3 1 (givenFiles boot kernel) ++
      (addFile esp modelName (clusterAfter 3 (givenFiles boot kernel)) (1+(givenFiles boot kernel).length) m ++
        addFile esp jsonName (clusterAfter 3 (givenFiles boot kernel))
          (1+(givenFiles boot kernel).length+1) bootJson)) := by
  have hesp : espLayout efiPartStartLba espSectors = esp := rfl
  rw [writeFat32Esp,hesp,json_eq]
  simp [EspState.modelFile,file_eq,givenFiles,addFiles,addFiles_append,clusterAfter_append,
    add_assoc]

theorem givenFiles_names : ∀ f ∈ givenFiles boot kernel, f.1.length = 11 := by
  simp only [givenFiles,mem_append,mem_map]
  rintro f (⟨data,-,rfl⟩ | ⟨data,-,rfl⟩) <;> simp [bootName,kernelName,ascii]

theorem givenFiles_length : (givenFiles boot kernel).length ≤ 2 := by
  cases boot <;> cases kernel <;> simp [givenFiles]

def givenClusters (o : Option Bytes) : Nat := o.elim 0 fun data => clustersOf data.length

end

theorem bpbBytes_length (lba sectors : Nat) : (bpbBytes lba sectors).length = 512 := by
  have hoem : (ascii "AevOS   ").length = 8 := by simp [ascii]
  have hl : (ascii "AevOS EFI  ").length = 11 := by simp [ascii]
  have ht : (ascii "FAT32   ").length = 8 := by simp [ascii]
  unfold bpbBytes
  simp only [length_append,leBytes_length,length_replicate,length_cons,length_nil,hoem,hl,ht]

theorem mem_espHeader (hw : w ∈ espHeader efiPartStartLba espSectors esp) :
    (w.1 = esp.offset ∧ w.2.length = 512) ∨ w = (esp.fat+2*4,leBytes 4 endOfChain) ∨
      (w.2.length = 4 ∧ w.1 ∈ [esp.fat,esp.fat+4,esp.fat2,esp.fat2+4,esp.fat2+8]) ∨
      (w.1 = esp.root ∧ w.2.length = 32) := by
  have hl : (ascii "AevOS EFI  ").length = 11 := by simp [ascii]
  simp only [espHeader,mem_cons,not_mem_nil,or_false] at hw
  rcases hw with rfl | rfl | rfl | rfl | rfl | rfl | rfl | rfl <;>
    simp [u32,bpbBytes_length,direntBytes_length hl]

theorem espHeader_inside (hw : w ∈ espHeader efiPartStartLba espSectors esp) :
    esp.offset ≤ w.1 ∧ w.1+w.2.length ≤ espEnd := by
  have hc := mem_espHeader hw
  simp only [esp_offset,esp_fat,esp_fat2,esp_root,espEnd,mem_cons,not_mem_nil,or_false] at hc ⊢
  rcases hc with h | rfl | h | h
  case inr.inl => simp
  all_goals omega

theorem espHeader_root (b : Buf) :
    get (applyWrites (espHeader efiPartStartLba espSectors esp) b) (esp.fat+2*4) 4 = leBytes 4 endOfChain := by
  have hmem : (esp.fat+2*4,leBytes 4 endOfChain) ∈ espHeader efiPartStartLba espSectors esp := by
    simp [espHeader,u32]
  have hget := get_applyWrites_mem hmem (fun v hv => ?_) b
  · rwa [leBytes_length] at hget
  have hc := mem_espHeader hv
  simp only [Apart,leBytes_length,esp_offset,esp_fat,esp_fat2,esp_root,mem_cons,not_mem_nil,
    or_false] at hc ⊢
  rcases hc with h | h | h | h
  case inr.inl => exact .inl h
  all_goals omega

section
variable (boot kernel : Option Bytes)

theorem espFiles_names : ∀ f ∈ espFiles boot kernel none, f.1.length = 11 := by
  simp only [espFiles_none,mem_append,mem_singleton]
  rintro f (hf | rfl)
  · exact givenFiles_names boot kernel f hf
  · simp [jsonName,ascii]

theorem espFiles_length : (espFiles boot kernel none).length ≤ 3 := by
  simpa [espFiles_none,Nat.lt_succ_iff] using givenFiles_length boot kernel

theorem fitsAll_espFiles : FitsAll 3 1 (espFiles boot kernel none) ↔
    givenClusters boot+givenClusters kernel ≤ 16122 := by
  have hlen := espFiles_length boot kernel
  have hj : clustersOf 136 = 1 := by decide
  have hsum : ((espFiles boot kernel none).map fun f => clustersOf f.2.length).sum =
      givenClusters boot+givenClusters kernel+1 := by
    cases boot <;> cases kernel <;> simp [espFiles,givenClusters,bootJson_length,hj,add_assoc]
  rw [fitsAll_iff (espFiles_names boot kernel) (le_refl 3) (by decide) (by omega),hsum,clusterLimit]
  omega

theorem espFiles_ok (hfit : FitsAll 3 1 (espFiles boot kernel none))
    (hd : ∀ f ∈ espFiles boot kernel none, f.2 ≠ []) (disk : Buf) :
    EspOk (espFiles boot kernel none) (writeFat32Esp efiPartStartLba espSectors boot kernel none)
      (applyWrites (writeFat32Esp efiPartStartLba espSectors boot kernel none) disk) := by
  rw [writeFat32Esp_none]
  refine ⟨fun w hw => ?_,?_,chainsOf 3 (espFiles boot kernel none),?_,?_⟩
  · rcases mem_append.mp hw with hw | hw
    · exact espHeader_inside hw
    · exact (addFiles_after hfit hw).inside
  · have hr : get (applyWrites (espHeader efiPartStartLba espSectors esp ++
        addFiles esp 3 1 (espFiles boot kernel none)) disk) (esp.fat+2*4) 4 = leBytes 4 endOfChain := by
      rw [applyWrites_append,get_applyWrites_outside fun w hw => ?_,espHeader_root]
      exact (addFiles_after hfit hw).link_outside (k := 0) (c := 2) (by decide) (by decide)
    show fatNext _ 2 = none
    rw [fatNext,hr,leValue_leBytes 4 _ (by decide)]
    decide
  · rw [applyWrites_append]
    exact addFiles_filesAt hfit hd _
  · refine pairwise_cons.mpr ⟨fun chain hch c hc hc' => ?_,chainsOf_disjoint _ 3⟩
    obtain rfl := mem_singleton.mp hc
    exact absurd (chainsOf_low _ 3 chain hch 2 hc') (by decide)

theorem model_not_ok (m : Bytes) (disk : Buf) :
    ¬ EspOk (espFiles boot kernel (some m)) (writeFat32Esp efiPartStartLba espSectors boot kernel (some m))
      (applyWrites (writeFat32Esp efiPartStartLba espSectors boot kernel (some m)) disk) := by
  have hf : espFiles boot kernel (some m) =
      givenFiles boot kernel ++ [(modelName,m),(jsonName,bootJson)] := by simp [espFiles,givenFiles]
  have hlen := givenFiles_length boot kernel
  rw [writeFat32Esp_some,hf]
  rintro ⟨hi,-,chains,hc,hd⟩
  have hg := addFiles_fits (givenFiles_names boot kernel) (le_refl 3) (by decide) (by omega)
    fun w hw => hi w (mem_append_right _ (mem_append_left _ hw))
  obtain ⟨hlow,hh⟩ := hg.clusterAfter_eq (le_refl 3) (by decide)
  generalize clusterAfter 3 (givenFiles boot kernel) = next at *
  generalize hk : 1+(givenFiles boot kernel).length = k at *
  have hm : Fits modelName next k m :=
    addFile_fits (f := (modelName,m)) (by simp [modelName,ascii]) hlow hh (by omega) fun w hw =>
      hi w (mem_append_right _ (mem_append_right _ (mem_append_left _ hw)))
  have hj : Fits jsonName next (k+1) bootJson :=
    addFile_fits (f := (jsonName,bootJson)) (by simp [jsonName,ascii]) hlow hh (by omega) fun w hw =>
      hi w (mem_append_right _ (mem_append_right _ (mem_append_right _ hw)))
  rw [applyWrites_append,applyWrites_append,applyWrites_append] at hc
  generalize applyWrites (addFiles esp 3 1 (givenFiles boot kernel))
    (applyWrites (espHeader efiPartStartLba espSectors esp) disk) = b at hc
  obtain ⟨c1,c2,rfl,hc2⟩ := hc.split
  rw [hk] at hc2
  obtain ⟨cm,cj,rfl⟩ : ∃ cm cj, c2 = [cm,cj] := by
    match c2, hc2 with
    | [cm,cj], _ => exact ⟨cm,cj,rfl⟩
    | [], h => exact h.elim
    | [_], h => exact h.2.elim
    | _ :: _ :: _ :: _, h => exact h.2.2.elim
  have hmd := hc2.1.nonempty hm ((addFile_slot hm b).applyWrites hlow hm.slot fun w hw => addFile_after hj hw)
  have hjs := hc2.2.1.nonempty hj (addFile_slot hj _)
  have ha : Disjoint cm cj := by
    have ht := (pairwise_append.mp (pairwise_cons.mp hd).2).2.1
    exact (pairwise_cons.mp ht).1 cj mem_cons_self
  exact ha (mem_of_mem_head? hmd.2) (mem_of_mem_head? hjs.2)

end

theorem writeFat32Esp_ok_iff (boot kernel model : Option Bytes) (disk : Buf) :
    EspOk (espFiles boot kernel model) (writeFat32Esp efiPartStartLba espSectors boot kernel model)
      (applyWrites (writeFat32Esp efiPartStartLba espSectors boot kernel model) disk) ↔
      model = none ∧ boot ≠ some [] ∧ kernel ≠ some [] ∧
        givenClusters boot+givenClusters kernel ≤ 16122 := by
  cases model with
  | some m => exact ⟨fun h => absurd h (model_not_ok boot kernel m disk),fun h => by cases h.1⟩
  | none =>
    have hnonempty : (∀ f ∈ espFiles boot kernel none, f.2 ≠ []) ↔ boot ≠ some [] ∧ kernel ≠ some [] := by
      cases boot <;> cases kernel <;> simp [espFiles,bootJson_ne_nil]
    constructor
    · intro h
      have hinside := h.inside
      obtain ⟨chains,hchains,-⟩ := h.files
      rw [writeFat32Esp_none] at hinside hchains
      have hlen := espFiles_length boot kernel
      have hfit := addFiles_fits (espFiles_names boot kernel) (le_refl 3) (by decide) (by omega)
        fun w hw => hinside w (mem_append_right _ hw)
      rw [applyWrites_append] at hchains
      obtain ⟨hboot,hkernel⟩ := hnonempty.mp (hchains.nonempty hfit (addFiles_slots hfit _))
      exact ⟨rfl,hboot,hkernel,(fitsAll_espFiles boot kernel).mp hfit⟩
    · rintro ⟨-,hboot,hkernel,hfit⟩
      exact espFiles_ok boot kernel ((fitsAll_espFiles boot kernel).mpr hfit) (hnonempty.mpr ⟨hboot,hkernel⟩) disk

theorem model_shares_cluster : ¬ EspOk (espFiles (some [1]) (some [2]) (some [3]))
    (writeFat32Esp efiPartStartLba espSectors (some [1]) (some [2]) (some [3]))
    (applyWrites (writeFat32Esp efiPartStartLba espSectors (some [1]) (some [2]) (some [3])) zeros) :=
  model_not_ok (some [1]) (some [2]) [3] zeros

end AevOS.Mkfs
