import AevOS.ByteBuffer
import AevOS.Common

/-! The file system of `kernel/fs/aevosfs.c`. The answers of the device to the coming reads and writes
are part of the state; an access without an answer succeeds. -/

namespace AevOS.AevosFs
open Wire Buffer List

def aevosfsMagic : Nat := 0xAE05F5A1
def aevosfsVersion : Nat := 1
def blockSize : Nat := 4096
abbrev directBlocks : Nat := 16
def maxName : Nat := 128
abbrev maxInodes : Nat := 4096
def vfsPathMax : Nat := 512
def logEntryWrite : Nat := 1

inductive InodeType where
  | file | dir
  deriving DecidableEq

def InodeType.toNat : InodeType → Nat
  | .file => 0
  | .dir => 1

structure Superblock where
  magic : Nat
  version : Nat
  blockSize : Nat
  totalBlocks : Nat
  freeBlocks : Nat
  rootInode : Nat
  logHead : Nat
  checkpointBlock : Nat
  deriving DecidableEq

def Superblock.bytes (b : Superblock) : Bytes :=
  leBytes 4 b.magic ++ (leBytes 4 b.version ++ (leBytes 4 b.blockSize ++ (leBytes 8 b.totalBlocks ++
    (leBytes 8 b.freeBlocks ++ (leBytes 8 b.rootInode ++ (leBytes 8 b.logHead ++
      leBytes 8 b.checkpointBlock))))))

def readSuperblock (b : Buf) : Superblock where
  magic := leValue (get b 0 4)
  version := leValue (get b 4 4)
  blockSize := leValue (get b 8 4)
  totalBlocks := leValue (get b 12 8)
  freeBlocks := leValue (get b 20 8)
  rootInode := leValue (get b 28 8)
  logHead := leValue (get b 36 8)
  checkpointBlock := leValue (get b 44 8)

structure Inode where
  id : Nat
  type : InodeType
  size : Nat
  blockList : Fin directBlocks → Nat
  permissions : Nat
  linkCount : Nat

def Inode.zero : Inode := ⟨0,.file,0,fun _ => 0,0,0⟩

def Inode.bytes (n : Inode) : Bytes :=
  leBytes 8 n.id ++ leBytes 4 n.type.toNat ++ leBytes 8 n.size ++ leBytes 8 0 ++ leBytes 8 0 ++
    (List.ofFn fun k => leBytes 8 (n.blockList k)).flatten ++ leBytes 8 0 ++
    leBytes 4 n.permissions ++ leBytes 4 n.linkCount ++ List.replicate 40 0

def logEntryBytes (inodeId offset length dataBlock : Nat) : Bytes :=
  leBytes 1 logEntryWrite ++ leBytes 8 inodeId ++ leBytes 8 offset ++ leBytes 4 length ++
    leBytes 8 dataBlock ++ leBytes 8 0

def dirEntrySize : Nat := 140
def entriesPerBlock : Nat := blockSize/dirEntrySize

def dirEntryBytes (inodeId : Nat) (name : Bytes) (type : InodeType) : Bytes :=
  leBytes 8 inodeId ++ ((name.take (maxName-1) ++ List.replicate (maxName-(name.take (maxName-1)).length) 0) ++
    leBytes 4 type.toNat)

def entryId (b : Buf) (i : Nat) : Nat := leValue (get b (dirEntrySize*i) 8)

def entryNamed (b : Buf) (component : Bytes) (i : Nat) : Bool :=
  get b (dirEntrySize*i+8) (component.length+1) == component ++ [0]

structure Fs where
  sb : Superblock
  inodeTable : Fin maxInodes → Inode
  nextInodeId : Nat
  blocks : Nat → Buf
  reads : List Bool
  writes : List (Option Buf)
  handed : List Nat
  logBlocks : List Nat

def Fs.setInode (s : Fs) (i : Fin maxInodes) (n : Inode) : Fs :=
  { s with inodeTable := Function.update s.inodeTable i n }

def Fs.setBlock (s : Fs) (i : Fin maxInodes) (k : Fin directBlocks) (blk : Nat) : Fs :=
  s.setInode i { s.inodeTable i with blockList := Function.update (s.inodeTable i).blockList k blk }

def allocBlock (s : Fs) : Nat × Fs :=
  if s.sb.freeBlocks = 0 then (0,s)
  else
    (s.sb.logHead,
      { s with
        sb := { s.sb with
          logHead := (s.sb.logHead+1)%2^64
          freeBlocks := s.sb.freeBlocks-1 }
        handed := s.sb.logHead :: s.handed })

def readBlock (blk : Nat) (s : Fs) : Option Buf × Fs :=
  (if s.reads.headD false then none else some (s.blocks blk),{ s with reads := s.reads.tail })

def writeBlock (blk : Nat) (b : Buf) (s : Fs) : Bool × Fs :=
  ((s.writes.headD none).isNone,
    { s with
      blocks := Function.update s.blocks blk ((s.writes.headD none).getD b)
      writes := s.writes.tail })

@[irreducible] def findInode (id : Nat) (s : Fs) : Option (Fin maxInodes) :=
  (List.finRange maxInodes).find? fun i => (s.inodeTable i).id = id

def allocInode (type : InodeType) (s : Fs) : Option (Fin maxInodes × Fs) :=
  (findInode 0 s).map fun i =>
    (i,{ s.setInode i ⟨s.nextInodeId,type,0,fun _ => 0,0o755,1⟩ with
      nextInodeId := (s.nextInodeId+1)%2^64 })

def logAppendWrite (i : Fin maxInodes) (offset length dataBlk : Nat) (s : Fs) : Fs :=
  let r := allocBlock s
  if r.1 = 0 then r.2
  else
    (writeBlock r.1 (put zeros 0 (logEntryBytes (s.inodeTable i).id offset length dataBlk))
      { r.2 with logBlocks := r.1 :: r.2.logBlocks }).2

def components (p : Bytes) : List Bytes :=
  let q := p.dropWhile (· = slash)
  if _h : q = [] then []
  else
    let c := (q.takeWhile (· ≠ slash)).take (maxName-1)
    c :: components (q.drop c.length)
termination_by p.length
decreasing_by
  have hle := (dropWhile_suffix (l := p) (· = slash)).length_le
  have hq : 0 < (p.dropWhile (· = slash)).length := length_pos_iff.mpr _h
  have hc : 0 < (((p.dropWhile (· = slash)).takeWhile (· ≠ slash)).take (maxName-1)).length := by
    obtain ⟨x,l,hx⟩ := exists_cons_of_ne_nil _h
    have hx : p.dropWhile (· = slash) = x :: l := hx
    have hne : x ≠ slash := by
      have hhead := head_dropWhile_not (· = slash) (l := p) _h
      simpa [hx] using hhead
    simp [hx,hne,maxName]
  simp only [length_drop]
  omega

def Inode.scanned (n : Inode) : List Nat := (List.ofFn n.blockList).takeWhile (· ≠ 0)

def scanBlocks {α : Type} (f : Buf → Option α) : List Nat → Fs → Option (Nat × α) × Fs
  | [], s => (none,s)
  | blk :: l, s =>
    let r := readBlock blk s
    match r.1.bind f with
    | some a => (some (blk,a),r.2)
    | none => scanBlocks f l r.2

def findEntry (component : Bytes) (b : Buf) : Option Nat :=
  ((List.range entriesPerBlock).find? fun i => entryId b i ≠ 0 ∧ entryNamed b component i).map
    (entryId b)

def walkPath : List Bytes → Fin maxInodes → Fs → Option (Fin maxInodes) × Fs
  | [], cur, s => (some cur,s)
  | c :: cs, cur, s =>
    if (s.inodeTable cur).type ≠ .dir then (none,s)
    else
      match scanBlocks (findEntry c) (s.inodeTable cur).scanned s with
      | (none,s) => (none,s)
      | (some (_,id),s) =>
        match findInode id s with
        | none => (none,s)
        | some cur => walkPath cs cur s

def resolvePathInternal (path : Bytes) (s : Fs) : Option (Fin maxInodes) × Fs :=
  match findInode s.sb.rootInode s with
  | none => (none,s)
  | some cur => walkPath (components path) cur s

def freeEntry (b : Buf) : Option Nat :=
  (List.range entriesPerBlock).find? fun i => entryId b i = 0

def addDirEntry (parent : Fin maxInodes) (name : Bytes) (childId : Nat) (type : InodeType) (s : Fs) :
    Except Errno Unit × Fs :=
  let entry := dirEntryBytes childId name type
  let written : Bool × Fs → Except Errno Unit × Fs := fun w =>
    (if w.1 then .ok () else .error .eio,w.2)
  match scanBlocks (fun b => (freeEntry b).map fun i => (i,b)) (s.inodeTable parent).scanned s with
  | (some (blk,i,b),s) => written (writeBlock blk (put b (dirEntrySize*i) entry) s)
  | (none,s) =>
    match (List.finRange directBlocks).find? fun k => (s.inodeTable parent).blockList k = 0 with
    | none => (.error .enospc,s)
    | some k =>
      let r := allocBlock s
      if r.1 = 0 then (.error .enospc,r.2)
      else written (writeBlock r.1 (put zeros 0 entry) (r.2.setBlock parent k r.1))

def splitPath (path : Bytes) : Bytes × Bytes :=
  let parentPath := path.take (vfsPathMax-1)
  let last := parentPath.length-1-parentPath.reverse.idxOf slash
  if last = 0 then ([slash],(path.drop 1).take (maxName-1))
  else (parentPath.take last,(parentPath.drop (last+1)).take (maxName-1))

def aevosfsCreate (path : CStr) (type : InodeType) (s : Fs) : Except Errno Unit × Fs :=
  if path.bytes.head? ≠ some slash then (.error .einval,s)
  else
    let (parentPath,name) := splitPath path.bytes
    match resolvePathInternal parentPath s with
    | (none,s) => (.error .enoent,s)
    | (some parent,s) =>
      if (s.inodeTable parent).type ≠ .dir then (.error .enoent,s)
      else
        match allocInode type s with
        | none => (.error .enomem,s)
        | some (i,s) =>
          match addDirEntry parent name (s.inodeTable i).id type s with
          | (.ok _,s) => (.ok (),s)
          | (.error e,s) => (.error e,s.setInode i { s.inodeTable i with id := 0 })

def slotEntry (b : Buf) (i : Nat) : Option (Nat × Bytes) :=
  if entryId b i = 0 then none
  else some (entryId b i,(get b (dirEntrySize*i+8) maxName).takeWhile (· ≠ 0))

def blockEntries (b : Buf) : List (Nat × Bytes) := (List.range entriesPerBlock).filterMap (slotEntry b)

def listBlocks (max : Nat) : List Nat → List (Nat × Bytes) → Fs → List (Nat × Bytes) × Fs
  | [], out, s => (out,s)
  | blk :: l, out, s =>
    let r := readBlock blk s
    listBlocks max l ((out ++ (r.1.map blockEntries).getD []).take max) r.2

def aevosfsListDir (i : Fin maxInodes) (max : Nat) (s : Fs) : Except Errno (List (Nat × Bytes)) × Fs :=
  if (s.inodeTable i).type ≠ .dir then (.error .einval,s)
  else
    let r := listBlocks max (s.inodeTable i).scanned [] s
    (.ok r.1,r.2)

def readLoop (i : Fin maxInodes) (offset size : Nat) (out : Bytes) (s : Fs) : Except Errno Bytes × Fs :=
  if _h : out.length < size then
    let pos := offset+out.length
    if hk : pos/blockSize < directBlocks then
      let phys := (s.inodeTable i).blockList ⟨pos/blockSize,hk⟩
      if phys = 0 then (.ok out,s)
      else
        match readBlock phys s with
        | (none,s) => (.error .eio,s)
        | (some b,s) =>
          readLoop i offset size
            (out ++ get b (pos%blockSize) (min (blockSize-pos%blockSize) (size-out.length))) s
    else (.ok out,s)
  else (.ok out,s)
termination_by size-out.length
decreasing_by
  have hoff : (offset+out.length)%blockSize < blockSize := Nat.mod_lt _ (by decide)
  simp only [length_append,get_length]
  omega

def aevosfsRead (i : Fin maxInodes) (offset size : Nat) (s : Fs) : Except Errno Bytes × Fs :=
  if (s.inodeTable i).size ≤ offset then (.ok [],s)
  else readLoop i offset (min size ((s.inodeTable i).size-offset)) [] s

inductive Chunk where
  | noSpace | failed | written
  deriving DecidableEq

def ensureBlock (i : Fin maxInodes) (k : Fin directBlocks) (s : Fs) : Bool × Fs :=
  if (s.inodeTable i).blockList k = 0 then
    let r := allocBlock s
    if r.1 = 0 then (false,r.2) else (true,r.2.setBlock i k r.1)
  else (true,s)

def loadBlock (whole : Bool) (blk : Nat) (s : Fs) : Buf × Fs :=
  if whole then (zeros,s)
  else
    let r := readBlock blk s
    (r.1.getD zeros,r.2)

def writeChunk (i : Fin maxInodes) (k : Fin directBlocks) (pos : Nat) (part : Bytes) (whole : Bool)
    (s : Fs) : Chunk × Fs :=
  let e := ensureBlock i k s
  if e.1 = false then (.noSpace,e.2)
  else
    let l := loadBlock whole ((e.2.inodeTable i).blockList k) e.2
    let r := allocBlock l.2
    if r.1 = 0 then (.noSpace,r.2)
    else
      let w := writeBlock r.1 (put l.1 (pos%blockSize) part) r.2
      if w.1 = false then (.failed,w.2)
      else (.written,logAppendWrite i pos part.length r.1 (w.2.setBlock i k r.1))

def writeLoop (i : Fin maxInodes) (offset : Nat) (data : Bytes) (total : Nat) (s : Fs) :
    Except Errno Nat × Fs :=
  if _h : total < data.length then
    let pos := offset+total
    let chunk := min (blockSize-pos%blockSize) (data.length-total)
    if hk : pos/blockSize < directBlocks then
      match writeChunk i ⟨pos/blockSize,hk⟩ pos (slice data total chunk)
          (pos%blockSize = 0 ∧ blockSize ≤ data.length-total) s with
      | (.noSpace,s) => (if 0 < total then .ok total else .error .enospc,s)
      | (.failed,s) => (.error .eio,s)
      | (.written,s) => writeLoop i offset data (total+chunk) s
    else (.ok total,s)
  else
    (.ok total,s.setInode i { s.inodeTable i with size := max (s.inodeTable i).size (offset+total) })
termination_by data.length-total
decreasing_by
  have hoff : (offset+total)%blockSize < blockSize := Nat.mod_lt _ (by decide)
  omega

def aevosfsWrite (i : Fin maxInodes) (offset : Nat) (data : Bytes) (s : Fs) : Except Errno Nat × Fs :=
  writeLoop i offset data 0 s

def checkpointInodes : List (Fin maxInodes) → Fs → Except Errno Unit × Fs
  | [], s => (.ok (),s)
  | i :: l, s =>
    if (s.inodeTable i).id = 0 then checkpointInodes l s
    else
      let r := allocBlock s
      if r.1 = 0 then (.error .enospc,r.2)
      else
        let w := writeBlock r.1 (put zeros 0 (s.inodeTable i).bytes) r.2
        if w.1 then checkpointInodes l w.2 else (.error .eio,w.2)

def writeSuperblock (s : Fs) : Bool × Fs := writeBlock 0 (put zeros 0 s.sb.bytes) s

def aevosfsCheckpoint (s : Fs) : Except Errno Unit × Fs :=
  match checkpointInodes (List.finRange maxInodes) s with
  | (.error e,s) => (.error e,s)
  | (.ok _,s) =>
    let w := writeSuperblock { s with sb := { s.sb with checkpointBlock := s.sb.logHead } }
    (if w.1 then .ok () else .error .eio,w.2)

def aevosfsInit (s : Fs) : Fs := { s with inodeTable := fun _ => Inode.zero, nextInodeId := 1 }

def loadSuperblock (s : Fs) : Fs :=
  let r := readBlock 0 s
  { r.2 with sb := (r.1.map readSuperblock).getD s.sb }

def freshSuperblock (root : Nat) : Superblock :=
  ⟨aevosfsMagic,aevosfsVersion,blockSize,65536,65536-2,root,2,0⟩

def format (s : Fs) : Except Errno Unit × Fs :=
  match allocInode .dir { s with sb := freshSuperblock 0, handed := [], logBlocks := [] } with
  | none => (.error .enomem,{ s with sb := freshSuperblock 0, handed := [], logBlocks := [] })
  | some (root,s) =>
    let s := { s with sb := freshSuperblock (s.inodeTable root).id }
    let w := writeBlock 1 zeros (s.setBlock root 0 1)
    (.ok (),(writeSuperblock w.2).2)

def rebuildRoot (s : Fs) : Fs :=
  match findInode s.sb.rootInode s with
  | some _ => s
  | none =>
    match allocInode .dir s with
    | none => s
    | some (root,s) => s.setInode root { s.inodeTable root with id := s.sb.rootInode }

def aevosfsMount (s : Fs) : Except Errno Unit × Fs :=
  let s := loadSuperblock s
  if s.sb.magic ≠ aevosfsMagic then format s else (.ok (),rebuildRoot s)

inductive Op where
  | create (path : CStr) (type : InodeType)
  | write (i : Fin maxInodes) (offset : Nat) (data : Bytes)
  | checkpoint

structure Call where
  op : Op
  reads : List Bool
  writes : List (Option Buf)

def Call.begin (c : Call) (s : Fs) : Fs := { s with reads := c.reads, writes := c.writes }

def Op.run (s : Fs) : Op → Fs
  | .create path type => (aevosfsCreate path type s).2
  | .write i offset data => (aevosfsWrite i offset data s).2
  | .checkpoint => (aevosfsCheckpoint s).2

def step (s : Fs) (c : Call) : Fs := c.op.run (c.begin s)
def run (s : Fs) (cs : List Call) : Fs := cs.foldl step s

/-! Every block that `alloc_block` hands out has one owner. -/

open Function

def Fs.list (s : Fs) (i : Fin maxInodes) (k : Fin directBlocks) : Nat := (s.inodeTable i).blockList k

/-- No block stands in two places of the inode table and the log. -/
structure NoSharing (s : Fs) : Prop where
  apart : ∀ i k j l, s.list i k ≠ 0 → s.list i k = s.list j l → i = j ∧ k = l
  logsApart : ∀ i k, s.list i k ≠ 0 → s.list i k ∉ s.logBlocks
  logsNodup : s.logBlocks.Nodup

structure Owned (s : Fs) : Prop extends NoSharing s where
  total : s.sb.totalBlocks = 65536
  root : s.sb.rootInode = 1
  sum : s.sb.logHead+s.sb.freeBlocks = 65536
  low : 2 ≤ s.sb.logHead
  handed : ∀ b ∈ s.handed, b < s.sb.logHead
  handedNodup : s.handed.Nodup
  logs : ∀ b ∈ s.logBlocks, b < s.sb.logHead
  lists : ∀ i k, s.list i k < s.sb.logHead

/-- A block below the log head that nothing refers to. -/
structure Spare (s : Fs) (b : Nat) : Prop where
  pos : b ≠ 0
  lt : b < s.sb.logHead
  lists : ∀ i k, s.list i k ≠ b
  logs : b ∉ s.logBlocks

variable {b id : Nat} {i : Fin maxInodes} {s : Fs}

section
variable {s₀ s s' : Fs}

theorem Owned.congr (h : Owned s) (hsb : s'.sb = s.sb) (ht : s'.inodeTable = s.inodeTable)
    (hh : s'.handed = s.handed) (hl : s'.logBlocks = s.logBlocks) : Owned s' := by
  obtain ⟨⟨h1,h2,h3⟩,h4,h5,h6,h7,h8,h9,h10,h11⟩ := h
  refine ⟨⟨?_,?_,?_⟩,?_,?_,?_,?_,?_,?_,?_,?_⟩ <;>
    simp only [Fs.list,hsb,ht,hh,hl] <;> assumption

theorem Spare.congr (h : Spare s b) (hsb : s'.sb = s.sb) (ht : s'.inodeTable = s.inodeTable)
    (hl : s'.logBlocks = s.logBlocks) : Spare s' b := by
  obtain ⟨h1,h2,h3,h4⟩ := h
  refine ⟨h1,hsb ▸ h2,?_,hl ▸ h4⟩
  simpa only [Fs.list,ht] using h3

def Fs.advance (s : Fs) : Fs :=
  { s with
    sb := { s.sb with logHead := s.sb.logHead+1, freeBlocks := s.sb.freeBlocks-1 }
    handed := s.sb.logHead :: s.handed }

theorem allocBlock_owned (h : Owned s) : (s.sb.freeBlocks = 0 ∧ allocBlock s = (0,s)) ∨
    (s.sb.freeBlocks ≠ 0 ∧ allocBlock s = (s.sb.logHead,s.advance) ∧ Owned s.advance ∧
      Spare s.advance s.sb.logHead) := by
  by_cases hf : s.sb.freeBlocks = 0
  · exact .inl ⟨hf,by rw [allocBlock,if_pos hf]⟩
  have hsum := h.sum
  have hlow := h.low
  have hw : (s.sb.logHead+1)%2^64 = s.sb.logHead+1 := Nat.mod_eq_of_lt (by omega)
  refine .inr ⟨hf,by rw [allocBlock,if_neg hf,hw]; rfl,
    ⟨⟨h.apart,h.logsApart,h.logsNodup⟩,h.total,h.root,?_,?_,?_,?_,?_,?_⟩,⟨?_,?_,?_,?_⟩⟩
  · change s.sb.logHead+1+(s.sb.freeBlocks-1) = 65536
    omega
  · exact Nat.le_succ_of_le hlow
  · intro b hb
    rcases mem_cons.mp hb with rfl | hb
    · exact Nat.lt_succ_self _
    · exact Nat.lt_succ_of_lt (h.handed b hb)
  · exact nodup_cons.mpr ⟨fun hb => lt_irrefl _ (h.handed _ hb),h.handedNodup⟩
  · exact fun b hb => Nat.lt_succ_of_lt (h.logs b hb)
  · exact fun i k => Nat.lt_succ_of_lt (h.lists i k)
  · omega
  · exact Nat.lt_succ_self _
  · exact fun i k => ne_of_lt (h.lists i k)
  · exact fun hb => lt_irrefl _ (h.logs _ hb)

theorem setBlock_list (s : Fs) (i : Fin maxInodes) (k : Fin directBlocks) (b : Nat)
    (j : Fin maxInodes) (l : Fin directBlocks) :
    (s.setBlock i k b).list j l = if j = i ∧ l = k then b else s.list j l := by
  by_cases hj : j = i
  · subst hj
    by_cases hl : l = k
    · subst hl
      simp [Fs.list,Fs.setBlock,Fs.setInode]
    · simp [Fs.list,Fs.setBlock,Fs.setInode,hl]
  · simp [Fs.list,Fs.setBlock,Fs.setInode,hj]

theorem Owned.setBlock (h : Owned s) (hb : Spare s b) (i : Fin maxInodes) (k : Fin directBlocks) :
    Owned (s.setBlock i k b) := by
  refine ⟨⟨?_,?_,h.logsNodup⟩,h.total,h.root,h.sum,h.low,h.handed,h.handedNodup,h.logs,?_⟩
  · intro j l j' l' hne heq
    rw [setBlock_list] at hne
    rw [setBlock_list,setBlock_list] at heq
    split at heq
    · next hjl =>
      split at heq
      · next hjl' => exact ⟨hjl.1.trans hjl'.1.symm,hjl.2.trans hjl'.2.symm⟩
      · exact absurd heq.symm (hb.lists j' l')
    · next hjl =>
      rw [if_neg hjl] at hne
      split at heq
      · exact absurd heq (hb.lists j l)
      · exact h.apart j l j' l' hne heq
  · intro j l hne
    rw [setBlock_list] at hne ⊢
    split
    · exact hb.logs
    · next hjl =>
      rw [if_neg hjl] at hne
      exact h.logsApart j l hne
  intro j l
  rw [setBlock_list]
  split
  · exact hb.lt
  · exact h.lists j l

theorem Owned.addLog (h : Owned s) (hb : Spare s b) : Owned { s with logBlocks := b :: s.logBlocks } := by
  refine ⟨⟨h.apart,?_,?_⟩,h.total,h.root,h.sum,h.low,h.handed,h.handedNodup,?_,h.lists⟩
  · intro i k hne hmem
    rcases mem_cons.mp hmem with heq | hmem
    · exact hb.lists i k heq
    · exact h.logsApart i k hne hmem
  · exact nodup_cons.mpr ⟨hb.logs,h.logsNodup⟩
  intro c hc
  rcases mem_cons.mp hc with rfl | hc
  · exact hb.lt
  · exact h.logs c hc

theorem Owned.setInode (h : Owned s) {n : Inode}
    (hl : ∀ k, n.blockList k = s.list i k ∨ n.blockList k = 0) : Owned (s.setInode i n) := by
  have hsub : ∀ j k, (s.setInode i n).list j k = s.list j k ∨ (s.setInode i n).list j k = 0 := by
    intro j k
    by_cases hj : j = i
    · subst hj
      simpa [Fs.list,Fs.setInode] using hl k
    · simp [Fs.list,Fs.setInode,hj]
  have hold : ∀ j k, (s.setInode i n).list j k ≠ 0 → (s.setInode i n).list j k = s.list j k :=
    fun j k hne => (hsub j k).resolve_right hne
  refine ⟨⟨?_,?_,h.logsNodup⟩,h.total,h.root,h.sum,h.low,h.handed,h.handedNodup,h.logs,?_⟩
  · intro j k j' k' hne heq
    have hne' : (s.setInode i n).list j' k' ≠ 0 := heq ▸ hne
    rw [hold j k hne] at hne
    rw [hold j k (hold j k (heq ▸ hne') ▸ hne),hold j' k' hne'] at heq
    exact h.apart j k j' k' hne heq
  · intro j k hne
    have heq := hold j k hne
    rw [heq] at hne ⊢
    exact h.logsApart j k hne
  intro j k
  rcases hsub j k with heq | heq
  · exact heq ▸ h.lists j k
  · exact heq ▸ lt_of_lt_of_le (by decide) h.low

theorem allocInode_owned (h : Owned s) {type : InodeType} (ha : allocInode type s = some (i,s')) :
    Owned s' := by
  simp only [allocInode,Option.map_eq_some_iff] at ha
  obtain ⟨j,-,heq⟩ := ha
  obtain ⟨rfl,rfl⟩ := Prod.mk.inj heq
  exact (h.setInode (i := j) (n := ⟨s.nextInodeId,type,0,fun _ => 0,0o755,1⟩)
    (fun k => .inr rfl)).congr rfl rfl rfl rfl

theorem Owned.setCheckpoint (h : Owned s) (b : Nat) :
    Owned { s with sb := { s.sb with checkpointBlock := b } } :=
  ⟨⟨h.apart,h.logsApart,h.logsNodup⟩,h.total,h.root,h.sum,h.low,h.handed,h.handedNodup,h.logs,h.lists⟩

theorem findInode_id (h : findInode id s = some i) : (s.inodeTable i).id = id := by
  unfold findInode at h
  simpa using find?_some h

/-- The magic number, and the numbers and types of the inodes in use, are as they were in `s₀`. -/
structure Fixed (s₀ s : Fs) : Prop where
  magic : s.sb.magic = s₀.sb.magic
  id : ∀ j, (s₀.inodeTable j).id ≠ 0 → (s.inodeTable j).id = (s₀.inodeTable j).id
  type : ∀ j, (s₀.inodeTable j).id ≠ 0 → (s.inodeTable j).type = (s₀.inodeTable j).type

theorem Fixed.congr (h : Fixed s₀ s) (hm : s'.sb.magic = s.sb.magic) (ht : s'.inodeTable = s.inodeTable) :
    Fixed s₀ s' :=
  ⟨hm.trans h.magic,fun j => by rw [ht]; exact h.id j,fun j => by rw [ht]; exact h.type j⟩

theorem Fixed.setInode (h : Fixed s₀ s) {n : Inode} (hn : (s₀.inodeTable i).id ≠ 0 →
    n.id = (s.inodeTable i).id ∧ n.type = (s.inodeTable i).type) : Fixed s₀ (s.setInode i n) := by
  refine ⟨h.magic,fun j hj => ?_,fun j hj => ?_⟩
  · by_cases hji : j = i
    · subst hji
      rw [← h.id j hj,← (hn hj).1]
      simp [Fs.setInode]
    · rw [← h.id j hj]
      simp [Fs.setInode,hji]
  by_cases hji : j = i
  · subst hji
    rw [← h.type j hj,← (hn hj).2]
    simp [Fs.setInode]
  · rw [← h.type j hj]
    simp [Fs.setInode,hji]

/-- What a call that starts from `s₀` keeps. -/
structure Steady (s₀ s : Fs) : Prop extends Owned s, Fixed s₀ s

theorem Steady.refl (h : Owned s) : Steady s s := ⟨h,rfl,fun _ _ => rfl,fun _ _ => rfl⟩

section
variable (h : Steady s₀ s)
include h

theorem Steady.congr (hsb : s'.sb = s.sb) (ht : s'.inodeTable = s.inodeTable)
    (hh : s'.handed = s.handed) (hl : s'.logBlocks = s.logBlocks) : Steady s₀ s' :=
  ⟨h.toOwned.congr hsb ht hh hl,h.toFixed.congr (by rw [hsb]) ht⟩

theorem Steady.setBlock (hb : Spare s b) (i : Fin maxInodes) (k : Fin directBlocks) :
    Steady s₀ (s.setBlock i k b) :=
  ⟨h.toOwned.setBlock hb i k,h.toFixed.setInode fun _ => ⟨rfl,rfl⟩⟩

theorem Steady.setInode {n : Inode} (hl : ∀ k, n.blockList k = s.list i k)
    (hn : (s₀.inodeTable i).id ≠ 0 → n.id = (s.inodeTable i).id ∧ n.type = (s.inodeTable i).type) :
    Steady s₀ (s.setInode i n) :=
  ⟨h.toOwned.setInode fun k => .inl (hl k),h.toFixed.setInode hn⟩

theorem allocBlock_steady : allocBlock s = (0,s) ∨
    allocBlock s = (s.sb.logHead,s.advance) ∧ Steady s₀ s.advance ∧ Spare s.advance s.sb.logHead := by
  rcases allocBlock_owned h.toOwned with ⟨-,heq⟩ | ⟨-,heq,h1,hs⟩
  · exact .inl heq
  · exact .inr ⟨heq,⟨h1,h.toFixed.congr rfl rfl⟩,hs⟩

theorem allocInode_steady {type : InodeType} (ha : allocInode type s = some (i,s')) :
    Steady s₀ s' ∧ (s₀.inodeTable i).id = 0 := by
  have hown := allocInode_owned h.toOwned ha
  simp only [allocInode,Option.map_eq_some_iff] at ha
  obtain ⟨j,hfn,heq⟩ := ha
  obtain ⟨rfl,rfl⟩ := Prod.mk.inj heq
  have hf : (s₀.inodeTable j).id = 0 := by
    by_contra hne
    rw [← h.id j hne] at hne
    exact hne (findInode_id hfn)
  exact ⟨⟨hown,(h.toFixed.setInode fun hj => absurd hf hj).congr rfl rfl⟩,hf⟩

theorem logAppendWrite_steady (i : Fin maxInodes) (offset length dataBlk : Nat) :
    Steady s₀ (logAppendWrite i offset length dataBlk s) := by
  unfold logAppendWrite
  rcases allocBlock_steady h with heq | ⟨heq,h1,hs⟩
  · rw [heq]
    exact h
  rw [heq]
  rw [if_neg hs.pos]
  exact ⟨(h1.toOwned.addLog hs).congr rfl rfl rfl rfl,h1.toFixed.congr rfl rfl⟩

end

theorem scanBlocks_state {α : Type} (f : Buf → Option α) (l : List Nat) (s : Fs) :
    ∃ r, (scanBlocks f l s).2 = { s with reads := r } := by
  induction l generalizing s with
  | nil => exact ⟨s.reads,rfl⟩
  | cons blk l ih =>
    simp only [scanBlocks]
    split
    · exact ⟨_,rfl⟩
    · exact ih (readBlock blk s).2

theorem walkPath_state (cs : List Bytes) (cur : Fin maxInodes) (s : Fs) :
    ∃ r, (walkPath cs cur s).2 = { s with reads := r } := by
  induction cs generalizing cur s with
  | nil => exact ⟨s.reads,by rw [walkPath]⟩
  | cons c cs ih =>
    simp only [walkPath]
    split
    · exact ⟨s.reads,rfl⟩
    obtain ⟨r,hr⟩ := scanBlocks_state (findEntry c) (s.inodeTable cur).scanned s
    split
    · next hs =>
      rw [hs] at hr
      exact ⟨r,hr⟩
    · next hs =>
      rw [hs] at hr
      subst hr
      split
      · exact ⟨r,rfl⟩
      · next cur' _ => exact ih cur' { s with reads := r }

theorem resolvePathInternal_state (path : Bytes) (s : Fs) :
    ∃ r, (resolvePathInternal path s).2 = { s with reads := r } := by
  unfold resolvePathInternal
  cases findInode s.sb.rootInode s with
  | none => exact ⟨s.reads,rfl⟩
  | some cur => exact walkPath_state _ cur s

theorem addDirEntry_steady (h : Steady s₀ s) (parent : Fin maxInodes) (name : Bytes) (childId : Nat)
    (type : InodeType) : Steady s₀ (addDirEntry parent name childId type s).2 := by
  unfold addDirEntry
  obtain ⟨r,hr⟩ := scanBlocks_state (fun b => (freeEntry b).map fun i => (i,b))
    (s.inodeTable parent).scanned s
  split
  · next hs =>
    rw [hs] at hr
    subst hr
    exact h.congr rfl rfl rfl rfl
  · next hs =>
    rw [hs] at hr
    subst hr
    split
    · exact h.congr rfl rfl rfl rfl
    · next k _ =>
      have h0 : Steady s₀ { s with reads := r } := h.congr rfl rfl rfl rfl
      rcases allocBlock_steady h0 with heq | ⟨heq,h1,hsp⟩
      · rw [heq]
        exact h0
      rw [heq]
      rw [if_neg hsp.pos]
      exact (h1.setBlock hsp parent k).congr rfl rfl rfl rfl

theorem aevosfsCreate_steady (h : Steady s₀ s) (path : CStr) (type : InodeType) :
    Steady s₀ (aevosfsCreate path type s).2 := by
  unfold aevosfsCreate
  split
  · exact h
  obtain ⟨r,hr⟩ := resolvePathInternal_state (splitPath path.bytes).1 s
  dsimp only
  split
  · next hres =>
    rw [hres] at hr
    subst hr
    exact h.congr rfl rfl rfl rfl
  · next parent s1 hres =>
    rw [hres] at hr
    subst hr
    have h1 : Steady s₀ { s with reads := r } := h.congr rfl rfl rfl rfl
    split
    · exact h1
    split
    · exact h1
    · next i s2 ha =>
      obtain ⟨h2,hf⟩ := allocInode_steady h1 ha
      have h3 := addDirEntry_steady h2 parent (splitPath path.bytes).2 (s2.inodeTable i).id type
      split
      · next hadd => exact hadd ▸ h3
      · next hadd =>
        rw [hadd] at h3
        exact h3.setInode (fun _ => rfl) fun hi => absurd hf hi

theorem ensureBlock_steady (h : Steady s₀ s) (i : Fin maxInodes) (k : Fin directBlocks) :
    Steady s₀ (ensureBlock i k s).2 := by
  unfold ensureBlock
  split
  · rcases allocBlock_steady h with heq | ⟨heq,h1,hs⟩
    · rw [heq]
      exact h
    rw [heq]
    rw [if_neg hs.pos]
    exact h1.setBlock hs i k
  · exact h

theorem loadBlock_state (whole : Bool) (blk : Nat) (s : Fs) :
    ∃ r, (loadBlock whole blk s).2 = { s with reads := r } := by
  rw [loadBlock]
  split
  · exact ⟨s.reads,rfl⟩
  · exact ⟨_,rfl⟩

theorem writeChunk_steady (h : Steady s₀ s) (i : Fin maxInodes) (k : Fin directBlocks) (pos : Nat)
    (part : Bytes) (whole : Bool) : Steady s₀ (writeChunk i k pos part whole s).2 := by
  unfold writeChunk
  have h1 := ensureBlock_steady h i k
  dsimp only
  split
  · exact h1
  obtain ⟨r,hr⟩ := loadBlock_state whole (((ensureBlock i k s).2.inodeTable i).blockList k)
    (ensureBlock i k s).2
  rw [hr]
  have h2 : Steady s₀ { (ensureBlock i k s).2 with reads := r } := h1.congr rfl rfl rfl rfl
  rcases allocBlock_steady h2 with heq | ⟨heq,h3,hs⟩
  · rw [heq]
    exact h2
  rw [heq]
  rw [if_neg hs.pos]
  split
  · exact h3.congr rfl rfl rfl rfl
  · refine logAppendWrite_steady (Steady.setBlock ?_ ?_ i k) i _ _ _
    · exact h3.congr rfl rfl rfl rfl
    · exact hs.congr rfl rfl rfl

theorem writeLoop_keeps {Inv : Fs → Prop} {i : Fin maxInodes} {offset : Nat} {data : Bytes}
    (hc : ∀ (s : Fs) (total : Nat) (hk : (offset+total)/blockSize < directBlocks), total < data.length →
      Inv s → Inv (writeChunk i ⟨(offset+total)/blockSize,hk⟩ (offset+total)
        (slice data total (min (blockSize-(offset+total)%blockSize) (data.length-total)))
        ((offset+total)%blockSize = 0 ∧ blockSize ≤ data.length-total) s).2)
    (hs : ∀ s size, Inv s → Inv (s.setInode i { s.inodeTable i with size := size }))
    (total : Nat) (h : Inv s) : Inv (writeLoop i offset data total s).2 := by
  fun_induction writeLoop i offset data total s with
  | case1 total s hlt pos chunk hk s1 heq | case2 total s hlt pos chunk hk s1 heq =>
    have h1 := hc s total hk hlt h
    rwa [heq] at h1
  | case3 total s hlt pos chunk hk s1 heq ih =>
    have h1 := hc s total hk hlt h
    rw [heq] at h1
    exact ih h1
  | case4 total s hlt pos hk => exact h
  | case5 total s hlt => exact hs s _ h

theorem writeLoop_steady (i : Fin maxInodes) (offset : Nat) (data : Bytes) (total : Nat) (h : Steady s₀ s) :
    Steady s₀ (writeLoop i offset data total s).2 := by
  refine writeLoop_keeps ?_ ?_ total h
  · exact fun s total hk _ h => writeChunk_steady h i _ _ _ _
  · exact fun s size h => h.setInode (fun _ => rfl) fun _ => ⟨rfl,rfl⟩

theorem checkpointInodes_steady (l : List (Fin maxInodes)) (h : Steady s₀ s) : Steady s₀ (checkpointInodes l s).2 := by
  induction l generalizing s with
  | nil => exact h
  | cons i l ih =>
    unfold checkpointInodes
    split
    · exact ih h
    rcases allocBlock_steady h with heq | ⟨heq,h1,hs⟩
    · rw [heq]
      exact h
    rw [heq]
    dsimp only
    rw [if_neg hs.pos]
    split
    · exact ih (h1.congr rfl rfl rfl rfl)
    · exact h1.congr rfl rfl rfl rfl

theorem aevosfsCheckpoint_steady (h : Steady s₀ s) : Steady s₀ (aevosfsCheckpoint s).2 := by
  unfold aevosfsCheckpoint
  have h1 := checkpointInodes_steady (finRange maxInodes) h
  split
  · next hc => exact hc ▸ h1
  · next hc =>
    rw [hc] at h1
    exact ⟨(h1.toOwned.setCheckpoint _).congr rfl rfl rfl rfl,h1.toFixed.congr rfl rfl⟩

theorem step_steady (h : Steady s₀ s) (c : Call) : Steady s₀ (step s c) := by
  have h0 : Steady s₀ (c.begin s) := h.congr rfl rfl rfl rfl
  rw [step]
  cases c.op with
  | create path type => exact aevosfsCreate_steady h0 path type
  | write i offset data => exact writeLoop_steady i offset data 0 h0
  | checkpoint => exact aevosfsCheckpoint_steady h0

theorem run_steady (h : Owned s) (cs : List Call) : Steady s (run s cs) := by
  induction cs using List.reverseRecOn with
  | nil => exact .refl h
  | append_singleton cs c ih =>
    rw [run,foldl_concat]
    exact step_steady ih c

end

def mounted (s : Fs) : Fs := (aevosfsMount (aevosfsInit s)).2

/-- The device holds no superblock, so that mounting formats it. -/
def Blank (s : Fs) : Prop := (loadSuperblock (aevosfsInit s)).sb.magic ≠ aevosfsMagic

theorem findInode_first (h : (s.inodeTable 0).id = id) : findInode id s = some 0 := by
  unfold findInode
  rw [find?_eq_some_iff_getElem]
  exact ⟨decide_eq_true h,0,by simp,by simp,fun j hj => absurd hj (Nat.not_lt_zero j)⟩

theorem directBlocks_pos : 0 < directBlocks := by decide

def rootInode : Inode := ⟨1,.dir,0,update (fun _ => 0) ⟨0,directBlocks_pos⟩ 1,0o755,1⟩

theorem mounted_blank (h : Blank s) : mounted s =
    { sb := freshSuperblock 1
      inodeTable := update (fun _ => Inode.zero) 0 rootInode
      nextInodeId := 2
      blocks := update (update s.blocks 1 ((s.writes.headD none).getD zeros)) 0
        ((s.writes.tail.headD none).getD (put zeros 0 (freshSuperblock 1).bytes))
      reads := s.reads.tail
      writes := s.writes.tail.tail
      handed := []
      logBlocks := [] } := by
  have h : (loadSuperblock (aevosfsInit s)).sb.magic ≠ aevosfsMagic := h
  have ha : allocInode .dir { loadSuperblock (aevosfsInit s) with
        sb := freshSuperblock 0, handed := [], logBlocks := [] } =
      some (0,⟨freshSuperblock 0,
        update (fun _ => Inode.zero) 0 ⟨1,.dir,0,fun _ => 0,0o755,1⟩,2,s.blocks,s.reads.tail,
          s.writes,[],[]⟩) := by
    rw [allocInode,findInode_first (show _ = 0 from rfl)]
    simp [Fs.setInode,loadSuperblock,readBlock,aevosfsInit]
  rw [mounted,aevosfsMount,if_pos h,format,ha]
  simp [writeSuperblock,writeBlock,Fs.setBlock,Fs.setInode,rootInode]

theorem mounted_list (h : Blank s) {k : Fin directBlocks} (hne : (mounted s).list i k ≠ 0) :
    i = 0 ∧ k = 0 ∧ (mounted s).list i k = 1 := by
  rw [mounted_blank h] at hne ⊢
  simp only [Fs.list] at hne ⊢
  by_cases hi : i = 0
  · subst hi
    by_cases hk : k = 0
    · subst hk
      simp [rootInode]
    · simp [rootInode,hk] at hne
  · simp [hi,Inode.zero] at hne

theorem mounted_owned (h : Blank s) : Owned (mounted s) := by
  have hsb : (mounted s).sb = freshSuperblock 1 := by rw [mounted_blank h]
  have hh : (mounted s).handed = [] := by rw [mounted_blank h]
  have hl : (mounted s).logBlocks = [] := by rw [mounted_blank h]
  refine ⟨⟨?_,?_,?_⟩,?_,?_,?_,?_,?_,?_,?_,?_⟩
  · intro i k j l hne heq
    obtain ⟨rfl,rfl,-⟩ := mounted_list h hne
    rw [heq] at hne
    obtain ⟨rfl,rfl,-⟩ := mounted_list h hne
    exact ⟨rfl,rfl⟩
  · simp [hl]
  · simp [hl]
  · simp [hsb,freshSuperblock]
  · simp [hsb,freshSuperblock]
  · simp [hsb,freshSuperblock]
  · simp [hsb,freshSuperblock]
  · simp [hh]
  · simp [hh]
  · simp [hl]
  intro i k
  by_cases hne : (mounted s).list i k = 0
  · simp [hne,hsb,freshSuperblock]
  · simp [(mounted_list h hne).2.2,hsb,freshSuperblock]

theorem run_blocks_owned (s : Fs) (hblank : Blank s) (cs : List Call) :
    (run (mounted s) cs).sb.logHead+(run (mounted s) cs).sb.freeBlocks =
        (mounted s).sb.logHead+(mounted s).sb.freeBlocks ∧
      (∀ b ∈ (run (mounted s) cs).handed, b < (run (mounted s) cs).sb.totalBlocks) ∧
      (run (mounted s) cs).handed.Nodup ∧ NoSharing (run (mounted s) cs) := by
  have h0 := mounted_owned hblank
  have h := (run_steady h0 cs).toOwned
  refine ⟨h.sum.trans h0.sum.symm,fun b hb => ?_,h.handedNodup,h.toNoSharing⟩
  rw [h.total,← h.sum]
  exact Nat.lt_add_right _ (h.handed b hb)

def bootFs : Fs := ⟨⟨0,0,0,0,0,0,0,0⟩,fun _ => Inode.zero,0,fun _ => zeros,[],[],[],[]⟩

theorem bootFs_blank : Blank bootFs := by
  rw [Blank]
  decide

theorem run_blocks_owned_boot : Blank bootFs ∧
    NoSharing (run (mounted bootFs) [⟨.write 0 0 [1],[],[]⟩,⟨.checkpoint,[],[]⟩]) :=
  ⟨bootFs_blank,(run_blocks_owned bootFs bootFs_blank _).2.2.2⟩

end AevOS.AevosFs
