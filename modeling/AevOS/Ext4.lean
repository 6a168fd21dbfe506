import AevOS.ByteBuffer
import AevOS.Common

/-! Reading a file with `kernel/fs/fs_ext4.c`, and the file that the extents of its inode
describe. -/

namespace AevOS.Ext4
open Wire Buffer ArrayPrefix

def le16 (b : Buf) (off : Nat) : Nat := leValue (get b off 2)
def le32 (b : Buf) (off : Nat) : Nat := leValue (get b off 4)

structure Ext4Ctx where
  partLba : Nat
  blockSize : Nat
  partLba_lt : partLba < 2^32
  blockSize_pos : 0 < blockSize
  blockSize_le : blockSize ≤ 2^31

structure Ext4Node where
  size : Nat
  isDir : Bool
  dataBlock0 : Nat
  dataBlocks : Nat
  deriving DecidableEq

def firstBlock (inode : Buf) : Nat :=
  le32 inode (0x28+12+8) ||| le16 inode (0x28+12+6) <<< 16

def extentRoot (inode : Buf) : Option (Nat × Nat × Nat) :=
  let isize := le32 inode 0x04
  if le32 inode 0x20 &&& 0x00080000 = 0 then none
  else if le16 inode 0x28 ≠ 0xF30A then none
  else if le16 inode (0x28+4) ≠ 0 ∨ le16 inode (0x28+2) < 1 then none
  else if 0 < le16 inode (0x28+12+4) then some (firstBlock inode,le16 inode (0x28+12+4),isize)
  else none

def fileNode (inode : Buf) : Option Ext4Node :=
  (extentRoot inode).map fun r => ⟨r.2.2,false,r.1,r.2.1⟩

structure Disk where
  readable : Nat → Bool
  bytes : Buf

def blockDevRead (d : Disk) (lba : Nat) : Option Buf :=
  if d.readable lba then some (fun i => d.bytes (lba*512+i)) else none

def readLoop (d : Disk) : Nat → Nat → Nat → Option Bytes
  | 0, _, _ => some []
  | turns+1, off, len =>
    if len = 0 then some []
    else
      match blockDevRead d (off/512) with
      | none => none
      | some sec =>
        let take := min (512-off%512) len
        (readLoop d turns ((off+take)%2^64) (len-take)).map (get sec (off%512) take ++ ·)

def readBytes (d : Disk) (off len : Nat) : Option Bytes := readLoop d len off len

def ext4Read (c : Ext4Ctx) (n : Ext4Node) (d : Disk) (offset size : Nat) : Except Errno Bytes :=
  if n.isDir then .error .einval
  else if n.size ≤ offset then .ok []
  else
    let base := (c.partLba*512+n.dataBlock0*c.blockSize+offset)%2^64
    match readBytes d base (min size (n.size-offset)) with
    | none => .error .eio
    | some bs => .ok bs

structure Extent where
  block : Nat
  len : Nat
  start : Nat
  deriving DecidableEq

def extentAt (inode : Buf) (i : Nat) : Extent :=
  let ex := 0x28+12+i*12
  ⟨le32 inode ex,le16 inode (ex+4),le32 inode (ex+8)+le16 inode (ex+6)*2^32⟩

def Extent.Holds (e : Extent) (b : Nat) : Prop := e.len ≤ 32768 ∧ e.block ≤ b ∧ b < e.block+e.len
  deriving Decidable

def physBlock (inode : Buf) (b : Nat) : Option Nat :=
  (((List.range (le16 inode (0x28+2))).map (extentAt inode)).find? fun e => e.Holds b).map fun e =>
    e.start+(b-e.block)

def fileSize (inode : Buf) : Nat := le32 inode 0x04+le32 inode 0x6C*2^32

def fileAddr (c : Ext4Ctx) (inode : Buf) (pos : Nat) : Option Nat :=
  (physBlock inode (pos/c.blockSize)).map fun pb =>
    c.partLba*512+(pb*c.blockSize+pos%c.blockSize)

def fileContent (c : Ext4Ctx) (inode bytes : Buf) : Buf := fun pos =>
  match fileAddr c inode pos with
  | some a => bytes a
  | none => 0

def fileBytes (c : Ext4Ctx) (inode bytes : Buf) (offset size : Nat) : Bytes :=
  get (fileContent c inode bytes) offset (min size (fileSize inode-offset))

def Readable (readable : Nat → Bool) (off len : Nat) : Prop :=
  ∀ a, off ≤ a → a < off+len → readable (a/512) = true

variable {d : Disk} {off offset size : Nat}

theorem readLoop_eq_some {turns len : Nat} (ht : len ≤ turns) (hf : off+len ≤ 2^64)
    (h : Readable d.readable off len) : readLoop d turns off len = some (get d.bytes off len) := by
  induction turns generalizing off len with
  | zero =>
    obtain rfl : len = 0 := by omega
    rfl
  | succ turns ih =>
    rw [readLoop]
    by_cases hlen : len = 0
    · subst hlen
      rfl
    have hsec : blockDevRead d (off/512) = some fun i => d.bytes (off/512*512+i) :=
      if_pos (h off (le_refl off) (by omega))
    rw [if_neg hlen,hsec]
    dsimp only
    generalize htk : min (512-off%512) len = take
    by_cases hend : off+take = 2^64
    · -- the last byte of the address space; nothing is left to read
      obtain rfl : take = len := by omega
      rw [Nat.sub_self]
      have hnil : ∀ o, readLoop d turns o 0 = some [] := by
        intro o
        cases turns with
        | zero => rfl
        | succ turns => rw [readLoop,if_pos rfl]
      rw [hnil,get_shift,Option.map_some,List.append_nil,Nat.div_add_mod']
    · have hw : off+take < 2^64 := by omega
      rw [Nat.mod_eq_of_lt hw,ih (by omega) (by omega) fun a ha ha' => h a (by omega) (by omega)]
      rw [get_shift,Nat.div_add_mod',Option.map_some,← get_append,show take+(len-take) = len by omega]

theorem readLoop_eq_none {turns len : Nat} (ht : len ≤ turns) (hf : off+len ≤ 2^64)
    (h : ¬ Readable d.readable off len) : readLoop d turns off len = none := by
  induction turns generalizing off len with
  | zero =>
    refine absurd (fun a ha ha' => ?_) h
    omega
  | succ turns ih =>
    have hlen : len ≠ 0 := fun hlen => h fun a ha ha' => by omega
    rw [readLoop,if_neg hlen,blockDevRead]
    by_cases hrd : d.readable (off/512) = true
    · rw [if_pos hrd]
      dsimp only
      generalize htk : min (512-off%512) len = take
      have hr : ¬ Readable d.readable (off+take) (len-take) := by
        intro hr
        refine h fun a ha ha' => ?_
        by_cases hin : a < off+take
        · rwa [show a/512 = off/512 by omega]
        · exact hr a (by omega) (by omega)
      have hm : off+take < 2^64 := by
        refine Nat.lt_of_not_le fun hge => hr fun a ha ha' => ?_
        omega
      rw [Nat.mod_eq_of_lt hm,ih (by omega) (by omega) hr]
      rfl
    · rw [if_neg hrd]

theorem le16_lt (b : Buf) (off : Nat) : le16 b off < 2^16 :=
  leValue_get_lt b off 2

theorem le32_lt (b : Buf) (off : Nat) : le32 b off < 2^32 :=
  leValue_get_lt b off 4

theorem firstBlock_lt (inode : Buf) : firstBlock inode < 2^32 := by
  have hhi := le16_lt inode (0x28+12+6)
  refine Nat.or_lt_two_pow (le32_lt _ _) ?_
  omega

theorem fileNode_eq_some {inode : Buf} {n : Ext4Node} (h : fileNode inode = some n) :
    n.size = le32 inode 0x04 ∧ n.isDir = false ∧ n.dataBlock0 = firstBlock inode := by
  obtain ⟨r,hr,rfl⟩ := Option.map_eq_some_iff.mp h
  unfold extentRoot at hr
  split at hr
  · simp at hr
  split at hr
  · simp at hr
  split at hr
  · simp at hr
  split at hr
  · obtain rfl := Option.some.inj hr
    exact ⟨rfl,rfl,rfl⟩
  · simp at hr

section
variable (c : Ext4Ctx) {inode : Buf} {n : Ext4Node}

def baseByte (inode : Buf) : Nat := c.partLba*512+firstBlock inode*c.blockSize

theorem baseByte_add_lt (inode : Buf) (h : offset < 2^32) : baseByte c inode+2*offset < 2^64 := by
  have hp := c.partLba_lt
  have hd : firstBlock inode*c.blockSize ≤ (2^32-1)*2^31 :=
    Nat.mul_le_mul (Nat.le_sub_one_of_lt (firstBlock_lt inode)) c.blockSize_le
  unfold baseByte
  omega

def ReadableAt (inode : Buf) (readable : Nat → Bool) (offset size : Nat) : Prop :=
  Readable readable (baseByte c inode+offset) (min size (le32 inode 0x04-offset))

variable {c}

theorem ext4Read_ok (h : fileNode inode = some n) (hr : ReadableAt c inode d.readable offset size) :
    ext4Read c n d offset size =
      .ok (get d.bytes (baseByte c inode+offset) (min size (le32 inode 0x04-offset))) := by
  obtain ⟨hs,hdir,hb⟩ := fileNode_eq_some h
  rw [ext4Read,hdir,hs,hb]
  by_cases hend : le32 inode 0x04 ≤ offset
  · simp [hend,Buffer.get,firsts]
  have hlo := le32_lt inode 0x04
  have hw := baseByte_add_lt c inode hlo
  have hbs : (c.partLba*512+firstBlock inode*c.blockSize+offset)%2^64 =
      baseByte c inode+offset := Nat.mod_eq_of_lt (by unfold baseByte at hw; omega)
  simp only [hend,if_false,Bool.false_eq_true,hbs,readBytes]
  rw [readLoop_eq_some (le_refl _) (by omega) hr]

theorem ext4Read_error (h : fileNode inode = some n) (hr : ¬ ReadableAt c inode d.readable offset size) :
    ext4Read c n d offset size = .error .eio := by
  obtain ⟨hs,hdir,hb⟩ := fileNode_eq_some h
  rw [ext4Read,hdir,hs,hb]
  have hend : ¬ le32 inode 0x04 ≤ offset := fun hend => hr fun a ha ha' => by omega
  have hlo := le32_lt inode 0x04
  have hw := baseByte_add_lt c inode hlo
  have hbs : (c.partLba*512+firstBlock inode*c.blockSize+offset)%2^64 =
      baseByte c inode+offset := Nat.mod_eq_of_lt (by unfold baseByte at hw; omega)
  simp only [hend,if_false,Bool.false_eq_true,hbs,readBytes]
  rw [readLoop_eq_none (le_refl _) (by omega) hr]

variable (c) in
def Straight (inode : Buf) (pos : Nat) : Prop :=
  physBlock inode (pos/c.blockSize) = some (firstBlock inode+pos/c.blockSize)

theorem straight_iff (pos : Nat) :
    Straight c inode pos ↔ fileAddr c inode pos = some (baseByte c inode+pos) := by
  have hpos := Nat.div_add_mod' pos c.blockSize
  unfold Straight fileAddr baseByte
  constructor
  · intro h
    rw [h,Option.map_some,add_mul]
    exact congrArg some (by omega)
  intro h
  obtain ⟨pb,hpb,ha⟩ := Option.map_eq_some_iff.mp h
  rw [hpb]
  congr 1
  apply Nat.eq_of_mul_eq_mul_right c.blockSize_pos
  rw [add_mul]
  omega

theorem get_eq_get_iff {a b : Buf} {off' m : Nat} :
    get a off m = get b off' m ↔ ∀ k < m, a (off+k) = b (off'+k) := by
  simp [Buffer.get,firsts]

variable (c) in
def ReadsFile (inode : Buf) (n : Ext4Node) (d : Disk) (offset size : Nat) : Prop :=
  (∃ e, ext4Read c n d offset size = .error e) ∨
    ext4Read c n d offset size = .ok (fileBytes c inode d.bytes offset size)

/-- The upper half of the size, which `ext4_read` drops, does not matter to this read. -/
def SizeSeen (inode : Buf) (offset size : Nat) : Prop :=
  le32 inode 0x6C = 0 ∨ offset+size ≤ le32 inode 0x04 ∨ size = 0 ∨ fileSize inode ≤ offset

theorem sizeSeen_iff (inode : Buf) (offset size : Nat) : SizeSeen inode offset size ↔
    min size (le32 inode 0x04-offset) = min size (fileSize inode-offset) := by
  unfold SizeSeen fileSize
  omega

theorem straight_of_readsFile (h : fileNode inode = some n) {readable : Nat → Bool}
    (hr : ReadableAt c inode readable offset size)
    (hall : ∀ bytes, ReadsFile c inode n ⟨readable,bytes⟩ offset size) : SizeSeen inode offset size ∧
      ∀ pos, offset ≤ pos → pos < offset+size → pos < fileSize inode → Straight c inode pos := by
  have hb : ∀ bytes, get bytes (baseByte c inode+offset) (min size (le32 inode 0x04-offset)) =
      fileBytes c inode bytes offset size := by
    intro bytes
    have hok := ext4Read_ok h (d := ⟨readable,bytes⟩) hr
    rcases hall bytes with ⟨e,he⟩ | heq
    · rw [hok] at he
      cases he
    · rw [hok] at heq
      exact Except.ok.inj heq
  have hlen : min size (le32 inode 0x04-offset) = min size (fileSize inode-offset) := by
    simpa [fileBytes] using congrArg List.length (hb zeros)
  refine ⟨(sizeSeen_iff inode offset size).mpr hlen,fun pos hlow hh hs => ?_⟩
  -- a disk with a single byte set shows where the file has the byte that was read
  have hm := hb fun a => if a = baseByte c inode+pos then 1 else 0
  rw [fileBytes,hlen,get_eq_get_iff] at hm
  have hm := hm (pos-offset) (by omega)
  rw [show baseByte c inode+offset+(pos-offset) = baseByte c inode+pos by omega,
    show offset+(pos-offset) = pos by omega,if_pos rfl,fileContent] at hm
  rw [straight_iff]
  cases ha : fileAddr c inode pos with
  | none =>
    rw [ha] at hm
    exact absurd hm (show (1 : UInt8) ≠ 0 by decide)
  | some a =>
    rw [ha] at hm
    dsimp only at hm
    split at hm
    · congr
    · exact absurd hm (by decide)

theorem readsFile_of_straight (h : fileNode inode = some n)
    (hr : ReadableAt c inode d.readable offset size) (hs : SizeSeen inode offset size)
    (hall : ∀ pos, offset ≤ pos → pos < offset+size → pos < fileSize inode → Straight c inode pos) :
    ReadsFile c inode n d offset size := by
  refine .inr ?_
  rw [ext4Read_ok h hr,fileBytes,(sizeSeen_iff inode offset size).mp hs]
  congr 1
  rw [get_eq_get_iff]
  intro k hk
  have ha := (straight_iff (offset+k)).mp (hall (offset+k) (by omega) (by omega) (by omega))
  rw [fileContent,ha,add_assoc]

variable (c) in
theorem ext4Read_file_iff (h : fileNode inode = some n) (readable : Nat → Bool) (offset size : Nat) :
    (∀ bytes, ReadsFile c inode n ⟨readable,bytes⟩ offset size) ↔
      ¬ ReadableAt c inode readable offset size ∨
      SizeSeen inode offset size ∧
        ∀ pos, offset ≤ pos → pos < offset+size → pos < fileSize inode → Straight c inode pos := by
  by_cases hread : ReadableAt c inode readable offset size
  · constructor
    · intro hall
      exact .inr (straight_of_readsFile h hread hall)
    · rintro (hnot | ⟨hseen,hall⟩) bytes
      · exact absurd hread hnot
      · exact readsFile_of_straight h (d := ⟨readable,bytes⟩) hread hseen hall
  · refine ⟨fun _ => .inl hread,fun _ bytes => .inl ⟨.eio,?_⟩⟩
    exact ext4Read_error h (d := ⟨readable,bytes⟩) hread

end

def twoExtents : Buf :=
  put (put (put (put (put zeros 0x05 [8]) 0x22 [8]) 0x28 [0x0A,0xF3,2,0]) 0x34
    [0,0,0,0,1,0,0,0,8,0,0,0]) 0x40 [1,0,0,0,1,0,0,0,20,0,0,0]

theorem first_lba_lt : 0 < 2^32 := by decide
theorem blockSizeOf_zero : 0 < 1024 ∧ 1024 ≤ 2^31 := by decide

def smallBlocks : Ext4Ctx := ⟨0,1024,first_lba_lt,blockSizeOf_zero.1,blockSizeOf_zero.2⟩
def twoExtentsNode : Ext4Node := ⟨2048,false,8,1⟩

theorem twoExtents_first_block : fileNode twoExtents = some twoExtentsNode ∧
    ∀ bytes, ReadsFile smallBlocks twoExtents twoExtentsNode ⟨fun _ => true,bytes⟩ 0 1024 := by
  have hnode : fileNode twoExtents = some twoExtentsNode := by decide +kernel
  refine ⟨hnode,(ext4Read_file_iff smallBlocks hnode _ 0 1024).mpr
    (.inr ⟨.inl (by decide +kernel),fun pos _ hpos _ => ?_⟩)⟩
  have hzero : pos/smallBlocks.blockSize = 0 := Nat.div_eq_of_lt (show pos < 1024 by omega)
  rw [Straight,hzero]
  decide +kernel

def strayByte : Disk := ⟨fun _ => true,fun a => if a = 9*1024 then 7 else 0⟩

theorem twoExtents_second_block : fileNode twoExtents = some twoExtentsNode ∧
    (ext4Read smallBlocks twoExtentsNode strayByte 1024 1).toOption = some [7] ∧
    fileBytes smallBlocks twoExtents strayByte.bytes 1024 1 = [0] := by
  decide +kernel

end AevOS.Ext4
