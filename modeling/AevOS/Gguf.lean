import AevOS.LlmDecode
import AevOS.ByteBuffer
import AevOS.PmmInit

/-! `gguf_parse` of `llm/gguf_loader.c` with its reader, and the lookups in the parsed file. -/

namespace AevOS.Gguf
open Wire ArrayPrefix
open Llm (Range)
open Frames (alignUp)
open UInt64 (ofNat toNat_add toNat_inj reduceToNat)

def ggufMagic : UInt32 := 0x46475547
def ggufMaxDims : UInt32 := 4
def ggufMaxKv : UInt64 := 512
def ggufMaxTensors : UInt64 := 1024
def ggufMaxKeyLen : UInt64 := 256

def sizeofFile : UInt64 := 88
def sizeofKv : UInt64 := 288
def sizeofTensorInfo : UInt64 := 320

inductive KvType
  | uint8 | int8 | uint16 | int16 | uint32 | int32 | float32 | bool | string | array | uint64 | int64 | float64
  deriving DecidableEq

def KvType.code : KvType → UInt32
  | uint8 => 0 | int8 => 1 | uint16 => 2 | int16 => 3 | uint32 => 4 | int32 => 5 | float32 => 6 | bool => 7
  | string => 8 | array => 9 | uint64 => 10 | int64 => 11 | float64 => 12

def kvTypes : List KvType :=
  [.uint8,.int8,.uint16,.int16,.uint32,.int32,.float32,.bool,.string,.array,.uint64,.int64,.float64]

def KvType.ofCode (code : UInt32) : Option KvType := kvTypes.find? fun t => t.code == code

def typeBlock (type : UInt32) : UInt64 × UInt64 :=
  if type = 0 then (1,4)
  else if type = 1 then (1,2)
  else if type = 2 then (32,18)
  else if type = 8 then (32,34)
  else if type = 12 ∨ type = 15 then (256,144)
  else (1,4)

structure Data where
  mem : UInt64 → UInt8
  size : UInt64

def Data.bytes (d : Data) (pos : UInt64) (n : Nat) : Bytes := firsts (fun i => d.mem (pos+ofNat i)) n

structure Reader where
  pos : UInt64
  reads : List Range
  mallocs : Nat
  deriving DecidableEq

section
variable (d : Data)

def Reader.ok (r : Reader) (need : UInt64) : Prop := r.pos+need ≤ d.size
  deriving Decidable

def Reader.take (r : Reader) (n : UInt64) : Bytes × Reader :=
  (d.bytes r.pos n.toNat,{ r with pos := r.pos+n, reads := r.reads ++ [⟨r.pos.toNat,n.toNat⟩] })

def readWord (n : UInt64) (r : Reader) : Nat × Reader :=
  if r.ok d n then (leValue (r.take d n).1,(r.take d n).2) else (0,r)

def readU32 (r : Reader) : UInt32 × Reader := (UInt32.ofNat (readWord d 4 r).1,(readWord d 4 r).2)
def readU64 (r : Reader) : UInt64 × Reader := (ofNat (readWord d 8 r).1,(readWord d 8 r).2)

def readStr (r : Reader) : Bytes × Reader :=
  let len := readU64 d r
  let n := if len.1 ≥ ggufMaxKeyLen then ggufMaxKeyLen-1 else len.1
  if len.2.ok d n then len.2.take d n else ([],len.2)

def cString (bs : Bytes) : Bytes := bs.takeWhile (· ≠ 0)

structure Block where
  size : UInt64
  content : Option Bytes
  deriving DecidableEq

inductive Value
  | bits (n : Nat)
  | str (data : Option Block) (len : UInt64)
  | arr (elemType : UInt32) (count : UInt64) (data : Option Block)
  deriving DecidableEq

structure Kv where
  key : Bytes
  type : UInt32
  value : Value
  deriving DecidableEq

structure TensorInfo where
  name : Bytes
  nDims : UInt32
  dims : List UInt64
  type : UInt32
  offset : UInt64
  sizeBytes : UInt64
  deriving DecidableEq

structure File where
  version : UInt32
  nTensors : UInt64
  nKv : UInt64
  kvPairs : List Kv
  tensorInfos : List TensorInfo
  dataOffset : UInt64

def readScalar (n : UInt64) (keep : Nat) (r : Reader) : Value × Reader :=
  (.bits ((readWord d n r).1%256^keep),(readWord d n r).2)

variable (grant : Nat → UInt64 → Bool)

def readBlock (size n : UInt64) (r : Reader) : Option Block × Reader :=
  let r' := { r with mallocs := r.mallocs+1 }
  if grant r.mallocs size then
    if r.ok d n then (some ⟨size,some (r'.take d n).1⟩,(r'.take d n).2)
    else (some ⟨size,none⟩,{ r' with pos := r.pos+n })
  else (none,{ r' with pos := r.pos+n })

def readString (r : Reader) : Value × Reader :=
  let slen := readU64 d r
  let block := readBlock d grant (slen.1+1) slen.1 slen.2
  (.str block.1 slen.1,block.2)

def elemSize (type : UInt32) : UInt64 :=
  match KvType.ofCode type with
  | some .uint8 | some .int8 | some .bool => 1
  | some .uint16 | some .int16 => 2
  | some .uint32 | some .int32 | some .float32 => 4
  | some .uint64 | some .int64 | some .float64 => 8
  | _ => 4

def readArray (r : Reader) : Value × Reader :=
  let elemType := readU32 d r
  let count := readU64 d elemType.2
  let total := count.1*elemSize elemType.1
  let block := readBlock d grant total total count.2
  (.arr elemType.1 count.1 block.1,block.2)

def readValue (type : UInt32) (r : Reader) : Value × Reader :=
  match KvType.ofCode type with
  | some .uint8 => readScalar d 1 1 r
  | some .int8 => readScalar d 1 1 r
  | some .uint16 => readScalar d 4 2 r
  | some .int16 => readScalar d 4 2 r
  | some .uint32 => readScalar d 4 4 r
  | some .int32 => readScalar d 4 4 r
  | some .float32 => readScalar d 4 4 r
  | some .bool => (.bits (if (readWord d 1 r).1 ≠ 0 then 1 else 0),(readWord d 1 r).2)
  | some .uint64 => readScalar d 8 8 r
  | some .int64 => readScalar d 8 8 r
  | some .float64 => readScalar d 8 8 r
  | some .string => readString d grant r
  | some .array => readArray d grant r
  | none => (.bits 0,r)

def readKv (r : Reader) : Kv × Reader :=
  let key := readStr d r
  let type := readU32 d key.2
  let value := readValue d grant type.1 type.2
  (⟨key.1,type.1,value.1⟩,value.2)

def readKvs : Nat → Reader → List Kv × Reader
  | 0, r => ([],r)
  | n+1, r =>
    let kv := readKv d grant r
    let kvs := readKvs n kv.2
    (kv.1 :: kvs.1,kvs.2)

def readDims : Nat → Reader → List UInt64 × Reader
  | 0, r => ([],r)
  | n+1, r =>
    let dim := readU64 d r
    let dims := readDims n dim.2
    (dim.1 :: dims.1,dims.2)

def elemCount (dims : List UInt64) : UInt64 := dims.foldl (· * ·) 1

def sizeBytesOf (type : UInt32) (dims : List UInt64) : UInt64 :=
  elemCount dims/(typeBlock type).1*(typeBlock type).2

def readTensorInfo (r : Reader) : TensorInfo × Reader :=
  let name := readStr d r
  let nDims := readU32 d name.2
  let n := if nDims.1 > ggufMaxDims then ggufMaxDims else nDims.1
  let dims := readDims d n.toNat nDims.2
  let type := readU32 d dims.2
  let offset := readU64 d type.2
  (⟨name.1,n,dims.1 ++ List.replicate (ggufMaxDims.toNat-n.toNat) 1,type.1,offset.1,
    sizeBytesOf type.1 dims.1⟩,offset.2)

def readTensorInfos : Nat → Reader → List TensorInfo × Reader
  | 0, r => ([],r)
  | n+1, r =>
    let info := readTensorInfo d r
    let infos := readTensorInfos n info.2
    (info.1 :: infos.1,infos.2)

def Reader.malloc (r : Reader) : Reader := { r with mallocs := r.mallocs+1 }

def parseBody (version : UInt32) (nTensors nKv : UInt64) (r : Reader) : Option File × Reader :=
  let kvCount := min nKv ggufMaxKv
  if grant r.mallocs (kvCount*sizeofKv) then
    let kvs := readKvs d grant kvCount.toNat r.malloc
    let tensorCount := min nTensors ggufMaxTensors
    if grant kvs.2.mallocs (tensorCount*sizeofTensorInfo) then
      let infos := readTensorInfos d tensorCount.toNat kvs.2.malloc
      (some ⟨version,nTensors,nKv,kvs.1,infos.1,alignUp infos.2.pos 32⟩,infos.2)
    else (none,kvs.2.malloc)
  else (none,r.malloc)

def ggufParse : Option File × Reader :=
  let magic := readU32 d ⟨0,[],0⟩
  if magic.1 ≠ ggufMagic then (none,magic.2)
  else if grant magic.2.mallocs sizeofFile then
    let version := readU32 d magic.2.malloc
    let nTensors := readU64 d version.2
    let nKv := readU64 d nTensors.2
    if version.1 < 2 ∨ version.1 > 3 then (none,nKv.2)
    else parseBody d grant version.1 nTensors.1 nKv.1 nKv.2
  else (none,magic.2.malloc)

end

def ggufGetKv (kvs : List Kv) (key : Bytes) : Option Kv := kvs.find? fun kv => cString kv.key == cString key

def ggufFindTensorInfo (f : File) (name : Bytes) : Option TensorInfo :=
  f.tensorInfos.find? fun t => cString t.name == cString name

def ggufGetTensor (f : File) (name : Bytes) : Option UInt64 :=
  (ggufFindTensorInfo f name).map fun t => f.dataOffset+t.offset

/-! Where `gguf_parse` reads, and what the pointers it stores refer to. The bound check passes when a
position and a length of the file wrap around. -/

open List

namespace Data

section
variable (d : Data)

/-- `pos + n` wraps to a place in the file, which `reader_ok` lets pass. -/
def Wraps (pos n : UInt64) : Prop :=
  2^64 ≤ pos.toNat+n.toNat ∧ pos.toNat+n.toNat ≤ 2^64+d.size.toNat

def word (pos n : UInt64) : Nat := if pos+n ≤ d.size then leValue (d.bytes pos n.toNat) else 0
def after (pos n : UInt64) : UInt64 := if pos+n ≤ d.size then pos+n else pos

def word32 (pos : UInt64) : UInt32 := UInt32.ofNat (d.word pos 4)
def word64 (pos : UInt64) : UInt64 := ofNat (d.word pos 8)
def strLen (pos : UInt64) : UInt64 := if d.word64 pos ≥ ggufMaxKeyLen then ggufMaxKeyLen-1 else d.word64 pos
def strAfter (pos : UInt64) : UInt64 := d.after (d.after pos 8) (d.strLen pos)

def strBytes (pos : UInt64) : Bytes :=
  if d.after pos 8+d.strLen pos ≤ d.size then d.bytes (d.after pos 8) (d.strLen pos).toNat else []

def StrSafe (pos : UInt64) : Prop := ¬ d.Wraps pos 8 ∧ ¬ d.Wraps (d.after pos 8) (d.strLen pos)
def arrayTotal (pos : UInt64) : UInt64 := d.word64 (d.after pos 4)*elemSize (d.word32 pos)

end

def scalarWidth : KvType → UInt64
  | .uint8 | .int8 | .bool => 1
  | .uint64 | .int64 | .float64 => 8
  | _ => 4

section
variable (d : Data) (grant : Nat → UInt64 → Bool)

def ValueSafe (k : Nat) (type : UInt32) (pos : UInt64) : Prop :=
  match KvType.ofCode type with
  | some .string => ¬ d.Wraps pos 8 ∧ (grant k (d.word64 pos+1) → ¬ d.Wraps (d.after pos 8) (d.word64 pos))
  | some .array => ¬ d.Wraps pos 4 ∧ ¬ d.Wraps (d.after pos 4) 8 ∧
      (grant k (d.arrayTotal pos) → ¬ d.Wraps (d.after (d.after pos 4) 8) (d.arrayTotal pos))
  | some t => ¬ d.Wraps pos (scalarWidth t)
  | none => True

def valueAfter (type : UInt32) (pos : UInt64) : UInt64 :=
  match KvType.ofCode type with
  | some .string => d.after pos 8+d.word64 pos
  | some .array => d.after (d.after pos 4) 8+d.arrayTotal pos
  | some t => d.after pos (scalarWidth t)
  | none => pos

def valueMallocs (type : UInt32) : Nat :=
  match KvType.ofCode type with
  | some .string | some .array => 1
  | _ => 0

def ValueBacked (k : Nat) (type : UInt32) (pos : UInt64) : Prop :=
  match KvType.ofCode type with
  | some .string => d.word64 pos = 0 ∨ grant k (d.word64 pos+1) ∧ (d.word64 pos).toNat+1 < 2^64
  | some .array =>
    let bytes := (d.word64 (d.after pos 4)).toNat*(elemSize (d.word32 pos)).toNat
    bytes = 0 ∨ grant k (d.arrayTotal pos) ∧ bytes < 2^64
  | _ => True

def kvType (pos : UInt64) : UInt32 := d.word32 (d.strAfter pos)
def kvBody (pos : UInt64) : UInt64 := d.after (d.strAfter pos) 4

def KvSafe (k : Nat) (pos : UInt64) : Prop :=
  d.StrSafe pos ∧ ¬ d.Wraps (d.strAfter pos) 4 ∧ d.ValueSafe grant k (d.kvType pos) (d.kvBody pos)

def kvAfter (pos : UInt64) : UInt64 := d.valueAfter (d.kvType pos) (d.kvBody pos)

def KvsSafe : Nat → Nat → UInt64 → Prop
  | 0, _, _ => True
  | n+1, k, pos => d.KvSafe grant k pos ∧ KvsSafe n (k+valueMallocs (d.kvType pos)) (d.kvAfter pos)

def KvsBacked : Nat → Nat → UInt64 → Prop
  | 0, _, _ => True
  | n+1, k, pos => d.ValueBacked grant k (d.kvType pos) (d.kvBody pos) ∧
      KvsBacked n (k+valueMallocs (d.kvType pos)) (d.kvAfter pos)

def kvsAfter : Nat → UInt64 → UInt64
  | 0, pos => pos
  | n+1, pos => kvsAfter n (d.kvAfter pos)

def kvsMallocs : Nat → UInt64 → Nat
  | 0, _ => 0
  | n+1, pos => valueMallocs (d.kvType pos)+kvsMallocs n (d.kvAfter pos)

def DimsSafe : Nat → UInt64 → Prop
  | 0, _ => True
  | n+1, pos => ¬ d.Wraps pos 8 ∧ DimsSafe n (d.after pos 8)

def dimsAt : Nat → UInt64 → List UInt64
  | 0, _ => []
  | n+1, pos => d.word64 pos :: dimsAt n (d.after pos 8)

def dimsAfter : Nat → UInt64 → UInt64
  | 0, pos => pos
  | n+1, pos => dimsAfter n (d.after pos 8)

def tensorDims (pos : UInt64) : UInt32 :=
  if d.word32 (d.strAfter pos) > ggufMaxDims then ggufMaxDims else d.word32 (d.strAfter pos)

def tensorType (pos : UInt64) : UInt64 := d.dimsAfter (d.tensorDims pos).toNat (d.after (d.strAfter pos) 4)

def TensorSafe (pos : UInt64) : Prop :=
  d.StrSafe pos ∧ ¬ d.Wraps (d.strAfter pos) 4 ∧
    d.DimsSafe (d.tensorDims pos).toNat (d.after (d.strAfter pos) 4) ∧
    ¬ d.Wraps (d.tensorType pos) 4 ∧ ¬ d.Wraps (d.after (d.tensorType pos) 4) 8

def tensorAfter (pos : UInt64) : UInt64 := d.after (d.after (d.tensorType pos) 4) 8

def tensorAt (pos : UInt64) : TensorInfo :=
  let dims := d.dimsAt (d.tensorDims pos).toNat (d.after (d.strAfter pos) 4)
  ⟨d.strBytes pos,d.tensorDims pos,dims ++ List.replicate (ggufMaxDims.toNat-(d.tensorDims pos).toNat) 1,
    d.word32 (d.tensorType pos),d.word64 (d.after (d.tensorType pos) 4),
    sizeBytesOf (d.word32 (d.tensorType pos)) dims⟩

def TensorsSafe : Nat → UInt64 → Prop
  | 0, _ => True
  | n+1, pos => d.TensorSafe pos ∧ TensorsSafe n (d.tensorAfter pos)

def tensorsAt : Nat → UInt64 → List TensorInfo
  | 0, _ => []
  | n+1, pos => d.tensorAt pos :: tensorsAt n (d.tensorAfter pos)

def tensorsAfter : Nat → UInt64 → UInt64
  | 0, pos => pos
  | n+1, pos => tensorsAfter n (d.tensorAfter pos)

end

end Data

def TensorsBacked (d : Data) (infos : List TensorInfo) (dataOffset : UInt64) : Prop :=
  ∀ before t behind, infos = before ++ t :: behind → (∀ u ∈ before, cString u.name ≠ cString t.name) →
    t.sizeBytes = 0 ∨ (dataOffset+t.offset).toNat+t.sizeBytes.toNat ≤ d.size.toNat

def Backed (data : Option Block) (len : Nat) : Prop := len = 0 ∨ ∃ b, data = some b ∧ len ≤ b.size.toNat

def Value.Safe : Value → Prop
  | .bits _ => True
  | .str data len => Backed data len.toNat
  | .arr elemType count data => Backed data (count.toNat*(elemSize elemType).toNat)

def Reader.Clean (d : Data) (r : Reader) : Prop := ∀ w ∈ r.reads, w.Within d.size.toNat

structure Moves (d : Data) (r s : Reader) (pos : UInt64) (mallocs : Nat) (safe : Prop) : Prop where
  pos_eq : s.pos = pos
  mallocs_eq : s.mallocs = r.mallocs+mallocs
  clean_iff : s.Clean d ↔ r.Clean d ∧ safe

section
variable {d : Data} {r s t : Reader} {p q : UInt64} {j k : Nat} {P Q : Prop}

theorem Moves.trans (h : Moves d r s p j P) (h' : Moves d s t q k Q) : Moves d r t q (j+k) (P ∧ Q) where
  pos_eq := h'.pos_eq
  mallocs_eq := by rw [h'.mallocs_eq,h.mallocs_eq,add_assoc]
  clean_iff := by rw [h'.clean_iff,h.clean_iff,and_assoc]

theorem Moves.refl (d : Data) (r : Reader) : Moves d r r r.pos 0 True := ⟨rfl,rfl,by simp⟩

theorem Moves.congr (h : Moves d r s p j P) (hPQ : P ↔ Q) : Moves d r s p j Q :=
  ⟨h.pos_eq,h.mallocs_eq,by rw [h.clean_iff,hPQ]⟩

end

variable {pos n : UInt64}

section
variable {d : Data}

theorem within_iff_not_wraps (hok : pos+n ≤ d.size) :
    Range.Within ⟨pos.toNat,n.toNat⟩ d.size.toNat ↔ ¬ d.Wraps pos n := by
  have hsum := UInt64.le_iff_toNat_le.mp hok
  rw [toNat_add] at hsum
  have hpos := pos.toNat_lt
  have hn := n.toNat_lt
  have hs := d.size.toNat_lt
  show n.toNat = 0 ∨ pos.toNat+n.toNat ≤ d.size.toNat ↔ ¬ (_ ∧ _)
  omega

theorem not_wraps_of_not_ok (hok : ¬ pos+n ≤ d.size) : ¬ d.Wraps pos n := by
  have hsum := mt UInt64.le_iff_toNat_le.mpr hok
  rw [toNat_add] at hsum
  rintro ⟨h1,h2⟩
  omega

theorem take_moves (r : Reader) (hok : r.ok d n) :
    Moves d r (r.take d n).2 (r.pos+n) 0 (¬ d.Wraps r.pos n) where
  pos_eq := rfl
  mallocs_eq := rfl
  clean_iff := by
    rw [← within_iff_not_wraps hok]
    show (∀ w ∈ r.reads ++ [_], _) ↔ _
    rw [forall_mem_append,forall_mem_singleton]
    rfl

theorem readWord_spec (n : UInt64) (r : Reader) : (readWord d n r).1 = d.word r.pos n ∧
    Moves d r (readWord d n r).2 (d.after r.pos n) 0 (¬ d.Wraps r.pos n) := by
  unfold readWord Data.word Data.after
  by_cases hok : r.pos+n ≤ d.size
  · rw [if_pos hok,if_pos hok,if_pos (show r.ok d n from hok)]
    exact ⟨rfl,take_moves r hok⟩
  · rw [if_neg hok,if_neg hok,if_neg (show ¬ r.ok d n from hok)]
    refine ⟨rfl,(Moves.refl d r).congr ?_⟩
    simp [not_wraps_of_not_ok hok]

theorem readU32_spec (r : Reader) :
    (readU32 d r).1 = d.word32 r.pos ∧ Moves d r (readU32 d r).2 (d.after r.pos 4) 0 (¬ d.Wraps r.pos 4) :=
  ⟨congrArg UInt32.ofNat (readWord_spec 4 r).1,(readWord_spec 4 r).2⟩

theorem readU64_spec (r : Reader) :
    (readU64 d r).1 = d.word64 r.pos ∧ Moves d r (readU64 d r).2 (d.after r.pos 8) 0 (¬ d.Wraps r.pos 8) :=
  ⟨congrArg ofNat (readWord_spec 8 r).1,(readWord_spec 8 r).2⟩

theorem readStr_spec (r : Reader) :
    (readStr d r).1 = d.strBytes r.pos ∧ Moves d r (readStr d r).2 (d.strAfter r.pos) 0 (d.StrSafe r.pos) := by
  obtain ⟨hlen,hm⟩ := @readU64_spec d r
  have hn : (if (readU64 d r).1 ≥ ggufMaxKeyLen then ggufMaxKeyLen-1 else (readU64 d r).1) = d.strLen r.pos := by
    rw [hlen]
    rfl
  unfold readStr Data.strBytes Data.strAfter Data.StrSafe
  dsimp only
  have hiff : (readU64 d r).2.ok d (d.strLen r.pos) ↔ d.after r.pos 8+d.strLen r.pos ≤ d.size := by
    rw [← hm.pos_eq]
    rfl
  rw [hn]
  by_cases hok : d.after r.pos 8+d.strLen r.pos ≤ d.size
  · rw [if_pos (hiff.mpr hok),if_pos hok]
    have ht := take_moves (readU64 d r).2 (hiff.mpr hok)
    rw [hm.pos_eq] at ht
    have ha : d.after (d.after r.pos 8) (d.strLen r.pos) = d.after r.pos 8+d.strLen r.pos := if_pos hok
    rw [ha]
    refine ⟨?_,hm.trans ht⟩
    rw [Reader.take,hm.pos_eq]
  rw [if_neg (mt hiff.mp hok),if_neg hok]
  have ha : d.after (d.after r.pos 8) (d.strLen r.pos) = d.after r.pos 8 := if_neg hok
  rw [ha]
  refine ⟨rfl,hm.congr ?_⟩
  simp [not_wraps_of_not_ok hok]

variable (grant : Nat → UInt64 → Bool)

theorem readBlock_backed (size n : UInt64) (r : Reader) (len : Nat) :
    Backed (readBlock d grant size n r).1 len ↔ len = 0 ∨ grant r.mallocs size ∧ len ≤ size.toNat := by
  unfold readBlock Backed
  cases hg : grant r.mallocs size with
  | false => simp
  | true =>
    rw [if_pos rfl]
    split <;> simp

theorem readBlock_moves (size n : UInt64) (r : Reader) :
    Moves d r (readBlock d grant size n r).2 (r.pos+n) 1 (grant r.mallocs size → ¬ d.Wraps r.pos n) := by
  have hst : Moves d r { r with mallocs := r.mallocs+1 } r.pos 1 True := ⟨rfl,rfl,by simp [Reader.Clean]⟩
  have hs : Moves d r { r with mallocs := r.mallocs+1, pos := r.pos+n } (r.pos+n) 1 True :=
    ⟨rfl,rfl,by simp [Reader.Clean]⟩
  unfold readBlock
  cases hg : grant r.mallocs size with
  | false => exact hs.congr (by simp)
  | true =>
    by_cases hok : r.ok d n
    · rw [if_pos rfl,if_pos hok]
      exact (hst.trans (take_moves _ hok)).congr (by simp)
    · rw [if_pos rfl,if_neg hok]
      exact hs.congr (by simp [not_wraps_of_not_ok hok])

theorem readString_spec (r : Reader) :
    ((readString d grant r).1.Safe ↔ d.ValueBacked grant r.mallocs KvType.string.code r.pos) ∧
      Moves d r (readString d grant r).2 (d.valueAfter KvType.string.code r.pos) 1
        (d.ValueSafe grant r.mallocs KvType.string.code r.pos) := by
  obtain ⟨hlen,hm⟩ := @readU64_spec d r
  have hb := @readBlock_moves d grant ((readU64 d r).1+1) (readU64 d r).1 (readU64 d r).2
  rw [hm.pos_eq,hm.mallocs_eq,hlen] at hb
  refine ⟨?_,?_⟩
  · show Backed (readBlock d grant ((readU64 d r).1+1) (readU64 d r).1 (readU64 d r).2).1 _ ↔ _ ∨ _ ∧ _
    rw [readBlock_backed,hm.mallocs_eq,hlen]
    have hz : (d.word64 r.pos).toNat = 0 ↔ d.word64 r.pos = 0 := toNat_inj (b := 0)
    have hf : (d.word64 r.pos).toNat ≤ (d.word64 r.pos+1).toNat ↔ (d.word64 r.pos).toNat+1 < 2^64 := by
      rw [toNat_add,UInt64.toNat_one]
      omega
    rw [hz,hf]
    rfl
  · show Moves d r (readBlock d grant ((readU64 d r).1+1) (readU64 d r).1 (readU64 d r).2).2 _ (0+1) (_ ∧ _)
    rw [hlen]
    exact hm.trans hb

theorem readArray_spec (r : Reader) :
    ((readArray d grant r).1.Safe ↔ d.ValueBacked grant r.mallocs KvType.array.code r.pos) ∧
      Moves d r (readArray d grant r).2 (d.valueAfter KvType.array.code r.pos) 1
        (d.ValueSafe grant r.mallocs KvType.array.code r.pos) := by
  obtain ⟨ht,hm⟩ := @readU32_spec d r
  obtain ⟨hc,hm'⟩ := @readU64_spec d (readU32 d r).2
  rw [hm.pos_eq] at hc hm'
  have htt : (readU64 d (readU32 d r).2).1*elemSize (readU32 d r).1 = d.arrayTotal r.pos := by
    rw [hc,ht]
    rfl
  have hb := hm.trans hm'
  have hbl := @readBlock_moves d grant (d.arrayTotal r.pos) (d.arrayTotal r.pos) (readU64 d (readU32 d r).2).2
  rw [hb.pos_eq,hb.mallocs_eq] at hbl
  unfold readArray
  dsimp only
  rw [htt]
  refine ⟨?_,?_⟩
  · show Backed (readBlock d grant (d.arrayTotal r.pos) (d.arrayTotal r.pos) (readU64 d (readU32 d r).2).2).1
      _ ↔ _ ∨ _ ∧ _
    rw [readBlock_backed,hb.mallocs_eq,hc,ht]
    have hf : (d.word64 (d.after r.pos 4)).toNat*(elemSize (d.word32 r.pos)).toNat ≤ (d.arrayTotal r.pos).toNat ↔
        (d.word64 (d.after r.pos 4)).toNat*(elemSize (d.word32 r.pos)).toNat < 2^64 := by
      rw [Data.arrayTotal,UInt64.toNat_mul]
      omega
    rw [hf]
    rfl
  · exact (hb.trans hbl).congr and_assoc

theorem readValue_spec (type : UInt32) (r : Reader) :
    ((readValue d grant type r).1.Safe ↔ d.ValueBacked grant r.mallocs type r.pos) ∧
      Moves d r (readValue d grant type r).2 (d.valueAfter type r.pos) (Data.valueMallocs type)
        (d.ValueSafe grant r.mallocs type r.pos) := by
  unfold readValue Data.ValueBacked Data.valueAfter Data.valueMallocs Data.ValueSafe
  cases KvType.ofCode type with
  | none => exact ⟨Iff.rfl,Moves.refl d r⟩
  | some t =>
    cases t with
    | string => exact readString_spec grant r
    | array => exact readArray_spec grant r
    | uint8 | int8 | bool => exact ⟨Iff.rfl,(readWord_spec 1 r).2⟩
    | uint16 | int16 | uint32 | int32 | float32 => exact ⟨Iff.rfl,(readWord_spec 4 r).2⟩
    | uint64 | int64 | float64 => exact ⟨Iff.rfl,(readWord_spec 8 r).2⟩

theorem readKv_spec (r : Reader) :
    ((readKv d grant r).1.value.Safe ↔ d.ValueBacked grant r.mallocs (d.kvType r.pos) (d.kvBody r.pos)) ∧
      Moves d r (readKv d grant r).2 (d.kvAfter r.pos) (Data.valueMallocs (d.kvType r.pos))
        (d.KvSafe grant r.mallocs r.pos) := by
  have hkey := (@readStr_spec d r).2
  obtain ⟨ht,hm⟩ := @readU32_spec d (readStr d r).2
  have hb := hkey.trans hm
  obtain ⟨hs,hv⟩ := @readValue_spec d grant (readU32 d (readStr d r).2).1 (readU32 d (readStr d r).2).2
  rw [hb.pos_eq,hb.mallocs_eq,ht,hkey.pos_eq] at hs hv
  unfold readKv
  dsimp only
  rw [ht,hkey.pos_eq]
  refine ⟨hs,?_⟩
  have hall := (hb.trans hv).congr and_assoc
  rw [zero_add,zero_add,hkey.pos_eq] at hall
  exact hall

theorem readKvs_spec (n : Nat) (r : Reader) :
    ((∀ kv ∈ (readKvs d grant n r).1, kv.value.Safe) ↔ d.KvsBacked grant n r.mallocs r.pos) ∧
      Moves d r (readKvs d grant n r).2 (d.kvsAfter n r.pos) (d.kvsMallocs n r.pos)
        (d.KvsSafe grant n r.mallocs r.pos) := by
  induction n generalizing r with
  | zero => exact ⟨by simp [readKvs,Data.KvsBacked],Moves.refl d r⟩
  | succ n ih =>
    obtain ⟨hs,hm⟩ := @readKv_spec d grant r
    obtain ⟨hs',hm'⟩ := ih (readKv d grant r).2
    rw [hm.pos_eq,hm.mallocs_eq] at hs' hm'
    refine ⟨?_,hm.trans hm'⟩
    show (∀ kv ∈ (readKv d grant r).1 :: (readKvs d grant n (readKv d grant r).2).1, _) ↔ _ ∧ _
    rw [forall_mem_cons,hs,hs']

theorem readDims_spec (n : Nat) (r : Reader) : (readDims d n r).1 = d.dimsAt n r.pos ∧
    Moves d r (readDims d n r).2 (d.dimsAfter n r.pos) 0 (d.DimsSafe n r.pos) := by
  induction n generalizing r with
  | zero => exact ⟨rfl,Moves.refl d r⟩
  | succ n ih =>
    obtain ⟨hdim,hm⟩ := @readU64_spec d r
    obtain ⟨hd,hm'⟩ := ih (readU64 d r).2
    rw [hm.pos_eq] at hd hm'
    refine ⟨?_,hm.trans hm'⟩
    show (readU64 d r).1 :: (readDims d n (readU64 d r).2).1 = _
    rw [hdim,hd]
    rfl

theorem readTensorInfo_spec (r : Reader) : (readTensorInfo d r).1 = d.tensorAt r.pos ∧
    Moves d r (readTensorInfo d r).2 (d.tensorAfter r.pos) 0 (d.TensorSafe r.pos) := by
  obtain ⟨hnm,h1⟩ := @readStr_spec d r
  obtain ⟨hc,h2⟩ := @readU32_spec d (readStr d r).2
  rw [h1.pos_eq] at hc h2
  have hn : (if (readU32 d (readStr d r).2).1 > ggufMaxDims then ggufMaxDims else (readU32 d (readStr d r).2).1) =
      d.tensorDims r.pos := by
    rw [hc]
    rfl
  obtain ⟨hd,h3⟩ := @readDims_spec d (d.tensorDims r.pos).toNat (readU32 d (readStr d r).2).2
  rw [h2.pos_eq] at hd h3
  obtain ⟨ht,h4⟩ := @readU32_spec d (readDims d (d.tensorDims r.pos).toNat (readU32 d (readStr d r).2).2).2
  rw [h3.pos_eq] at ht h4
  obtain ⟨ho,h5⟩ :=
    @readU64_spec d (readU32 d (readDims d (d.tensorDims r.pos).toNat (readU32 d (readStr d r).2).2).2).2
  rw [h4.pos_eq] at ho h5
  unfold readTensorInfo
  dsimp only
  rw [hn,hnm,hd,ht,ho]
  exact ⟨rfl,h1.trans (h2.trans (h3.trans (h4.trans h5)))⟩

theorem readTensorInfos_spec (n : Nat) (r : Reader) : (readTensorInfos d n r).1 = d.tensorsAt n r.pos ∧
    Moves d r (readTensorInfos d n r).2 (d.tensorsAfter n r.pos) 0 (d.TensorsSafe n r.pos) := by
  induction n generalizing r with
  | zero => exact ⟨rfl,Moves.refl d r⟩
  | succ n ih =>
    obtain ⟨hin,hm⟩ := @readTensorInfo_spec d r
    obtain ⟨hi,hm'⟩ := ih (readTensorInfo d r).2
    rw [hm.pos_eq] at hi hm'
    refine ⟨?_,hm.trans hm'⟩
    show (readTensorInfo d r).1 :: (readTensorInfos d n (readTensorInfo d r).2).1 = _
    rw [hin,hi]
    rfl

end

/-- Values are backed by blocks as long as they say, and tensors lie in the data. -/
structure File.Safe (d : Data) (f : File) : Prop where
  values : ∀ kv ∈ f.kvPairs, kv.value.Safe
  tensors : ∀ name t offset, ggufFindTensorInfo f name = some t → ggufGetTensor f name = some offset →
    Range.Within ⟨offset.toNat,t.sizeBytes.toNat⟩ d.size.toNat

namespace Data

section
variable (d : Data) (grant : Nat → UInt64 → Bool)

def versionAt : UInt32 := d.word32 (d.after 0 4)
def headerTensors : UInt64 := d.after (d.after 0 4) 4
def headerKv : UInt64 := d.after d.headerTensors 8

def kvCount : UInt64 := min (d.word64 d.headerKv) ggufMaxKv
def tensorCount : UInt64 := min (d.word64 d.headerTensors) ggufMaxTensors
def kvStart : UInt64 := d.after d.headerKv 8
def tensorStart : UInt64 := d.kvsAfter d.kvCount.toNat d.kvStart
def tensorMalloc : Nat := 2+d.kvsMallocs d.kvCount.toNat d.kvStart

def BodySafe : Prop :=
  d.KvsSafe grant d.kvCount.toNat 2 d.kvStart ∧
    (grant d.tensorMalloc (d.tensorCount*sizeofTensorInfo) →
      d.KvsBacked grant d.kvCount.toNat 2 d.kvStart ∧ d.TensorsSafe d.tensorCount.toNat d.tensorStart ∧
        TensorsBacked d (d.tensorsAt d.tensorCount.toNat d.tensorStart)
          (alignUp (d.tensorsAfter d.tensorCount.toNat d.tensorStart) 32))

def Safe : Prop :=
  d.word32 0 = ggufMagic → grant 0 sizeofFile → 2 ≤ d.versionAt → d.versionAt ≤ 3 →
    grant 1 (d.kvCount*sizeofKv) → d.BodySafe grant

end

end Data

section
variable (d : Data) (grant : Nat → UInt64 → Bool)

theorem after_le (pos n : UInt64) : (d.after pos n).toNat ≤ pos.toNat+n.toNat := by
  unfold Data.after
  split
  · exact Nat.mod_le _ _
  · exact Nat.le_add_right _ _

theorem not_wraps_of_lt (h : pos.toNat+n.toNat < 2^64) : ¬ d.Wraps pos n := by
  intro hw
  exact absurd hw.1 (by omega)

theorem tensors_safe_iff (f : File) :
    (∀ name t offset, ggufFindTensorInfo f name = some t → ggufGetTensor f name = some offset →
      Range.Within ⟨offset.toNat,t.sizeBytes.toNat⟩ d.size.toNat) ↔ TensorsBacked d f.tensorInfos f.dataOffset := by
  have hw : ∀ t : TensorInfo, Range.Within ⟨(f.dataOffset+t.offset).toNat,t.sizeBytes.toNat⟩ d.size.toNat ↔
      t.sizeBytes = 0 ∨ (f.dataOffset+t.offset).toNat+t.sizeBytes.toNat ≤ d.size.toNat :=
    fun t => or_congr (toNat_inj (b := 0)) Iff.rfl
  constructor
  · intro h before t behind hs hfr
    have hf : ggufFindTensorInfo f t.name = some t := by
      rw [ggufFindTensorInfo,find?_eq_some_iff_append]
      exact ⟨by simp,before,behind,hs,fun u hu => by simpa using hfr u hu⟩
    exact (hw t).mp (h t.name t _ hf (by rw [ggufGetTensor,hf]; rfl))
  intro h name t offset hf hget
  rw [ggufGetTensor,hf] at hget
  cases hget
  rw [ggufFindTensorInfo,find?_eq_some_iff_append] at hf
  obtain ⟨hn,before,behind,hs,hfr⟩ := hf
  refine (hw t).mpr (h before t behind hs fun u hu => ?_)
  have hne := hfr u hu
  rw [beq_iff_eq] at hn
  rw [hn]
  simpa using hne

theorem safe_iff (f : File) :
    f.Safe d ↔ (∀ kv ∈ f.kvPairs, kv.value.Safe) ∧ TensorsBacked d f.tensorInfos f.dataOffset := by
  rw [← tensors_safe_iff]
  exact ⟨fun h => ⟨h.values,h.tensors⟩,fun h => ⟨h.1,h.2⟩⟩

theorem malloc_moves (r : Reader) : Moves d r r.malloc r.pos 1 True := ⟨rfl,rfl,by simp [Reader.Clean,Reader.malloc]⟩

theorem parseBody_safe_iff (version : UInt32) {r : Reader} (hr : r.Clean d) (hpos : r.pos = d.kvStart)
    (hml : r.mallocs = 1) :
    ((parseBody d grant version (d.word64 d.headerTensors) (d.word64 d.headerKv) r).2.Clean d ∧
      ∀ f, (parseBody d grant version (d.word64 d.headerTensors) (d.word64 d.headerKv) r).1 = some f → f.Safe d) ↔
      (grant 1 (d.kvCount*sizeofKv) → d.BodySafe grant) := by
  have hm := malloc_moves d r
  obtain ⟨hv,hkvs⟩ := @readKvs_spec d grant d.kvCount.toNat r.malloc
  rw [hm.pos_eq,hm.mallocs_eq,hpos,hml,show 1+1 = 2 from rfl] at hv hkvs
  have hc := (hm.trans hkvs).clean_iff
  have hsc : (readKvs d grant d.kvCount.toNat r.malloc).2.mallocs = d.tensorMalloc := by
    rw [hkvs.mallocs_eq,hm.mallocs_eq,hml]
    rfl
  have hm' := malloc_moves d (readKvs d grant d.kvCount.toNat r.malloc).2
  obtain ⟨hi,ht⟩ :=
    @readTensorInfos_spec d d.tensorCount.toNat (readKvs d grant d.kvCount.toNat r.malloc).2.malloc
  have hst : d.kvsAfter d.kvCount.toNat d.kvStart = d.tensorStart := rfl
  rw [hm'.pos_eq,hkvs.pos_eq,hst] at hi ht
  have hc' := (hm'.trans ht).clean_iff
  have hkv : min (d.word64 d.headerKv) ggufMaxKv = d.kvCount := rfl
  have htn : min (d.word64 d.headerTensors) ggufMaxTensors = d.tensorCount := rfl
  unfold parseBody Data.BodySafe
  dsimp only
  rw [hml,hkv,htn,hsc]
  cases grant 1 (d.kvCount*sizeofKv) with
  | false =>
    have hs : r.malloc.Clean d := hm.clean_iff.mpr ⟨hr,trivial⟩
    simp [hs]
  | true =>
    rw [if_pos rfl]
    cases grant d.tensorMalloc (d.tensorCount*sizeofTensorInfo) with
    | false =>
      have hs := hm'.clean_iff
      simp [hs,hc,hr]
    | true =>
      rw [if_pos rfl]
      have hsm : ∀ f : File, (∀ g, some f = some g → g.Safe d) ↔ f.Safe d :=
        fun f => ⟨fun h => h f rfl,fun h g hg => Option.some.inj hg ▸ h⟩
      rw [hsm,safe_iff]
      rw [hv,hi,ht.pos_eq,hc',hc]
      simp only [hr,true_and,forall_const]
      rw [and_assoc]
      exact and_congr_right fun _ => and_left_comm

theorem ggufParse_safe_iff :
    ((ggufParse d grant).2.Clean d ∧ ∀ f, (ggufParse d grant).1 = some f → f.Safe d) ↔ d.Safe grant := by
  have hstart : Reader.Clean d ⟨0,[],0⟩ := fun w hw => absurd hw not_mem_nil
  obtain ⟨hmagic,h1⟩ := @readU32_spec d ⟨0,[],0⟩
  have hmalloc := malloc_moves d (readU32 d ⟨0,[],0⟩).2
  rw [h1.pos_eq] at hmalloc
  obtain ⟨hversion,h2⟩ := @readU32_spec d (readU32 d ⟨0,[],0⟩).2.malloc
  rw [hmalloc.pos_eq] at hversion h2
  obtain ⟨htensors,h3⟩ := @readU64_spec d (readU32 d (readU32 d ⟨0,[],0⟩).2.malloc).2
  rw [h2.pos_eq] at htensors h3
  obtain ⟨hkv,h4⟩ := @readU64_spec d (readU64 d (readU32 d (readU32 d ⟨0,[],0⟩).2.malloc).2).2
  rw [h3.pos_eq] at hkv h4
  -- the header ends at the byte 24 at the latest, so none of its fields wraps
  have hle1 := after_le d 0 4
  have hle2 := after_le d (d.after 0 4) 4
  have hle3 := after_le d (d.after (d.after 0 4) 4) 8
  simp only [reduceToNat,UInt64.toNat_zero] at hle1 hle2 hle3
  have hclean1 := h1.clean_iff.mpr ⟨hstart,not_wraps_of_lt d (by decide)⟩
  have hclean2 := hmalloc.clean_iff.mpr ⟨hclean1,trivial⟩
  have hclean3 := h2.clean_iff.mpr ⟨hclean2,not_wraps_of_lt d (by simp only [reduceToNat]; omega)⟩
  have hclean4 := h3.clean_iff.mpr ⟨hclean3,not_wraps_of_lt d (by simp only [reduceToNat]; omega)⟩
  have hclean5 := h4.clean_iff.mpr ⟨hclean4,not_wraps_of_lt d (by simp only [reduceToNat]; omega)⟩
  have hbody := parseBody_safe_iff d grant d.versionAt hclean5 h4.pos_eq (by
    rw [h4.mallocs_eq,h3.mallocs_eq,h2.mallocs_eq,hmalloc.mallocs_eq,h1.mallocs_eq])
  have hversion : (readU32 d (readU32 d ⟨0,[],0⟩).2.malloc).1 = d.versionAt := hversion
  have htensors : (readU64 d (readU32 d (readU32 d ⟨0,[],0⟩).2.malloc).2).1 = d.word64 d.headerTensors := htensors
  have hkv : (readU64 d (readU64 d (readU32 d (readU32 d ⟨0,[],0⟩).2.malloc).2).2).1 = d.word64 d.headerKv := hkv
  unfold ggufParse Data.Safe
  dsimp only
  rw [hmagic,h1.mallocs_eq,hversion,htensors,hkv]
  by_cases hm : d.word32 0 = ggufMagic
  · rw [if_neg (not_not.mpr hm)]
    cases grant 0 sizeofFile with
    | false =>
      simp [hclean2]
    | true =>
      rw [if_pos rfl]
      by_cases hv : d.versionAt < 2 ∨ d.versionAt > 3
      · rw [if_pos hv]
        have hno : ¬ (2 ≤ d.versionAt ∧ d.versionAt ≤ 3) := by
          rw [not_and_or,UInt32.not_le,UInt32.not_le]
          exact hv
        dsimp only
        exact ⟨fun _ _ _ h2 h3 => absurd ⟨h2,h3⟩ hno,fun _ => ⟨hclean5,fun f hf => absurd hf.symm (Option.some_ne_none f)⟩⟩
      · rw [if_neg hv]
        rw [not_or,UInt32.not_lt,UInt32.not_lt] at hv
        refine hbody.trans ⟨fun h _ _ _ _ => h,fun h => h hm rfl hv.1 hv.2⟩
  · rw [if_pos hm]
    exact ⟨fun _ h => absurd h hm,fun _ => ⟨hclean1,fun f hf => absurd hf.symm (Option.some_ne_none f)⟩⟩

end

def Data.ofBytes (bs : Bytes) : Data := ⟨fun i => byteAt bs i.toNat,ofNat bs.length⟩

def wrappingFile : Bytes :=
  leBytes 4 ggufMagic.toNat ++ leBytes 4 3 ++ leBytes 8 1 ++ leBytes 8 1 ++
    leBytes 8 0 ++ leBytes 4 KvType.string.code.toNat ++ leBytes 8 (2^64-46)

def slabGrant (_ : Nat) (size : UInt64) : Bool := 0 < size && size ≤ 65536

theorem wrappingFile_read_outside : (Data.ofBytes wrappingFile).size = 44 ∧
    (⟨2^64-2,8⟩ : Range) ∈ (ggufParse (Data.ofBytes wrappingFile) slabGrant).2.reads ∧
    ¬ Range.Within ⟨2^64-2,8⟩ 44 := by
  decide +kernel

end AevOS.Gguf
