import AevOS.Gguf

/-! The layout of GGUF files, and which files `gguf_parse` decodes. -/

namespace AevOS.Gguf
open Wire ArrayPrefix List
open Frames (alignUp)
open Nat (mod_eq_of_lt zero_le)
open UInt64 (ofNat ofNat_add toNat_add toNat_ofNat' le_iff_toNat_le ofNat_toNat toNat_one toNat_inj
  toNat_mul toNat_ofNat_of_lt' toNat_zero)

inductive ScalarType
  | uint8 | int8 | uint16 | int16 | uint32 | int32 | float32 | bool | uint64 | int64 | float64
  deriving DecidableEq

namespace ScalarType

def kvType : ScalarType → KvType
  | uint8 => .uint8 | int8 => .int8 | uint16 => .uint16 | int16 => .int16 | uint32 => .uint32 | int32 => .int32
  | float32 => .float32 | bool => .bool | uint64 => .uint64 | int64 => .int64 | float64 => .float64

def width : ScalarType → Nat
  | uint8 | int8 | bool => 1
  | uint16 | int16 => 2
  | uint32 | int32 | float32 => 4
  | uint64 | int64 | float64 => 8

def range (t : ScalarType) : Nat := if t = bool then 2 else 256^t.width

theorem range_le (t : ScalarType) : t.range ≤ 256^t.width := by cases t <;> decide

end ScalarType

inductive MetaArray
  | scalars (t : ScalarType) (elems : List (Fin t.range))
  | strings (elems : List Bytes)
  | arrays (elems : List MetaArray)

def stringWire (s : Bytes) : Bytes := leBytes 8 s.length ++ s

@[simp] theorem stringWire_length (s : Bytes) : (stringWire s).length = 8+s.length := by
  simp [stringWire]

namespace MetaArray

def elemCode : MetaArray → UInt32
  | scalars t _ => t.kvType.code
  | strings _ => KvType.string.code
  | arrays _ => KvType.array.code

def count : MetaArray → Nat
  | scalars _ es => es.length
  | strings es => es.length
  | arrays es => es.length

mutual
def elemBytes : MetaArray → Bytes
  | .scalars t es => es.flatMap fun e => leBytes t.width e.val
  | .strings es => es.flatMap stringWire
  | .arrays es => arraysBytes es
def arraysBytes : List MetaArray → Bytes
  | [] => []
  | a :: as => leBytes 4 a.elemCode.toNat ++ leBytes 8 a.count ++ a.elemBytes ++ arraysBytes as
end

def wire (a : MetaArray) : Bytes := leBytes 4 a.elemCode.toNat ++ leBytes 8 a.count ++ a.elemBytes

def Flat : MetaArray → Prop
  | scalars _ _ => True
  | strings es => es = []
  | arrays es => es = []

end MetaArray

inductive MetaValue
  | scalar (t : ScalarType) (bits : Fin t.range)
  | string (bytes : Bytes)
  | array (a : MetaArray)

namespace MetaValue

def code : MetaValue → UInt32
  | scalar t _ => t.kvType.code
  | string _ => KvType.string.code
  | array _ => KvType.array.code

def wire : MetaValue → Bytes
  | scalar t bits => leBytes t.width bits.val
  | string bytes => stringWire bytes
  | array a => a.wire

end MetaValue

structure Pair where
  key : Bytes
  value : MetaValue

def Pair.wire (p : Pair) : Bytes := stringWire p.key ++ (leBytes 4 p.value.code.toNat ++ p.value.wire)

structure Tensor where
  name : CStr
  name_short : name.bytes.length < 256
  dims : List UInt64
  dims_few : dims.length ≤ 4
  type : UInt32
  offset : UInt64

def dimsWire (dims : List UInt64) : Bytes := dims.flatMap fun n => leBytes 8 n.toNat

def Tensor.wire (t : Tensor) : Bytes :=
  stringWire t.name.bytes ++ (leBytes 4 t.dims.length ++ (dimsWire t.dims ++
    (leBytes 4 t.type.toNat ++ leBytes 8 t.offset.toNat)))

structure Contents where
  version : UInt32
  version_known : version = 2 ∨ version = 3
  pairs : List Pair
  pairs_few : pairs.length ≤ 512
  tensors : List Tensor
  tensors_few : tensors.length ≤ 1024

namespace Contents

def records (c : Contents) : Bytes := c.pairs.flatMap Pair.wire ++ c.tensors.flatMap Tensor.wire

def header (c : Contents) (magic : UInt32) : Bytes :=
  leBytes 4 magic.toNat ++ (leBytes 4 c.version.toNat ++ (leBytes 8 c.tensors.length ++ leBytes 8 c.pairs.length))

def dataStart (c : Contents) : Nat := (24+c.records.length+31)/32*32

def image (c : Contents) (magic : UInt32) : Bytes :=
  c.header magic ++ (c.records ++ List.replicate (c.dataStart-(24+c.records.length)) 0)

end Contents

@[simp] theorem header_length (c : Contents) (magic : UInt32) : (c.header magic).length = 24 := by
  simp [Contents.header]

def contents : Option Block → Option Bytes
  | none => some []
  | some b => b.content

def Value.Shows : Value → MetaValue → Prop
  | .bits n, .scalar _ b => n = b
  | .str data len, .string bytes => len.toNat = bytes.length ∧ contents data = some bytes
  | .arr elemType count data, .array a =>
    elemType = a.elemCode ∧ count.toNat = a.count ∧ contents data = some a.elemBytes
  | _, _ => False

structure Kv.Shows (kv : Kv) (p : Pair) : Prop where
  key : cString kv.key = p.key
  type : kv.type = p.value.code
  value : kv.value.Shows p.value

structure TensorInfo.Shows (info : TensorInfo) (t : Tensor) : Prop where
  name : cString info.name = t.name.bytes
  nDims : info.nDims.toNat = t.dims.length
  dims : info.dims = t.dims ++ List.replicate (4-t.dims.length) 1
  type : info.type = t.type
  offset : info.offset = t.offset

structure File.Shows (f : File) (c : Contents) : Prop where
  version : f.version = c.version
  pairs : List.Forall₂ Kv.Shows f.kvPairs c.pairs
  tensors : List.Forall₂ TensorInfo.Shows f.tensorInfos c.tensors
  dataOffset : f.dataOffset.toNat = c.dataStart

def grantNonzero (_ : Nat) (size : UInt64) : Bool := size ≠ 0
def Decodes (d : Data) (c : Contents) : Prop := ∃ f, (ggufParse d grantNonzero).1 = some f ∧ f.Shows c

def Data.Has (d : Data) (pos : UInt64) (bs : Bytes) : Prop :=
  pos.toNat+bs.length ≤ d.size.toNat ∧ d.bytes pos bs.length = bs

variable {bs : Bytes} {n size pos : UInt64} {a : MetaArray} {p : Pair} {t : Tensor} {c : Contents}
    {magic : UInt32} {r : Reader}

section
variable {d : Data} {pos : UInt64}

theorem bytes_add (d : Data) (pos : UInt64) (m n : Nat) :
    d.bytes pos (m+n) = d.bytes pos m ++ d.bytes (pos+ofNat m) n := by
  unfold Data.bytes
  rw [firsts_add]
  congr 1
  apply firsts_congr
  intro i _
  rw [ofNat_add,UInt64.add_assoc]

theorem Data.Has.append {as : Bytes} (h : d.Has pos (as ++ bs)) :
    d.Has pos as ∧ d.Has (pos+ofNat as.length) bs := by
  obtain ⟨hs,hb⟩ := h
  rw [length_append] at hs hb
  rw [bytes_add] at hb
  have hlen : (d.bytes pos as.length).length = as.length := firsts_length _ _
  obtain ⟨has,hbs⟩ := append_inj hb hlen
  have hlt := d.size.toNat_lt
  have hpos : (pos+ofNat as.length).toNat = pos.toNat+as.length := by
    rw [toNat_add,toNat_ofNat',Nat.add_mod_mod,mod_eq_of_lt (by omega)]
  exact ⟨⟨by omega,has⟩,⟨by omega,hbs⟩⟩

theorem Data.Has.fits (h : d.Has pos bs) (hn : n.toNat = bs.length) :
    pos+n ≤ d.size ∧ (pos+n).toNat = pos.toNat+bs.length := by
  have hlt := d.size.toNat_lt
  have hsum : (pos+n).toNat = pos.toNat+bs.length := by
    rw [toNat_add,hn]
    exact mod_eq_of_lt (by have := h.1; omega)
  exact ⟨le_iff_toNat_le.mpr (by rw [hsum]; exact h.1),hsum⟩

theorem Data.Has.word (h : d.Has pos bs) (hn : n.toNat = bs.length) : d.word pos n = leValue bs := by
  rw [Data.word,if_pos (h.fits hn).1,hn,h.2]

theorem Data.Has.after (h : d.Has pos bs) (hn : n.toNat = bs.length) :
    d.after pos n = pos+ofNat bs.length := by
  rw [Data.after,if_pos (h.fits hn).1,← hn,ofNat_toNat]

theorem Data.Has.word32 {v : UInt32} (h : d.Has pos (leBytes 4 v.toNat)) :
    d.word32 pos = v ∧ d.after pos 4 = pos+ofNat 4 := by
  rw [Data.word32,h.word (by simp),leValue_word32]
  exact ⟨UInt32.ofNat_toNat,by simpa using h.after (n := 4) (by simp)⟩

theorem Data.Has.word64 {v : Nat} (h : d.Has pos (leBytes 8 v)) (hv : v < 2^64) :
    (d.word64 pos).toNat = v ∧ d.after pos 8 = pos+ofNat 8 := by
  rw [Data.word64,h.word (by simp),leValue_leBytes 8 v hv,toNat_ofNat',mod_eq_of_lt hv]
  exact ⟨rfl,by simpa using h.after (n := 8) (by simp)⟩

theorem Data.Has.str (h : d.Has pos (stringWire bs)) (hlen : bs.length < 256) :
    d.strBytes pos = bs ∧ d.strAfter pos = pos+ofNat (stringWire bs).length := by
  obtain ⟨hf,hb⟩ := h.append
  rw [leBytes_length] at hb
  obtain ⟨hw,ha⟩ := hf.word64 (by omega)
  have hn : (d.strLen pos).toNat = bs.length := by
    have hs : ¬ d.word64 pos ≥ ggufMaxKeyLen := by
      intro hge
      have hle : 256 ≤ (d.word64 pos).toNat := le_iff_toNat_le.mp hge
      omega
    rw [Data.strLen,if_neg hs,hw]
  rw [Data.strBytes,Data.strAfter,ha,if_pos (hb.fits hn).1,hn,hb.after hn,stringWire_length,
    ofNat_add,UInt64.add_assoc]
  exact ⟨hb.2,rfl⟩

theorem strBytes_length (d : Data) (pos : UInt64) : (d.strBytes pos).length < 256 := by
  have hlen : (d.strLen pos).toNat < 256 := by
    unfold Data.strLen
    split
    · decide
    · exact UInt64.lt_iff_toNat_lt.mp (UInt64.not_le.mp (by assumption))
  unfold Data.strBytes
  split
  · rw [Data.bytes,firsts_length]
    exact hlen
  · decide

end

section
variable {d : Data} {grant : Nat → UInt64 → Bool} {r : Reader}

theorem readBlock_has {bs : Bytes} {size n : UInt64} (h : d.Has r.pos bs) (hn : n.toNat = bs.length)
    (hg : grant r.mallocs size = true) : (readBlock d grant size n r).1 = some ⟨size,some bs⟩ := by
  have hok : r.ok d n := (h.fits hn).1
  unfold readBlock
  rw [if_pos hg,if_pos hok]
  show some (Block.mk size (some (d.bytes r.pos n.toNat))) = _
  rw [hn,h.2]

theorem readBlock_contents (h : contents (readBlock d grant size n r).1 = some bs) : bs.length ≤ n.toNat := by
  unfold readBlock at h
  split at h
  · split at h
    · cases h
      exact Nat.le_of_eq (firsts_length _ _)
    · cases h
  · cases h
    exact zero_le _

theorem readString_has (h : d.Has r.pos (stringWire bs)) :
    (readString d grantNonzero r).1.Shows (.string bs) ∧
      (readString d grantNonzero r).2.pos = r.pos+ofNat (stringWire bs).length := by
  obtain ⟨hf,hb⟩ := h.append
  have hlt := d.size.toNat_lt
  have hfit := h.1
  rw [stringWire_length] at hfit
  obtain ⟨hwr,ha⟩ := hf.word64 (by omega)
  obtain ⟨hlen,hm⟩ := @readU64_spec d r
  have hpos := hm.pos_eq
  rw [ha] at hpos
  have hn : (readU64 d r).1.toNat = bs.length := by rw [hlen,hwr]
  have hne : ((readU64 d r).1+1).toNat = bs.length+1 := by
    rw [toNat_add,toNat_one,hn,mod_eq_of_lt (by omega)]
  have hbl := @readBlock_has d grantNonzero (readU64 d r).2 bs ((readU64 d r).1+1) (readU64 d r).1
    (by rwa [hpos]) hn (by simp [grantNonzero,← toNat_inj,hne])
  refine ⟨⟨hn,?_⟩,?_⟩
  · rw [hbl]
    rfl
  · show (readBlock d grantNonzero ((readU64 d r).1+1) (readU64 d r).1 (readU64 d r).2).2.pos = _
    rw [(readBlock_moves grantNonzero _ _ _).pos_eq,hpos,stringWire_length,ofNat_add,← hn,
      ofNat_toNat,UInt64.add_assoc]

theorem elemSize_scalar (t : ScalarType) : (elemSize t.kvType.code).toNat = t.width := by
  cases t <;> rfl

theorem scalars_length (t : ScalarType) (es : List (Fin t.range)) :
    (MetaArray.scalars t es).elemBytes.length = es.length*t.width := by
  simp [MetaArray.elemBytes,length_flatMap]

theorem MetaArray.Flat.length (h : a.Flat) : a.elemBytes.length = a.count*(elemSize a.elemCode).toNat := by
  cases a with
  | scalars t es =>
    rw [scalars_length,elemCode,elemSize_scalar]
    rfl
  | strings es | arrays es =>
    cases (show es = [] from h)
    rfl

theorem MetaArray.not_flat_length (h : ¬ a.Flat) :
    a.count*(elemSize a.elemCode).toNat < a.elemBytes.length := by
  cases a with
  | scalars t es => exact absurd trivial h
  | strings es =>
    have hlen : ∀ es : List Bytes, 8*es.length ≤ (es.flatMap stringWire).length := by
      intro es
      induction es with
      | nil => exact zero_le _
      | cons e es ih =>
        simp only [flatMap_cons,length_append,stringWire_length,length_cons]
        omega
    have hes : 0 < es.length := length_pos_iff.mpr h
    exact Nat.lt_of_lt_of_le (show es.length*4 < 8*es.length by omega) (hlen es)
  | arrays es =>
    have hlen : ∀ es : List MetaArray, 12*es.length ≤ (arraysBytes es).length := by
      intro es
      induction es with
      | nil => exact zero_le _
      | cons e es ih =>
        simp only [arraysBytes,length_append,leBytes_length,length_cons]
        omega
    have hes : 0 < es.length := length_pos_iff.mpr h
    exact Nat.lt_of_lt_of_le (show es.length*4 < 12*es.length by omega) (hlen es)

theorem elemSize_pos (code : UInt32) : 1 ≤ (elemSize code).toNat := by
  unfold elemSize
  split <;> decide

theorem MetaArray.count_le (a : MetaArray) : a.count ≤ a.elemBytes.length := by
  have hle : a.count*(elemSize a.elemCode).toNat ≤ a.elemBytes.length := by
    by_cases hf : a.Flat
    · exact le_of_eq hf.length.symm
    · exact le_of_lt (not_flat_length hf)
  exact le_trans (Nat.le_mul_of_pos_right _ (elemSize_pos _)) hle

theorem readArray_has {a : MetaArray} (h : d.Has r.pos a.wire) :
    ∃ (r' : Reader) (n : UInt64), d.Has r'.pos a.elemBytes ∧ n.toNat = a.count ∧
      (readArray d grant r).1 = .arr a.elemCode n
        (readBlock d grant (n*elemSize a.elemCode) (n*elemSize a.elemCode) r').1 ∧
      (readArray d grant r).2.pos = r.pos+ofNat 12+n*elemSize a.elemCode := by
  rw [MetaArray.wire,append_assoc] at h
  obtain ⟨hty,h'⟩ := h.append
  obtain ⟨hc,he⟩ := h'.append
  rw [leBytes_length] at hc he
  have hfew : a.count < 2^64 := by
    have hlt := d.size.toNat_lt
    have hfit := he.1
    have hle := a.count_le
    omega
  obtain ⟨hcd,ha⟩ := hty.word32
  obtain ⟨hn,ha'⟩ := hc.word64 hfew
  obtain ⟨ht,h1⟩ := @readU32_spec d r
  obtain ⟨hce,h2⟩ := @readU64_spec d (readU32 d r).2
  rw [h1.pos_eq,ha] at hce h2
  have hpos := h2.pos_eq
  rw [ha'] at hpos
  refine ⟨(readU64 d (readU32 d r).2).2,(readU64 d (readU32 d r).2).1,by rwa [hpos],by rw [hce,hn],?_,?_⟩
  · unfold readArray
    dsimp only
    rw [ht,hcd]
  unfold readArray
  rw [(readBlock_moves grant _ _ _).pos_eq,hpos,ht,hcd,UInt64.add_assoc r.pos]
  rfl

theorem readArray_flat (h : d.Has r.pos a.wire) (hf : a.Flat) :
    (readArray d grantNonzero r).1.Shows (.array a) ∧
      (readArray d grantNonzero r).2.pos = r.pos+ofNat a.wire.length := by
  obtain ⟨r',n,he,hn,hv,hpos⟩ := @readArray_has d grantNonzero r a h
  have hlt := d.size.toNat_lt
  have ht : (n*elemSize a.elemCode).toNat = a.elemBytes.length := by
    rw [toNat_mul,hn,← hf.length]
    exact mod_eq_of_lt (by have := he.1; omega)
  have hw : a.wire.length = 12+a.elemBytes.length := by
    simp only [MetaArray.wire,length_append,leBytes_length]
  refine ⟨?_,?_⟩
  · rw [hv]
    refine ⟨rfl,hn,?_⟩
    cases hg : grantNonzero r'.mallocs (n*elemSize a.elemCode) with
    | true =>
      rw [readBlock_has he ht hg]
      rfl
    | false =>
      -- no bytes, so `kmalloc` gives no block and none is needed
      have hz : n*elemSize a.elemCode = 0 := by simpa [grantNonzero] using hg
      have hnil : a.elemBytes = [] := by
        rw [hz] at ht
        exact length_eq_zero_iff.mp ht.symm
      unfold readBlock
      rw [hg,hnil]
      rfl
  · rw [hpos,hw,ofNat_add,← ht,ofNat_toNat,UInt64.add_assoc]

theorem readArray_not_flat (h : d.Has r.pos a.wire) (hf : ¬ a.Flat) :
    ¬ (readArray d grant r).1.Shows (.array a) := by
  obtain ⟨r',n,he,hn,hv,hpos⟩ := @readArray_has d grant r a h
  rw [hv]
  rintro ⟨_,_,hc⟩
  have hlen := readBlock_contents hc
  have hm := MetaArray.not_flat_length hf
  have hle : (n*elemSize a.elemCode).toNat ≤ a.count*(elemSize a.elemCode).toNat := by
    rw [toNat_mul,hn]
    exact Nat.mod_le _ _
  omega

theorem readValue_scalar {t : ScalarType} (bits : Fin t.range) (h : d.Has r.pos (leBytes t.width bits.val))
    (hwd : t.width ≠ 2) : (readValue d grant t.kvType.code r).1 = .bits bits.val ∧
      (readValue d grant t.kvType.code r).2.pos = r.pos+ofNat t.width := by
  have hb : bits.val < 256^t.width := lt_of_lt_of_le bits.isLt t.range_le
  have hr : ∀ n : UInt64, n.toNat = t.width → (readWord d n r).1 = bits.val ∧
      (readWord d n r).2.pos = r.pos+ofNat t.width := by
    intro n hn
    obtain ⟨hw,hm⟩ := @readWord_spec d n r
    rw [hw,hm.pos_eq,h.word (by rw [hn,leBytes_length]),h.after (by rw [hn,leBytes_length]),leBytes_length]
    exact ⟨leValue_leBytes _ _ hb,rfl⟩
  have hs : ∀ n : UInt64, n.toNat = t.width → (readScalar d n t.width r).1 = .bits bits.val ∧
      (readScalar d n t.width r).2.pos = r.pos+ofNat t.width := by
    intro n hn
    obtain ⟨hw,hpos⟩ := hr n hn
    refine ⟨?_,hpos⟩
    rw [readScalar,hw,mod_eq_of_lt hb]
  cases t with
  | uint8 | int8 => exact hs 1 rfl
  | uint16 | int16 => exact absurd rfl hwd
  | uint32 | int32 | float32 => exact hs 4 rfl
  | bool =>
    obtain ⟨hw,hpos⟩ := hr 1 rfl
    refine ⟨?_,hpos⟩
    have hbl : bits.val < 2 := bits.isLt
    have hsm : (if bits.val ≠ 0 then 1 else 0) = bits.val := by
      split <;> omega
    show Value.bits (if (readWord d 1 r).1 ≠ 0 then 1 else 0) = _
    rw [hw,hsm]
  | uint64 | int64 | float64 => exact hs 8 rfl

def MetaValue.Plain : MetaValue → Prop
  | scalar t _ => t.width ≠ 2
  | string _ => True
  | array a => a.Flat

theorem readValue_plain {v : MetaValue} (h : d.Has r.pos v.wire) (hv : v.Plain) :
    (readValue d grantNonzero v.code r).1.Shows v ∧
      (readValue d grantNonzero v.code r).2.pos = r.pos+ofNat v.wire.length := by
  cases v with
  | scalar t bits =>
    obtain ⟨hvl,hpos⟩ := @readValue_scalar d grantNonzero r t bits h hv
    simp [MetaValue.code,MetaValue.wire,hvl,hpos,Value.Shows]
  | string bs => exact readString_has h
  | array a => exact readArray_flat h hv

theorem readKv_has {p : Pair} (h : d.Has r.pos p.wire) (hkey : p.key.length < 256) :
    ∃ r' : Reader, r'.pos = r.pos+ofNat (stringWire p.key).length+ofNat 4 ∧
      d.Has r'.pos p.value.wire ∧
      readKv d grant r = (⟨p.key,p.value.code,(readValue d grant p.value.code r').1⟩,
        (readValue d grant p.value.code r').2) := by
  obtain ⟨hstr,h'⟩ := h.append
  obtain ⟨hty,hv⟩ := h'.append
  obtain ⟨hb,ha⟩ := hstr.str hkey
  obtain ⟨hc,ha'⟩ := hty.word32
  obtain ⟨hk,h1⟩ := @readStr_spec d r
  obtain ⟨ht,h2⟩ := @readU32_spec d (readStr d r).2
  rw [h1.pos_eq,ha] at ht h2
  have hpos := h2.pos_eq
  rw [ha'] at hpos
  refine ⟨(readU32 d (readStr d r).2).2,hpos,by rwa [hpos],?_⟩
  unfold readKv
  dsimp only
  rw [ht,hc,hk,hb]

structure Pair.Good (p : Pair) : Prop where
  key_noNul : (0 : UInt8) ∉ p.key
  key_short : p.key.length < 256
  value : p.value.Plain

theorem cString_eq (h : (0 : UInt8) ∉ bs) : cString bs = bs := by
  rw [cString,takeWhile_eq_self_iff]
  intro b hb
  exact decide_eq_true fun hz => h (hz ▸ hb)

theorem readKv_good (h : d.Has r.pos p.wire) (hp : p.Good) : (readKv d grantNonzero r).1.Shows p ∧
    (readKv d grantNonzero r).2.pos = r.pos+ofNat p.wire.length := by
  obtain ⟨r',hpos,hhas,hkv⟩ := @readKv_has d grantNonzero r p h hp.key_short
  obtain ⟨hs,hend⟩ := readValue_plain hhas hp.value
  rw [hkv]
  refine ⟨⟨cString_eq hp.key_noNul,rfl,hs⟩,?_⟩
  rw [hend,hpos,Pair.wire]
  simp only [length_append,leBytes_length,ofNat_add,UInt64.add_assoc]

theorem readKvs_good {ps : List Pair} (h : d.Has r.pos (ps.flatMap Pair.wire)) (hps : ∀ p ∈ ps, p.Good) :
    Forall₂ Kv.Shows (readKvs d grantNonzero ps.length r).1 ps ∧
      (readKvs d grantNonzero ps.length r).2.pos = r.pos+ofNat (ps.flatMap Pair.wire).length := by
  induction ps generalizing r with
  | nil => exact ⟨Forall₂.nil,by simp [readKvs]⟩
  | cons p ps ih =>
    obtain ⟨hp,hr⟩ := h.append
    obtain ⟨hs,hpos⟩ := readKv_good hp (hps p mem_cons_self)
    obtain ⟨hall,hend⟩ := @ih (readKv d grantNonzero r).2 (by rwa [hpos]) fun q hq => hps q (mem_cons_of_mem _ hq)
    refine ⟨Forall₂.cons hs hall,?_⟩
    show (readKvs d grantNonzero ps.length (readKv d grantNonzero r).2).2.pos = _
    rw [hend,hpos,flatMap_cons,length_append,ofNat_add,UInt64.add_assoc]

theorem dimsAt_has {dims : List UInt64} (h : d.Has pos (dimsWire dims)) :
    d.dimsAt dims.length pos = dims ∧ d.dimsAfter dims.length pos = pos+ofNat (dimsWire dims).length := by
  induction dims generalizing pos with
  | nil => exact ⟨rfl,by simp [Data.dimsAfter,dimsWire]⟩
  | cons n dims ih =>
    obtain ⟨hn,hr⟩ := h.append
    obtain ⟨hw,ha⟩ := hn.word64 n.toNat_lt
    rw [leBytes_length,← ha] at hr
    obtain ⟨hd,hend⟩ := ih hr
    refine ⟨?_,?_⟩
    · rw [length_cons,Data.dimsAt,hd,toNat_inj.mp hw]
    · rw [length_cons,Data.dimsAfter,hend,ha,dimsWire,dimsWire,flatMap_cons,length_append,
        leBytes_length,ofNat_add,UInt64.add_assoc]

theorem tensorAt_has (h : d.Has pos t.wire) :
    (d.tensorAt pos).Shows t ∧ d.tensorAfter pos = pos+ofNat t.wire.length := by
  obtain ⟨hnm,h⟩ := h.append
  obtain ⟨hc,h⟩ := h.append
  obtain ⟨hd,h⟩ := h.append
  obtain ⟨ht,hof⟩ := h.append
  simp only [leBytes_length] at hd ht hof
  obtain ⟨hb,ha⟩ := hnm.str t.name_short
  have hfew := t.dims_few
  have hlen : (UInt32.ofNat t.dims.length).toNat = t.dims.length := UInt32.toNat_ofNat_of_lt' (show _ < 2^32 by omega)
  rw [← hlen] at hc
  obtain ⟨hw,ha'⟩ := hc.word32
  have hn : (d.tensorDims pos).toNat = t.dims.length := by
    have hle : ¬ UInt32.ofNat t.dims.length > ggufMaxDims := by
      intro hgt
      have hlt : (4 : Nat) < (UInt32.ofNat t.dims.length).toNat := UInt32.lt_iff_toNat_lt.mp hgt
      omega
    rw [Data.tensorDims,ha,hw,if_neg hle,hlen]
  obtain ⟨hda,hdm⟩ := dimsAt_has hd
  have hta : d.tensorType pos = pos+ofNat (stringWire t.name.bytes).length+ofNat 4 +
      ofNat (dimsWire t.dims).length := by
    rw [Data.tensorType,hn,ha,ha',hdm]
  obtain ⟨hte,hty⟩ := ht.word32
  obtain ⟨ho,hoa⟩ := hof.word64 t.offset.toNat_lt
  have ho := toNat_inj.mp ho
  have hat : d.tensorAt pos = ⟨t.name.bytes,d.tensorDims pos,t.dims ++ replicate (4-t.dims.length) 1,t.type,
      t.offset,sizeBytesOf t.type t.dims⟩ := by
    unfold Data.tensorAt
    rw [hb,hn,ha,ha',hda,hta,hte,hty,ho]
    rfl
  rw [hat]
  refine ⟨?_,?_⟩
  · constructor <;> dsimp only
    · exact cString_eq t.name.noNul
    · exact hn
  · rw [Data.tensorAfter,hta,hty,hoa,Tensor.wire]
    simp only [length_append,leBytes_length,ofNat_add,UInt64.add_assoc]

theorem tensorsAt_has {ts : List Tensor} (h : d.Has pos (ts.flatMap Tensor.wire)) :
    Forall₂ TensorInfo.Shows (d.tensorsAt ts.length pos) ts ∧
      d.tensorsAfter ts.length pos = pos+ofNat (ts.flatMap Tensor.wire).length := by
  induction ts generalizing pos with
  | nil => exact ⟨Forall₂.nil,by simp [Data.tensorsAfter]⟩
  | cons t ts ih =>
    obtain ⟨ht,hr⟩ := h.append
    obtain ⟨hs,hpos⟩ := tensorAt_has ht
    rw [← hpos] at hr
    obtain ⟨hall,hend⟩ := ih hr
    refine ⟨Forall₂.cons hs hall,?_⟩
    rw [length_cons,Data.tensorsAfter,hend,hpos,flatMap_cons,length_append,ofNat_add,
      UInt64.add_assoc]

end

section
variable {d : Data}

theorem alignUp_32 {x : UInt64} (h : x.toNat+31 < 2^64) : (alignUp x 32).toNat = (x.toNat+31)/32*32 := by
  have hsum : (x+32-1).toNat = x.toNat+31 := by
    rw [UInt64.toNat_sub,toNat_add]
    simp only [UInt64.reduceToNat,toNat_one]
    omega
  rw [alignUp,UInt64.toNat_and,hsum,show (~~~ (32-1 : UInt64)).toNat = 2^64-32 from rfl,
    show (2^64-32 : Nat) = (2^59-1)*2^5 by decide,AevOS.BitWords.and_field]
  omega

theorem count_eq {n : Nat} {bound : UInt64} (h : n ≤ bound.toNat) : min (ofNat n) bound = ofNat n := by
  have hlt := bound.toNat_lt
  have hle : ofNat n ≤ bound := by
    rwa [le_iff_toNat_le,toNat_ofNat_of_lt' (show _ < 2^64 by omega)]
  exact if_pos hle

theorem grantNonzero_table {n k : Nat} (hs : 0 < size.toNat) (h : n*size.toNat < 2^64) :
    grantNonzero k (ofNat n*size) = decide (n ≠ 0) := by
  have hmul : (ofNat n*size).toNat = n*size.toNat := by
    rw [toNat_mul,toNat_ofNat',Nat.mod_mul_mod,mod_eq_of_lt h]
  have hiff : ofNat n*size = 0 ↔ n = 0 := by
    rw [← toNat_inj,hmul,toNat_zero,mul_eq_zero]
    exact or_iff_left (by omega)
  simp only [grantNonzero,ne_eq,hiff]

theorem parseBody_eq (version : UInt32) {nTensors nKv : Nat} (ht : nTensors ≤ 1024) (hk : nKv ≤ 512) (r : Reader) :
    (parseBody d grantNonzero version (ofNat nTensors) (ofNat nKv) r).1 =
      if nKv = 0 ∨ nTensors = 0 then none
      else
        let kvs := readKvs d grantNonzero nKv r.malloc
        let infos := readTensorInfos d nTensors kvs.2.malloc
        some ⟨version,ofNat nTensors,ofNat nKv,kvs.1,infos.1,alignUp infos.2.pos 32⟩ := by
  have hkv : (ofNat nKv).toNat = nKv := toNat_ofNat_of_lt' (show _ < 2^64 by omega)
  have htn : (ofNat nTensors).toNat = nTensors := toNat_ofNat_of_lt' (show _ < 2^64 by omega)
  unfold parseBody
  dsimp only
  rw [count_eq (show nKv ≤ ggufMaxKv.toNat from hk),count_eq (show nTensors ≤ ggufMaxTensors.toNat from ht),hkv,htn,
    grantNonzero_table (by decide) (show nKv*288 < _ by omega),
    grantNonzero_table (by decide) (show nTensors*320 < _ by omega)]
  by_cases hk0 : nKv = 0 <;> by_cases ht0 : nTensors = 0 <;> simp [hk0,ht0]

theorem ggufParse_image (h : d.Has 0 (c.image ggufMagic)) : ∃ r : Reader, r.pos = ofNat 24 ∧
    d.Has r.pos (c.records ++ replicate (c.dataStart-(24+c.records.length)) 0) ∧
    (ggufParse d grantNonzero).1 =
      (parseBody d grantNonzero c.version (ofNat c.tensors.length) (ofNat c.pairs.length) r).1 := by
  obtain ⟨hh,hr⟩ := h.append
  obtain ⟨hm,hh⟩ := hh.append
  obtain ⟨hvr,hh⟩ := hh.append
  obtain ⟨htn,hpr⟩ := hh.append
  simp only [leBytes_length] at hvr htn hpr
  have hfew := c.pairs_few
  have hf' := c.tensors_few
  obtain ⟨hme,ha1⟩ := hm.word32
  obtain ⟨hve,ha2⟩ := hvr.word32
  obtain ⟨ht,ha3⟩ := htn.word64 (by omega)
  obtain ⟨hp,ha4⟩ := hpr.word64 (by omega)
  obtain ⟨h1,m1⟩ := @readU32_spec d ⟨0,[],0⟩
  obtain ⟨h2,m2⟩ := @readU32_spec d (readU32 d ⟨0,[],0⟩).2.malloc
  have hp1 : (readU32 d ⟨0,[],0⟩).2.malloc.pos = 0+ofNat 4 := m1.pos_eq.trans ha1
  rw [hp1] at h2 m2
  obtain ⟨h3,m3⟩ := @readU64_spec d (readU32 d (readU32 d ⟨0,[],0⟩).2.malloc).2
  rw [m2.pos_eq,ha2] at h3 m3
  obtain ⟨h4,m4⟩ := @readU64_spec d (readU64 d (readU32 d (readU32 d ⟨0,[],0⟩).2.malloc).2).2
  rw [m3.pos_eq,ha3] at h4 m4
  have hpos := m4.pos_eq
  rw [ha4] at hpos
  have h24 : (0 : UInt64)+ofNat 4+ofNat 4+ofNat 8+ofNat 8 = ofNat 24 := by
    decide
  rw [h24] at hpos
  refine ⟨_,hpos,by rwa [hpos],?_⟩
  have hk : ¬ (c.version < 2 ∨ c.version > 3) := by
    rcases c.version_known with hv | hv <;> rw [hv] <;> decide
  have ht : d.word64 (0+ofNat 4+ofNat 4) = ofNat c.tensors.length := by
    rw [← ht,ofNat_toNat]
  have hp : d.word64 (0+ofNat 4+ofNat 4+ofNat 8) = ofNat c.pairs.length := by
    rw [← hp,ofNat_toNat]
  have h1 : (readU32 d ⟨0,[],0⟩).1 = ggufMagic := h1.trans hme
  unfold ggufParse
  dsimp only
  rw [h1,if_neg (not_not.mpr rfl),if_pos (show grantNonzero _ sizeofFile = true from rfl),h2,hve,if_neg hk,h3,h4,ht,hp]

theorem ggufParse_other_magic (h : d.Has 0 (c.image magic)) (hm : magic ≠ ggufMagic)
    (grant : Nat → UInt64 → Bool) : (ggufParse d grant).1 = none := by
  obtain ⟨hh,hr⟩ := h.append
  obtain ⟨hf,hh⟩ := hh.append
  have hw : (readU32 d ⟨0,[],0⟩).1 = magic := (@readU32_spec d ⟨0,[],0⟩).1.trans hf.word32.1
  unfold ggufParse
  dsimp only
  rw [hw,if_pos hm]

theorem decodes_of_good (h : d.Has 0 (c.image ggufMagic)) (hpr : c.pairs ≠ [])
    (ht : c.tensors ≠ []) (hg : ∀ p ∈ c.pairs, p.Good) : Decodes d c := by
  obtain ⟨r,hpos,hr,hp⟩ := ggufParse_image h
  have hs := hr.1
  have hlt := d.size.toNat_lt
  obtain ⟨hrc,hpad⟩ := hr.append
  obtain ⟨hk,hth⟩ := hrc.append
  have hn : ¬ (c.pairs.length = 0 ∨ c.tensors.length = 0) := by simp [hpr,ht]
  rw [parseBody_eq c.version c.tensors_few c.pairs_few,if_neg hn] at hp
  obtain ⟨hsh,hkp⟩ := @readKvs_good d r.malloc c.pairs hk hg
  obtain ⟨hi,hm⟩ := @readTensorInfos_spec d c.tensors.length
    (readKvs d grantNonzero c.pairs.length r.malloc).2.malloc
  have hp' : (readKvs d grantNonzero c.pairs.length r.malloc).2.malloc.pos =
      r.pos+ofNat (c.pairs.flatMap Pair.wire).length := hkp
  rw [hp'] at hi hm
  obtain ⟨hts,hend⟩ := tensorsAt_has hth
  rw [hend] at hm
  have hlen : c.records.length = (c.pairs.flatMap Pair.wire).length+(c.tensors.flatMap Tensor.wire).length :=
    length_append
  have he : (r.pos+ofNat (c.pairs.flatMap Pair.wire).length +
      ofNat (c.tensors.flatMap Tensor.wire).length).toNat = 24+c.records.length := by
    rw [UInt64.add_assoc,← ofNat_add,← hlen,hpos,← ofNat_add,toNat_ofNat']
    have h24 : (ofNat 24).toNat = 24 := rfl
    rw [length_append,hpos,h24] at hs
    exact mod_eq_of_lt (by omega)
  have hrm : 24+c.records.length+31 < 2^64 := by
    have h24 : (ofNat 24).toNat = 24 := rfl
    rw [length_append,length_replicate,hpos,h24] at hs
    have hst : c.dataStart = (24+c.records.length+31)/32*32 := rfl
    omega
  refine ⟨_,hp,rfl,hsh,?_,?_⟩
  · rw [hi]
    exact hts
  · rw [hm.pos_eq,alignUp_32 (by rw [he]; exact hrm),he]
    rfl

theorem not_parsed_of_empty (h : d.Has 0 (c.image magic)) (he : c.pairs = [] ∨ c.tensors = []) :
    (ggufParse d grantNonzero).1 = none := by
  by_cases hm : magic = ggufMagic
  · rw [hm] at h
    obtain ⟨r,_,_,hp⟩ := ggufParse_image h
    have hn : c.pairs.length = 0 ∨ c.tensors.length = 0 := by simpa using he
    rw [hp,parseBody_eq c.version c.tensors_few c.pairs_few,if_pos hn]
  · exact ggufParse_other_magic h hm grantNonzero

end

theorem one_pair_few (p : Pair) : [p].length ≤ 512 := by simp
theorem one_tensor_few (t : Tensor) : [t].length ≤ 1024 := by simp

def oneEach (p : Pair) (t : Tensor) : Contents := ⟨3,.inr rfl,[p],one_pair_few p,[t],one_tensor_few t⟩

theorem noDims_few : ([] : List UInt64).length ≤ 4 := zero_le _

def smallTensor : Tensor := ⟨.of [],by decide,[],noDims_few,0,0⟩
theorem noNulA : (0 : UInt8) ∉ [97] := by decide
def tensorA : Tensor := ⟨⟨[97],noNulA⟩,by decide,[],noDims_few,0,0⟩
def Pair.Fits (p : Pair) : Prop := (p.wire.length+48+31)/32*32 < 2^64

theorem image_length (c : Contents) (magic : UInt32) : (c.image magic).length = c.dataStart := by
  simp only [Contents.image,length_append,length_replicate,header_length,Contents.dataStart]
  omega

theorem ofBytes_has {bs : Bytes} (h : bs.length < 2^64) : (Data.ofBytes bs).Has 0 bs := by
  have hs : (Data.ofBytes bs).size.toNat = bs.length := toNat_ofNat_of_lt' h
  refine ⟨by rw [hs,toNat_zero,zero_add],?_⟩
  apply ext_getElem (firsts_length _ _)
  intro i hi hi'
  have hat := firsts_getElem? (fun i => (Data.ofBytes bs).mem (0+ofNat i)) hi'
  rw [getElem?_eq_getElem hi] at hat
  rw [Option.some.inj hat]
  show byteAt bs (0+ofNat i).toNat = _
  rw [UInt64.zero_add,toNat_ofNat',mod_eq_of_lt (by omega),byteAt_of_lt hi']

section
variable {d : Data}

theorem oneEach_parse (h : d.Has 0 ((oneEach p t).image ggufMagic)) :
    ∃ r : Reader, d.Has r.pos (p.wire ++ (t.wire ++
        replicate ((oneEach p t).dataStart-(24+(oneEach p t).records.length)) 0)) ∧
      r.pos = ofNat 24 ∧ (Decodes d (oneEach p t) → (readKv d grantNonzero r).1.Shows p ∧
        (d.tensorAt (readKv d grantNonzero r).2.pos).Shows t) := by
  obtain ⟨r,hpos,hr,hp⟩ := ggufParse_image h
  rw [parseBody_eq (oneEach p t).version (oneEach p t).tensors_few (oneEach p t).pairs_few,
    if_neg (by simp [oneEach])] at hp
  refine ⟨r.malloc,?_,hpos,?_⟩
  · have hrc : (oneEach p t).records = p.wire ++ t.wire := by simp [Contents.records,oneEach]
    rw [hrc,append_assoc] at hr
    exact hrc ▸ hr
  rintro ⟨f,hf,hs⟩
  rw [hp] at hf
  cases hf
  obtain ⟨hi,hm⟩ := @readTensorInfos_spec d 1 (readKvs d grantNonzero 1 r.malloc).2.malloc
  have hkv : Forall₂ Kv.Shows [(readKv d grantNonzero r.malloc).1] [p] := hs.pairs
  have ht : Forall₂ TensorInfo.Shows
      (readTensorInfos d 1 (readKvs d grantNonzero 1 r.malloc).2.malloc).1 [t] := hs.tensors
  have hone : ∀ pos, d.tensorsAt 1 pos = [d.tensorAt pos] := fun _ => rfl
  have hb : (readKvs d grantNonzero 1 r.malloc).2.malloc.pos = (readKv d grantNonzero r.malloc).2.pos := by
    simp only [readKvs,Reader.malloc]
  rw [hi,hone,hb] at ht
  exact ⟨(forall₂_cons.mp hkv).1,(forall₂_cons.mp ht).1⟩

theorem not_shows_of_key {grant : Nat → UInt64 → Bool}
    (hkey : (0 : UInt8) ∈ p.key ∨ 256 ≤ p.key.length) : ¬ (readKv d grant r).1.Shows p := by
  intro h
  have hk : cString (d.strBytes r.pos) = p.key := by
    rw [← (@readStr_spec d r).1]
    exact h.key
  rcases hkey with hnul | hl
  · rw [← hk] at hnul
    have hne := mem_takeWhile_imp hnul
    simp at hne
  have hlen : (cString (d.strBytes r.pos)).length ≤ (d.strBytes r.pos).length := ( takeWhile_prefix _).length_le
  have hs := strBytes_length d r.pos
  rw [hk] at hlen
  omega

theorem not_shows_of_narrow {t : ScalarType} {bits : Fin t.range} {pad : Nat}
    (hv : p.value = .scalar t bits) (hw : t.width = 2) (hkey : p.key.length < 256)
    (hs : r.pos = ofNat 24)
    (h : d.Has r.pos (p.wire ++ (tensorA.wire ++ replicate pad 0))) (hpad : pad < 32)
    (hend : d.size.toNat = r.pos.toNat+(p.wire.length+(tensorA.wire.length+pad))) :
    ¬ (d.tensorAt (readKv d grantNonzero r).2.pos).Shows tensorA := by
  obtain ⟨hp,hr⟩ := h.append
  obtain ⟨r',hpos,hvh,hkv⟩ := @readKv_has d grantNonzero r p hp hkey
  have hwr : p.wire.length = (stringWire p.key).length+4+2 := by
    simp [Pair.wire,hv,MetaValue.wire,hw,add_assoc]
  have ht : tensorA.wire = [1,0] ++ ([0,0,0,0,0,0,97,0] ++ replicate 15 0) := by decide
  have htl : tensorA.wire.length = 25 := by decide
  have hsn : r.pos.toNat = 24 := by rw [hs]; rfl
  have hk := stringWire_length p.key
  have hpn : r'.pos.toNat = r.pos.toNat+(stringWire p.key).length+4 := by
    rw [hpos,UInt64.add_assoc,← ofNat_add,toNat_add,toNat_ofNat',Nat.add_mod_mod,
      mod_eq_of_lt (by omega),add_assoc]
  have hb : r.pos+ofNat p.wire.length = r'.pos+ofNat 2 := by
    rw [hwr,hpos]
    simp only [ofNat_add,UInt64.add_assoc]
  -- what stands four bytes behind the start of the value, where the parser looks for the tensor
  rw [ht,hb,append_assoc,append_assoc] at hr
  obtain ⟨_,hr⟩ := hr.append
  obtain ⟨hl,_⟩ := hr.append
  have hf : r'.pos+ofNat 2+ofNat ([1,0] : Bytes).length = r'.pos+4 := by
    rw [UInt64.add_assoc]
    rfl
  rw [hf] at hl
  have hwd : d.word64 (r'.pos+4) = ofNat (97*256^6) := by
    rw [Data.word64,hl.word rfl]
    rfl
  have ha : d.after (r'.pos+4) 8 = r'.pos+4+8 := hl.after rfl
  have hstr : d.strBytes (r'.pos+4) = [] := by
    have hlen : d.strLen (r'.pos+4) = 255 := by
      rw [Data.strLen,hwd]
      decide
    rw [Data.strBytes,ha,hlen,if_neg]
    have hps : (r'.pos+4+8+255).toNat = r'.pos.toNat+267 := by
      rw [UInt64.add_assoc,UInt64.add_assoc,toNat_add]
      exact mod_eq_of_lt (by show r'.pos.toNat+267 < _; omega)
    rw [le_iff_toNat_le,hps]
    omega
  have hrd : (readKv d grantNonzero r).2.pos = r'.pos+4 := by
    have hft : r'.pos+4 ≤ d.size := by
      have hsum : (r'.pos+4).toNat = r'.pos.toNat+4 := by
        exact mod_eq_of_lt (by show r'.pos.toNat+4 < _; omega)
      rw [le_iff_toNat_le,hsum]
      omega
    have hc : d.valueAfter p.value.code r'.pos = d.after r'.pos 4 := by
      rw [hv]
      cases t with
      | uint16 | int16 => rfl
      | _ => cases hw
    rw [hkv]
    rw [(readValue_spec grantNonzero p.value.code r').2.pos_eq,hc,Data.after,if_pos hft]
  intro hsh
  have hn := hsh.name
  rw [hrd] at hn
  have hn' : cString (d.strBytes (r'.pos+4)) = [97] := hn
  rw [hstr] at hn'
  cases hn'

end

theorem small_has (hf : p.Fits) (magic : UInt32) :
    (Data.ofBytes ((oneEach p smallTensor).image magic)).Has 0 ((oneEach p smallTensor).image magic) := by
  apply ofBytes_has
  have hr : (oneEach p smallTensor).records.length = p.wire.length+24 := by
    have hlen : smallTensor.wire.length = 24 := by decide
    simp [Contents.records,oneEach,hlen]
  rw [image_length,Contents.dataStart,hr]
  have hb := hf
  unfold Pair.Fits at hb
  omega

theorem narrow_not_decoded {t : ScalarType} {bits : Fin t.range} (hv : p.value = .scalar t bits)
    (hw : t.width = 2) (hkey : p.key.length < 256) :
    ∃ d : Data, d.Has 0 ((oneEach p tensorA).image ggufMagic) ∧ ¬ Decodes d (oneEach p tensorA) := by
  have hwr : p.wire.length = 8+p.key.length+(4+2) := by simp [Pair.wire,hv,MetaValue.wire,hw]
  have ht : tensorA.wire.length = 25 := by decide
  have hrc : (oneEach p tensorA).records.length = p.wire.length+tensorA.wire.length := by
    simp [Contents.records,oneEach]
  have hs : (oneEach p tensorA).dataStart = (24+(oneEach p tensorA).records.length+31)/32*32 := rfl
  have hlen := image_length (oneEach p tensorA) ggufMagic
  have hhas := @ofBytes_has ((oneEach p tensorA).image ggufMagic) (by omega)
  refine ⟨_,hhas,?_⟩
  obtain ⟨r,hr,hpos,hd⟩ := oneEach_parse hhas
  have hsz : (Data.ofBytes ((oneEach p tensorA).image ggufMagic)).size.toNat = (oneEach p tensorA).dataStart := by
    rw [Data.ofBytes,hlen,toNat_ofNat_of_lt' (show _ < 2^64 by omega)]
  have hp : r.pos.toNat = 24 := by rw [hpos]; rfl
  intro h
  exact not_shows_of_narrow hv hw hkey hpos hr (by omega) (by omega) (hd h).2

theorem bad_not_decoded (hf : p.Fits) (hbad : ¬ p.Good) :
    ∃ (t : Tensor) (d : Data), d.Has 0 ((oneEach p t).image ggufMagic) ∧ ¬ Decodes d (oneEach p t) := by
  have hhas := small_has hf ggufMagic
  obtain ⟨r,hr,_,hd⟩ := oneEach_parse hhas
  by_cases hkey : (0 : UInt8) ∈ p.key ∨ 256 ≤ p.key.length
  · exact ⟨smallTensor,_,hhas,fun h => not_shows_of_key hkey (hd h).1⟩
  rw [not_or,not_le] at hkey
  have hvl : ¬ p.value.Plain := fun h => hbad ⟨hkey.1,hkey.2,h⟩
  cases hv : p.value with
  | scalar t bits =>
    rw [hv] at hvl
    exact ⟨tensorA,narrow_not_decoded hv (not_not.mp hvl) hkey.2⟩
  | string bytes =>
    rw [hv] at hvl
    exact absurd trivial hvl
  | array a =>
    rw [hv] at hvl
    refine ⟨smallTensor,_,hhas,fun h => ?_⟩
    obtain ⟨r',_,hvh,hkv⟩ := @readKv_has _ grantNonzero r p hr.append.1 hkey.2
    have hs := (hd h).1.value
    rw [hkv,hv] at hs
    rw [hv] at hvh
    exact readArray_not_flat hvh hvl hs

theorem fits_of_mem (hp : p ∈ c.pairs) (ht : c.tensors ≠ []) {d : Data}
    (h : d.Has 0 (c.image magic)) : p.Fits := by
  have hpr : p.wire.length ≤ (c.pairs.flatMap Pair.wire).length := by
    obtain ⟨before,behind,hs⟩ := append_of_mem hp
    simp only [hs,flatMap_append,flatMap_cons,length_append]
    omega
  have htn : 24 ≤ (c.tensors.flatMap Tensor.wire).length := by
    obtain ⟨t,ts,hs⟩ := exists_cons_of_ne_nil ht
    simp only [hs,flatMap_cons,Tensor.wire,length_append,stringWire_length,leBytes_length]
    omega
  have hsz := h.1
  have hlt := d.size.toNat_lt
  rw [image_length,Contents.dataStart,Contents.records,length_append] at hsz
  unfold Pair.Fits
  omega

theorem gguf_decoding_iff (magic : UInt32) (P : Pair → Prop) :
    ((∀ c : Contents, c.pairs ≠ [] → c.tensors ≠ [] → (∀ p ∈ c.pairs, P p) →
        ∀ d : Data, d.Has 0 (c.image magic) → Decodes d c) ↔
      ∀ p, P p → p.Fits → magic = ggufMagic ∧ p.Good) ∧
    ∀ c : Contents, c.pairs = [] ∨ c.tensors = [] → ∀ d : Data, d.Has 0 (c.image magic) → ¬ Decodes d c := by
  refine ⟨⟨?_,?_⟩,?_⟩
  · intro hall p hP hfits
    have hone : ∀ t : Tensor, ∀ d : Data, d.Has 0 ((oneEach p t).image magic) → Decodes d (oneEach p t) := by
      intro t d hhas
      refine hall (oneEach p t) (cons_ne_nil _ _) (cons_ne_nil _ _) ?_ d hhas
      intro q hq
      rw [mem_singleton.mp hq]
      exact hP
    have hmagic : magic = ggufMagic := by
      by_contra hother
      have hhas := small_has hfits magic
      obtain ⟨f,hf,_⟩ := hone smallTensor _ hhas
      rw [ggufParse_other_magic hhas hother] at hf
      cases hf
    refine ⟨hmagic,?_⟩
    by_contra hbad
    obtain ⟨t,d,hhas,hno⟩ := bad_not_decoded hfits hbad
    rw [← hmagic] at hhas
    exact hno (hone t d hhas)
  · intro hgood c hpairs htensors hP d hhas
    have hall : ∀ p ∈ c.pairs, magic = ggufMagic ∧ p.Good :=
      fun p hp => hgood p (hP p hp) (fits_of_mem hp htensors hhas)
    obtain ⟨p,hp⟩ := exists_mem_of_ne_nil _ hpairs
    rw [(hall p hp).1] at hhas
    exact decodes_of_good hhas hpairs htensors fun q hq => (hall q hq).2
  intro c hempty d hhas hdecodes
  obtain ⟨f,hf,_⟩ := hdecodes
  rw [not_parsed_of_empty hhas hempty] at hf
  cases hf

theorem seven_in_range : 7 < ScalarType.uint16.range := by decide

def narrowPair : Pair := ⟨[107],.scalar .uint16 ⟨7,seven_in_range⟩⟩

theorem narrowPair_shifts_tensor : leBytes 4 0x46554747 = [71,71,85,70] ∧
    (ggufParse (Data.ofBytes ((oneEach narrowPair tensorA).image 0x46554747)) grantNonzero).1.isNone ∧
    tensorA.name.bytes = [97] ∧
    ((ggufParse (Data.ofBytes ((oneEach narrowPair tensorA).image ggufMagic)) grantNonzero).1.map
      fun f => f.tensorInfos.map TensorInfo.name) = some [[]] := by
  decide +kernel

end AevOS.Gguf
