import AevOS.ByteWire

/-! The block compressor and decompressor of `lib/lz4.c`. The decoder's read pointer is the unread suffix,
a write pointer the bytes written so far, also when the call fails. -/

namespace AevOS.Lz4
open Wire List
open Option (bind_some)
open UInt8 (ofNat toNat_ofNat')

def lz4HashLog : Nat := 12
def lz4MinMatch : Nat := 4
def lz4MaxInputSize : Nat := 0x7E000000
def lz4Hash (val : Nat) : Nat := val*2654435761%2^32/2^(32-lz4HashLog)

def read32 (p : Bytes) (i : Nat) : Nat :=
  leValue [byteAt p i,byteAt p (i+1),byteAt p (i+2),byteAt p (i+3)]

def write16Le (v : Nat) : Bytes := leBytes 2 v

def lz4Count (src : Bytes) (a b limit : Nat) : Nat :=
  if a < limit ∧ byteAt src a = byteAt src b then
    lz4Count src (a+1) (b+1) limit+1
  else 0
termination_by limit-a
decreasing_by omega

def lengthExtension (rem : Nat) : Bytes :=
  if 255 ≤ rem then 255 :: lengthExtension (rem-255) else [ofNat rem]
termination_by rem
decreasing_by omega

def lengthHeader (len : Nat) : Nat := if 15 ≤ len then 15 else len

def extendedLength (len : Nat) : Bytes :=
  if 15 ≤ len then lengthExtension (len-15) else []

def emitSequence (lits : Bytes) (offset matchLen : Nat) : Bytes :=
  ofNat (lengthHeader lits.length*16+lengthHeader (matchLen-lz4MinMatch)) ::
    (extendedLength lits.length ++ (lits ++ (write16Le offset ++
      extendedLength (matchLen-lz4MinMatch))))

def emitLast (lits : Bytes) : Bytes :=
  ofNat (lengthHeader lits.length*16) :: (extendedLength lits.length ++ lits)

abbrev HashTable := Nat → UInt16

def HashTable.set (htable : HashTable) (h pos : Nat) : HashTable :=
  fun k => if k = h then UInt16.ofNat pos else htable k

def finishBlock (src : Bytes) (dstCapacity anchor : Nat) (op : Bytes) : Int × Bytes :=
  let lastLit := src.length-anchor
  let worstLast := 1+lastLit/255+lastLit
  if dstCapacity < op.length+worstLast then (-1,op)
  else
    let op := op ++ emitLast (slice src anchor lastLit)
    (op.length,op)

def compressLoop (src : Bytes) (dstCapacity ip anchor : Nat) (htable : HashTable)
    (op : Bytes) : Int × Bytes :=
  if ip+lz4MinMatch < src.length then
    let h := lz4Hash (read32 src ip)
    let ref := (htable h).toNat
    let htable := htable.set h ip
    if 65535 < ip-ref ∨ read32 src ref ≠ read32 src ip then
      compressLoop src dstCapacity (ip+1) anchor htable op
    else
      let litLen := ip-anchor
      let matchLen := lz4MinMatch + lz4Count src (ip+lz4MinMatch) (ref+lz4MinMatch) src.length
      let worst := 1+litLen/255+litLen+2+matchLen/255+1
      if dstCapacity < op.length+worst then (-1,op)
      else
        let op := op ++ emitSequence (slice src anchor litLen) (ip-ref) matchLen
        let next := ip+matchLen
        let htable := if next+lz4MinMatch < src.length then
            htable.set (lz4Hash (read32 src next)) next
          else htable
        compressLoop src dstCapacity next next htable op
  else finishBlock src dstCapacity anchor op
termination_by src.length-ip
decreasing_by all_goals simp only [lz4MinMatch] at *; omega

def lz4Compress (src : Bytes) (dstCapacity : Nat) : Int × Bytes :=
  if src.length = 0 then (-1,[])
  else if lz4MaxInputSize < src.length then (-1,[])
  else compressLoop src dstCapacity 1 0 (fun _ => 0) []

def readExtension (len : Nat) : Bytes → Nat × Bytes
  | [] => (len,[])
  | b :: ip =>
    if b.toNat < 255 then (len+b.toNat,ip) else readExtension (len+b.toNat) ip

def readLength (nibble base : Nat) (ip : Bytes) : Nat × Bytes :=
  if nibble = 15 then readExtension (nibble+base) ip else (nibble+base,ip)

def copyOverlap (op : Bytes) (matchSrc : Nat) : Nat → Bytes
  | 0 => op
  | len+1 => copyOverlap (op ++ [byteAt op matchSrc]) (matchSrc+1) len

def copyMatch (op : Bytes) (offset matchLen : Nat) : Bytes :=
  if matchLen ≤ offset then op ++ slice op (op.length-offset) matchLen
  else copyOverlap op (op.length-offset) matchLen

theorem readExtension_length (len : Nat) (ip : Bytes) : (readExtension len ip).2.length ≤ ip.length := by
  induction ip generalizing len with
  | nil => simp [readExtension]
  | cons b ip ih =>
    unfold readExtension
    split
    · simp
    · have h := ih (len+b.toNat)
      simp only [length_cons]
      omega

theorem readLength_length (nibble base : Nat) (ip : Bytes) :
    (readLength nibble base ip).2.length ≤ ip.length := by
  unfold readLength
  split
  · exact readExtension_length _ _
  · exact le_refl _

inductive Turn where
  | again : Bytes → Bytes → Turn
  | stop : Int → Bytes → Turn

def decodeSequence (dstCapacity : Nat) (tok : UInt8) (ip op : Bytes) : Turn :=
  let lit := readLength (tok.toNat/16) 0 ip
  if lit.2.length < lit.1 ∨ dstCapacity < op.length+lit.1 then .stop (-1) op
  else
    let op := op ++ lit.2.take lit.1
    match lit.2.drop lit.1 with
    | [] => .stop op.length op
    | [_] => .stop (-1) op
    | lo :: hi :: ip =>
      let offset := leValue [lo,hi]
      if offset = 0 then .stop (-1) op
      else
        let mat := readLength (tok.toNat%16) lz4MinMatch ip
        if op.length < offset then .stop (-1) op
        else if dstCapacity < op.length+mat.1 then .stop (-1) op
        else .again mat.2 (copyMatch op offset mat.1)

variable {cap : Nat} {op : Bytes}

theorem decodeSequence_shrinks {tok : UInt8} {ip ip' op' : Bytes}
    (h : decodeSequence cap tok ip op = .again ip' op') : ip'.length ≤ ip.length := by
  have hl := readLength_length (tok.toNat/16) 0 ip
  unfold decodeSequence at h
  simp only at h
  split at h
  · cases h
  split at h
  · cases h
  · cases h
  rename_i lo hi rest hdr
  have hd := congrArg List.length hdr
  have hm := readLength_length (tok.toNat%16) lz4MinMatch rest
  simp only [length_drop,length_cons] at hd
  split at h
  · cases h
  split at h
  · cases h
  split at h
  · cases h
  cases h
  omega

def decompressLoop (dstCapacity : Nat) (ip op : Bytes) : Int × Bytes :=
  match ip with
  | [] => (op.length,op)
  | tok :: ip =>
    match _hturn : decodeSequence dstCapacity tok ip op with
    | .stop ret op => (ret,op)
    | .again ip op => decompressLoop dstCapacity ip op
termination_by ip.length
decreasing_by
  have hs := decodeSequence_shrinks _hturn
  simp only [length_cons]
  omega

theorem decompressLoop_cons (cap : Nat) (tok : UInt8) (ip op : Bytes) :
    decompressLoop cap (tok :: ip) op = match decodeSequence cap tok ip op with
      | .stop ret op => (ret,op)
      | .again ip op => decompressLoop cap ip op := by
  rw [decompressLoop]
  split <;> simp_all

def lz4Decompress (src : Bytes) (dstCapacity : Nat) : Int × Bytes :=
  decompressLoop dstCapacity src []

theorem copyOverlap_length (op : Bytes) (matchSrc len : Nat) :
    (copyOverlap op matchSrc len).length = op.length+len := by
  induction len generalizing op matchSrc with
  | zero => rfl
  | succ len ih =>
    rw [copyOverlap,ih,length_append,length_singleton]
    omega

theorem copyMatch_length_le (op : Bytes) (offset len : Nat) :
    (copyMatch op offset len).length ≤ op.length+len := by
  unfold copyMatch
  split
  · simp only [length_append,slice,length_take]
    omega
  · exact le_of_eq (copyOverlap_length _ _ _)

/-! `lz4_decompress` with its pointers as positions; `none` is an access outside, or a loop that has not
ended. -/

def readAt (src : Bytes) (i n : Nat) : Option Bytes :=
  if i+n ≤ src.length then some (slice src i n) else none

def writeAt (cap : Nat) (op bs : Bytes) : Option Bytes :=
  if op.length+bs.length ≤ cap then some (op ++ bs) else none

def extensionAt (src : Bytes) : Nat → Nat → Nat → Option (Nat × Nat)
  | 0, _, _ => none
  | n+1, len, i =>
    if i < src.length then
      (src[i]?).bind fun b =>
        if b.toNat < 255 then some (len+b.toNat,i+1) else extensionAt src n (len+b.toNat) (i+1)
    else some (len,i)

def lengthAt (src : Bytes) (nibble base i : Nat) : Option (Nat × Nat) :=
  if nibble = 15 then extensionAt src (src.length+1) (nibble+base) i else some (nibble+base,i)

def overlapAt (cap : Nat) : Nat → Bytes → Nat → Option Bytes
  | 0, op, _ => some op
  | n+1, op, m => (op[m]?).bind fun b => (writeAt cap op [b]).bind fun op => overlapAt cap n op (m+1)

def matchAt (cap : Nat) (op : Bytes) (offset len : Nat) : Option Bytes :=
  if len ≤ offset then (readAt op (op.length-offset) len).bind (writeAt cap op)
  else overlapAt cap len op (op.length-offset)

def decompressAt (src : Bytes) (cap : Nat) : Nat → Nat → Bytes → Option (Int × Bytes)
  | 0, _, _ => none
  | n+1, i, op =>
    if i < src.length then
      (src[i]?).bind fun tok => (lengthAt src (tok.toNat/16) 0 (i+1)).bind fun lit =>
      if src.length < lit.2+lit.1 ∨ cap < op.length+lit.1 then some (-1,op)
      else (readAt src lit.2 lit.1).bind fun bs => (writeAt cap op bs).bind fun op =>
        if src.length ≤ lit.2+lit.1 then some (op.length,op)
        else if src.length < lit.2+lit.1+2 then some (-1,op)
        else (readAt src (lit.2+lit.1) 2).bind fun w =>
          if leValue w = 0 then some (-1,op)
          else (lengthAt src (tok.toNat%16) lz4MinMatch (lit.2+lit.1+2)).bind fun mat =>
            if op.length < leValue w then some (-1,op)
            else if cap < op.length+mat.1 then some (-1,op)
            else (matchAt cap op (leValue w) mat.1).bind (decompressAt src cap n mat.2)
    else some (op.length,op)

variable {src op : Bytes} {cap n i len : Nat}

theorem extensionAt_eq (hi : i ≤ src.length) (hn : src.length-i < n) :
    ∃ m j, i ≤ j ∧ j ≤ src.length ∧ extensionAt src n len i = some (m,j) ∧
      readExtension len (src.drop i) = (m,src.drop j) := by
  induction n generalizing len i with
  | zero => omega
  | succ n ih =>
    by_cases h : i < src.length
    · rw [drop_eq_getElem_cons h]
      by_cases hb : src[i].toNat < 255
      · exact ⟨len+src[i].toNat,i+1,by omega,h,by simp [extensionAt,h,hb],
          by simp [readExtension,hb]⟩
      · obtain ⟨m,j,hj,hle,ha,hr⟩ := @ih (i+1) (len+src[i].toNat) h (by omega)
        exact ⟨m,j,by omega,hle,by simp [extensionAt,h,hb,ha],by simp [readExtension,hb,hr]⟩
    · refine ⟨len,i,le_rfl,hi,by simp [extensionAt,h],?_⟩
      rw [drop_eq_nil_of_le (by omega)]
      rfl

theorem lengthAt_eq (nibble base : Nat) (hi : i ≤ src.length) :
    ∃ m j, i ≤ j ∧ j ≤ src.length ∧ lengthAt src nibble base i = some (m,j) ∧
      readLength nibble base (src.drop i) = (m,src.drop j) := by
  unfold lengthAt readLength
  split
  · exact extensionAt_eq hi (by omega)
  · exact ⟨_,i,le_rfl,hi,rfl,rfl⟩

theorem overlapAt_eq {m : Nat} (hm : m < op.length) (hc : op.length+len ≤ cap) :
    overlapAt cap len op m = some (copyOverlap op m len) := by
  induction len generalizing op m with
  | zero => rfl
  | succ len ih =>
    have hw : writeAt cap op [op[m]] = some (op ++ [op[m]]) := if_pos (by simp; omega)
    rw [overlapAt,getElem?_eq_getElem hm,bind_some,hw,bind_some,copyOverlap,byteAt_of_lt hm]
    exact ih (by simp; omega) (by simp; omega)

theorem matchAt_eq {offset : Nat} (h0 : offset ≠ 0) (ho : offset ≤ op.length)
    (hc : op.length+len ≤ cap) : matchAt cap op offset len = some (copyMatch op offset len) := by
  unfold matchAt copyMatch
  split
  · have hr : op.length-offset+len ≤ op.length := by omega
    rw [readAt,if_pos hr,bind_some,writeAt,if_pos (by rwa [slice_length hr])]
  · exact overlapAt_eq (by omega) hc

theorem decompressAt_loop (hi : i ≤ src.length) (hn : src.length-i < n) (hop : op.length ≤ cap) :
    ∃ r, decompressAt src cap n i op = some r ∧ decompressLoop cap (src.drop i) op = r ∧
      r.2.length ≤ cap ∧ (r.1 = -1 ∨ r.1 = r.2.length) := by
  induction n generalizing i op with
  | zero => omega
  | succ n ih =>
    unfold decompressAt
    by_cases h : i < src.length
    swap
    · rw [if_neg h,drop_eq_nil_of_le (by omega),decompressLoop]
      exact ⟨_,rfl,rfl,hop,.inr rfl⟩
    obtain ⟨m,j,hij,hj,ha,hr⟩ := lengthAt_eq (src[i].toNat/16) 0 (show i+1 ≤ src.length from h)
    rw [if_pos h,getElem?_eq_getElem h,bind_some,ha,bind_some,drop_eq_getElem_cons h,
      decompressLoop_cons,decodeSequence,hr]
    dsimp only
    rw [length_drop,drop_drop]
    by_cases hlit : src.length < j+m ∨ cap < op.length+m
    · rw [if_pos hlit,if_pos (by omega)]
      exact ⟨_,rfl,rfl,hop,.inl rfl⟩
    have hs : (slice src j m).length = m := slice_length (by omega)
    rw [if_neg hlit,if_neg (by omega),readAt,if_pos (by omega),bind_some,writeAt,
      if_pos (by omega),bind_some,← slice]
    have hop' : (op ++ slice src j m).length ≤ cap := by
      rw [length_append]
      omega
    generalize op ++ slice src j m = op at hop' ⊢
    by_cases h0 : src.length ≤ j+m
    · rw [if_pos h0,drop_eq_nil_of_le h0]
      exact ⟨_,rfl,rfl,hop',.inr rfl⟩
    rw [if_neg h0,drop_eq_getElem_cons (show j+m < src.length by omega)]
    by_cases h1 : src.length < j+m+2
    · rw [if_pos h1,drop_eq_nil_of_le (by omega)]
      exact ⟨_,rfl,rfl,hop',.inl rfl⟩
    have h2 : j+m+1 < src.length := by omega
    have hw : slice src (j+m) 2 = [src[j+m],src[j+m+1]] := by
      rw [slice,drop_eq_getElem_cons (by omega),drop_eq_getElem_cons h2]
      rfl
    rw [if_neg h1,readAt,if_pos (by omega),bind_some,drop_eq_getElem_cons h2,hw]
    dsimp only
    by_cases hz : leValue [src[j+m],src[j+m+1]] = 0
    · rw [if_pos hz,if_pos hz]
      exact ⟨_,rfl,rfl,hop',.inl rfl⟩
    obtain ⟨k,l,hl,hle,hb,hq⟩ :=
      lengthAt_eq (src[i].toNat%16) lz4MinMatch (show j+m+2 ≤ src.length by omega)
    rw [if_neg hz,if_neg hz,hb,bind_some,hq]
    split
    · exact ⟨_,rfl,rfl,hop',.inl rfl⟩
    split
    · exact ⟨_,rfl,rfl,hop',.inl rfl⟩
    rw [matchAt_eq hz (by omega) (by omega),bind_some]
    exact ih hle (by omega) ((copyMatch_length_le _ _ _).trans (by omega))

theorem lz4Decompress_at (src : Bytes) (cap : Nat) :
    ∃ r, decompressAt src cap (src.length+1) 0 [] = some r ∧ lz4Decompress src cap = r ∧
      r.2.length ≤ cap ∧ (r.1 = -1 ∨ r.1 = r.2.length) :=
  decompressAt_loop (Nat.zero_le _) (by omega) (Nat.zero_le _)

theorem lz4Decompress_length_le (src : Bytes) (cap : Nat) : (lz4Decompress src cap).2.length ≤ cap := by
  obtain ⟨r,-,rfl,h,-⟩ := lz4Decompress_at src cap
  exact h

theorem lz4Decompress_inside (src : Bytes) (cap : Nat) :
    decompressAt src cap (src.length+1) 0 [] = some (lz4Decompress src cap) ∧
      (lz4Decompress src cap).2.length ≤ cap ∧
      ((lz4Decompress src cap).1 = -1 ∨
        (lz4Decompress src cap).1 = (lz4Decompress src cap).2.length) := by
  obtain ⟨r,ha,rfl,h⟩ := lz4Decompress_at src cap
  exact ⟨ha,h⟩

/-! What a block means to the decoder: sequences that rebuild a source from its own earlier bytes. -/

theorem readExtension_cons (len : Nat) (b : UInt8) (ip : Bytes) : readExtension len (b :: ip) =
      if b.toNat < 255 then (len+b.toNat,ip) else readExtension (len+b.toNat) ip := rfl

theorem readExtension_lengthExtension (acc rem : Nat) (rest : Bytes) :
    readExtension acc (lengthExtension rem ++ rest) = (acc+rem,rest) := by
  induction rem using Nat.strongRecOn generalizing acc with
  | ind rem ih =>
    unfold lengthExtension
    by_cases h : 255 ≤ rem
    · have hs := ih (rem-255) (by omega) (acc+255)
      have hb : UInt8.toNat 255 = 255 := rfl
      rw [if_pos h,cons_append,readExtension_cons,hb,if_neg (by omega),hs,
        show acc+255+(rem-255) = acc+rem by omega]
    have hr : (ofNat rem).toNat = rem := by
      rw [toNat_ofNat']
      omega
    rw [if_neg h,cons_append,nil_append,readExtension_cons,hr,if_pos (by omega)]

theorem readLength_written (len base : Nat) (rest : Bytes) :
    readLength (lengthHeader len) base (extendedLength len ++ rest) = (len+base,rest) := by
  unfold readLength lengthHeader extendedLength
  by_cases h : 15 ≤ len
  · simp only [h,↓reduceIte]
    rw [readExtension_lengthExtension]
    congr 1
    omega
  · simp only [h,↓reduceIte,nil_append]
    rw [if_neg (by omega)]

theorem lengthHeader_le (len : Nat) : lengthHeader len ≤ 15 := by
  unfold lengthHeader
  split <;> omega

variable {low anchor cap : Nat} {src op out : Bytes}

theorem token_high (len : Nat) (h : low ≤ 15) :
    (ofNat (lengthHeader len*16+low)).toNat/16 = lengthHeader len := by
  have hl := lengthHeader_le len
  rw [toNat_ofNat']
  omega

theorem token_low (len : Nat) (h : low ≤ 15) : (ofNat (lengthHeader len*16+low)).toNat%16 = low := by
  rw [toNat_ofNat']
  omega

section
variable (cap : Nat) (src lits op : Bytes) (low : Nat) (rest : Bytes)

theorem decodeSequence_literals (hlow : low ≤ 15) (hcap : op.length+lits.length ≤ cap) :
    decodeSequence cap (ofNat (lengthHeader lits.length*16+low))
        (extendedLength lits.length ++ (lits ++ rest)) op =
      match rest with
      | [] => .stop ((op ++ lits).length : Nat) (op ++ lits)
      | [_] => .stop (-1) (op ++ lits)
      | lo :: hi :: ip =>
        if leValue [lo,hi] = 0 then .stop (-1) (op ++ lits)
        else if (op ++ lits).length < leValue [lo,hi] then .stop (-1) (op ++ lits)
        else if cap < (op ++ lits).length+(readLength low lz4MinMatch ip).1 then
          .stop (-1) (op ++ lits)
        else .again (readLength low lz4MinMatch ip).2
          (copyMatch (op ++ lits) (leValue [lo,hi]) (readLength low lz4MinMatch ip).1) := by
  have hr := readLength_written lits.length 0 (lits ++ rest)
  unfold decodeSequence
  simp only [token_high _ hlow,token_low _ hlow,hr,add_zero]
  rw [if_neg (by simp only [length_append]; omega)]
  simp only [take_left,drop_left]
  rcases rest with _ | ⟨lo,_ | ⟨hi,ip⟩⟩ <;> rfl

theorem decodeSequence_short (hlow : low ≤ 15) (hcap : cap < op.length+lits.length) :
    decodeSequence cap (ofNat (lengthHeader lits.length*16+low))
      (extendedLength lits.length ++ (lits ++ rest)) op = .stop (-1) op := by
  have hr := readLength_written lits.length 0 (lits ++ rest)
  unfold decodeSequence
  simp only [token_high _ hlow,hr,add_zero]
  rw [if_pos (.inr hcap)]

theorem write16Le_eq (v : Nat) : write16Le v = [ofNat v,ofNat (v/256)] := rfl

theorem leValue_write16Le {v : Nat} (h : v ≤ 65535) : leValue [ofNat v,ofNat (v/256)] = v := by
  have hv := leValue_leBytes 2 v (by omega)
  simpa [leBytes] using hv

theorem emitSequence_append (offset matchLen : Nat) (rest : Bytes) :
    emitSequence lits offset matchLen ++ rest =
      ofNat (lengthHeader lits.length*16+lengthHeader (matchLen-lz4MinMatch)) ::
        (extendedLength lits.length ++ (lits ++ (ofNat offset ::
          ofNat (offset/256) :: (extendedLength (matchLen-lz4MinMatch) ++ rest)))) := by
  simp [emitSequence,write16Le_eq,append_assoc]

theorem decompressLoop_sequence (offset matchLen : Nat) (hpos : 0 < offset) (hoff : offset ≤ 65535)
    (hb : offset ≤ (op ++ lits).length) (hm : lz4MinMatch ≤ matchLen)
    (hcap : (op ++ lits).length+matchLen ≤ cap) :
    decompressLoop cap (emitSequence lits offset matchLen ++ rest) op =
      decompressLoop cap rest (copyMatch (op ++ lits) offset matchLen) := by
  have hr := readLength_written (matchLen-lz4MinMatch) lz4MinMatch rest
  have hl : op.length+lits.length ≤ cap := by
    simp only [length_append] at hcap
    omega
  rw [emitSequence_append,decompressLoop_cons,
    decodeSequence_literals _ _ _ _ _ (lengthHeader_le _) hl]
  simp only [leValue_write16Le hoff,hr,Nat.sub_add_cancel hm]
  rw [if_neg (by omega),if_neg (by omega),if_neg (by omega)]

theorem decompressLoop_sequence_short (offset matchLen : Nat) (hoff : offset ≤ 65535)
    (hm : lz4MinMatch ≤ matchLen) (hcap : cap < (op ++ lits).length+matchLen) :
    (decompressLoop cap (emitSequence lits offset matchLen ++ rest) op).1 = -1 := by
  have hr := readLength_written (matchLen-lz4MinMatch) lz4MinMatch rest
  rw [emitSequence_append,decompressLoop_cons]
  by_cases hl : op.length+lits.length ≤ cap
  · rw [decodeSequence_literals _ _ _ _ _ (lengthHeader_le _) hl]
    simp only [leValue_write16Le hoff,hr,Nat.sub_add_cancel hm]
    rw [if_pos hcap]
    by_cases hz : offset = 0
    · rw [if_pos hz]
    rw [if_neg hz]
    by_cases hb : (op ++ lits).length < offset
    · rw [if_pos hb]
    · rw [if_neg hb]
  · rw [decodeSequence_short _ _ _ _ _ (lengthHeader_le _) (by omega)]

theorem decompressLoop_sequence_zero (matchLen : Nat) :
    (decompressLoop cap (emitSequence lits 0 matchLen ++ rest) op).1 = -1 := by
  rw [emitSequence_append,decompressLoop_cons]
  by_cases hl : op.length+lits.length ≤ cap
  · rw [decodeSequence_literals _ _ _ _ _ (lengthHeader_le _) hl]
    simp [leValue]
  · rw [decodeSequence_short _ _ _ _ _ (lengthHeader_le _) (by omega)]

theorem decompressLoop_last (hcap : (op ++ lits).length ≤ cap) :
    decompressLoop cap (emitLast lits) op = (((op ++ lits).length : Int),op ++ lits) := by
  have h := decodeSequence_literals cap lits op 0 [] (by omega) (by simpa using hcap)
  simp only [add_zero,append_nil] at h
  rw [emitLast,decompressLoop_cons,h]

theorem decompressLoop_last_short (hcap : cap < (op ++ lits).length) :
    (decompressLoop cap (emitLast lits) op).1 = -1 := by
  have h := decodeSequence_short cap lits op 0 [] (by omega) (by simpa using hcap)
  simp only [add_zero,append_nil] at h
  rw [emitLast,decompressLoop_cons,h]

theorem copyOverlap_take (len pos ref : Nat) (href : ref < pos) (hend : pos+len ≤ src.length)
    (heq : ∀ k, k < len → byteAt src (ref+k) = byteAt src (pos+k)) :
    copyOverlap (src.take pos) ref len = src.take (pos+len) := by
  induction len generalizing pos ref with
  | zero => rfl
  | succ len ih =>
    have hb : byteAt (src.take pos) ref = byteAt src pos := by
      rw [byteAt_take href]
      simpa using heq 0 (by omega)
    have hn := ih (pos+1) (ref+1) (by omega) (by omega) (fun k hk => by
      have h := heq (k+1) (by omega)
      rw [show ref+1+k = ref+(k+1) by omega,show pos+1+k = pos+(k+1) by omega]
      exact h)
    rw [copyOverlap,hb,← take_succ_byteAt (by omega),hn]
    congr 1
    omega

theorem slice_eq_copyOverlap (ref len : Nat) (h : ref+len ≤ op.length) :
    op ++ slice op ref len = copyOverlap op ref len := by
  induction len generalizing op ref with
  | zero => simp [slice,copyOverlap]
  | succ len ih =>
    have hs := ih (op ++ [byteAt op ref]) (ref+1) (by simp; omega)
    have hlt : ref < op.length := by omega
    have hsl : slice op ref (len+1) = byteAt op ref :: slice op (ref+1) len := by
      rw [slice,drop_eq_getElem_cons hlt,take_succ_cons,slice,byteAt_of_lt hlt]
    have hsm : slice (op ++ [byteAt op ref]) (ref+1) len = slice op (ref+1) len := by
      simp only [slice]
      rw [drop_append_of_le_length (by omega),take_append_of_le_length]
      simp
      omega
    rw [copyOverlap,← hs,hsm,hsl]
    simp

theorem copyMatch_take (pos ref len : Nat) (href : ref < pos) (hend : pos+len ≤ src.length)
    (heq : ∀ k, k < len → byteAt src (ref+k) = byteAt src (pos+k)) :
    copyMatch (src.take pos) (pos-ref) len = src.take (pos+len) := by
  have hlen : (src.take pos).length = pos := by
    simp
    omega
  have hsub : pos-(pos-ref) = ref := by omega
  unfold copyMatch
  rw [hlen,hsub]
  split
  · rw [slice_eq_copyOverlap _ _ _ (by rw [hlen]; omega)]
    exact copyOverlap_take src len pos ref href hend heq
  · exact copyOverlap_take src len pos ref href hend heq

end

inductive Encodes (src : Bytes) : Nat → Bytes → Prop where
  | start : Encodes src 0 []
  | sequence {anchor : Nat} {op : Bytes} (ip ref matchLen : Nat) :
      Encodes src anchor op → anchor ≤ ip → ref < ip → ip-ref ≤ 65535 →
      lz4MinMatch ≤ matchLen → ip+matchLen ≤ src.length →
      (∀ k, k < matchLen → byteAt src (ref+k) = byteAt src (ip+k)) →
      Encodes src (ip+matchLen)
        (op ++ emitSequence (slice src anchor (ip-anchor)) (ip-ref) matchLen)

theorem Encodes.decode (h : Encodes src anchor op) (cap : Nat) (hcap : anchor ≤ cap) (rest : Bytes) :
    decompressLoop cap (op ++ rest) [] = decompressLoop cap rest (src.take anchor) := by
  induction h generalizing rest with
  | start => simp
  | @sequence anchor op ip ref matchLen hp hip href hd hmin hend heq ih =>
    have hl : src.take anchor ++ slice src anchor (ip-anchor) = src.take ip := by
      rw [take_append_slice]
      congr 1
      omega
    have hlen : (src.take ip).length = ip := by
      simp
      omega
    rw [append_assoc,ih (by omega),decompressLoop_sequence cap _ _ _ _ _ (by omega)
      hd (by rw [hl,hlen]; omega) hmin (by rw [hl,hlen]; omega),hl,
      copyMatch_take src ip ref matchLen href hend heq]

theorem Encodes.decode_short (h : Encodes src anchor op) (cap : Nat) (hcap : cap < anchor)
    (rest : Bytes) : (decompressLoop cap (op ++ rest) []).1 = -1 := by
  induction h generalizing rest with
  | start => omega
  | @sequence anchor op ip ref matchLen hp hip href hd hmin hend heq ih =>
    rw [append_assoc]
    by_cases hc : anchor ≤ cap
    · have hl : src.take anchor ++ slice src anchor (ip-anchor) = src.take ip := by
        rw [take_append_slice]
        congr 1
        omega
      rw [hp.decode cap hc]
      apply decompressLoop_sequence_short cap _ _ _ _ _ hd hmin
      rw [hl]
      simp
      omega
    · exact ih (by omega) _

theorem Encodes.anchor_le (h : Encodes src anchor op) : anchor ≤ src.length := by
  cases h with
  | start => exact Nat.zero_le _
  | sequence ip ref matchLen hp hip href hd hmin hend heq => exact hend

theorem Encodes.whole (h : Encodes src anchor op) :
    src.take anchor ++ slice src anchor (src.length-anchor) = src := by
  have ha := h.anchor_le
  rw [take_append_slice,show anchor+(src.length-anchor) = src.length by omega,take_length]

def BlockOf (src out : Bytes) : Prop :=
  ∃ anchor op, Encodes src anchor op ∧ out = op ++ emitLast (slice src anchor (src.length-anchor))

def SelfReferent (src out : Bytes) : Prop :=
  ∃ anchor op matchLen rest, Encodes src anchor op ∧
    out = op ++ (emitSequence [] 0 matchLen ++ rest)

theorem BlockOf.decompress (h : BlockOf src out) (hcap : src.length ≤ cap) :
    lz4Decompress out cap = ((src.length : Int),src) := by
  obtain ⟨anchor,op,henc,rfl⟩ := h
  rw [lz4Decompress,henc.decode cap (henc.anchor_le.trans hcap),
    decompressLoop_last cap _ _ (by rw [henc.whole]; exact hcap),henc.whole]

theorem BlockOf.decompress_short (h : BlockOf src out) (hcap : cap < src.length) :
    (lz4Decompress out cap).1 = -1 := by
  obtain ⟨anchor,op,henc,rfl⟩ := h
  rw [lz4Decompress]
  by_cases hc : anchor ≤ cap
  · rw [henc.decode cap hc]
    exact decompressLoop_last_short cap _ _ (by rw [henc.whole]; exact hcap)
  · exact henc.decode_short cap (by omega) _

theorem SelfReferent.decompress (h : SelfReferent src out) (cap : Nat) : (lz4Decompress out cap).1 = -1 := by
  obtain ⟨anchor,op,matchLen,rest,henc,rfl⟩ := h
  rw [lz4Decompress]
  by_cases hc : anchor ≤ cap
  · rw [henc.decode cap hc]
    exact decompressLoop_sequence_zero cap _ _ _ _
  · exact henc.decode_short cap (by omega) _

end AevOS.Lz4
