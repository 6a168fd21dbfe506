import AevOS.HistoryRing

/-! `history_serialize` and `history_deserialize`. Every read of the image goes
through `fetch`, which fails outside of it. -/

namespace AevOS.Hist
open RingWindow Slab BpTree Wire
open UInt32 (ofNat toNat_inj toNat_add toNat_one toNat_ofNat' toNat_sub toNat_zero ofNat_toNat)
open Option (bind_eq_bind bind_some)

def histSerialMagic : Nat := 0x48495354
def histSerialMagicV2 : Nat := 0x32534948
def storedBytes (m : Heap) (e : HistEntry) : Bytes := load m e.data e.dataLen.toNat

def serializeEntry (m : Heap) (e : HistEntry) : Bytes :=
  leBytes 8 e.timestamp.toNat ++ leBytes 8 e.seq.toNat ++ [e.role] ++
    leBytes 4 e.tokenCount.toNat ++ leBytes 4 e.rawLen.toNat ++ leBytes 4 e.dataLen.toNat ++
    if e.data ≠ 0 ∧ 0 < e.dataLen then storedBytes m e else []

def serializeHeader (h : History) : Bytes :=
  leBytes 4 histSerialMagicV2 ++ leBytes 4 (historyCount h).toNat ++
    leBytes 4 h.maxTokens.toNat ++ leBytes 4 h.windowTokens.toNat ++
    leBytes 8 h.nextSeq.toNat

def entryAt (h : History) (i : Nat) : HistEntry :=
  h.ring (slotOf (h.tail+ofNat i))

def serializeNeeded (h : History) : Nat :=
  (List.range (historyCount h).toNat).foldl
    (fun needed i => needed+(29+(entryAt h i).dataLen.toNat)) 24

def historySerialize (w : World) (size : Nat) : Int × Bytes :=
  if size < serializeNeeded w.hist then (serializeNeeded w.hist,[])
  else
    let out := (List.range (historyCount w.hist).toNat).foldl
      (fun out i => out ++ serializeEntry w.heap (entryAt w.hist i)) (serializeHeader w.hist)
    (out.length,out)

def fetch (buf : Bytes) (p n : Nat) : Option Bytes :=
  if p+n ≤ buf.length then some (slice buf p n) else none

structure Record where
  timestamp : UInt64
  seq : UInt64
  role : UInt8
  tokenCount : UInt32
  rawLen : UInt32
  dataLen : UInt32
  data : Bytes
  deriving DecidableEq

def seqWidth (v2 : Bool) : Nat := if v2 then 8 else 0

def readRecord (v2 : Bool) (buf : Bytes) (p : Nat) : Option (Option (Record × Nat)) :=
  if buf.length < p+(21+seqWidth v2) then some none
  else do
    let ts ← fetch buf p 8
    let seq ← fetch buf (p+8) (seqWidth v2)
    let q := p+8+seqWidth v2
    let role ← fetch buf q 1
    let tokCnt ← fetch buf (q+1) 4
    let rawLen ← fetch buf (q+5) 4
    let dataLen ← fetch buf (q+9) 4
    if buf.length < q+13+leValue dataLen then some none
    else do
      let data ← fetch buf (q+13) (leValue dataLen)
      some (some (⟨UInt64.ofNat (leValue ts),UInt64.ofNat (leValue seq),byteAt role 0,
          ofNat (leValue tokCnt),ofNat (leValue rawLen),
          ofNat (leValue dataLen),data⟩,q+13+leValue dataLen))

def allocRecord (m : Heap) (r : Record) (pick : Addr) : Addr × Heap :=
  let a := kmalloc m r.dataLen.toNat pick
  (a.1,if a.1 ≠ 0 ∧ 0 < r.dataLen then store a.2 a.1 r.data else a.2)

def acceptRecord (grant : Nat → Bool) (v2 : Bool) (pick : Addr) (w : World) (r : Record) : World :=
  let m := (entryFree w.heap (w.hist.ring (slotOf w.hist.head))).1
  let a := allocRecord m r pick
  let seq := if v2 then r.seq else w.hist.nextSeq
  let nextSeq := if v2 then w.hist.nextSeq else w.hist.nextSeq+1
  ⟨a.2,placeEntry grant { w.hist with nextSeq := nextSeq }
    ⟨r.timestamp,seq,r.role,r.tokenCount,a.1,r.dataLen,r.rawLen⟩⟩

def deserializeLoop (grant : Nat → Bool) (pick : Nat → Addr) (v2 : Bool) (buf : Bytes) :
    Nat → Nat → Nat → World → Option World
  | 0, _, _, w => some w
  | n+1, i, p, w =>
    match readRecord v2 buf p with
    | none => none
    | some none => some w
    | some (some r) =>
      deserializeLoop grant pick v2 buf n (i+1) r.2 (acceptRecord grant v2 (pick i) w r.1)

def openImage (w : World) (maxTokens : UInt32) : World :=
  let w := historyClear w
  { w with hist := { w.hist with maxTokens := maxTokens } }

def historyDeserialize (grant : Nat → Bool) (pick : Nat → Addr) (buf : Bytes) (w : World) :
    Option (Int × World) :=
  if buf.length < 16 then some (-einval,w)
  else do
    let magic ← fetch buf 0 4
    if leValue magic ≠ histSerialMagic ∧ leValue magic ≠ histSerialMagicV2 then
      some (-einval,w)
    else do
      let count ← fetch buf 4 4
      let maxTok ← fetch buf 8 4
      let _winTok ← fetch buf 12 4
      let w := openImage w (ofNat (leValue maxTok))
      if leValue magic = histSerialMagicV2 then
        if buf.length < 16+8 then some (-einval,w)
        else do
          let nextSeq ← fetch buf 16 8
          let w := { w with hist := { w.hist with nextSeq := UInt64.ofNat (leValue nextSeq) } }
          let w ← deserializeLoop grant pick true buf (leValue count) 0 24 w
          some (0,w)
      else do
        let w ← deserializeLoop grant pick false buf (leValue count) 0 16 w
        some (0,w)

variable {buf : Bytes}

section
variable (grant : Nat → Bool) (pick : Nat → Addr) (w : World)

theorem fetch_of_le {p n : Nat} (h : p+n ≤ buf.length) :
    fetch buf p n = some (slice buf p n) := if_pos h

def records (v2 : Bool) (buf : Bytes) : Nat → Nat → List Record
  | 0, _ => []
  | n+1, p =>
    match readRecord v2 buf p with
    | some (some r) => r.1 :: records v2 buf n r.2
    | _ => []

def recordAt (v2 : Bool) (buf : Bytes) (p : Nat) : Record :=
  let q := p+8+seqWidth v2
  let dataLen := leValue (slice buf (q+9) 4)
  ⟨UInt64.ofNat (leValue (slice buf p 8)),UInt64.ofNat (leValue (slice buf (p+8) (seqWidth v2))),
    byteAt (slice buf q 1) 0,ofNat (leValue (slice buf (q+1) 4)),
    ofNat (leValue (slice buf (q+5) 4)),ofNat dataLen,slice buf (q+13) dataLen⟩

def recordEnd (v2 : Bool) (buf : Bytes) (p : Nat) : Nat :=
  p+8+seqWidth v2+13+leValue (slice buf (p+8+seqWidth v2+9) 4)

theorem readRecord_eq (v2 : Bool) (buf : Bytes) (p : Nat) : readRecord v2 buf p =
    if p+(21+seqWidth v2) ≤ buf.length ∧ recordEnd v2 buf p ≤ buf.length then
      some (some (recordAt v2 buf p,recordEnd v2 buf p)) else some none := by
  unfold readRecord
  by_cases hlen : buf.length < p+(21+seqWidth v2)
  · rw [if_pos hlen,if_neg (by omega)]
  rw [if_neg hlen,fetch_of_le (by omega),fetch_of_le (by omega)]
  simp only [bind_eq_bind,bind_some]
  rw [fetch_of_le (by omega),fetch_of_le (by omega),fetch_of_le (by omega),fetch_of_le (by omega)]
  simp only [bind_some]
  rw [show p+8+seqWidth v2+13+leValue (slice buf (p+8+seqWidth v2+9) 4) =
    recordEnd v2 buf p from rfl]
  by_cases hd : recordEnd v2 buf p ≤ buf.length
  · rw [if_neg (Nat.not_lt.mpr hd),if_pos ⟨by omega,hd⟩,fetch_of_le hd]
    rfl
  · rw [if_pos (Nat.not_le.mp hd),if_neg (by omega)]

def acceptAll (grant : Nat → Bool) (v2 : Bool) (pick : Nat → Addr) :
    Nat → World → List Record → World
  | _, w, [] => w
  | i, w, r :: rs => acceptAll grant v2 pick (i+1) (acceptRecord grant v2 (pick i) w r) rs

theorem deserializeLoop_eq (v2 : Bool) (buf : Bytes) (n i p : Nat) (w : World) :
    deserializeLoop grant pick v2 buf n i p w = some (acceptAll grant v2 pick i w (records v2 buf n p)) := by
  induction n generalizing i p w with
  | zero => rfl
  | succ n ih =>
    unfold deserializeLoop records
    rw [readRecord_eq]
    by_cases hc : p+(21+seqWidth v2) ≤ buf.length ∧ recordEnd v2 buf p ≤ buf.length
    · simp only [if_pos hc]
      exact ih _ _ _
    · simp only [if_neg hc]
      rfl

def imageMagic (buf : Bytes) : Nat := leValue (slice buf 0 4)
def imageIsV2 (buf : Bytes) : Bool := imageMagic buf = histSerialMagicV2

def HeaderOk (buf : Bytes) : Prop :=
  16 ≤ buf.length ∧
    (imageMagic buf = histSerialMagic ∨ imageMagic buf = histSerialMagicV2 ∧ 24 ≤ buf.length)
  deriving Decidable

def imageRecords (buf : Bytes) : List Record :=
  records (imageIsV2 buf) buf (leValue (slice buf 4 4)) (if imageIsV2 buf then 24 else 16)

def imageBase (buf : Bytes) (w : World) : World :=
  let w := openImage w (ofNat (leValue (slice buf 8 4)))
  if imageIsV2 buf then
    { w with hist := { w.hist with nextSeq := UInt64.ofNat (leValue (slice buf 16 8)) } }
  else w

theorem historyDeserialize_ok (h : HeaderOk buf) : historyDeserialize grant pick buf w =
    some (0,acceptAll grant (imageIsV2 buf) pick 0 (imageBase buf w) (imageRecords buf)) := by
  obtain ⟨hlen,hm⟩ := h
  unfold historyDeserialize
  rw [if_neg (by omega),fetch_of_le (by omega)]
  simp only [bind_eq_bind,bind_some]
  rw [fetch_of_le (by omega),fetch_of_le (by omega),fetch_of_le (by omega)]
  simp only [bind_some,deserializeLoop_eq]
  rcases hm with h1 | ⟨h2,hl'⟩
  · have hv : imageIsV2 buf = false := by
      rw [imageIsV2,h1]
      decide
    unfold imageMagic at h1
    rw [if_neg (by tauto),if_neg (by rw [h1]; decide)]
    simp only [imageBase,imageRecords,hv]
    rfl
  have hv : imageIsV2 buf = true := by
    rw [imageIsV2,h2]
    decide
  unfold imageMagic at h2
  rw [if_neg (by tauto),if_pos h2,if_neg (by omega),fetch_of_le (by omega)]
  simp only [imageBase,imageRecords,hv,bind_some]
  rfl

theorem historyDeserialize_bad (h : ¬ HeaderOk buf) :
    ∃ w', historyDeserialize grant pick buf w = some (-einval,w') := by
  unfold historyDeserialize
  by_cases hlen : buf.length < 16
  · rw [if_pos hlen]
    exact ⟨w,rfl⟩
  rw [if_neg hlen,fetch_of_le (by omega)]
  simp only [bind_eq_bind,bind_some]
  rw [fetch_of_le (by omega),fetch_of_le (by omega),fetch_of_le (by omega)]
  simp only [bind_some]
  by_cases h1 : leValue (slice buf 0 4) = histSerialMagic
  · exact absurd ⟨by omega,.inl h1⟩ h
  by_cases h2 : leValue (slice buf 0 4) = histSerialMagicV2
  · have hs : buf.length < 16+8 := by
      by_contra hge
      exact h ⟨by omega,.inr ⟨h2,by omega⟩⟩
    rw [if_neg (by tauto),if_pos h2,if_pos hs]
    exact ⟨_,rfl⟩
  · rw [if_pos ⟨h1,h2⟩]
    exact ⟨w,rfl⟩

end

open List

def recordTokens (rs : List Record) : Nat := (rs.map (fun r => r.tokenCount.toNat)).sum

section
variable (grant : Nat → Bool) (v2 : Bool) (pick : Nat → Addr)

theorem acceptAll_counters (i : Nat) (w : World) (rs : List Record) :
    (acceptAll grant v2 pick i w rs).hist.tail = w.hist.tail ∧
      (acceptAll grant v2 pick i w rs).hist.head = w.hist.head+ofNat rs.length ∧
      (acceptAll grant v2 pick i w rs).hist.windowTokens =
        w.hist.windowTokens+ofNat (recordTokens rs) := by
  induction rs generalizing i w with
  | nil =>
    refine ⟨rfl,?_,?_⟩
    · exact (UInt32.add_zero _).symm
    · exact (UInt32.add_zero _).symm
  | cons r rs ih =>
    obtain ⟨h1,h2,h3⟩ := ih (i+1) (acceptRecord grant v2 (pick i) w r)
    refine ⟨h1,h2.trans ?_,h3.trans ?_⟩
    · simp only [acceptRecord,placeEntry,length_cons]
      apply toNat_inj.mp
      simp only [toNat_add,toNat_one,toNat_ofNat']
      omega
    simp only [acceptRecord,placeEntry,recordTokens,map_cons,sum_cons]
    apply toNat_inj.mp
    simp only [toNat_add,toNat_ofNat']
    omega

theorem acceptRecord_tokens {w : World} (p : Addr) (r : Record)
    (hn : (historyCount w.hist).toNat < histRingSize) :
    (historyCount (acceptRecord grant v2 p w r).hist).toNat = (historyCount w.hist).toNat+1 ∧
      tokens (live (acceptRecord grant v2 p w r).hist) = tokens (live w.hist)+r.tokenCount.toNat := by
  refine ⟨placeEntry_count grant _ hn,?_⟩
  have hl := live_placeEntry grant (h := { w.hist with
    nextSeq := if v2 then w.hist.nextSeq else w.hist.nextSeq+1 })
    ⟨r.timestamp,if v2 then r.seq else w.hist.nextSeq,r.role,r.tokenCount,
      (allocRecord (entryFree w.heap (w.hist.ring (slotOf w.hist.head))).1 r p).1,
      r.dataLen,r.rawLen⟩ hn
  simp only [acceptRecord,hl,tokens_append,tokens_cons,tokens_nil]
  rfl

theorem acceptAll_tokens (i : Nat) (w : World) (rs : List Record)
    (hn : (historyCount w.hist).toNat+rs.length ≤ histRingSize) :
    tokens (live (acceptAll grant v2 pick i w rs).hist) = tokens (live w.hist)+recordTokens rs := by
  induction rs generalizing i w with
  | nil => rfl
  | cons r rs ih =>
    rw [length_cons] at hn
    obtain ⟨hc,htok⟩ := acceptRecord_tokens grant v2 (pick i) r
      (show (historyCount w.hist).toNat < histRingSize by omega)
    rw [acceptAll,ih _ _ (by omega),htok]
    simp only [recordTokens,map_cons,sum_cons]
    omega

end

theorem records_length (v2 : Bool) (buf : Bytes) (n p : Nat) : (records v2 buf n p).length ≤ n := by
  induction n generalizing p with
  | zero => exact Nat.le_refl 0
  | succ n ih =>
    unfold records
    split
    · exact Nat.succ_le_succ (ih _)
    · exact Nat.zero_le _

structure RingShape (h : History) : Prop where
  count : (live h).length ≤ histRingSize
  slots : ∀ i j, i < j → j < (live h).length → slotOf (h.tail+ofNat i) ≠ slotOf (h.tail+ofNat j)
  window : h.windowTokens.toNat = ((live h).map (fun e => e.tokenCount.toNat)).sum

theorem ringShape_iff {h : History} : RingShape h ↔ (historyCount h).toNat ≤ histRingSize ∧
    h.windowTokens.toNat = tokens (live h) := by
  constructor
  · intro hr
    exact ⟨live_length h ▸ hr.count,hr.window⟩
  rintro ⟨hc,hw⟩
  refine ⟨live_length h ▸ hc,?_,hw⟩
  intro i j hij hj
  rw [live_length] at hj
  rw [slotOf_add,slotOf_add]
  exact slot_ne hij (by omega)

/-- An accepted image has no more entries than the ring and its tokens fit a counter. -/
def Loadable (buf : Bytes) : Prop :=
  HeaderOk buf → (imageRecords buf).length ≤ histRingSize ∧ recordTokens (imageRecords buf) < 2^32

theorem imageBase_empty (buf : Bytes) (w : World) :
    (imageBase buf w).hist.head = 0 ∧ (imageBase buf w).hist.tail = 0 ∧
      (imageBase buf w).hist.windowTokens = 0 := by
  unfold imageBase
  split <;> exact ⟨rfl,rfl,rfl⟩

theorem acceptAll_ringShape (grant : Nat → Bool) (pick : Nat → Addr) (buf : Bytes) (w : World) :
    RingShape (acceptAll grant (imageIsV2 buf) pick 0 (imageBase buf w) (imageRecords buf)).hist ↔
      (imageRecords buf).length ≤ histRingSize ∧ recordTokens (imageRecords buf) < 2^32 := by
  obtain ⟨hh,ht,hw⟩ := imageBase_empty buf w
  obtain ⟨htl,hhd,hwin⟩ := acceptAll_counters grant (imageIsV2 buf) pick 0 (imageBase buf w)
    (imageRecords buf)
  have hlen : (imageRecords buf).length < 2^32 := by
    have h1 := records_length (imageIsV2 buf) buf (leValue (slice buf 4 4))
      (if imageIsV2 buf then 24 else 16)
    have h2 := leValue_lt (slice buf 4 4)
    have h3 : (slice buf 4 4).length ≤ 4 := by
      simp only [slice,length_take]
      omega
    have h4 := Nat.pow_le_pow_right (show 0 < 256 by omega) h3
    unfold imageRecords
    omega
  have hc : (historyCount (acceptAll grant (imageIsV2 buf) pick 0 (imageBase buf w)
      (imageRecords buf)).hist).toNat = (imageRecords buf).length := by
    rw [historyCount,htl,hhd,hh,ht]
    simp only [toNat_sub,toNat_add,toNat_zero,toNat_ofNat']
    omega
  have hb : (historyCount (imageBase buf w).hist).toNat = 0 := by
    rw [historyCount,hh,ht]
    rfl
  rw [ringShape_iff,hc]
  refine and_congr_right (fun hle => ?_)
  have hl := live_eq_nil (hh.trans ht.symm)
  rw [acceptAll_tokens _ _ _ _ _ _ (by omega),hl,hwin,hw]
  simp only [tokens_nil,toNat_add,toNat_zero,toNat_ofNat']
  omega

theorem historyDeserialize_ringShape_iff (grant : Nat → Bool) (pick : Nat → Addr)
    (buf : Bytes) (w : World) :
    ∃ rc w', historyDeserialize grant pick buf w = some (rc,w') ∧
      ((rc = 0 → RingShape w'.hist) ↔ Loadable buf) := by
  by_cases hh : HeaderOk buf
  · refine ⟨0,_,historyDeserialize_ok grant pick w hh,?_⟩
    have hiff := acceptAll_ringShape grant pick buf w
    exact ⟨fun hr _ => hiff.mp (hr rfl),fun hl _ => hiff.mpr (hl hh)⟩
  · obtain ⟨w',hbad⟩ := historyDeserialize_bad grant pick w hh
    exact ⟨-einval,w',hbad,fun _ hok => absurd hok hh,fun _ hrc => absurd hrc (by decide)⟩

theorem leValue_replicate_zero (n : Nat) : leValue (replicate n 0) = 0 := by
  induction n with
  | zero => rfl
  | succ n ih => simp [replicate_succ,leValue,ih]

theorem records_replicate_zero {hd : Bytes} {K n p : Nat} (hp : hd.length ≤ p)
    (hr : p+21*n ≤ hd.length+K) : (records false (hd ++ replicate K 0) n p).length = n := by
  induction n generalizing p with
  | zero => rfl
  | succ n ih =>
    have hend : recordEnd false (hd ++ replicate K 0) p = p+21 := by
      simp only [recordEnd,seqWidth]
      rw [slice_append_right _ _ (by omega),slice,drop_replicate,take_replicate,
        leValue_replicate_zero]
      rfl
    have hlen : (hd ++ replicate K 0).length = hd.length+K := by simp
    rw [records,readRecord_eq,if_pos ⟨by rw [hlen]; simp [seqWidth]; omega,by rw [hlen,hend]; omega⟩]
    simp only [hend,length_cons]
    rw [ih (by omega) (by omega)]

def overfullHeader : Bytes := leBytes 4 histSerialMagic ++ leBytes 4 4097 ++ leBytes 8 0

theorem historyDeserialize_overfull : ∃ w', historyDeserialize (fun _ => true) (fun _ => 0)
      (overfullHeader ++ List.replicate (21*4097) 0)
      ⟨⟨fun _ => false,fun _ => 0,fun _ _ => 0⟩,historyInit 100⟩ = some (0,w') ∧
    ¬ RingShape w'.hist := by
  have hlen : overfullHeader.length = 16 := rfl
  have hmagic : imageMagic (overfullHeader ++ replicate (21*4097) 0) = histSerialMagic := by
    decide +kernel
  refine ⟨_,historyDeserialize_ok _ _ _ ⟨?_,.inl hmagic⟩,?_⟩
  · rw [length_append,hlen]
    omega
  rw [acceptAll_ringShape]
  rintro ⟨hle,-⟩
  have hcount : leValue (slice (overfullHeader ++ replicate (21*4097) 0) 4 4) = 4097 := by
    decide +kernel
  rw [imageRecords,hcount,imageIsV2,hmagic,decide_eq_false (by decide),if_neg (by decide),
    records_replicate_zero (le_of_eq hlen) (by omega)] at hle
  exact absurd hle (by decide)

/-! An image written by `history_serialize` gives the same history back. -/

open ArrayPrefix List

def toRecord (m : Heap) (e : HistEntry) : Record :=
  ⟨e.timestamp,e.seq,e.role,e.tokenCount,e.rawLen,e.dataLen,storedBytes m e⟩

theorem foldl_append {α : Type} (f : α → Bytes) (l : List α) (out : Bytes) :
    l.foldl (fun out a => out ++ f a) out = out ++ l.flatMap f := List.foldl_append_eq_append

theorem live_eq_entryAt (h : History) : live h = (List.range (historyCount h).toNat).map (entryAt h) := by
  apply map_congr_left
  intro i _
  rw [entryAt,slotOf_add]

def imageOf (w : World) : Bytes :=
  serializeHeader w.hist ++ (live w.hist).flatMap (serializeEntry w.heap)

variable {w : World} {m : Heap} {e : HistEntry} {r : Record}

theorem historySerialize_eq {size : Nat} (h : serializeNeeded w.hist ≤ size) :
    historySerialize w size = (((imageOf w).length : Int),imageOf w) := by
  rw [historySerialize,if_neg (by omega)]
  simp only [foldl_append,imageOf,live_eq_entryAt,flatMap_map]

theorem toNat_of_not_pos {len : UInt32} (h : ¬ 0 < len) : len.toNat = 0 := by
  rw [UInt32.lt_iff_toNat_lt] at h
  simpa using h

theorem load_if_pos {p : Addr} {len : UInt32} (h : 0 < len → p ≠ 0) :
    (if p ≠ 0 ∧ 0 < len then load m p len.toNat else []) = load m p len.toNat := by
  by_cases hz : 0 < len
  · rw [if_pos ⟨h hz,hz⟩]
  · rw [if_neg (by tauto),toNat_of_not_pos hz]
    rfl

theorem serializeEntry_eq (h : e.data ≠ 0) :
    serializeEntry m e = leBytes 8 e.timestamp.toNat ++ (leBytes 8 e.seq.toNat ++ ([e.role] ++
      (leBytes 4 e.tokenCount.toNat ++ (leBytes 4 e.rawLen.toNat ++
        (leBytes 4 e.dataLen.toNat ++ storedBytes m e))))) := by
  rw [serializeEntry,storedBytes,load_if_pos fun _ => h]
  simp only [append_assoc]

theorem recordAt_append (v2 : Bool) (pre buf : Bytes) :
    recordAt v2 (pre ++ buf) pre.length = recordAt v2 buf 0 ∧
      recordEnd v2 (pre ++ buf) pre.length = pre.length+recordEnd v2 buf 0 := by
  have hs := slice_append_add pre buf
  have h0 := hs 0 8
  rw [add_zero] at h0
  constructor
  · simp only [recordAt,zero_add,h0,add_assoc,hs]
  · simp only [recordEnd,zero_add,add_assoc,hs]

theorem recordAt_serializeEntry (h : e.data ≠ 0) (rest : Bytes) :
    recordAt true (serializeEntry m e ++ rest) 0 = toRecord m e ∧
      recordEnd true (serializeEntry m e ++ rest) 0 = (serializeEntry m e).length := by
  have hlen : (storedBytes m e).length = e.dataLen.toNat := load_length _ _ _
  rw [serializeEntry_eq h]
  constructor
  · -- every field is the front of what is left behind the fields before it
    simp (disch := simp) only [recordAt,seqWidth,↓reduceIte,zero_add,Nat.reduceAdd,
      append_assoc,slice_append_right,slice_front,leBytes_length,length_singleton,
      Nat.reduceSub,leValue_word32,leValue_word64]
    simp only [slice_front rest hlen,ofNat_toNat,UInt64.ofNat_toNat]
    rfl
  simp (disch := simp) only [recordEnd,seqWidth,↓reduceIte,zero_add,Nat.reduceAdd,
    append_assoc,slice_append_right,slice_front,leBytes_length,length_singleton,
    Nat.reduceSub,leValue_word32]
  simp [hlen]
  omega

theorem records_serializeEntry (es : List HistEntry) (pre : Bytes) (h : ∀ e ∈ es, e.data ≠ 0) :
    records true (pre ++ es.flatMap (serializeEntry m)) es.length pre.length = es.map (toRecord m) := by
  induction es generalizing pre with
  | nil => rfl
  | cons e es ih =>
    have he := h e mem_cons_self
    obtain ⟨hat,hend⟩ := recordAt_append true pre
      (serializeEntry m e ++ es.flatMap (serializeEntry m))
    obtain ⟨hrec,hlen⟩ := recordAt_serializeEntry (m := m) he (es.flatMap (serializeEntry m))
    rw [hrec] at hat
    rw [hlen] at hend
    have hmin : 29 ≤ (serializeEntry m e).length := by
      rw [serializeEntry_eq he]
      simp
      omega
    rw [flatMap_cons,length_cons,records,readRecord_eq,if_pos]
    · simp only [hat,hend,map_cons,cons.injEq,true_and]
      have hs := ih (pre ++ serializeEntry m e) (fun f hf => h f (mem_cons_of_mem _ hf))
      rw [append_assoc,length_append] at hs
      exact hs
    · rw [hend]
      simp only [length_append,seqWidth,↓reduceIte]
      omega

structure Content where
  timestamp : UInt64
  seq : UInt64
  role : UInt8
  tokenCount : UInt32
  rawLen : UInt32
  bytes : Bytes

def content (m : Heap) (e : HistEntry) : Content :=
  ⟨e.timestamp,e.seq,e.role,e.tokenCount,e.rawLen,storedBytes m e⟩

def Record.content (r : Record) : Content :=
  ⟨r.timestamp,r.seq,r.role,r.tokenCount,r.rawLen,r.data⟩

structure Loading (m0 : Heap) (pick : Nat → Addr) (w : World) (i : Nat) : Prop where
  tail : w.hist.tail = 0
  head : w.hist.head.toNat = i
  empty : ∀ j, i ≤ j → (w.hist.ring j).data = 0
  held : ∀ e ∈ live w.hist, e.dataLen = 0 ∨ w.heap.allocated e.data = true
  taken : ∀ a, w.heap.allocated a = true → m0.allocated a = true ∨ ∃ j, j < i ∧ a = pick j

def Placed (m m' : Heap) (p q : Addr) (r : Record) : Prop :=
  r.dataLen = 0 ∧ m' = m ∨
    q = p ∧ m'.allocated = setAt m.allocated p true ∧ m'.bytes = (store m p r.data).bytes

theorem allocRecord_placed {p : Addr} (hp : p ≠ 0) (hf : m.allocated p = false)
    (hlen : r.dataLen.toNat ≤ 65536) : Placed m (allocRecord m r p).2 p (allocRecord m r p).1 r := by
  rcases Nat.eq_zero_or_pos r.dataLen.toNat with h0 | hpos
  · have hz : r.dataLen = 0 := toNat_inj.mp h0
    left
    rw [allocRecord,hz]
    exact ⟨rfl,rfl⟩
  right
  have hlt : 0 < r.dataLen := UInt32.lt_iff_toNat_lt.mpr hpos
  have hgot := kmalloc_granted hpos hlen hp hf
  rcases kmalloc_cases m r.dataLen.toNat p with hn | ⟨c,-,-,-,-,-,hs⟩
  · rw [hn] at hgot
    exact absurd hgot.symm hp
  rw [allocRecord,hs]
  simp only
  rw [if_pos ⟨hp,hlt⟩]
  exact ⟨trivial,rfl,rfl⟩

section
variable {m m' : Heap} {p q a : Addr} {r : Record}

section
variable (h : Placed m m' p q r)
include h

theorem Placed.held : r.dataLen = 0 ∨ m'.allocated q = true := by
  rcases h with ⟨hz,-⟩ | ⟨rfl,hall,-⟩
  · exact .inl hz
  · exact .inr (by rw [hall,setAt_self])

theorem Placed.keeps (ha : m.allocated a = true) : m'.allocated a = true := by
  rcases h with ⟨-,rfl⟩ | ⟨-,hall,-⟩
  · exact ha
  rw [hall]
  by_cases heq : a = p
  · rw [heq,setAt_self]
  · rw [setAt_ne _ _ heq]
    exact ha

theorem Placed.taken (ha : m'.allocated a = true) : m.allocated a = true ∨ a = p := by
  rcases h with ⟨-,rfl⟩ | ⟨-,hall,-⟩
  · exact .inl ha
  by_cases heq : a = p
  · exact .inr heq
  · rw [hall,setAt_ne _ _ heq] at ha
    exact .inl ha

theorem Placed.bytes_eq (hf : m.allocated p = false)
    (ha : m.allocated a = true) : m'.bytes a = m.bytes a := by
  rcases h with ⟨-,rfl⟩ | ⟨-,-,hb⟩
  · rfl
  · rw [hb]
    exact setAt_ne _ _ (fun heq => by rw [heq,hf] at ha; exact absurd ha (by decide))

theorem Placed.load_eq (hd : r.data.length = r.dataLen.toNat) :
    load m' q r.dataLen.toNat = r.data := by
  rcases h with ⟨hz,-⟩ | ⟨rfl,-,hb⟩
  · rw [hz] at hd ⊢
    rw [length_eq_zero_iff.mp hd]
    rfl
  · rw [load,hb,← hd]
    exact load_store m q r.data

end

end

theorem content_of_bytes {m' : Heap} (h : e.dataLen = 0 ∨ m'.bytes e.data = m.bytes e.data) :
    content m' e = content m e := by
  have hb : storedBytes m' e = storedBytes m e := by
    rcases h with h | h
    · rw [storedBytes,storedBytes,h]
      rfl
    · rw [storedBytes,storedBytes,load,load,h]
  rw [content,content,hb]

section
variable {m0 : Heap} {pick : Nat → Addr} {w : World} {i : Nat}

section
variable (h : Loading m0 pick w i)
include h

theorem Loading.slot (hi : i < histRingSize) : slotOf w.hist.head = i := by
  rw [slotOf,h.head]
  exact Nat.mod_eq_of_lt hi

theorem Loading.count : (historyCount w.hist).toNat = i := by
  have h1 := w.hist.head.toNat_lt
  have h2 := h.head
  rw [historyCount,h.tail]
  simp only [toNat_sub,toNat_zero]
  omega

theorem Loading.free (hf : m0.allocated (pick i) = false)
    (hinj : ∀ j, j < i → pick j ≠ pick i) : w.heap.allocated (pick i) = false :=
  free_of_taken h.taken hf hinj

theorem Loading.acceptRecord_eq (grant : Nat → Bool)
    (hi : i < histRingSize) (r : Record) : acceptRecord grant true (pick i) w r =
      ⟨(allocRecord w.heap r (pick i)).2,placeEntry grant w.hist
        ⟨r.timestamp,r.seq,r.role,r.tokenCount,(allocRecord w.heap r (pick i)).1, r.dataLen,r.rawLen⟩⟩ := by
  have hk : (entryFree w.heap (w.hist.ring (slotOf w.hist.head))).1 = w.heap := by
    rw [h.slot hi,entryFree,if_pos (h.empty i (le_refl _))]
  simp only [acceptRecord,hk]
  rfl

theorem Loading.accept (grant : Nat → Bool) (hi : i < histRingSize)
    (hp : pick i ≠ 0) (hf : m0.allocated (pick i) = false) (hinj : ∀ j, j < i → pick j ≠ pick i)
    (hlen : r.dataLen.toNat ≤ 65536) (hd : r.data.length = r.dataLen.toNat) :
    Loading m0 pick (acceptRecord grant true (pick i) w r) (i+1) ∧
      (live (acceptRecord grant true (pick i) w r).hist).map
          (content (acceptRecord grant true (pick i) w r).heap) =
        (live w.hist).map (content w.heap) ++ [r.content] := by
  have hnew := h.free hf hinj
  have hpl := allocRecord_placed hp hnew hlen
  rw [h.acceptRecord_eq grant hi r]
  obtain ⟨⟨q,m⟩,hqm⟩ : ∃ a, allocRecord w.heap r (pick i) = a := ⟨_,rfl⟩
  rw [hqm] at hpl ⊢
  simp only at hpl ⊢
  have hl := live_placeEntry grant (h := w.hist)
    ⟨r.timestamp,r.seq,r.role,r.tokenCount,q,r.dataLen,r.rawLen⟩ (by rw [h.count]; exact hi)
  refine ⟨⟨h.tail,?_,?_,?_,?_⟩,?_⟩
  · have h1 := h.head
    have h2 := hi
    unfold histRingSize at h2
    simp only [placeEntry,toNat_add,toNat_one]
    omega
  · intro j hj
    simp only [placeEntry,h.slot hi]
    rw [setAt_ne _ _ (by omega)]
    exact h.empty j (by omega)
  · intro e he
    rw [hl] at he
    rcases mem_append.mp he with he | he
    · exact (h.held e he).imp id hpl.keeps
    · rw [mem_singleton.mp he]
      exact hpl.held
  · exact taken_succ h.taken (fun a ha => hpl.taken ha)
  rw [hl,map_append,map_singleton]
  congr 1
  · refine map_congr_left (fun e he => content_of_bytes ?_)
    exact (h.held e he).imp id (hpl.bytes_eq hnew)
  · rw [content,storedBytes,hpl.load_eq hd]
    rfl

end

end

theorem Loading.acceptAll {m0 : Heap} {pick : Nat → Addr} {i : Nat} (h : Loading m0 pick w i)
    (grant : Nat → Bool) (rs : List Record) (hi : i+rs.length ≤ histRingSize)
    (hp : ∀ j, j < i+rs.length → pick j ≠ 0 ∧ m0.allocated (pick j) = false)
    (hinj : ∀ j k, j < k → k < i+rs.length → pick j ≠ pick k)
    (hrs : ∀ r ∈ rs, r.dataLen.toNat ≤ 65536 ∧ r.data.length = r.dataLen.toNat) :
    (live (acceptAll grant true pick i w rs).hist).map (content (acceptAll grant true pick i w rs).heap) =
      (live w.hist).map (content w.heap) ++ rs.map Record.content := by
  induction rs generalizing i w with
  | nil => simp [Hist.acceptAll]
  | cons r rs ih =>
    rw [length_cons] at hi hp hinj
    obtain ⟨hlen,hd⟩ := hrs r mem_cons_self
    obtain ⟨hn,hone⟩ := h.accept grant (r := r) (by omega) (hp i (by omega)).1
      (hp i (by omega)).2 (fun j hj => hinj j i hj (by omega)) hlen hd
    rw [Hist.acceptAll,ih hn (by omega) (fun j hj => hp j (by omega))
      (fun j k hjk hk => hinj j k hjk (by omega))
      (fun r hr => hrs r (mem_cons_of_mem _ hr)),hone,append_assoc]
    rfl

theorem acceptAll_keeps (grant : Nat → Bool) (pick : Nat → Addr) (i : Nat) (w : World)
    (rs : List Record) : (acceptAll grant true pick i w rs).hist.maxTokens = w.hist.maxTokens ∧
      (acceptAll grant true pick i w rs).hist.nextSeq = w.hist.nextSeq := by
  induction rs generalizing i w with
  | nil => exact ⟨rfl,rfl⟩
  | cons r rs ih => exact ih (i+1) (acceptRecord grant true (pick i) w r)

theorem recordTokens_toRecord (m : Heap) (es : List HistEntry) :
    recordTokens (es.map (toRecord m)) = tokens es := by
  rw [recordTokens,map_map]
  rfl

theorem imageOf_header (w : World) : HeaderOk (imageOf w) ∧ imageIsV2 (imageOf w) = true ∧
    leValue (slice (imageOf w) 4 4) = (historyCount w.hist).toNat ∧
    ofNat (leValue (slice (imageOf w) 8 4)) = w.hist.maxTokens ∧
    UInt64.ofNat (leValue (slice (imageOf w) 16 8)) = w.hist.nextSeq := by
  have hlen : (serializeHeader w.hist).length = 24 := by simp [serializeHeader]
  have hm : imageMagic (imageOf w) = histSerialMagicV2 := by
    simp (disch := simp) only [imageMagic,imageOf,serializeHeader,append_assoc,slice_front]
    decide
  have hc : slice (imageOf w) 4 4 = leBytes 4 (historyCount w.hist).toNat := by
    simp (disch := simp) only [imageOf,serializeHeader,append_assoc,slice_append_right,
      slice_front,leBytes_length,Nat.reduceSub]
  have hmax : slice (imageOf w) 8 4 = leBytes 4 w.hist.maxTokens.toNat := by
    simp (disch := simp) only [imageOf,serializeHeader,append_assoc,slice_append_right,
      slice_front,leBytes_length,Nat.reduceSub]
  have hn : slice (imageOf w) 16 8 = leBytes 8 w.hist.nextSeq.toNat := by
    simp (disch := simp) only [imageOf,serializeHeader,append_assoc,slice_append_right,
      slice_front,leBytes_length,Nat.reduceSub]
  refine ⟨⟨?_,.inr ⟨hm,?_⟩⟩,?_,?_,?_,?_⟩
  · rw [imageOf,length_append]
    omega
  · rw [imageOf,length_append]
    omega
  · rw [imageIsV2,hm]
    decide
  · rw [hc,leValue_word32]
  · rw [hmax,leValue_word32,ofNat_toNat]
  · rw [hn,leValue_word64,UInt64.ofNat_toNat]

theorem imageRecords_imageOf (hs : Sound w.hist) :
    imageRecords (imageOf w) = (live w.hist).map (toRecord w.heap) := by
  obtain ⟨-,hv,hc,-,-⟩ := imageOf_header w
  have hlen : (serializeHeader w.hist).length = 24 := by simp [serializeHeader]
  have hrec := records_serializeEntry (m := w.heap) (live w.hist) (serializeHeader w.hist)
    (fun e he => (hs.entries e he).data)
  rw [hlen,live_length] at hrec
  rw [imageRecords,hv,hc]
  exact hrec

theorem imageBase_fresh {buf : Bytes} (hv : imageIsV2 buf = true) (m : Heap)
    (maxTokens : UInt32) (pick : Nat → Addr) : Loading m pick (imageBase buf ⟨m,historyInit maxTokens⟩) 0 ∧
      live (imageBase buf ⟨m,historyInit maxTokens⟩).hist = [] ∧
      (imageBase buf ⟨m,historyInit maxTokens⟩).hist.maxTokens = ofNat (leValue (slice buf 8 4)) ∧
      (imageBase buf ⟨m,historyInit maxTokens⟩).hist.nextSeq = UInt64.ofNat (leValue (slice buf 16 8)) ∧
      (imageBase buf ⟨m,historyInit maxTokens⟩).hist.windowTokens = 0 := by
  have hall : evictAll ⟨m,historyInit maxTokens⟩ = ⟨m,historyInit maxTokens⟩ := by
    rw [evictAll,if_neg (by exact UInt32.lt_irrefl 0)]
  simp only [imageBase,openImage,historyClear,hall,hv,↓reduceIte]
  refine ⟨⟨rfl,rfl,fun j _ => rfl,fun e he => ?_,fun a ha => .inl ha⟩,live_eq_nil rfl,trivial,
    trivial,trivial⟩
  rw [live_eq_nil rfl] at he
  exact absurd he not_mem_nil

theorem serializeNeeded_pos (h : History) : 0 < serializeNeeded h := by
  have hm : ∀ (l : List Nat) (a : Nat), 0 < a →
      0 < l.foldl (fun needed i => needed+(29+(entryAt h i).dataLen.toNat)) a := by
    intro l
    induction l with
    | nil => exact fun a ha => ha
    | cons i l ih => exact fun a ha => ih _ (Nat.add_pos_left ha _)
  exact hm _ 24 (by decide)

theorem historyDeserialize_historySerialize (grant grant' : Nat → Bool) (heap : Heap)
    (maxTokens maxTokens' : UInt32) (ops : List Op) (w : World)
    (hw : w = run grant ops ⟨heap,historyInit maxTokens⟩) (size : Nat)
    (hsize : (historySerialize w 0).1 ≤ size) (n : Int) (out : Bytes)
    (hout : historySerialize w size = (n,out)) (pick : Nat → Addr)
    (hpick : ∀ i, i < (live w.hist).length → pick i ≠ 0 ∧ w.heap.allocated (pick i) = false)
    (hinj : ∀ i j, i < j → j < (live w.hist).length → pick i ≠ pick j) :
    (out.length : Int) = n ∧
      ∃ w', historyDeserialize grant' pick out ⟨w.heap,historyInit maxTokens'⟩ = some (0,w') ∧
        (live w'.hist).map (content w'.heap) = (live w.hist).map (content w.heap) ∧
        w'.hist.maxTokens = w.hist.maxTokens ∧ w'.hist.nextSeq = w.hist.nextSeq ∧
        w'.hist.windowTokens = w.hist.windowTokens := by
  have hs : Sound w.hist := by
    rw [hw]
    exact Sound.run (w := ⟨heap,historyInit maxTokens⟩) (sound_empty rfl rfl) grant ops
  have hneeded : serializeNeeded w.hist ≤ size := by
    rw [historySerialize,if_pos (serializeNeeded_pos w.hist)] at hsize
    simpa using hsize
  rw [historySerialize_eq hneeded] at hout
  obtain ⟨rfl,rfl⟩ := Prod.mk.inj hout
  obtain ⟨hok,hv,-,hmax,hnext⟩ := imageOf_header w
  obtain ⟨hload,hnil,hmax',hnext',hwin'⟩ := imageBase_fresh hv w.heap maxTokens' pick
  refine ⟨rfl,_,historyDeserialize_ok grant' pick _ hok,?_⟩
  rw [hv,imageRecords_imageOf hs]
  have hcount := hs.count
  rw [live_length] at hpick hinj
  have hlen : ((live w.hist).map (toRecord w.heap)).length = (historyCount w.hist).toNat := by
    rw [length_map,live_length]
  have hlive := hload.acceptAll grant' ((live w.hist).map (toRecord w.heap)) (by omega)
    (fun j hj => hpick j (by omega)) (fun j k hjk hk => hinj j k hjk (by omega)) ?_
  · obtain ⟨hkmax,hknext⟩ := acceptAll_keeps grant' pick 0
      (imageBase (imageOf w) ⟨w.heap,historyInit maxTokens'⟩)
      ((live w.hist).map (toRecord w.heap))
    obtain ⟨-,-,hkwin⟩ := acceptAll_counters grant' true pick 0
      (imageBase (imageOf w) ⟨w.heap,historyInit maxTokens'⟩)
      ((live w.hist).map (toRecord w.heap))
    refine ⟨?_,?_,?_,?_⟩
    · rw [hlive,hnil,map_nil,nil_append,map_map]
      rfl
    · rw [hkmax,hmax',hmax]
    · rw [hknext,hnext',hnext]
    · rw [hkwin,hwin',recordTokens_toRecord,← hs.window]
      simp
  · intro r hr
    obtain ⟨e,he,rfl⟩ := mem_map.mp hr
    exact ⟨(hs.entries e he).dataLen,load_length _ _ _⟩

theorem historyDeserialize_historySerialize_two : ∃ w w', w = run (fun _ => true)
      [.push ⟨1,0,5⟩ 0 [104,101,108,108,111],.push ⟨2,0,6⟩ 1 [104,105]]
      ⟨⟨fun _ => false,fun _ => 0,fun _ _ => 0⟩,historyInit 100⟩ ∧
    historyDeserialize (fun _ => true) (fun i => i+10) (historySerialize w 1000).2
      ⟨w.heap,historyInit 7⟩ = some (0,w') ∧
    (live w'.hist).map (content w'.heap) = (live w.hist).map (content w.heap) ∧
    (live w.hist).length = 2 := by
  obtain ⟨-,w',h1,h2,-⟩ := historyDeserialize_historySerialize (fun _ => true) (fun _ => true)
    ⟨fun _ => false,fun _ => 0,fun _ _ => 0⟩ 100 7
    [.push ⟨1,0,5⟩ 0 [104,101,108,108,111],.push ⟨2,0,6⟩ 1 [104,105]] _ rfl 1000
    (by decide +kernel) _ _ rfl (fun i => i+10) (by decide +kernel)
    (fun i j hij _ => ne_of_lt (Nat.add_lt_add_right hij 10))
  exact ⟨_,w',rfl,h1,h2,by decide +kernel⟩

end AevOS.Hist
