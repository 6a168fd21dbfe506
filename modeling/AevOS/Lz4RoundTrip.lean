import AevOS.Lz4Codec

/-! The encoder loop. Until a match is taken the hash table is a function of the source alone. -/

namespace AevOS.Lz4
open Wire List
open Nat (zero_le)

theorem lz4Count_le (src : Bytes) (a b limit : Nat) (h : a ≤ limit) : a+lz4Count src a b limit ≤ limit := by
  fun_induction lz4Count src a b limit with
  | case1 a b hc ih =>
    have hn := ih (by omega)
    omega
  | case2 a b hc => omega

theorem lz4Count_equal (src : Bytes) (a b limit k : Nat)
    (hk : k < lz4Count src a b limit) : byteAt src (a+k) = byteAt src (b+k) := by
  fun_induction lz4Count src a b limit generalizing k with
  | case1 a b hc ih =>
    cases k with
    | zero => exact hc.2
    | succ k =>
      have hn := ih k (by omega)
      rw [show a+(k+1) = a+1+k by omega,show b+(k+1) = b+1+k by omega]
      exact hn
  | case2 a b hc => omega

theorem lz4Count_self (src : Bytes) (a limit : Nat) (h : a ≤ limit) : a+lz4Count src a a limit = limit := by
  induction hd : limit-a generalizing a with
  | zero =>
    have hs := lz4Count_le src a a limit h
    omega
  | succ d ih =>
    have hn := ih (a+1) (by omega) (by omega)
    rw [lz4Count,if_pos ⟨by omega,rfl⟩]
    omega

variable {src op : Bytes} {ip anchor cap : Nat} {r : Int × Bytes}

theorem read32_equal {i j k : Nat} (h : read32 src i = read32 src j) (hk : k < lz4MinMatch) :
    byteAt src (i+k) = byteAt src (j+k) := by
  have hb := leValue_injective (by simp) h
  simp only [cons.injEq,and_true] at hb
  obtain ⟨h0,h1,h2,h3⟩ := hb
  have hc : k = 0 ∨ k = 1 ∨ k = 2 ∨ k = 3 := by
    simp only [lz4MinMatch] at hk
    omega
  obtain rfl | rfl | rfl | rfl := hc
  · exact h0
  · exact h1
  · exact h2
  · exact h3

def matchLength (src : Bytes) (ip ref : Nat) : Nat :=
  lz4MinMatch+lz4Count src (ip+lz4MinMatch) (ref+lz4MinMatch) src.length

theorem matchLength_end (src : Bytes) (ip ref : Nat)
    (h : ip+lz4MinMatch < src.length) : ip+matchLength src ip ref ≤ src.length := by
  have hc := lz4Count_le src (ip+lz4MinMatch) (ref+lz4MinMatch) src.length (by omega)
  unfold matchLength
  omega

theorem matchLength_equal {ref k : Nat} (hw : read32 src ref = read32 src ip)
    (hk : k < matchLength src ip ref) : byteAt src (ref+k) = byteAt src (ip+k) := by
  by_cases h4 : k < lz4MinMatch
  · exact read32_equal hw h4
  have hc := lz4Count_equal src (ip+lz4MinMatch) (ref+lz4MinMatch) src.length
    (k-lz4MinMatch) (by unfold matchLength at hk; omega)
  rw [show ip+lz4MinMatch+(k-lz4MinMatch) = ip+k by omega,
    show ref+lz4MinMatch+(k-lz4MinMatch) = ref+k by omega] at hc
  exact hc.symm

theorem Encodes.matched {ref : Nat} (h : Encodes src anchor op) (ha : anchor ≤ ip)
    (hlim : ip+lz4MinMatch < src.length) (href : ref < ip) (hd : ip-ref ≤ 65535)
    (hw : read32 src ref = read32 src ip) : Encodes src (ip+matchLength src ip ref)
      (op ++ emitSequence (slice src anchor (ip-anchor)) (ip-ref) (matchLength src ip ref)) :=
  .sequence ip ref _ h ha href hd (by unfold matchLength; omega)
    (matchLength_end src ip ref hlim) (fun _ hk => matchLength_equal hw hk)

def tableAfter (src : Bytes) (htable : HashTable) (ip next : Nat) : HashTable :=
  let htable := htable.set (lz4Hash (read32 src ip)) ip
  if next+lz4MinMatch < src.length then
    htable.set (lz4Hash (read32 src next)) next
  else htable

def worstCase (litLen matchLen : Nat) : Nat :=
  1+litLen/255+litLen+2+matchLen/255+1

section
variable (src : Bytes) (cap ip anchor : Nat) (ht : HashTable) (op : Bytes)

theorem compressLoop_done (h : ¬ ip+lz4MinMatch < src.length) :
    compressLoop src cap ip anchor ht op = finishBlock src cap anchor op := by
  rw [compressLoop,if_neg h]

theorem compressLoop_skip (h : ip+lz4MinMatch < src.length)
    (hno : 65535 < ip-(ht (lz4Hash (read32 src ip))).toNat ∨ read32 src (ht (lz4Hash (read32 src ip))).toNat ≠ read32 src ip) :
    compressLoop src cap ip anchor ht op =
      compressLoop src cap (ip+1) anchor (ht.set (lz4Hash (read32 src ip)) ip) op := by
  rw [compressLoop,if_pos h]
  rw [if_pos hno]

theorem compressLoop_match (ref : Nat) (h : ip+lz4MinMatch < src.length)
    (href : (ht (lz4Hash (read32 src ip))).toNat = ref) (hd : ip-ref ≤ 65535)
    (hw : read32 src ref = read32 src ip) :
    compressLoop src cap ip anchor ht op =
      if cap < op.length+worstCase (ip-anchor) (matchLength src ip ref) then (-1,op)
      else compressLoop src cap (ip+matchLength src ip ref) (ip+matchLength src ip ref)
        (tableAfter src ht ip (ip+matchLength src ip ref))
        (op ++ emitSequence (slice src anchor (ip-anchor)) (ip-ref) (matchLength src ip ref)) := by
  rw [compressLoop,if_pos h]
  simp only [href]
  rw [if_neg (by
    intro hno
    obtain hno | hno := hno
    · omega
    · exact hno hw)]
  rfl

end

def Ends (block : Bytes → Prop) (r : Int × Bytes) : Prop :=
  r.1 = -1 ∨ r.1 = r.2.length ∧ block r.2

theorem finishBlock_ends (h : Encodes src anchor op) :
    Ends (BlockOf src) (finishBlock src cap anchor op) := by
  unfold finishBlock
  simp only
  split
  · exact .inl rfl
  · exact .inr ⟨rfl,anchor,op,h,rfl⟩

structure Found (src : Bytes) (anchor ip ref : Nat) : Prop where
  anchor_le : anchor ≤ ip
  inside : ip+lz4MinMatch < src.length
  ref_lt : ref < 65536
  near : ip-ref ≤ 65535
  equal : read32 src ref = read32 src ip

/-- What holds of the anchor and the block before and behind each sequence holds at the end. -/
theorem compressLoop_run {p : Nat → Bytes → Prop} {q : Int × Bytes → Prop} {low : Nat}
    (refuse : ∀ ip anchor ref op, Found src anchor ip ref → p anchor op →
      cap < op.length+worstCase (ip-anchor) (matchLength src ip ref) → q (-1,op))
    (emit : ∀ ip anchor ref op, Found src anchor ip ref → low ≤ ip → p anchor op →
      op.length+worstCase (ip-anchor) (matchLength src ip ref) ≤ cap → p (ip+matchLength src ip ref)
        (op ++ emitSequence (slice src anchor (ip-anchor)) (ip-ref) (matchLength src ip ref)))
    (last : ∀ anchor op, p anchor op → anchor ≤ src.length → q (finishBlock src cap anchor op))
    (ht : HashTable) (hip : low ≤ ip) (ha : anchor ≤ ip) (hs : anchor ≤ src.length)
    (hop : p anchor op) : q (compressLoop src cap ip anchor ht op) := by
  induction hd : src.length-ip using Nat.strongRecOn generalizing ip anchor ht op with
  | ind d ih =>
    by_cases hlim : ip+lz4MinMatch < src.length
    · by_cases hno : 65535 < ip-(ht (lz4Hash (read32 src ip))).toNat ∨
          read32 src (ht (lz4Hash (read32 src ip))).toNat ≠ read32 src ip
      · rw [compressLoop_skip src cap ip anchor ht op hlim hno]
        exact ih _ (by omega) _ (by omega) (by omega) hs hop rfl
      rw [not_or,not_lt,not_ne_iff] at hno
      rw [compressLoop_match src cap ip anchor ht op _ hlim rfl hno.1 hno.2]
      have hf := Found.mk ha hlim (ht (lz4Hash (read32 src ip))).toNat_lt hno.1 hno.2
      have hmin : 4 ≤ matchLength src ip (ht (lz4Hash (read32 src ip))).toNat := Nat.le_add_right _ _
      split
      · exact refuse ip anchor _ op hf hop (by assumption)
      · exact ih _ (by omega) _ (by omega) (le_refl _) (matchLength_end src ip _ hlim)
          (emit ip anchor _ op hf hip hop (by omega)) rfl
    · rw [compressLoop_done src cap ip anchor ht op hlim]
      exact last anchor op hop hs

theorem compressLoop_late (ht : HashTable) (hip : 65536 ≤ ip) (ha : anchor ≤ ip)
    (h : Encodes src anchor op) : Ends (BlockOf src) (compressLoop src cap ip anchor ht op) :=
  compressLoop_run (p := Encodes src) (fun _ _ _ _ _ _ _ => .inl rfl)
    (fun _ _ _ _ hf hip he _ => he.matched hf.anchor_le hf.inside (hf.ref_lt.trans_le hip) hf.near
      hf.equal) (fun _ _ he _ => finishBlock_ends he) ht hip ha h.anchor_le h

theorem compressLoop_self (src : Bytes) (cap ip : Nat) (ht : HashTable)
    (op : Bytes) (hlim : ip+lz4MinMatch < src.length)
    (hs : (ht (lz4Hash (read32 src ip))).toNat = ip) (h : Encodes src ip op) :
    Ends (SelfReferent src) (compressLoop src cap ip ip ht op) := by
  have hend : ip+matchLength src ip ip = src.length := by
    have hc := lz4Count_self src (ip+lz4MinMatch) src.length (by omega)
    unfold matchLength
    omega
  rw [compressLoop_match src cap ip ip ht op ip hlim hs (by omega) rfl]
  split
  · exact .inl rfl
  rw [compressLoop_done _ _ _ _ _ _ (by omega)]
  unfold finishBlock
  simp only
  split
  · exact .inl rfl
  · refine .inr ⟨rfl,ip,op,matchLength src ip ip,
      emitLast (slice src src.length (src.length-src.length)),h,?_⟩
    simp only [hend,Nat.sub_self,slice,take_zero,append_assoc]

def lastWithHash (src : Bytes) (h : Nat) : Nat → Nat
  | 0 => 0
  | k+1 => if lz4Hash (read32 src (k+1)) = h then k+1 else lastWithHash src h k

def candidate (src : Bytes) (ip : Nat) : Nat :=
  lastWithHash src (lz4Hash (read32 src ip)) (ip-1)

def MatchAt (src : Bytes) (ip : Nat) : Prop :=
  0 < ip ∧ ip+lz4MinMatch < src.length ∧ read32 src (candidate src ip) = read32 src ip
  deriving Decidable

def matchEnd (src : Bytes) (ip : Nat) : Nat := ip+matchLength src ip (candidate src ip)

def CutShort (src : Bytes) : Prop :=
  ∃ ip, ip < src.length ∧ MatchAt src ip ∧ (∀ k, k < ip → ¬ MatchAt src k) ∧
    matchEnd src ip+lz4MinMatch < src.length ∧ matchEnd src ip < 65536

instance (src : Bytes) : Decidable (CutShort src) :=
  inferInstanceAs (Decidable (∃ ip, ip < src.length ∧ _))

theorem lastWithHash_le (src : Bytes) (h k : Nat) : lastWithHash src h k ≤ k := by
  induction k with
  | zero => exact le_refl 0
  | succ k ih =>
    unfold lastWithHash
    split <;> omega

theorem cutShort_iff (hm : MatchAt src ip) (hf : ∀ k, k < ip → ¬ MatchAt src k) :
    CutShort src ↔ matchEnd src ip+lz4MinMatch < src.length ∧ matchEnd src ip < 65536 := by
  constructor
  · rintro ⟨i,-,hi,hb,hend⟩
    have he : i = ip := by
      obtain hlt | heq | hgt := lt_trichotomy i ip
      · exact absurd hi (hf i hlt)
      · exact heq
      · exact absurd hm (hb ip hgt)
    rw [← he]
    exact hend
  · intro hend
    have hlim := hm.2.1
    exact ⟨ip,by omega,hm,hf,hend⟩

theorem not_cutShort_of_late (hf : ∀ k, k < 65536 → ¬ MatchAt src k) : ¬ CutShort src := by
  rintro ⟨i,-,hi,-,-,hend⟩
  have hge : 65536 ≤ i := by
    by_contra hlt
    exact hf i (by omega) hi
  unfold matchEnd at hend
  omega

def Outcome (src out : Bytes) : Prop :=
  (CutShort src → SelfReferent src out) ∧ (¬ CutShort src → BlockOf src out)

theorem Ends.mono {p q : Bytes → Prop} (h : Ends p r) (hpq : ∀ out, p out → q out) : Ends q r := by
  obtain h | ⟨hl,hp⟩ := h
  · exact .inl h
  · exact .inr ⟨hl,hpq _ hp⟩

theorem Ends.sound (h : Ends (BlockOf src) r) (hc : ¬ CutShort src) : Ends (Outcome src) r :=
  h.mono (fun _ hb => ⟨fun hcut => absurd hcut hc,fun _ => hb⟩)

def searchTable (src : Bytes) (k : Nat) : HashTable :=
  fun h => UInt16.ofNat (lastWithHash src h k)

theorem searchTable_set (src : Bytes) (k : Nat) :
    (searchTable src k).set (lz4Hash (read32 src (k+1))) (k+1) = searchTable src (k+1) := by
  funext h
  simp only [HashTable.set,searchTable,lastWithHash]
  by_cases he : h = lz4Hash (read32 src (k+1))
  · rw [if_pos he,if_pos he.symm]
  · rw [if_neg he,if_neg (fun hh => he hh.symm)]

theorem tableAfter_self (src : Bytes) (ht : HashTable) (ip next : Nat)
    (hlim : next+lz4MinMatch < src.length) (hlow : next < 65536) :
    (tableAfter src ht ip next (lz4Hash (read32 src next))).toNat = next := by
  unfold tableAfter
  simp only [if_pos hlim,HashTable.set,↓reduceIte,UInt16.toNat_ofNat']
  omega

theorem compressLoop_search (src : Bytes) (cap k : Nat) (hk : k < 65536)
    (hf : ∀ i, i < k+1 → ¬ MatchAt src i) :
    Ends (Outcome src) (compressLoop src cap (k+1) 0 (searchTable src k) []) := by
  induction hd : src.length-k using Nat.strongRecOn generalizing k with
  | ind d ih =>
    by_cases hla : k = 65535
    · subst hla
      exact (compressLoop_late _ (by omega) (by omega) .start).sound (not_cutShort_of_late hf)
    have hle := lastWithHash_le src (lz4Hash (read32 src (k+1))) k
    have href : (searchTable src k (lz4Hash (read32 src (k+1)))).toNat = candidate src (k+1) := by
      simp only [searchTable,candidate,Nat.add_sub_cancel,UInt16.toNat_ofNat']
      omega
    have hc : candidate src (k+1) < k+1 := by
      simp only [candidate,Nat.add_sub_cancel]
      omega
    by_cases hlim : k+1+lz4MinMatch < src.length
    · by_cases hw : read32 src (candidate src (k+1)) = read32 src (k+1)
      · -- the first match: its end decides how the block goes on
        have hm : MatchAt src (k+1) := ⟨by omega,hlim,hw⟩
        have henc : Encodes src (matchEnd src (k+1)) _ :=
          Encodes.start.matched (zero_le _) hlim hc (by omega) hw
        rw [compressLoop_match src cap (k+1) 0 _ [] _ hlim href (by omega) hw]
        split
        · exact .inl rfl
        change Ends (Outcome src) (compressLoop src cap (matchEnd src (k+1))
          (matchEnd src (k+1)) _ _)
        by_cases hn : matchEnd src (k+1)+lz4MinMatch < src.length
        · by_cases hlow : matchEnd src (k+1) < 65536
          · have hcut := (cutShort_iff hm hf).mpr ⟨hn,hlow⟩
            exact (compressLoop_self src cap _ _ _ hn (tableAfter_self src _ _ _ hn hlow) henc).mono
                (fun _ hs => ⟨fun _ => hs,fun hno => absurd hcut hno⟩)
          · exact (compressLoop_late _ (by omega) (Nat.le_refl _) henc).sound
              (fun hcut => hlow ((cutShort_iff hm hf).mp hcut).2)
        · rw [compressLoop_done _ _ _ _ _ _ hn]
          exact (finishBlock_ends henc).sound (fun hcut => hn ((cutShort_iff hm hf).mp hcut).1)
      rw [compressLoop_skip src cap (k+1) 0 _ [] hlim (by rw [href]; exact .inr hw),searchTable_set]
      refine ih _ ?_ (k+1) (by omega) ?_ rfl
      · omega
      intro i hi hmi
      by_cases hlt : i < k+1
      · exact hf i hlt hmi
      · rw [show i = k+1 by omega] at hmi
        exact hw hmi.2.2
    rw [compressLoop_done _ _ _ _ _ _ hlim]
    refine (finishBlock_ends .start).sound ?_
    rintro ⟨i,-,hi,-,-,-⟩
    by_cases hlt : i < k+1
    · exact hf i hlt hi
    · have hl := hi.2.1
      omega

theorem lz4Compress_ends (src : Bytes) (cap : Nat) : Ends (Outcome src) (lz4Compress src cap) := by
  unfold lz4Compress
  split
  · exact .inl rfl
  split
  · exact .inl rfl
  exact compressLoop_search src cap 0 (by omega) (fun i hi hm => by
    have := hm.1
    omega)

theorem lz4Decompress_lz4Compress_iff {src out : Bytes} {cap : Nat} {c : Int}
    (h : lz4Compress src cap = (c,out)) (hc : 0 < c) :
    (∀ dcap, src.length ≤ dcap →
      lz4Decompress (out.take c.toNat) dcap = ((src.length : Int),src)) ↔ ¬ CutShort src := by
  have hends := lz4Compress_ends src cap
  rw [h] at hends
  obtain hfail | ⟨hlen,hself,hblock⟩ := hends
  · omega
  have htake : out.take c.toNat = out := by
    simp only at hlen
    rw [hlen,Int.toNat_natCast,take_length]
  rw [htake]
  constructor
  · intro hall hcut
    have hd := hall src.length (le_refl _)
    have hbad := (hself hcut).decompress src.length
    rw [hd] at hbad
    omega
  · intro hcut dcap hcap
    exact (hblock hcut).decompress hcap

theorem lz4Decompress_lz4Compress_hello :
    ¬ CutShort [104,101,108,108,111,32,104,101,108,108,111,33] ∧
    ∀ dcap, 12 ≤ dcap → lz4Decompress ([97,104,101,108,108,111,32,6,0,16,33].take 11) dcap =
      (12,[104,101,108,108,111,32,104,101,108,108,111,33]) := by
  have hcut : ¬ CutShort [104,101,108,108,111,32,104,101,108,108,111,33] := by
    decide +kernel
  exact ⟨hcut,(lz4Decompress_lz4Compress_iff
    (show lz4Compress [104,101,108,108,111,32,104,101,108,108,111,33] 64 =
      (11,[97,104,101,108,108,111,32,6,0,16,33]) by decide +kernel) (by decide)).mpr hcut⟩

theorem lz4Decompress_lz4Compress_fails :
    ¬ ∀ (src out : Bytes) (cap : Nat) (c : Int), src ≠ [] → src.length ≤ lz4MaxInputSize →
      lz4Compress src cap = (c,out) → 0 < c → ∀ dcap, src.length ≤ dcap →
      lz4Decompress (out.take c.toNat) dcap = ((src.length : Int),src) := by
  intro hall
  have hrun := hall [97,97,97,97,97,98,99,100,101,102] [16,97,1,0,1,0,0,0] 64 8 (by simp)
    (by decide) (by decide +kernel) (by decide) 10 (by decide)
  have hfail : (lz4Decompress ([16,97,1,0,1,0,0,0].take (8 : Int).toNat) 10).1 = -1 := by
    decide +kernel
  rw [hrun] at hfail
  revert hfail
  decide

theorem lengthExtension_length (rem : Nat) : (lengthExtension rem).length = rem/255+1 := by
  induction rem using Nat.strongRecOn with
  | ind rem ih =>
    unfold lengthExtension
    split
    · have h := ih (rem-255) (by omega)
      simp only [length_cons,h]
      omega
    · simp only [length_cons,length_nil]
      omega

theorem extendedLength_length (len : Nat) :
    (extendedLength len).length = if 15 ≤ len then (len-15)/255+1 else 0 := by
  unfold extendedLength
  split
  · exact lengthExtension_length _
  · rfl

/-- The bytes a sequence takes. -/
def written : Nat × Option Nat → Nat
  | (l,none) => 1+(l+240)/255+l
  | (l,some m) => 1+(l+240)/255+l+2+(m+236)/255

theorem emitSequence_length (lits : Bytes) (offset : Nat) {m : Nat} (hm : 4 ≤ m) :
    (emitSequence lits offset m).length = written (lits.length,some m) := by
  simp only [emitSequence,write16Le,length_cons,length_append,leBytes_length,extendedLength_length,
    written,lz4MinMatch]
  split <;> split <;> omega

theorem emitLast_length (lits : Bytes) : (emitLast lits).length = written (lits.length,none) := by
  simp only [emitLast,length_cons,length_append,extendedLength_length,written]
  split <;> omega

theorem emitSequence_length_le (lits : Bytes) (offset : Nat) {m : Nat} (hm : 4 ≤ m) :
    (emitSequence lits offset m).length ≤ lits.length+m+lits.length/255 := by
  rw [emitSequence_length lits offset hm,written]
  omega

theorem emitLast_length_le (lits : Bytes) : (emitLast lits).length ≤ lits.length+lits.length/255+2 := by
  rw [emitLast_length,written]
  omega

theorem finishBlock_room (ha : anchor ≤ src.length) (hop : op.length ≤ anchor+anchor/255)
    (hcap : src.length+src.length/255+1 ≤ cap) : 0 < (finishBlock src cap anchor op).1 ∧
      (finishBlock src cap anchor op).2.length ≤ src.length+src.length/255+2 := by
  have hl : (slice src anchor (src.length-anchor)).length = src.length-anchor :=
    slice_length (by omega)
  have hls := emitLast_length_le (slice src anchor (src.length-anchor))
  unfold finishBlock
  rw [if_neg (by omega)]
  simp only [length_append]
  constructor
  · simp only [emitLast,length_cons]
    omega
  · omega

theorem Found.emitted {ref : Nat} (h : Found src anchor ip ref) :
    (slice src anchor (ip-anchor)).length = ip-anchor ∧
      ip+matchLength src ip ref ≤ src.length ∧ 4 ≤ matchLength src ip ref := by
  have hl := h.inside
  have ha := h.anchor_le
  exact ⟨slice_length (by omega),matchLength_end src ip ref hl,Nat.le_add_right _ _⟩

theorem compressLoop_room (ht : HashTable) (ha : anchor ≤ ip) (hs : anchor ≤ src.length)
    (hop : op.length ≤ anchor+anchor/255) (hcap : src.length+src.length/255+1 ≤ cap) :
    0 < (compressLoop src cap ip anchor ht op).1 ∧
      (compressLoop src cap ip anchor ht op).2.length ≤ src.length+src.length/255+2 := by
  refine compressLoop_run (p := fun a o => o.length ≤ a+a/255)
    (q := fun r => 0 < r.1 ∧ r.2.length ≤ src.length+src.length/255+2) ?_ ?_
    (fun a o ho h => finishBlock_room h ho hcap) ht (zero_le _) ha hs hop
  · -- the room asked for is covered by the bytes about to be consumed
    intro ip anchor ref op hf ho hw
    have ha := hf.anchor_le
    obtain ⟨_,hend,hm⟩ := hf.emitted
    unfold worstCase at hw
    omega
  · intro ip anchor ref op hf _ ho _
    have ha := hf.anchor_le
    obtain ⟨hl,hend,hm⟩ := hf.emitted
    have hseq := emitSequence_length_le (slice src anchor (ip-anchor)) (ip-ref) hm
    rw [length_append]
    omega

theorem lz4Compress_room (hne : src ≠ []) (hmax : src.length ≤ lz4MaxInputSize)
    (hcap : src.length+src.length/255+1 ≤ cap) :
    0 < (lz4Compress src cap).1 ∧ (lz4Compress src cap).2.length ≤ src.length+src.length/255+2 := by
  have hlen : src.length ≠ 0 := fun h => hne (length_eq_zero_iff.mp h)
  unfold lz4Compress
  rw [if_neg hlen,if_neg (by omega)]
  exact compressLoop_room _ (by omega) (by omega) (by simp) hcap

/-! The output stays inside the capacity unless a sequence whose size is underestimated fills it. -/

/-- The literals and the match of each sequence that the search finds, whatever the capacity; the last
literals have no match. -/
def sequences (src : Bytes) (ip anchor : Nat) (htable : HashTable) : List (Nat × Option Nat) :=
  if ip+lz4MinMatch < src.length then
    let h := lz4Hash (read32 src ip)
    let ref := (htable h).toNat
    if 65535 < ip-ref ∨ read32 src ref ≠ read32 src ip then
      sequences src (ip+1) anchor (htable.set h ip)
    else
      let next := ip+matchLength src ip ref
      (ip-anchor,some (matchLength src ip ref)) :: sequences src next next (tableAfter src htable ip next)
  else [(src.length-anchor,none)]
termination_by src.length-ip
decreasing_by all_goals simp only [matchLength,lz4MinMatch] at *; omega

/-- The room asked for before a sequence. -/
def estimate : Nat × Option Nat → Nat
  | (l,none) => 1+l/255+l
  | (l,some m) => worstCase l m

/-- After `size` bytes some sequence is estimated to fill the capacity and takes more. -/
def Overrun (cap : Nat) : Nat → List (Nat × Option Nat) → Prop
  | _, [] => False
  | size, s :: ss =>
    size+estimate s = cap ∧ estimate s < written s ∨ Overrun cap (size+written s) ss

theorem estimate_bounds (s : Nat × Option Nat) :
    0 < estimate s ∧ estimate s ≤ written s+1 ∧ written s ≤ estimate s+1 := by
  obtain ⟨l,- | m⟩ := s <;> simp only [estimate,written,worstCase] <;> omega

theorem Overrun.lt {size : Nat} {ss : List (Nat × Option Nat)} (h : Overrun cap size ss) : size < cap := by
  induction ss generalizing size with
  | nil => cases h
  | cons s ss ih =>
    have := estimate_bounds s
    rcases h with ⟨h,-⟩ | h
    · omega
    · have := ih h
      omega

theorem overrun_cons (cap size : Nat) (s : Nat × Option Nat) (ss : List (Nat × Option Nat)) :
    (cap < size+estimate s → ¬ Overrun cap size (s :: ss)) ∧ (size+estimate s ≤ cap →
      (size+written s ≤ cap → (Overrun cap size (s :: ss) ↔ Overrun cap (size+written s) ss)) ∧
      (cap < size+written s → Overrun cap size (s :: ss))) := by
  have := estimate_bounds s
  refine ⟨?_,fun he => ⟨fun hw => ?_,fun hw => .inl ⟨by omega,by omega⟩⟩⟩
  · rintro hlt (⟨h,-⟩ | h)
    · omega
    · have := h.lt
      omega
  · exact or_iff_right fun h => by omega

theorem finishBlock_within (hop : op.length ≤ cap) (hs : anchor ≤ src.length) :
    ((finishBlock src cap anchor op).2.length ≤ cap ∧ (finishBlock src cap anchor op).1 ≤ cap) ↔
      ¬ Overrun cap op.length [(src.length-anchor,none)] := by
  have hl : (slice src anchor (src.length-anchor)).length = src.length-anchor :=
    slice_length (by omega)
  obtain ⟨h1,h2⟩ := overrun_cons cap op.length (src.length-anchor,none) []
  unfold finishBlock
  dsimp only
  split
  · exact iff_of_true ⟨hop,by omega⟩ (h1 ‹_›)
  obtain ⟨h2,h3⟩ := h2 (Nat.not_lt.mp ‹_›)
  simp only [length_append,emitLast_length,hl,Nat.cast_le,and_self]
  by_cases hw : op.length+written (src.length-anchor,none) ≤ cap
  · exact iff_of_true hw fun h => (h2 hw).mp h
  · exact iff_of_false hw fun h => h (h3 (by omega))

theorem compressLoop_grows (ht : HashTable) (ha : anchor ≤ ip) (hs : anchor ≤ src.length) :
    op.length ≤ (compressLoop src cap ip anchor ht op).2.length := by
  refine compressLoop_run (p := fun _ o => op.length ≤ o.length) (q := fun r => op.length ≤ r.2.length)
    (fun _ _ _ _ _ ho _ => ho) (fun _ _ _ _ _ _ ho _ => ?_) (fun _ _ ho _ => ?_) ht (zero_le _) ha
    hs (le_refl _)
  · rw [length_append]
    omega
  · unfold finishBlock
    dsimp only
    split
    · exact ho
    · rw [length_append]
      omega

theorem compressLoop_within (ht : HashTable) (ha : anchor ≤ ip) (hs : anchor ≤ src.length)
    (hop : op.length ≤ cap) :
    ((compressLoop src cap ip anchor ht op).2.length ≤ cap ∧ (compressLoop src cap ip anchor ht op).1 ≤ cap) ↔
      ¬ Overrun cap op.length (sequences src ip anchor ht) := by
  fun_induction sequences src ip anchor ht generalizing op with
  | case1 ip anchor ht hlim h ref hno =>
    rename_i ih
    rw [compressLoop_skip src cap ip anchor ht op hlim hno]
    exact ih (by omega) hs hop
  | case2 ip anchor ht hlim h ref hno next =>
    rename_i ih
    rw [not_or,not_lt,not_ne_iff] at hno
    have hf : Found src anchor ip ref := ⟨ha,hlim,UInt16.toNat_lt _,hno.1,hno.2⟩
    obtain ⟨hl,hend,hm⟩ := hf.emitted
    rw [compressLoop_match src cap ip anchor ht op ref hlim rfl hno.1 hno.2]
    obtain ⟨h1,h2⟩ := overrun_cons cap op.length (ip-anchor,some (matchLength src ip ref))
      (sequences src next next (tableAfter src ht ip next))
    split
    · exact iff_of_true ⟨hop,by omega⟩ (h1 ‹_›)
    obtain ⟨h2,h3⟩ := h2 (Nat.not_lt.mp ‹_›)
    have hlen : (op ++ emitSequence (slice src anchor (ip-anchor)) (ip-ref) (matchLength src ip ref)).length =
        op.length+written (ip-anchor,some (matchLength src ip ref)) := by
      rw [length_append,emitSequence_length _ _ hm,hl]
    by_cases hw : op.length+written (ip-anchor,some (matchLength src ip ref)) ≤ cap
    · rw [h2 hw,← hlen]
      exact ih (le_refl _) hend (hlen ▸ hw)
    · -- what is written beyond the capacity stays written
      refine iff_of_false (fun hr => hw ?_) fun h => h (h3 (by omega))
      rw [← hlen]
      exact (compressLoop_grows _ (le_refl _) hend).trans hr.1
  | case3 ip anchor ht hlim =>
    rw [compressLoop_done src cap ip anchor ht op hlim]
    exact finishBlock_within hop hs

theorem lz4Compress_within_iff (src : Bytes) (cap : Nat) :
    ((lz4Compress src cap).2.length ≤ cap ∧ (lz4Compress src cap).1 ≤ cap) ↔
      lz4MaxInputSize < src.length ∨ ¬ Overrun cap 0 (sequences src 1 0 fun _ => 0) := by
  unfold lz4Compress
  split_ifs with h0 hmax
  · refine iff_of_true ⟨zero_le _,by omega⟩ (.inr ?_)
    rw [sequences,if_neg (by omega),h0]
    rintro (⟨-,h⟩ | h)
    · exact absurd h (by decide)
    · exact h
  · exact iff_of_true ⟨zero_le _,by omega⟩ (.inl hmax)
  · rw [or_iff_right hmax]
    exact compressLoop_within _ (zero_le _) (zero_le _) (zero_le _)

theorem lz4Compress_overrun : lz4Compress [1,2,3,4,5,6,7,8,9,10,11,12,13,14,15] 16 =
    (17,[240,0,1,2,3,4,5,6,7,8,9,10,11,12,13,14,15]) := by
  decide +kernel

end AevOS.Lz4
