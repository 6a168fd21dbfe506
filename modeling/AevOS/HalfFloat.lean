import Mathlib

/-! `f32_to_f16` of `llm/quantize.c`. Magnitudes are counted in units of `2^-149`, the least positive
binary32 value; a binary16 unit is `2^125` of them. -/

namespace AevOS.HalfFloat
open UInt16 (ofNat)

/-- `none` is a shift of a 32-bit word by 32 or more. -/
def f32ToF16 (bits : UInt32) : Option UInt16 :=
  let sign := (bits.toNat >>> 16) &&& 0x8000
  let expo : Int := ((bits.toNat >>> 23) &&& 0xFF : Nat)-127
  let mant := bits.toNat &&& 0x7FFFFF
  if expo > 15 then some (ofNat (sign ||| 0x7C00))
  else if expo < -14 then
    if expo < -24 then some (ofNat sign)
    else
      let shift := (-expo-1).toNat
      if 32 ≤ shift+13 then none
      else some (ofNat (sign ||| (((mant ||| 0x800000) >>> (shift+13)) &&& 0x3FF)))
  else some (ofNat (sign ||| (expo+15).toNat <<< 10 ||| mant >>> 13))

def expo (bits : UInt32) : Nat := bits.toNat/2^23%2^8
def mant (bits : UInt32) : Nat := bits.toNat%2^23

def magnitude (bits : UInt32) : Nat :=
  if expo bits = 0 then mant bits else (2^23+mant bits)*2^(expo bits-1)

/-- The value of the binary16 pattern `h` without its sign; the pattern of infinity has the
value the next exponent would have. -/
def halfMagnitude (h : Nat) : Nat :=
  (if h/2^10 = 0 then h%2^10 else (2^10+h%2^10)*2^(h/2^10-1))*2^125

structure TruncatesTo (bits : UInt32) (h : UInt16) : Prop where
  sign : h.toNat/2^15 = bits.toNat/2^31
  overflow : 2^165 ≤ magnitude bits → h.toNat%2^15 = 0x7C00
  value : magnitude bits < 2^165 → h.toNat%2^15 < 0x7C00 ∧
    IsGreatest {v | v ≤ magnitude bits ∧ ∃ k < 0x7C00, v = halfMagnitude k}
      (halfMagnitude (h.toNat%2^15))

variable {bits : UInt32} {k : Nat}

theorem halfMagnitude_subnormal (hk : k ≤ 2^10) : halfMagnitude k = k*2^125 := by
  rcases hk.lt_or_eq with h | rfl
  · rw [halfMagnitude,if_pos (by omega),Nat.mod_eq_of_lt h]
  · rfl

theorem halfMagnitude_normal {e q : Nat} (hq : q ≤ 2^10) :
    halfMagnitude (2^10*(e+1)+q) = (2^10+q)*2^e*2^125 := by
  rcases hq.lt_or_eq with h | rfl
  · rw [halfMagnitude,show (2^10*(e+1)+q)/2^10 = e+1 by omega,if_neg (by omega),
      show (2^10*(e+1)+q)%2^10 = q by omega,Nat.add_sub_cancel]
  · rw [halfMagnitude,show (2^10*(e+1)+2^10)/2^10 = e+1+1 by omega,if_neg (by omega),
      show (2^10*(e+1)+2^10)%2^10 = 0 by omega,Nat.add_sub_cancel]
    ring

theorem halfMagnitude_strictMono : StrictMono halfMagnitude := by
  refine strictMono_nat_of_lt_succ fun k => ?_
  rcases lt_or_ge k (2^10) with h | h
  · rw [halfMagnitude_subnormal h.le,halfMagnitude_subnormal (Nat.succ_le_of_lt h)]
    omega
  · obtain ⟨e,q,hq,rfl⟩ : ∃ e q, q < 2^10 ∧ k = 2^10*(e+1)+q :=
      ⟨k/2^10-1,k%2^10,by omega,by omega⟩
    rw [halfMagnitude_normal hq.le,add_assoc,halfMagnitude_normal (Nat.succ_le_of_lt hq)]
    gcongr
    omega

theorem isGreatest_of_between (hk : k < 0x7C00) (hl : halfMagnitude k ≤ magnitude bits)
    (hr : magnitude bits < halfMagnitude (k+1)) :
    IsGreatest {v | v ≤ magnitude bits ∧ ∃ k < 0x7C00, v = halfMagnitude k} (halfMagnitude k) := by
  refine ⟨⟨hl,k,hk,rfl⟩,?_⟩
  rintro v ⟨hv,j,-,rfl⟩
  have hj := halfMagnitude_strictMono.lt_iff_lt.mp (hv.trans_lt hr)
  exact halfMagnitude_strictMono.monotone (Nat.le_of_lt_succ hj)

theorem f32ToF16_eq (bits : UInt32) : f32ToF16 bits =
    if 142 < expo bits then some (ofNat (2^15*(bits.toNat/2^31)+0x7C00)) else if 113 ≤ expo bits then
      some (ofNat (2^15*(bits.toNat/2^31) + (2^10*(expo bits-112)+mant bits/2^13)))
    else if 103 ≤ expo bits ∧ expo bits ≤ 107 then none
    else some (ofNat (2^15*(bits.toNat/2^31))) := by
  have hb := bits.toNat_lt
  have hs : (bits.toNat >>> 16) &&& 0x8000 = 2^15*(bits.toNat/2^31) := by
    rw [show 0x8000 = 2^15 by rfl,Nat.and_two_pow,Nat.testBit_shiftRight,Nat.testBit_eq_decide_div_mod_eq]
    have : bits.toNat/2^31 < 2 := by omega
    interval_cases bits.toNat/2^31 <;> simp
  have he : (bits.toNat >>> 23) &&& 0xFF = expo bits := by
    rw [Nat.shiftRight_eq_div_pow]
    exact Nat.and_two_pow_sub_one_eq_mod _ 8
  have hm : bits.toNat &&& 0x7FFFFF = mant bits := Nat.and_two_pow_sub_one_eq_mod _ 23
  have hlt : mant bits < 2^23 := Nat.mod_lt _ (by decide)
  have hor : ∀ r < 2^15, 2^15*(bits.toNat/2^31) ||| r = 2^15*(bits.toNat/2^31)+r :=
    fun r hr => (Nat.two_pow_add_eq_or_of_lt hr _).symm
  simp only [f32ToF16,hs,he,hm]
  by_cases h1 : 142 < expo bits
  · rw [if_pos (by omega),if_pos h1,hor _ (by decide)]
  rw [if_neg (by omega),if_neg h1]
  by_cases h2 : 113 ≤ expo bits
  · rw [if_neg (by omega),if_pos h2,Nat.or_assoc,Nat.shiftRight_eq_div_pow,
      ← Nat.shiftLeft_add_eq_or_of_lt (show mant bits/2^13 < 2^10 by omega),Nat.shiftLeft_eq,
      show ((expo bits : Int)-127+15).toNat = expo bits-112 by omega,mul_comm _ (2^10),
      hor _ (by omega)]
  rw [if_pos (by omega),if_neg h2]
  by_cases h3 : 103 ≤ expo bits
  · rw [if_neg (by omega)]
    by_cases h4 : expo bits ≤ 107
    · rw [if_pos (by omega),if_pos ⟨h3,h4⟩]
    · -- the mantissa, 24 bits with the hidden one, is shifted out
      have hz : (mant bits ||| 0x800000) >>> ((-((expo bits : Int)-127)-1).toNat+13) = 0 := by
        rw [Nat.shiftRight_eq_div_pow]
        exact Nat.div_eq_of_lt ((Nat.or_lt_two_pow (n := 24) (by omega) (by decide)).trans_le
          (Nat.pow_le_pow_right (by decide) (by omega)))
      rw [if_neg (by omega),if_neg (by omega),hz,Nat.zero_and,Nat.or_zero]
  · rw [if_pos (by omega),if_neg (by omega)]

theorem magnitude_lt_iff (bits : UInt32) {c : Nat} (hc : 0 < c) : magnitude bits < 2^(22+c) ↔ expo bits < c := by
  have hlt : mant bits < 2^23 := Nat.mod_lt _ (by decide)
  obtain ⟨c,rfl⟩ : ∃ j, c = j+1 := ⟨c-1,by omega⟩
  rw [show 22+(c+1) = 23+c by omega,pow_add,magnitude]
  split
  · have := Nat.two_pow_pos c
    exact iff_of_true (by nlinarith) (by omega)
  obtain ⟨e,he⟩ : ∃ e, expo bits = e+1 := ⟨expo bits-1,by omega⟩
  rw [he,Nat.add_sub_cancel,Nat.succ_lt_succ_iff]
  constructor
  · intro h
    by_contra hce
    exact absurd h (not_lt.mpr (Nat.mul_le_mul (Nat.le_add_right _ _)
      (Nat.pow_le_pow_right (by decide) (Nat.not_lt.mp hce))))
  · intro h
    calc (2^23+mant bits)*2^e < 2^24*2^e :=
          Nat.mul_lt_mul_of_pos_right (by omega) (Nat.two_pow_pos e)
      _ = 2^23*2^(e+1) := by ring
      _ ≤ 2^23*2^c := Nat.mul_le_mul_left _ (Nat.pow_le_pow_right (by decide) h)

theorem truncatesTo_iff {r : Nat} (hr : r < 2^15) :
    TruncatesTo bits (ofNat (2^15*(bits.toNat/2^31)+r)) ↔
      (2^165 ≤ magnitude bits → r = 0x7C00) ∧ (magnitude bits < 2^165 → r < 0x7C00 ∧
        IsGreatest {v | v ≤ magnitude bits ∧ ∃ k < 0x7C00, v = halfMagnitude k} (halfMagnitude r)) := by
  have hb := bits.toNat_lt
  have ht : (ofNat (2^15*(bits.toNat/2^31)+r)).toNat = 2^15*(bits.toNat/2^31)+r :=
    UInt16.toNat_ofNat_of_lt' (show _ < 2^16 by omega)
  have hm : (2^15*(bits.toNat/2^31)+r)%2^15 = r := by omega
  constructor
  · rintro ⟨-,h1,h2⟩
    rw [ht,hm] at h1 h2
    exact ⟨h1,h2⟩
  · rintro ⟨h1,h2⟩
    exact ⟨by rw [ht]; omega,by rwa [ht,hm],by rwa [ht,hm]⟩

theorem f32ToF16_truncates_iff (bits : UInt32) :
    (∃ h, f32ToF16 bits = some h ∧ TruncatesTo bits h) ↔
      magnitude bits < 2^125 ∨ 2^135 ≤ magnitude bits := by
  have h1 := magnitude_lt_iff bits (c := 103) (by decide)
  have h2 := magnitude_lt_iff bits (c := 113) (by decide)
  have h3 := magnitude_lt_iff bits (c := 143) (by decide)
  have hlt : mant bits < 2^23 := Nat.mod_lt _ (by decide)
  have hone : halfMagnitude 1 = 2^125 := by decide
  rw [← not_lt,h1,h2,f32ToF16_eq]
  split_ifs with hi hn hs
  · simp only [Option.some.injEq,exists_eq_left',truncatesTo_iff (show 0x7C00 < 2^15 by decide)]
    exact iff_of_true ⟨fun _ => trivial,fun h => absurd (h3.mp h) (by omega)⟩ (by omega)
  · have hr : 2^10*(expo bits-112)+mant bits/2^13 < 0x7C00 := by omega
    simp only [Option.some.injEq,exists_eq_left',truncatesTo_iff (hr.trans (by decide))]
    refine iff_of_true ⟨fun h => absurd (h3.mpr (by omega)) (not_lt.mpr h),fun _ => ⟨hr,?_⟩⟩ (by omega)
    obtain ⟨e,he⟩ : ∃ e, expo bits = e+113 := ⟨expo bits-113,by omega⟩
    have hmag : magnitude bits = (2^23+mant bits)*2^e*2^112 := by
      rw [magnitude,if_neg (by omega),he,Nat.mul_assoc,← Nat.pow_add]
      rfl
    rw [show expo bits-112 = e+1 by omega] at hr ⊢
    apply isGreatest_of_between hr
    · rw [halfMagnitude_normal (by omega),hmag,show 2^125 = 2^13*2^112 by rfl]
      calc (2^10+mant bits/2^13)*2^e*(2^13*2^112) = (2^10+mant bits/2^13)*2^13*2^e*2^112 := by ring
        _ ≤ _ := by gcongr; omega
    · rw [Nat.add_assoc,halfMagnitude_normal (by omega),hmag,show 2^125 = 2^13*2^112 by rfl]
      calc (2^23+mant bits)*2^e*2^112 < (2^10+(mant bits/2^13+1))*2^13*2^e*2^112 := by gcongr; omega
        _ = _ := by ring
  · simp only [false_and,exists_false,false_iff]
    omega
  · have hz : halfMagnitude 0 = 0 := by decide
    have hr := @truncatesTo_iff bits 0 (by decide)
    rw [Nat.add_zero] at hr
    simp only [Option.some.injEq,exists_eq_left',hr]
    by_cases h : expo bits < 103
    · refine iff_of_true ⟨fun h' => absurd (h3.mpr (by omega)) (not_lt.mpr h'),fun _ => ⟨by decide,?_⟩⟩ (by omega)
      exact isGreatest_of_between (by decide) (by rw [hz]; exact Nat.zero_le _) (by rw [hone]; exact h1.mpr h)
    · -- a subnormal result would be needed, and the code gives zero
      refine iff_of_false (fun h' => ?_) (by omega)
      have hg := (h'.2 (h3.mpr (by omega))).2.2 ⟨hone ▸ not_lt.mp (mt h1.mp h),1,by decide,rfl⟩
      rw [hz,hone] at hg
      exact absurd hg (by decide)

/-- The least normal value halved: the code gives zero, not the subnormal `2^-15`. -/
theorem f32ToF16_subnormal :
    f32ToF16 0x38000000 = some 0 ∧ magnitude 0x38000000 = halfMagnitude 512 ∧
      f32ToF16 0x33800000 = none := by
  decide

end AevOS.HalfFloat
