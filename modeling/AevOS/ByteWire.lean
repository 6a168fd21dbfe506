import Mathlib

/-! Byte strings and the little-endian words written into them. -/

namespace AevOS.Wire
open List

abbrev Bytes := List UInt8

def leValue : Bytes → Nat
  | [] => 0
  | b :: bs => b.toNat+256*leValue bs

def leBytes : Nat → Nat → Bytes
  | 0, _ => []
  | w+1, v => UInt8.ofNat v :: leBytes w (v/256)

@[simp] theorem leBytes_length (w v : Nat) : (leBytes w v).length = w := by
  induction w generalizing v with
  | zero => rfl
  | succ w ih => simp [leBytes,ih]

theorem leValue_lt (bs : Bytes) : leValue bs < 256^bs.length := by
  induction bs with
  | nil => simp [leValue]
  | cons b bs ih =>
    have hb := b.toNat_lt
    simp only [leValue,length_cons,pow_succ]
    omega

theorem leValue_leBytes_mod (w v : Nat) : leValue (leBytes w v) = v%256^w := by
  induction w generalizing v with
  | zero => simp [leBytes,leValue,Nat.mod_one]
  | succ w ih =>
    have hmod : v%256^(w+1) = v%256+256*(v/256%256^w) := by
      rw [Nat.pow_succ',Nat.mod_mul]
    rw [hmod,leBytes,leValue,ih,UInt8.toNat_ofNat']

theorem leValue_leBytes (w v : Nat) (hv : v < 256^w) : leValue (leBytes w v) = v := by
  rw [leValue_leBytes_mod,Nat.mod_eq_of_lt hv]

theorem leValue_word32 (x : UInt32) : leValue (leBytes 4 x.toNat) = x.toNat :=
  leValue_leBytes 4 _ x.toNat_lt

theorem leValue_word64 (x : UInt64) : leValue (leBytes 8 x.toNat) = x.toNat :=
  leValue_leBytes 8 _ x.toNat_lt

theorem leBytes_leValue (bs : Bytes) : leBytes bs.length (leValue bs) = bs := by
  induction bs with
  | nil => rfl
  | cons b bs ih =>
    have hb := b.toNat_lt
    have hd : (b.toNat+256*leValue bs)/256 = leValue bs := by omega
    have hm : UInt8.ofNat (b.toNat+256*leValue bs) = b := by
      apply UInt8.toNat_inj.mp
      simp only [UInt8.toNat_ofNat']
      omega
    simp only [length_cons,leBytes,leValue,hd,hm,ih]

variable {as bs : Bytes} {i n : Nat}

theorem leValue_injective (hl : as.length = bs.length) (hv : leValue as = leValue bs) : as = bs := by
  rw [← leBytes_leValue as,← leBytes_leValue bs,hl,hv]

def byteAt (bs : Bytes) (i : Nat) : UInt8 := bs.getD i 0

theorem byteAt_of_lt (h : i < bs.length) : byteAt bs i = bs[i] := by
  simp [byteAt,h]

def slice (bs : Bytes) (i n : Nat) : Bytes := (bs.drop i).take n

theorem slice_length (h : i+n ≤ bs.length) : (slice bs i n).length = n := by
  simp [slice]
  omega

theorem slice_append_right (bs : Bytes) (n : Nat) (h : as.length ≤ i) :
    slice (as ++ bs) i n = slice bs (i-as.length) n := by
  rw [slice,slice,drop_append,drop_eq_nil_of_le h,nil_append]

theorem slice_append_add (as bs : Bytes) (i n : Nat) :
    slice (as ++ bs) (as.length+i) n = slice bs i n := by
  rw [slice_append_right _ _ (Nat.le_add_right _ _),Nat.add_sub_cancel_left]

theorem slice_front (bs : Bytes) (h : as.length = n) : slice (as ++ bs) 0 n = as := by
  subst h
  rw [slice,drop_zero,take_left]

theorem take_append_slice (bs : Bytes) (i n : Nat) : bs.take i ++ slice bs i n = bs.take (i+n) := by
  rw [slice,take_add]

theorem take_succ_byteAt (h : i < bs.length) : bs.take (i+1) = bs.take i ++ [byteAt bs i] := by
  rw [take_add_one,getElem?_eq_getElem h,byteAt_of_lt h]
  rfl

theorem byteAt_take (h : i < n) : byteAt (bs.take n) i = byteAt bs i := by
  simp [byteAt,getD_eq_getElem?_getD,getElem?_take_of_lt h]

theorem byteAt_append_left (h : i < as.length) :
    byteAt (as ++ bs) i = byteAt as i := getD_append _ _ _ _ h

theorem byteAt_append_right (h : as.length ≤ i) :
    byteAt (as ++ bs) i = byteAt bs (i-as.length) := getD_append_right _ _ _ _ h

end AevOS.Wire
