import AevOS.ArrayPrefix

/-! Ranges of byte addresses: setting and copying them byte by byte, and objects of one
size laid out one behind the other. -/

namespace AevOS.MemRange
open ArrayPrefix

abbrev Memory := Nat → UInt8

def span (a n : Nat) : Finset Nat := Finset.Ico a (a+n)

@[simp] theorem mem_span {a n x : Nat} : x ∈ span a n ↔ a ≤ x ∧ x < a+n := Finset.mem_Ico

variable {n i : Nat} {m : Memory}

theorem span_subset {a b m : Nat} (hlow : b ≤ a) (hh : a+n ≤ b+m) :
    span a n ⊆ span b m := Finset.Ico_subset_Ico hlow hh

def setBytes (v : UInt8) : Nat → Nat → Memory → Memory
  | 0, _, m => m
  | n+1, dst, m => setBytes v n (dst+1) (setAt m dst v)

theorem setBytes_outside {v : UInt8} {dst x : Nat} (hx : x ∉ span dst n) : setBytes v n dst m x = m x := by
  induction n generalizing dst m with
  | zero => rfl
  | succ n ih =>
    rw [mem_span] at hx
    rw [setBytes,ih (by rw [mem_span]; omega),setAt_ne _ _ (by omega)]

def copyBytes : Nat → Nat → Nat → Memory → Memory
  | 0, _, _, m => m
  | n+1, dst, src, m => copyBytes n (dst+1) (src+1) (setAt m dst (m src))

theorem copyBytes_outside {dst src x : Nat} (hx : x ∉ span dst n) : copyBytes n dst src m x = m x := by
  induction n generalizing dst src m with
  | zero => rfl
  | succ n ih =>
    rw [mem_span] at hx
    rw [copyBytes,ih (by rw [mem_span]; omega),setAt_ne _ _ (by omega)]

theorem copyBytes_inside {dst src : Nat} (hd : Disjoint (span dst n) (span src n)) (hi : i < n) :
    copyBytes n dst src m (dst+i) = m (src+i) := by
  induction n generalizing dst src i m with
  | zero => omega
  | succ n ih =>
    have ha : ∀ x, x ∈ span dst (n+1) → x ∉ span src (n+1) :=
      fun x hx => Finset.disjoint_left.mp hd hx
    cases i with
    | zero =>
      have hout : dst ∉ span (dst+1) n := by
        rw [mem_span]
        omega
      exact (copyBytes_outside hout).trans (setAt_self m dst (m src))
    | succ i =>
      have hr : Disjoint (span (dst+1) n) (span (src+1) n) :=
        hd.mono (span_subset (by omega) (by omega)) (span_subset (by omega) (by omega))
      have hrd : src+1+i ≠ dst := by
        intro heq
        exact ha dst (by rw [mem_span]; omega) (by rw [mem_span]; omega)
      have hb := ih (m := setAt m dst (m src)) hr (Nat.lt_of_succ_lt_succ hi)
      rw [setAt_ne _ _ hrd] at hb
      rw [show dst+(i+1) = dst+1+i by omega,show src+(i+1) = src+1+i by omega]
      exact hb

theorem object_subset {base size : Nat} (hi : i < n) : span (base+i*size) size ⊆ span base (n*size) := by
  refine span_subset (Nat.le_add_right _ _) ?_
  have hle : (i+1)*size ≤ n*size := Nat.mul_le_mul_right size hi
  rw [Nat.succ_mul] at hle
  omega

theorem object_disjoint {base size j : Nat} (hij : i ≠ j) :
    Disjoint (span (base+i*size) size) (span (base+j*size) size) := by
  rw [Finset.disjoint_left]
  intro x hx hx'
  rw [mem_span] at hx hx'
  rcases lt_or_gt_of_ne hij with hlt | hgt
  · have hle : (i+1)*size ≤ j*size := Nat.mul_le_mul_right size hlt
    rw [Nat.succ_mul] at hle
    omega
  · have hle : (j+1)*size ≤ i*size := Nat.mul_le_mul_right size hgt
    rw [Nat.succ_mul] at hle
    omega

end AevOS.MemRange
