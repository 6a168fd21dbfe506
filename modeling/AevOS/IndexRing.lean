import AevOS.RingWindow

/-! A ring between two free-running indices of `w` bits, which wrap around at `2 ^ w`; the size of the
ring divides that. -/

namespace AevOS.IndexRing
open ArrayPrefix RingWindow

def pending {α : Type} {w : Nat} (N : Nat) (slots : Nat → α) (first last : BitVec w) : List α :=
  window N slots first.toNat (last-first).toNat

section
variable {α : Type} {w N : Nat} {slots : Nat → α} {first last : BitVec w}

theorem pending_length : (pending N slots first last).length = (last-first).toNat := window_length _ _ _

theorem pending_eq_nil_iff : pending N slots first last = [] ↔ first = last := by
  have hz : (last-first).toNat = 0 ↔ last-first = 0 := by
    rw [← BitVec.toNat_inj]
    simp
  rw [← List.length_eq_zero_iff,pending_length,hz,sub_eq_zero]
  exact eq_comm

theorem slot_last (hN : N ∣ 2^w) : (first.toNat+(last-first).toNat)%N = last.toNat%N := by
  have hf := first.isLt
  have hl := last.isLt
  have hsum : (first.toNat+(last-first).toNat)%2^w = last.toNat := by
    rw [BitVec.toNat_sub,Nat.add_mod_mod,
      show first.toNat+(2^w-first.toNat+last.toNat) = last.toNat+2^w by omega,Nat.add_mod_right]
    exact Nat.mod_eq_of_lt hl
  rw [← Nat.mod_mod_of_dvd _ hN,hsum]

theorem toNat_succ (i : BitVec w) : (i+1).toNat = (i.toNat+1)%2^w := by
  rw [BitVec.toNat_add,BitVec.ofNat_eq_ofNat,BitVec.toNat_ofNat,Nat.add_mod_mod]

theorem pending_write (hN : N ∣ 2^w) (hr : (pending N slots first last).length < N) (x : α) :
    pending N (setAt slots (last.toNat%N) x) first last = pending N slots first last := by
  rw [pending_length] at hr
  rw [pending,← slot_last hN]
  apply window_setAt
  intro i hi
  exact slot_ne hi (by omega)

theorem pending_publish (hN : N ∣ 2^w) (hw : N < 2^w) (hr : (pending N slots first last).length < N) :
    pending N slots first (last+1) = pending N slots first last ++ [slots (last.toNat%N)] := by
  rw [pending_length] at hr
  rw [pending,add_sub_right_comm,toNat_succ,Nat.mod_eq_of_lt (by omega),window_succ,slot_last hN]
  rfl

theorem pending_push (hN : N ∣ 2^w) (hw : N < 2^w) (hr : (pending N slots first last).length < N) (x : α) :
    pending N (setAt slots (last.toNat%N) x) first (last+1) = pending N slots first last ++ [x] := by
  have hwr := pending_write hN hr x
  rw [pending_publish hN hw (by rwa [hwr]),hwr,setAt_self]

theorem pending_take (hN : N ∣ 2^w) (hne : first ≠ last) :
    pending N slots first last = slots (first.toNat%N) :: pending N slots (first+1) last := by
  have hpos : 0 < (last-first).toNat := by
    rw [← @pending_length α w N slots,List.length_pos_iff]
    exact fun hnil => hne (pending_eq_nil_iff.mp hnil)
  have hb : (last-first).toNat = ((last-(first+1)).toNat+1)%2^w := by
    rw [← toNat_succ]
    congr 1
    ring
  have hc : (last-first).toNat = (last-(first+1)).toNat+1 := by
    have hlt := (last-(first+1)).isLt
    rcases lt_or_ge ((last-(first+1)).toNat+1) (2^w) with hl | hf
    · rwa [Nat.mod_eq_of_lt hl] at hb
    · rw [show (last-(first+1)).toNat+1 = 2^w by omega,Nat.mod_self] at hb
      omega
  rw [pending,hc,window_cons,pending]
  congr 1
  apply window_congr_tail
  rw [toNat_succ,Nat.mod_mod_of_dvd _ hN]

end

end AevOS.IndexRing
