import AevOS.RingWindow

/-! A ring whose entries carry a phase bit, turned over each time around; the reader knows a new entry by
the bit that is due. -/

namespace AevOS.PhaseRing
open ArrayPrefix RingWindow

def phaseBit (N i : Nat) : Bool := decide (i/N%2 = 0)

structure Holds {β : Type} (N : Nat) (bit : β → Bool) (slots : Nat → β) (h p : Nat) (unread : List β) : Prop where
  le : h ≤ p
  room : p < h+N
  entries : window N slots h (p-h) = unread
  fresh : ∀ i, h ≤ i → i < p → bit (slots (i%N)) = phaseBit N i
  stale : ∀ i, p ≤ i → i < h+N → bit (slots (i%N)) = !phaseBit N i

section
variable {β : Type} {N : Nat} {bit : β → Bool} {slots : Nat → β} {h p : Nat} {unread : List β}

theorem phaseBit_succ (i : Nat) : phaseBit N (i+1) = if (i+1)%N = 0 then !phaseBit N i else phaseBit N i := by
  have hdiv : (i+1)/N = i/N+if N ∣ i+1 then 1 else 0 := Nat.succ_div
  unfold phaseBit
  split
  · rename_i hz
    rw [hdiv,if_pos (Nat.dvd_of_mod_eq_zero hz),← decide_not,decide_eq_decide]
    omega
  · rename_i hne
    rw [hdiv,if_neg (fun hdvd => hne (Nat.mod_eq_zero_of_dvd hdvd)),add_zero]

theorem phaseBit_add (hN : 0 < N) (i : Nat) : phaseBit N (i+N) = !phaseBit N i := by
  unfold phaseBit
  rw [Nat.add_div_right _ hN,← decide_not,decide_eq_decide]
  omega

theorem slot_succ (i : Nat) : (i%N+1)%N = (i+1)%N := by rw [Nat.mod_add_mod]

theorem holds_start (hN : 0 < N) (hs : ∀ i, i < N → bit (slots i) = false) : Holds N bit slots 0 0 [] where
  le := le_refl _
  room := by omega
  entries := rfl
  fresh i hi hi' := absurd hi' (by omega)
  stale i _ hi := by
    have hlt : i < N := by omega
    rw [Nat.mod_eq_of_lt hlt,hs i hlt,phaseBit,Nat.div_eq_of_lt hlt]
    rfl

section
variable (hr : Holds N bit slots h p unread)
include hr

theorem Holds.length : unread.length = p-h := by
  rw [← hr.entries,window_length]

theorem Holds.seen_iff : bit (slots (h%N)) = phaseBit N h ↔ h < p := by
  have hle := hr.le
  have hrm := hr.room
  constructor
  · intro hbit
    by_contra hnot
    have hs := hr.stale h (by omega) (by omega)
    rw [hbit] at hs
    cases hb : phaseBit N h <;> rw [hb] at hs <;> cases hs
  · intro hlt
    exact hr.fresh h (le_refl _) hlt

theorem Holds.post (hrm : p+1 < h+N) {y : β} (hy : bit y = phaseBit N p) :
    Holds N bit (setAt slots (p%N) y) h (p+1) (unread ++ [y]) := by
  have hle := hr.le
  have ho : ∀ i, h ≤ i → i < h+N → i ≠ p → setAt slots (p%N) y (i%N) = slots (i%N) := by
    intro i hi hi' hne
    apply setAt_ne
    have h1 : h+(i-h) = i := by omega
    have h2 : h+(p-h) = p := by omega
    rcases lt_or_gt_of_ne hne with hlt | hgt
    · have hs := @slot_ne N h (i-h) (p-h) (by omega) (by omega)
      rwa [h1,h2] at hs
    · have hs := @slot_ne N h (p-h) (i-h) (by omega) (by omega)
      rw [h1,h2] at hs
      exact hs.symm
  constructor
  · omega
  · exact hrm
  · have hp := @window_pushBack β N slots h (p-h) y (by omega)
    rw [show h+(p-h) = p by omega,hr.entries] at hp
    rw [show p+1-h = p-h+1 by omega]
    exact hp
  · intro i hi hi'
    by_cases heq : i = p
    · rw [heq,setAt_self,hy]
    · rw [ho i hi (by omega) heq]
      exact hr.fresh i hi (by omega)
  · intro i hi hi'
    rw [ho i (by omega) hi' (by omega)]
    exact hr.stale i (by omega) hi'

end

theorem Holds.read {y : β} (hr : Holds N bit slots h p (y :: unread)) :
    slots (h%N) = y ∧ Holds N bit slots (h+1) p unread := by
  have hlen := hr.length
  have hrm := hr.room
  rw [List.length_cons] at hlen
  have he := hr.entries
  rw [show p-h = p-(h+1)+1 by omega,window_cons] at he
  obtain ⟨hy,hrs⟩ := List.cons.inj he
  refine ⟨hy,by omega,by omega,hrs,fun i hi hi' => hr.fresh i (by omega) hi',?_⟩
  intro i hi hi'
  by_cases heq : i = h+N
  · rw [heq,Nat.add_mod_right,phaseBit_add (by omega),Bool.not_not]
    exact hr.fresh h (le_refl _) (by omega)
  · exact hr.stale i hi (by omega)

end

end AevOS.PhaseRing
