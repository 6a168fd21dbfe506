import AevOS.ArrayPrefix

/-! A ledger of allocations and releases, sound if every release is of a block in use. -/

namespace AevOS.Ledger
open ArrayPrefix

inductive Event where
  | alloc (p : Nat)
  | free (p : Nat)
  deriving DecidableEq

def after (used : Nat → Bool) : List Event → Nat → Bool
  | [] => used
  | .alloc p :: es => after (setAt used p true) es
  | .free p :: es => after (setAt used p false) es

def Sound (used : Nat → Bool) : List Event → Prop
  | [] => True
  | .alloc p :: es => Sound (setAt used p true) es
  | .free p :: es => used p = true ∧ Sound (setAt used p false) es

/-- Between two releases of a block it is allocated again. -/
def FreedOnce (log : List Event) : Prop :=
  ∀ (p : Nat) (before between rest : List Event),
    log = before ++ .free p :: (between ++ .free p :: rest) → .alloc p ∈ between

section
variable {used : Nat → Bool} {es es' : List Event}

theorem after_append (used : Nat → Bool) (es es' : List Event) :
    after used (es ++ es') = after (after used es) es' := by
  induction es generalizing used with
  | nil => rfl
  | cons e es ih =>
    cases e with
    | alloc p => exact ih (setAt used p true)
    | free p => exact ih (setAt used p false)

theorem sound_append : Sound used (es ++ es') ↔ Sound used es ∧ Sound (after used es) es' := by
  induction es generalizing used with
  | nil => exact (true_and _).symm ▸ Iff.rfl
  | cons e es ih =>
    cases e with
    | alloc p => exact ih
    | free p =>
      rw [List.cons_append,Sound,ih,Sound,and_assoc]
      rfl

theorem after_unused {p : Nat} (h : used p = false) (hno : .alloc p ∉ es) : after used es p = false := by
  induction es generalizing used with
  | nil => exact h
  | cons e es ih =>
    rw [List.mem_cons,not_or] at hno
    cases e with
    | alloc q =>
      have hpq : p ≠ q := fun heq => hno.1 (by rw [heq])
      exact ih (by rw [setAt_ne _ _ hpq]; exact h) hno.2
    | free q =>
      refine ih ?_ hno.2
      by_cases hpq : p = q
      · rw [hpq,setAt_self]
      · rw [setAt_ne _ _ hpq]
        exact h

theorem Sound.freedOnce (h : Sound used es) : FreedOnce es := by
  intro p before between rest hlog
  by_contra hno
  rw [hlog,sound_append] at h
  obtain ⟨-,-,hr⟩ := h
  rw [sound_append] at hr
  obtain ⟨-,hu,-⟩ := hr
  rw [after_unused (setAt_self _ _ _) hno] at hu
  exact Bool.noConfusion hu

end

end AevOS.Ledger
