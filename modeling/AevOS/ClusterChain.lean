import Mathlib

/-! Files as chains of clusters of one size, linked by a table. -/

namespace AevOS.Clusters
open List

variable {α β : Type}

def Chain (next : α → Option α) : List α → Prop
  | [] => False
  | [c] => next c = none
  | c :: d :: l => next c = some d ∧ Chain next (d :: l)

theorem Chain.congr {next next' : α → Option α} {l : List α} (h : Chain next l)
    (heq : ∀ c ∈ l, next' c = next c) : Chain next' l := by
  induction l with
  | nil => exact h
  | cons c l ih =>
    cases l with
    | nil => exact (heq c mem_cons_self).trans h
    | cons d l =>
      exact ⟨(heq c mem_cons_self).trans h.1,ih h.2 (fun e he => heq e (mem_cons_of_mem _ he))⟩

theorem chain_range' {next : Nat → Option Nat} (n a : Nat) (hl : ∀ c, a ≤ c → c < a+n → next c = some (c+1))
    (hend : next (a+n) = none) : Chain next (range' a (n+1)) := by
  induction n generalizing a with
  | zero => exact hend
  | succ n ih =>
    have hr : Chain next (range' (a+1) (n+1)) :=
      ih (a+1) (fun c hlow hh => hl c (by omega) (by omega)) (by rw [← hend]; congr 1; omega)
    exact ⟨hl a (le_refl a) (by omega),hr⟩

theorem length_flatMap_uniform {f : α → List β} {m : Nat} (h : ∀ c, (f c).length = m) (l : List α) :
    (l.flatMap f).length = m*l.length := by
  simp [length_flatMap,h,mul_comm]

theorem drop_flatMap_uniform {f : α → List β} {m : Nat} (h : ∀ c, (f c).length = m) (l : List α) (k : Nat) :
    (l.flatMap f).drop (m*k) = (l.drop k).flatMap f := by
  induction k generalizing l with
  | zero => rfl
  | succ k ih =>
    cases l with
    | nil => simp
    | cons c l =>
      rw [flatMap_cons,drop_succ_cons,← ih l,mul_add,mul_one,add_comm,← drop_drop,drop_left' (h c)]

end AevOS.Clusters
