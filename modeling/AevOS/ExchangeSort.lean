import Mathlib

/-! The exchange sort: each place in turn is compared with all behind it and takes whatever
has a larger key. -/

namespace AevOS.ExchangeSort
open List

variable {α β κ : Type} [LinearOrder κ]

def pass (key : α → κ) (first : α) : List α → α × List α
  | [] => (first,[])
  | x :: rest =>
    if key first < key x then
      let r := pass key x rest
      (r.1,first :: r.2)
    else
      let r := pass key first rest
      (r.1,x :: r.2)

def sort (key : α → κ) : Nat → List α → List α
  | 0, l => l
  | _, [] => []
  | n+1, x :: rest =>
    let r := pass key x rest
    r.1 :: sort key n r.2

variable {f : α → κ}

theorem pass_perm (first : α) (l : List α) :
    ((pass f first l).1 :: (pass f first l).2).Perm (first :: l) := by
  fun_induction pass f first l with
  | case1 => simp
  | case2 first x rest _ r ih => exact (Perm.swap _ _ _).trans (ih.cons first)
  | case3 first x rest _ r ih => exact ((Perm.swap _ _ _).trans (ih.cons x)).trans (Perm.swap _ _ _)

theorem pass_max (first : α) (l : List α) : ∀ x ∈ first :: l, f x ≤ f (pass f first l).1 := by
  fun_induction pass f first l with
  | case1 => simp
  | case2 first x rest h r ih =>
    simp only [forall_mem_cons] at ih ⊢
    exact ⟨h.le.trans ih.1,ih⟩
  | case3 first x rest h r ih =>
    simp only [forall_mem_cons] at ih ⊢
    exact ⟨ih.1,(not_lt.mp h).trans ih.1,ih.2⟩

theorem pass_map (g : β → α) (first : β) (l : List β) : pass f (g first) (l.map g) =
    (g (pass (f ∘ g) first l).1,(pass (f ∘ g) first l).2.map g) := by
  induction l generalizing first with
  | nil => rfl
  | cons x l ih => by_cases h : f (g first) < f (g x) <;> simp [pass,h,ih]

theorem sort_perm (n : Nat) (l : List α) : (sort f n l).Perm l := by
  fun_induction sort f n l with
  | case1 | case2 => rfl
  | case3 n x rest r ih => exact (ih.cons _).trans (pass_perm x rest)

theorem sort_sorted {n : Nat} {l : List α} (h : l.length ≤ n) :
    (sort f n l).Pairwise (fun a b => f b ≤ f a) := by
  fun_induction sort f n l with
  | case1 l => simp [length_eq_zero_iff.mp (Nat.le_zero.mp h)]
  | case2 => exact Pairwise.nil
  | case3 n x rest r ih =>
    have hp := pass_perm (f := f) x rest
    refine pairwise_cons.mpr ⟨fun y hy => ?_,ih ?_⟩
    · refine pass_max x rest y (hp.subset (mem_cons_of_mem _ ?_))
      exact (sort_perm n _).subset hy
    · simpa using hp.length_eq.trans_le h

theorem sort_map (g : β → α) (n : Nat) (l : List β) : sort f n (l.map g) = (sort (f ∘ g) n l).map g := by
  induction n generalizing l with
  | zero => rfl
  | succ n ih =>
    cases l with
    | nil => rfl
    | cons x l => simp [sort,pass_map,ih]

end AevOS.ExchangeSort
