import Mathlib

/-! Nodes that name their parent. A chain follows the parents up to the root through nodes
of strictly smaller names. -/

namespace AevOS.ParentChain

variable {ι : Type} [LT ι]

inductive Chain (parent : ι → Option ι) (root : ι) : ι → ι → Nat → Prop where
  | root {b : ι} : Chain parent root b root 0
  | up {b i p : ι} {k : Nat} : i ≠ root → i < b → parent i = some p →
      Chain parent root i p k → Chain parent root b i (k+1)

variable {parent parent' : ι → Option ι} {root : ι}

variable {k : Nat}

theorem Chain.mono {b i : ι} (h : Chain parent root b i k)
    (hsub : ∀ j p, parent j = some p → parent' j = some p) : Chain parent' root b i k := by
  induction h with
  | root => exact .root
  | up hne hlt hp _ ih => exact .up hne hlt (hsub _ _ hp) ih

theorem Chain.restrict {b i : ι} (h : Chain parent root b i k) (kept : ι → Prop)
    (hsub : ∀ j p, kept j → parent j = some p → parent' j = some p)
    (hup : ∀ j p, kept j → parent j = some p → p ≠ root → kept p) (hi : i ≠ root → kept i) :
    Chain parent' root b i k := by
  induction h with
  | root => exact .root
  | up hne hlt hp _ ih =>
    have hk := hi hne
    exact .up hne hlt (hsub _ _ hk hp) (ih (hup _ _ hk hp))

theorem Chain.length_le [DecidableEq ι] [DecidableLT ι] [IsStrictOrder ι (· < ·)] {b i : ι}
    (h : Chain parent root b i k) (nodes : Finset ι) (hmem : ∀ j p, parent j = some p → j ∈ nodes) :
    k ≤ (nodes.filter (· < b)).card := by
  induction h with
  | root => exact Nat.zero_le _
  | @up b i p k hne hlt hp _ ih =>
    have hin : i ∈ nodes.filter (· < b) := Finset.mem_filter.mpr ⟨hmem i p hp,hlt⟩
    have hnot : i ∉ nodes.filter (· < i) := by simp [irrefl]
    have hsub : insert i (nodes.filter (· < i)) ⊆ nodes.filter (· < b) := by
      intro j hj
      rcases Finset.mem_insert.mp hj with rfl | hj
      · exact hin
      · obtain ⟨hj,hji⟩ := Finset.mem_filter.mp hj
        exact Finset.mem_filter.mpr ⟨hj,trans_of (· < ·) hji hlt⟩
    have := Finset.card_le_card hsub
    rw [Finset.card_insert_of_notMem hnot] at this
    omega

end AevOS.ParentChain
