import Mathlib

/-! Paths: strings cut into components by a separator, of which several in a row count as one. -/

namespace AevOS.SlashPath
open List

section
variable {α : Type} [DecidableEq α] (sep : α)

def components (p : List α) : List (List α) := (p.splitOnP fun c => c == sep).filter fun c => c ≠ []
def joined (cs : List (List α)) : List α := if cs = [] then [sep] else cs.flatMap fun c => sep :: c

end

section
variable {α : Type} [DecidableEq α] {sep : α}

@[simp] theorem components_nil : components sep [] = [] := by simp [components]

theorem components_sep (p : List α) : components sep (sep :: p) = components sep p := by
  simp [components,splitOnP_cons_eq_if_modifyHead]

theorem no_sep {t : List α} (ht : sep ∉ t) : ∀ c ∈ t, (c == sep) = false :=
  fun _ hc => beq_false_of_ne fun heq => ht (heq ▸ hc)

theorem components_append {t : List α} (hne : t ≠ []) (ht : sep ∉ t) (p : List α) :
    components sep (t ++ sep :: p) = t :: components sep p := by
  rw [components,splitOnP_append_cons_of_forall_mem (no_sep ht) sep (beq_self_eq_true sep)]
  simp [components,hne]

theorem components_single {t : List α} (hne : t ≠ []) (ht : sep ∉ t) : components sep t = [t] := by
  rw [components,splitOnP_eq_singleton (no_sep ht)]
  simp [hne]

theorem components_dropWhile (p : List α) : components sep (p.dropWhile fun c => c = sep) = components sep p := by
  induction p with
  | nil => rfl
  | cons c p ih =>
    by_cases hc : c = sep
    · rw [dropWhile_cons_of_pos (by simp [hc]),ih,hc,components_sep]
    · rw [dropWhile_cons_of_neg (by simp [hc])]

theorem components_eq_cons {p : List α} (hne : p ≠ []) (hh : p.head? ≠ some sep) :
    components sep p = (p.takeWhile fun c => c ≠ sep) :: components sep (p.dropWhile fun c => c ≠ sep) := by
  have hs := takeWhile_append_dropWhile (p := fun c => decide (c ≠ sep)) (l := p)
  have hf : (p.takeWhile fun c => c ≠ sep) ≠ [] := by
    cases p with
    | nil => exact absurd rfl hne
    | cons c p =>
      have hc : c ≠ sep := fun heq => hh (by rw [heq]; rfl)
      rw [takeWhile_cons_of_pos (by simp [hc])]
      exact cons_ne_nil _ _
  have hcl : sep ∉ p.takeWhile fun c => c ≠ sep := by
    intro hmem
    have := mem_takeWhile_imp hmem
    simp at this
  cases hr : p.dropWhile fun c => c ≠ sep with
  | nil =>
    rw [hr,append_nil] at hs
    nth_rewrite 1 [← hs]
    exact components_single hf hcl
  | cons c rest =>
    have hc : c = sep := by
      have hhd := head?_dropWhile_not (fun c => decide (c ≠ sep)) p
      rw [hr] at hhd
      simpa using hhd
    rw [hr,hc] at hs
    rw [hc,components_sep]
    nth_rewrite 1 [← hs]
    exact components_append hf hcl rest

theorem mem_splitOnP {p : List α} {c : List α} (hc : c ∈ p.splitOnP fun x => x == sep) : sep ∉ c := by
  induction p generalizing c with
  | nil =>
    rw [splitOnP_nil,mem_singleton] at hc
    rw [hc]
    exact not_mem_nil
  | cons x p ih =>
    rw [splitOnP_cons_eq_if_modifyHead] at hc
    split at hc
    · rcases mem_cons.mp hc with rfl | hc
      · exact not_mem_nil
      · exact ih hc
    rename_i hx
    obtain ⟨t,ts,hs⟩ := exists_cons_of_ne_nil (splitOnP_ne_nil (fun x => x == sep) p)
    rw [hs] at ih
    rw [hs,modifyHead_cons] at hc
    rcases mem_cons.mp hc with rfl | hc
    · intro hmem
      rcases mem_cons.mp hmem with rfl | hmem
      · simp at hx
      · exact ih mem_cons_self hmem
    · exact ih (mem_cons_of_mem _ hc)

theorem mem_components {p : List α} {c : List α} (hc : c ∈ components sep p) : c ≠ [] ∧ sep ∉ c := by
  obtain ⟨hmem,hne⟩ := mem_filter.mp hc
  exact ⟨of_decide_eq_true hne,mem_splitOnP hmem⟩

theorem components_flatMap {cs : List (List α)} (hcs : ∀ c ∈ cs, c ≠ [] ∧ sep ∉ c) :
    components sep (cs.flatMap fun c => sep :: c) = cs := by
  induction cs with
  | nil => exact components_nil
  | cons c cs ih =>
    obtain ⟨hne,hc⟩ := hcs c mem_cons_self
    have hr := ih fun c' hc' => hcs c' (mem_cons_of_mem _ hc')
    rw [flatMap_cons,cons_append,components_sep]
    cases cs with
    | nil => rw [flatMap_nil,append_nil,components_single hne hc]
    | cons d ds =>
      rw [flatMap_cons,cons_append] at hr ⊢
      rw [components_append hne hc,← components_sep,hr]

def room (cs : List (List α)) : Nat := (cs.map fun c => c.length+1).sum

omit [DecidableEq α] in
theorem length_joined_le (cs : List (List α)) : (joined sep cs).length ≤ max 1 (room cs) := by
  unfold joined room
  split
  · simp
  · simp [length_flatMap]

theorem components_joined {cs : List (List α)} (hcs : ∀ c ∈ cs, c ≠ [] ∧ sep ∉ c) :
    components sep (joined sep cs) = cs := by
  unfold joined
  split
  · rename_i hnil
    rw [hnil,components_sep,components_nil]
  · exact components_flatMap hcs

omit [DecidableEq α] in
theorem room_append (cs ds : List (List α)) : room (cs ++ ds) = room cs+room ds := by simp [room]

theorem room_splitOnP (p : List α) : room (p.splitOnP fun x => x == sep) = p.length+1 := by
  induction p with
  | nil => simp [room]
  | cons x p ih =>
    rw [splitOnP_cons_eq_if_modifyHead]
    split
    · simp only [room,map_cons,sum_cons,length_nil,length_cons] at ih ⊢
      omega
    obtain ⟨t,ts,hs⟩ := exists_cons_of_ne_nil (splitOnP_ne_nil (fun x => x == sep) p)
    rw [hs] at ih ⊢
    simp only [room,modifyHead_cons,map_cons,sum_cons,length_cons] at ih ⊢
    omega

omit [DecidableEq α] in
theorem room_sublist {cs ds : List (List α)} (h : cs.Sublist ds) : room cs ≤ room ds :=
  (h.map _).sum_le_sum fun _ _ => Nat.zero_le _

theorem room_components (p : List α) : room (components sep p) ≤ p.length+1 := by
  rw [← @room_splitOnP α _ sep p]
  exact room_sublist filter_sublist

end

end AevOS.SlashPath
