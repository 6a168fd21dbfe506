import AevOS.ArrayPrefix

/-! Trees of named nodes in a store: every node knows its parent and the list of its children, and
a walk follows names, upward moves and moves that stay. -/

namespace AevOS.NamedTree
open ArrayPrefix List

variable {i p k : Nat}

section
variable {N : Type}

@[ext] structure Tree (N : Type) where
  name : Nat → N
  up : Nat → Option Nat
  kids : Nat → List Nat
  next : Nat

inductive Move (N : Type) where
  | stay
  | up
  | down (n : N)

def insert (t : Tree N) (p : Nat) (n : N) : Tree N where
  name := setAt t.name t.next n
  up := setAt t.up t.next (some p)
  kids := setAt (setAt t.kids t.next []) p (t.next :: t.kids p)
  next := t.next+1

structure Sound (t : Tree N) : Prop where
  kids_lt : ∀ i < t.next, ∀ k ∈ t.kids i, k < t.next
  up_lt : ∀ i < t.next, ∀ k, t.up i = some k → k < t.next
  unique : ∀ i < t.next, ((t.kids i).map t.name).Nodup

variable {t : Tree N}

theorem Sound.up_lt' (h : Sound t) (hi : i < t.next) : (t.up i).getD i < t.next := by
  cases hu : t.up i with
  | none => simpa using hi
  | some k => simpa using h.up_lt i hi k hu

theorem name_insert_new (p : Nat) (n : N) : (insert t p n).name t.next = n := setAt_self _ _ _
theorem up_insert_new (p : Nat) (n : N) : (insert t p n).up t.next = some p := setAt_self _ _ _

theorem up_insert (p : Nat) (n : N) (hi : i < t.next) : (insert t p n).up i = t.up i :=
  setAt_ne _ _ (ne_of_lt hi)

theorem kids_insert_self (p : Nat) (n : N) : (insert t p n).kids p = t.next :: t.kids p := setAt_self _ _ _

theorem kids_insert_new (hp : p < t.next) (n : N) : (insert t p n).kids t.next = [] := by
  have hne : t.next ≠ p := by omega
  simp [insert,setAt_ne _ _ hne]

theorem kids_insert (n : N) (hi : i < t.next) (hip : i ≠ p) : (insert t p n).kids i = t.kids i := by
  simp [insert,setAt_ne _ _ hip,setAt_ne _ _ (ne_of_lt hi)]

theorem insert_cases {n : N} (hi : i < (insert t p n).next) : i = t.next ∨ i = p ∨ (i < t.next ∧ i ≠ p) := by
  have hi : i < t.next+1 := hi
  omega

theorem Sound.name_insert (h : Sound t) (p : Nat) (n : N) (hi : i < t.next) (hk : k ∈ t.kids i) :
    (insert t p n).name k = t.name k := setAt_ne _ _ (ne_of_lt (h.kids_lt i hi k hk))

variable [DecidableEq N]

def child (t : Tree N) (i : Nat) (n : N) : Option Nat := (t.kids i).find? (fun k => decide (t.name k = n))

def walk (t : Tree N) : Nat → List (Move N) → Option Nat
  | i, [] => some i
  | i, .stay :: ms => walk t i ms
  | i, .up :: ms => walk t ((t.up i).getD i) ms
  | i, .down n :: ms => (child t i n).bind fun k => walk t k ms

theorem walk_append (i : Nat) (ms ms' : List (Move N)) :
    walk t i (ms ++ ms') = (walk t i ms).bind fun k => walk t k ms' := by
  induction ms generalizing i with
  | nil => rfl
  | cons m ms ih =>
    cases m with
    | stay => exact ih i
    | up => exact ih _
    | down n =>
      simp only [cons_append,walk]
      cases child t i n with
      | none => rfl
      | some k => exact ih k

theorem Sound.child_lt (h : Sound t) {n : N} (hi : i < t.next) (hk : child t i n = some k) :
    k < t.next := h.kids_lt i hi k (mem_of_find?_eq_some hk)

theorem Sound.walk_lt (h : Sound t) (hi : i < t.next) {ms : List (Move N)}
    (hk : walk t i ms = some k) : k < t.next := by
  induction ms generalizing i with
  | nil =>
    obtain rfl : i = k := by simpa [walk] using hk
    exact hi
  | cons m ms ih =>
    cases m with
    | stay => exact ih hi hk
    | up => exact ih (h.up_lt' hi) hk
    | down n =>
      rw [walk,Option.bind_eq_some_iff] at hk
      obtain ⟨j,hj,hk⟩ := hk
      exact ih (h.child_lt hi hj) hk

theorem child_insert_self (p : Nat) (n : N) : child (insert t p n) p n = some t.next := by
  simp [child,kids_insert_self,name_insert_new]

theorem Sound.child_insert (h : Sound t) {n : N} {m : N} (hi : i < t.next)
    (hf : child t p n = none) (hk : child t i m = some k) : child (insert t p n) i m = some k := by
  have hold : (t.kids i).find? (fun k => decide ((insert t p n).name k = m)) = some k := by
    rw [← hk,child]
    apply find?_congr
    intro j hj
    rw [h.name_insert p n hi hj]
  by_cases hip : i = p
  · subst hip
    have hnm : n ≠ m := by
      rintro rfl
      rw [hf] at hk
      cases hk
    rw [child,kids_insert_self,find?_cons_of_neg,hold]
    simpa [name_insert_new] using hnm
  · rw [child,kids_insert n hi hip,hold]

theorem Sound.walk_insert (h : Sound t) {n : N} (hf : child t p n = none) (hi : i < t.next)
    {ms : List (Move N)} (hk : walk t i ms = some k) : walk (insert t p n) i ms = some k := by
  induction ms generalizing i with
  | nil => exact hk
  | cons m ms ih =>
    cases m with
    | stay => exact ih hi hk
    | up =>
      rw [walk,up_insert p n hi]
      exact ih (h.up_lt' hi) hk
    | down m =>
      rw [walk,Option.bind_eq_some_iff] at hk ⊢
      obtain ⟨j,hj,hk⟩ := hk
      exact ⟨j,h.child_insert hi hf hj,ih (h.child_lt hi hj) hk⟩

theorem child_none {n : N} : child t i n = none ↔ ∀ k ∈ t.kids i, t.name k ≠ n := by
  simp [child]

theorem Sound.insert (h : Sound t) (hp : p < t.next) {n : N} (hf : child t p n = none) :
    Sound (insert t p n) where
  kids_lt i hi k hk := by
    have hold : k < t.next → k < (NamedTree.insert t p n).next := Nat.lt_succ_of_lt
    rcases insert_cases hi with rfl | rfl | ⟨hlt,hip⟩
    · simp [kids_insert_new hp] at hk
    · rw [kids_insert_self] at hk
      rcases mem_cons.mp hk with rfl | hk
      · exact Nat.lt_succ_self _
      · exact hold (h.kids_lt i hp k hk)
    · rw [kids_insert n hlt hip] at hk
      exact hold (h.kids_lt i hlt k hk)
  up_lt i hi k hk := by
    by_cases hin : i = t.next
    · subst hin
      rw [up_insert_new,Option.some.injEq] at hk
      subst hk
      exact Nat.lt_succ_of_lt hp
    · have hlt : i < t.next := lt_of_le_of_ne (Nat.lt_succ_iff.mp hi) hin
      rw [up_insert p n hlt] at hk
      exact Nat.lt_succ_of_lt (h.up_lt i hlt k hk)
  unique i hi := by
    have hn : ∀ j < t.next, (t.kids j).map (NamedTree.insert t p n).name = (t.kids j).map t.name :=
      fun j hj => map_congr_left fun k hk => h.name_insert p n hj hk
    rcases insert_cases hi with rfl | rfl | ⟨hlt,hip⟩
    · simp [kids_insert_new hp]
    · rw [kids_insert_self,map_cons,name_insert_new,hn i hp,nodup_cons]
      refine ⟨fun hmem => ?_,h.unique i hp⟩
      obtain ⟨k,hk,hkn⟩ := mem_map.mp hmem
      exact child_none.mp hf k hk hkn
    · rw [kids_insert n hlt hip,hn i hlt]
      exact h.unique i hlt

theorem Sound.free_of_unique (h : Sound t) (hp : p < t.next) {n : N}
    (hu : (((NamedTree.insert t p n).kids p).map (NamedTree.insert t p n).name).Nodup) :
    child t p n = none := by
  rw [kids_insert_self,map_cons,name_insert_new,nodup_cons] at hu
  refine child_none.mpr fun k hk hkn => hu.1 (mem_map.mpr ⟨k,hk,?_⟩)
  rw [h.name_insert p n hp hk,hkn]

theorem child_insert_new (p : Nat) (hp : p < t.next) (n m : N) : child (insert t p n) t.next m = none := by
  simp [child,kids_insert_new hp]

end

end AevOS.NamedTree
