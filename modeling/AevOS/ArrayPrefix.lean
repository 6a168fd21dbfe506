import Mathlib

/-! Arrays given as functions of the index: one entry replaced, and the list of
the first entries. -/

namespace AevOS.ArrayPrefix
open List

def setAt {α : Type} (f : Nat → α) (i : Nat) (x : α) : Nat → α :=
  fun j => if j = i then x else f j

@[simp] theorem setAt_self {α : Type} (f : Nat → α) (i : Nat) (x : α) :
    setAt f i x i = x := by simp [setAt]

variable {i n : Nat}

@[simp] theorem setAt_ne {α : Type} (f : Nat → α) {j : Nat} (x : α) (h : j ≠ i) :
    setAt f i x j = f j := by simp [setAt,h]

@[simp] theorem setAt_eq_self {α : Type} (f : Nat → α) (i : Nat) : setAt f i (f i) = f := by
  funext j
  by_cases hj : j = i <;> simp [hj]

@[simp] theorem setAt_setAt {α : Type} (f : Nat → α) (i : Nat) (x y : α) :
    setAt (setAt f i x) i y = setAt f i y := by
  funext j
  by_cases hj : j = i <;> simp [hj]

theorem setAt_field {α β : Type} (g : α → β) (f : Nat → α) (i : Nat) (x : α) (h : g x = g (f i)) (j : Nat) :
    g (setAt f i x j) = g (f j) := by
  by_cases hj : j = i
  · rw [hj,setAt_self,h]
  · rw [setAt_ne _ _ hj]

def firsts {α : Type} (f : Nat → α) (n : Nat) : List α := (List.range n).map f

@[simp] theorem firsts_length {α : Type} (f : Nat → α) (n : Nat) :
    (firsts f n).length = n := by simp [firsts]

theorem firsts_succ {α : Type} (f : Nat → α) (n : Nat) : firsts f (n+1) = firsts f n ++ [f n] := by
  simp [firsts,range_succ]

theorem firsts_cons {α : Type} (f : Nat → α) (n : Nat) :
    firsts f (n+1) = f 0 :: firsts (fun i => f (i+1)) n := by
  simp [firsts,range_succ_eq_map,Function.comp_def]

theorem firsts_add {α : Type} (f : Nat → α) (m n : Nat) :
    firsts f (m+n) = firsts f m ++ firsts (fun i => f (m+i)) n := by
  simp [firsts,range_add,Function.comp_def]

theorem firsts_congr {α : Type} {f g : Nat → α} (h : ∀ i, i < n → f i = g i) : firsts f n = firsts g n := by
  apply map_congr_left
  intro i hi
  exact h i (mem_range.mp hi)

@[simp] theorem mem_firsts {α : Type} {f : Nat → α} {n : Nat} {a : α} :
    a ∈ firsts f n ↔ ∃ i, i < n ∧ f i = a := by simp [firsts]

theorem map_firsts {α β : Type} (g : α → β) (f : Nat → α) (n : Nat) :
    (firsts f n).map g = firsts (fun i => g (f i)) n := by
  simp [firsts,Function.comp_def]

theorem firsts_getElem? {α : Type} (f : Nat → α) (h : i < n) : (firsts f n)[i]? = some (f i) := by
  simp [firsts,h]

theorem firsts_take {α : Type} (f : Nat → α) {m : Nat} (h : m ≤ n) : (firsts f n).take m = firsts f m := by
  rw [show n = m+(n-m) by omega,firsts_add]
  exact take_left' (firsts_length f m)

theorem firsts_drop {α : Type} (f : Nat → α) {m : Nat} (h : m ≤ n) :
    (firsts f n).drop m = firsts (fun i => f (m+i)) (n-m) := by
  conv_lhs => rw [show n = m+(n-m) by omega,firsts_add]
  exact drop_left' (firsts_length f m)

theorem firsts_split {α : Type} (f : Nat → α) (h : i < n) :
    firsts f n = firsts f i ++ f i :: firsts (fun k => f (i+1+k)) (n-(i+1)) := by
  have hn : n = i+1+(n-(i+1)) := by omega
  conv_lhs => rw [hn,firsts_add,firsts_succ]
  simp

theorem firsts_insert {α : Type} {f g : Nat → α} {pos : Nat} (x : α) (hpos : pos ≤ n)
    (hlow : ∀ i, i < pos → g i = f i) (hat : g pos = x) (hh : ∀ i, pos ≤ i → i < n → g (i+1) = f i) :
    firsts g (n+1) = firsts f pos ++ x :: firsts (fun i => f (pos+i)) (n-pos) := by
  rw [firsts_split g (show pos < n+1 by omega),hat,firsts_congr hlow]
  congr 2
  rw [show n+1-(pos+1) = n-pos by omega]
  apply firsts_congr
  intro i hi
  rw [show pos+1+i = pos+i+1 by omega]
  exact hh (pos+i) (by omega) (by omega)

theorem pairwise_firsts {α : Type} {R : α → α → Prop} {f : Nat → α} :
    (firsts f n).Pairwise R ↔ ∀ i j, i < j → j < n → R (f i) (f j) := by
  rw [pairwise_iff_getElem]
  constructor
  · intro h i j hij hj
    have hp := h i j (by simp; omega) (by simpa using hj) hij
    simpa [firsts] using hp
  · intro h i j hi hj hij
    simpa [firsts] using h i j hij (by simpa using hj)

/-! Loops that take entries out of an array in place, or change the first that meets a test. -/

variable {α β : Type}

def compact (out : α → Bool) : (k r w : Nat) → (Nat → α) → (Nat → α) × Nat × List α
  | 0, _, w, a => (a,w,[])
  | k+1, r, w, a =>
    if out (a r) then
      let (a',w',taken) := compact out k (r+1) w a
      (a',w',a r :: taken)
    else compact out k (r+1) (w+1) (if w ≠ r then setAt a w (a r) else a)

theorem compact_spec (out : α → Bool) (k r w : Nat) (a : Nat → α) (hw : w ≤ r) :
    firsts (compact out k r w a).1 (compact out k r w a).2.1 =
        firsts a w ++ (firsts (fun i => a (r+i)) k).filter (fun x => !out x) ∧
      (compact out k r w a).2.2 = (firsts (fun i => a (r+i)) k).filter out := by
  induction k generalizing r w a with
  | zero => simp [compact,firsts]
  | succ k ih =>
    have hs : (fun i => a (r+(i+1))) = fun i => a (r+1+i) := by
      funext i
      rw [add_assoc,add_comm 1 i]
    rw [firsts_cons]
    simp only [add_zero,hs]
    cases ho : out (a r) with
    | true =>
      have := ih (r+1) w a (by omega)
      simp only [compact,ho,if_true,filter_cons,Bool.not_true,Bool.false_eq_true,if_false]
      exact ⟨this.1,by rw [this.2]⟩
    | false =>
      have hst : (if w ≠ r then setAt a w (a r) else a) = setAt a w (a r) := by
        split
        · rfl
        rename_i h
        have hwr : w = r := not_not.mp h
        subst hwr
        funext j
        by_cases hj : j = w
        · simp [hj]
        · simp [setAt_ne _ _ hj]
      have hlow : firsts (setAt a w (a r)) (w+1) = firsts a w ++ [a r] := by
        rw [firsts_succ,setAt_self]
        congr 1
        exact firsts_congr fun i hi => setAt_ne _ _ (by omega)
      have hh : (fun i => setAt a w (a r) (r+1+i)) = fun i => a (r+1+i) := by
        funext i
        exact setAt_ne _ _ (by omega)
      have := ih (r+1) (w+1) (setAt a w (a r)) (by omega)
      rw [hlow,hh] at this
      simp only [compact,ho,Bool.false_eq_true,if_false,filter_cons,Bool.not_false,if_true]
      rw [hst]
      simpa using this

theorem compact_all (out : α → Bool) (n : Nat) (a : Nat → α) :
    firsts (compact out n 0 0 a).1 (compact out n 0 0 a).2.1 = (firsts a n).filter (fun x => !out x) ∧
      (compact out n 0 0 a).2.2 = (firsts a n).filter out := by
  have h := compact_spec out n 0 0 a (le_refl 0)
  simpa [firsts] using h

theorem compact_count_le (out : α → Bool) (n : Nat) (a : Nat → α) : (compact out n 0 0 a).2.1 ≤ n := by
  have h := congrArg List.length (compact_all out n a).1
  rw [firsts_length] at h
  rw [h]
  exact le_trans (length_filter_le _ _) (by simp)

def shiftDown : (k j : Nat) → (Nat → α) → (Nat → α)
  | 0, _, a => a
  | k+1, j, a => shiftDown k (j+1) (setAt a j (a (j+1)))

theorem shiftDown_apply (k j : Nat) (a : Nat → α) (i : Nat) :
    shiftDown k j a i = if j ≤ i ∧ i < j+k then a (i+1) else a i := by
  induction k generalizing j a with
  | zero =>
    rw [if_neg (by omega)]
    rfl
  | succ k ih =>
    rw [shiftDown,ih]
    by_cases hi : i = j
    · subst hi
      rw [if_neg (by omega),if_pos (by omega),setAt_self]
    · by_cases hin : j+1 ≤ i ∧ i < j+1+k
      · rw [if_pos hin,if_pos (by omega),setAt_ne _ _ (by omega)]
      · rw [if_neg hin,if_neg (by omega),setAt_ne _ _ hi]

def findFirst (p : α → Bool) (n : Nat) (a : Nat → α) : Option Nat :=
  (List.range n).find? (fun i => p (a i))

variable {n i : Nat}

theorem findFirst_some {p : α → Bool} {a : Nat → α} (h : findFirst p n a = some i) :
    i < n ∧ p (a i) = true ∧ ∀ j < i, p (a j) = false := by
  obtain ⟨hp,k,hk,hki,hlt⟩ := find?_eq_some_iff_getElem.mp h
  simp only [getElem_range,length_range] at hk hki hlt
  subst hki
  exact ⟨hk,hp,fun j hj => by simpa using hlt j hj⟩

theorem findFirst_none {p : α → Bool} {a : Nat → α} (h : findFirst p n a = none) :
    ∀ x ∈ firsts a n, p x = false := by
  intro x hx
  obtain ⟨i,hi,rfl⟩ := mem_firsts.mp hx
  simpa using find?_eq_none.mp h i (mem_range.mpr hi)

theorem findFirst_eq {p : α → Bool} {k : Nat} {a : Nat → α} (hk : k < n) (hp : p (a k) = true)
    (hlow : ∀ j < k, p (a j) = false) : findFirst p n a = some k := by
  cases hf : findFirst p n a with
  | none =>
    have := findFirst_none hf (a k) (mem_firsts.mpr ⟨k,hk,rfl⟩)
    rw [hp] at this
    cases this
  | some i =>
    obtain ⟨_,hpi,hb⟩ := findFirst_some hf
    rcases lt_trichotomy i k with hlt | rfl | hgt
    · rw [hlow i hlt] at hpi
      cases hpi
    · rfl
    · rw [hb k hgt] at hp
      cases hp

theorem findFirst_split {p : α → Bool} {a : Nat → α} (h : findFirst p n a = some i) :
    ∃ rest, firsts a n = firsts a i ++ a i :: rest ∧ p (a i) = true ∧ ∀ x ∈ firsts a i, p x = false := by
  obtain ⟨hi,hp,hlt⟩ := findFirst_some h
  refine ⟨_,firsts_split a hi,hp,?_⟩
  intro x hx
  obtain ⟨j,hj,rfl⟩ := mem_firsts.mp hx
  exact hlt j hj

theorem firsts_shiftDown (a : Nat → α) (hi : i < n) :
    firsts (shiftDown (n-1-i) i a) (n-1) = (firsts a n).eraseIdx i := by
  have hlen : (firsts a i).length = i := firsts_length a i
  rw [firsts_split a hi,eraseIdx_append_of_length_le (by rw [hlen])]
  simp only [hlen,Nat.sub_self,eraseIdx_cons_zero]
  rw [show n-1 = i+(n-1-i) by omega,firsts_add]
  congr 1
  · apply firsts_congr
    intro j hj
    rw [shiftDown_apply,if_neg (by omega)]
  rw [show n-(i+1) = i+(n-1-i)-i by omega,show i+(n-1-i)-i = n-1-i by omega]
  apply firsts_congr
  intro j hj
  rw [shiftDown_apply,if_pos (by omega)]
  congr 1
  omega

theorem find?_firsts {p : α → Bool} {a : Nat → α} (h : findFirst p n a = some i) :
    (firsts a n).find? p = some (a i) := by
  obtain ⟨rest,hs,hp,hlow⟩ := findFirst_split h
  have hn : (firsts a i).find? p = none := find?_eq_none.mpr fun x hx => by simp [hlow x hx]
  rw [hs,find?_append,hn,Option.none_or,find?_cons_of_pos hp]

theorem eraseIdx_firsts {p : α → Bool} {a : Nat → α} (h : findFirst p n a = some i) :
    (firsts a n).eraseIdx i = (firsts a n).eraseP p := by
  obtain ⟨rest,hs,hp,hlow⟩ := findFirst_split h
  have hlen : (firsts a i).length = i := firsts_length a i
  rw [hs,eraseIdx_append_of_length_le (by rw [hlen]),hlen,Nat.sub_self,eraseIdx_cons_zero,
    eraseP_append_right _ (fun x hx => by simp [hlow x hx]),eraseP_cons_of_pos hp]

def modifyFirst (p : α → Bool) (f : α → α) (n : Nat) (a : Nat → α) : Nat → α :=
  match findFirst p n a with
  | some i => setAt a i (f (a i))
  | none => a

theorem firsts_setAt (a : Nat → α) (hi : i < n) (x : α) :
    firsts (setAt a i x) n = firsts a i ++ x :: firsts (fun k => a (i+1+k)) (n-(i+1)) := by
  rw [firsts_split (setAt a i x) hi,setAt_self]
  congr 1
  · exact firsts_congr fun j hj => setAt_ne _ _ (by omega)
  · congr 1
    exact firsts_congr fun j hj => setAt_ne _ _ (by omega)

theorem firsts_modifyFirst (p : α → Bool) (f : α → α) (n : Nat) (a : Nat → α)
    (hone : (firsts a n).Pairwise (fun x y => ¬ (p x = true ∧ p y = true))) :
    firsts (modifyFirst p f n a) n = (firsts a n).map (fun x => if p x then f x else x) := by
  unfold modifyFirst
  cases hf : findFirst p n a with
  | none =>
    have hn := findFirst_none hf
    rw [eq_comm]
    conv_rhs => rw [← map_id (firsts a n)]
    apply map_congr_left
    intro x hx
    simp [hn x hx]
  | some i =>
    obtain ⟨hi,hp,hlt⟩ := findFirst_some hf
    rw [firsts_split a hi,pairwise_append] at hone
    obtain ⟨_,ht,_⟩ := hone
    have hlow : ∀ x ∈ firsts a i, p x = false := by
      intro x hx
      obtain ⟨j,hj,rfl⟩ := mem_firsts.mp hx
      exact hlt j hj
    have hh : ∀ x ∈ firsts (fun k => a (i+1+k)) (n-(i+1)), p x = false := by
      intro x hx
      have := (pairwise_cons.mp ht).1 x hx
      simpa [hp] using this
    rw [firsts_setAt a hi,firsts_split a hi,map_append,map_cons,if_pos hp]
    congr 1
    · conv_lhs => rw [← map_id (firsts a i)]
      apply map_congr_left
      intro x hx
      simp [hlow x hx]
    congr 1
    conv_lhs => rw [← map_id (firsts (fun k => a (i+1+k)) (n-(i+1)))]
    apply map_congr_left
    intro x hx
    simp [hh x hx]

end AevOS.ArrayPrefix
