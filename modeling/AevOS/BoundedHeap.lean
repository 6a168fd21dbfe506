import Mathlib

/-! Arrays of items with keys: a max-heap of bounded size, and picking the item with the
least key. What is kept is that the items are the ones put in. -/

namespace AevOS.BoundedHeap
open List

section
variable {α D : Type}

def swapAt (l : List (α × D)) (i j : Nat) : List (α × D) :=
  match l[i]?, l[j]? with
  | some a, some b => (l.set i b).set j a
  | _, _ => l

theorem length_swapAt (l : List (α × D)) (i j : Nat) : (swapAt l i j).length = l.length := by
  rw [swapAt]
  split
  · rw [length_set,length_set]
  · rfl

theorem swapAt_forall {Q : α × D → Prop} {l : List (α × D)} (h : ∀ x ∈ l, Q x) (i j : Nat) :
    ∀ x ∈ swapAt l i j, Q x := by
  rw [swapAt]
  split
  · rename_i a b ha hb
    intro x hx
    rcases mem_or_eq_of_mem_set hx with hx | rfl
    · rcases mem_or_eq_of_mem_set hx with hx | rfl
      · exact h x hx
      · exact h x (mem_of_getElem? hb)
    · exact h x (mem_of_getElem? ha)
  · exact h

variable [LinearOrder D]

def siftUp (i : Nat) (l : List (α × D)) : List (α × D) :=
  if _h : i = 0 then l
  else
    match l[(i-1)/2]?, l[i]? with
    | some p, some c => if p.2 < c.2 then siftUp ((i-1)/2) (swapAt l ((i-1)/2) i) else l
    | _, _ => l
termination_by i
decreasing_by omega

def larger (l : List (α × D)) (a b : Nat) : Nat :=
  match l[a]?, l[b]? with
  | some x, some y => if x.2 < y.2 then b else a
  | _, _ => a

theorem larger_cases (l : List (α × D)) (a b : Nat) :
    larger l a b = a ∨ (larger l a b = b ∧ b < l.length) := by
  rw [larger]
  split
  · rename_i x y hx hy
    split
    · exact .inr ⟨rfl,(List.getElem?_eq_some_iff.mp hy).1⟩
    · exact .inl rfl
  · exact .inl rfl

def largest (l : List (α × D)) (i : Nat) : Nat := larger l (larger l i (2*i+1)) (2*i+2)

theorem largest_cases (l : List (α × D)) (i : Nat) :
    largest l i = i ∨ (i < largest l i ∧ largest l i < l.length) := by
  rw [largest]
  rcases larger_cases l (larger l i (2*i+1)) (2*i+2) with hs | ⟨heq,hlt⟩
  · rw [hs]
    rcases larger_cases l i (2*i+1) with hs | ⟨heq,hlt⟩
    · exact .inl hs
    · rw [heq]
      exact .inr ⟨by omega,hlt⟩
  · rw [heq]
    exact .inr ⟨by omega,hlt⟩

def siftDown (i : Nat) (l : List (α × D)) : List (α × D) :=
  if _h : largest l i = i then l else siftDown (largest l i) (swapAt l i (largest l i))
termination_by l.length-i
decreasing_by
  rw [length_swapAt]
  rcases largest_cases l i with hsame | hgt
  · exact absurd hsame _h
  · omega

theorem siftUp_forall {Q : α × D → Prop} {i : Nat} {l : List (α × D)} (h : ∀ x ∈ l, Q x) :
    ∀ x ∈ siftUp i l, Q x := by
  induction i, l using siftUp.induct with
  | case1 l =>
    rw [siftUp,dif_pos rfl]
    exact h
  | case2 i l hi p c hp hc hlt ih =>
    rw [siftUp,dif_neg hi,hp,hc]
    simp only [if_pos hlt]
    exact ih (swapAt_forall h _ _)
  | case3 i l hi p c hp hc hlt =>
    rw [siftUp,dif_neg hi,hp,hc]
    simp only [if_neg hlt]
    exact h
  | case4 i l hi hn =>
    rw [siftUp,dif_neg hi]
    split
    · rename_i p c hp hc
      exact absurd hc (hn p c hp)
    · exact h

theorem siftDown_forall {Q : α × D → Prop} {i : Nat} {l : List (α × D)} (h : ∀ x ∈ l, Q x) :
    ∀ x ∈ siftDown i l, Q x := by
  induction i, l using siftDown.induct with
  | case1 i l hs =>
    rw [siftDown,dif_pos hs]
    exact h
  | case2 i l hne ih =>
    rw [siftDown,dif_neg hne]
    exact ih (swapAt_forall h _ _)

def pushMax (cap : Nat) (l : List (α × D)) (x : α × D) : List (α × D) :=
  if l.length < cap then siftUp l.length (l ++ [x])
  else
    match l with
    | [] => []
    | top :: rest => if x.2 < top.2 then siftDown 0 (x :: rest) else top :: rest

theorem pushMax_forall {Q : α × D → Prop} {cap : Nat} {l : List (α × D)} {x : α × D}
    (h : ∀ y ∈ l, Q y) (hx : Q x) : ∀ y ∈ pushMax cap l x, Q y := by
  unfold pushMax
  split
  · refine siftUp_forall ?_
    intro y hy
    rcases mem_append.mp hy with hy | hy
    · exact h y hy
    · rw [mem_singleton.mp hy]
      exact hx
  cases l with
  | nil => exact h
  | cons top rest =>
    dsimp only
    split
    · refine siftDown_forall (forall_mem_cons.mpr ⟨hx,?_⟩)
      exact fun y hy => h y (mem_cons_of_mem top hy)
    · exact h

def leastFrom (best : D) (b i : Nat) : List (α × D) → Nat
  | [] => b
  | x :: xs => if x.2 < best then leastFrom x.2 i (i+1) xs else leastFrom best b (i+1) xs

def pickMin : List (α × D) → Option ((α × D) × List (α × D))
  | [] => none
  | x :: xs =>
    match (x :: xs)[leastFrom x.2 0 1 xs]? with
    | none => some (x,xs)
    | some y => some (y,(swapAt (x :: xs) 0 (leastFrom x.2 0 1 xs)).tail)

theorem pickMin_spec {l rest : List (α × D)} {y : α × D} (h : pickMin l = some (y,rest)) :
    rest.length+1 = l.length ∧ ∀ Q : α × D → Prop, (∀ x ∈ l, Q x) → Q y ∧ ∀ x ∈ rest, Q x := by
  cases l with
  | nil => exact absurd h (by simp [pickMin])
  | cons x xs =>
    rw [pickMin] at h
    split at h
    · obtain ⟨rfl,rfl⟩ := Prod.mk.inj (Option.some.inj h)
      exact ⟨rfl,fun Q hQ => forall_mem_cons.mp hQ⟩
    rename_i z hz
    obtain ⟨rfl,rfl⟩ := Prod.mk.inj (Option.some.inj h)
    refine ⟨?_,fun Q hQ => ⟨hQ _ (mem_of_getElem? hz),?_⟩⟩
    · rw [length_tail,length_swapAt]
      rfl
    · exact fun w hw => swapAt_forall hQ _ _ w (mem_of_mem_tail hw)

def selectSort : Nat → List (α × D) → List (α × D)
  | 0, l => l
  | n+1, l =>
    match pickMin l with
    | none => l
    | some (y,rest) => y :: selectSort n rest

theorem selectSort_forall {Q : α × D → Prop} (n : Nat) {l : List (α × D)} (h : ∀ x ∈ l, Q x) :
    ∀ x ∈ selectSort n l, Q x := by
  induction n generalizing l with
  | zero => exact h
  | succ n ih =>
    rw [selectSort]
    cases hp : pickMin l with
    | none => exact h
    | some r =>
      obtain ⟨y,rest⟩ := r
      obtain ⟨hy,hr⟩ := (pickMin_spec hp).2 Q h
      exact forall_mem_cons.mpr ⟨hy,ih hr⟩

end

end AevOS.BoundedHeap
