import AevOS.ArrayPrefix

/-! A queue kept in a ring: the `n` entries from a running counter on, each in
the slot that is its counter modulo the size of the ring. -/

namespace AevOS.RingWindow
open ArrayPrefix

variable {i n tail j : Nat}

section
variable {α : Type} {N : Nat}

def window (N : Nat) (f : Nat → α) (tail n : Nat) : List α :=
  firsts (fun i => f ((tail+i)%N)) n

section
variable (f : Nat → α) (x : α)

@[simp] theorem window_length (tail n : Nat) : (window N f tail n).length = n := firsts_length _ n

theorem window_cons (tail n : Nat) : window N f tail (n+1) = f (tail%N) :: window N f (tail+1) n := by
  rw [window,firsts_cons,window]
  congr 1
  apply firsts_congr
  intro i _
  rw [show tail+(i+1) = tail+1+i by omega]

theorem window_succ (tail n : Nat) : window N f tail (n+1) = window N f tail n ++ [f ((tail+n)%N)] :=
  firsts_succ _ n

theorem window_getElem? (tail : Nat) (h : i < n) :
    (window N f tail n)[i]? = some (f ((tail+i)%N)) := firsts_getElem? _ h

theorem window_congr_tail {tail' : Nat} (n : Nat) (h : tail%N = tail'%N) :
    window N f tail n = window N f tail' n := by
  apply firsts_congr
  intro i _
  rw [Nat.add_mod,h,← Nat.add_mod]

theorem slot_ne {tail i k : Nat} (hik : i < k) (hN : k-i < N) : (tail+i)%N ≠ (tail+k)%N := by
  intro h
  have hd : (tail+k)-(tail+i) = k-i := by omega
  have hz := Nat.sub_mod_eq_zero_of_mod_eq h.symm
  rw [hd,Nat.mod_eq_of_lt hN] at hz
  omega

theorem window_setAt {f : Nat → α} (h : ∀ i, i < n → (tail+i)%N ≠ j) :
    window N (setAt f j x) tail n = window N f tail n := by
  apply firsts_congr
  intro i hi
  exact setAt_ne _ _ (h i hi)

theorem window_popFront {f : Nat → α} (hn : n+1 ≤ N) :
    window N (setAt f (tail%N) x) (tail+1) n = (window N f tail (n+1)).tail := by
  rw [window_cons,List.tail_cons]
  apply window_setAt
  intro i hi
  have h : (tail+0)%N ≠ (tail+(i+1))%N := slot_ne (by omega) (by omega)
  rw [add_zero,show tail+(i+1) = tail+1+i by omega] at h
  exact h.symm

theorem window_popBack {f : Nat → α} (hn : n+1 ≤ N) :
    window N (setAt f ((tail+n)%N) x) tail n = (window N f tail (n+1)).dropLast := by
  rw [window_succ,List.dropLast_concat]
  apply window_setAt
  intro i hi
  exact slot_ne hi (by omega)

theorem window_pushBack {f : Nat → α} {tail n : Nat} (x : α) (hn : n < N) :
    window N (setAt f ((tail+n)%N) x) tail (n+1) = window N f tail n ++ [x] := by
  rw [window_succ,setAt_self,window_setAt]
  intro i hi
  exact slot_ne hi (by omega)

theorem window_replace {f : Nat → α} (hn : n+1 = N) :
    window N (setAt f (tail%N) x) (tail+1) (n+1) = (window N f tail (n+1)).tail ++ [x] := by
  have hs : (tail+1+n)%N = tail%N := by
    rw [show tail+1+n = tail+N by omega,Nat.add_mod_right]
  rw [window_succ,window_popFront x (by omega),hs,setAt_self]

/-- Each of the last `N` entries of `l` is in the slot of its position. -/
def KeepsLast (N : Nat) (f : Nat → α) (l : List α) : Prop :=
  ∀ i < l.length, l.length ≤ i+N → l[i]? = some (f (i%N))

theorem KeepsLast.concat {f : Nat → α} {l : List α} (h : KeepsLast N f l) (x : α) :
    KeepsLast N (setAt f (l.length%N) x) (l ++ [x]) := by
  intro i hi hN
  rw [List.length_append,List.length_singleton] at hi hN
  rcases Nat.lt_succ_iff_lt_or_eq.mp hi with hlt | rfl
  · have hs : (0+i)%N ≠ (0+l.length)%N := slot_ne hlt (by omega)
    rw [zero_add,zero_add] at hs
    rw [List.getElem?_append_left hlt,setAt_ne _ _ hs]
    exact h i hlt (by omega)
  · rw [List.getElem?_concat_length,setAt_self]

def shiftRing (N tail : Nat) : (k j : Nat) → (Nat → α) → (Nat → α)
  | 0, _, f => f
  | k+1, j, f => shiftRing N tail k (j+1) (setAt f ((tail+j)%N) (f ((tail+(j+1))%N)))

theorem setAt_slot (hi : i < N) (hj : j < N) :
    setAt f ((tail+j)%N) x ((tail+i)%N) = if i = j then x else f ((tail+i)%N) := by
  by_cases hij : i = j
  · simp [hij]
  rw [if_neg hij]
  apply setAt_ne
  rcases lt_or_gt_of_ne hij with h | h
  · exact slot_ne h (by omega)
  · exact (slot_ne h (by omega)).symm

theorem shiftRing_apply {k : Nat} (hk : j+k < N) (hi : i < N) : shiftRing N tail k j f ((tail+i)%N) =
    if j ≤ i ∧ i < j+k then f ((tail+(i+1))%N) else f ((tail+i)%N) := by
  induction k generalizing j f with
  | zero =>
    rw [if_neg (by omega)]
    rfl
  | succ k ih =>
    rw [shiftRing,ih _ (by omega)]
    by_cases hij : i = j
    · subst hij
      rw [if_neg (by omega),if_pos (by omega),setAt_self]
    · by_cases hin : j+1 ≤ i ∧ i < j+1+k
      · rw [if_pos hin,if_pos (by omega),setAt_slot _ _ (by omega) (by omega),if_neg (by omega)]
      · rw [if_neg hin,if_neg (by omega),setAt_slot _ _ hi (by omega),if_neg hij]

theorem window_shiftRing (tail : Nat) (hi : i < n) (hn : n ≤ N) :
    window N (shiftRing N tail (n-1-i) i f) tail (n-1) = (window N f tail n).eraseIdx i := by
  rw [window,window,← firsts_shiftDown _ hi]
  apply firsts_congr
  intro j hj
  rw [shiftRing_apply f (by omega) (by omega),shiftDown_apply]

end

end

end AevOS.RingWindow
