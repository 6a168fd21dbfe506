import Mathlib

/-! Walks that follow links until a node stops them, which end exactly if they come to no node twice. -/

namespace AevOS.LinkWalk

inductive Visit (α β : Type) where
  | stop (b : β)
  | next (a : α)

def Visit.next? {α β : Type} : Visit α β → Option α
  | .stop _ => none
  | .next a => some a

variable {m : Nat}

section
variable {α β γ : Type} (visit : α → Visit α β) (log : α → List γ)

def walk : Nat → α → Option (β × List γ)
  | 0, _ => none
  | n+1, a =>
    match visit a with
    | .stop b => some (b,log a)
    | .next a' => (walk n a').map fun r => (r.1,log a ++ r.2)

def trail : Nat → α → Option α
  | 0, a => some a
  | n+1, a => (visit a).next?.bind (trail n)

def NoRevisit (a : α) : Prop :=
  ∀ i j x, trail visit i a = some x → trail visit j a = some x → i = j

def Ends (a : α) : Prop := ∃ n r, walk visit log n a = some r

variable {visit log}

theorem trail_add (i j : Nat) (a : α) : trail visit (i+j) a = (trail visit i a).bind (trail visit j) := by
  induction i generalizing a with
  | zero => simp [trail]
  | succ i ih =>
    rw [add_right_comm]
    cases hv : (visit a).next? with
    | none => simp [trail,hv]
    | some a' => simp [trail,hv,ih]

theorem walk_eq_some {n : Nat} {a : α} {r : β × List γ} (h : walk visit log n a = some r) :
    ∃ k < n, ∃ x, trail visit k a = some x ∧ visit x = .stop r.1 ∧ trail visit (k+1) a = none := by
  induction n generalizing a r with
  | zero => simp [walk] at h
  | succ n ih =>
    cases hv : visit a with
    | stop b =>
      simp only [walk,hv,Option.some.injEq] at h
      subst h
      exact ⟨0,Nat.succ_pos n,a,rfl,hv,by simp [trail,hv,Visit.next?]⟩
    | next a' =>
      simp only [walk,hv] at h
      obtain ⟨r',hr',rfl⟩ := Option.map_eq_some_iff.mp h
      obtain ⟨k,hk,x,hx,hs,hend⟩ := ih hr'
      exact ⟨k+1,Nat.succ_lt_succ hk,x,by simpa [trail,hv,Visit.next?] using hx,hs,
        by simpa [trail,hv,Visit.next?] using hend⟩

theorem walk_of_trail {k : Nat} {a : α} {p : γ → Bool} (hlog : ∀ x, (log x).countP p ≤ m)
    (h : trail visit k a = none) : ∃ r, walk visit log k a = some r ∧ r.2.countP p ≤ k*m := by
  induction k generalizing a with
  | zero => simp [trail] at h
  | succ k ih =>
    have hm : (log a).countP p ≤ (k+1)*m :=
      (hlog a).trans (Nat.le_mul_of_pos_left m (Nat.succ_pos k))
    cases hv : visit a with
    | stop b => exact ⟨(b,log a),by simp [walk,hv],hm⟩
    | next a' =>
      obtain ⟨r,hr,hlen⟩ := ih (a := a') (by simpa [trail,hv,Visit.next?] using h)
      refine ⟨(r.1,log a ++ r.2),by simp [walk,hv,hr],?_⟩
      have ha := hlog a
      rw [List.countP_append,Nat.succ_mul]
      omega

theorem trail_none_mono {i j : Nat} (hij : i ≤ j) {a : α} (h : trail visit i a = none) :
    trail visit j a = none := by
  obtain ⟨d,rfl⟩ := Nat.exists_eq_add_of_le hij
  rw [trail_add,h]
  rfl

theorem trail_isSome_of_revisit {i d : Nat} {a x : α} (hi : trail visit i a = some x)
    (hj : trail visit (i+(d+1)) a = some x) (n : Nat) : (trail visit n a).isSome = true := by
  have hl : trail visit (d+1) x = some x := by rwa [trail_add,hi] at hj
  have ht : ∀ m, trail visit (m*(d+1)) x = some x := by
    intro m
    induction m with
    | zero => simp [trail]
    | succ m ih =>
      rw [Nat.succ_mul,trail_add,ih]
      exact hl
  by_contra hn
  have hn : trail visit n a = none := by simpa using hn
  have hfar : trail visit (i+n*(d+1)) a = some x := by
    rw [trail_add,hi]
    exact ht n
  have hle : n ≤ i+n*(d+1) := (Nat.le_mul_of_pos_right n (Nat.succ_pos d)).trans (Nat.le_add_left _ i)
  rw [trail_none_mono hle hn] at hfar
  cases hfar

theorem NoRevisit.of_ends {a : α} (h : Ends visit log a) : NoRevisit visit a := by
  obtain ⟨n,r,hr⟩ := h
  obtain ⟨k,-,-,-,-,hend⟩ := walk_eq_some hr
  have hlt : ∀ i j x, i < j → trail visit i a = some x → trail visit j a ≠ some x := by
    intro i j x hij hi hj
    obtain ⟨d,rfl⟩ := Nat.exists_eq_add_of_lt hij
    have := trail_isSome_of_revisit hi (by simpa [add_assoc] using hj) (k+1)
    simp [hend] at this
  intro i j x hi hj
  rcases lt_trichotomy i j with hij | hij | hij
  · exact absurd hj (hlt i j x hij hi)
  · exact hij
  · exact absurd hi (hlt j i x hij hj)

theorem NoRevisit.trail_none {a : α} (h : NoRevisit visit a) (S : Finset α)
    (hS : ∀ x, (visit x).next?.isSome = true → x ∈ S) : trail visit (S.card+1) a = none := by
  by_contra hs
  have hall : ∀ k ≤ S.card+1, ∃ x, trail visit k a = some x := by
    intro k hk
    apply Option.ne_none_iff_exists'.mp
    exact fun hnn => hs (trail_none_mono hk hnn)
  have hone : Nonempty α := ⟨a⟩
  choose! node hn using hall
  have hmem : ∀ k ∈ Finset.range (S.card+1), node k ∈ S := by
    intro k hk
    have hk : k < S.card+1 := Finset.mem_range.mp hk
    apply hS
    have hnx := hn (k+1) hk
    rw [trail_add,hn k (by omega),Option.bind_some] at hnx
    cases hv : (visit (node k)).next? with
    | none => simp [trail,hv] at hnx
    | some y => rfl
  obtain ⟨i,hi,j,hj,hne,heq⟩ := Finset.exists_ne_map_eq_of_card_lt_of_maps_to (by simp) hmem
  have hi : i < S.card+1 := Finset.mem_range.mp hi
  have hj : j < S.card+1 := Finset.mem_range.mp hj
  exact hne (h i j (node i) (hn i (by omega)) (heq ▸ hn j (by omega)))

theorem NoRevisit.bounded {a : α} (h : NoRevisit visit a) (S : Finset α)
    (hS : ∀ x, (visit x).next?.isSome = true → x ∈ S) {p : γ → Bool} (hlog : ∀ x, (log x).countP p ≤ m) :
    ∃ n r, walk visit log n a = some r ∧ r.2.countP p ≤ (S.card+1)*m := by
  obtain ⟨r,hr,hlen⟩ := walk_of_trail hlog (h.trail_none S hS)
  exact ⟨_,r,hr,hlen⟩

end

end AevOS.LinkWalk
