import Mathlib

/-! Queues as singly linked lists: a head for each queue and one map of links for the
cells of all of them. -/

namespace AevOS.Links
open List Function

section
variable {C : Type}

def Chain (next : C → Option C) : Option C → List C → Prop
  | p, [] => p = none
  | p, c :: l => p = some c ∧ Chain next (next c) l

variable {next : C → Option C}

theorem Chain.unique {p : Option C} {l m : List C} (hl : Chain next p l) (hm : Chain next p m) : l = m := by
  induction l generalizing p m with
  | nil =>
    cases m with
    | nil => rfl
    | cons d m => simp_all [Chain]
  | cons c l ih =>
    cases m with
    | nil => simp_all [Chain]
    | cons d m =>
      obtain ⟨rfl,hl⟩ := hl
      obtain ⟨hd,hm⟩ := hm
      obtain rfl := Option.some.inj hd
      rw [ih hl hm]

theorem chain_append {p : Option C} {l m : List C} {c : C} :
    Chain next p (l ++ c :: m) → Chain next (some c) (c :: m) := by
  induction l generalizing p with
  | nil => exact fun h => ⟨rfl,h.2⟩
  | cons d l ih => exact fun h => ih h.2

theorem Chain.head_some {p : Option C} {l m : List C} {c : C} (h : Chain next p (l ++ c :: m)) :
    ∃ d, p = some d := by
  cases l with
  | nil | cons => exact ⟨_,h.1⟩

theorem Chain.nodup {p : Option C} {l : List C} (h : Chain next p l) : l.Nodup := by
  induction l generalizing p with
  | nil => exact nodup_nil
  | cons c l ih =>
    refine nodup_cons.mpr ⟨?_,ih h.2⟩
    intro hmem
    obtain ⟨a,b,rfl⟩ := append_of_mem hmem
    have hs : Chain next (some c) (c :: (a ++ c :: b)) := ⟨rfl,h.2⟩
    have hlen := congrArg List.length (hs.unique (chain_append h.2))
    simp at hlen
    omega

theorem Chain.notMem_loop {p : Option C} {l : List C} (h : Chain next p l) {c : C}
    (hl : next c = some c) : c ∉ l := by
  intro hmem
  obtain ⟨a,b,rfl⟩ := append_of_mem hmem
  have hc := chain_append h
  have hn : Chain next (some c) b := hl ▸ hc.2
  have hlen := congrArg List.length (hc.unique hn)
  simp at hlen

variable [DecidableEq C]

theorem chain_update {p : Option C} {l : List C} {c : C} (d : Option C) (hc : c ∉ l) :
    Chain (update next c d) p l ↔ Chain next p l := by
  induction l generalizing p with
  | nil => rfl
  | cons e l ih =>
    have hne : e ≠ c := fun h => hc (h ▸ mem_cons_self)
    simp only [Chain,update_of_ne hne,ih (fun h => hc (mem_cons_of_mem e h))]

theorem Chain.snoc {p : Option C} {l : List C} {t c : C} (h : Chain next p (l ++ [t]))
    (hc : c ∉ l ++ [t]) (hn : next c = none) : Chain (update next t (some c)) p (l ++ [t] ++ [c]) := by
  induction l generalizing p with
  | nil =>
    have hne : c ≠ t := by simpa using hc
    simp_all [Chain]
  | cons d l ih =>
    have hne : d ≠ t := by
      rintro rfl
      exact (nodup_cons.mp h.nodup).1 (by simp)
    refine ⟨h.1,?_⟩
    rw [update_of_ne hne]
    exact ih h.2 (fun hm => hc (mem_cons_of_mem d hm))

def lastOf (next : C → Option C) : Nat → C → Option C
  | 0, _ => none
  | n+1, c =>
    match next c with
    | none => some c
    | some d => lastOf next n d

omit [DecidableEq C] in
theorem Chain.lastOf {c t : C} {l : List C} {n : Nat} (h : Chain next (some c) (l ++ [t]))
    (hn : l.length < n) : lastOf next n c = some t := by
  induction l generalizing c n with
  | nil =>
    obtain ⟨n,rfl⟩ : ∃ k, n = k+1 := ⟨n-1,by simp at hn; omega⟩
    obtain ⟨hc,hnx⟩ := h
    obtain rfl := Option.some.inj hc
    simp [Links.lastOf,show next c = none from hnx]
  | cons d l ih =>
    obtain ⟨n,rfl⟩ : ∃ k, n = k+1 := ⟨n-1,by simp at hn; omega⟩
    obtain ⟨hc,hr⟩ := h
    obtain rfl := Option.some.inj hc
    cases hnx : next c with
    | none =>
      rw [hnx] at hr
      cases l <;> simp [Chain] at hr
    | some e =>
      rw [hnx] at hr
      simp only [Links.lastOf,hnx]
      exact ih hr (by simpa using hn)

end

structure Queues (P C : Type) where
  heads : P → Option C
  next : C → Option C

structure Holds {P C : Type} (s : Queues P C) (q : P → List C) : Prop where
  chain : ∀ p, Chain s.next (s.heads p) (q p)
  apart : ∀ p p', p ≠ p' → ∀ c ∈ q p, c ∉ q p'

theorem Holds.empty_head {P C : Type} {s : Queues P C} {q : P → List C} {p : P} (h : Holds s q)
    (hh : s.heads p = none) : q p = [] := by
  have hp := h.chain p
  rw [hh] at hp
  cases hl : q p with
  | nil => rfl
  | cons d l => simp [hl,Chain] at hp

variable {fuel : Nat}

section
variable {P C : Type} [DecidableEq P] {q : P → List C} {p p' : P} {c d : C}

theorem mem_pushed : d ∈ update q p (q p ++ [c]) p' ↔ d ∈ q p' ∨ p' = p ∧ d = c := by
  by_cases e : p' = p
  · simp [e]
  · simp [e]

theorem mem_popped {l : List C} (hl : q p = c :: l)
    (hg : ∀ p', c ∉ update q p l p') : d ∈ update q p l p' ↔ d ∈ q p' ∧ d ≠ c := by
  have hne : d ∈ update q p l p' → d ≠ c := fun hd e => hg p' (e ▸ hd)
  by_cases e : p' = p
  · subst e
    rw [update_self] at hne ⊢
    simp only [hl,mem_cons]
    tauto
  · rw [update_of_ne e] at hne ⊢
    tauto

variable [DecidableEq C]

def Queues.push (fuel : Nat) (p : P) (c : C) (s : Queues P C) : Option (Queues P C) :=
  let next := update s.next c none
  match s.heads p with
  | none => some ⟨update s.heads p (some c),next⟩
  | some h => (lastOf next fuel h).map fun t => ⟨s.heads,update next t (some c)⟩

def Queues.pop (p : P) (c : C) (s : Queues P C) : Queues P C :=
  ⟨update s.heads p (s.next c),update s.next c none⟩

variable {s : Queues P C}

theorem Holds.push (h : Holds s q) (hc : ∀ p, c ∉ q p) (hf : (q p).length ≤ fuel) :
    ∃ s', s.push fuel p c = some s' ∧ Holds s' (update q p (q p ++ [c])) := by
  have hcn : ∀ p', Chain (update s.next c none) (s.heads p') (q p') :=
    fun p' => (chain_update none (hc p')).mpr (h.chain p')
  have ha : ∀ p1 p2, p1 ≠ p2 → ∀ d ∈ update q p (q p ++ [c]) p1,
      d ∉ update q p (q p ++ [c]) p2 := by
    intro p1 p2 hne d h1 h2
    rcases mem_pushed.mp h1 with h3 | ⟨rfl,rfl⟩
    · rcases mem_pushed.mp h2 with h4 | ⟨-,rfl⟩
      · exact h.apart p1 p2 hne d h3 h4
      · exact hc p1 h3
    · exact (mem_pushed.mp h2).elim (hc p2) fun h2 => hne h2.1.symm
  rcases eq_nil_or_concat (q p) with hnil | ⟨l,t,hl⟩
  · -- an empty queue: the head is the cell
    have hh : s.heads p = none := by simpa [hnil,Chain] using h.chain p
    refine ⟨⟨update s.heads p (some c),update s.next c none⟩,
      by simp [Queues.push,hh],⟨fun p' => ?_,ha⟩⟩
    by_cases e : p' = p
    · subst e
      simp [hnil,Chain]
    · simpa [update_of_ne e] using hcn p'
  rw [concat_eq_append] at hl
  have hp := hcn p
  rw [hl] at hp
  obtain ⟨d,hd⟩ := hp.head_some
  have hls : lastOf (update s.next c none) fuel d = some t := by
    rw [hd] at hp
    refine hp.lastOf ?_
    rw [hl,length_append,length_singleton] at hf
    omega
  have hcl : c ∉ l ++ [t] := hl ▸ hc p
  refine ⟨⟨s.heads,update (update s.next c none) t (some c)⟩,
    by simp [Queues.push,hd,hls],⟨fun p' => ?_,ha⟩⟩
  by_cases e : p' = p
  · subst e
    rw [update_self,hl]
    exact hp.snoc hcl (update_self ..)
  rw [update_of_ne e]
  refine (chain_update _ (h.apart p p' (Ne.symm e) t ?_)).mpr (hcn p')
  rw [hl]
  simp

theorem Holds.push_again (h : Holds s q) (hc : c ∈ q p) (hf : (q p).length ≤ fuel) :
    ∃ s', s.push fuel p c = some s' ∧ s'.next c = some c := by
  obtain ⟨l,m,hl⟩ := append_of_mem hc
  have hp := h.chain p
  have hn := hp.nodup
  rw [hl] at hp hn hf
  -- the list now ends at the cell, and the walk comes to it
  have hcut : ∀ (r : Option C) (l : List C), c ∉ l → Chain s.next r (l ++ c :: m) →
      Chain (update s.next c none) r (l ++ [c]) := by
    intro r l
    induction l generalizing r with
    | nil => exact fun _ hr => ⟨hr.1,update_self ..⟩
    | cons d l ih =>
      intro hd hr
      have hne : d ≠ c := fun e => hd (e ▸ mem_cons_self)
      refine ⟨hr.1,?_⟩
      rw [update_of_ne hne]
      exact ih _ (fun hm => hd (mem_cons_of_mem d hm)) hr.2
  have hcl : c ∉ l := by
    intro hm
    exact (nodup_append.mp hn).2.2 c hm c mem_cons_self rfl
  have hend := hcut _ l hcl hp
  obtain ⟨d,hd⟩ := hp.head_some
  rw [hd] at hend
  have hls := hend.lastOf (n := fuel) (by simp at hf; omega)
  exact ⟨⟨s.heads,update (update s.next c none) c (some c)⟩,
    by simp [Queues.push,hd,hls],update_self ..⟩

theorem Holds.pop (h : Holds s q) {l : List C} (hq : q p = c :: l) :
    s.heads p = some c ∧ Holds (s.pop p c) (update q p l) ∧ ∀ p', c ∉ update q p l p' := by
  have hp := h.chain p
  rw [hq] at hp
  have hcl : c ∉ l := (nodup_cons.mp hp.nodup).1
  have hout : ∀ p', c ∉ update q p l p' := by
    intro p'
    by_cases e : p' = p
    · subst e
      rwa [update_self]
    · rw [update_of_ne e]
      exact h.apart p p' (Ne.symm e) c (hq ▸ mem_cons_self)
  have hsub : ∀ p', ∀ d ∈ update q p l p', d ∈ q p' :=
    fun p' d hd => ((mem_popped hq hout).mp hd).1
  refine ⟨hp.1,⟨fun p' => ?_,fun p1 p2 hne d h1 h2 => ?_⟩,hout⟩
  · refine (chain_update none (hout p')).mpr ?_
    by_cases e : p' = p
    · subst e
      simpa [Queues.pop] using hp.2
    · simpa [Queues.pop,update_of_ne e] using h.chain p'
  · exact h.apart p1 p2 hne d (hsub p1 d h1) (hsub p2 d h2)

end

end AevOS.Links
