import Mathlib

/-! Runs of a state machine whose steps meet a condition in the state they find. -/

namespace AevOS.Runs
open List

variable {σ α : Type} (step : σ → α → σ)

def run (s : σ) (as : List α) : σ := as.foldl step s

theorem run_invariant {Inv : σ → Prop} (hs : ∀ s a, Inv s → Inv (step s a)) {s : σ} (h : Inv s) (as : List α) :
    Inv (run step s as) := by
  induction as generalizing s with
  | nil => exact h
  | cons a as ih => exact ih (hs s a h)

/-- `P` holds of every step of the run. -/
def Along (P : σ → α → Prop) : σ → List α → Prop
  | _, [] => True
  | s, a :: as => P s a ∧ Along P (step s a) as

theorem along_invariant {P : σ → α → Prop} {Inv : σ → Prop}
    (hs : ∀ s a, Inv s → P s a → Inv (step s a)) {s : σ} {as : List α} (h : Inv s)
    (ha : Along step P s as) : ∀ done rest, as = done ++ rest → Inv (run step s done) := by
  induction as generalizing s with
  | nil =>
    intro done rest he
    obtain ⟨rfl,rfl⟩ := nil_eq_append_iff.mp he
    exact h
  | cons a as ih =>
    intro done rest he
    cases done with
    | nil => exact h
    | cons d done =>
      obtain ⟨rfl,has⟩ := cons.inj he
      exact ih (hs s a h ha.1) ha.2 done rest has

theorem along_steps {P R : σ → α → Prop} {Inv : σ → Prop} (hs : ∀ s a, Inv s → P s a → Inv (step s a))
    (hd : ∀ s a, Inv s → P s a → R s a) {s : σ} {as : List α} (h : Inv s) (ha : Along step P s as) :
    ∀ done a rest, as = done ++ a :: rest → R (run step s done) a := by
  induction as generalizing s with
  | nil => simp
  | cons b as ih =>
    intro done a rest he
    cases done with
    | nil =>
      obtain ⟨rfl,-⟩ := cons.inj he
      exact hd s b h ha.1
    | cons d done =>
      obtain ⟨rfl,has⟩ := cons.inj he
      exact ih (hs s b h ha.1) ha.2 done a rest has

theorem always_iff_along {P Q : σ → α → Prop} {Inv Good : σ → Prop} (hinv : ∀ s a, Inv s → Inv (step s a))
    (hs : ∀ s a, Inv s → Good s → Q s a → (Good (step s a) ↔ P s a)) {s : σ} {as : List α}
    (h : Inv s) (hg : Good s) (hq : Along step Q s as) :
    (∀ done rest, as = done ++ rest → Good (run step s done)) ↔ Along step P s as := by
  induction as generalizing s with
  | nil =>
    refine ⟨fun _ => trivial,fun _ done rest he => ?_⟩
    obtain ⟨rfl,rfl⟩ := nil_eq_append_iff.mp he
    exact hg
  | cons a as ih =>
    have hone := hs s a h hg hq.1
    constructor
    · intro hall
      have hn : Good (step s a) := hall [a] as rfl
      refine ⟨hone.mp hn,(ih (hinv s a h) hn hq.2).mp fun done rest he => ?_⟩
      exact hall (a :: done) rest (by rw [he]; rfl)
    rintro ⟨ha,has⟩ done rest he
    cases done with
    | nil => exact hg
    | cons d done =>
      obtain ⟨rfl,hr⟩ := cons.inj he
      exact (ih (hinv s a h) (hone.mpr ha) hq.2).mpr has done rest hr

theorem always_iff_along_kept {P : σ → α → Prop} {Inv Good : σ → Prop} (hg : ∀ s, Inv s → Good s)
    (hk : ∀ s a, Inv s → P s a → Inv (step s a))
    (hb : ∀ s a, Inv s → ¬ P s a → ¬ Good (step s a)) {s : σ} {as : List α} (h : Inv s) :
    (∀ done rest, as = done ++ rest → Good (run step s done)) ↔ Along step P s as := by
  constructor
  · intro hall
    induction as generalizing s with
    | nil => trivial
    | cons a as ih =>
      have ha : P s a := by
        by_contra hno
        exact hb s a h hno (hall [a] as rfl)
      refine ⟨ha,ih (hk s a h ha) fun done rest he => ?_⟩
      exact hall (a :: done) rest (by rw [he]; rfl)
  · intro ha done rest he
    exact hg _ (along_invariant step hk h ha done rest he)

theorem end_iff_along {P : σ → α → Prop} {Inv Lost Good : σ → Prop} (hg : ∀ s, Inv s → Good s)
    (hl : ∀ s, Lost s → ¬ Good s) (hk : ∀ s a, Inv s → P s a → Inv (step s a))
    (hb : ∀ s a, Inv s → ¬ P s a → Lost (step s a)) (hs : ∀ s a, Lost s → Lost (step s a))
    {s : σ} {as : List α} (h : Inv s) : Good (run step s as) ↔ Along step P s as := by
  constructor
  · intro hall
    induction as generalizing s with
    | nil => trivial
    | cons a as ih =>
      have ha : P s a := by
        by_contra hno
        exact hl _ (run_invariant step hs (hb s a h hno) as) hall
      exact ⟨ha,ih (hk s a h ha) hall⟩
  · intro ha
    exact hg _ (along_invariant step hk h ha as [] (append_nil as).symm)

section Outputs

variable {τ ω υ : Type} (f : σ → α → ω × σ) (g : τ → α → υ × τ)

def outputs : σ → List α → List ω × σ
  | s, [] => ([],s)
  | s, a :: as => ((f s a).1 :: (outputs (f s a).2 as).1,(outputs (f s a).2 as).2)

theorem outputs_simulate {view : ω → υ} {R : σ → τ → Prop}
    (hs : ∀ s t a, R s t → view (f s a).1 = (g t a).1 ∧ R (f s a).2 (g t a).2) {s : σ} {t : τ}
    (h : R s t) (as : List α) :
    (outputs f s as).1.map view = (outputs g t as).1 ∧ R (outputs f s as).2 (outputs g t as).2 := by
  induction as generalizing s t with
  | nil => exact ⟨rfl,h⟩
  | cons a as ih =>
    obtain ⟨hout,hn⟩ := hs s t a h
    obtain ⟨ho,hl⟩ := ih hn
    simp only [outputs,map_cons]
    exact ⟨by rw [hout,ho],hl⟩

end Outputs

section Fallible

variable {f : σ → α → Option σ} {Inv : σ → Prop}

theorem foldlM_keeps {as : List α} {s s' : σ} (hrun : as.foldlM f s = some s')
    (hs : ∀ s a s', Inv s → f s a = some s' → Inv s') (h : Inv s) : Inv s' := by
  induction as generalizing s with
  | nil =>
    obtain rfl : s = s' := by simpa using hrun
    exact h
  | cons a as ih =>
    rw [foldlM_cons,Option.bind_eq_bind,Option.bind_eq_some_iff] at hrun
    obtain ⟨s1,h1,hr⟩ := hrun
    exact ih hr (hs s a s1 h h1)

theorem foldlM_runs {as : List α} {s : σ}
    (hst : ∀ s, Inv s → ∀ a ∈ as, ∃ s', f s a = some s' ∧ Inv s') (h : Inv s) :
    ∃ s', as.foldlM f s = some s' ∧ Inv s' := by
  induction as generalizing s with
  | nil => exact ⟨s,rfl,h⟩
  | cons a as ih =>
    obtain ⟨s1,h1,hinv⟩ := hst s h a mem_cons_self
    obtain ⟨s2,h2,hi2⟩ := ih (fun s hs b hb => hst s hs b (mem_cons_of_mem a hb)) hinv
    refine ⟨s2,?_,hi2⟩
    rw [foldlM_cons,h1]
    exact h2

def AlongM (f : σ → α → Option σ) (P : σ → α → Prop) : σ → List α → Prop
  | _, [] => True
  | s, a :: as => P s a ∧ ∀ s', f s a = some s' → AlongM f P s' as

theorem alongM_runs {P : σ → α → Prop} {as : List α} {s : σ}
    (hs : ∀ s a, Inv s → P s a → ∃ s', f s a = some s' ∧ Inv s') (h : Inv s)
    (ha : AlongM f P s as) : ∃ s', as.foldlM f s = some s' ∧ Inv s' := by
  induction as generalizing s with
  | nil => exact ⟨s,rfl,h⟩
  | cons a as ih =>
    obtain ⟨s1,h1,hinv⟩ := hs s a h ha.1
    obtain ⟨s2,h2,hi2⟩ := ih hinv (ha.2 s1 h1)
    refine ⟨s2,?_,hi2⟩
    rw [foldlM_cons,h1]
    exact h2

end Fallible

end AevOS.Runs
