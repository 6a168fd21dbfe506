import AevOS.LinkedQueue

/-! The coroutine scheduler of `kernel/sched/coroutine.c`. The `next` fields of all coroutines link the
run queues; a call is `none` when `enqueue` walks a list without end. -/

namespace AevOS.Coroutines
open Links Function
open Option (some.inj bind_eq_bind bind_some)
open UInt64 (ofNat)

abbrev maxCoroutines : Nat := 1024
def coroPriorityLevels : Nat := 256
def timerFreqHz : UInt64 := 1000
def schedPreemptTicks : UInt32 := 10

inductive CoroState where
  | ready | running | waiting | dead
  deriving DecidableEq

inductive Coro where
  | idle
  | pool (i : Fin maxCoroutines)
  deriving DecidableEq

structure CoroT where
  state : CoroState
  priority : UInt8
  id : UInt32
  wakeTick : UInt64

structure Sched where
  queues : Queues UInt8 Coro
  coros : Coro → CoroT
  used : Fin maxCoroutines → Bool
  nextCoroId : UInt32
  current : Coro
  ticks : UInt64
  ticksSinceSwitch : UInt32
  preemptPending : Bool

def Sched.setCoro (s : Sched) (c : Coro) (r : CoroT) : Sched :=
  { s with coros := update s.coros c r }

def Sched.setState (s : Sched) (c : Coro) (state : CoroState) : Sched :=
  s.setCoro c { s.coros c with state := state }

def enqueue (c : Coro) (s : Sched) : Option Sched :=
  (s.queues.push (maxCoroutines+1) (s.coros c).priority c).map fun q => { s with queues := q }

def enqueueIf (b : Prop) [Decidable b] (c : Coro) (s : Sched) : Option Sched :=
  if b then enqueue c s else some s

def pickNextCoro : Nat → Sched → Coro × Sched
  | 0, s => (.idle,s)
  | p+1, s =>
    match s.queues.heads (UInt8.ofNat p) with
    | some c => (c,{ s with queues := s.queues.pop (UInt8.ofNat p) c })
    | none => pickNextCoro p s

def wakes (now : UInt64) (s : Sched) (i : Fin maxCoroutines) : Prop :=
  s.used i = true ∧ (s.coros (.pool i)).state = .waiting ∧
    (s.coros (.pool i)).wakeTick ≠ 0 ∧ (s.coros (.pool i)).wakeTick ≤ now
  deriving Decidable

def wakeOne (now : UInt64) (s : Sched) (i : Fin maxCoroutines) : Option Sched :=
  if wakes now s i then
    enqueue (.pool i)
      (s.setCoro (.pool i) { s.coros (.pool i) with state := .ready, wakeTick := 0 })
  else some s

def wakeSleeping (s : Sched) : Option Sched :=
  (List.finRange maxCoroutines).foldlM (wakeOne s.ticks) s

def allocCoro (s : Sched) : Option (Fin maxCoroutines × Sched) :=
  ((List.finRange maxCoroutines).find? (fun i => !s.used i)).map fun i =>
    (i,{ s.setCoro (.pool i) { s.coros (.pool i) with id := s.nextCoroId } with
      used := update s.used i true, nextCoroId := s.nextCoroId+1 })

def freeCoro (i : Fin maxCoroutines) (s : Sched) : Sched :=
  { s with used := update s.used i false }

def coroInit (s : Sched) : Sched :=
  { s with
    queues := ⟨fun _ => none,update s.queues.next .idle none⟩
    coros := update s.coros .idle ⟨.running,0,s.nextCoroId,0⟩
    used := fun _ => false
    nextCoroId := s.nextCoroId+1
    current := .idle }

def coroCreate (priority : UInt8) (granted : Bool) (s : Sched) : Option Sched :=
  match allocCoro s with
  | none => some s
  | some (i,s) =>
    if granted = true then
      enqueue (.pool i) (s.setCoro (.pool i)
          { s.coros (.pool i) with state := .ready, priority := priority, wakeTick := 0 })
    else some (freeCoro i s)

def switchTo (prev : Coro) (r : Coro × Sched) : Sched :=
  if r.1 = prev then r.2.setState prev .running
  else { r.2.setState r.1 .running with current := r.1, ticksSinceSwitch := 0 }

def coroYield (s : Sched) : Option Sched := do
  let prev := s.current
  let s := { s with preemptPending := false }
  let s := if (s.coros prev).state = .running then s.setState prev .ready else s
  let s ← wakeSleeping s
  let s ← enqueueIf ((s.coros prev).state = .ready) prev s
  some (switchTo prev (pickNextCoro coroPriorityLevels s))

def timerTick (s : Sched) : Sched :=
  let s := { s with ticks := s.ticks+1, ticksSinceSwitch := s.ticksSinceSwitch+1 }
  if schedPreemptTicks ≤ s.ticksSinceSwitch then
    { s with
      preemptPending := s.preemptPending ||
        decide (s.current ≠ .idle ∧ (s.coros s.current).state = .running)
      ticksSinceSwitch := 0 }
  else s

def sleepTicks (ms : UInt32) : UInt64 := ofNat ms.toNat*timerFreqHz/1000

def coroSleep (ms : UInt32) (elapsed : Nat) (s : Sched) : Option Sched :=
  let s := s.setCoro s.current
    { s.coros s.current with state := .waiting, wakeTick := s.ticks+sleepTicks ms }
  coroYield (timerTick^[elapsed] s)

def coroExit (s : Sched) : Option Sched := coroYield (s.setState s.current .dead)

def reclaim (s : Sched) : Sched :=
  (List.finRange maxCoroutines).foldl
    (fun s i => if s.used i = true ∧ (s.coros (.pool i)).state = .dead then freeCoro i s else s) s

def dispatch (next : Coro) (s : Sched) : Option Sched :=
  if next = .idle ∧ s.current = .idle then some s
  else do
    let prev := s.current
    let s := if (s.coros prev).state = .running then s.setState prev .ready else s
    let s ← enqueueIf ((s.coros prev).state = .ready ∧ prev ≠ .idle) prev s
    let s := { s.setState next .running with current := next }
    some (if next ≠ prev then { s with ticksSinceSwitch := 0 } else s)

def schedulerTurn (s : Sched) : Option Sched := do
  let s ← wakeSleeping s
  let r := pickNextCoro coroPriorityLevels (reclaim s)
  dispatch r.1 r.2

inductive Op where
  | create (priority : UInt8) (granted : Bool)
  | yield
  | sleep (ms : UInt32) (elapsed : Nat)
  | exit
  | tick
  | turn

def step (s : Sched) : Op → Option Sched
  | .create priority granted => coroCreate priority granted s
  | .yield => coroYield s
  | .sleep ms elapsed => coroSleep ms elapsed s
  | .exit => coroExit s
  | .tick => some (timerTick s)
  | .turn => schedulerTurn s

/-! The run queues hold exactly the ready coroutines, each once, as long as none is woken by the very
`coro_yield` that puts it to sleep. -/

open List hiding Chain

def Intact (s : Sched) : Prop :=
  ∃ q, Holds s.queues q ∧ (∀ p, (q p).Nodup) ∧
    ∀ i, (∃ p, .pool i ∈ q p) ↔ s.used i = true ∧ (s.coros (.pool i)).state = .ready

structure Tracked (s : Sched) (off : Set Coro) (q : UInt8 → List Coro) : Prop where
  holds : Holds s.queues q
  prio : ∀ p, ∀ c ∈ q p, (s.coros c).priority = p
  out : ∀ c ∈ off, ∀ p, c ∉ q p
  ready : ∀ i, .pool i ∉ off →
    ((∃ p, .pool i ∈ q p) ↔ s.used i = true ∧ (s.coros (.pool i)).state = .ready)

def Coro.slot : Coro → Option (Fin maxCoroutines)
  | .idle => none
  | .pool i => some i

theorem Coro.slot_injective : Injective Coro.slot := by
  rintro (_ | i) (_ | j) hij
  · rfl
  · cases hij
  · cases hij
  · exact congrArg Coro.pool (some.inj hij)

theorem coro_length {l : List Coro} (h : l.Nodup) : l.length ≤ maxCoroutines+1 := by
  have hlen := (h.map Coro.slot_injective).length_le_card
  simpa using hlen

variable {s' s s1 : Sched} {i : Fin maxCoroutines} {now : UInt64} {ms : UInt32} {elapsed : Nat}
    {o : Op} {os : List Op}

section
variable {s : Sched} {off : Set Coro} {q : UInt8 → List Coro} {c : Coro}

section
variable (h : Tracked s off q)
include h

theorem Tracked.congr (hq : s'.queues = s.queues)
    (hc : s'.coros = s.coros) (hu : s'.used = s.used) : Tracked s' off q := by
  refine ⟨?_,?_,h.out,?_⟩
  · rw [hq]
    exact h.holds
  · rw [hc]
    exact h.prio
  · rw [hc,hu]
    exact h.ready

theorem Tracked.setCoro (hc : c ∈ off) (r : CoroT) : Tracked (s.setCoro c r) off q := by
  have hs : ∀ d, d ∉ off → (s.setCoro c r).coros d = s.coros d :=
    fun d hd => update_of_ne (ne_of_mem_of_not_mem hc hd).symm _ _
  refine ⟨h.holds,fun p d hd => ?_,h.out,fun i hi => ?_⟩
  · rw [hs d (fun e => h.out d e p hd)]
    exact h.prio p d hd
  · rw [hs _ hi]
    exact h.ready i hi

theorem Tracked.setUsed (hi : .pool i ∈ off) (b : Bool) :
    Tracked { s with used := update s.used i b } off q := by
  refine ⟨h.holds,h.prio,h.out,fun j hj => ?_⟩
  have hne : j ≠ i := fun e => hj (e ▸ hi)
  simpa [update_of_ne hne] using h.ready j hj

theorem Tracked.insert (hc : ∀ p, c ∉ q p) : Tracked s (insert c off) q := by
  refine ⟨h.holds,h.prio,?_,fun i hi => h.ready i (fun hm => hi (.inr hm))⟩
  rintro d (rfl | hd)
  · exact hc
  · exact h.out d hd

theorem Tracked.drop
    (hnot : ∀ i, c = .pool i → ¬ (s.used i = true ∧ (s.coros (.pool i)).state = .ready)) :
    Tracked s (off \ {c}) q := by
  refine ⟨h.holds,h.prio,fun d hd => h.out d hd.1,fun i hi => ?_⟩
  by_cases he : .pool i ∈ off
  · have heq : c = .pool i := by
      by_contra hne
      exact hi ⟨he,fun e => hne e.symm⟩
    refine iff_of_false ?_ (hnot i heq)
    rintro ⟨p,hp⟩
    exact h.out _ he p hp
  · exact h.ready i he

end

theorem cons_of_head {qs : Queues UInt8 Coro} {p : UInt8} (h : Holds qs q) (hh : qs.heads p = some c) :
    ∃ l, q p = c :: l := by
  have hp := h.chain p
  rw [hh] at hp
  cases hq : q p with
  | nil => simp [hq,Chain] at hp
  | cons d l =>
    rw [hq] at hp
    exact ⟨l,by rw [some.inj hp.1]⟩

theorem enqueue_tracked (h : Tracked s off q) (hc : c ∈ off)
    (hr : ∀ i, c = .pool i → s.used i = true ∧ (s.coros (.pool i)).state = .ready) :
    ∃ qs q', enqueue c s = some { s with queues := qs } ∧
      Tracked { s with queues := qs } (off \ {c}) q' := by
  obtain ⟨qs,hps,hh⟩ := h.holds.push (p := (s.coros c).priority) (h.out c hc)
    (coro_length (h.holds.chain _).nodup)
  refine ⟨qs,_,by simp [enqueue,hps],hh,?_,?_,?_⟩
  · intro p d hd
    rcases mem_pushed.mp hd with hd | ⟨rfl,rfl⟩
    · exact h.prio p d hd
    · rfl
  · rintro d ⟨hd,hne⟩ p hmem
    rcases mem_pushed.mp hmem with hmem | ⟨-,rfl⟩
    · exact h.out d hd p hmem
    · exact hne rfl
  intro i hi
  by_cases he : c = .pool i
  · exact iff_of_true ⟨_,mem_pushed.mpr (.inr ⟨rfl,he.symm⟩)⟩ (hr i he)
  have hnot : .pool i ∉ off := fun hm => hi ⟨hm,fun e => he e.symm⟩
  rw [← h.ready i hnot]
  simp only [mem_pushed,Ne.symm he,and_false,or_false]

structure Woken (s s' : Sched) (is : List (Fin maxCoroutines)) (off : Set Coro) : Prop where
  used : s'.used = s.used
  current : s'.current = s.current
  ticks : s'.ticks = s.ticks
  off : ∀ c ∈ off, s'.coros c = s.coros c
  rest : ∀ i, i ∉ is → s'.coros (.pool i) = s.coros (.pool i)

theorem Woken.refl (s : Sched) (is : List (Fin maxCoroutines)) (off : Set Coro) :
    Woken s s is off := ⟨rfl,rfl,rfl,fun _ _ => rfl,fun _ _ => rfl⟩

theorem wakeOne_tracked (h : Tracked s off q) (hoff : .pool i ∈ off → ¬ wakes now s i) :
    ∃ s' q', wakeOne now s i = some s' ∧ Tracked s' off q' ∧ Woken s s' [i] off := by
  rw [wakeOne]
  by_cases hw : wakes now s i
  · rw [if_pos hw]
    have hi : .pool i ∉ off := fun hm => hoff hm hw
    have hout : ∀ p, .pool i ∉ q p := by
      intro p hp
      have hr := ((h.ready i hi).mp ⟨p,hp⟩).2
      rw [hw.2.1] at hr
      cases hr
    have hset := (h.insert hout).setCoro (Set.mem_insert _ _)
      { s.coros (.pool i) with state := .ready, wakeTick := 0 }
    obtain ⟨qs,q',heq,ht⟩ := enqueue_tracked hset (Set.mem_insert _ _) (by
      intro j hj
      obtain rfl := Coro.pool.inj hj
      exact ⟨hw.1,by simp [Sched.setCoro]⟩)
    rw [Set.insert_sdiff_of_mem _ (Set.mem_singleton _),Set.sdiff_singleton_eq_self hi] at ht
    refine ⟨_,q',heq,ht,rfl,rfl,rfl,fun c hc => ?_,fun j hj => ?_⟩
    · exact update_of_ne (ne_of_mem_of_not_mem hc hi) _ _
    · exact update_of_ne (fun e => hj (by simpa using e)) _ _
  · rw [if_neg hw]
    exact ⟨s,q,rfl,h,Woken.refl s _ _⟩

theorem wakes_congr (hu : s'.used = s.used) (hc : s'.coros (.pool i) = s.coros (.pool i)) :
    wakes now s' i ↔ wakes now s i := by simp [wakes,hu,hc]

theorem wakeAll_tracked (now : UInt64) (is : List (Fin maxCoroutines)) (h : Tracked s off q)
    (hoff : ∀ i ∈ is, .pool i ∈ off → ¬ wakes now s i) :
    ∃ s' q', is.foldlM (wakeOne now) s = some s' ∧ Tracked s' off q' ∧ Woken s s' is off := by
  induction is generalizing s q with
  | nil => exact ⟨s,q,rfl,h,Woken.refl s _ _⟩
  | cons i is ih =>
    obtain ⟨s1,q1,heq1,h1,hw1⟩ := wakeOne_tracked h (hoff i mem_cons_self)
    obtain ⟨s2,q2,heq2,h2,hw2⟩ := ih h1 (by
      intro j hj hm
      rw [wakes_congr hw1.used (hw1.off _ hm)]
      exact hoff j (mem_cons_of_mem i hj) hm)
    refine ⟨s2,q2,by simp [foldlM_cons,heq1,heq2],h2,hw2.used.trans hw1.used,
      hw2.current.trans hw1.current,hw2.ticks.trans hw1.ticks,
      fun c hc => (hw2.off c hc).trans (hw1.off c hc),fun j hj => ?_⟩
    rw [mem_cons,not_or] at hj
    exact (hw2.rest j hj.2).trans (hw1.rest j (by simpa using hj.1))

theorem pickNextCoro_cases (n : Nat) (s : Sched) :
    pickNextCoro n s = (.idle,s) ∧ (∀ p, p < n → s.queues.heads (UInt8.ofNat p) = none) ∨
      ∃ p c, s.queues.heads p = some c ∧ pickNextCoro n s = (c,{ s with queues := s.queues.pop p c }) := by
  induction n with
  | zero => exact .inl ⟨rfl,fun p hp => absurd hp (Nat.not_lt_zero p)⟩
  | succ n ih =>
    rw [pickNextCoro]
    cases hh : s.queues.heads (UInt8.ofNat n) with
    | some c => exact .inr ⟨_,c,hh,rfl⟩
    | none =>
      rcases ih with ⟨heq,hn⟩ | hs
      · refine .inl ⟨heq,fun p hp => ?_⟩
        rcases Nat.lt_succ_iff_lt_or_eq.mp hp with hlt | rfl
        · exact hn p hlt
        · exact hh
      · exact .inr hs

theorem pickNextCoro_tracked (h : Tracked s off q) :
    ∃ c qs q', pickNextCoro coroPriorityLevels s = (c,{ s with queues := qs }) ∧
      Tracked { s with queues := qs } (insert c off) q' ∧ (c = .idle ∨ c ∉ off) ∧
      ∀ i, c = .pool i → s.used i = true := by
  rcases pickNextCoro_cases coroPriorityLevels s with ⟨heq,hn⟩ | ⟨p,c,hh,heq⟩
  · refine ⟨.idle,s.queues,q,heq,h.insert (fun p => ?_),.inl rfl,by simp⟩
    have hp := hn p.toNat p.toNat_lt
    rw [UInt8.ofNat_toNat] at hp
    simp [h.holds.empty_head hp]
  obtain ⟨l,hl⟩ := cons_of_head h.holds hh
  have hmem : c ∈ q p := hl ▸ mem_cons_self
  have hoff : c ∉ off := fun hm => h.out c hm p hmem
  obtain ⟨-,hpop,hg⟩ := h.holds.pop hl
  have hsub : ∀ {p' d}, d ∈ update q p l p' ↔ d ∈ q p' ∧ d ≠ c := mem_popped hl hg
  refine ⟨c,_,update q p l,heq,⟨hpop,?_,?_,?_⟩,.inr hoff,?_⟩
  · exact fun p' d hd => h.prio p' d (hsub.mp hd).1
  · rintro d (rfl | hd) p'
    · exact hg p'
    · exact fun hm => h.out d hd p' (hsub.mp hm).1
  · intro i hi
    rw [Set.mem_insert_iff,not_or] at hi
    rw [← h.ready i hi.2]
    simp only [hsub,ne_eq,hi.1,not_false_eq_true,and_true]
  · rintro i rfl
    exact ((h.ready i hoff).mp ⟨p,hmem⟩).1

end

def Rest (s : Sched) : Prop :=
  (∃ q, Tracked s {s.current} q) ∧ (s.coros s.current).state = .running ∧
    ∀ i, s.current = .pool i → s.used i = true

section
variable {s : Sched} {q : UInt8 → List Coro} {c : Coro}

theorem Rest.intact (h : Rest s) : Intact s := by
  obtain ⟨⟨q,ht⟩,hrun,-⟩ := h
  have hall := ht.drop (c := s.current) (by
    rintro i hi ⟨-,hr⟩
    rw [hi,hr] at hrun
    cases hrun)
  exact ⟨q,hall.holds,fun p => (hall.holds.chain p).nodup,fun i => hall.ready i (by simp)⟩

theorem coroInit_rest (s : Sched) : Rest (coroInit s) := by
  refine ⟨⟨fun _ => [],⟨⟨fun p => rfl,by simp⟩,by simp,by simp,fun i _ => ?_⟩⟩,?_,?_⟩
  · simp [coroInit]
  · simp [coroInit]
  · rintro i hi
    cases hi

theorem switchTo_rest (h : Tracked s {c} q) (hu : ∀ i, c = .pool i → s.used i = true) :
    Rest (switchTo s.current (c,s)) := by
  have hset := h.setCoro (Set.mem_singleton c) { s.coros c with state := .running }
  rw [switchTo]
  split
  · next heq =>
    obtain rfl : c = s.current := heq
    exact ⟨⟨q,hset⟩,by simp [Sched.setState,Sched.setCoro],hu⟩
  · exact ⟨⟨q,hset.holds,hset.prio,hset.out,hset.ready⟩,by simp [Sched.setState,Sched.setCoro],hu⟩

theorem requeue_rest (h : Tracked s {s.current} q)
    (hu : ∀ i, s.current = .pool i → s.used i = true) :
    ∃ s', (do
      let s1 ← enqueueIf ((s.coros s.current).state = .ready) s.current s
      some (switchTo s.current (pickNextCoro coroPriorityLevels s1))) = some s' ∧ Rest s' := by
  obtain ⟨qs,q1,heq,h1⟩ : ∃ qs q1, enqueueIf ((s.coros s.current).state = .ready) s.current s =
        some { s with queues := qs } ∧ Tracked { s with queues := qs } ∅ q1 := by
    rw [enqueueIf]
    split
    · next hrd =>
      obtain ⟨qs,q1,heq,h1⟩ := enqueue_tracked h (Set.mem_singleton _)
        (fun i hi => ⟨hu i hi,hi ▸ hrd⟩)
      exact ⟨qs,q1,heq,by simpa using h1⟩
    · next hnot =>
      have h1 := h.drop (c := s.current) (fun i hi hr => hnot (hi ▸ hr.2))
      exact ⟨s.queues,q,rfl,by simpa using h1⟩
  obtain ⟨c,qs2,q2,hp,h2,-,hc⟩ := pickNextCoro_tracked h1
  rw [heq]
  exact ⟨_,rfl,hp ▸ switchTo_rest (by simpa using h2) hc⟩

theorem coroYield_rest (h : Tracked s {s.current} q) (hu : ∀ i, s.current = .pool i → s.used i = true)
    (hwk : ∀ i, s.current = .pool i → ¬ wakes s.ticks s i) : ∃ s', coroYield s = some s' ∧ Rest s' := by
  obtain ⟨s1,hs1,ht1,hcur,hu1,ht,hw1⟩ : ∃ s1 : Sched,
      s1 = (if (s.coros s.current).state = .running then
        ({ s with preemptPending := false } : Sched).setState s.current .ready
        else { s with preemptPending := false }) ∧ Tracked s1 {s.current} q ∧
      s1.current = s.current ∧ s1.used = s.used ∧ s1.ticks = s.ticks ∧
      ∀ i, s.current = .pool i → ¬ wakes s.ticks s1 i := by
    have hc : Tracked { s with preemptPending := false } {s.current} q :=
      ⟨h.holds,h.prio,h.out,h.ready⟩
    split
    · refine ⟨_,rfl,hc.setCoro (Set.mem_singleton _) _,rfl,rfl,rfl,fun i hi hw => ?_⟩
      have hs := hw.2.1
      rw [← hi] at hs
      simp [Sched.setState,Sched.setCoro] at hs
    · exact ⟨_,rfl,hc,rfl,rfl,rfl,hwk⟩
  obtain ⟨s2,q2,hwa,ht2,hw⟩ := wakeAll_tracked s1.ticks (finRange maxCoroutines) ht1
    (fun i _ hi => ht ▸ hw1 i hi.symm)
  have hc2 : s2.current = s.current := hw.current.trans hcur
  rw [← hc2] at ht2
  obtain ⟨s',heq,hr⟩ := requeue_rest ht2 (by
    rw [hc2,hw.used,hu1]
    exact hu)
  refine ⟨s',?_,hr⟩
  rw [← heq]
  simp only [coroYield,← hs1,wakeSleeping,hwa,hc2]
  rfl

theorem timerTick_eq (s : Sched) : ∃ t b, timerTick s =
    { s with ticks := s.ticks+1, ticksSinceSwitch := t, preemptPending := b } := by
  rw [timerTick]
  split
  · exact ⟨_,_,rfl⟩
  · exact ⟨_,_,rfl⟩

theorem timerTick_iterate (n : Nat) (s : Sched) : ∃ t b, timerTick^[n] s =
    { s with ticks := s.ticks+ofNat n, ticksSinceSwitch := t, preemptPending := b } := by
  induction n with
  | zero => exact ⟨s.ticksSinceSwitch,s.preemptPending,by simp⟩
  | succ n ih =>
    obtain ⟨t,b,heq⟩ := ih
    rw [iterate_succ_apply',heq]
    obtain ⟨t',b',heq'⟩ := timerTick_eq
      { s with ticks := s.ticks+ofNat n, ticksSinceSwitch := t, preemptPending := b }
    refine ⟨t',b',heq'.trans ?_⟩
    simp [UInt64.ofNat_add,add_assoc]

theorem timerTick_rest (h : Rest s) : Rest (timerTick s) := by
  obtain ⟨t,b,heq⟩ := timerTick_eq s
  obtain ⟨⟨q,ht⟩,hrun,hu⟩ := h
  rw [heq]
  exact ⟨⟨q,ht.holds,ht.prio,ht.out,ht.ready⟩,hrun,hu⟩

theorem allocCoro_tracked (h : Rest s) (ha : allocCoro s = some (i,s1)) :
    ∃ q, Tracked s1 {.pool i,s1.current} q ∧ .pool i ≠ s1.current ∧ s1.used i = true ∧
      (s1.coros s1.current).state = .running ∧ ∀ j, s1.current = .pool j → s1.used j = true := by
  obtain ⟨⟨q,ht⟩,hrun,hu⟩ := h
  simp only [allocCoro,Option.map_eq_some_iff] at ha
  obtain ⟨j,hfn,heq⟩ := ha
  obtain ⟨rfl,rfl⟩ := Prod.mk.inj heq
  have hf : s.used j = false := by simpa using find?_some hfn
  have hne : .pool j ≠ s.current := by
    intro he
    rw [hu j he.symm] at hf
    cases hf
  have hnot : ∀ p, .pool j ∉ q p := by
    intro p hp
    have hin := ((ht.ready j hne).mp ⟨p,hp⟩).1
    rw [hf] at hin
    cases hin
  have hmem : Coro.pool j ∈ (insert (.pool j) {s.current} : Set Coro) := Set.mem_insert _ _
  have hon := ((ht.insert hnot).setCoro hmem
    { s.coros (.pool j) with id := s.nextCoroId }).setUsed hmem true
  refine ⟨q,hon.congr rfl rfl rfl,hne,update_self ..,?_,fun k hk => ?_⟩
  · simpa [Sched.setCoro,update_of_ne hne.symm] using hrun
  have hkj : k ≠ j := by
    rintro rfl
    exact hne hk.symm
  simpa [update_of_ne hkj] using hu k hk

theorem coroCreate_rest (h : Rest s) (priority : UInt8) (granted : Bool) :
    ∃ s', coroCreate priority granted s = some s' ∧ Rest s' := by
  unfold coroCreate
  cases ha : allocCoro s with
  | none => exact ⟨s,rfl,h⟩
  | some r =>
    obtain ⟨i,s1⟩ := r
    obtain ⟨q,ht,hne,hin,hrun,hus⟩ := allocCoro_tracked h ha
    have hmem : Coro.pool i ∈ ({.pool i,s1.current} : Set Coro) := Set.mem_insert _ _
    have hd : ({.pool i,s1.current} : Set Coro) \ {Coro.pool i} = {s1.current} := by
      rw [Set.insert_sdiff_of_mem _ (Set.mem_singleton _),
        Set.sdiff_singleton_eq_self (by simpa using hne)]
    dsimp only
    split
    · obtain ⟨qs,q',heq,ht'⟩ := enqueue_tracked (ht.setCoro hmem
        { s1.coros (.pool i) with state := .ready, priority := priority, wakeTick := 0 }) hmem (by
          intro j hj
          obtain rfl := Coro.pool.inj hj
          exact ⟨hin,by simp [Sched.setCoro]⟩)
      rw [hd] at ht'
      refine ⟨_,heq,⟨q',ht'⟩,?_,hus⟩
      simpa [Sched.setCoro,update_of_ne hne.symm] using hrun
    · -- the slot is given back
      have hoff := (ht.setUsed hmem false).drop (c := .pool i) (by
        rintro j hj ⟨hu,-⟩
        obtain rfl := Coro.pool.inj hj
        simp at hu)
      rw [hd] at hoff
      refine ⟨_,rfl,⟨q,hoff⟩,hrun,fun j hj => ?_⟩
      have hji : j ≠ i := by
        rintro rfl
        exact hne hj.symm
      simpa [freeCoro,update_of_ne hji] using hus j hj

theorem reclaim_tracked (is : List (Fin maxCoroutines)) {off : Set Coro} (h : Tracked s off q)
    (hoff : ∀ i, .pool i ∈ off → (s.coros (.pool i)).state ≠ .dead) :
    ∃ used, is.foldl (fun s i =>
        if s.used i = true ∧ (s.coros (.pool i)).state = .dead then freeCoro i s else s) s =
          { s with used := used } ∧
      Tracked { s with used := used } off q ∧ ∀ i, .pool i ∈ off → used i = s.used i := by
  induction is generalizing s with
  | nil => exact ⟨s.used,rfl,h,fun _ _ => rfl⟩
  | cons i is ih =>
    rw [foldl_cons]
    split
    · next hd =>
      have hi : .pool i ∉ off := fun hm => hoff i hm hd.2
      have hf : Tracked (freeCoro i s) off q := by
        refine ⟨h.holds,h.prio,h.out,fun j hj => ?_⟩
        by_cases hji : j = i
        · subst hji
          refine iff_of_false (fun hq => ?_) (by simp [freeCoro])
          have hr := ((h.ready j hj).mp hq).2
          rw [hd.2] at hr
          cases hr
        · simpa [freeCoro,update_of_ne hji] using h.ready j hj
      obtain ⟨used,heq,ht,hs⟩ := ih hf hoff
      refine ⟨used,heq,ht,fun j hj => ?_⟩
      have hji : j ≠ i := by
        rintro rfl
        exact hi hj
      rw [hs j hj]
      exact update_of_ne hji _ _
    · exact ih h hoff

theorem dispatch_rest {next : Coro} (h : Tracked s {next,s.current} q)
    (hrun : (s.coros s.current).state = .running) (hu : ∀ i, s.current = .pool i → s.used i = true)
    (hn : next = .idle ∨ next ≠ s.current) (hnu : ∀ i, next = .pool i → s.used i = true) :
    ∃ s', dispatch next s = some s' ∧ Rest s' := by
  rw [dispatch]
  split
  · next hil =>
    refine ⟨s,rfl,⟨q,?_⟩,hrun,hu⟩
    simpa [hil.1,hil.2] using h
  · next hs =>
    have hne : next ≠ s.current := by
      rintro rfl
      rcases hn with hil | hout
      · exact hs ⟨hil,hil⟩
      · exact hout rfl
    have hmem : s.current ∈ ({next,s.current} : Set Coro) := by simp
    have hd : ({next,s.current} : Set Coro) \ {s.current} = {next} := by
      rw [Set.insert_sdiff_of_notMem _ (by simpa using hne),Set.sdiff_self]
      simp
    have hset := h.setCoro hmem { s.coros s.current with state := .ready }
    obtain ⟨qs,q1,heq,h1⟩ : ∃ qs q1,
        enqueueIf (((s.setState s.current .ready).coros s.current).state = .ready ∧
            s.current ≠ .idle) s.current (s.setState s.current .ready) =
          some { s.setState s.current .ready with queues := qs } ∧
        Tracked { s.setState s.current .ready with queues := qs } {next} q1 := by
      rw [enqueueIf]
      split
      · next hr =>
        obtain ⟨qs,q1,heq,h1⟩ := enqueue_tracked hset hmem (fun i hi => ⟨hu i hi,hi ▸ hr.1⟩)
        exact ⟨qs,q1,heq,hd ▸ h1⟩
      · next hnot =>
        have hil : s.current = .idle := by
          by_contra hcur
          exact hnot ⟨by simp [Sched.setState,Sched.setCoro],hcur⟩
        have h1 := hset.drop (c := s.current) (by
          intro i hi
          rw [hil] at hi
          cases hi)
        exact ⟨s.queues,q,rfl,hd ▸ h1⟩
    have h2 := h1.setCoro (Set.mem_singleton next)
      { (s.setState s.current .ready).coros next with state := .running }
    simp only [if_pos hrun,heq,bind_eq_bind,bind_some,if_pos hne]
    exact ⟨_,rfl,⟨q1,h2.congr rfl rfl rfl⟩,by simp [Sched.setState,Sched.setCoro],hnu⟩

theorem schedulerTurn_rest (h : Rest s) : ∃ s', schedulerTurn s = some s' ∧ Rest s' := by
  obtain ⟨⟨q,ht⟩,hrun,hu⟩ := h
  obtain ⟨s1,q1,hwk,ht1,hw⟩ := wakeAll_tracked s.ticks (finRange maxCoroutines) ht (by
      rintro i - hi hws
      have hs := hws.2.1
      rw [Set.mem_singleton_iff.mp hi,hrun] at hs
      cases hs)
  rw [← hw.current] at ht1 hu
  have hr1 : (s1.coros s1.current).state = .running := by
    rw [hw.current,hw.off _ (Set.mem_singleton _)]
    exact hrun
  obtain ⟨used,hr,ht2,hsm⟩ := reclaim_tracked (finRange maxCoroutines) ht1 (by
    intro i hi hd
    rw [Set.mem_singleton_iff.mp hi,hr1] at hd
    cases hd)
  obtain ⟨next,qs,q3,hp,ht3,hn,hnu⟩ := pickNextCoro_tracked ht2
  obtain ⟨s',hds,hrs⟩ := dispatch_rest ht3 hr1 (by
    intro i hi
    have hcur : Coro.pool i ∈ ({s1.current} : Set Coro) := hi.symm
    exact (hsm i hcur).trans (hw.used ▸ hu i hi)) hn hnu
  refine ⟨s',?_,hrs⟩
  rw [schedulerTurn,wakeSleeping,hwk,bind_eq_bind,bind_some,reclaim,hr,hp]
  exact hds

def SleepDue (s : Sched) (ms : UInt32) (elapsed : Nat) : Prop :=
  (∃ i, s.current = .pool i) ∧ s.ticks+sleepTicks ms ≠ 0 ∧
    s.ticks+sleepTicks ms ≤ s.ticks+ofNat elapsed

theorem coroSleep_eq (ms : UInt32) (elapsed : Nat) (ht : Tracked s {s.current} q) :
    ∃ s1, coroSleep ms elapsed s = coroYield s1 ∧ Tracked s1 {s.current} q ∧ s1.used = s.used ∧
      s1.current = s.current ∧ s1.ticks = s.ticks+ofNat elapsed ∧
      (s1.coros s.current).state = .waiting ∧ (s1.coros s.current).wakeTick = s.ticks+sleepTicks ms := by
  have hset := ht.setCoro (Set.mem_singleton _)
    { s.coros s.current with state := .waiting, wakeTick := s.ticks+sleepTicks ms }
  obtain ⟨t,b,heq⟩ := timerTick_iterate elapsed (s.setCoro s.current
    { s.coros s.current with state := .waiting, wakeTick := s.ticks+sleepTicks ms })
  refine ⟨_,rfl,?_⟩
  rw [heq]
  exact ⟨hset.congr rfl rfl rfl,rfl,rfl,rfl,by simp [Sched.setCoro],by simp [Sched.setCoro]⟩

theorem coroSleep_rest (h : Rest s) (hdue : ¬ SleepDue s ms elapsed) :
    ∃ s', coroSleep ms elapsed s = some s' ∧ Rest s' := by
  obtain ⟨⟨q,ht⟩,-,hu⟩ := h
  obtain ⟨s1,heq,ht1,hu1,hcur,htc,hs,htk⟩ := coroSleep_eq ms elapsed ht
  rw [heq]
  refine coroYield_rest (hcur ▸ ht1) (by rwa [hcur,hu1]) ?_
  rintro i hi ⟨-,-,hne,hle⟩
  rw [hcur] at hi
  rw [← hi,htk] at hne hle
  exact hdue ⟨⟨i,hi⟩,hne,htc ▸ hle⟩

theorem coroExit_rest (h : Rest s) : ∃ s', coroExit s = some s' ∧ Rest s' := by
  obtain ⟨⟨q,ht⟩,-,hu⟩ := h
  refine coroYield_rest (ht.setCoro (Set.mem_singleton _) _) hu ?_
  intro i hi hw
  have hi : s.current = .pool i := hi
  have hs := hw.2.1
  rw [← hi] at hs
  simp [Sched.setState,Sched.setCoro] at hs

theorem wakeAll_self (h : Tracked s {.pool i} q) (hw : wakes now s i) :
    ∃ s' q', (finRange maxCoroutines).foldlM (wakeOne now) s = some s' ∧ Tracked s' ∅ q' ∧
      s'.current = s.current ∧ s'.used i = true ∧ (s'.coros (.pool i)).state = .ready := by
  obtain ⟨l,m,hs⟩ := append_of_mem (mem_finRange i)
  have hn := nodup_finRange maxCoroutines
  rw [hs] at hn
  have hil : i ∉ l := fun hm =>
    (nodup_append.mp hn).2.2 i hm i mem_cons_self rfl
  have him : i ∉ m := (nodup_cons.mp (nodup_append.mp hn).2.1).1
  obtain ⟨s1,q1,heq1,h1,hw1⟩ := wakeAll_tracked now l h (by
    intro j hj hji
    exact absurd (Coro.pool.inj hji ▸ hj) hil)
  have hwk1 : wakes now s1 i :=
    (wakes_congr hw1.used (hw1.off _ (Set.mem_singleton _))).mpr hw
  obtain ⟨qs,q2,heq2,h2⟩ := enqueue_tracked (h1.setCoro (Set.mem_singleton _)
    { s1.coros (.pool i) with state := .ready, wakeTick := 0 }) (Set.mem_singleton _) (by
      intro j hj
      obtain rfl := Coro.pool.inj hj
      exact ⟨hwk1.1,by simp [Sched.setCoro]⟩)
  rw [Set.sdiff_self] at h2
  obtain ⟨s3,q3,heq3,h3,hw3⟩ := wakeAll_tracked now m h2 (by simp)
  refine ⟨s3,q3,?_,h3,hw3.current.trans hw1.current,?_,?_⟩
  · rw [hs]
    simp only [foldlM_append,foldlM_cons,heq1,wakeOne,if_pos hwk1,heq2,bind_eq_bind,bind_some,heq3]
  · rw [hw3.used]
    exact hwk1.1
  · rw [hw3.rest i him]
    simp [Sched.setCoro]

theorem switchTo_loop (hlp : s.queues.next (.pool i) = some (.pool i)) (hu : s.used i = true)
    (hr : (s.coros (.pool i)).state = .ready) :
    ¬ Intact (switchTo (.pool i) (pickNextCoro coroPriorityLevels s)) := by
  rintro ⟨q,hh,-,hq⟩
  -- when another coroutine is picked this one is still ready, so it should be in a queue
  have ho : ∀ (c : Coro) (qs : Queues UInt8 Coro), c ≠ .pool i →
      qs.next (.pool i) = some (.pool i) →
      switchTo (.pool i) (pickNextCoro coroPriorityLevels s) =
        switchTo (.pool i) (c,{ s with queues := qs }) → False := by
    intro c qs hne hn heq
    rw [heq,switchTo,if_neg hne] at hh hq
    obtain ⟨p,hp⟩ := (hq i).mpr
      ⟨hu,by simpa [Sched.setState,Sched.setCoro,update_of_ne hne.symm] using hr⟩
    exact (hh.chain p).notMem_loop hn hp
  rcases pickNextCoro_cases coroPriorityLevels s with ⟨heq,-⟩ | ⟨p,c,hhd,heq⟩
  · exact ho .idle s.queues (fun h => by cases h) hlp (by rw [heq])
  by_cases hc : c = .pool i
  · subst hc
    rw [heq,switchTo,if_pos rfl] at hh hq
    have hf : (s.queues.pop p (.pool i)).heads p = some (.pool i) := by
      simp [Queues.pop,hlp]
    obtain ⟨l,hl⟩ := cons_of_head hh hf
    have hrun := ((hq i).mp ⟨p,by simp [hl]⟩).2
    simp [Sched.setState,Sched.setCoro] at hrun
  · refine ho c _ hc ?_ (by rw [heq])
    simpa [Queues.pop,update_of_ne (Ne.symm hc)] using hlp

theorem coroYield_parked (h : (s.coros s.current).state ≠ .running) : coroYield s = (do
    let s1 ← wakeSleeping { s with preemptPending := false }
    let s2 ← enqueueIf ((s1.coros s.current).state = .ready) s.current s1
    some (switchTo s.current (pickNextCoro coroPriorityLevels s2))) := by
  simp only [coroYield,if_neg h]

theorem coroSleep_due (h : Rest s) (hdue : SleepDue s ms elapsed) :
    ∃ s', coroSleep ms elapsed s = some s' ∧ ¬ Intact s' := by
  obtain ⟨⟨q,ht⟩,-,hu⟩ := h
  obtain ⟨⟨i,hi⟩,hne,hle⟩ := hdue
  obtain ⟨s1,heq,ht1,hu1,hcur,htk,hs,htc⟩ := coroSleep_eq ms elapsed ht
  rw [hi] at ht1 hcur hs htc
  have hwk : wakes s1.ticks s1 i := by
    rw [wakes,hu1,hs,htc,htk]
    exact ⟨hu i hi,rfl,hne,hle⟩
  obtain ⟨s2,q2,hw,ht2,-,hu2,hr⟩ := wakeAll_self
    (s := { s1 with preemptPending := false }) (ht1.congr rfl rfl rfl) hwk
  have hw : wakeSleeping { s1 with preemptPending := false } = some s2 := hw
  obtain ⟨p,hp⟩ := (ht2.ready i (by simp)).mpr ⟨hu2,hr⟩
  obtain ⟨qs,hps,hl⟩ := ht2.holds.push_again hp (coro_length (ht2.holds.chain p).nodup)
  have he : enqueue (.pool i) s2 = some { s2 with queues := qs } := by
    rw [enqueue,ht2.prio p _ hp,hps]
    rfl
  refine ⟨_,?_,switchTo_loop (s := { s2 with queues := qs }) hl hu2 hr⟩
  rw [heq,coroYield_parked (by rw [hcur,hs]; decide),hw,hcur]
  simp only [enqueueIf,if_pos hr,he,bind_eq_bind,bind_some]

def Op.due (s : Sched) : Op → Prop
  | .sleep ms elapsed => SleepDue s ms elapsed
  | _ => False

theorem step_rest (h : Rest s) (hdue : ¬ o.due s) : ∃ s', step s o = some s' ∧ Rest s' := by
  cases o with
  | create priority granted => exact coroCreate_rest h priority granted
  | yield =>
    obtain ⟨⟨q,ht⟩,hrun,hu⟩ := h
    refine coroYield_rest ht hu (fun i hi hw => ?_)
    have hs := hw.2.1
    rw [← hi,hrun] at hs
    cases hs
  | sleep ms elapsed => exact coroSleep_rest h hdue
  | exit => exact coroExit_rest h
  | tick => exact ⟨_,rfl,timerTick_rest h⟩
  | turn => exact schedulerTurn_rest h

theorem step_due (h : Rest s) (hdue : o.due s) : ∃ s', step s o = some s' ∧ ¬ Intact s' := by
  cases o with
  | sleep ms elapsed => exact coroSleep_due h hdue
  | create priority granted | yield | exit | tick | turn => exact hdue.elim

end

def AllIntact : Sched → List Op → Prop
  | s, [] => Intact s
  | s, o :: os => Intact s ∧ ∃ s', step s o = some s' ∧ AllIntact s' os

/-- No call of the run is a sleep that is over before it has yielded. -/
def NoneDue : Sched → List Op → Prop
  | _, [] => True
  | s, o :: os => ¬ o.due s ∧ ∀ s', step s o = some s' → NoneDue s' os

theorem AllIntact.head (h : AllIntact s os) : Intact s := by
  cases os with
  | nil => exact h
  | cons o os => exact h.1

theorem rest_run (h : Rest s) (os : List Op) : AllIntact s os ↔ NoneDue s os := by
  induction os generalizing s with
  | nil => exact iff_of_true h.intact trivial
  | cons o os ih =>
    by_cases hdue : o.due s
    · refine iff_of_false ?_ (fun hn => hn.1 hdue)
      rintro ⟨-,s',hs,hall⟩
      obtain ⟨s2,hs2,hb⟩ := step_due h hdue
      rw [hs] at hs2
      obtain rfl := some.inj hs2
      exact hb hall.head
    · obtain ⟨s',hs,hr⟩ := step_rest h hdue
      simp only [AllIntact,NoneDue,hs,Option.some.injEq,exists_eq_left',forall_eq',ih hr]
      exact ⟨fun hall => ⟨hdue,hall.2⟩,fun hn => ⟨h.intact,hn.2⟩⟩

theorem coroInit_run_intact (s : Sched) (os : List Op) :
    AllIntact (coroInit s) os ↔ NoneDue (coroInit s) os := rest_run (coroInit_rest s) os

theorem NoneDue.last (h : NoneDue s (os ++ [o])) (hrun : os.foldlM step s = some s') : ¬ o.due s' := by
  induction os generalizing s with
  | nil =>
    obtain rfl := some.inj hrun
    exact h.1
  | cons o os ih =>
    rw [foldlM_cons,bind_eq_bind,Option.bind_eq_some_iff] at hrun
    obtain ⟨s1,hs,hrun⟩ := hrun
    exact ih (h.2 s1 hs) hrun

def bootSched : Sched :=
  ⟨⟨fun _ => none,fun _ => none⟩,fun _ => ⟨.ready,0,0,0⟩,fun _ => false,0,.idle,0,0,false⟩

theorem sleep_zero_broken :
    ¬ AllIntact (coroInit bootSched) ([.create 255 true,.turn,.tick] ++ [.sleep 0 0]) := by
  rw [rest_run (coroInit_rest bootSched)]
  intro hnone
  have hrun : (([.create 255 true,.turn,.tick] : List Op).foldlM step (coroInit bootSched)).map
      (fun s => (s.current,s.ticks)) = some (.pool 0,1) := by
    set_option maxRecDepth 10000 in decide +kernel
  obtain ⟨s,hs,heq⟩ := Option.map_eq_some_iff.mp hrun
  obtain ⟨hcur,hticks⟩ := Prod.mk.inj heq
  refine hnone.last hs ⟨⟨0,hcur⟩,?_⟩
  rw [hticks]
  decide

end AevOS.Coroutines
