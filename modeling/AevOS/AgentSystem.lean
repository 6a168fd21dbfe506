import AevOS.ArrayPrefix
import AevOS.Runs

/-! The agents of `agent/agent_core.c`. A function that waits for a lock its caller holds does not return. -/

namespace AevOS.Agents
open ArrayPrefix Runs List

def maxAgents : Nat := 64

structure AgentRef where
  ptr : Nat
  id : UInt64
  deriving DecidableEq

def nullRef : AgentRef := ⟨0,0⟩

structure AgentSystem where
  agents : Nat → AgentRef
  count : Nat
  activeAgent : Nat
  nextId : UInt64
  locked : Bool
  destroyed : List Nat

def agentSystemInit : AgentSystem := ⟨fun _ => nullRef,0,0,1,false,[]⟩
def live (s : AgentSystem) : List AgentRef := firsts s.agents s.count

def spinLock (s : AgentSystem) : Option AgentSystem :=
  if s.locked then none else some { s with locked := true }

def spinUnlock (s : AgentSystem) : AgentSystem := { s with locked := false }

def createLocked (ptr : Nat) (ready : Bool) (s : AgentSystem) : AgentSystem :=
  if maxAgents ≤ s.count then s
  else if ptr = 0 ∨ ptr ∈ (live s).map AgentRef.ptr then s
  else if !ready then { s with nextId := s.nextId+1 }
  else
    { s with
      agents := setAt s.agents s.count ⟨ptr,s.nextId⟩
      count := s.count+1
      nextId := s.nextId+1
      activeAgent := if s.count+1 = 1 then 0 else s.activeAgent }

def position (s : AgentSystem) (ptr : Nat) : Option Nat := findFirst (fun r => r.ptr == ptr) s.count s.agents

def removeLocked (ptr : Nat) (s : AgentSystem) : AgentSystem :=
  match position s ptr with
  | none => s
  | some i =>
    { s with
      agents := setAt (shiftDown (s.count-1-i) i s.agents) (s.count-1) nullRef
      count := s.count-1 }

def named (s : AgentSystem) (id : UInt64) : Option Nat :=
  findFirst (fun r => r.ptr != 0 && r.id == id) s.count s.agents

def setActiveLocked (id : UInt64) (s : AgentSystem) : AgentSystem :=
  match named s id with
  | none => s
  | some i => { s with activeAgent := i }

def agentCreate (ptr : Nat) (ready : Bool) (s : AgentSystem) : Option AgentSystem :=
  (spinLock s).map fun s => spinUnlock (createLocked ptr ready s)

def agentDestroy (ptr : Nat) (s : AgentSystem) : Option AgentSystem :=
  if ptr = 0 then some s
  else
    (spinLock s).map fun s =>
      let s := spinUnlock (removeLocked ptr s)
      { s with destroyed := s.destroyed ++ [ptr] }

def agentSetActive (id : UInt64) (s : AgentSystem) : Option AgentSystem :=
  (spinLock s).map fun s => spinUnlock (setActiveLocked id s)

def agentGetActive (s : AgentSystem) : Option AgentRef :=
  if s.count = 0 then none
  else if s.count ≤ s.activeAgent then none
  else some (s.agents s.activeAgent)

def destroyLoop : Nat → Nat → AgentSystem → Option AgentSystem
  | 0, _, s => some s
  | turns+1, i, s =>
    if i < s.count then
      if (s.agents i).ptr ≠ 0 then
        (agentDestroy (s.agents i).ptr s).bind fun s =>
          destroyLoop turns (i+1) { s with agents := setAt s.agents i nullRef }
      else destroyLoop turns (i+1) s
    else some s

def agentSystemDestroy (s : AgentSystem) : Option AgentSystem :=
  (spinLock s).bind fun s =>
    (destroyLoop s.count 0 s).map fun s => spinUnlock { s with count := 0 }

inductive Op where
  | create (ptr : Nat) (ready : Bool)
  | destroy (ptr : Nat)
  | setActive (id : UInt64)

def perform (s : AgentSystem) : Op → Option AgentSystem
  | .create ptr ready => agentCreate ptr ready s
  | .destroy ptr => agentDestroy ptr s
  | .setActive id => agentSetActive id s

def step (s : AgentSystem) : Op → AgentSystem
  | .create ptr ready => createLocked ptr ready s
  | .destroy ptr => if ptr = 0 then s else { removeLocked ptr s with destroyed := s.destroyed ++ [ptr] }
  | .setActive id => setActiveLocked id s

structure Sound (s : AgentSystem) : Prop where
  count_le : s.count ≤ maxAgents
  nodup : ((live s).map AgentRef.ptr).Nodup
  nonnull : 0 ∉ (live s).map AgentRef.ptr
  unlocked : s.locked = false

theorem init_sound : Sound agentSystemInit := ⟨by decide,by decide,by decide,rfl⟩

variable {ptr i : Nat} {s : AgentSystem}

section
variable {s : AgentSystem}

theorem perform_eq (h : s.locked = false) (op : Op) : perform s op = some (step s op) := by
  obtain ⟨agents,count,activeAgent,nextId,locked,destroyed⟩ := s
  obtain rfl : locked = false := h
  cases op with
  | create ptr ready =>
    simp only [perform,agentCreate,spinLock,step,createLocked,live,spinUnlock,Bool.false_eq_true,if_false,
      Option.map_some]
    split
    · rfl
    split
    · rfl
    split <;> rfl
  | destroy ptr =>
    simp only [perform,agentDestroy,spinLock,step,removeLocked,position,spinUnlock,Bool.false_eq_true,
      if_false,Option.map_some]
    split
    · rfl
    split <;> rfl
  | setActive id =>
    simp only [perform,agentSetActive,spinLock,step,setActiveLocked,named,spinUnlock,Bool.false_eq_true,
      if_false,Option.map_some]
    split <;> rfl

theorem createLocked_cases (ptr : Nat) (ready : Bool) :
    (live (createLocked ptr ready s) = live s ∧ (createLocked ptr ready s).count = s.count ∧
        (createLocked ptr ready s).activeAgent = s.activeAgent) ∨
      (s.count < maxAgents ∧ ptr ≠ 0 ∧ ptr ∉ (live s).map AgentRef.ptr ∧
        live (createLocked ptr ready s) = live s ++ [⟨ptr,s.nextId⟩] ∧
        (createLocked ptr ready s).count = s.count+1 ∧
        (s.count ≠ 0 → (createLocked ptr ready s).activeAgent = s.activeAgent)) := by
  unfold createLocked
  split
  · exact .inl ⟨rfl,rfl,rfl⟩
  split
  · exact .inl ⟨rfl,rfl,rfl⟩
  split
  · exact .inl ⟨rfl,rfl,rfl⟩
  rename_i hr hptr _
  refine .inr ⟨by omega,fun h => hptr (.inl h),fun h => hptr (.inr h),?_,rfl,fun h => ?_⟩
  · show firsts (setAt s.agents s.count ⟨ptr,s.nextId⟩) (s.count+1) = _
    rw [firsts_succ,setAt_self]
    congr 1
    exact firsts_congr fun i hi => setAt_ne _ _ (by omega)
  · exact if_neg (by omega)

theorem removeLocked_some (h : position s ptr = some i) :
    live (removeLocked ptr s) = (live s).eraseIdx i ∧ (removeLocked ptr s).count = s.count-1 := by
  have hi := (findFirst_some h).1
  have hl : firsts (setAt (shiftDown (s.count-1-i) i s.agents) (s.count-1) nullRef) (s.count-1) =
      firsts (shiftDown (s.count-1-i) i s.agents) (s.count-1) :=
    firsts_congr fun j hj => setAt_ne _ _ (by omega)
  unfold removeLocked
  rw [h]
  exact ⟨hl.trans (firsts_shiftDown s.agents hi),rfl⟩

theorem removeLocked_none (h : position s ptr = none) : removeLocked ptr s = s := by
  rw [removeLocked,h]

theorem removeLocked_activeAgent (ptr : Nat) : (removeLocked ptr s).activeAgent = s.activeAgent := by
  unfold removeLocked
  split <;> rfl

theorem setActiveLocked_live (id : UInt64) : live (setActiveLocked id s) = live s := by
  unfold setActiveLocked
  split <;> rfl

theorem step_locked (op : Op) : (step s op).locked = s.locked := by
  cases op with
  | create ptr ready =>
    show (createLocked ptr ready s).locked = s.locked
    unfold createLocked
    split
    · rfl
    split
    · rfl
    split <;> rfl
  | destroy ptr =>
    rw [step]
    split
    · rfl
    show (removeLocked ptr s).locked = s.locked
    unfold removeLocked
    split <;> rfl
  | setActive id =>
    show (setActiveLocked id s).locked = s.locked
    unfold setActiveLocked
    split <;> rfl

theorem live_length (s : AgentSystem) : (live s).length = s.count := firsts_length _ _

/-- No agent of the system is null, so for a null agent nothing is taken out either way. -/
theorem step_destroy (h : Sound s) (ptr : Nat) :
    ∃ gone, step s (.destroy ptr) = { removeLocked ptr s with destroyed := gone } := by
  rw [step]
  split
  · subst ptr
    have hpos : position s 0 = none := by
      cases hp : position s 0 with
      | none => rfl
      | some i =>
        obtain ⟨hi,hz,-⟩ := findFirst_some hp
        exact absurd (mem_map.mpr ⟨s.agents i,mem_firsts.mpr ⟨i,hi,rfl⟩,by simpa using hz⟩) h.nonnull
    exact ⟨s.destroyed,by rw [removeLocked_none hpos]⟩
  · exact ⟨_,rfl⟩

theorem Sound.step (h : Sound s) (op : Op) : Sound (step s op) := by
  have hu := (step_locked op).trans h.unlocked
  cases op with
  | create ptr ready =>
    rcases @createLocked_cases s ptr ready with ⟨hl,hc,-⟩ | ⟨hr,hptr,hf,hl,hc,-⟩
    · exact ⟨hc.trans_le h.count_le,by rw [Agents.step,hl]; exact h.nodup,
        by rw [Agents.step,hl]; exact h.nonnull,hu⟩
    refine ⟨hc.trans_le hr,?_,?_,hu⟩
    · rw [Agents.step,hl,map_append,nodup_append]
      refine ⟨h.nodup,nodup_singleton _,fun x hx y hy => ?_⟩
      obtain rfl : y = ptr := by simpa using hy
      rintro rfl
      exact hf hx
    rw [Agents.step,hl,map_append,mem_append]
    rintro (hmem | hmem)
    · exact h.nonnull hmem
    · exact hptr (by simpa [eq_comm] using hmem)
  | destroy ptr =>
    obtain ⟨gone,hd⟩ := step_destroy h ptr
    cases hpos : position s ptr with
    | none =>
      have hl : live (Agents.step s (.destroy ptr)) = live s := by
        rw [hd,removeLocked_none hpos]
        rfl
      refine ⟨?_,by rw [hl]; exact h.nodup,by rw [hl]; exact h.nonnull,hu⟩
      rw [← live_length,hl,live_length]
      exact h.count_le
    | some i =>
      have hl : live (Agents.step s (.destroy ptr)) = (live s).eraseIdx i :=
        hd ▸ (removeLocked_some hpos).1
      have hsub : (((live s).eraseIdx i).map AgentRef.ptr).Sublist ((live s).map AgentRef.ptr) :=
        (eraseIdx_sublist _ _).map _
      refine ⟨?_,?_,?_,hu⟩
      · have hle := hsub.length_le
        rw [length_map,length_map,← hl,live_length,live_length] at hle
        exact hle.trans h.count_le
      · rw [hl]
        exact hsub.nodup h.nodup
      · rw [hl]
        exact fun hmem => h.nonnull (hsub.subset hmem)
  | setActive id =>
    have hl : live (Agents.step s (.setActive id)) = live s := setActiveLocked_live id
    refine ⟨?_,by rw [hl]; exact h.nodup,by rw [hl]; exact h.nonnull,hu⟩
    rw [← live_length,hl,live_length]
    exact h.count_le

theorem run_sound (ops : List Op) : Sound (run step agentSystemInit ops) :=
  run_invariant step (fun _ op h => h.step op) init_sound ops

theorem perform_run (ops : List Op) :
    ops.foldlM perform agentSystemInit = some (run step agentSystemInit ops) := by
  have hall : ∀ s, Sound s → ops.foldlM perform s = some (run step s ops) := by
    induction ops with
    | nil => exact fun s _ => rfl
    | cons op ops ih =>
      intro s h
      rw [foldlM_cons,perform_eq h.unlocked]
      exact ih _ (h.step op)
  exact hall _ init_sound

theorem agents_run_sound (ops : List Op) : ∃ s, ops.foldlM perform agentSystemInit = some s ∧ Sound s :=
  ⟨_,perform_run ops,run_sound ops⟩

theorem agentGetActive_eq (s : AgentSystem) : agentGetActive s = (live s)[s.activeAgent]? := by
  unfold agentGetActive
  split
  · rw [getElem?_eq_none (by rw [live_length]; omega)]
  split
  · rw [getElem?_eq_none (by rw [live_length]; omega)]
  · rw [live,firsts_getElem? _ (by omega)]

/-- The call neither destroys `a` nor makes another agent active. -/
def Quiet (a : AgentRef) (s : AgentSystem) : Op → Prop
  | .create _ _ => True
  | .destroy ptr => ptr ≠ a.ptr
  | .setActive id => named s id = none

/-- A destroyed agent comes after the active one in the table. -/
def Behind (s : AgentSystem) : Op → Prop
  | .destroy ptr => ∀ i, position s ptr = some i → s.activeAgent < i
  | _ => True

theorem step_active_iff (h : Sound s) {a : AgentRef} (ha : agentGetActive s = some a) {op : Op}
    (hq : Quiet a s op) : agentGetActive (step s op) = some a ↔ Behind s op := by
  rw [agentGetActive_eq] at ha
  obtain ⟨hlt,hget⟩ := List.getElem?_eq_some_iff.mp ha
  cases op with
  | create ptr ready =>
    refine ⟨fun _ => trivial,fun _ => ?_⟩
    rw [agentGetActive_eq,step]
    rcases @createLocked_cases s ptr ready with ⟨hl,-,hac⟩ | ⟨-,-,-,hl,-,hac⟩
    · rw [hl,hac]
      exact ha
    have hc : s.count ≠ 0 := by
      rw [live_length] at hlt
      omega
    rw [hl,hac hc,getElem?_append_left hlt]
    exact ha
  | destroy ptr =>
    obtain ⟨gone,hd⟩ := step_destroy h ptr
    have hac : (step s (.destroy ptr)).activeAgent = s.activeAgent := hd ▸ removeLocked_activeAgent ptr
    rw [agentGetActive_eq,hac]
    cases hpos : position s ptr with
    | none =>
      have hl : live (step s (.destroy ptr)) = live s := by
        rw [hd,removeLocked_none hpos]
        rfl
      rw [hl]
      refine ⟨fun _ i hi => ?_,fun _ => ha⟩
      rw [hpos] at hi
      cases hi
    | some i =>
      have hl : live (step s (.destroy ptr)) = (live s).eraseIdx i := hd ▸ (removeLocked_some hpos).1
      rw [hl,getElem?_eraseIdx]
      constructor
      · intro hk j hj
        obtain rfl : i = j := by rw [hpos] at hj; exact Option.some.inj hj
        by_contra hle
        rw [if_neg hle] at hk
        obtain ⟨hlt',hg'⟩ := List.getElem?_eq_some_iff.mp hk
        -- the agent behind the active one would be the same agent
        have hinj := nodup_iff_injective_get.mp h.nodup
        have hs := @hinj ⟨s.activeAgent,by simpa using hlt⟩ ⟨s.activeAgent+1,by simpa using hlt'⟩
          (by simp [hget,hg'])
        simp at hs
      · intro hb
        rw [if_pos (hb i hpos)]
        exact ha
  | setActive id =>
    refine ⟨fun _ => trivial,fun _ => ?_⟩
    rw [step,setActiveLocked,show named s id = none from hq,agentGetActive_eq]
    exact ha

theorem setActive_active {id : UInt64} (h : named s id = some i) :
    agentGetActive (step s (.setActive id)) = some (s.agents i) := by
  have hi := (findFirst_some h).1
  rw [agentGetActive_eq,step,setActiveLocked_live,setActiveLocked,h]
  exact firsts_getElem? _ hi

end

theorem active_agent_kept_iff (ops : List Op) {id : UInt64} {i : Nat}
    (h : named (run step agentSystemInit ops) id = some i) {more : List Op}
    (hq : Along step (Quiet ((run step agentSystemInit ops).agents i))
      (step (run step agentSystemInit ops) (.setActive id)) more) :
    (∀ done rest, more = done ++ rest →
      agentGetActive (run step (step (run step agentSystemInit ops) (.setActive id)) done) =
        some ((run step agentSystemInit ops).agents i)) ↔
      Along step Behind (step (run step agentSystemInit ops) (.setActive id)) more := by
  generalize ha : (run step agentSystemInit ops).agents i = a at hq ⊢
  have hinv : ∀ s op, Sound s → Sound (step s op) := fun _ op hs => hs.step op
  have hstep : ∀ s op, Sound s → agentGetActive s = some a → Quiet a s op →
      (agentGetActive (step s op) = some a ↔ Behind s op) := fun _ _ hs hget hq => step_active_iff hs hget hq
  have hactive := setActive_active h
  rw [ha] at hactive
  exact @always_iff_along _ _ step Behind (Quiet a) Sound (fun s => agentGetActive s = some a) hinv hstep
    _ _ ((run_sound ops).step _) hactive hq

def threeAgents : List Op := [.create 10 true,.create 20 true,.create 30 true]

theorem active_agent_kept_first : named (run step agentSystemInit threeAgents) 1 = some 0 ∧
    ∀ done rest, [Op.destroy 30,.create 40 true] = done ++ rest →
      agentGetActive (run step (step (run step agentSystemInit threeAgents) (.setActive 1)) done) =
        some ((run step agentSystemInit threeAgents).agents 0) := by
  have hnamed : named (run step agentSystemInit threeAgents) 1 = some 0 := by decide +kernel
  refine ⟨hnamed,(active_agent_kept_iff threeAgents hnamed ?_).mpr ?_⟩
  · exact ⟨show 30 ≠ 10 by decide,trivial,trivial⟩
  · refine ⟨fun i hi => ?_,trivial,trivial⟩
    obtain rfl : 2 = i := Option.some.inj ((show some 2 = _ by decide +kernel).trans hi)
    decide +kernel

theorem active_agent_replaced :
    agentGetActive (run step agentSystemInit (threeAgents ++ [.setActive 2])) = some ⟨20,2⟩ ∧
      agentGetActive (run step agentSystemInit (threeAgents ++ [.setActive 2,.destroy 10])) =
        some ⟨30,3⟩ := by
  decide +kernel

def ShutsDown (s : AgentSystem) : Prop :=
  ∃ s', agentSystemDestroy s = some s' ∧ s'.count = 0 ∧
    s'.destroyed.Perm (s.destroyed ++ (live s).map AgentRef.ptr)

theorem agentSystemDestroy_stuck (h : Sound s) (hc : s.count ≠ 0) : agentSystemDestroy s = none := by
  obtain ⟨n,hn⟩ := Nat.exists_eq_succ_of_ne_zero hc
  have hf : (s.agents 0).ptr ≠ 0 := by
    intro hnl
    apply h.nonnull
    rw [← hnl]
    exact mem_map.mpr ⟨s.agents 0,mem_firsts.mpr ⟨0,by omega,rfl⟩,rfl⟩
  have hl : agentDestroy (s.agents 0).ptr { s with locked := true } = none := if_neg hf
  simp only [agentSystemDestroy,spinLock,h.unlocked,Bool.false_eq_true,if_false,Option.bind_some,hn,
    destroyLoop]
  rw [if_pos (by omega),if_pos hf,← hn,hl]
  rfl

theorem agentSystemDestroy_empty (h : Sound s) (hc : s.count = 0) : agentSystemDestroy s = some s := by
  obtain ⟨agents,count,activeAgent,nextId,locked,destroyed⟩ := s
  obtain rfl : locked = false := h.unlocked
  obtain rfl : count = 0 := hc
  rfl

theorem system_shutdown_iff (ops : List Op) :
    ShutsDown (run step agentSystemInit ops) ↔ (run step agentSystemInit ops).count = 0 := by
  have hsound := run_sound ops
  constructor
  · rintro ⟨s',hs',-⟩
    by_contra hcount
    rw [agentSystemDestroy_stuck hsound hcount] at hs'
    cases hs'
  intro hcount
  refine ⟨_,agentSystemDestroy_empty hsound hcount,hcount,?_⟩
  rw [live,hcount]
  simp [firsts]

theorem oneAgent_not_shut_down :
    (agentSystemDestroy (run step agentSystemInit [.create 10 true])).isNone = true ∧
      ¬ ShutsDown (run step agentSystemInit [.create 10 true]) := by
  have hnone : (agentSystemDestroy (run step agentSystemInit [.create 10 true])).isNone = true := by
    decide +kernel
  refine ⟨hnone,?_⟩
  rintro ⟨s',hs',-⟩
  rw [hs'] at hnone
  cases hnone

end AevOS.Agents
