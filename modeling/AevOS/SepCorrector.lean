import AevOS.HistoryOwner

/-! Checkpoint and rollback of an agent, from `agent/sep_plane.c`, with the event log. A checkpoint is the
number of live entries and nothing else. -/

namespace AevOS.Hist
open ArrayPrefix RingWindow Slab BpTree Wire List
open UInt32 (ofNat toNat_add toNat_ofNat' lt_iff_toNat_lt sub_self toNat_zero toNat_inj toNat_sub
  not_lt not_le)

def eventlogCapacity : Nat := 4096

inductive EventlogType where
  | userInput | llmStart | llmEnd | toolCall | toolResult | cancel | error | planStep
  | correctRollback | verify | mailbox | evolver
  deriving DecidableEq

structure EventlogRecord where
  seq : UInt64
  tsMs : UInt64
  type : EventlogType
  agentId : UInt64
  payload : List Char

structure Eventlog where
  ring : Nat → EventlogRecord
  head : UInt32
  count : UInt32
  seq : UInt64

def eventlogAppend (now : UInt64) (type : EventlogType) (agentId : UInt64)
    (payload : Option (List Char)) (g : Eventlog) : Eventlog :=
  let slot := (g.head+g.count).toNat%eventlogCapacity
  let full := eventlogCapacity ≤ g.count.toNat
  { ring := setAt g.ring slot ⟨g.seq+1,now,type,agentId,(payload.getD []).take 191⟩
    head := if full then ofNat ((g.head+1).toNat%eventlogCapacity) else g.head
    count := if full then g.count else g.count+1
    seq := g.seq+1 }

/-- The cleared ring is an argument: a record of zero bytes has none of the types. -/
def eventlogInit (cleared : Nat → EventlogRecord) : Eventlog := ⟨cleared,0,0,0⟩

def eventlogSnapshot (maxRecords : UInt32) (g : Eventlog) : List EventlogRecord :=
  let n := if g.count < maxRecords then g.count else maxRecords
  let start := (g.head+g.count-n).toNat%eventlogCapacity
  firsts (fun i => g.ring ((start+i)%eventlogCapacity)) n.toNat

structure EventCall where
  now : UInt64
  type : EventlogType
  agentId : UInt64
  payload : Option (List Char)

def logged (calls : List EventCall) : List EventlogRecord :=
  (calls.zipIdx 1).map fun c => ⟨UInt64.ofNat c.2,c.1.now,c.1.type,c.1.agentId,(c.1.payload.getD []).take 191⟩

def logAll (cleared : Nat → EventlogRecord) (calls : List EventCall) : Eventlog :=
  calls.foldl (fun g c => eventlogAppend c.now c.type c.agentId c.payload g) (eventlogInit cleared)

theorem logged_length (calls : List EventCall) : (logged calls).length = calls.length := by simp [logged]

theorem logAll_spec (cleared : Nat → EventlogRecord) (calls : List EventCall) :
    let g := logAll cleared calls
    g.seq = UInt64.ofNat calls.length ∧ KeepsLast 4096 g.ring (logged calls) ∧ g.head.toNat < 4096 ∧
      g.count.toNat = min calls.length 4096 ∧ (g.head.toNat+g.count.toNat)%4096 = calls.length%4096 := by
  induction calls using List.reverseRecOn with
  | nil => exact ⟨rfl,by simp [KeepsLast,logged],by simp [logAll,eventlogInit],rfl,rfl⟩
  | append_singleton calls c ih =>
    dsimp only at ih ⊢
    rw [logAll,foldl_concat,← logAll]
    generalize logAll cleared calls = g at ih
    obtain ⟨hq,hr,hh,hc,hs⟩ := ih
    have hslot : (g.head+g.count).toNat%4096 = (logged calls).length%4096 := by
      rw [toNat_add,logged_length]
      omega
    have hone : UInt32.toNat 1 = 1 := rfl
    rw [eventlogAppend,show eventlogCapacity = 4096 from rfl,hslot]
    clear hslot
    refine ⟨?_,?_,?_⟩
    · simp [hq,UInt64.ofNat_add]
    · convert hr.concat _ using 1
      simp [logged,zipIdx_append,hq,add_comm 1,UInt64.ofNat_add]
    · simp only [length_append,length_singleton]
      split <;> simp only [toNat_ofNat',toNat_add,hone] <;> omega

theorem eventlogSnapshot_last (cleared : Nat → EventlogRecord) (calls : List EventCall) (maxRecords : UInt32) :
    eventlogSnapshot maxRecords (logAll cleared calls) =
      (logged calls).drop (calls.length-min maxRecords.toNat eventlogCapacity) := by
  obtain ⟨-,hr,hh,hc,hs⟩ := logAll_spec cleared calls
  generalize logAll cleared calls = g at hr hh hc hs
  have hl := logged_length calls
  unfold eventlogSnapshot
  dsimp only
  generalize hn : (if g.count < maxRecords then g.count else maxRecords) = n
  have hnn : n.toNat = min g.count.toNat maxRecords.toNat := by
    rw [← hn]
    split <;> rename_i hlt <;> rw [lt_iff_toNat_lt] at hlt <;> omega
  have hst : (g.head+g.count-n).toNat = g.head.toNat+g.count.toNat-n.toNat := by
    rw [UInt32.toNat_sub_of_le,toNat_add]
    · omega
    · rw [UInt32.le_iff_toNat_le,toNat_add]
      omega
  rw [show eventlogCapacity = 4096 from rfl,hst,show calls.length-min maxRecords.toNat 4096 =
    calls.length-n.toNat by omega]
  apply ext_getElem?
  intro i
  by_cases hi : i < n.toNat
  · rw [firsts_getElem? _ hi,getElem?_drop,hr (calls.length-n.toNat+i) (by omega) (by omega)]
    congr 2
    omega
  · rw [getElem?_eq_none (by simp; omega),getElem?_eq_none (by simp; omega)]

structure SepCheckpoint where
  histEntries : UInt32
  eventlogSeq : UInt64

structure Agent where
  id : UInt64
  world : World
  ckpt : SepCheckpoint
  ckptValid : Bool
  log : Eventlog

def sepCorrectorCheckpoint (a : Agent) : Int × Agent :=
  (0,{ a with ckpt := ⟨historyCount a.world.hist,a.log.seq⟩, ckptValid := true })

def rollbackPayload (ckpt : SepCheckpoint) : List Char :=
  ("hist=" ++ toString ckpt.histEntries.toNat ++ " evseq=" ++
    toString ckpt.eventlogSeq.toNat).toList.take 63

def sepCorrectorRollback (grant : Nat → Bool) (now : UInt64) (a : Agent) : Int × Agent :=
  if a.ckptValid = false then (-einval,a)
  else
    let r := historyTruncateKeep grant a.ckpt.histEntries a.world
    if r.1 ≠ 0 then (r.1,{ a with world := r.2 })
    else
      (0,
        { a with
          world := r.2
          log := eventlogAppend now .correctRollback a.id (some (rollbackPayload a.ckpt)) a.log
          ckptValid := false })

structure PushCall where
  env : PushEnv
  role : UInt8
  text : Bytes

def PushCall.op (p : PushCall) : Op := .push p.env p.role p.text

def PushCall.run (grant : Nat → Bool) (p : PushCall) (w : World) : Int × World :=
  historyPush grant p.env p.role p.text w

def pushAll (grant : Nat → Bool) (calls : List PushCall) (w : World) : World :=
  run grant (calls.map PushCall.op) w

def followBack (grant : Nat → Bool) (calls : List PushCall) (keep : UInt32) (w : World)
    (i : Nat) : Option Nat :=
  (followRun grant (calls.map PushCall.op ++ [.truncateKeep keep]) w i).map Prod.snd

/-- The entries left are old ones; every entry pushed since is gone. -/
structure Restored (grant : Nat → Bool) (calls : List PushCall) (keep : UInt32)
    (w v : World) : Prop where
  old : ∀ j, j < (historyCount v.hist).toNat →
    ∃ i, i < (historyCount w.hist).toNat ∧ followBack grant calls keep w i = some j
  gone : ∀ before p after, calls = before ++ p :: after →
    (p.run grant (pushAll grant before w)).1 = 0 →
    followBack grant after keep (p.run grant (pushAll grant before w)).2
      ((historyCount (p.run grant (pushAll grant before w)).2.hist).toNat-1) = none

def succeeded (grant : Nat → Bool) : List PushCall → World → List PushCall
  | [], _ => []
  | p :: ps, w =>
    let r := p.run grant w
    if r.1 = 0 then p :: succeeded grant ps r.2 else succeeded grant ps r.2

def evictions (grant : Nat → Bool) : List PushCall → World → Nat
  | [], _ => 0
  | p :: ps, w =>
    let w' := (p.run grant w).2
    (w'.hist.tail-w.hist.tail).toNat+evictions grant ps w'

def Fits (maxTokens : UInt32) : Nat → UInt32 → List PushCall → Prop
  | _, _, [] => True
  | n, window, p :: ps =>
    n < histRingSize ∧ window+estimateTokens p.text ≤ maxTokens ∧
      Fits maxTokens (n+1) (window+estimateTokens p.text) ps

instance Fits.decidable (maxTokens : UInt32) :
    (n : Nat) → (window : UInt32) → (ps : List PushCall) → Decidable (Fits maxTokens n window ps)
  | _, _, [] => inferInstanceAs (Decidable True)
  | n, window, p :: ps =>
    have := Fits.decidable maxTokens (n+1) (window+estimateTokens p.text) ps
    inferInstanceAs (Decidable (_ ∧ _ ∧ _))

theorem followRun_append (grant : Nat → Bool) (ops ops' : List Op) (w : World) (i : Nat) :
    followRun grant (ops ++ ops') w i =
      (followRun grant ops w i).bind (fun r => followRun grant ops' r.1 r.2) := by
  induction ops generalizing w i with
  | nil => rfl
  | cons o ops ih =>
    rw [cons_append,followRun,followRun]
    cases follow w (step grant w o) i o with
    | none => rfl
    | some j => exact ih _ j

variable {env : PushEnv} {role : UInt8} {text : Bytes} {w w' v : World} {m' : Heap} {k : Nat}
    {calls : List PushCall}

section
variable {grant : Nat → Bool}

theorem PushCall.run_cases (grant : Nat → Bool) (p : PushCall) (w : World) :
    ((p.run grant w).1 ≠ 0 ∧ (p.run grant w).2 = w) ∨ ((p.run grant w).1 = 0 ∧
      ∃ m' k v, Pushed grant p.env p.role p.text w (p.run grant w).2 m' k v) := by
  rcases historyPush_cases grant p.env p.role p.text w with hf | hok
  · refine .inl ?_
    rw [PushCall.run,hf]
    exact ⟨by simp [enomem],rfl⟩
  · exact .inr hok

theorem pushAll_cons (p : PushCall) (ps : List PushCall) (w : World) :
    pushAll grant (p :: ps) w = pushAll grant ps (p.run grant w).2 := rfl

theorem pushAll_append (ps qs : List PushCall) (w : World) :
    pushAll grant (ps ++ qs) w = pushAll grant qs (pushAll grant ps w) := by
  rw [pushAll,map_append,run,List.foldl_append]
  rfl

theorem followRun_pushes (calls : List PushCall) (w : World) (i : Nat) :
    followRun grant (calls.map PushCall.op) w i = if evictions grant calls w ≤ i then
      some (pushAll grant calls w,i-evictions grant calls w) else none := by
  induction calls generalizing w i with
  | nil => rfl
  | cons p ps ih =>
    obtain ⟨k,hk⟩ : ∃ k, k = ((p.run grant w).2.hist.tail-w.hist.tail).toNat := ⟨_,rfl⟩
    have hf : follow w (step grant w p.op) i p.op = if k ≤ i then some (i-k) else none := by
      rw [hk]
      rfl
    rw [map_cons,followRun,hf,evictions,pushAll_cons]
    simp only [← hk]
    by_cases hle : k ≤ i
    · simp only [if_pos hle]
      refine (ih (p.run grant w).2 (i-k)).trans ?_
      by_cases hr : evictions grant ps (p.run grant w).2 ≤ i-k
      · rw [if_pos hr,if_pos (by omega),Nat.sub_sub]
      · rw [if_neg hr,if_neg (by omega)]
    · rw [if_neg hle,if_neg (by omega)]

theorem evictions_append (ps qs : List PushCall) (w : World) : evictions grant (ps ++ qs) w =
    evictions grant ps w+evictions grant qs (pushAll grant ps w) := by
  induction ps generalizing w with
  | nil => exact (zero_add _).symm
  | cons p ps ih =>
    rw [cons_append,evictions,evictions,ih,add_assoc]
    rfl

theorem Pushed.count_before (h : Pushed grant env role text w w' m' k v) :
    (historyCount v.hist).toNat+k = (historyCount w.hist).toNat := by
  have hk := h.evictions
  have hc := evictIter_count { w with heap := m' } k
  rw [← h.evicted] at hc
  simp only at hc
  omega

theorem count_pushAll (grant : Nat → Bool) (calls : List PushCall) (w : World) :
    (historyCount (pushAll grant calls w).hist).toNat+evictions grant calls w =
      (historyCount w.hist).toNat+(succeeded grant calls w).length := by
  induction calls generalizing w with
  | nil => rfl
  | cons p ps ih =>
    have hr := ih (p.run grant w).2
    rw [pushAll_cons,evictions,succeeded]
    rcases p.run_cases grant w with ⟨hne,hw⟩ | ⟨hz,m',k,v,hp⟩
    · rw [hw] at hr
      simp only [if_neg hne,hw,sub_self,toNat_zero]
      omega
    have hk := hp.tail.2
    have hc := hp.count
    have hb := hp.count_before
    simp only [if_pos hz,length_cons]
    omega

theorem pushAll_count_pos (grant : Nat → Bool)
    (h : 0 < (historyCount w.hist).toNat ∨ succeeded grant calls w ≠ []) :
    0 < (historyCount (pushAll grant calls w).hist).toNat := by
  induction calls generalizing w with
  | nil => exact h.resolve_right (fun hne => hne rfl)
  | cons p ps ih =>
    rw [pushAll_cons]
    apply ih
    rcases p.run_cases grant w with ⟨hne,hw⟩ | ⟨hz,m',k,v,hp⟩
    · simp only [succeeded,if_neg hne,hw] at h
      rw [hw]
      exact h
    · left
      rw [hp.count]
      exact Nat.succ_pos _

theorem tail_pushAll (grant : Nat → Bool) (calls : List PushCall) (w : World) :
    (pushAll grant calls w).hist.tail = w.hist.tail+ofNat (evictions grant calls w) := by
  induction calls generalizing w with
  | nil => exact (UInt32.add_zero _).symm
  | cons p ps ih =>
    rw [pushAll_cons,ih,evictions]
    apply toNat_inj.mp
    have h2 := w.hist.tail.toNat_lt
    simp only [toNat_add,toNat_sub,toNat_ofNat']
    omega

theorem evictions_of_failed (h : succeeded grant calls w = []) : evictions grant calls w = 0 := by
  induction calls generalizing w with
  | nil => rfl
  | cons p ps ih =>
    rcases p.run_cases grant w with ⟨hne,hw⟩ | ⟨hz,-⟩
    · simp only [succeeded,if_neg hne,hw] at h
      rw [evictions,hw,ih h]
      simp
    · simp only [succeeded,if_pos hz] at h
      exact absurd h (cons_ne_nil _ _)

theorem tail_lt_head_iff {h : History} (hc : 0 < (historyCount h).toNat) :
    h.tail < h.head ↔ h.tail.toNat+(historyCount h).toNat < 2^32 := by
  have h1 := h.head.toNat_lt
  simp only [historyCount,toNat_sub] at hc ⊢
  rw [lt_iff_toNat_lt]
  omega

theorem Pushed.unevicted (h : Pushed grant env role text w w' m' 0 v) : w'.hist.tail = w.hist.tail ∧
    w'.hist.windowTokens = w.hist.windowTokens+estimateTokens text ∧ w'.hist.maxTokens = w.hist.maxTokens ∧
    (historyCount w'.hist).toNat = (historyCount w.hist).toNat+1 := by
  have hc := h.count
  have hv := h.evicted
  obtain ⟨t,ht⟩ := h.placed
  subst hv
  exact ⟨by rw [ht]; rfl,by rw [ht]; rfl,by rw [ht]; rfl,hc⟩

theorem Pushed.evicts_none_iff (h : Pushed grant env role text w w' m' k v)
    (hlt : w.hist.tail < w.hist.head) : k = 0 ↔ (historyCount w.hist).toNat < histRingSize ∧
      w.hist.windowTokens+estimateTokens text ≤ w.hist.maxTokens := by
  constructor
  · rintro rfl
    have hr := h.room
    have hb := h.budget
    have hv := h.evicted
    subst hv
    refine ⟨hr,?_⟩
    rw [← not_lt]
    exact fun ho => hb ⟨ho,hlt⟩
  rintro ⟨hr,hb⟩
  by_contra hk
  rcases h.cause (Nat.pos_of_ne_zero hk) with hf | ho
  · omega
  · exact not_lt.mpr hb ho.1

theorem evictions_eq_zero_iff (calls : List PushCall) {w : World} (hc : 0 < (historyCount w.hist).toNat)
    (hwr : w.hist.tail.toNat+(historyCount w.hist).toNat + (succeeded grant calls w).length < 2^32) :
    evictions grant calls w = 0 ↔ Fits w.hist.maxTokens (historyCount w.hist).toNat w.hist.windowTokens
      (succeeded grant calls w) := by
  induction calls generalizing w with
  | nil => exact iff_of_true rfl trivial
  | cons p ps ih =>
    rw [evictions,succeeded]
    rw [succeeded] at hwr
    rcases p.run_cases grant w with ⟨hne,hw⟩ | ⟨hz,m',k,v,hp⟩
    · simp only [if_neg hne,hw,sub_self,toNat_zero,zero_add] at hwr ⊢
      exact ih hc hwr
    have hlt := (tail_lt_head_iff hc).mpr (by omega)
    simp only [if_pos hz,length_cons,Fits,hp.tail.2] at hwr ⊢
    rw [← and_assoc,← hp.evicts_none_iff hlt,Nat.add_eq_zero_iff]
    apply and_congr_right
    rintro rfl
    obtain ⟨ht,hwn,hmax,hcn⟩ := hp.unevicted
    have hr := ih (w := (p.run grant w).2) (by omega) (by rw [ht]; omega)
    rw [hmax,hwn,hcn] at hr
    exact hr

end

theorem truncateLoop_count {drop : Nat} (hlt : drop ≤ (historyCount w.hist).toNat)
    (hw : w.hist.tail.toNat+(historyCount w.hist).toNat < 2^32) :
    (historyCount (truncateLoop drop w).hist).toNat = (historyCount w.hist).toNat-drop := by
  induction drop generalizing w with
  | zero => rfl
  | succ drop ih =>
    have hlt' := (tail_lt_head_iff (h := w.hist) (by omega)).mpr hw
    have hne : w.hist.head ≠ w.hist.tail := fun he => by
      rw [he] at hlt'
      exact UInt32.lt_irrefl _ hlt'
    have hc := dropNewest_count hne
    have ht : (dropNewest w).hist.tail = w.hist.tail := rfl
    rw [truncateLoop,if_neg (not_le.mpr hlt'),ih (by omega) (by rw [ht]; omega),hc]
    omega

theorem historyTruncateKeep_count (grant : Nat → Bool) (keep : UInt32) (w : World) :
    (historyCount (historyTruncateKeep grant keep w).2.hist).toNat =
      if keep.toNat < (historyCount w.hist).toNat ∧
        w.hist.tail.toNat+(historyCount w.hist).toNat < 2^32 then keep.toNat
      else (historyCount w.hist).toNat := by
  unfold historyTruncateKeep
  by_cases hle : historyCount w.hist ≤ keep
  · have hle' := UInt32.le_iff_toNat_le.mp hle
    rw [if_pos hle,if_neg (by omega)]
  have hlt := lt_iff_toNat_lt.mp (not_le.mp hle)
  have hsub : (historyCount w.hist-keep).toNat = (historyCount w.hist).toNat-keep.toNat :=
    UInt32.toNat_sub_of_le _ _ (UInt32.le_of_lt (not_le.mp hle))
  rw [if_neg hle]
  simp only
  by_cases hw : w.hist.tail.toNat+(historyCount w.hist).toNat < 2^32
  · rw [if_pos ⟨hlt,hw⟩]
    refine (truncateLoop_count (by omega) hw).trans ?_
    omega
  have hs : w.hist.head ≤ w.hist.tail :=
    not_lt.mp (fun h => hw ((tail_lt_head_iff (by omega)).mp h))
  obtain ⟨n,hn⟩ : ∃ n, (historyCount w.hist-keep).toNat = n+1 :=
    ⟨_,(Nat.succ_pred_eq_of_pos (by omega)).symm⟩
  rw [if_neg (fun h => hw h.2),hn,truncateLoop,if_pos hs]
  rfl

section
variable {grant : Nat → Bool} {calls : List PushCall} {keep : UInt32} {w : World}

theorem followBack_eq (i : Nat) : followBack grant calls keep w i =
    if evictions grant calls w ≤ i ∧ i-evictions grant calls w <
        (historyCount (historyTruncateKeep grant keep (pushAll grant calls w)).2.hist).toNat then
      some (i-evictions grant calls w) else none := by
  rw [followBack,followRun_append,followRun_pushes]
  by_cases hk : evictions grant calls w ≤ i
  · simp only [followRun,follow,step,hk,true_and]
    by_cases hlt : i-evictions grant calls w <
        (historyCount (historyTruncateKeep grant keep (pushAll grant calls w)).2.hist).toNat
    · simp [hlt]
    · simp [hlt]
  · rw [if_neg hk,if_neg (fun h => hk h.1)]
    rfl

theorem restored_iff :
    Restored grant calls keep w (historyTruncateKeep grant keep (pushAll grant calls w)).2 ↔
      (historyCount (historyTruncateKeep grant keep (pushAll grant calls w)).2.hist).toNat = 0 ∨
        (historyCount (historyTruncateKeep grant keep (pushAll grant calls w)).2.hist).toNat +
          evictions grant calls w ≤ (historyCount w.hist).toNat := by
  obtain ⟨n,hn⟩ : ∃ n, n =
    (historyCount (historyTruncateKeep grant keep (pushAll grant calls w)).2.hist).toNat := ⟨_,rfl⟩
  rw [← hn]
  constructor
  · intro h
    by_contra hcon
    obtain ⟨i,hi,hf⟩ := h.old (n-1) (by omega)
    rw [followBack_eq,← hn,Option.ite_none_right_eq_some,Option.some.injEq] at hf
    omega
  intro h
  constructor
  · intro j hj
    refine ⟨j+evictions grant calls w,by omega,?_⟩
    rw [followBack_eq,if_pos ⟨by omega,by omega⟩,Nat.add_sub_cancel]
  rintro before p after rfl hp
  rcases p.run_cases grant (pushAll grant before w) with ⟨hne,-⟩ | ⟨-,m',k,v,hps⟩
  · exact absurd hp hne
  have hb : pushAll grant (before ++ p :: after) w =
      pushAll grant after (p.run grant (pushAll grant before w)).2 := by
    rw [pushAll_append,pushAll_cons]
  have he : evictions grant (before ++ p :: after) w = evictions grant before w +
      (k+evictions grant after (p.run grant (pushAll grant before w)).2) := by
    rw [evictions_append,evictions,hps.tail.2]
  have hc := count_pushAll grant before w
  have hnew := hps.count
  have hbf := hps.count_before
  rw [hb] at hn
  rw [followBack_eq,if_neg]
  omega

end

theorem historyTruncateKeep_ok (grant : Nat → Bool) (keep : UInt32) (w : World) :
    (historyTruncateKeep grant keep w).1 = 0 := by
  unfold historyTruncateKeep
  split <;> rfl

theorem sepCorrectorRollback_valid (grant : Nat → Bool) (now : UInt64) {a : Agent} (h : a.ckptValid = true) :
    (sepCorrectorRollback grant now a).1 = 0 ∧ (sepCorrectorRollback grant now a).2.world =
      (historyTruncateKeep grant a.ckpt.histEntries a.world).2 := by
  simp [sepCorrectorRollback,h,historyTruncateKeep_ok]

def Unwrapped (h : History) : Prop := h.tail.toNat+(historyCount h).toNat < 2^32

theorem restored_count_iff {grant : Nat → Bool} : Restored grant calls (historyCount w.hist) w
      (historyTruncateKeep grant (historyCount w.hist) (pushAll grant calls w)).2 ↔
    historyCount w.hist = 0 ∧ Unwrapped (pushAll grant calls w).hist ∨ succeeded grant calls w = [] ∨
      w.hist.tail.toNat+(historyCount w.hist).toNat + (succeeded grant calls w).length < 2^32 ∧
        Fits w.hist.maxTokens (historyCount w.hist).toNat w.hist.windowTokens
          (succeeded grant calls w) := by
  have hcn := count_pushAll grant calls w
  have htl := congrArg UInt32.toNat (tail_pushAll grant calls w)
  simp only [toNat_add,toNat_ofNat'] at htl
  have hz : historyCount w.hist = 0 ↔ (historyCount w.hist).toNat = 0 :=
    toNat_inj.symm
  rw [restored_iff,historyTruncateKeep_count]
  by_cases hn : succeeded grant calls w = []
  · have hk := evictions_of_failed hn
    rw [hn,hk,length_nil] at hcn
    refine iff_of_true ?_ (.inr (.inl hn))
    rw [if_neg (by omega),hk]
    omega
  have hpos := pushAll_count_pos grant (.inr hn)
  have hm := length_pos_iff.mpr hn
  have ht := w.hist.tail.toNat_lt
  by_cases hc : (historyCount w.hist).toNat = 0
  · -- all that is live was pushed since, and the loop drops either all of it or nothing
    simp only [hz,hc,hn,true_and,false_or,Unwrapped]
    constructor
    · intro h
      split at h
      · exact .inl (by omega)
      · omega
    · intro h
      rw [if_pos ⟨by omega,by omega⟩]
      exact .inl rfl
  simp only [hz,hc,hn,false_and,false_or]
  constructor
  · intro h
    split at h
    · have hk : evictions grant calls w = 0 := by omega
      have hlt : w.hist.tail.toNat+(historyCount w.hist).toNat +
          (succeeded grant calls w).length < 2^32 := by omega
      exact ⟨hlt,(evictions_eq_zero_iff calls (by omega) hlt).mp hk⟩
    · omega
  rintro ⟨hlt,hf⟩
  have hk := (evictions_eq_zero_iff calls (by omega) hlt).mpr hf
  rw [if_pos ⟨by omega,by omega⟩]
  omega

theorem sepCorrectorRollback_restored_iff (grant : Nat → Bool) (now : UInt64) (a : Agent)
    (calls : List PushCall) :
    let c := (sepCorrectorCheckpoint a).2
    let r := sepCorrectorRollback grant now { c with world := pushAll grant calls c.world }
    r.1 = 0 ∧ (Restored grant calls (historyCount a.world.hist) a.world r.2.world ↔
        historyCount a.world.hist = 0 ∧ Unwrapped (pushAll grant calls a.world).hist ∨
          succeeded grant calls a.world = [] ∨
          a.world.hist.tail.toNat+(historyCount a.world.hist).toNat +
              (succeeded grant calls a.world).length < 2^32 ∧
            Fits a.world.hist.maxTokens (historyCount a.world.hist).toNat
              a.world.hist.windowTokens (succeeded grant calls a.world)) := by
  intro c r
  obtain ⟨hok,hworld⟩ := sepCorrectorRollback_valid grant now
    (a := { c with world := pushAll grant calls c.world }) rfl
  refine ⟨hok,?_⟩
  rw [show r.2.world = _ from hworld]
  exact restored_count_iff

def twoEntries (maxTokens : UInt32) : Agent :=
  ⟨7,run (fun _ => true) [.push ⟨1,0,0⟩ 0 [97],.push ⟨2,0,1⟩ 1 [98]]
      ⟨⟨fun _ => false,fun _ => 0,fun _ _ => 0⟩,historyInit maxTokens⟩,
    ⟨0,0⟩,false,⟨fun _ => ⟨0,0,.error,0,[]⟩,0,0,0⟩⟩

theorem sepCorrectorRollback_restored_three :
    Restored (fun _ => true) [⟨⟨3,0,2⟩,0,[99]⟩] 2 (twoEntries 3).world
      (sepCorrectorRollback (fun _ => true) 9
        { (sepCorrectorCheckpoint (twoEntries 3)).2 with
          world := pushAll (fun _ => true) [⟨⟨3,0,2⟩,0,[99]⟩] (twoEntries 3).world }).2.world := by
  have hcount : historyCount (twoEntries 3).world.hist = 2 := by decide +kernel
  have hiff := sepCorrectorRollback_restored_iff (fun _ => true) 9 (twoEntries 3) [⟨⟨3,0,2⟩,0,[99]⟩]
  rw [hcount] at hiff
  exact hiff.2.mpr (.inr (.inr ⟨by decide +kernel,by decide +kernel⟩))

theorem sepCorrectorRollback_keeps_pushed : let calls : List PushCall := [⟨⟨3,0,2⟩,0,[99]⟩]
    let a := twoEntries 2
    let c := (sepCorrectorCheckpoint a).2
    let r := sepCorrectorRollback (fun _ => true) 9
      { c with world := pushAll (fun _ => true) calls c.world }
    r.1 = 0 ∧ (live a.world.hist).map HistEntry.seq = [0,1] ∧
      (live r.2.world.hist).map HistEntry.seq = [1,2] ∧
      ¬ Restored (fun _ => true) calls (historyCount a.world.hist) a.world r.2.world := by
  intro calls a c r
  refine ⟨by decide +kernel,by decide +kernel,by decide +kernel,fun h => ?_⟩
  have hgone := h.gone [] ⟨⟨3,0,2⟩,0,[99]⟩ [] rfl (by decide +kernel)
  exact absurd hgone (by decide +kernel)

end AevOS.Hist
