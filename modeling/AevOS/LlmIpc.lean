import AevOS.Common
import AevOS.Runs
import AevOS.RingWindow
import AevOS.ByteBuffer
import AevOS.Snprintf

/-! The queue between the kernel and the user-space LLM server, `llm/llm_ipc.c`: a ring of
requests and one place for a response. -/

namespace AevOS.LlmIpc
open Wire ArrayPrefix RingWindow Buffer Runs List
open Str (format utf8)

def ringCap : Nat := 8
def promptSize : Nat := 512
def textSize : Nat := 768

variable {F : Type}

structure InferRequest (F : Type) where
  prompt : Option Bytes
  temperature : F
  topP : F

structure InferSlot (F : Type) where
  seq : UInt64
  prompt : Bytes
  temperature : F
  topP : F
  deriving DecidableEq

structure Response where
  seq : UInt64
  text : Buf
  len : Nat
  valid : Bool

structure Ipc (F : Type) where
  serverPresent : Bool
  nextSeq : UInt64
  slots : Nat → InferSlot F
  head : Nat
  tail : Nat
  count : Nat
  resp : Response

def llmIpcInit (zero : InferSlot F) (s : Ipc F) : Ipc F :=
  ⟨false,s.nextSeq,fun _ => zero,0,0,0,{ s.resp with valid := false }⟩

def setUserspaceServerPresent (s : Ipc F) (present : Bool) : Ipc F := { s with serverPresent := present }
def slotPrompt (prompt : Bytes) : Bytes := (format (utf8 "%s") [.str (some prompt)]).take (promptSize-1)

def Ipc.enqueue (s : Ipc F) (slot : InferSlot F) : Ipc F :=
  { s with
    nextSeq := s.nextSeq+1
    slots := setAt s.slots s.tail slot
    tail := (s.tail+1)%ringCap
    count := s.count+1 }

def llmIpcTryInfer (s : Ipc F) (req : Option (InferRequest F)) (out : Bool) (outMax : Nat) : Int × Ipc F :=
  match req with
  | none => (-einval,s)
  | some req =>
    match req.prompt with
    | none => (-einval,s)
    | some prompt =>
      if out = false ∨ outMax = 0 then (-einval,s)
      else if s.serverPresent = false then (-enotsup,s)
      else if s.count ≥ ringCap then (-eagain,s)
      else (-eagain,s.enqueue ⟨s.nextSeq,slotPrompt prompt,req.temperature,req.topP⟩)

def serverDequeueInfer (s : Ipc F) (slot : Bool) : Option (InferSlot F) × Ipc F :=
  if slot = false ∨ s.count = 0 then (none,s)
  else (some (s.slots s.head),{ s with head := (s.head+1)%ringCap, count := s.count-1 })

def serverPostResponse (s : Ipc F) (seq : UInt64) (text : Bytes) : Ipc F :=
  let len := if text.length ≥ textSize then textSize-1 else text.length
  { s with resp := ⟨seq,put (put s.resp.text 0 (text.take len)) len [0],len,true⟩ }

def llmIpcTakeResponse (s : Ipc F) (seq : UInt64) (out : Bool) (outMax : Nat) : (Int × Bytes) × Ipc F :=
  if out = false ∨ outMax = 0 ∨ s.resp.valid = false ∨ s.resp.seq ≠ seq then ((-enoent,[]),s)
  else
    let n := if s.resp.len ≥ outMax then outMax-1 else s.resp.len
    ((0,get s.resp.text 0 n ++ [0]),{ s with resp := { s.resp with valid := false } })

inductive Call (F : Type) where
  | setPresent (present : Bool)
  | tryInfer (req : Option (InferRequest F)) (out : Bool) (outMax : Nat)
  | dequeue (slot : Bool)
  | post (seq : UInt64) (text : Bytes)
  | take (seq : UInt64) (out : Bool) (outMax : Nat)

def Ipc.queue (s : Ipc F) : List (InferSlot F) := window ringCap s.slots s.head s.count
def cut (text : Bytes) : Bytes := text.take (textSize-1)

structure World (F : Type) where
  ipc : Ipc F
  accepted : List (InferSlot F × Int)
  served : List (InferSlot F)
  waiting : List (UInt64 × Bytes)

def enqueued (s s' : Ipc F) : Option (InferSlot F) :=
  if s'.count = s.count+1 then some (s'.slots s.tail) else none

def step (w : World F) : Call F → World F
  | .setPresent present => { w with ipc := setUserspaceServerPresent w.ipc present }
  | .tryInfer req out outMax =>
    let r := llmIpcTryInfer w.ipc req out outMax
    { w with ipc := r.2, accepted := w.accepted ++ ((enqueued w.ipc r.2).map fun slot => (slot,r.1)).toList }
  | .dequeue slot =>
    let r := serverDequeueInfer w.ipc slot
    { w with ipc := r.2, served := w.served ++ r.1.toList }
  | .post seq text =>
    { w with ipc := serverPostResponse w.ipc seq text, waiting := w.waiting ++ [(seq,cut text)] }
  | .take seq out outMax =>
    let r := llmIpcTakeResponse w.ipc seq out outMax
    { w with ipc := r.2, waiting := if r.1.1 = 0 then w.waiting.filter (fun p => p.1 ≠ seq) else w.waiting }

def opened (zero : InferSlot F) (s : Ipc F) : World F := ⟨llmIpcInit zero s,[],[],[]⟩
def World.Fifo (w : World F) : Prop := w.accepted.map Prod.fst = w.served ++ w.ipc.queue

def Ipc.Available (s : Ipc F) (r : UInt64 × Bytes) : Prop :=
  s.resp.valid = true ∧ s.resp.seq = r.1 ∧ get s.resp.text 0 s.resp.len = r.2

structure World.Sound (w : World F) : Prop where
  fifo : w.Fifo
  reported : ∀ a ∈ w.accepted, a.2 ≠ -eagain
  kept : ∀ r ∈ w.waiting, w.ipc.Available r

def Ipc.Accepts (s : Ipc F) (req : Option (InferRequest F)) (out : Bool) (outMax : Nat) : Prop :=
  (∃ r, req = some r ∧ r.prompt.isSome = true) ∧ out = true ∧ outMax ≠ 0 ∧ s.serverPresent = true ∧
    s.count < ringCap

def Careful (w : World F) : Call F → Prop
  | .tryInfer req out outMax => ¬ w.ipc.Accepts req out outMax
  | .post seq text => w.ipc.resp.valid = true → w.ipc.Available (seq,cut text)
  | _ => True

structure Ipc.Ring (s : Ipc F) : Prop where
  head_lt : s.head < ringCap
  tail_eq : s.tail = (s.head+s.count)%ringCap
  count_le : s.count ≤ ringCap

section
variable (zero : InferSlot F) (s : Ipc F)

theorem llmIpcTryInfer_cases (req : Option (InferRequest F)) (out : Bool) (outMax : Nat) :
    (¬ s.Accepts req out outMax ∧ (llmIpcTryInfer s req out outMax).2 = s) ∨ (s.Accepts req out outMax ∧
      ∃ slot, llmIpcTryInfer s req out outMax = (-eagain,s.enqueue slot)) := by
  unfold llmIpcTryInfer Ipc.Accepts
  cases req with
  | none => simp
  | some req =>
    cases hp : req.prompt with
    | none => simp [hp]
    | some prompt =>
      simp only [Option.some.injEq,exists_eq_left',hp,Option.isSome_some,true_and]
      by_cases hout : out = false ∨ outMax = 0
      · rw [if_pos hout]
        refine .inl ⟨fun h => ?_,rfl⟩
        rcases hout with ho | ho
        · simp [ho] at h
        · exact h.2.1 ho
      rw [if_neg hout]
      by_cases hs : s.serverPresent = false
      · rw [if_pos hs]
        exact .inl ⟨by simp [hs],rfl⟩
      rw [if_neg hs]
      by_cases hc : s.count ≥ ringCap
      · rw [if_pos hc]
        exact .inl ⟨by omega,rfl⟩
      · rw [if_neg hc]
        simp only [not_or,Bool.not_eq_false] at hout hs
        exact .inr ⟨⟨hout.1,hout.2,hs,by omega⟩,_,rfl⟩

theorem Ipc.Ring.enqueue {s : Ipc F} (h : s.Ring) (hc : s.count < ringCap) (slot : InferSlot F) :
    (s.enqueue slot).Ring ∧ (s.enqueue slot).queue = s.queue ++ [slot] := by
  refine ⟨⟨h.head_lt,?_,hc⟩,?_⟩
  · show (s.tail+1)%ringCap = (s.head+(s.count+1))%ringCap
    rw [h.tail_eq,← add_assoc,Nat.mod_add_mod]
  · show window ringCap (setAt s.slots s.tail slot) s.head (s.count+1) = _
    rw [h.tail_eq]
    exact window_pushBack slot hc

theorem step_tryInfer (w : World F) (req : Option (InferRequest F)) (out : Bool) (outMax : Nat) :
    (¬ w.ipc.Accepts req out outMax ∧ step w (.tryInfer req out outMax) = w) ∨
      (w.ipc.Accepts req out outMax ∧ ∃ slot, step w (.tryInfer req out outMax) =
        { w with ipc := w.ipc.enqueue slot, accepted := w.accepted ++ [(slot,-eagain)] }) := by
  rcases llmIpcTryInfer_cases w.ipc req out outMax with ⟨hno,hs⟩ | ⟨hacc,slot,hs⟩
  · refine .inl ⟨hno,?_⟩
    simp [step,hs,enqueued]
  · refine .inr ⟨hacc,slot,?_⟩
    simp [step,hs,enqueued,Ipc.enqueue]

theorem serverDequeueInfer_cases (h : s.Ring) (slot : Bool) : serverDequeueInfer s slot = (none,s) ∨
    ∃ x s', serverDequeueInfer s slot = (some x,s') ∧ s'.Ring ∧ s.queue = x :: s'.queue ∧
      s'.resp = s.resp := by
  unfold serverDequeueInfer
  split
  · exact .inl rfl
  obtain ⟨n,hn⟩ : ∃ n, s.count = n+1 := ⟨s.count-1,by omega⟩
  have hle := h.count_le
  refine .inr ⟨_,_,rfl,⟨Nat.mod_lt _ (by decide),?_,?_⟩,?_,rfl⟩
  · show s.tail = ((s.head+1)%ringCap+(s.count-1))%ringCap
    rw [h.tail_eq,Nat.mod_add_mod,hn]
    congr 1
    omega
  · exact le_trans (Nat.sub_le _ _) hle
  show window ringCap s.slots s.head s.count =
    s.slots s.head :: window ringCap s.slots ((s.head+1)%ringCap) (s.count-1)
  rw [hn,window_cons,Nat.mod_eq_of_lt h.head_lt,Nat.add_sub_cancel,
    window_congr_tail _ _ (Nat.mod_mod _ _)]

theorem serverPostResponse_resp (seq : UInt64) (text : Bytes) :
    (serverPostResponse s seq text).Available (seq,cut text) ∧
      (s.Ring → (serverPostResponse s seq text).Ring) ∧ (serverPostResponse s seq text).queue = s.queue := by
  have hcut : (if text.length ≥ textSize then textSize-1 else text.length) = (cut text).length := by
    apply cut_length
    have hs : textSize = 768 := rfl
    omega
  have ht : text.take (cut text).length = cut text := take_cut (textSize-1) text
  refine ⟨⟨rfl,rfl,?_⟩,fun h => ⟨h.head_lt,h.tail_eq,h.count_le⟩,rfl⟩
  simp only [serverPostResponse,hcut,ht]
  rw [get_put_outside (.inl (by omega)),get_put_self]

theorem llmIpcTakeResponse_cases (seq : UInt64) (out : Bool) (outMax : Nat) :
    ((llmIpcTakeResponse s seq out outMax).1.1 ≠ 0 ∧ (llmIpcTakeResponse s seq out outMax).2 = s) ∨
      ((llmIpcTakeResponse s seq out outMax).1.1 = 0 ∧ s.resp.valid = true ∧ s.resp.seq = seq ∧
        (llmIpcTakeResponse s seq out outMax).2 = { s with resp := { s.resp with valid := false } }) := by
  unfold llmIpcTakeResponse
  split
  · exact .inl ⟨by simp [enoent],rfl⟩
  · rename_i hno
    simp only [not_or,Bool.not_eq_false,not_not] at hno
    exact .inr ⟨rfl,hno.2.2.1,hno.2.2.2,rfl⟩

structure World.Stands (w : World F) : Prop where
  ring : w.ipc.Ring
  fifo : w.Fifo

theorem opened_stands : (opened zero s).Stands :=
  ⟨⟨Nat.zero_lt_succ _,rfl,Nat.zero_le _⟩,by simp [World.Fifo,opened,Ipc.queue,llmIpcInit,window,firsts]⟩

theorem World.Stands.keep {w : World F} (h : w.Stands) (c : Call F) : (step w c).Stands := by
  cases c with
  | setPresent present => exact ⟨⟨h.ring.head_lt,h.ring.tail_eq,h.ring.count_le⟩,h.fifo⟩
  | tryInfer req out outMax =>
    rcases step_tryInfer w req out outMax with ⟨_,hs⟩ | ⟨hacc,slot,hs⟩
    · rw [hs]
      exact h
    obtain ⟨hr,hq⟩ := h.ring.enqueue hacc.2.2.2.2 slot
    rw [hs]
    refine ⟨hr,?_⟩
    have := h.fifo
    simp only [World.Fifo] at this ⊢
    rw [map_append,this,hq,append_assoc]
    rfl
  | dequeue slot =>
    rcases serverDequeueInfer_cases w.ipc h.ring slot with hs | ⟨x,s',hs,hr,hq,_⟩
    · simpa [step,hs] using h
    simp only [step,hs]
    refine ⟨hr,?_⟩
    have := h.fifo
    simp only [World.Fifo,hq] at this ⊢
    simpa using this
  | post seq text =>
    obtain ⟨_,hr,hq⟩ := serverPostResponse_resp w.ipc seq text
    refine ⟨hr h.ring,?_⟩
    have := h.fifo
    exact this
  | take seq out outMax =>
    rcases llmIpcTakeResponse_cases w.ipc seq out outMax with ⟨_,hs⟩ | ⟨_,_,_,hs⟩
    · simp only [step,hs]
      exact ⟨h.ring,h.fifo⟩
    · simp only [step,hs]
      exact ⟨⟨h.ring.head_lt,h.ring.tail_eq,h.ring.count_le⟩,h.fifo⟩

theorem World.Stands.run {w : World F} (h : w.Stands) (calls : List (Call F)) : (run step w calls).Stands :=
  run_invariant step (fun _ c h => h.keep c) h calls

structure World.Clean (w : World F) : Prop where
  stands : w.Stands
  none_accepted : w.accepted = []
  kept : ∀ r ∈ w.waiting, w.ipc.Available r
  filled : w.ipc.resp.valid = true → ∃ r ∈ w.waiting, w.ipc.Available r

theorem World.Clean.sound {w : World F} (h : w.Clean) : w.Sound :=
  ⟨h.stands.fifo,by simp [h.none_accepted],h.kept⟩

theorem World.Clean.keep {w : World F} (h : w.Clean) {c : Call F} (hc : Careful w c) : (step w c).Clean := by
  have hst := h.stands.keep c
  cases c with
  | setPresent present => exact ⟨hst,h.none_accepted,h.kept,h.filled⟩
  | tryInfer req out outMax =>
    rcases step_tryInfer w req out outMax with ⟨_,hs⟩ | ⟨hacc,_⟩
    · rw [hs]
      exact h
    · exact absurd hacc hc
  | dequeue slot =>
    rcases serverDequeueInfer_cases w.ipc h.stands.ring slot with hs | ⟨x,s',hs,_,_,hrs⟩
    · simpa [step,hs] using h
    have ha : ∀ r, s'.Available r ↔ w.ipc.Available r := by
      intro r
      rw [Ipc.Available,Ipc.Available,hrs]
    refine ⟨hst,h.none_accepted,?_,?_⟩
    · simpa only [step,hs,ha] using h.kept
    · simpa only [step,hs,ha,hrs] using h.filled
  | post seq text =>
    have hnew := (serverPostResponse_resp w.ipc seq text).1
    refine ⟨hst,h.none_accepted,?_,fun _ => ⟨(seq,cut text),by simp [step],hnew⟩⟩
    intro r hr
    rcases mem_append.mp hr with hr | hr
    · -- an earlier response waits: it is the same one
      have hold := h.kept r hr
      have hsm := hc hold.1
      have he : r = (seq,cut text) :=
        Prod.ext (hold.2.1.symm.trans hsm.2.1) (hold.2.2.symm.trans hsm.2.2)
      rw [he]
      exact hnew
    · rw [mem_singleton.mp hr]
      exact hnew
  | take seq out outMax =>
    rcases llmIpcTakeResponse_cases w.ipc seq out outMax with ⟨hcd,hs⟩ | ⟨hcd,hv,hseq,hs⟩
    · have hsm : step w (.take seq out outMax) = w := by
        simp only [step,hs,if_neg hcd]
      rw [hsm]
      exact h
    have hg : (step w (.take seq out outMax)).waiting = [] := by
      simp only [step,hcd,if_true]
      rw [filter_eq_nil_iff]
      intro r hr
      simp [(h.kept r hr).2.1.symm.trans hseq]
    have hvl : (step w (.take seq out outMax)).ipc.resp.valid = false := by
      simp only [step,hs]
    refine ⟨hst,h.none_accepted,by simp [hg],fun hv' => ?_⟩
    rw [hvl] at hv'
    cases hv'

theorem World.Clean.broken {w : World F} (h : w.Clean) {c : Call F} (hc : ¬ Careful w c) :
    ¬ (step w c).Sound := by
  intro hsn
  cases c with
  | setPresent present | dequeue slot | take seq out outMax => exact hc trivial
  | tryInfer req out outMax =>
    rcases step_tryInfer w req out outMax with ⟨hno,_⟩ | ⟨_,slot,hs⟩
    · exact hc hno
    · rw [hs] at hsn
      exact hsn.reported (slot,-eagain) (by simp) rfl
  | post seq text =>
    have hnew := (serverPostResponse_resp w.ipc seq text).1
    apply hc
    intro hv
    obtain ⟨r,hr,ha⟩ := h.filled hv
    have hst : (serverPostResponse w.ipc seq text).Available r :=
      hsn.kept r (mem_append_left _ hr)
    have he : r = (seq,cut text) :=
      Prod.ext (hst.2.1.symm.trans hnew.2.1) (hst.2.2.symm.trans hnew.2.2)
    rw [← he]
    exact ha

theorem opened_clean : (opened zero s).Clean :=
  ⟨opened_stands zero s,rfl,by simp [opened],by simp [opened,llmIpcInit]⟩

end

theorem llmIpc_sound_iff (zero : InferSlot F) (s : Ipc F) (calls : List (Call F)) :
    (∀ done rest, calls = done ++ rest → (run step (opened zero s) done).Fifo) ∧
    ((∀ done rest, calls = done ++ rest → (run step (opened zero s) done).Sound) ↔
      Along step Careful (opened zero s) calls) := by
  refine ⟨fun done _ _ => ((opened_stands zero s).run done).fifo,?_⟩
  exact always_iff_along_kept step (fun _ h => h.sound) (fun _ _ h hc => h.keep hc)
    (fun _ _ h hc => h.broken hc) (opened_clean zero s)

def boot : World UInt32 := opened ⟨0,[],0,0⟩ ⟨false,1,fun _ => ⟨0,[],0,0⟩,0,0,0,⟨0,zeros,0,false⟩⟩

theorem accepted_request_refused :
    (run step boot [.setPresent true,.tryInfer (some ⟨some [104,105],0,0⟩) true 16]).accepted =
        [(⟨1,[104,105],0,0⟩,-eagain)] ∧
      ¬ (run step boot [.setPresent true,.tryInfer (some ⟨some [104,105],0,0⟩) true 16]).Sound ∧
      (llmIpcTakeResponse (run step boot [.post 1 [65],.post 2 [66]]).ipc 1 true 16).1 = (-enoent,[]) ∧
      ¬ (run step boot [.post 1 [65],.post 2 [66]]).Sound := by
  refine ⟨by decide +kernel,fun h => ?_,by decide +kernel,fun h => ?_⟩
  · exact h.reported (⟨1,[104,105],0,0⟩,-eagain) (by decide +kernel) rfl
  · exact absurd (h.kept (1,[65]) (by decide +kernel)).2.1 (by decide +kernel)

end AevOS.LlmIpc
