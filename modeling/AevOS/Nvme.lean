import AevOS.PhaseRing
import AevOS.Runs

/-! Reads and writes of `kernel/drivers/nvme.c`, against a device that completes every command once,
whenever it likes. -/

namespace AevOS.Nvme
open ArrayPrefix RingWindow PhaseRing Runs List
open UInt16 (ofNat toNat_inj toNat_ofNat')

def nvmeIoQueueSize : Nat := 256
def pollRounds : Nat := 5000*1000

structure Cmd where
  opcode : UInt8
  commandId : UInt16
  nsid : UInt32
  prp1 : UInt64
  prp2 : UInt64
  cdw10 : UInt32
  cdw11 : UInt32
  cdw12 : UInt32
  deriving DecidableEq

structure Cpl where
  commandId : UInt16
  status : UInt16
  deriving DecidableEq

def Cpl.phase (c : Cpl) : Bool := c.status &&& 1 == 1
def Cpl.code (c : Cpl) : UInt16 := (c.status >>> 1) &&& 0x7FFF

structure Queue where
  sq : Nat → Cmd
  cq : Nat → Cpl
  sqTail : Nat
  cqHead : Nat
  cqPhase : Bool
  cid : UInt16

def nvmeSubmitCmd (q : Queue) (cmd : Cmd) : Queue :=
  { q with
    sq := setAt q.sq q.sqTail { cmd with commandId := q.cid }
    sqTail := (q.sqTail+1)%nvmeIoQueueSize
    cid := q.cid+1 }

def Queue.advance (q : Queue) : Queue :=
  let head := (q.cqHead+1)%nvmeIoQueueSize
  { q with cqHead := head, cqPhase := if head = 0 then !q.cqPhase else q.cqPhase }

def pollOnce (q : Queue) : Option Bool :=
  let cpl := q.cq q.cqHead
  if cpl.phase = q.cqPhase then some (cpl.code == 0) else none

structure Post where
  cmd : Nat
  code : BitVec 15
  deriving DecidableEq

structure Sys where
  queue : Queue
  cids : List UInt16
  devTail : Nat
  devPhase : Bool
  posted : List Post

def Sys.cpl (s : Sys) (p : Post) : Cpl :=
  ⟨s.cids.getD p.cmd 0,ofNat (2*p.code.toNat+if s.devPhase then 1 else 0)⟩

def deviceStep (s : Sys) (p : Post) : Sys :=
  if p.cmd < s.cids.length ∧ p.cmd ∉ s.posted.map Post.cmd ∧ (s.devTail+1)%nvmeIoQueueSize ≠ s.queue.cqHead then
    let tail := (s.devTail+1)%nvmeIoQueueSize
    { s with
      queue := { s.queue with cq := setAt s.queue.cq s.devTail (s.cpl p) }
      devTail := tail
      devPhase := if tail = 0 then !s.devPhase else s.devPhase
      posted := s.posted ++ [p] }
  else s

structure Call where
  opcode : UInt8
  lba : UInt64
  count : UInt32
  buffer : UInt64
  schedule : Nat → List Post

structure Namespace where
  nsid : UInt32
  lbaSize : UInt32

def Call.command (ns : Namespace) (c : Call) : Cmd :=
  let xferBytes := c.count.toUInt64*ns.lbaSize.toUInt64
  let prp1End := (c.buffer &&& ~~~ 0xFFF)+4096
  { opcode := c.opcode
    commandId := 0
    nsid := ns.nsid
    prp1 := c.buffer
    prp2 := if c.buffer+xferBytes > prp1End then prp1End else 0
    cdw10 := (c.lba &&& 0xFFFFFFFF).toUInt32
    cdw11 := (c.lba >>> 32).toUInt32
    cdw12 := c.count-1 }

def nvmePollCpl (schedule : Nat → List Post) : (rounds i : Nat) → Sys → Bool × Sys
  | 0, _, s => (false,s)
  | n+1, i, s =>
    let s := run deviceStep s (schedule i)
    match pollOnce s.queue with
    | some ok => (ok,{ s with queue := s.queue.advance })
    | none => nvmePollCpl schedule n (i+1) s

def submit (ns : Namespace) (s : Sys) (c : Call) : Sys :=
  { s with queue := nvmeSubmitCmd s.queue (c.command ns), cids := s.cids ++ [s.queue.cid] }

def nvmeIoCmd (ns : Namespace) (s : Sys) (c : Call) : Bool × Sys :=
  if c.count = 0 ∨ c.buffer = 0 then (false,s)
  else nvmePollCpl c.schedule pollRounds 0 (submit ns s c)

inductive Event
  | device (p : Post)
  | call (c : Call)

def step (ns : Namespace) (s : Sys) : Event → Sys
  | .device p => deviceStep s p
  | .call c => (nvmeIoCmd ns s c).2

def idleCmd : Cmd := ⟨0,0,0,0,0,0,0,0⟩
def start : Sys := ⟨⟨fun _ => idleCmd,fun _ => ⟨0,0⟩,0,0,true,0⟩,[],0,true,[]⟩

/-- A call that answers success has its own command completed with status 0. -/
def Right (ns : Namespace) (s : Sys) (c : Call) : Prop :=
  (nvmeIoCmd ns s c).1 = true → ⟨s.cids.length,0⟩ ∈ (nvmeIoCmd ns s c).2.posted

/-- All commands are completed and read, or the completion to be read next is an error. -/
def Settled (s : Sys) : Prop :=
  (s.devTail = s.queue.cqHead ∧ ∀ j, j < s.cids.length → j ∈ s.posted.map Post.cmd) ∨
    (s.devTail ≠ s.queue.cqHead ∧ (s.queue.cq s.queue.cqHead).code ≠ 0)

structure Inv (s : Sys) (h : Nat) : Prop where
  ring : ∃ unread, Holds nvmeIoQueueSize Cpl.phase s.queue.cq h s.posted.length unread ∧
    unread.map Cpl.code = (s.posted.drop h).map fun p => ofNat p.code.toNat
  head : s.queue.cqHead = h%nvmeIoQueueSize
  phase : s.queue.cqPhase = phaseBit nvmeIoQueueSize h
  tail : s.devTail = s.posted.length%nvmeIoQueueSize
  devPhase : s.devPhase = phaseBit nvmeIoQueueSize s.posted.length
  submitted : ∀ p ∈ s.posted, p.cmd < s.cids.length
  once : (s.posted.map Post.cmd).Nodup

theorem idleCpl_phase : (⟨0,0⟩ : Cpl).phase = false := by decide

theorem inv_start : Inv start 0 where
  ring := ⟨[],holds_start (by decide) (fun _ _ => idleCpl_phase),rfl⟩
  head := rfl
  phase := rfl
  tail := rfl
  devPhase := rfl
  submitted _ h := absurd h not_mem_nil
  once := nodup_nil

theorem cpl_status (s : Sys) (p : Post) :
    (s.cpl p).status.toNat = 2*p.code.toNat+if s.devPhase then 1 else 0 := by
  show (ofNat _).toNat = _
  apply Nat.mod_eq_of_lt
  split <;> omega

theorem cpl_phase (s : Sys) (p : Post) : (s.cpl p).phase = s.devPhase := by
  have hbit : ((s.cpl p).status &&& 1).toNat = (s.cpl p).status.toNat%2 := by
    exact Nat.and_one_is_mod _
  have hiff : (s.cpl p).status &&& 1 = 1 ↔ s.devPhase = true := by
    rw [← toNat_inj,hbit,cpl_status]
    cases s.devPhase <;> simp
  unfold Cpl.phase
  rw [Bool.eq_iff_iff,beq_iff_eq,hiff]

theorem cpl_code (s : Sys) (p : Post) : (s.cpl p).code = ofNat p.code.toNat := by
  apply toNat_inj.mp
  have hs : ((s.cpl p).status >>> 1).toNat = (s.cpl p).status.toNat/2 := by
    rfl
  rw [Cpl.code,UInt16.toNat_and,hs,cpl_status,show (0x7FFF : UInt16).toNat = 2^15-1 from rfl,
    Nat.and_two_pow_sub_one_eq_mod,toNat_ofNat']
  split <;> omega

theorem code_eq_zero (code : BitVec 15) : ofNat code.toNat = 0 ↔ code = 0 := by
  rw [← toNat_inj,toNat_ofNat',Nat.mod_eq_of_lt (by omega),UInt16.toNat_zero]
  exact (BitVec.toNat_eq (y := 0)).symm

section
variable {s : Sys} {h : Nat}

section
variable (ns : Namespace)

section
variable (hs : Inv s h)
include hs

theorem Inv.device (p : Post) : Inv (deviceStep s p) h := by
  unfold deviceStep
  split
  · rename_i hc
    obtain ⟨hsb,hnew,hr⟩ := hc
    obtain ⟨unread,hh,hcd⟩ := hs.ring
    have hle := hh.le
    have hb := hh.room
    have hn : (s.devTail+1)%nvmeIoQueueSize = (s.posted.length+1)%nvmeIoQueueSize := by
      rw [hs.tail,slot_succ]
    have hf : s.posted.length+1 < h+nvmeIoQueueSize := by
      rw [hn,hs.head] at hr
      by_contra hfl
      apply hr
      rw [show s.posted.length+1 = h+nvmeIoQueueSize by omega,Nat.add_mod_right]
    have hp := hh.post hf (y := s.cpl p) (by rw [cpl_phase,hs.devPhase])
    rw [← hs.tail] at hp
    constructor
    · refine ⟨unread ++ [s.cpl p],?_,?_⟩
      · simpa using hp
      · rw [map_append,hcd,drop_append_of_le_length hle,map_append,map_singleton,map_singleton,
          cpl_code]
    · exact hs.head
    · exact hs.phase
    · simpa using hn
    · rw [hn,hs.devPhase,length_append,length_singleton,phaseBit_succ]
    · intro q hq
      rcases mem_append.mp hq with hq | hq
      · exact hs.submitted q hq
      · rw [mem_singleton.mp hq]
        exact hsb
    · rw [map_append,map_singleton]
      exact Nodup.append hs.once (nodup_singleton _) (disjoint_singleton.mpr hnew)
  · exact hs

theorem pollOnce_none (hlen : s.posted.length = h) : pollOnce s.queue = none := by
  obtain ⟨unread,hh,hc⟩ := hs.ring
  have hsn := hh.seen_iff
  unfold pollOnce
  rw [hs.head,hs.phase,if_neg]
  rw [hsn]
  omega

theorem pollOnce_some (hlt : h < s.posted.length) :
    (s.queue.cq s.queue.cqHead).code = ofNat s.posted[h].code.toNat ∧
      pollOnce s.queue = some (decide (s.posted[h].code = 0)) ∧ Inv { s with queue := s.queue.advance } (h+1) := by
  obtain ⟨unread,hh,hc⟩ := hs.ring
  have hsn := hh.seen_iff.mpr hlt
  rw [drop_eq_getElem_cons hlt,map_cons] at hc
  obtain ⟨y,rest,hu,hy,hr⟩ := map_eq_cons_iff.mp hc
  rw [hu] at hh
  obtain ⟨hsl,hrd⟩ := hh.read
  have hcd : (s.queue.cq s.queue.cqHead).code = ofNat s.posted[h].code.toNat := by
    rw [hs.head,hsl,hy]
  have hn : (s.queue.cqHead+1)%nvmeIoQueueSize = (h+1)%nvmeIoQueueSize := by
    rw [hs.head,slot_succ]
  refine ⟨hcd,?_,⟨rest,hrd,hr⟩,hn,?_,hs.tail,hs.devPhase,hs.submitted,hs.once⟩
  · unfold pollOnce
    dsimp only
    rw [hcd,hs.phase,hs.head,if_pos hsn,Option.some_inj,Bool.eq_iff_iff,beq_iff_eq,decide_eq_true_iff]
    exact code_eq_zero _
  · show (if (s.queue.cqHead+1)%nvmeIoQueueSize = 0 then !s.queue.cqPhase else s.queue.cqPhase) = _
    rw [hn,hs.phase,phaseBit_succ]

theorem unread_iff : s.devTail = s.queue.cqHead ↔ s.posted.length = h := by
  obtain ⟨unread,hh,-⟩ := hs.ring
  have hle := hh.le
  have hr := hh.room
  rw [hs.tail,hs.head]
  constructor
  · intro heq
    by_contra hne
    have hsl := @slot_ne nvmeIoQueueSize h 0 (s.posted.length-h) (by omega) (by omega)
    rw [add_zero,show h+(s.posted.length-h) = s.posted.length by omega] at hsl
    exact hsl heq.symm
  · intro heq
    rw [heq]

theorem Inv.le : h ≤ s.posted.length := by
  obtain ⟨unread,hh,-⟩ := hs.ring
  exact hh.le

theorem Inv.submit (ns : Namespace) (c : Call) : Inv (submit ns s c) h where
  ring := hs.ring
  head := hs.head
  phase := hs.phase
  tail := hs.tail
  devPhase := hs.devPhase
  submitted p hp := by
    have hlt := hs.submitted p hp
    show p.cmd < (s.cids ++ [s.queue.cid]).length
    rw [length_append]
    omega
  once := hs.once

end

@[simp] theorem submit_posted (s : Sys) (c : Call) : (submit ns s c).posted = s.posted := rfl
@[simp] theorem submit_cids (s : Sys) (c : Call) : (submit ns s c).cids = s.cids ++ [s.queue.cid] := rfl

theorem deviceStep_posted {s : Sys} {p : Post} (hc : p.cmd < s.cids.length ∧ p.cmd ∉ s.posted.map Post.cmd ∧
    (s.devTail+1)%nvmeIoQueueSize ≠ s.queue.cqHead) : (deviceStep s p).posted = s.posted ++ [p] := by
  rw [deviceStep,if_pos hc]

theorem Inv.devices (hs : Inv s h) (ps : List Post) : Inv (run deviceStep s ps) h :=
  @run_invariant _ _ deviceStep (fun t => Inv t h) (fun _ p ht => ht.device p) _ hs ps

def Later (s t : Sys) : Prop := t.cids = s.cids ∧ s.posted <+: t.posted

theorem Later.refl (s : Sys) : Later s s := ⟨rfl,prefix_rfl⟩

theorem Later.trans {s t u : Sys} (h : Later s t) (h' : Later t u) : Later s u :=
  ⟨h'.1.trans h.1,h.2.trans h'.2⟩

theorem later_device (s : Sys) (p : Post) : Later s (deviceStep s p) := by
  unfold deviceStep
  split
  · exact ⟨rfl,prefix_append _ _⟩
  · exact Later.refl s

theorem later_devices (s : Sys) (ps : List Post) : Later s (run deviceStep s ps) :=
  @run_invariant _ _ deviceStep (Later s) (fun t p ht => ht.trans (later_device t p)) _ (Later.refl s) ps

theorem nvmePollCpl_spec (schedule : Nat → List Post) (rounds i : Nat) (hs : Inv s h) :
    Later s (nvmePollCpl schedule rounds i s).2 ∧ (∃ h', Inv (nvmePollCpl schedule rounds i s).2 h') ∧
      ((nvmePollCpl schedule rounds i s).1 = true →
        ∃ p, (nvmePollCpl schedule rounds i s).2.posted[h]? = some p ∧ p.code = 0) := by
  induction rounds generalizing i s with
  | zero => exact ⟨Later.refl s,⟨h,hs⟩,fun hf => absurd hf Bool.false_ne_true⟩
  | succ rounds ih =>
    have hl := later_devices s (schedule i)
    have hnow := hs.devices (schedule i)
    rw [nvmePollCpl]
    rcases lt_or_ge h (run deviceStep s (schedule i)).posted.length with hlt | hge
    · obtain ⟨-,hp,hr⟩ := pollOnce_some hnow hlt
      rw [hp]
      refine ⟨hl,⟨h+1,hr⟩,fun hok => ⟨_,getElem?_eq_getElem hlt,of_decide_eq_true hok⟩⟩
    · rw [pollOnce_none hnow (le_antisymm hge hnow.le)]
      obtain ⟨hrs,hinv,hok⟩ := ih (i+1) hnow
      exact ⟨hl.trans hrs,hinv,hok⟩

theorem not_posted (hs : Inv s h) (code : BitVec 15) : ⟨s.cids.length,code⟩ ∉ s.posted :=
  fun hmem => lt_irrefl _ (hs.submitted _ hmem)

theorem right_of_idle (hs : Inv s h) (hr : s.posted.length = h)
    (hd : ∀ j, j < s.cids.length → j ∈ s.posted.map Post.cmd) (ns : Namespace) (c : Call) : Right ns s c := by
  unfold Right nvmeIoCmd
  split
  · exact fun hf => absurd hf Bool.false_ne_true
  obtain ⟨⟨hc,more,hps⟩,⟨h',hinv⟩,hok⟩ := nvmePollCpl_spec c.schedule pollRounds 0 (hs.submit ns c)
  intro ht
  obtain ⟨p,hp,hcd⟩ := hok ht
  have hmem := mem_of_getElem? hp
  have hlt := hinv.submitted p hmem
  rw [hc,submit_cids,length_append,length_singleton] at hlt
  rw [submit_posted] at hps
  have hm : p ∈ more := by
    rw [← hps,getElem?_append_right (le_of_eq hr)] at hp
    exact mem_of_getElem? hp
  have hnew : p.cmd ∉ s.posted.map Post.cmd := by
    have ho := hinv.once
    rw [← hps,map_append] at ho
    exact fun hold => disjoint_of_nodup_append ho hold (mem_map_of_mem hm)
  have hcmd : p.cmd = s.cids.length := by
    by_contra hne
    exact hnew (hd p.cmd (by omega))
  have heq : p = ⟨s.cids.length,0⟩ := by
    rw [← hcmd,← hcd]
  rwa [← heq]

theorem right_of_failure (hs : Inv s h) (hlt : h < s.posted.length)
    (hf : (s.queue.cq s.queue.cqHead).code ≠ 0) (ns : Namespace) (c : Call) : Right ns s c := by
  unfold Right nvmeIoCmd
  split
  · exact fun hfl => absurd hfl Bool.false_ne_true
  obtain ⟨⟨-,more,hps⟩,-,hok⟩ := nvmePollCpl_spec c.schedule pollRounds 0 (hs.submit ns c)
  intro ht
  obtain ⟨p,hp,hc⟩ := hok ht
  rw [← hps,submit_posted,getElem?_append_left hlt,getElem?_eq_getElem hlt,Option.some_inj] at hp
  rw [(pollOnce_some hs hlt).1,hp] at hf
  exact absurd ((code_eq_zero _).mpr hc) hf

def callWith (ps : List Post) : Call := ⟨2,0,1,1,fun _ => ps⟩

theorem callWith_true (hs : Inv s h) (ps : List Post) {p : Post}
    (hp : (run deviceStep (submit ns s (callWith ps)) ps).posted[h]? = some p) (hc : p.code = 0) :
    (nvmeIoCmd ns s (callWith ps)).1 = true ∧
      (nvmeIoCmd ns s (callWith ps)).2.posted = (run deviceStep (submit ns s (callWith ps)) ps).posted := by
  obtain ⟨rounds,hr⟩ : ∃ n, pollRounds = n+1 := ⟨4999999,by decide⟩
  obtain ⟨hlt,hget⟩ := List.getElem?_eq_some_iff.mp hp
  obtain ⟨-,hpl,-⟩ := pollOnce_some ((hs.submit ns (callWith ps)).devices ps) hlt
  rw [hget,hc,decide_eq_true rfl] at hpl
  have harg : ¬ ((callWith ps).count = 0 ∨ (callWith ps).buffer = 0) := by
    simp [callWith]
  rw [nvmeIoCmd,if_neg harg,hr,nvmePollCpl,show (callWith ps).schedule 0 = ps from rfl,hpl]
  exact ⟨rfl,rfl⟩

theorem not_right_of_unread (hs : Inv s h) (hlt : h < s.posted.length)
    (hc : (s.queue.cq s.queue.cqHead).code = 0) : ¬ Right ns s (callWith []) := by
  rw [(pollOnce_some hs hlt).1,code_eq_zero] at hc
  obtain ⟨ht,hp⟩ := callWith_true ns hs [] (getElem?_eq_getElem hlt) hc
  intro hr
  have hmem := hr ht
  rw [hp] at hmem
  exact not_posted hs 0 hmem

theorem not_right_of_outstanding (hs : Inv s h) (hr : s.posted.length = h) {j : Nat}
    (hj : j < s.cids.length) (ho : j ∉ s.posted.map Post.cmd) : ¬ Right ns s (callWith [⟨j,0⟩]) := by
  have hrm : (s.devTail+1)%nvmeIoQueueSize ≠ s.queue.cqHead := by
    rw [(unread_iff hs).mpr hr,hs.head,slot_succ]
    have hsl := @slot_ne nvmeIoQueueSize h 0 1 (by omega) (by decide)
    exact hsl.symm
  have hst : (run deviceStep (submit ns s (callWith [⟨j,0⟩])) [⟨j,0⟩]).posted = s.posted ++ [⟨j,0⟩] := by
    have hsb : j < (submit ns s (callWith [⟨j,0⟩])).cids.length := by
      rw [submit_cids,length_append]
      omega
    exact deviceStep_posted ⟨hsb,ho,hrm⟩
  have hget : (s.posted ++ [(⟨j,0⟩ : Post)])[h]? = some ⟨j,0⟩ := by
    rw [← hr]
    simp
  obtain ⟨ht,hp⟩ := callWith_true ns hs [⟨j,0⟩] (by rw [hst]; exact hget) rfl
  intro hrg
  have hmem := hrg ht
  rw [hp,hst,mem_append] at hmem
  rcases hmem with hmem | hmem
  · exact not_posted hs 0 hmem
  · rw [mem_singleton,Post.mk.injEq] at hmem
    omega

theorem right_iff_settled (hs : Inv s h) : (∀ c, Right ns s c) ↔ Settled s := by
  unfold Settled
  rw [ne_eq,unread_iff hs]
  have hle := hs.le
  constructor
  · intro hrg
    by_cases hr : s.posted.length = h
    · refine .inl ⟨hr,fun j hj => ?_⟩
      by_contra ho
      exact not_right_of_outstanding ns hs hr hj ho (hrg _)
    · exact .inr ⟨hr,fun hc => not_right_of_unread ns hs (by omega) hc (hrg _)⟩
  · rintro (⟨hr,hd⟩ | ⟨hu,hf⟩) c
    · exact right_of_idle hs hr hd ns c
    · exact right_of_failure hs (by omega) hf ns c

end

end

theorem inv_step (ns : Namespace) (s : Sys) (e : Event) (hs : ∃ h, Inv s h) : ∃ h, Inv (step ns s e) h := by
  obtain ⟨h,hs⟩ := hs
  cases e with
  | device p => exact ⟨h,hs.device p⟩
  | call c =>
    rw [step,nvmeIoCmd]
    split
    · exact ⟨h,hs⟩
    · exact (nvmePollCpl_spec c.schedule pollRounds 0 (hs.submit ns c)).2.1

theorem inv_run (ns : Namespace) (events : List Event) : ∃ h, Inv (run (step ns) start events) h :=
  @run_invariant _ _ (step ns) (fun s => ∃ h, Inv s h) (inv_step ns) _ ⟨0,inv_start⟩ events

def CallsSettled (s : Sys) (e : Event) : Prop := ∀ c, e = .call c → Settled s

theorem nvme_completions_iff (ns : Namespace) (events : List Event) :
    ((∀ c, Right ns (run (step ns) start events) c) ↔ Settled (run (step ns) start events)) ∧
      (Along (step ns) CallsSettled start events →
        ∀ done c rest, events = done ++ .call c :: rest → Right ns (run (step ns) start done) c) := by
  constructor
  · obtain ⟨h,hs⟩ := inv_run ns events
    exact right_iff_settled ns hs
  intro hsettled done c rest heq
  have hdoes : ∀ s e, (∃ h, Inv s h) → CallsSettled s e → ∀ c, e = .call c → Right ns s c := by
    rintro s e ⟨h,hs⟩ hcalls c he
    exact (right_iff_settled ns hs).mpr (hcalls c he) c
  have hkeep : ∀ s e, (∃ h, Inv s h) → CallsSettled s e → ∃ h, Inv (step ns s e) h :=
    fun s e hs _ => inv_step ns s e hs
  exact along_steps (step ns) hkeep hdoes ⟨0,inv_start⟩ hsettled done _ rest heq c rfl

theorem nvmePollCpl_timeout {s : Sys} (hn : pollOnce s.queue = none) (rounds i : Nat) :
    nvmePollCpl (fun _ => []) rounds i s = (false,s) := by
  induction rounds generalizing i with
  | zero => rfl
  | succ rounds ih =>
    rw [nvmePollCpl,show run deviceStep s [] = s from rfl,hn]
    exact ih (i+1)

def oneNamespace : Namespace := ⟨1,512⟩

theorem firstCall_timeout :
    nvmeIoCmd oneNamespace start (callWith []) = (false,submit oneNamespace start (callWith [])) := by
  rw [nvmeIoCmd,if_neg (by decide)]
  exact nvmePollCpl_timeout (by decide) pollRounds 0

theorem lateCompletion_taken : (nvmeIoCmd oneNamespace start (callWith [])).1 = false ∧
    (run (step oneNamespace) start [.call (callWith []),.device ⟨0,0⟩]).cids.length = 1 ∧
    (nvmeIoCmd oneNamespace (run (step oneNamespace) start [.call (callWith []),.device ⟨0,0⟩]) (callWith [])).1 = true ∧
    (nvmeIoCmd oneNamespace (run (step oneNamespace) start [.call (callWith []),.device ⟨0,0⟩])
      (callWith [])).2.posted = [⟨0,0⟩] := by
  have hrun : ∀ s c p, run (step oneNamespace) s [.call c,.device p] =
      deviceStep (nvmeIoCmd oneNamespace s c).2 p := fun _ _ _ => rfl
  have hposted : (deviceStep (submit oneNamespace start (callWith [])) ⟨0,0⟩).posted = [⟨0,0⟩] := by decide
  have hinv := (inv_start.submit oneNamespace (callWith [])).device ⟨0,0⟩
  obtain ⟨htrue,hsame⟩ := callWith_true oneNamespace hinv [] (p := ⟨0,0⟩)
    (by simp only [run,foldl_nil,submit_posted,hposted,getElem?_cons_zero]) rfl
  rw [hrun,firstCall_timeout]
  refine ⟨rfl,by decide,htrue,?_⟩
  simpa only [run,foldl_nil,submit_posted] using hsame.trans hposted

end AevOS.Nvme
