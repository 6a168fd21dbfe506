import AevOS.Common

/-! The TCP sockets of the network stack (`lwip_port.c`). What `ip_send` answers is part of the state: a
list of answers, used up one per segment. -/

namespace AevOS.Tcp
open Wire List
open UInt32 (ofNat)

abbrev tcpMaxSockets : Nat := 16
def tcpRxBufSize : Nat := 8192
def ethMtu : Nat := 1500
def maxPayload : Nat := ethMtu-20-20

def tcpFin : UInt8 := 0x01
def tcpSyn : UInt8 := 0x02
def tcpPsh : UInt8 := 0x08
def tcpAck : UInt8 := 0x10

inductive TcpState where
  | closed | listen | synSent | synReceived | established
  | finWait1 | finWait2 | closeWait | lastAck | timeWait
  deriving DecidableEq

structure RxBuf where
  bytes : Bytes
  fits : bytes.length ≤ tcpRxBufSize

namespace RxBuf

def empty : RxBuf := ⟨[],by simp⟩
def space (b : RxBuf) : Nat := tcpRxBufSize-b.bytes.length

def push (b : RxBuf) (payload : Bytes) : RxBuf :=
  ⟨b.bytes ++ payload.take b.space,by
    have := b.fits
    simp only [length_append,length_take,space]
    omega⟩

def pop (b : RxBuf) (n : Nat) : RxBuf :=
  ⟨b.bytes.drop n,by
    have := b.fits
    simp only [length_drop]
    omega⟩

@[simp] theorem push_bytes (b : RxBuf) (payload : Bytes) :
    (b.push payload).bytes = b.bytes ++ payload.take b.space := rfl

@[simp] theorem pop_bytes (b : RxBuf) (n : Nat) : (b.pop n).bytes = b.bytes.drop n := rfl

end RxBuf

structure TcpSocket where
  inUse : Bool
  state : TcpState
  localIp : UInt32
  localPort : UInt16
  remoteIp : UInt32
  remotePort : UInt16
  seq : UInt32
  ack : UInt32
  rx : RxBuf

def TcpSocket.zero : TcpSocket := ⟨false,.closed,0,0,0,0,0,0,.empty⟩

structure Segment where
  srcIp : UInt32
  srcPort : UInt16
  dstPort : UInt16
  seq : UInt32
  flags : UInt8
  payload : Bytes

structure Sent where
  dstIp : UInt32
  srcPort : UInt16
  dstPort : UInt16
  seq : UInt32
  ack : UInt32
  flags : UInt8
  data : Bytes
  deriving DecidableEq

structure Stack where
  sockets : Fin tcpMaxSockets → TcpSocket
  ifaceIp : Option UInt32
  /-- Coming answers of `ip_send`; behind the list's end it succeeds. -/
  answers : List (Option Errno)
  sent : List Sent

def Stack.init (iface : Option UInt32) (answers : List (Option Errno)) : Stack :=
  ⟨fun _ => .zero,iface,answers,[]⟩

namespace Stack

def modify (st : Stack) (i : Fin tcpMaxSockets) (f : TcpSocket → TcpSocket) : Stack :=
  { st with sockets := Function.update st.sockets i (f (st.sockets i)) }

section
variable (st : Stack) (i j : Fin tcpMaxSockets) (f : TcpSocket → TcpSocket) (flags : UInt8)
    (data : Bytes)

@[simp] theorem modify_sent : (st.modify i f).sent = st.sent := rfl
@[simp] theorem modify_answers : (st.modify i f).answers = st.answers := rfl

@[simp] theorem modify_self : (st.modify i f).sockets i = f (st.sockets i) := by
  simp [modify]

@[simp] theorem modify_other (hj : j ≠ i) : (st.modify i f).sockets j = st.sockets j := by
  simp [modify,hj]

def getTcpSocket (st : Stack) (sock : Int) : Option (Fin tcpMaxSockets) :=
  if h : 0 ≤ sock ∧ sock.toNat < tcpMaxSockets then
    if (st.sockets ⟨sock.toNat,h.2⟩).inUse then some ⟨sock.toNat,h.2⟩ else none
  else none

theorem getTcpSocket_slot : st.getTcpSocket i.val = if (st.sockets i).inUse then some i else none := by
  have h : (0 : Int) ≤ i.val ∧ (i.val : Int).toNat < tcpMaxSockets := ⟨by omega,by simp⟩
  rw [getTcpSocket,dif_pos h]
  rfl

def seqSpace (flags : UInt8) (len : Nat) : UInt32 :=
  (if flags &&& tcpSyn ≠ 0 then 1 else 0)+(if flags &&& tcpFin ≠ 0 then 1 else 0) + ofNat len

def sendSegment (st : Stack) (i : Fin tcpMaxSockets) (flags : UInt8) (data : Bytes) :
    Option Errno × Stack :=
  let s := st.sockets i
  let out : Sent := ⟨s.remoteIp,s.localPort,s.remotePort,s.seq,s.ack,flags,data⟩
  let st' := st.modify i (fun s => { s with seq := s.seq+seqSpace flags data.length })
  (st.answers.headD none,{ st' with answers := st.answers.tail, sent := st.sent ++ [out] })

@[simp] theorem sendSegment_rc : (st.sendSegment i flags data).1 = st.answers.headD none := rfl

@[simp] theorem sendSegment_self : (st.sendSegment i flags data).2.sockets i =
      { st.sockets i with seq := (st.sockets i).seq+seqSpace flags data.length } := by
  simp [sendSegment,modify]

@[simp] theorem sendSegment_other (hj : j ≠ i) :
    (st.sendSegment i flags data).2.sockets j = st.sockets j := by
  simp [sendSegment,modify,hj]

def create (st : Stack) : Except Errno (Fin tcpMaxSockets) × Stack :=
  match (List.finRange tcpMaxSockets).find? (fun i => !(st.sockets i).inUse) with
  | some i => (.ok i,st.modify i (fun _ => { TcpSocket.zero with inUse := true, seq := 1000 }))
  | none => (.error .enomem,st)

def ephemeralPort (sock : Int) : UInt16 := 49152+UInt16.ofInt (sock*7+1)

def connect (st : Stack) (sock : Int) (ip : UInt32) (port : UInt16) : Option Errno × Stack :=
  match st.getTcpSocket sock with
  | none => (some .einval,st)
  | some i =>
    if (st.sockets i).state ≠ .closed then (some .einval,st)
    else
      let st' := st.modify i (fun s => { s with
        remoteIp := ip
        remotePort := port
        localIp := st.ifaceIp.getD 0
        localPort := ephemeralPort sock
        state := .synSent })
      st'.sendSegment i tcpSyn []

def listen (st : Stack) (sock : Int) (port : UInt16) : Option Errno × Stack :=
  match st.getTcpSocket sock with
  | none => (some .einval,st)
  | some i =>
    if (st.sockets i).state ≠ .closed then (some .einval,st)
    else (none,st.modify i (fun s => { s with
      localPort := port
      localIp := st.ifaceIp.getD 0
      state := .listen }))

def sendLoop (st : Stack) (i : Fin tcpMaxSockets) (data : Bytes) (sent : Nat) :
    Except Errno Nat × Stack :=
  if data = [] then (.ok sent,st)
  else
    let chunk := data.take maxPayload
    let r := st.sendSegment i (tcpAck ||| tcpPsh) chunk
    match r.1 with
    | some e => (if 0 < sent then .ok sent else .error e,r.2)
    | none => sendLoop r.2 i (data.drop maxPayload) (sent+chunk.length)
termination_by data.length
decreasing_by
  have : 0 < data.length := length_pos_of_ne_nil ‹_›
  simp only [length_drop,maxPayload,ethMtu]
  omega

def send (st : Stack) (sock : Int) (data : Bytes) : Except Errno Nat × Stack :=
  match st.getTcpSocket sock with
  | none => (.error .einval,st)
  | some i =>
    if (st.sockets i).state ≠ .established then (.error .einval,st)
    else st.sendLoop i data 0

def recv (st : Stack) (sock : Int) (maxLen : Nat) : Except Errno Bytes × Stack :=
  match st.getTcpSocket sock with
  | none => (.error .einval,st)
  | some i =>
    let s := st.sockets i
    if s.state ≠ .established then (.error .einval,st)
    else if s.rx.bytes = [] then (.ok [],st)
    else
      let n := min maxLen s.rx.bytes.length
      (.ok (s.rx.bytes.take n),st.modify i (fun s => { s with rx := s.rx.pop n }))

def fromPeer (s : TcpSocket) (seg : Segment) : Bool :=
  s.localPort == seg.dstPort && s.remotePort == seg.srcPort && s.remoteIp == seg.srcIp

def takes (s : TcpSocket) (seg : Segment) : Bool :=
  s.inUse && ((s.state == .listen && s.localPort == seg.dstPort) || fromPeer s seg)

def findSocket (st : Stack) (seg : Segment) : Option (Fin tcpMaxSockets) :=
  (List.finRange tcpMaxSockets).find? (fun i => takes (st.sockets i) seg)

def handle (st : Stack) (i : Fin tcpMaxSockets) (seg : Segment) : Stack :=
  match (st.sockets i).state with
  | .listen =>
    if seg.flags &&& tcpSyn ≠ 0 then
      ((st.modify i (fun s => { s with
        remoteIp := seg.srcIp
        remotePort := seg.srcPort
        ack := seg.seq+1
        state := .synReceived })).sendSegment i (tcpSyn ||| tcpAck) []).2
    else st
  | .synSent =>
    if seg.flags &&& (tcpSyn ||| tcpAck) = tcpSyn ||| tcpAck then
      ((st.modify i (fun s => { s with ack := seg.seq+1, state := .established })).sendSegment
        i tcpAck []).2
    else st
  | .synReceived =>
    if seg.flags &&& tcpAck ≠ 0 then
      st.modify i (fun s => { s with state := .established })
    else st
  | .established =>
    if seg.flags &&& tcpFin ≠ 0 then
      -- the payload of a FIN segment is not looked at
      let acked := ((st.modify i (fun s =>
        { s with ack := seg.seq+1, state := .closeWait })).sendSegment i tcpAck []).2
      ((acked.modify i (fun s => { s with state := .lastAck })).sendSegment i
        (tcpFin ||| tcpAck) []).2
    else if 0 < seg.payload.length then
      ((st.modify i (fun s => { s with
        rx := s.rx.push seg.payload
        ack := seg.seq+ofNat seg.payload.length })).sendSegment i tcpAck []).2
    else st
  | .finWait1 =>
    if seg.flags &&& (tcpFin ||| tcpAck) = tcpFin ||| tcpAck then
      ((st.modify i (fun s => { s with ack := seg.seq+1, state := .timeWait })).sendSegment
        i tcpAck []).2
    else if seg.flags &&& tcpAck ≠ 0 then
      st.modify i (fun s => { s with state := .finWait2 })
    else st
  | .finWait2 =>
    if seg.flags &&& tcpFin ≠ 0 then
      ((st.modify i (fun s => { s with ack := seg.seq+1, state := .timeWait })).sendSegment
        i tcpAck []).2
    else st
  | .lastAck =>
    if seg.flags &&& tcpAck ≠ 0 then
      st.modify i (fun s => { s with state := .closed, inUse := false })
    else st
  | .closed => st
  | .closeWait => st
  | .timeWait => st

def process (st : Stack) (seg : Segment) : Stack :=
  match st.findSocket seg with
  | none => st
  | some i => st.handle i seg

theorem handle_other (seg : Segment) (hj : j ≠ i) : (st.handle i seg).sockets j = st.sockets j := by
  unfold handle
  split <;> (try split) <;> (try split) <;> simp [hj]

end

section
variable (st : Stack) (seg : Segment) (sock : Fin tcpMaxSockets)

theorem process_other (j : Fin tcpMaxSockets) (hj : st.findSocket seg ≠ some j) :
    (st.process seg).sockets j = st.sockets j := by
  unfold process
  cases hf : st.findSocket seg with
  | none => rfl
  | some i =>
    apply handle_other
    intro he
    exact hj (he ▸ hf)

theorem findSocket_some (i : Fin tcpMaxSockets) : st.findSocket seg = some i ↔
    takes (st.sockets i) seg = true ∧ ∀ j < i, takes (st.sockets j) seg = false := by
  rw [findSocket,find?_eq_some_iff_getElem]
  simp only [length_finRange,getElem_finRange]
  constructor
  · rintro ⟨ht,k,hk,he,hlt⟩
    have hki : k = i.val := by simpa using congrArg Fin.val he
    subst hki
    refine ⟨ht,fun j hj => ?_⟩
    simpa using hlt j.val hj
  · rintro ⟨ht,hlt⟩
    refine ⟨ht,i.val,i.isLt,by simp,fun j hj => ?_⟩
    simpa using hlt ⟨j,by omega⟩ hj

def Connected (s : TcpSocket) (seg : Segment) : Prop :=
  s.inUse = true ∧ s.state ≠ .closed ∧ s.state ≠ .listen ∧ fromPeer s seg = true
  deriving Decidable

def Intercepts (s : TcpSocket) (seg : Segment) : Prop :=
  s.inUse = true ∧ ((s.state = .listen ∧ s.localPort = seg.dstPort) ∨
    (s.state = .closed ∧ fromPeer s seg = true))

theorem Connected.not_intercepts {s : TcpSocket} {seg : Segment} (h : Connected s seg) :
    ¬ Intercepts s seg := by
  rintro ⟨_,⟨hl,_⟩ | ⟨hc,_⟩⟩
  · exact h.2.2.1 hl
  · exact h.2.1 hc

theorem takes_iff (s : TcpSocket) (seg : Segment) :
    takes s seg = true ↔ Connected s seg ∨ Intercepts s seg := by
  have hp : fromPeer s seg = true → s.localPort = seg.dstPort := by
    simp only [fromPeer,Bool.and_eq_true,beq_iff_eq]
    exact fun h => h.1.1
  simp only [takes,Connected,Intercepts,Bool.and_eq_true,Bool.or_eq_true,beq_iff_eq]
  by_cases hl : s.state = .listen
  · simp only [hl,true_and,ne_eq,not_true_eq_false,false_and,and_false,false_or,reduceCtorEq,
      or_false]
    exact and_congr_right fun _ => ⟨fun h => h.elim id hp,.inl⟩
  · by_cases hc : s.state = .closed <;> simp [hl,hc]

/-- A segment of a connection reaches its socket and no listener. -/
def Demultiplexed (st : Stack) (seg : Segment) : Prop :=
  (∃ i, Connected (st.sockets i) seg) →
    (∃ i, st.findSocket seg = some i ∧ Connected (st.sockets i) seg) ∧
      ∀ j, (st.sockets j).state = .listen → (st.process seg).sockets j = st.sockets j

theorem found_connected_iff (hex : ∃ i, Connected (st.sockets i) seg) :
    (∃ i, st.findSocket seg = some i ∧ Connected (st.sockets i) seg) ↔
      ∀ k, Intercepts (st.sockets k) seg → ∃ i < k, Connected (st.sockets i) seg := by
  constructor
  · rintro ⟨i,hf,hi⟩ k hk
    obtain ⟨_,hlt⟩ := (findSocket_some st seg i).mp hf
    refine ⟨i,?_,hi⟩
    rcases lt_trichotomy i k with h | h | h
    · exact h
    · exact absurd (h ▸ hk) hi.not_intercepts
    · have := (takes_iff _ _).mpr (.inr hk)
      simp [hlt k h] at this
  intro hcn
  -- the first connected slot is the first slot that takes the segment at all
  obtain ⟨i,hi,hmin⟩ := WellFounded.has_min wellFounded_lt {i | Connected (st.sockets i) seg} hex
  refine ⟨i,(findSocket_some st seg i).mpr ⟨(takes_iff _ _).mpr (.inl hi),?_⟩,hi⟩
  intro j hj
  by_contra ht
  rcases (takes_iff _ _).mp (Bool.not_eq_false _ ▸ ht) with hc | hk
  · exact hmin j hc hj
  · obtain ⟨k,hkj,hc⟩ := hcn j hk
    exact hmin k hc (hkj.trans hj)

theorem demultiplexed_iff (st : Stack) (seg : Segment) :
    Demultiplexed st seg ↔ ((∃ i, Connected (st.sockets i) seg) →
      ∀ k, Intercepts (st.sockets k) seg → ∃ i < k, Connected (st.sockets i) seg) := by
  apply imp_congr_right
  intro hex
  rw [← found_connected_iff st seg hex]
  refine ⟨fun h => h.1,fun h => ⟨h,fun j hl => ?_⟩⟩
  obtain ⟨i,hf,hi⟩ := h
  apply process_other
  rw [hf]
  rintro ⟨rfl⟩
  exact hi.2.2.1 hl

def peerSegment (flags : UInt8) (payload : Bytes) : Segment :=
  ⟨0x0A000002,7000,80,500,flags,payload⟩

def acceptPeer (st : Stack) (sock : Int) : Stack :=
  ((st.listen sock 80).2.process (peerSegment tcpSyn [])).process (peerSegment tcpAck [])

def shadowed : Stack :=
  ((((Stack.init (some 0x0A000001) []).create.2).create.2.acceptPeer 1).listen 0 80).2

theorem shadowed_data_lost : Connected (shadowed.sockets 1) (peerSegment tcpAck [1]) ∧
    shadowed.findSocket (peerSegment tcpAck [1]) = some 0 ∧
    ((shadowed.process (peerSegment tcpAck [1])).sockets 1).rx.bytes = [] ∧
    ¬ Demultiplexed shadowed (peerSegment tcpAck [1]) := by
  have hfirst : shadowed.findSocket (peerSegment tcpAck [1]) = some 0 := by decide +kernel
  refine ⟨by decide +kernel,hfirst,by decide +kernel,fun h => ?_⟩
  obtain ⟨i,hf,hi⟩ := (h ⟨1,by decide +kernel⟩).1
  obtain rfl := Option.some.inj hf
  exact absurd hi (by decide +kernel)

def reported : Except Errno Nat → Nat
  | .ok n => n
  | .error _ => 0

def AllAccepted (answers : List (Option Errno)) (data : Bytes) : Prop :=
  ∀ k, maxPayload*k < data.length → answers.getD k none = none

theorem allAccepted_step (answers : List (Option Errno)) (data : Bytes) (hd : data ≠ []) :
    AllAccepted answers data ↔
      answers.headD none = none ∧ AllAccepted answers.tail (data.drop maxPayload) := by
  have hpos : 0 < data.length := length_pos_of_ne_nil hd
  have hh : answers.headD none = answers.getD 0 none := by cases answers <;> rfl
  have ht : ∀ k, answers.tail.getD k none = answers.getD (k+1) none := by
    cases answers <;> simp
  simp only [AllAccepted,hh,ht,length_drop]
  constructor
  · intro h
    exact ⟨h 0 (by omega),fun k hk => h (k+1) (by rw [Nat.mul_succ]; omega)⟩
  rintro ⟨h0,hs⟩ k hk
  cases k with
  | zero => exact h0
  | succ k => exact hs k (by rw [Nat.mul_succ] at hk; omega)

@[simp] theorem seqSpace_data (n : Nat) : seqSpace (tcpAck ||| tcpPsh) n = ofNat n := by
  have hs : (tcpAck ||| tcpPsh) &&& tcpSyn = 0 := by decide
  have hf : (tcpAck ||| tcpPsh) &&& tcpFin = 0 := by decide
  simp [seqSpace,hs,hf]

theorem sendLoop_seq (i : Fin tcpMaxSockets) (data : Bytes) (sent : Nat) :
    ((st.sendLoop i data sent).2.sockets i).seq+ofNat sent =
        (st.sockets i).seq+ofNat (reported (st.sendLoop i data sent).1) ↔
      AllAccepted st.answers data := by
  fun_induction sendLoop st i data sent with
  | case1 st sent => simp [reported,AllAccepted]
  | case2 st data sent hd chunk r e he =>
    have hlen : 0 < chunk.length ∧ chunk.length < 2^32 := by
      have := length_pos_of_ne_nil hd
      simp only [chunk,length_take,maxPayload,ethMtu]
      omega
    have hrep : reported (if 0 < sent then .ok sent else .error e) = sent := by
      split <;> simp only [reported]
      omega
    have hne : ofNat chunk.length ≠ 0 := by
      intro h
      have := congrArg UInt32.toNat h
      simp only [UInt32.toNat_ofNat',UInt32.toNat_zero] at this
      omega
    have hr : st.answers.headD none ≠ none := by
      rw [show st.answers.headD none = some e from he]
      simp
    rw [allAccepted_step _ _ hd,hrep]
    simp only [r,sendSegment_self,seqSpace_data,hr,false_and,iff_false]
    intro h
    apply hne
    -- cancel the old sequence number and the bytes sent before
    grind
  | case3 st data sent hd chunk r he ih =>
    rw [allAccepted_step _ _ hd]
    have hacc : st.answers.headD none = none := he
    rw [← show r.2.answers = st.answers.tail from rfl,← ih]
    simp only [r,sendSegment_self,seqSpace_data,UInt32.ofNat_add]
    constructor
    · intro h
      grind
    · intro h
      grind

def SendAccounted (st : Stack) (sock : Fin tcpMaxSockets) (data : Bytes) : Prop :=
  ((st.send sock.val data).2.sockets sock).seq =
    (st.sockets sock).seq+ofNat (reported (st.send sock.val data).1)

def ConnectRetryable (st : Stack) (sock : Fin tcpMaxSockets) (ip : UInt32) (port : UInt16) : Prop :=
  (st.connect sock.val ip port).1 ≠ none →
    ((st.connect sock.val ip port).2.sockets sock).state = .closed ∧
      ((st.connect sock.val ip port).2.sockets sock).seq = (st.sockets sock).seq

theorem sendAccounted_iff (data : Bytes) : SendAccounted st sock data ↔
    ((st.sockets sock).inUse = true → (st.sockets sock).state = .established →
      AllAccepted st.answers data) := by
  unfold SendAccounted send
  rw [getTcpSocket_slot]
  cases hu : (st.sockets sock).inUse with
  | false => simp [reported]
  | true =>
    by_cases he : (st.sockets sock).state = .established
    · have := sendLoop_seq st sock data 0
      simpa [he] using this
    · simp [he,reported]

theorem connectRetryable_iff (ip : UInt32) (port : UInt16) : ConnectRetryable st sock ip port ↔
    (st.sockets sock).state = .closed ∧
      ((st.sockets sock).inUse = true → st.answers.headD none = none) := by
  unfold ConnectRetryable connect
  rw [getTcpSocket_slot]
  cases hu : (st.sockets sock).inUse with
  | false => simp
  | true =>
    by_cases hc : (st.sockets sock).state = .closed
    · -- a refused SYN leaves SYN_SENT behind
      simp [hc]
    · simp [hc]

end

theorem accounting_iff (st : Stack) (sock : Fin tcpMaxSockets) (data : Bytes) (ip : UInt32)
    (port : UInt16) :
    (SendAccounted st sock data ↔
      ((st.sockets sock).inUse = true → (st.sockets sock).state = .established →
        ∀ k, maxPayload*k < data.length → st.answers.getD k none = none)) ∧
    (ConnectRetryable st sock ip port ↔ (st.sockets sock).state = .closed ∧
        ((st.sockets sock).inUse = true → st.answers.headD none = none)) :=
  ⟨sendAccounted_iff st sock data,connectRetryable_iff st sock ip port⟩

def unresolved : Stack := (Stack.init (some 0x0A000001) [some .eio]).create.2

theorem connect_not_retryable : (unresolved.connect 0 0x0A000002 80).1 = some .eio ∧
    ((unresolved.connect 0 0x0A000002 80).2.sockets 0).state = .synSent ∧
    ((unresolved.connect 0 0x0A000002 80).2.sockets 0).seq = 1001 ∧
    (((unresolved.connect 0 0x0A000002 80).2).connect 0 0x0A000002 80).1 = some .einval ∧
    ¬ ConnectRetryable unresolved 0 0x0A000002 80 := by
  refine ⟨by decide +kernel,by decide +kernel,by decide +kernel,by decide +kernel,?_⟩
  intro h
  have hstate := (h (by decide +kernel)).1
  exact absurd hstate (by decide +kernel)

end Stack
end AevOS.Tcp
