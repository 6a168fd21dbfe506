import AevOS.Tcp
import AevOS.ByteBuffer
import AevOS.Runs

/-! What one TCP connection makes of its peer's byte stream. -/

namespace AevOS.Tcp
open Wire Buffer Runs List
open Stack
open UInt32 (ofNat ofNat_add)

structure Connection where
  stack : Stack
  sock : Fin tcpMaxSockets
  inUse : (stack.sockets sock).inUse = true
  established : (stack.sockets sock).state = .established
  found : ∀ seg, fromPeer (stack.sockets sock) seg = true → stack.findSocket seg = some sock
  /-- What `tcp_recv` has returned so far. -/
  returned : Bytes

namespace Connection

def socket (c : Connection) : TcpSocket := c.stack.sockets c.sock
def copied (c : Connection) : Nat := c.returned.length+c.socket.rx.bytes.length
def Fresh (c : Connection) : Prop := c.returned = [] ∧ c.socket.rx.bytes = []

def segment (c : Connection) (seq : UInt32) (flags : UInt8) (payload : Bytes) : Segment :=
  ⟨c.socket.remoteIp,c.socket.remotePort,c.socket.localPort,seq,flags,payload⟩

theorem segment_fromPeer (c : Connection) (seq : UInt32) (flags : UInt8) (payload : Bytes) :
    fromPeer c.socket (c.segment seq flags payload) = true := by
  simp [fromPeer,segment]

end Connection

def SameKey (s t : TcpSocket) : Prop :=
  t.inUse = s.inUse ∧ t.state = s.state ∧ t.localPort = s.localPort ∧
    t.remoteIp = s.remoteIp ∧ t.remotePort = s.remotePort

variable {s t : TcpSocket} {c : Connection}

theorem SameKey.takes (h : SameKey s t) (seg : Segment) : takes t seg = takes s seg := by
  obtain ⟨hu,hs,hl,hi,hp⟩ := h
  simp [Stack.takes,fromPeer,hu,hs,hl,hi,hp]

theorem SameKey.fromPeer (h : SameKey s t) (seg : Segment) : fromPeer t seg = fromPeer s seg := by
  obtain ⟨hu,hs,hl,hi,hp⟩ := h
  simp [Stack.fromPeer,hl,hi,hp]

theorem findSocket_sameKey (st st' : Stack) (i : Fin tcpMaxSockets)
    (hi : SameKey (st.sockets i) (st'.sockets i))
    (ho : ∀ j ≠ i, st'.sockets j = st.sockets j) (seg : Segment) :
    st'.findSocket seg = st.findSocket seg := by
  unfold findSocket
  congr 1
  funext j
  by_cases hj : j = i
  · subst hj
    exact hi.takes seg
  · rw [ho j hj]

theorem recv_established (st : Stack) (i : Fin tcpMaxSockets) (maxLen : Nat) (hu : (st.sockets i).inUse = true)
    (he : (st.sockets i).state = .established) :
    st.recv i.val maxLen = if (st.sockets i).rx.bytes = [] then (.ok [],st)
      else (.ok ((st.sockets i).rx.bytes.take maxLen),st.modify i (fun s =>
        { s with rx := s.rx.pop (min maxLen (st.sockets i).rx.bytes.length) })) := by
  unfold recv
  rw [getTcpSocket_slot,hu]
  have ht : (st.sockets i).rx.bytes.take (min maxLen (st.sockets i).rx.bytes.length) =
      (st.sockets i).rx.bytes.take maxLen := by
    rw [← take_take,take_length]
  simp only [if_true,he,ne_eq,not_true_eq_false,if_false]
  rw [← ht]

theorem drop_min_length (n : Nat) (bs : Bytes) : bs.drop (min n bs.length) = bs.drop n := by
  rcases le_total n bs.length with h | h
  · rw [min_eq_left h]
  · rw [min_eq_right h,drop_length,drop_eq_nil_of_le h]

namespace Connection

def advance (c : Connection) (st : Stack) (hkey : SameKey c.socket (st.sockets c.sock))
    (hother : ∀ j ≠ c.sock, st.sockets j = c.stack.sockets j) (more : Bytes) : Connection where
  stack := st
  sock := c.sock
  inUse := hkey.1.trans c.inUse
  established := hkey.2.1.trans c.established
  found := by
    intro seg hs
    rw [findSocket_sameKey c.stack st c.sock hkey hother]
    exact c.found seg (hkey.fromPeer seg ▸ hs)
  returned := c.returned ++ more

section
variable (c : Connection) (seq : UInt32) (maxLen : Nat) (flags : UInt8) (payload : Bytes)
    (hfin : flags &&& tcpFin = 0)

section
variable (hfin : flags &&& tcpFin = 0)
include hfin

theorem process_empty : c.stack.process (c.segment seq flags []) = c.stack := by
  unfold process
  rw [c.found _ (c.segment_fromPeer seq flags [])]
  simp [handle,c.established,segment,hfin]

theorem process_data (hp : payload ≠ []) : c.stack.process (c.segment seq flags payload) =
      ((c.stack.modify c.sock (fun s => { s with
        rx := s.rx.push payload
        ack := seq+ofNat payload.length })).sendSegment c.sock tcpAck []).2 := by
  have hpos : 0 < payload.length := length_pos_of_ne_nil hp
  unfold process
  rw [c.found _ (c.segment_fromPeer seq flags payload)]
  simp [handle,c.established,segment,hfin,hpos]

theorem process_key :
    SameKey c.socket ((c.stack.process (c.segment seq flags payload)).sockets c.sock) := by
  by_cases hp : payload = []
  · subst hp
    rw [process_empty c seq flags hfin]
    exact ⟨rfl,rfl,rfl,rfl,rfl⟩
  · rw [process_data c seq flags payload hfin hp]
    simp [SameKey,socket]

theorem process_rx : ((c.stack.process (c.segment seq flags payload)).sockets c.sock).rx.bytes =
    c.socket.rx.bytes ++ payload.take c.socket.rx.space := by
  by_cases hp : payload = []
  · subst hp
    rw [process_empty c seq flags hfin]
    simp [socket]
  · rw [process_data c seq flags payload hfin hp]
    simp [socket]

end

theorem process_kept : ∀ j ≠ c.sock, (c.stack.process (c.segment seq flags payload)).sockets j =
    c.stack.sockets j := by
  intro j hj
  apply process_other
  rw [c.found _ (c.segment_fromPeer seq flags payload)]
  simpa using Ne.symm hj

def arrive (c : Connection) (seq : UInt32) (flags : UInt8) (payload : Bytes)
    (hfin : flags &&& tcpFin = 0) : Connection :=
  c.advance (c.stack.process (c.segment seq flags payload)) (c.process_key seq flags payload hfin)
    (c.process_kept seq flags payload) []

@[simp] theorem arrive_returned : (c.arrive seq flags payload hfin).returned = c.returned :=
  append_nil _

theorem arrive_rx : (c.arrive seq flags payload hfin).socket.rx.bytes =
    c.socket.rx.bytes ++ payload.take c.socket.rx.space :=
  c.process_rx seq flags payload hfin

theorem arrive_copied : (c.arrive seq flags payload hfin).copied =
    c.copied+min c.socket.rx.space payload.length := by
  simp [copied,arrive_rx,add_assoc]

theorem arrive_sent (hp : payload ≠ []) : (c.arrive seq flags payload hfin).stack.sent = c.stack.sent ++
    [⟨c.socket.remoteIp,c.socket.localPort,c.socket.remotePort,c.socket.seq,
      seq+ofNat payload.length,tcpAck,[]⟩] := by
  simp only [arrive,advance]
  rw [process_data c seq flags payload hfin hp]
  simp [sendSegment,socket]

theorem recv_eq : c.stack.recv c.sock.val maxLen = if c.socket.rx.bytes = [] then (.ok [],c.stack)
      else (.ok (c.socket.rx.bytes.take maxLen),c.stack.modify c.sock (fun s =>
        { s with rx := s.rx.pop (min maxLen c.socket.rx.bytes.length) })) :=
  recv_established c.stack c.sock maxLen c.inUse c.established

theorem recv_key : SameKey c.socket ((c.stack.recv c.sock.val maxLen).2.sockets c.sock) := by
  rw [recv_eq]
  split <;> simp [SameKey,socket]

theorem recv_kept : ∀ j ≠ c.sock, (c.stack.recv c.sock.val maxLen).2.sockets j = c.stack.sockets j := by
  intro j hj
  rw [recv_eq]
  split <;> simp [hj]

def got : Except Errno Bytes → Bytes
  | .ok bs => bs
  | .error _ => []

def read (c : Connection) (maxLen : Nat) : Connection :=
  c.advance (c.stack.recv c.sock.val maxLen).2 (c.recv_key maxLen) (c.recv_kept maxLen)
    (got (c.stack.recv c.sock.val maxLen).1)

theorem read_bytes : (c.read maxLen).returned ++ (c.read maxLen).socket.rx.bytes =
    c.returned ++ c.socket.rx.bytes := by
  have hm : got (c.stack.recv c.sock.val maxLen).1 ++
      ((c.stack.recv c.sock.val maxLen).2.sockets c.sock).rx.bytes = c.socket.rx.bytes := by
    rw [recv_eq]
    split
    · simp [got,socket]
    · simp only [got,modify_self,RxBuf.pop_bytes]
      rw [show c.stack.sockets c.sock = c.socket from rfl,drop_min_length,take_append_drop]
  calc _ = c.returned ++ (got (c.stack.recv c.sock.val maxLen).1 ++
        ((c.stack.recv c.sock.val maxLen).2.sockets c.sock).rx.bytes) := append_assoc ..
    _ = _ := by rw [hm]

theorem read_copied : (c.read maxLen).copied = c.copied := by
  simpa [copied] using congrArg List.length (c.read_bytes maxLen)

theorem read_sent : (c.read maxLen).stack.sent = c.stack.sent := by
  simp only [read,advance]
  rw [recv_eq]
  split <;> simp

end

end Connection

inductive Event where
  | data (off : Nat) (len : UInt16) (flags : UInt8) (hfin : flags &&& tcpFin = 0)
  | recv (maxLen : Nat)

namespace Connection

def step (stream : Buf) (isn : UInt32) (c : Connection) : Event → Connection
  | .data off len flags hfin =>
    c.arrive (isn+ofNat off) flags (get stream off len.toNat) hfin
  | .recv maxLen => c.read maxLen

def Tracks (stream : Buf) (c : Connection) : Prop :=
  c.returned ++ c.socket.rx.bytes = get stream 0 c.copied

def Delivered (stream : Buf) (c : Connection) : Prop :=
  c.returned = get stream 0 c.returned.length

theorem Fresh.tracks (h : c.Fresh) (stream : Buf) : Tracks stream c := by
  simp [Tracks,copied,h.1,h.2,Buffer.get,ArrayPrefix.firsts]

theorem Tracks.delivered {stream : Buf} (h : Tracks stream c) : Delivered stream c := by
  have ht := congrArg (take c.returned.length) h
  have hle : c.returned.length ≤ c.copied := Nat.le_add_right ..
  rwa [take_left,get_take stream 0 hle] at ht

def InSequence (c : Connection) : Event → Prop
  | .data off len _ _ => len ≠ 0 → 0 < c.socket.rx.space → off = c.copied
  | .recv _ => True

theorem step_tracks (stream : Buf) (isn : UInt32) (c : Connection) (e : Event)
    (h : Tracks stream c) (hseq : c.InSequence e) : Tracks stream (step stream isn c e) := by
  cases e with
  | data off len flags hfin =>
    simp only [Tracks,step,arrive_returned,arrive_rx,arrive_copied,get_length]
    have hnew : (get stream off len.toNat).take c.socket.rx.space =
        get stream c.copied (min c.socket.rx.space len.toNat) := by
      by_cases hc : min c.socket.rx.space len.toNat = 0
      · rw [hc]
        apply eq_nil_of_length_eq_zero
        simpa using hc
      have hlen : len ≠ 0 := by
        rintro rfl
        simp at hc
      rw [hseq hlen (by omega),← get_take stream c.copied (min_le_right ..)]
      rcases le_total c.socket.rx.space len.toNat with hle | hle
      · rw [min_eq_left hle]
      · rw [min_eq_right hle,take_of_length_le (by simpa using hle),take_of_length_le (by simp)]
    rw [hnew,← append_assoc,h,get_append,zero_add]
  | recv maxLen =>
    simp only [Tracks,step,read_bytes,read_copied]
    exact h

theorem run_delivered (stream : Buf) (isn : UInt32) (c : Connection) (es : List Event)
    (hfresh : c.Fresh) (hseq : Along (step stream isn) InSequence c es) :
    ∀ done rest, es = done ++ rest → Delivered stream (run (step stream isn) c done) := by
  intro done rest he
  exact (along_invariant (step stream isn) (step_tracks stream isn) (hfresh.tracks stream) hseq
    done rest he).delivered

end Connection

def accepted : Stack := (Stack.init (some 0x0A000001) []).create.2.acceptPeer 0

theorem tcpMaxSockets_pos : 0 < tcpMaxSockets := by decide

def acceptedConnection : Connection where
  stack := accepted
  sock := ⟨0,tcpMaxSockets_pos⟩
  inUse := by decide +kernel
  established := by decide +kernel
  found := by
    intro seg hs
    have hs : fromPeer (accepted.sockets 0) seg = true := hs
    have hu : (accepted.sockets 0).inUse = true := by decide +kernel
    rw [findSocket_some]
    refine ⟨?_,fun j hj => absurd hj (Fin.not_lt_zero j)⟩
    simp [takes,hu,hs]
  returned := []

theorem acceptedConnection_fresh : acceptedConnection.Fresh :=
  ⟨rfl,by decide +kernel⟩

namespace Connection

def counting : Buf := fun k => UInt8.ofNat k

theorem run_delivered_counting : Delivered counting (run (step counting 501) acceptedConnection
    [.data 0 2 tcpAck (by decide),.recv 1,.data 2 1 tcpAck (by decide),.recv 4]) := by
  refine run_delivered counting 501 acceptedConnection _ acceptedConnection_fresh ?_ _ []
    (append_nil _).symm
  refine ⟨fun _ _ => ?_,trivial,fun _ _ => ?_,trivial,trivial⟩ <;> decide +kernel

theorem duplicate_delivered : (run (step counting 501) acceptedConnection
      [.data 0 1 tcpAck (by decide),.data 0 1 tcpAck (by decide),.recv 2]).returned = [0,0] ∧
    ¬ Delivered counting (run (step counting 501) acceptedConnection
      [.data 0 1 tcpAck (by decide),.data 0 1 tcpAck (by decide),.recv 2]) := by
  unfold Delivered
  exact ⟨by decide +kernel,by decide +kernel⟩

def SeqLe (a b : UInt32) : Prop := (b-a).toNat < 2^31

/-- No acknowledgement goes beyond what was copied for the reader. -/
def AcksCopied (stream : Buf) (isn : UInt32) (c : Connection) (e : Event) : Prop :=
  ∀ out ∈ (step stream isn c e).stack.sent.drop c.stack.sent.length,
    SeqLe out.ack (isn+ofNat (step stream isn c e).copied)

def FitsBuffer (c : Connection) : Event → Prop
  | .data _ len _ _ => len.toNat ≤ c.socket.rx.space
  | .recv _ => True

def InOrder : Nat → List Event → Prop
  | _, [] => True
  | next, .data off len _ _ :: es => off = next ∧ InOrder (next+len.toNat) es
  | next, .recv _ :: es => InOrder next es

theorem seqLe_sub_iff (a : UInt32) (n d : Nat) (hd : d < 2^16) :
    SeqLe (a+ofNat (n+d)) (a+ofNat n) ↔ d = 0 := by
  have hsub : a+ofNat n-(a+ofNat (n+d)) = 0-ofNat d := by
    rw [ofNat_add]
    grind
  rw [SeqLe,hsub,UInt32.toNat_sub,UInt32.toNat_ofNat']
  simp only [UInt32.toNat_zero]
  omega

theorem acksCopied_iff (stream : Buf) (isn : UInt32) (c : Connection) (e : Event)
    (hn : ∀ off len flags hfin, e = .data off len flags hfin → off = c.copied) :
    AcksCopied stream isn c e ↔ c.FitsBuffer e := by
  cases e with
  | data off len flags hfin =>
    have hoff : off = c.copied := hn off len flags hfin rfl
    subst hoff
    by_cases hlen : len.toNat = 0
    · have he : get stream c.copied len.toNat = [] := by
        apply eq_nil_of_length_eq_zero
        simpa using hlen
      simp only [AcksCopied,step,FitsBuffer,he,arrive,advance,process_empty c _ flags hfin]
      simp [hlen]
    have hne : get stream c.copied len.toNat ≠ [] := by
      intro h
      apply hlen
      simpa using congrArg List.length h
    have hlt := len.toNat_lt
    have hd : len.toNat = min c.socket.rx.space len.toNat +
        (len.toNat-c.socket.rx.space) := by omega
    have hseq := seqLe_sub_iff isn (c.copied+min c.socket.rx.space len.toNat)
      (len.toNat-c.socket.rx.space) (by omega)
    rw [add_assoc,← hd] at hseq
    simp only [AcksCopied,step,FitsBuffer,arrive_sent c _ flags _ hfin hne,drop_left,
      mem_singleton,forall_eq,get_length,arrive_copied,UInt32.add_assoc,
      ← ofNat_add]
    rw [hseq]
    omega
  | recv maxLen => simp [AcksCopied,step,FitsBuffer,read_sent]

theorem along_acksCopied_iff (stream : Buf) (isn : UInt32) (c : Connection) (es : List Event)
    (hin : InOrder c.copied es) :
    Along (step stream isn) (AcksCopied stream isn) c es ↔ Along (step stream isn) FitsBuffer c es := by
  induction es generalizing c with
  | nil => rfl
  | cons e es ih =>
    have hn : ∀ off len flags hfin, e = .data off len flags hfin → off = c.copied := by
      rintro off len flags hfin rfl
      exact hin.1
    simp only [Along]
    rw [acksCopied_iff stream isn c e hn]
    apply and_congr_right
    intro hf
    apply ih
    -- a segment that fits is copied whole, so the next one continues the copied bytes
    cases e with
    | data off len flags hfin =>
      have hc : (step stream isn c (.data off len flags hfin)).copied = c.copied+len.toNat := by
        simp only [step,arrive_copied,get_length]
        rw [min_eq_right hf]
      rw [hc]
      exact hin.2
    | recv maxLen =>
      simp only [step,read_copied]
      exact hin

theorem run_acks_iff (stream : Buf) (isn : UInt32) (c : Connection) (es : List Event)
    (hin : InOrder c.copied es) :
    Along (step stream isn) (AcksCopied stream isn) c es ↔ Along (step stream isn) FitsBuffer c es :=
  along_acksCopied_iff stream isn c es hin

theorem run_acks_counting : Along (step counting 501) (AcksCopied counting 501) acceptedConnection
    [.data 0 2 tcpAck (by decide),.recv 1,.data 2 1 tcpAck (by decide)] := by
  refine (run_acks_iff counting 501 acceptedConnection _ ?_).mpr ?_
  · exact ⟨by decide +kernel,by decide +kernel,trivial⟩
  refine ⟨?_,trivial,?_,trivial⟩
  · show _ ≤ RxBuf.space _
    decide +kernel
  · show _ ≤ RxBuf.space _
    decide +kernel

def fullSegment (k : Nat) : Event := .data (1460*k) 1460 tcpAck (by decide)

theorem overflow_acknowledged : InOrder 0 ((List.range 6).map fullSegment) ∧
    (run (step counting 501) acceptedConnection ((List.range 6).map fullSegment)).copied = 8192 ∧
    ((run (step counting 501) acceptedConnection
      ((List.range 6).map fullSegment)).stack.sent.getLast?.map Sent.ack) = some (501+8760) ∧
    ¬ Along (step counting 501) (AcksCopied counting 501) acceptedConnection
      ((List.range 6).map fullSegment) := by
  have hin : InOrder 0 ((List.range 6).map fullSegment) := by
    simp [List.range,List.range.loop,fullSegment,InOrder]
  refine ⟨hin,by decide +kernel,by decide +kernel,?_⟩
  rw [along_acksCopied_iff counting 501 acceptedConnection _ (by
    exact hin)]
  have hfull : ¬ (1460 : UInt16).toNat ≤ (run (step counting 501) acceptedConnection
      ((List.range 5).map fullSegment)).socket.rx.space := by decide +kernel
  exact fun h => hfull h.2.2.2.2.2.1

end Connection

def drain (st : Stack) (i : Fin tcpMaxSockets) : List Nat → Bytes
  | [] => []
  | n :: ns => Connection.got (st.recv i.val n).1 ++ drain (st.recv i.val n).2 i ns

def Readable (s : TcpSocket) : Prop := s.inUse = true ∧ s.state = .established

section
variable (st : Stack) (i : Fin tcpMaxSockets) (ns : List Nat) (seg : Segment)

theorem recv_unreadable (n : Nat) (h : ¬ Readable (st.sockets i)) :
    st.recv i.val n = (.error .einval,st) := by
  unfold recv
  rw [getTcpSocket_slot]
  cases hu : (st.sockets i).inUse with
  | false => simp
  | true =>
    have hs : (st.sockets i).state ≠ .established := fun hs => h ⟨hu,hs⟩
    simp [hs]

theorem drain_unreadable (h : ¬ Readable (st.sockets i)) : drain st i ns = [] := by
  induction ns with
  | nil => rfl
  | cons n ns ih => simp [drain,recv_unreadable st i n h,Connection.got,ih]

theorem recv_readable (n : Nat) (h : Readable (st.sockets i)) : Readable ((st.recv i.val n).2.sockets i) ∧
    Connection.got (st.recv i.val n).1 = (st.sockets i).rx.bytes.take n ∧
    ((st.recv i.val n).2.sockets i).rx.bytes = (st.sockets i).rx.bytes.drop n := by
  rw [recv_established st i n h.1 h.2]
  split
  · rename_i hrx
    simp [hrx,Connection.got,h]
  · simp [Connection.got,Readable,h.1,h.2,drop_min_length]

theorem drain_length_le (h : Readable (st.sockets i)) :
    (drain st i ns).length ≤ (st.sockets i).rx.bytes.length := by
  induction ns generalizing st with
  | nil => simp [drain]
  | cons n ns ih =>
    obtain ⟨hr,hgot,hrs⟩ := recv_readable st i n h
    have := ih _ hr
    rw [hrs] at this
    simp only [drain,hgot,length_append,length_take,length_drop] at this ⊢
    omega

theorem drain_all (h : Readable (st.sockets i)) :
    drain st i [(st.sockets i).rx.bytes.length] = (st.sockets i).rx.bytes := by
  simp [drain,(recv_readable st i _ h).2.1]

def CompletesHandshake (s : TcpSocket) (seg : Segment) : Prop :=
  (s.state = .synSent ∧ seg.flags &&& (tcpSyn ||| tcpAck) = tcpSyn ||| tcpAck) ∨
    (s.state = .synReceived ∧ seg.flags &&& tcpAck ≠ 0)

theorem handle_fin_rx (hfin : seg.flags &&& tcpFin ≠ 0) :
    ((st.handle i seg).sockets i).rx = (st.sockets i).rx := by
  unfold handle
  split <;> (try split) <;> (try split) <;> simp_all

theorem handle_fin_readable (hfin : seg.flags &&& tcpFin ≠ 0) (hu : (st.sockets i).inUse = true) :
    Readable ((st.handle i seg).sockets i) ↔ CompletesHandshake (st.sockets i) seg := by
  unfold Readable CompletesHandshake handle
  cases hs : (st.sockets i).state <;> simp only [reduceCtorEq,false_and,false_or,or_false,true_and]
  all_goals (try split) <;> (try split) <;> simp_all

end

def FinKeepsData (st : Stack) (i : Fin tcpMaxSockets) (seg : Segment) : Prop :=
  ∃ ns, drain (st.process seg) i ns = (st.sockets i).rx.bytes ++ seg.payload

theorem finKeepsData_iff (st : Stack) (i : Fin tcpMaxSockets) (seg : Segment)
    (hconn : Connected (st.sockets i) seg) (hfound : st.findSocket seg = some i)
    (hfin : seg.flags &&& tcpFin ≠ 0) :
    FinKeepsData st i seg ↔ seg.payload = [] ∧
      ((st.sockets i).rx.bytes = [] ∨ CompletesHandshake (st.sockets i) seg) := by
  have hproc : st.process seg = st.handle i seg := by simp [process,hfound]
  have hrx := handle_fin_rx st i seg hfin
  have hread := handle_fin_readable st i seg hfin hconn.1
  rw [FinKeepsData,hproc,← hread,← hrx]
  by_cases h : Readable ((st.handle i seg).sockets i)
  · simp only [h,or_true,and_true]
    constructor
    · rintro ⟨ns,hns⟩
      have := drain_length_le _ i ns h
      rw [hns,length_append] at this
      exact eq_nil_of_length_eq_zero (by omega)
    · intro hp
      rw [hp,append_nil]
      exact ⟨_,drain_all _ i h⟩
  · simp only [h,or_false,drain_unreadable _ i _ h,exists_const]
    rw [eq_comm,append_eq_nil_iff]
    exact And.comm

theorem finKeepsData_accepted : FinKeepsData accepted 0 (peerSegment (tcpFin ||| tcpAck) []) :=
  (finKeepsData_iff accepted 0 (peerSegment (tcpFin ||| tcpAck) []) (by decide +kernel)
    (by decide +kernel) (by decide +kernel)).mpr ⟨rfl,.inl (by decide +kernel)⟩

def buffered : Stack := accepted.process (peerSegment tcpAck [7,8])

theorem fin_loses_data : (buffered.sockets 0).rx.bytes = [7,8] ∧
    ((buffered.process (peerSegment (tcpFin ||| tcpAck) [])).recv 0 2).1 = .error .einval ∧
    ¬ FinKeepsData buffered 0 (peerSegment (tcpFin ||| tcpAck) []) := by
  have hlost : ¬ Readable ((buffered.process (peerSegment (tcpFin ||| tcpAck) [])).sockets 0) := by
    unfold Readable
    decide +kernel
  have hrx : (buffered.sockets 0).rx.bytes = [7,8] := by decide +kernel
  refine ⟨hrx,?_,?_⟩
  · exact congrArg Prod.fst (recv_unreadable _ 0 2 hlost)
  · rintro ⟨ns,hns⟩
    rw [drain_unreadable _ 0 ns hlost,hrx] at hns
    cases hns

end AevOS.Tcp
