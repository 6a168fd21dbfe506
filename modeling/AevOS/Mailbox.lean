import AevOS.Common
import AevOS.Runs
import AevOS.RingWindow
import AevOS.ByteBuffer

/-! The mailbox of `agent/mailbox.c`: a ring of messages, and the bounded queue it is. -/

namespace AevOS.Mail
open Wire ArrayPrefix RingWindow Buffer Runs List

def mailboxCap : Nat := 256
def mailboxMsgMax : Nat := 512
def mailboxToAny : UInt64 := 0

structure MailboxMsg where
  body : Buf
  len : Nat
  fromAgent : UInt64
  toAgent : UInt64

structure Mailbox where
  ring : Nat → MailboxMsg
  head : Nat
  count : Nat

def mailboxInit : Mailbox := ⟨fun _ => ⟨zeros,0,0,0⟩,0,0⟩

def mailboxSend (mb : Mailbox) (fromAgent toAgent : UInt64) (data : Option Bytes) : Int × Mailbox :=
  match data with
  | none => (-einval,mb)
  | some data =>
    if data.length = 0 then (-einval,mb)
    else
      let len := if data.length > mailboxMsgMax-1 then mailboxMsgMax-1 else data.length
      let slot := (mb.head+mb.count)%mailboxCap
      let body := put (put (mb.ring slot).body 0 (data.take len)) len [0]
      let ring := setAt mb.ring slot ⟨body,len,fromAgent,toAgent⟩
      if mb.count < mailboxCap then (0,⟨ring,mb.head,mb.count+1⟩)
      else (0,⟨ring,(mb.head+1)%mailboxCap,mb.count⟩)

def mailboxBroadcast (mb : Mailbox) (fromAgent : UInt64) (data : Option Bytes) : Int × Mailbox :=
  mailboxSend mb fromAgent mailboxToAny data

abbrev Received := Int × Option MailboxMsg

def mailboxTryRecv (mb : Mailbox) (out : Bool) : Received × Mailbox :=
  if !out then ((-einval,none),mb)
  else if mb.count = 0 then ((-enoent,none),mb)
  else ((0,some (mb.ring mb.head)),⟨mb.ring,(mb.head+1)%mailboxCap,mb.count-1⟩)

def MailboxMsg.reaches (agent : UInt64) (m : MailboxMsg) : Bool :=
  m.toAgent == mailboxToAny || m.toAgent == agent

def mailboxTryRecvFor (mb : Mailbox) (forAgent : UInt64) (out : Bool) : Received × Mailbox :=
  if !out then ((-einval,none),mb)
  else if mb.count = 0 then ((-enoent,none),mb)
  else
    match findFirst (MailboxMsg.reaches forAgent) mb.count
        (fun i => mb.ring ((mb.head+i)%mailboxCap)) with
    | none => ((-enoent,none),mb)
    | some off =>
      ((0,some (mb.ring ((mb.head+off)%mailboxCap))),
        ⟨shiftRing mailboxCap mb.head (mb.count-1-off) off mb.ring,mb.head,mb.count-1⟩)

inductive Call where
  | send (fromAgent toAgent : UInt64) (data : Option Bytes)
  | broadcast (fromAgent : UInt64) (data : Option Bytes)
  | tryRecv (out : Bool)
  | tryRecvFor (forAgent : UInt64) (out : Bool)

def step (mb : Mailbox) : Call → Received × Mailbox
  | .send f t data => (((mailboxSend mb f t data).1,none),(mailboxSend mb f t data).2)
  | .broadcast f data => (((mailboxBroadcast mb f data).1,none),(mailboxBroadcast mb f data).2)
  | .tryRecv out => mailboxTryRecv mb out
  | .tryRecvFor agent out => mailboxTryRecvFor mb agent out

structure Letter where
  fromAgent : UInt64
  toAgent : UInt64
  text : Bytes
  deriving DecidableEq

namespace Queue

def post (q : List Letter) (l : Letter) : List Letter :=
  if q.length < mailboxCap then q ++ [l] else q.tail ++ [l]

def send (q : List Letter) (fromAgent toAgent : UInt64) (data : Option Bytes) : Int × List Letter :=
  match data with
  | none => (-einval,q)
  | some [] => (-einval,q)
  | some data => (0,post q ⟨fromAgent,toAgent,data.take (mailboxMsgMax-1)⟩)

def receive (q : List Letter) (out : Bool) (wanted : Letter → Bool) : (Int × Option Letter) × List Letter :=
  if !out then ((-einval,none),q)
  else
    match q.find? wanted with
    | none => ((-enoent,none),q)
    | some l => ((0,some l),q.eraseP wanted)

def step (q : List Letter) : Call → (Int × Option Letter) × List Letter
  | .send f t data => (((send q f t data).1,none),(send q f t data).2)
  | .broadcast f data => (((send q f 0 data).1,none),(send q f 0 data).2)
  | .tryRecv out => receive q out (fun _ => true)
  | .tryRecvFor agent out => receive q out (fun l => l.toAgent == 0 || l.toAgent == agent)

end Queue

def MailboxMsg.letter (m : MailboxMsg) : Letter := ⟨m.fromAgent,m.toAgent,get m.body 0 m.len⟩
def Mailbox.messages (mb : Mailbox) : List MailboxMsg := window mailboxCap mb.ring mb.head mb.count
def Mailbox.contents (mb : Mailbox) : List Letter := mb.messages.map MailboxMsg.letter
def MailboxMsg.Sealed (m : MailboxMsg) : Prop := m.len < mailboxMsgMax ∧ m.body m.len = 0

structure Stands (mb : Mailbox) (q : List Letter) : Prop where
  head_lt : mb.head < mailboxCap
  count_le : mb.count ≤ mailboxCap
  contents : mb.contents = q
  closed : ∀ m ∈ mb.messages, m.Sealed

theorem mailboxInit_stands : Stands mailboxInit [] :=
  ⟨by decide,by decide,rfl,by simp [Mailbox.messages,mailboxInit,window,firsts]⟩

section
variable {mb : Mailbox} {q : List Letter}

theorem Stands.length (h : Stands mb q) : q.length = mb.count := by
  rw [← h.contents]
  simp [Mailbox.contents,Mailbox.messages]

theorem written_letter (b : Buf) (text : Bytes) (f t : UInt64) (h : text.length < mailboxMsgMax) :
    let m : MailboxMsg := ⟨put (put b 0 text) text.length [0],text.length,f,t⟩
    m.letter = ⟨f,t,text⟩ ∧ m.Sealed := by
  refine ⟨?_,h,?_⟩
  · simp only [MailboxMsg.letter,Letter.mk.injEq,true_and]
    rw [get_put_outside (.inl (by omega)),get_put_self]
  · change put (put b 0 text) text.length [0] text.length = 0
    rw [put_inside (by omega) (by simp)]
    simp [byteAt]

theorem Stands.post (h : Stands mb q) {m : MailboxMsg} {l : Letter} (hl : m.letter = l) (hm : m.Sealed) :
    Stands (if mb.count < mailboxCap then ⟨setAt mb.ring ((mb.head+mb.count)%mailboxCap) m,mb.head,mb.count+1⟩
      else ⟨setAt mb.ring ((mb.head+mb.count)%mailboxCap) m,(mb.head+1)%mailboxCap,mb.count⟩)
      (Queue.post q l) := by
  have hcap : mailboxCap = 256 := rfl
  rw [Queue.post,h.length]
  split
  · rename_i hlt
    have hw : window mailboxCap (setAt mb.ring ((mb.head+mb.count)%mailboxCap) m) mb.head (mb.count+1) =
      mb.messages ++ [m] := window_pushBack m hlt
    refine ⟨h.head_lt,hlt,?_,?_⟩
    · rw [Mailbox.contents,Mailbox.messages,hw,map_append,← Mailbox.contents,h.contents,
        map_singleton,hl]
    · rw [Mailbox.messages,hw]
      simpa [or_imp,forall_and] using ⟨h.closed,hm⟩
  have hf : mb.count = mailboxCap := le_antisymm h.count_le (by omega)
  -- the slot behind the newest message is that of the oldest one
  have hs : (mb.head+mb.count)%mailboxCap = mb.head%mailboxCap := by
    rw [hf,Nat.add_mod_right]
  have hc : mb.count = 255+1 := by omega
  have hw : window mailboxCap (setAt mb.ring ((mb.head+mb.count)%mailboxCap) m)
      ((mb.head+1)%mailboxCap) mb.count = mb.messages.tail ++ [m] := by
    rw [window_congr_tail _ _ (Nat.mod_mod _ _),Mailbox.messages,hs,hc]
    exact window_replace m rfl
  refine ⟨Nat.mod_lt _ (by omega),h.count_le,?_,?_⟩
  · rw [Mailbox.contents,Mailbox.messages,hw,map_append,map_tail,← Mailbox.contents,h.contents,
      map_singleton,hl]
  rw [Mailbox.messages,hw]
  intro x hx
  rcases mem_append.mp hx with hx | hx
  · exact h.closed x (mem_of_mem_tail hx)
  · rw [mem_singleton.mp hx]
    exact hm

theorem Stands.send (h : Stands mb q) (f t : UInt64) (data : Option Bytes) :
    (mailboxSend mb f t data).1 = (Queue.send q f t data).1 ∧
      Stands (mailboxSend mb f t data).2 (Queue.send q f t data).2 := by
  cases data with
  | none => exact ⟨rfl,h⟩
  | some data =>
    cases data with
    | nil => exact ⟨rfl,h⟩
    | cons c data =>
      have hcut : (if (c :: data).length > mailboxMsgMax-1 then mailboxMsgMax-1 else (c :: data).length) =
          ((c :: data).take (mailboxMsgMax-1)).length := cut_length Iff.rfl
      have hlen : ((c :: data).take (mailboxMsgMax-1)).length < mailboxMsgMax := by
        have hmax : mailboxMsgMax = 512 := rfl
        rw [length_take]
        omega
      have hm := written_letter (mb.ring ((mb.head+mb.count)%mailboxCap)).body
        ((c :: data).take (mailboxMsgMax-1)) f t hlen
      have hp := h.post hm.1 hm.2
      unfold mailboxSend Queue.send
      dsimp only
      rw [if_neg (by simp),hcut,take_cut]
      split
      · rename_i hlt
        rw [if_pos hlt] at hp
        exact ⟨rfl,hp⟩
      · rename_i hge
        rw [if_neg hge] at hp
        exact ⟨rfl,hp⟩

theorem Stands.tryRecv (h : Stands mb q) (out : Bool) :
    Prod.map id (Option.map MailboxMsg.letter) (mailboxTryRecv mb out).1 =
        (Queue.receive q out (fun _ => true)).1 ∧
      Stands (mailboxTryRecv mb out).2 (Queue.receive q out (fun _ => true)).2 := by
  unfold mailboxTryRecv Queue.receive
  cases out with
  | false => exact ⟨rfl,h⟩
  | true =>
    by_cases hc : mb.count = 0
    · have hq : q = [] := eq_nil_of_length_eq_zero (h.length.trans hc)
      subst hq
      simpa [hc] using h
    obtain ⟨n,hn⟩ : ∃ n, mb.count = n+1 := ⟨mb.count-1,by omega⟩
    have hcn : mb.messages = mb.ring mb.head :: window mailboxCap mb.ring (mb.head+1) n := by
      rw [Mailbox.messages,hn,window_cons,Nat.mod_eq_of_lt h.head_lt]
    have hq : q = (mb.ring mb.head).letter ::
        (window mailboxCap mb.ring (mb.head+1) n).map MailboxMsg.letter := by
      rw [← h.contents,Mailbox.contents,hcn,map_cons]
    have hw : window mailboxCap mb.ring ((mb.head+1)%mailboxCap) (mb.count-1) =
        window mailboxCap mb.ring (mb.head+1) n := by
      rw [hn]
      exact window_congr_tail _ _ (Nat.mod_mod _ _)
    have hcl := h.closed
    rw [hcn] at hcl
    subst hq
    simp only [Bool.not_true,Bool.false_eq_true,if_false,hc,find?_cons_of_pos,eraseP_cons_of_pos]
    refine ⟨rfl,Nat.mod_lt _ (by decide),le_trans (Nat.sub_le _ _) h.count_le,?_,?_⟩
    · rw [Mailbox.contents,Mailbox.messages,hw]
    · rw [Mailbox.messages,hw]
      exact fun m hm => hcl m (mem_cons_of_mem _ hm)

theorem find_letter (ms : List MailboxMsg) (agent : UInt64) :
    (ms.map MailboxMsg.letter).find? (fun l => l.toAgent == 0 || l.toAgent == agent) =
        (ms.find? (MailboxMsg.reaches agent)).map MailboxMsg.letter ∧
      (ms.map MailboxMsg.letter).eraseP (fun l => l.toAgent == 0 || l.toAgent == agent) =
        (ms.eraseP (MailboxMsg.reaches agent)).map MailboxMsg.letter :=
  ⟨find?_map,eraseP_map⟩

theorem Stands.tryRecvFor (h : Stands mb q) (agent : UInt64) (out : Bool) :
    Prod.map id (Option.map MailboxMsg.letter) (mailboxTryRecvFor mb agent out).1 =
        (Queue.receive q out (fun l => l.toAgent == 0 || l.toAgent == agent)).1 ∧
      Stands (mailboxTryRecvFor mb agent out).2
        (Queue.receive q out (fun l => l.toAgent == 0 || l.toAgent == agent)).2 := by
  have hfn := find_letter mb.messages agent
  rw [← Mailbox.contents,h.contents] at hfn
  unfold mailboxTryRecvFor Queue.receive
  rw [hfn.1,hfn.2]
  cases out with
  | false => exact ⟨rfl,h⟩
  | true =>
    by_cases hc : mb.count = 0
    · have hq : mb.messages = [] := by simp [Mailbox.messages,hc,window,firsts]
      simpa [hc,hq] using h
    simp only [Bool.not_true,Bool.false_eq_true,if_false,hc]
    cases hf : findFirst (MailboxMsg.reaches agent) mb.count
        (fun i => mb.ring ((mb.head+i)%mailboxCap)) with
    | none =>
      have hn : mb.messages.find? (MailboxMsg.reaches agent) = none :=
        find?_eq_none.mpr fun m hm => by simp [findFirst_none hf m hm]
      rw [hn]
      exact ⟨rfl,h⟩
    | some off =>
      have hs : mb.messages.find? (MailboxMsg.reaches agent) =
        some (mb.ring ((mb.head+off)%mailboxCap)) := find?_firsts hf
      have hw : window mailboxCap (shiftRing mailboxCap mb.head (mb.count-1-off) off mb.ring) mb.head
          (mb.count-1) = mb.messages.eraseP (MailboxMsg.reaches agent) :=
        (window_shiftRing mb.ring mb.head (findFirst_some hf).1 h.count_le).trans (eraseIdx_firsts hf)
      rw [hs]
      refine ⟨rfl,h.head_lt,le_trans (Nat.sub_le _ _) h.count_le,?_,?_⟩
      · rw [Mailbox.contents,Mailbox.messages,hw]
        rfl
      · rw [Mailbox.messages,hw]
        exact fun m hm => h.closed m (mem_of_mem_eraseP hm)

end

theorem step_simulates (mb : Mailbox) (q : List Letter) (c : Call) (h : Stands mb q) :
    Prod.map id (Option.map MailboxMsg.letter) (step mb c).1 = (Queue.step q c).1 ∧
      Stands (step mb c).2 (Queue.step q c).2 := by
  cases c with
  | send f t data =>
    obtain ⟨hc,hn⟩ := h.send f t data
    exact ⟨by simp [step,Queue.step,hc],hn⟩
  | broadcast f data =>
    obtain ⟨hc,hn⟩ := h.send f mailboxToAny data
    refine ⟨?_,hn⟩
    simp only [step,Queue.step,mailboxBroadcast,hc]
    rfl
  | tryRecv out => exact h.tryRecv out
  | tryRecvFor agent out => exact h.tryRecvFor agent out

theorem mailbox_refines_queue (calls : List Call) :
    (outputs step mailboxInit calls).1.map (Prod.map id (Option.map MailboxMsg.letter)) =
        (outputs Queue.step [] calls).1 ∧
      (outputs step mailboxInit calls).2.contents = (outputs Queue.step [] calls).2 := by
  obtain ⟨houts,hlast⟩ := outputs_simulate step Queue.step step_simulates mailboxInit_stands calls
  exact ⟨houts,hlast.contents⟩

end AevOS.Mail
