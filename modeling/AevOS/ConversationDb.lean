import AevOS.ArrayPrefix
import AevOS.Common

/-! The in-memory conversation database (`aevos_db.c`): sessions, and messages that name their parent.
The answer of `kmalloc` and the time are arguments. -/

namespace AevOS.ConvDb
open Wire ArrayPrefix List

def dbMaxSessions : Nat := 64
def dbMaxMessages : Nat := 4096

structure Text where
  block : Nat
  bytes : Bytes
  deriving DecidableEq

structure IMsg where
  id : UInt64
  sessionId : UInt64
  parentId : UInt64
  timestamp : UInt64
  role : UInt8
  tokenCount : UInt32
  text : Option Text
  textLen : UInt32
  childCount : UInt32
  depth : UInt32
  deriving DecidableEq

def IMsg.block (m : IMsg) : Option Nat := m.text.map Text.block

structure Session where
  sessionId : UInt64
  createdAt : UInt64
  updatedAt : UInt64
  title : Bytes
  messageCount : UInt32
  activeLeafId : UInt64
  deriving DecidableEq

structure Db where
  sessions : Nat → Session
  sessionCount : Nat
  sessionCount_le : sessionCount ≤ dbMaxSessions
  nextSessionId : UInt64
  messages : Nat → IMsg
  messageCount : Nat
  messageCount_le : messageCount ≤ dbMaxMessages
  nextMsgId : UInt64

namespace Db

def sessionList (db : Db) : List Session := firsts db.sessions db.sessionCount
def messageList (db : Db) : List IMsg := firsts db.messages db.messageCount

def opened : Db where
  sessions := fun _ => ⟨0,0,0,[],0,0⟩
  sessionCount := 0
  sessionCount_le := Nat.zero_le _
  nextSessionId := 1
  messages := fun _ => ⟨0,0,0,0,0,0,none,0,0,0⟩
  messageCount := 0
  messageCount_le := Nat.zero_le _
  nextMsgId := 1

def sessionCreate (db : Db) (title : Option Bytes) (now : UInt64) : Except Errno UInt64 × Db :=
  match title with
  | none => (.error .einval,db)
  | some title =>
    if h : db.sessionCount < dbMaxSessions then
      let s : Session := ⟨db.nextSessionId,now,now,title.take 127,0,0⟩
      (.ok s.sessionId,{ db with
        sessions := setAt db.sessions db.sessionCount s
        sessionCount := db.sessionCount+1
        sessionCount_le := h
        nextSessionId := db.nextSessionId+1 })
    else (.error .enospc,db)

def dropMessages (db : Db) (sid : UInt64) : List Nat × Db :=
  let r := compact (fun m => m.sessionId == sid) db.messageCount 0 0 db.messages
  (r.2.2.filterMap IMsg.block,{ db with
    messages := r.1
    messageCount := r.2.1
    messageCount_le := Nat.le_trans (compact_count_le _ _ _) db.messageCount_le })

def sessionDelete (db : Db) (sid : UInt64) : List Nat × Db :=
  let r := db.dropMessages sid
  match findFirst (fun s => s.sessionId == sid) db.sessionCount db.sessions with
  | none => r
  | some i => (r.1,{ r.2 with
      sessions := shiftDown (db.sessionCount-1-i) i db.sessions
      sessionCount := db.sessionCount-1
      sessionCount_le := Nat.le_trans (Nat.sub_le _ _) db.sessionCount_le })

def historyClear (db : Db) (sid : UInt64) : List Nat × Db :=
  let r := db.dropMessages sid
  (r.1,{ r.2 with
    sessions := modifyFirst (fun s => s.sessionId == sid)
      (fun s => { s with messageCount := 0, activeLeafId := 0 }) db.sessionCount db.sessions })

def setActiveLeaf (db : Db) (sid leaf : UInt64) : Option Errno × Db :=
  match findFirst (fun s => s.sessionId == sid) db.sessionCount db.sessions with
  | none => (some .enoent,db)
  | some i =>
    (none,{ db with sessions := setAt db.sessions i { db.sessions i with activeLeafId := leaf } })

def isParent (parentId : UInt64) (m : IMsg) : Bool := parentId != 0 && m.id == parentId

def newDepth (db : Db) (parentId : UInt64) : UInt32 :=
  match findFirst (isParent parentId) db.messageCount db.messages with
  | some i => (db.messages i).depth+1
  | none => 0

def countChild (db : Db) (parentId : UInt64) : Nat → IMsg :=
  modifyFirst (isParent parentId) (fun m => { m with childCount := m.childCount+1 })
    db.messageCount db.messages

structure PushArgs where
  sessionId : UInt64
  parentId : UInt64
  role : UInt8
  text : Option Bytes
  tokenCount : UInt32

def newMessage (db : Db) (args : PushArgs) (text : Text) (now : UInt64) : IMsg where
  id := db.nextMsgId
  sessionId := args.sessionId
  parentId := args.parentId
  timestamp := now
  role := args.role
  tokenCount := args.tokenCount
  text := some text
  textLen := UInt32.ofNat text.bytes.length
  childCount := 0
  depth := db.newDepth args.parentId

def historyPush (db : Db) (args : PushArgs) (now : UInt64) (block : Option Nat) :
    Except Errno UInt64 × Db :=
  match args.text with
  | none => (.error .einval,db)
  | some bytes =>
    if h : db.messageCount < dbMaxMessages then
      match block with
      | none => (.error .enomem,{ db with messages := db.countChild args.parentId })
      | some block =>
        let m := db.newMessage args ⟨block,bytes⟩ now
        (.ok m.id,{ db with
          messages := setAt (db.countChild args.parentId) db.messageCount m
          messageCount := db.messageCount+1
          messageCount_le := h
          nextMsgId := db.nextMsgId+1
          sessions := modifyFirst (fun s => s.sessionId == args.sessionId)
            (fun s => { s with
              updatedAt := now
              messageCount := s.messageCount+1
              activeLeafId := m.id })
            db.sessionCount db.sessions })
    else (.error .enospc,db)

section
variable (db : Db) (sid : UInt64)

theorem dropMessages_list :
    (db.dropMessages sid).2.messageList = db.messageList.filter (fun m => m.sessionId != sid) :=
  (compact_all _ _ _).1

theorem dropMessages_freed : (db.dropMessages sid).1 =
    (db.messageList.filter (fun m => m.sessionId == sid)).filterMap IMsg.block := by
  simp only [dropMessages,messageList]
  rw [(compact_all _ _ _).2]

def blocks (db : Db) : List Nat := db.messageList.filterMap IMsg.block

structure RemovesMessages (db db' : Db) (sid : UInt64) (freed : List Nat) : Prop where
  messages : db'.messageList = db.messageList.filter (fun m => m.sessionId != sid)
  otherSessions : db'.sessionList.filter (fun s => s.sessionId != sid) =
    db.sessionList.filter (fun s => s.sessionId != sid)
  freedTexts : freed = (db.messageList.filter (fun m => m.sessionId == sid)).filterMap IMsg.block
  /-- With a block of its own for every message, no block is freed twice or still held. -/
  once : db.blocks.Nodup → freed.Nodup ∧ ∀ b ∈ freed, b ∉ db'.blocks

theorem freed_once (h : db.blocks.Nodup) :
    ((db.messageList.filter (fun m => m.sessionId == sid)).filterMap IMsg.block).Nodup ∧
      ∀ b ∈ (db.messageList.filter (fun m => m.sessionId == sid)).filterMap IMsg.block,
        b ∉ (db.messageList.filter (fun m => m.sessionId != sid)).filterMap IMsg.block := by
  have hp := (filter_append_perm (fun m : IMsg => m.sessionId == sid)
    db.messageList).filterMap IMsg.block
  rw [filterMap_append] at hp
  have hn := (hp.nodup_iff).mpr h
  obtain ⟨hl,_,hd⟩ := nodup_append'.mp hn
  exact ⟨hl,fun b hb hb' => hd hb hb'⟩

theorem eraseP_otherSessions (sessions : List Session) (sid : UInt64) :
    (sessions.eraseP (fun s => s.sessionId == sid)).filter (fun s => s.sessionId != sid) =
      sessions.filter (fun s => s.sessionId != sid) := by
  induction sessions with
  | nil => rfl
  | cons s rest ih =>
    by_cases hs : s.sessionId = sid
    · simp [hs]
    · simp [hs,ih]

theorem modifyFirst_otherSessions (sessions : Nat → Session) (n : Nat) (sid : UInt64)
    (f : Session → Session) (hf : ∀ s, (f s).sessionId = s.sessionId) :
    (firsts (modifyFirst (fun s => s.sessionId == sid) f n sessions) n).filter
      (fun s => s.sessionId != sid) = (firsts sessions n).filter (fun s => s.sessionId != sid) := by
  unfold modifyFirst
  cases h : findFirst (fun s => s.sessionId == sid) n sessions with
  | none => rfl
  | some i =>
    obtain ⟨hi,hid,_⟩ := findFirst_some h
    have hid : (sessions i).sessionId = sid := by simpa using hid
    rw [firsts_setAt sessions hi,firsts_split sessions hi]
    simp [hf,hid]

theorem sessionDelete_freed : (db.sessionDelete sid).1 = (db.dropMessages sid).1 := by
  unfold sessionDelete
  split <;> rfl

theorem sessionDelete_messages :
    (db.sessionDelete sid).2.messageList = (db.dropMessages sid).2.messageList := by
  unfold sessionDelete
  split <;> rfl

theorem sessionDelete_sessions : (db.sessionDelete sid).2.sessionList =
    db.sessionList.eraseP (fun s => s.sessionId == sid) := by
  unfold sessionDelete
  cases h : findFirst (fun s => s.sessionId == sid) db.sessionCount db.sessions with
  | none =>
    have hn := findFirst_none h
    rw [eraseP_of_forall_not (fun s hs => by simpa using hn s hs)]
    rfl
  | some i =>
    obtain ⟨rest,hsp,hid,hlow⟩ := findFirst_split h
    have hlen : (firsts db.sessions i).length = i := firsts_length db.sessions i
    have he : (firsts db.sessions db.sessionCount).eraseIdx i = firsts db.sessions i ++ rest := by
      rw [hsp,eraseIdx_append_of_length_le (by rw [hlen])]
      simp
    simp only [sessionList]
    rw [firsts_shiftDown db.sessions (findFirst_some h).1,he,hsp,
      eraseP_append_right _ (fun s hs => by simp [hlow s hs])]
    simp [hid]

end

theorem removesMessages_of_list {db db' : Db} {sid : UInt64} {freed : List Nat}
    (hmsg : db'.messageList = (db.dropMessages sid).2.messageList) (hf : freed = (db.dropMessages sid).1)
    (hs : db'.sessionList.filter (fun s => s.sessionId != sid) =
      db.sessionList.filter (fun s => s.sessionId != sid)) : RemovesMessages db db' sid freed := by
  rw [dropMessages_list] at hmsg
  rw [dropMessages_freed] at hf
  refine ⟨hmsg,hs,hf,fun h => ?_⟩
  rw [hf,blocks,hmsg]
  exact freed_once db sid h

theorem remove_only_session (db : Db) (sid : UInt64) :
    RemovesMessages db (db.sessionDelete sid).2 sid (db.sessionDelete sid).1 ∧
      (db.sessionDelete sid).2.sessionList = db.sessionList.eraseP (fun s => s.sessionId == sid) ∧
      RemovesMessages db (db.historyClear sid).2 sid (db.historyClear sid).1 := by
  refine ⟨?_,sessionDelete_sessions db sid,?_⟩
  · apply removesMessages_of_list (sessionDelete_messages db sid) (sessionDelete_freed db sid)
    rw [sessionDelete_sessions,eraseP_otherSessions]
  · refine @removesMessages_of_list db (db.historyClear sid).2 sid (db.historyClear sid).1 rfl rfl ?_
    exact modifyFirst_otherSessions db.sessions db.sessionCount sid
      (fun s => { s with messageCount := 0, activeLeafId := 0 }) (fun _ => rfl)

end Db

inductive Op where
  | create (title : Option Bytes) (now : UInt64)
  | delete (sid : UInt64)
  | clear (sid : UInt64)
  | setActiveLeaf (sid leaf : UInt64)
  | push (args : Db.PushArgs) (now : UInt64) (block : Option Nat)

variable {db db' : Db}

namespace Db

def step (db : Db) : Op → Db
  | .create title now => (db.sessionCreate title now).2
  | .delete sid => (db.sessionDelete sid).2
  | .clear sid => (db.historyClear sid).2
  | .setActiveLeaf sid leaf => (db.setActiveLeaf sid leaf).2
  | .push args now block => (db.historyPush args now block).2

structure Ids (db : Db) : Prop where
  nodup : (db.messageList.map IMsg.id).Nodup
  below : ∀ m ∈ db.messageList, 0 < m.id ∧ m.id < db.nextMsgId
  next : 0 < db.nextMsgId

theorem opened_ids : opened.Ids where
  nodup := nodup_nil
  below := by simp [messageList,opened,firsts]
  next := by decide

def IdLeft (db : Db) : Prop := db.nextMsgId.toNat+1 < 2^64

theorem IdLeft.lt (h : db.IdLeft) : db.nextMsgId < db.nextMsgId+1 := by
  rw [UInt64.lt_iff_toNat_lt,UInt64.toNat_add]
  simp only [IdLeft] at h
  simp only [UInt64.toNat_one]
  omega

def bump (parentId : UInt64) (m : IMsg) : IMsg :=
  if isParent parentId m then { m with childCount := m.childCount+1 } else m

theorem forall_pushed {P : IMsg → Prop} {msgs : List IMsg} {new : IMsg} {parentId : UInt64}
    (hold : ∀ m ∈ msgs, P (bump parentId m)) (hnew : P new) : ∀ m ∈ msgs.map (bump parentId) ++ [new], P m := by
  rw [forall_mem_append,forall_mem_map,forall_mem_singleton]
  exact ⟨hold,hnew⟩

section
variable (parentId : UInt64) (m : IMsg)

@[simp] theorem bump_id : (bump parentId m).id = m.id := by
  unfold bump
  split <;> rfl

@[simp] theorem bump_parentId : (bump parentId m).parentId = m.parentId := by
  unfold bump
  split <;> rfl

@[simp] theorem bump_sessionId : (bump parentId m).sessionId = m.sessionId := by
  unfold bump
  split <;> rfl

@[simp] theorem bump_depth : (bump parentId m).depth = m.depth := by
  unfold bump
  split <;> rfl

end

theorem Ids.eq_of_id (h : db.Ids) {m m' : IMsg} (hm : m ∈ db.messageList)
    (hm' : m' ∈ db.messageList) (hid : m.id = m'.id) : m = m' :=
  inj_on_of_nodup_map h.nodup hm hm' hid

theorem Ids.pairwise_isParent (h : db.Ids) (parentId : UInt64) :
    db.messageList.Pairwise (fun x y => ¬ (isParent parentId x = true ∧ isParent parentId y = true)) := by
  refine (pairwise_map.mp h.nodup).imp ?_
  intro x y hne hp
  simp only [isParent,Bool.and_eq_true,beq_iff_eq] at hp
  exact hne (hp.1.2.trans hp.2.2.symm)

theorem Ids.countChild_list (h : db.Ids) (parentId : UInt64) :
    firsts (db.countChild parentId) db.messageCount = db.messageList.map (bump parentId) :=
  firsts_modifyFirst _ _ _ _ (h.pairwise_isParent parentId)

inductive Pushed (db : Db) (args : PushArgs) (now : UInt64) : Option Nat → Db → Prop where
  | refused {block : Option Nat} : Pushed db args now block db
  | noMemory {db' : Db} : db.messageCount < dbMaxMessages →
      db'.messageList = db.messageList.map (bump args.parentId) →
      db'.sessionList = db.sessionList → db'.nextMsgId = db.nextMsgId →
      db'.nextSessionId = db.nextSessionId → Pushed db args now none db'
  | stored {db' : Db} {block : Nat} (text : Text) : db.messageCount < dbMaxMessages →
      db'.messageList = db.messageList.map (bump args.parentId) ++ [db.newMessage args text now] →
      db'.sessionList = firsts (modifyFirst (fun s => s.sessionId == args.sessionId)
        (fun s => { s with
          updatedAt := now
          messageCount := s.messageCount+1
          activeLeafId := db.nextMsgId }) db.sessionCount db.sessions) db.sessionCount →
      db'.nextMsgId = db.nextMsgId+1 → db'.nextSessionId = db.nextSessionId →
      Pushed db args now (some block) db'

theorem Ids.historyPush_pushed (h : db.Ids) (args : PushArgs) (now : UInt64) (block : Option Nat) :
    Pushed db args now block (db.historyPush args now block).2 := by
  unfold historyPush
  cases args.text with
  | none => exact .refused
  | some bytes =>
    by_cases hc : db.messageCount < dbMaxMessages
    · simp only [hc,dif_pos]
      cases block with
      | none => exact .noMemory hc (h.countChild_list args.parentId) rfl rfl rfl
      | some block =>
        refine .stored ⟨block,bytes⟩ hc ?_ rfl rfl rfl
        simp only [messageList]
        rw [firsts_succ,setAt_self]
        congr 1
        rw [← messageList,← h.countChild_list]
        exact firsts_congr fun i hi => setAt_ne _ _ (by omega)
    · simp only [hc,dif_neg,not_false_eq_true]
      exact .refused

theorem sessionCreate_messages (db : Db) (title : Option Bytes) (now : UInt64) :
    (db.sessionCreate title now).2.messageList = db.messageList ∧
      (db.sessionCreate title now).2.nextMsgId = db.nextMsgId := by
  unfold sessionCreate
  split
  · exact ⟨rfl,rfl⟩
  · split <;> exact ⟨rfl,rfl⟩

theorem setActiveLeaf_messages (db : Db) (sid leaf : UInt64) :
    (db.setActiveLeaf sid leaf).2.messageList = db.messageList ∧
      (db.setActiveLeaf sid leaf).2.nextMsgId = db.nextMsgId := by
  unfold setActiveLeaf
  split <;> exact ⟨rfl,rfl⟩

theorem sessionDelete_nextMsgId (db : Db) (sid : UInt64) :
    (db.sessionDelete sid).2.nextMsgId = db.nextMsgId := by
  unfold sessionDelete
  split <;> rfl

theorem Ids.filter (h : db.Ids) (p : IMsg → Bool) (hmsg : db'.messageList = db.messageList.filter p)
    (hn : db'.nextMsgId = db.nextMsgId) :
    db'.Ids where
  nodup := by
    rw [hmsg]
    exact h.nodup.sublist (filter_sublist.map IMsg.id)
  below := by
    intro m hm
    rw [hmsg] at hm
    rw [hn]
    exact h.below m (mem_of_mem_filter hm)
  next := hn ▸ h.next

theorem Ids.sameMessages (h : db.Ids) (hmsg : db'.messageList = db.messageList)
    (hn : db'.nextMsgId = db.nextMsgId) : db'.Ids :=
  h.filter (fun _ => true) (by simpa using hmsg) hn

theorem Ids.pushed {args : PushArgs} {now : UInt64} {block : Option Nat} (h : db.Ids)
    (hl : db.IdLeft) (hp : Pushed db args now block db') : db'.Ids := by
  have hmap : (db.messageList.map (bump args.parentId)).map IMsg.id = db.messageList.map IMsg.id := by
    rw [map_map]
    apply map_congr_left
    intro m _
    simp
  have hlt := hl.lt
  cases hp with
  | refused => exact h
  | noMemory _ hmsg _ hn _ =>
    refine ⟨by rw [hmsg,hmap]; exact h.nodup,?_,hn ▸ h.next⟩
    intro m hm
    rw [hmsg] at hm
    obtain ⟨m0,hm0,rfl⟩ := mem_map.mp hm
    rw [hn,bump_id]
    exact h.below m0 hm0
  | stored text _ hmsg _ hn _ =>
    refine ⟨?_,?_,hn ▸ UInt64.lt_trans h.next hlt⟩
    · rw [hmsg,map_append,hmap,nodup_append']
      refine ⟨h.nodup,by simp,?_⟩
      intro i hi hi'
      obtain ⟨m0,hm0,rfl⟩ := mem_map.mp hi
      have hid : m0.id = db.nextMsgId := by simpa [newMessage] using hi'
      exact absurd hid (UInt64.ne_of_lt (h.below m0 hm0).2)
    rw [hmsg,hn]
    refine forall_pushed (fun m hm => ?_) ⟨h.next,hlt⟩
    rw [bump_id]
    exact ⟨(h.below m hm).1,UInt64.lt_trans (h.below m hm).2 hlt⟩

theorem Ids.step (h : db.Ids) (op : Op)
    (hl : ∀ args now block, op = .push args now block → db.IdLeft) : (db.step op).Ids := by
  cases op with
  | create title now =>
    exact h.sameMessages (db.sessionCreate_messages title now).1 (db.sessionCreate_messages title now).2
  | delete sid =>
    apply h.filter (fun m => m.sessionId != sid) _ (sessionDelete_nextMsgId db sid)
    exact (sessionDelete_messages db sid).trans (dropMessages_list db sid)
  | clear sid => exact h.filter (fun m => m.sessionId != sid) (dropMessages_list db sid) rfl
  | setActiveLeaf sid leaf =>
    exact h.sameMessages (db.setActiveLeaf_messages sid leaf).1 (db.setActiveLeaf_messages sid leaf).2
  | push args now block =>
    exact h.pushed (hl args now block rfl) (h.historyPush_pushed args now block)

end Db
end AevOS.ConvDb
