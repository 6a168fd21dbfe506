import AevOS.ConversationDb
import AevOS.ParentChain
import AevOS.Runs

/-! The parent links of the stored messages form a forest, if parents are stored when they are named
and no session others build on is removed. -/

namespace AevOS.ConvDb.Db
open Wire ArrayPrefix ParentChain Runs List
open UInt64 (lt_trans ne_of_lt)

instance : IsStrictOrder UInt64 (· < ·) where
  irrefl := UInt64.lt_irrefl
  trans := fun _ _ _ => lt_trans

def parentOf (msgs : List IMsg) (i : UInt64) : Option UInt64 :=
  (msgs.find? (fun m => m.id == i)).map IMsg.parentId

/-- Parent links lead from every message to 0, in as many steps as its `depth` says. -/
def Forest (db : Db) : Prop :=
  ∀ m ∈ db.messageList, Chain (parentOf db.messageList) 0 m.id m.parentId m.depth.toNat

variable {db db' : Db} {m : IMsg}

theorem Ids.parentOf_iff (h : db.Ids) (i p : UInt64) :
    parentOf db.messageList i = some p ↔ ∃ m ∈ db.messageList, m.id = i ∧ m.parentId = p := by
  unfold parentOf
  rw [Option.map_eq_some_iff]
  constructor
  · rintro ⟨m,hm,hp⟩
    exact ⟨m,mem_of_find?_eq_some hm,by simpa using find?_some hm,hp⟩
  rintro ⟨m,hm,hid,hp⟩
  cases hf : db.messageList.find? (fun m => m.id == i) with
  | none =>
    have := find?_eq_none.mp hf m hm
    simp [hid] at this
  | some m' =>
    have hid' : m'.id = i := by simpa using find?_some hf
    refine ⟨m',rfl,?_⟩
    rw [h.eq_of_id (mem_of_find?_eq_some hf) hm (hid'.trans hid.symm)]
    exact hp

theorem Forest.depth_lt (hf : db.Forest) (h : db.Ids) (hm : m ∈ db.messageList) :
    m.depth.toNat ≤ dbMaxMessages := by
  have hle := (hf m hm).length_le (db.messageList.map IMsg.id).toFinset (by
    intro j p hp
    obtain ⟨m',hm',hid,_⟩ := (h.parentOf_iff j p).mp hp
    exact mem_toFinset.mpr (mem_map.mpr ⟨m',hm',hid⟩))
  calc m.depth.toNat ≤ _ := hle
    _ ≤ (db.messageList.map IMsg.id).toFinset.card := Finset.card_filter_le _ _
    _ ≤ (db.messageList.map IMsg.id).length := toFinset_card_le _
    _ = db.messageCount := by simp [messageList]
    _ ≤ dbMaxMessages := db.messageCount_le

theorem Ids.newDepth_stored (h : db.Ids) (hm : m ∈ db.messageList) : db.newDepth m.id = m.depth+1 := by
  have hne : m.id ≠ 0 := (ne_of_lt (h.below m hm).1).symm
  unfold newDepth
  cases hf : findFirst (isParent m.id) db.messageCount db.messages with
  | none =>
    have := findFirst_none hf m hm
    simp [isParent,hne] at this
  | some i =>
    obtain ⟨hi,hp,_⟩ := findFirst_some hf
    have hid : (db.messages i).id = m.id := by
      simp only [isParent,Bool.and_eq_true,beq_iff_eq] at hp
      exact hp.2
    have hmi : db.messages i ∈ db.messageList := mem_firsts.mpr ⟨i,hi,rfl⟩
    simp only
    rw [h.eq_of_id hmi hm hid]

theorem newDepth_zero (db : Db) : db.newDepth 0 = 0 := by
  unfold newDepth
  cases hf : findFirst (isParent 0) db.messageCount db.messages with
  | none => rfl
  | some i =>
    have := (findFirst_some hf).2.1
    simp [isParent] at this

/-- What a call has to keep to for `Forest` to stand. -/
def ForestSafe (db : Db) : Op → Prop
  | .push args _ _ => db.IdLeft ∧ (args.parentId = 0 ∨ ∃ m ∈ db.messageList, m.id = args.parentId)
  | .delete sid => ∀ m ∈ db.messageList, m.sessionId ≠ sid →
      ∀ p ∈ db.messageList, p.id = m.parentId → p.sessionId ≠ sid
  | .clear sid => ∀ m ∈ db.messageList, m.sessionId ≠ sid →
      ∀ p ∈ db.messageList, p.id = m.parentId → p.sessionId ≠ sid
  | .create _ _ => True
  | .setActiveLeaf _ _ => True

theorem Forest.filter {db db' : Db} (hf : db.Forest) (h : db.Ids) (h' : db'.Ids) (sid : UInt64)
    (hmsg : db'.messageList = db.messageList.filter (fun m => m.sessionId != sid))
    (hs : ∀ m ∈ db.messageList, m.sessionId ≠ sid →
      ∀ p ∈ db.messageList, p.id = m.parentId → p.sessionId ≠ sid) : db'.Forest := by
  have hmem : ∀ m, m ∈ db'.messageList ↔ m ∈ db.messageList ∧ m.sessionId ≠ sid := by
    intro m
    rw [hmsg]
    simp
  intro m hm
  obtain ⟨hm0,hms⟩ := (hmem m).mp hm
  -- the ids of the messages that stay are closed under parents
  let kept : UInt64 → Prop := fun i => ∀ p ∈ db.messageList, p.id = i → p.sessionId ≠ sid
  refine (hf m hm0).restrict kept ?_ ?_ ?_
  · intro j p hk hp
    obtain ⟨x,hx,hid,hpar⟩ := (h.parentOf_iff j p).mp hp
    exact (h'.parentOf_iff j p).mpr ⟨x,(hmem x).mpr ⟨hx,hk x hx hid⟩,hid,hpar⟩
  · intro j p hk hp _
    obtain ⟨x,hx,hid,hpar⟩ := (h.parentOf_iff j p).mp hp
    subst hpar
    exact hs x hx (hk x hx hid)
  · intro _
    exact hs m hm0 hms

theorem Forest.sameMessages (hf : db.Forest) (hmsg : db'.messageList = db.messageList) : db'.Forest := by
  unfold Forest
  rw [hmsg]
  exact hf

theorem parentOf_pushed (h : db.Ids) (h' : db'.Ids) (parentId : UInt64)
    (hsub : ∀ m ∈ db.messageList, bump parentId m ∈ db'.messageList) (i p : UInt64)
    (hp : parentOf db.messageList i = some p) : parentOf db'.messageList i = some p := by
  obtain ⟨m,hm,hid,hpar⟩ := (h.parentOf_iff i p).mp hp
  exact (h'.parentOf_iff i p).mpr ⟨bump parentId m,hsub m hm,by simpa using hid,by simpa using hpar⟩

theorem Forest.pushed {args : PushArgs} {now : UInt64} {block : Option Nat} (hf : db.Forest)
    (h : db.Ids) (h' : db'.Ids) (hpr : args.parentId = 0 ∨ ∃ m ∈ db.messageList, m.id = args.parentId)
    (hp : Pushed db args now block db') : db'.Forest := by
  cases hp with
  | refused => exact hf
  | noMemory _ hmsg _ _ _ =>
    intro m hm
    rw [hmsg] at hm
    obtain ⟨m0,hm0,rfl⟩ := mem_map.mp hm
    have hsub : ∀ m ∈ db.messageList, bump args.parentId m ∈ db'.messageList := by
      intro m hm
      rw [hmsg]
      exact mem_map.mpr ⟨m,hm,rfl⟩
    simp only [bump_id,bump_parentId,bump_depth]
    exact (hf m0 hm0).mono (parentOf_pushed h h' args.parentId hsub)
  | stored text _ hmsg _ _ _ =>
    have hsub : ∀ m ∈ db.messageList, bump args.parentId m ∈ db'.messageList := by
      intro m hm
      rw [hmsg]
      exact mem_append_left _ (mem_map.mpr ⟨m,hm,rfl⟩)
    have hmn := parentOf_pushed h h' args.parentId hsub
    suffices hall : ∀ m ∈ db.messageList.map (bump args.parentId) ++ [db.newMessage args text now],
        Chain (parentOf db'.messageList) 0 m.id m.parentId m.depth.toNat from fun m hm => hall m (hmsg ▸ hm)
    refine forall_pushed (fun m hm => ?_) ?_
    · simp only [bump_id,bump_parentId,bump_depth]
      exact (hf m hm).mono hmn
    rcases hpr with hz | ⟨p,hp,hid⟩
    · simp only [newMessage,hz,newDepth_zero]
      exact .root
    have hd : (p.depth+1).toNat = p.depth.toNat+1 := by
      have hle := hf.depth_lt h hp
      simp only [dbMaxMessages] at hle
      rw [UInt32.toNat_add]
      simp only [UInt32.toNat_one]
      omega
    have hne : p.id ≠ 0 := (ne_of_lt (h.below p hp).1).symm
    simp only [newMessage,← hid,h.newDepth_stored hp,hd]
    exact .up hne (h.below p hp).2 (hmn _ _ ((h.parentOf_iff _ _).mpr ⟨p,hp,rfl,rfl⟩))
      ((hf p hp).mono hmn)

theorem step_forest (db : Db) (op : Op) (h : db.Ids ∧ db.Forest) (hs : db.ForestSafe op) :
    (db.step op).Ids ∧ (db.step op).Forest := by
  have h' : (db.step op).Ids := by
    apply h.1.step
    rintro args now block rfl
    exact hs.1
  refine ⟨h',?_⟩
  cases op with
  | create title now => exact h.2.sameMessages (db.sessionCreate_messages title now).1
  | delete sid =>
    exact h.2.filter h.1 h' sid ((sessionDelete_messages db sid).trans (dropMessages_list db sid)) hs
  | clear sid => exact h.2.filter h.1 h' sid (dropMessages_list db sid) hs
  | setActiveLeaf sid leaf => exact h.2.sameMessages (db.setActiveLeaf_messages sid leaf).1
  | push args now block =>
    exact h.2.pushed h.1 h' hs.2 (h.1.historyPush_pushed args now block)

theorem run_forest (ops : List Op) (hsafe : Along step ForestSafe opened ops) :
    ∀ done rest, ops = done ++ rest → (run step opened done).Forest := by
  have hstart : opened.Ids ∧ opened.Forest :=
    ⟨opened_ids,by simp [Forest,messageList,opened,firsts]⟩
  intro done rest he
  exact (along_invariant step step_forest hstart hsafe done rest he).2

def pushText (parentId : UInt64) : Op := .push ⟨1,parentId,0,some [104,105],1⟩ 0 (some 0)

theorem run_forest_answer :
    (run step opened [.create (some []) 0,pushText 0,pushText 1]).Forest := by
  refine run_forest _ ?_ _ [] (append_nil _).symm
  refine ⟨trivial,⟨?_,.inl rfl⟩,⟨?_,.inr ?_⟩,trivial⟩
  · unfold IdLeft
    decide +kernel
  · unfold IdLeft
    decide +kernel
  · decide +kernel

theorem own_parent : (run step opened [.create (some []) 0,pushText 1]).messageList.map
      (fun m => (m.id,m.parentId,m.depth)) = [(1,1,0)] ∧
    ¬ (run step opened [.create (some []) 0,pushText 1]).Forest := by
  have hlist : (run step opened [.create (some []) 0,pushText 1]).messageList.map
      (fun m => (m.id,m.parentId,m.depth)) = [(1,1,0)] := by decide +kernel
  refine ⟨hlist,fun hf => ?_⟩
  obtain ⟨m,hm,hfields⟩ := mem_map.mp (hlist ▸ mem_singleton.mpr rfl :
    ((1,1,0) : UInt64 × UInt64 × UInt32) ∈ _)
  obtain ⟨hid,hpar,hdepth⟩ : m.id = 1 ∧ m.parentId = 1 ∧ m.depth = 0 := by simpa using hfields
  have hchain := hf m hm
  rw [hid,hpar,hdepth] at hchain
  cases hchain

/-! The counters: children per message, messages per session, and the active leaf of each. -/

/-- Stored counts are the true ones, and an active leaf is a message of its session. -/
structure Counted (msgs : List IMsg) (sessions : List Session) : Prop where
  children : ∀ m ∈ msgs, m.childCount.toNat = msgs.countP (fun x => x.parentId == m.id)
  sizes : ∀ s ∈ sessions, s.messageCount.toNat = msgs.countP (fun x => x.sessionId == s.sessionId)
  leaves : ∀ s ∈ sessions, s.activeLeafId = 0 ∨
    ∃ m ∈ msgs, m.id = s.activeLeafId ∧ m.sessionId = s.sessionId

structure Past (db : Db) : Prop where
  nodup : (db.sessionList.map Session.sessionId).Nodup
  sessions : ∀ s ∈ db.sessionList, s.sessionId < db.nextSessionId
  owners : ∀ m ∈ db.messageList, m.sessionId < db.nextSessionId
  parents : ∀ m ∈ db.messageList, m.parentId < db.nextMsgId

structure Consistent (db : Db) : Prop where
  ids : db.Ids
  past : db.Past
  counted : Counted db.messageList db.sessionList

theorem opened_consistent : opened.Consistent where
  ids := opened_ids
  past := by constructor <;> simp [messageList,sessionList,opened,firsts]
  counted := by constructor <;> simp [messageList,sessionList,opened,firsts]

theorem countP_le (db : Db) (p : IMsg → Bool) : db.messageList.countP p ≤ dbMaxMessages := by
  refine le_trans countP_le_length ?_
  simp only [messageList,firsts_length]
  exact db.messageCount_le

theorem toNat_succ (x : UInt32) (h : x.toNat ≤ dbMaxMessages) : (x+1).toNat = x.toNat+1 := by
  simp only [dbMaxMessages] at h
  rw [UInt32.toNat_add]
  simp only [UInt32.toNat_one]
  omega

variable {db : Db}

theorem Past.modifyFirst_list (h : db.Past) (sid : UInt64) (f : Session → Session) :
    firsts (modifyFirst (fun s => s.sessionId == sid) f db.sessionCount db.sessions) db.sessionCount =
      db.sessionList.map (fun s => if s.sessionId == sid then f s else s) := by
  apply firsts_modifyFirst
  refine (pairwise_map.mp h.nodup).imp ?_
  intro x y hne hp
  simp only [beq_iff_eq] at hp
  exact hne (hp.1.trans hp.2.symm)

theorem Past.map_sessions {db' : Db} (h : db.Past) (f : Session → Session)
    (hf : ∀ s, (f s).sessionId = s.sessionId) (hss : db'.sessionList = db.sessionList.map f)
    (hn : db'.nextSessionId = db.nextSessionId)
    (ho : ∀ m ∈ db'.messageList, m.sessionId < db.nextSessionId)
    (hp : ∀ m ∈ db'.messageList, m.parentId < db'.nextMsgId) : db'.Past where
  nodup := by
    rw [hss,map_map]
    exact (map_congr_left (fun s _ => hf s)) ▸ h.nodup
  sessions := by
    rw [hss,hn]
    intro s hs
    obtain ⟨s0,hs0,rfl⟩ := mem_map.mp hs
    rw [hf]
    exact h.sessions s0 hs0
  owners := hn ▸ ho
  parents := hp

theorem sessionCreate_cases (db : Db) (title : Option Bytes) (now : UInt64) :
    (db.sessionCreate title now).2 = db ∨ ∃ t, (db.sessionCreate title now).2.sessionList =
        db.sessionList ++ [⟨db.nextSessionId,now,now,t,0,0⟩] ∧
      (db.sessionCreate title now).2.nextSessionId = db.nextSessionId+1 := by
  unfold sessionCreate
  cases title with
  | none => exact .inl rfl
  | some title =>
    by_cases hc : db.sessionCount < dbMaxSessions
    · right
      refine ⟨title.take 127,?_,by simp [hc]⟩
      simp only [hc,dif_pos,sessionList]
      rw [firsts_succ,setAt_self]
      congr 1
      exact firsts_congr fun i hi => setAt_ne _ _ (by omega)
    · left
      simp [hc]

theorem Consistent.created (h : db.Consistent) (title : Option Bytes) (now : UInt64)
    (hl : db.nextSessionId.toNat+1 < 2^64) : (db.sessionCreate title now).2.Consistent := by
  obtain ⟨hmsg,hn⟩ := db.sessionCreate_messages title now
  rcases db.sessionCreate_cases title now with hsm | ⟨t,hss,hns⟩
  · rw [hsm]
    exact h
  have hlt : db.nextSessionId < db.nextSessionId+1 := by
    rw [UInt64.lt_iff_toNat_lt,UInt64.toNat_add]
    simp only [UInt64.toNat_one]
    omega
  have hnn : db.messageList.countP (fun x => x.sessionId == db.nextSessionId) = 0 := by
    rw [countP_eq_zero]
    intro m hm
    simpa using ne_of_lt (h.past.owners m hm)
  refine ⟨h.ids.sameMessages hmsg hn,⟨?_,?_,?_,?_⟩,?_⟩
  · rw [hss,map_append,nodup_append']
    refine ⟨h.past.nodup,by simp,?_⟩
    intro i hi hi'
    obtain ⟨s,hs,rfl⟩ := mem_map.mp hi
    exact absurd (by simpa using hi') (ne_of_lt (h.past.sessions s hs))
  · rw [hss,hns]
    intro s hs
    rcases mem_append.mp hs with hs | hs
    · exact lt_trans (h.past.sessions s hs) hlt
    · rw [mem_singleton.mp hs]
      exact hlt
  · rw [hmsg,hns]
    exact fun m hm => lt_trans (h.past.owners m hm) hlt
  · rw [hmsg,hn]
    exact h.past.parents
  rw [hmsg,hss]
  refine ⟨h.counted.children,?_,?_⟩
  · intro s hs
    rcases mem_append.mp hs with hs | hs
    · exact h.counted.sizes s hs
    · rw [mem_singleton.mp hs]
      exact hnn.symm
  intro s hs
  rcases mem_append.mp hs with hs | hs
  · exact h.counted.leaves s hs
  · rw [mem_singleton.mp hs]
    exact .inl rfl

theorem setActiveLeaf_list (db : Db) (sid leaf : UInt64) :
    (db.setActiveLeaf sid leaf).2.sessionList = firsts (modifyFirst (fun s => s.sessionId == sid)
          (fun s => { s with activeLeafId := leaf }) db.sessionCount db.sessions)
          db.sessionCount ∧
      (db.setActiveLeaf sid leaf).2.nextSessionId = db.nextSessionId := by
  unfold setActiveLeaf modifyFirst
  cases findFirst (fun s => s.sessionId == sid) db.sessionCount db.sessions <;> exact ⟨rfl,rfl⟩

theorem Consistent.leafChosen {db : Db} (h : db.Consistent) (sid leaf : UInt64)
    (hl : (∃ s ∈ db.sessionList, s.sessionId = sid) → leaf = 0 ∨
      ∃ m ∈ db.messageList, m.id = leaf ∧ m.sessionId = sid) : (db.setActiveLeaf sid leaf).2.Consistent := by
  obtain ⟨hmsg,hn⟩ := db.setActiveLeaf_messages sid leaf
  obtain ⟨hss,hns⟩ := db.setActiveLeaf_list sid leaf
  rw [h.past.modifyFirst_list] at hss
  refine ⟨h.ids.sameMessages hmsg hn,?_,?_⟩
  · refine h.past.map_sessions _ ?_ hss hns (hmsg ▸ h.past.owners) ?_
    · intro s
      split <;> rfl
    · rw [hmsg,hn]
      exact h.past.parents
  rw [hmsg,hss]
  refine ⟨h.counted.children,?_,?_⟩
  · intro s hs
    obtain ⟨s0,hs0,rfl⟩ := mem_map.mp hs
    split <;> exact h.counted.sizes s0 hs0
  intro s hs
  obtain ⟨s0,hs0,rfl⟩ := mem_map.mp hs
  split
  · rename_i hid
    have hid : s0.sessionId = sid := by simpa using hid
    simpa [hid] using hl ⟨s0,hs0,hid⟩
  · exact h.counted.leaves s0 hs0

theorem Counted.filter {msgs : List IMsg} {sessions : List Session} (h : Counted msgs sessions)
    (sid : UInt64) (hsf : ∀ m ∈ msgs, m.sessionId = sid →
      ∀ p ∈ msgs, p.id = m.parentId → p.sessionId = sid) :
    Counted (msgs.filter (fun m => m.sessionId != sid))
      (sessions.filter (fun s => s.sessionId != sid)) where
  children := by
    intro m hm
    obtain ⟨hm,hms⟩ := mem_filter.mp hm
    have hms : m.sessionId ≠ sid := by simpa using hms
    rw [h.children m hm,countP_filter]
    apply countP_congr
    intro x hx
    simp only [Bool.and_eq_true,beq_iff_eq,bne_iff_ne,ne_eq]
    constructor
    · intro hpar
      exact ⟨hpar,fun hxs => hms (hsf x hx hxs m hm hpar.symm)⟩
    · exact And.left
  sizes := by
    intro s hs
    obtain ⟨hs,hss⟩ := mem_filter.mp hs
    have hss : s.sessionId ≠ sid := by simpa using hss
    rw [h.sizes s hs,countP_filter]
    apply countP_congr
    intro x _
    simp only [Bool.and_eq_true,beq_iff_eq,bne_iff_ne,ne_eq]
    constructor
    · intro hx
      exact ⟨hx,fun hxs => hss (hx.symm.trans hxs)⟩
    · exact And.left
  leaves := by
    intro s hs
    obtain ⟨hs,hss⟩ := mem_filter.mp hs
    refine (h.leaves s hs).imp id ?_
    rintro ⟨m,hm,hid,hms⟩
    exact ⟨m,mem_filter.mpr ⟨hm,by rw [hms]; exact hss⟩,hid,hms⟩

theorem eraseP_eq_filter (sessions : List Session) (sid : UInt64)
    (h : (sessions.map Session.sessionId).Nodup) : sessions.eraseP (fun s => s.sessionId == sid) =
      sessions.filter (fun s => s.sessionId != sid) := by
  induction sessions with
  | nil => rfl
  | cons s rest ih =>
    obtain ⟨hs,hr⟩ := nodup_cons.mp h
    by_cases hid : s.sessionId = sid
    · have hall : ∀ x ∈ rest, x.sessionId ≠ sid := by
        intro x hx he
        exact hs (mem_map.mpr ⟨x,hx,he.trans hid.symm⟩)
      have hk : rest.filter (fun s => s.sessionId != sid) = rest :=
        filter_eq_self.mpr fun x hx => by simpa using hall x hx
      simp [hid,hk]
    · simp [hid,ih hr]

theorem Consistent.deleted {db : Db} (h : db.Consistent) (sid : UInt64)
    (hsf : ∀ m ∈ db.messageList, m.sessionId = sid →
      ∀ p ∈ db.messageList, p.id = m.parentId → p.sessionId = sid) : (db.sessionDelete sid).2.Consistent := by
  have hmsg := (sessionDelete_messages db sid).trans (dropMessages_list db sid)
  have hn := sessionDelete_nextMsgId db sid
  have hns : (db.sessionDelete sid).2.nextSessionId = db.nextSessionId := by
    unfold sessionDelete
    split <;> rfl
  have hss : (db.sessionDelete sid).2.sessionList =
      db.sessionList.filter (fun s => s.sessionId != sid) := by
    rw [sessionDelete_sessions,eraseP_eq_filter db.sessionList sid h.past.nodup]
  refine ⟨h.ids.filter _ hmsg hn,⟨?_,?_,?_,?_⟩,?_⟩
  · rw [hss]
    exact h.past.nodup.sublist (filter_sublist.map _)
  · rw [hss,hns]
    exact fun s hs => h.past.sessions s (mem_of_mem_filter hs)
  · rw [hmsg,hns]
    exact fun m hm => h.past.owners m (mem_of_mem_filter hm)
  · rw [hmsg,hn]
    exact fun m hm => h.past.parents m (mem_of_mem_filter hm)
  · rw [hmsg,hss]
    exact h.counted.filter sid hsf

theorem Consistent.cleared {db : Db} (h : db.Consistent) (sid : UInt64)
    (hsf : ∀ m ∈ db.messageList, m.sessionId = sid →
      ∀ p ∈ db.messageList, p.id = m.parentId → p.sessionId = sid) : (db.historyClear sid).2.Consistent := by
  have hmsg : (db.historyClear sid).2.messageList =
      db.messageList.filter (fun m => m.sessionId != sid) := dropMessages_list db sid
  have hss := h.past.modifyFirst_list sid (fun s => { s with messageCount := 0, activeLeafId := 0 })
  have hk := h.counted.filter sid hsf
  refine ⟨h.ids.filter _ hmsg rfl,?_,?_⟩
  · refine h.past.map_sessions _ ?_ hss rfl ?_ ?_
    · intro s
      split <;> rfl
    · rw [hmsg]
      exact fun m hm => h.past.owners m (mem_of_mem_filter hm)
    · rw [hmsg]
      exact fun m hm => h.past.parents m (mem_of_mem_filter hm)
  rw [hmsg,show (db.historyClear sid).2.sessionList = _ from hss]
  refine ⟨hk.children,?_,?_⟩
  · intro s hs
    obtain ⟨s0,hs0,rfl⟩ := mem_map.mp hs
    split
    · rename_i hid
      simp only [UInt32.toNat_zero]
      rw [eq_comm,countP_eq_zero]
      intro m hm
      have := (mem_filter.mp hm).2
      have hid : s0.sessionId = sid := by simpa using hid
      simpa [hid] using this
    · rename_i hid
      exact hk.sizes s0 (mem_filter.mpr ⟨hs0,by simpa using hid⟩)
  intro s hs
  obtain ⟨s0,hs0,rfl⟩ := mem_map.mp hs
  split
  · exact .inl rfl
  · rename_i hid
    exact hk.leaves s0 (mem_filter.mpr ⟨hs0,by simpa using hid⟩)

theorem Consistent.isParent_iff (h : db.Consistent) (parentId : UInt64) {m : IMsg}
    (hm : m ∈ db.messageList) : isParent parentId m = true ↔ m.id = parentId := by
  have hne : m.id ≠ 0 := (ne_of_lt (h.ids.below m hm).1).symm
  simp only [isParent,Bool.and_eq_true,bne_iff_ne,ne_eq,beq_iff_eq]
  constructor
  · exact And.right
  · rintro rfl
    exact ⟨hne,rfl⟩

theorem Consistent.map_bump_absent (h : db.Consistent) (parentId : UInt64)
    (ha : ∀ m ∈ db.messageList, m.id ≠ parentId) : db.messageList.map (bump parentId) = db.messageList := by
  conv_rhs => rw [← map_id db.messageList]
  apply map_congr_left
  intro m hm
  have hp : isParent parentId m = false := by
    rw [Bool.eq_false_iff]
    exact fun hp => ha m hm ((h.isParent_iff parentId hm).mp hp)
  simp [bump,hp]

theorem countP_bump (msgs : List IMsg) (parentId i : UInt64) :
    (msgs.map (bump parentId)).countP (fun x => x.parentId == i) =
      msgs.countP (fun x => x.parentId == i) := by
  simp [countP_map,Function.comp_def]

theorem Consistent.stored_children (h : db.Consistent) (args : PushArgs) (text : Text)
    (now : UInt64) (hpr : args.parentId < db.nextMsgId) :
    ∀ m ∈ db.messageList.map (bump args.parentId) ++ [db.newMessage args text now],
      m.childCount.toNat = (db.messageList.map (bump args.parentId) ++
        [db.newMessage args text now]).countP (fun x => x.parentId == m.id) := by
  simp only [countP_append,countP_bump,countP_singleton]
  refine forall_pushed (fun m hm => ?_) ?_
  · have hold := h.counted.children m hm
    have hs := toNat_succ m.childCount (hold ▸ countP_le db _)
    simp only [bump_id,newMessage,beq_iff_eq]
    by_cases hp : m.id = args.parentId
    · rw [if_pos hp.symm,bump,if_pos ((h.isParent_iff _ hm).mpr hp)]
      rw [hs,hold]
    · rw [if_neg (Ne.symm hp),bump,if_neg (fun hc => hp ((h.isParent_iff _ hm).mp hc))]
      exact hold
  · -- nobody has named the new id as a parent before
    have hn : db.messageList.countP (fun x => x.parentId == db.nextMsgId) = 0 := by
      rw [countP_eq_zero]
      intro x hx
      simpa using ne_of_lt (h.past.parents x hx)
    have hown : ¬ args.parentId = db.nextMsgId := ne_of_lt hpr
    simp [newMessage,hn,hown]

theorem Consistent.pushed {db : Db} (h : db.Consistent) (args : PushArgs) (now : UInt64)
    (block : Option Nat) (hl : db.IdLeft)
    (hsf : db.messageCount < dbMaxMessages → args.parentId < db.nextMsgId ∧
      args.sessionId < db.nextSessionId ∧ (block = none → ∀ m ∈ db.messageList, m.id ≠ args.parentId)) :
    (db.historyPush args now block).2.Consistent := by
  have hp := h.ids.historyPush_pushed args now block
  have hids := h.ids.pushed hl hp
  have hlt := hl.lt
  generalize (db.historyPush args now block).2 = db' at hp hids
  cases hp with
  | refused => exact h
  | noMemory hr hmsg hss hnx hn =>
    obtain ⟨_,_,ha⟩ := hsf hr
    rw [h.map_bump_absent args.parentId (ha rfl)] at hmsg
    refine ⟨hids,⟨?_,?_,?_,?_⟩,?_⟩
    · exact hss ▸ h.past.nodup
    · exact hss ▸ hn ▸ h.past.sessions
    · exact hmsg ▸ hn ▸ h.past.owners
    · exact hmsg ▸ hnx ▸ h.past.parents
    · exact hmsg ▸ hss ▸ h.counted
  | stored text hr hmsg hss hnx hn =>
    obtain ⟨hpr,ho,_⟩ := hsf hr
    rw [h.past.modifyFirst_list] at hss
    refine ⟨hids,?_,?_⟩
    · refine h.past.map_sessions _ ?_ hss hn ?_ ?_
      · intro s
        split <;> rfl
      · rw [hmsg]
        refine forall_pushed (fun m hm => ?_) ho
        simpa using h.past.owners m hm
      · rw [hmsg,hnx]
        refine forall_pushed (fun m hm => ?_) (lt_trans hpr hlt)
        simpa using lt_trans (h.past.parents m hm) hlt
    rw [hmsg,hss]
    refine ⟨h.stored_children args text now hpr,?_,?_⟩
    · intro s hs
      obtain ⟨s0,hs0,rfl⟩ := mem_map.mp hs
      have hold := h.counted.sizes s0 hs0
      have hsc := toNat_succ s0.messageCount (hold ▸ countP_le db _)
      rw [countP_append,countP_map,countP_singleton]
      simp only [Function.comp_def,bump_sessionId,newMessage]
      by_cases hid : s0.sessionId = args.sessionId
      · simp only [hid,beq_self_eq_true,if_true]
        rw [hsc,hold,hid]
      · simp only [beq_iff_eq,hid,Ne.symm hid,if_false]
        exact hold
    intro s hs
    obtain ⟨s0,hs0,rfl⟩ := mem_map.mp hs
    by_cases hid : s0.sessionId = args.sessionId
    · right
      refine ⟨db.newMessage args text now,by simp,?_⟩
      simp [hid,newMessage]
    simp only [beq_iff_eq,hid,if_false]
    refine (h.counted.leaves s0 hs0).imp id ?_
    rintro ⟨m,hm,hmid,hms⟩
    refine ⟨bump args.parentId m,?_,by simpa using hmid,by simpa using hms⟩
    exact mem_append_left _ (mem_map.mpr ⟨m,hm,rfl⟩)

def CountSafe (db : Db) : Op → Prop
  | .create _ _ => db.nextSessionId.toNat+1 < 2^64
  | .push args _ block => db.IdLeft ∧ (db.messageCount < dbMaxMessages →
      args.parentId < db.nextMsgId ∧ args.sessionId < db.nextSessionId ∧
        (block = none → ∀ m ∈ db.messageList, m.id ≠ args.parentId))
  | .delete sid => ∀ m ∈ db.messageList, m.sessionId = sid →
      ∀ p ∈ db.messageList, p.id = m.parentId → p.sessionId = sid
  | .clear sid => ∀ m ∈ db.messageList, m.sessionId = sid →
      ∀ p ∈ db.messageList, p.id = m.parentId → p.sessionId = sid
  | .setActiveLeaf sid leaf => (∃ s ∈ db.sessionList, s.sessionId = sid) → leaf = 0 ∨
      ∃ m ∈ db.messageList, m.id = leaf ∧ m.sessionId = sid

theorem step_consistent (db : Db) (op : Op) (h : db.Consistent) (hs : db.CountSafe op) :
    (db.step op).Consistent := by
  cases op with
  | create title now => exact h.created title now hs
  | delete sid => exact h.deleted sid hs
  | clear sid => exact h.cleared sid hs
  | setActiveLeaf sid leaf => exact h.leafChosen sid leaf hs
  | push args now block => exact h.pushed args now block hs.1 hs.2

theorem run_counted (ops : List Op) (hsafe : Along step CountSafe opened ops) :
    ∀ done rest, ops = done ++ rest →
      Counted (run step opened done).messageList (run step opened done).sessionList := by
  intro done rest he
  exact (along_invariant step step_consistent opened_consistent hsafe done rest he).counted

theorem run_counted_answer :
    Counted (run step opened [.create (some []) 0,pushText 0,pushText 1]).messageList
      (run step opened [.create (some []) 0,pushText 0,pushText 1]).sessionList := by
  refine run_counted _ ?_ _ [] (append_nil _).symm
  refine ⟨?_,⟨?_,fun _ => ?_⟩,⟨?_,fun _ => ?_⟩,trivial⟩
  · show UInt64.toNat _+1 < _
    decide +kernel
  · unfold IdLeft
    decide +kernel
  · refine ⟨by decide +kernel,by decide +kernel,fun h => absurd h (by simp)⟩
  · unfold IdLeft
    decide +kernel
  · refine ⟨by decide +kernel,by decide +kernel,fun h => absurd h (by simp)⟩

def starved : List Op :=
  [.create (some []) 0,pushText 0,.push ⟨1,1,0,some [104],1⟩ 0 none]

theorem failed_push_counted : (run step opened starved).messageList =
      [⟨1,1,0,0,0,1,some ⟨0,[104,105]⟩,2,1,0⟩] ∧
    ¬ Counted (run step opened starved).messageList (run step opened starved).sessionList := by
  have hlist : (run step opened starved).messageList =
      [⟨1,1,0,0,0,1,some ⟨0,[104,105]⟩,2,1,0⟩] := by decide +kernel
  refine ⟨hlist,fun hc => ?_⟩
  have hone := hc.children _ (mem_singleton.mpr rfl)
  exact absurd hone (by decide)

end AevOS.ConvDb.Db
