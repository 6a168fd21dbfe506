import AevOS.ConversationDb
import AevOS.ExchangeSort

/-!
What the conversation database lists: the sessions, newest first, and the path of messages
from a root to a given one.
-/

namespace AevOS.ConvDb.Db
open Wire ArrayPrefix List

/-- `aevos_db_session_list`: the rows written, as many as it counts. -/
def sessionListing (db : Db) (maxCount : Nat) : List Session :=
  let n := min db.sessionCount maxCount
  ExchangeSort.sort (fun s => s.updatedAt.toNat) n (firsts db.sessions n)

/-- The `rows` of the table listed by `out`: as many as asked for, each once, the newest first. -/
structure Lists (db : Db) (maxCount : Nat) (rows : List Nat) (out : List Session) : Prop where
  copied : out = rows.map db.sessions
  nodup : rows.Nodup
  length : rows.length = min maxCount db.sessionCount
  stored : ∀ i ∈ rows, i < db.sessionCount
  sorted : out.Pairwise (fun a b => b.updatedAt ≤ a.updatedAt)

theorem sessionListing_lists (db : Db) (maxCount : Nat) :
    ∃ rows, db.Lists maxCount rows (db.sessionListing maxCount) ∧
      ∀ i, i ∈ rows ↔ i < min db.sessionCount maxCount := by
  obtain ⟨n,hn⟩ : ∃ n, n = min db.sessionCount maxCount := ⟨_,rfl⟩
  have hp := ExchangeSort.sort_perm (f := fun i => (db.sessions i).updatedAt.toNat) n (range n)
  have hin := fun i => hp.mem_iff (a := i)
  simp only [mem_range] at hin
  refine ⟨_,⟨?_,hp.nodup_iff.mpr nodup_range,?_,?_,?_⟩,by rw [← hn]; exact hin⟩
  · rw [sessionListing,← hn]
    exact ExchangeSort.sort_map _ _ _
  · rw [hp.length_eq,length_range,hn,min_comm]
  · intro i hi
    have := (hin i).mp hi
    omega
  · rw [sessionListing]
    have hs := ExchangeSort.sort_sorted (f := fun s : Session => s.updatedAt.toNat)
      (firsts_length db.sessions (min db.sessionCount maxCount)).le
    simpa only [← UInt64.le_iff_toNat_le] using hs

/-- The listing is right exactly if none of the sessions behind the first `maxCount` is newer. -/
theorem sessionListing_newest_iff (db : Db) (maxCount : Nat) :
    (∃ rows, db.Lists maxCount rows (db.sessionListing maxCount) ∧
      ∀ j, j < db.sessionCount → j ∉ rows →
        ∀ s ∈ db.sessionListing maxCount, (db.sessions j).updatedAt ≤ s.updatedAt) ↔
      ∀ i j, i < maxCount → maxCount ≤ j → j < db.sessionCount →
        (db.sessions j).updatedAt ≤ (db.sessions i).updatedAt := by
  obtain ⟨rows,hr,hin⟩ := db.sessionListing_lists maxCount
  constructor
  · rintro ⟨rows',hr',hout⟩ i j hi hj hjc
    have hmem : ∀ k, k < min db.sessionCount maxCount → db.sessions k ∈ db.sessionListing maxCount :=
      fun k hk => hr.copied ▸ mem_map_of_mem ((hin k).mpr hk)
    by_contra hlt
    have hnew : ∀ k, k < db.sessionCount → (db.sessions j).updatedAt ≤ (db.sessions k).updatedAt → k ∈ rows' :=
      fun k hk hle => by_contra fun hno =>
        hlt (UInt64.le_trans hle (hout k hk hno _ (hmem i (by omega))))
    -- so `rows'` has more of the sessions as new as `j` than the listing
    let new : Session → Bool := fun s => (db.sessions j).updatedAt ≤ s.updatedAt
    have hcount : (rows'.map db.sessions).countP new = (rows.map db.sessions).countP new := by
      rw [← hr.copied,← hr'.copied]
    rw [countP_map,countP_map,countP_eq_length_filter,countP_eq_length_filter] at hcount
    have hsub : j :: rows.filter (new ∘ db.sessions) ⊆ rows'.filter (new ∘ db.sessions) := by
      intro k hk
      refine mem_filter.mpr ?_
      rcases mem_cons.mp hk with rfl | hk
      · exact ⟨hnew k hjc (UInt64.le_refl _),by simp [new]⟩
      · obtain ⟨hk,hle⟩ := mem_filter.mp hk
        exact ⟨hnew k (hr.stored k hk) (by simpa [new] using hle),hle⟩
    have hnot : j ∉ rows := fun hm => by have := (hin j).mp hm; omega
    have hlen := ((nodup_cons.mpr ⟨fun hm => hnot (mem_of_mem_filter hm),hr.nodup.filter _⟩).subperm hsub).length_le
    rw [length_cons] at hlen
    omega
  · intro h
    refine ⟨rows,hr,fun j hj hout s hs => ?_⟩
    rw [hr.copied] at hs
    obtain ⟨i,hi,rfl⟩ := mem_map.mp hs
    have h1 := (hin i).mp hi
    have h2 := mt (hin j).mpr hout
    exact h i j (by omega) (by omega) hj

/-- The table keeps the order of creation, so the session updated last is left out. -/
theorem sessionListing_stale :
    let db := ((opened.sessionCreate (some []) 1).2.sessionCreate (some []) 2).2
    (db.sessionListing 1).map (fun s => (s.sessionId,s.updatedAt)) = [(1,1)] ∧
      1 < db.sessionCount ∧ (db.sessions 1).updatedAt = 2 := by
  decide

/-- `db_message_t`, its text a copy of the stored one. -/
structure DbMessage where
  id : UInt64
  sessionId : UInt64
  parentId : UInt64
  timestamp : UInt64
  role : UInt8
  tokenCount : UInt32
  text : Option Bytes
  textLen : UInt32
  childCount : UInt32
  depth : UInt32
  deriving DecidableEq

def fillDbMessage (m : IMsg) : DbMessage :=
  ⟨m.id,m.sessionId,m.parentId,m.timestamp,m.role,m.tokenCount,m.text.map Text.bytes,m.textLen,
    m.childCount,m.depth⟩

def findMsgById (db : Db) (i : UInt64) : Option IMsg := db.messageList.find? (fun m => m.id == i)

/-- The walk of `aevos_db_history_get_branch` up the parents, with room for `n` ids. -/
def pathUp (db : Db) : Nat → UInt64 → List UInt64
  | 0, _ => []
  | n+1, cur =>
    if cur = 0 then []
    else cur :: match db.findMsgById cur with
      | none => []
      | some m => pathUp db n m.parentId

/-- The rows counted in `out_count`; `none` is a row the call has not written. -/
def historyGetBranch (db : Db) (leaf : UInt64) (maxCount : Nat) : List (Option DbMessage) :=
  ((db.pathUp 512 leaf).reverse.take maxCount).map (fun i => (db.findMsgById i).map fillDbMessage)

/-- The parents lead from `i` to a root over `k` stored messages. -/
inductive PathLength (db : Db) : UInt64 → Nat → Prop where
  | none : PathLength db 0 0
  | up {i : UInt64} {m : IMsg} {k : Nat} : i ≠ 0 → db.findMsgById i = some m →
      PathLength db m.parentId k → PathLength db i (k+1)

variable {db : Db} {leaf : UInt64} {k n : Nat}

theorem PathLength.unique (h : db.PathLength leaf k) (h' : db.PathLength leaf n) : k = n := by
  induction h generalizing n with
  | none =>
    cases h' with
    | none => rfl
    | up h0 => exact absurd rfl h0
  | up h0 hf _ ih =>
    cases h' with
    | none => exact absurd rfl h0
    | up _ hf' hc =>
      obtain rfl := Option.some.inj (hf.symm.trans hf')
      rw [ih hc]

theorem PathLength.pathUp (h : db.PathLength leaf k) (hn : k ≤ n) :
    ∃ ms : List IMsg, db.pathUp n leaf = ms.map IMsg.id ∧ ms.length = k ∧
      (∀ m ∈ ms, db.findMsgById m.id = some m) ∧ (∀ m ∈ ms.head?, m.id = leaf) ∧
      ms.IsChain (fun a b => a.parentId = b.id) ∧ ∀ m ∈ ms.getLast?, m.parentId = 0 := by
  induction h generalizing n with
  | none => exact ⟨[],by cases n <;> simp [Db.pathUp],by simp⟩
  | @up i m k h0 hf hc ih =>
    obtain ⟨n,rfl⟩ := Nat.exists_eq_succ_of_ne_zero (Nat.ne_zero_of_lt hn)
    obtain ⟨ms,h1,h2,h3,h4,h5,h6⟩ := ih (Nat.le_of_succ_le_succ hn)
    have hid : m.id = i := by simpa using find?_some hf
    refine ⟨m :: ms,by simp [Db.pathUp,h0,hf,h1,hid],by simp [h2],by simpa [hid,hf] using h3,by simp [hid],?_⟩
    cases ms with
    | nil =>
      subst h2
      generalize hp : m.parentId = p at hc
      cases hc
      simpa using hp
    | cons a ms => exact ⟨by simpa [h4 a rfl] using h5,by simpa using h6⟩

theorem pathLength_of_root {i cur : UInt64} {m : IMsg} (hi : (db.pathUp n cur).getLast? = some i)
    (hf : db.findMsgById i = some m) (hm : m.parentId = 0) : ∃ k ≤ n, db.PathLength cur k := by
  induction n generalizing cur with
  | zero => simp [pathUp] at hi
  | succ n ih =>
    rw [pathUp] at hi
    split at hi
    · simp at hi
    next h0 =>
    cases hc : db.findMsgById cur with
    | none =>
      obtain rfl : cur = i := by simpa [hc] using hi
      simp [hc] at hf
    | some m' =>
      cases hp : db.pathUp n m'.parentId with
      | nil =>
        obtain rfl : cur = i := by simpa [hc,hp] using hi
        obtain rfl := Option.some.inj (hc.symm.trans hf)
        exact ⟨1,by omega,.up h0 hf (hm ▸ .none)⟩
      | cons a l =>
        obtain ⟨k,hk,hl⟩ : ∃ k ≤ n, db.PathLength m'.parentId k := ih (by simpa [hc,hp] using hi)
        exact ⟨k+1,by omega,.up h0 hc hl⟩

/-- The rows from a root down towards the leaf. -/
structure Branch (db : Db) (leaf : UInt64) (maxCount : Nat) (rows : List DbMessage) : Prop where
  stored : ∀ r ∈ rows, ∃ m ∈ db.messageList, r = fillDbMessage m
  root : ∀ r ∈ rows.head?, r.parentId = 0
  linked : rows.IsChain (fun a b => b.parentId = a.id)
  last : ∀ k, db.PathLength leaf k → 0 < k → k ≤ maxCount → ∃ r ∈ rows.getLast?, r.id = leaf

/-- The branch is right exactly for leaves with at most 512 messages up to a root. -/
theorem historyGetBranch_path_iff (db : Db) (leaf : UInt64) (maxCount : Nat) :
    (∃ rows, db.historyGetBranch leaf maxCount = rows.map some ∧ db.Branch leaf maxCount rows) ↔
      maxCount = 0 ∨ ∃ k ≤ 512, db.PathLength leaf k := by
  constructor
  · rintro ⟨rows,hr,hb⟩
    refine or_iff_not_imp_left.mpr fun hm => ?_
    have hh := congrArg head? hr
    simp only [historyGetBranch,head?_map,head?_take,head?_reverse,if_neg hm] at hh
    cases hi : (db.pathUp 512 leaf).getLast? with
    | none =>
      by_cases h0 : leaf = 0
      · exact ⟨0,by omega,h0 ▸ .none⟩
      · rw [show 512 = 511+1 from rfl,pathUp,if_neg h0] at hi
        simp at hi
    | some i =>
      cases rows with
      | nil => simp [hi] at hh
      | cons r rows =>
        obtain ⟨m,hf,rfl⟩ : ∃ m, db.findMsgById i = some m ∧ fillDbMessage m = r := by simpa [hi] using hh
        exact pathLength_of_root hi hf (hb.root _ rfl)
  rintro (rfl | ⟨k,hk,hc⟩)
  · exact ⟨[],by simp [historyGetBranch],by simp,by simp,.nil,fun k _ _ _ => by omega⟩
  obtain ⟨ms,h1,h2,h3,h4,h5,h6⟩ := hc.pathUp hk
  refine ⟨(ms.reverse.take maxCount).map fillDbMessage,?_,?_,?_,?_,?_⟩
  · rw [historyGetBranch,h1,← map_reverse,← map_take,map_map,map_map]
    refine map_congr_left fun m hm => ?_
    simp [h3 m (by simpa using mem_of_mem_take hm)]
  · intro r hr
    obtain ⟨m,hm,rfl⟩ := mem_map.mp hr
    exact ⟨m,mem_of_find?_eq_some (h3 m (by simpa using mem_of_mem_take hm)),rfl⟩
  · intro r hr
    simp only [head?_map,head?_take,head?_reverse] at hr
    split at hr
    · simp at hr
    · obtain ⟨m,hm,rfl⟩ := Option.map_eq_some_iff.mp hr
      exact h6 m hm
  · rw [isChain_map]
    exact (isChain_reverse.mpr h5).take _
  · intro k' hc' hpos hle
    obtain rfl := hc.unique hc'
    cases ms with
    | nil => simp at h2; omega
    | cons m ms =>
      refine ⟨fillDbMessage m,?_,h4 m rfl⟩
      rw [take_of_length_le (by simp at h2 ⊢; omega)]
      simp

/-- A leaf that is not stored is counted, but its row is never written. -/
theorem historyGetBranch_missing : opened.historyGetBranch 5 4 = [none] := by decide

end AevOS.ConvDb.Db
