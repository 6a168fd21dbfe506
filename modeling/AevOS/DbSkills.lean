import AevOS.ConversationDb
import AevOS.KeyedList
import AevOS.Runs

/-! The skill rows of `aevos_db.c`: `aevos_db_skill_save`, `aevos_db_skill_load` and
`aevos_db_skill_delete`, with the blobs of the rows in blocks of the heap. -/

namespace AevOS.DbSkills
open Wire ArrayPrefix KeyedList Runs Function
open List hiding lookup

def dbMaxSkills : Nat := 256
def skillNameLen : Nat := 64

structure Info where
  id : UInt64
  name : Fin skillNameLen → UInt8
  description : Fin 256 → UInt8
  signature : Fin 128 → UInt8
  successRate : UInt32
  callCount : UInt32
  failCount : UInt32
  createdAt : UInt64
  lastUsed : UInt64
  version : UInt32
  active : Bool
  elfBlobLen : UInt32
  deriving DecidableEq

structure Skill where
  info : Info
  elfBlob : Option Bytes
  deriving DecidableEq

structure Row where
  info : Info
  elfBlob : Nat
  deriving DecidableEq

abbrev Heap := Nat → Option Bytes

structure Store where
  skills : Nat → Row
  skillCount : Nat
  skillCount_le : skillCount ≤ dbMaxSkills
  heap : Heap

def strncmpEq : Nat → Bytes → Bytes → Bool
  | 0, _, _ => true
  | n+1, a, b =>
    if a.headD 0 ≠ 0 ∧ a.headD 0 = b.headD 0 then strncmpEq n a.tail b.tail else a.headD 0 == b.headD 0

def Info.nameBytes (i : Info) : Bytes := List.ofFn i.name
def kfree (heap : Heap) (block : Nat) : Heap := if block = 0 then heap else setAt heap block none

def copyBlob (heap : Heap) (skill : Skill) (block : Nat) : Nat × Heap :=
  match skill.elfBlob with
  | none => (0,heap)
  | some bytes =>
    if skill.info.elfBlobLen = 0 ∨ block = 0 then (0,heap)
    else (block,setAt heap block (some (bytes.take skill.info.elfBlobLen.toNat)))

def isNamed (name : Bytes) (r : Row) : Bool := strncmpEq skillNameLen r.info.nameBytes name

def overwrite (db : Store) (i : Nat) (skill : Skill) (block : Nat) : Store :=
  let copy := copyBlob (kfree db.heap (db.skills i).elfBlob) skill block
  { db with skills := setAt db.skills i ⟨skill.info,copy.1⟩, heap := copy.2 }

def append (db : Store) (h : db.skillCount < dbMaxSkills) (skill : Skill) (block : Nat) : Store :=
  let copy := copyBlob db.heap skill block
  { skills := setAt db.skills db.skillCount ⟨skill.info,copy.1⟩
    skillCount := db.skillCount+1
    skillCount_le := h
    heap := copy.2 }

def aevosDbSkillSave (db : Store) (skill : Option Skill) (block : Nat) : Except Errno Unit × Store :=
  match skill with
  | none => (.error .einval,db)
  | some skill =>
    match findFirst (isNamed skill.info.nameBytes) db.skillCount db.skills with
    | some i => (.ok (),overwrite db i skill block)
    | none =>
      if h : db.skillCount < dbMaxSkills then (.ok (),append db h skill block) else (.error .enospc,db)

def fetch (heap : Heap) (granted : Bool) (r : Row) : Skill :=
  ⟨r.info,if r.elfBlob ≠ 0 ∧ r.info.elfBlobLen ≠ 0 ∧ granted then
      (heap r.elfBlob).map fun bytes => bytes.take r.info.elfBlobLen.toNat
    else none⟩

def aevosDbSkillLoad (db : Store) (name : Option CStr) (granted : Bool) : Except Errno Skill :=
  match name with
  | none => .error .einval
  | some name =>
    match findFirst (isNamed name.bytes) db.skillCount db.skills with
    | some i => .ok (fetch db.heap granted (db.skills i))
    | none => .error .enoent

def remove (db : Store) (i : Nat) : Store where
  skills := shiftDown (db.skillCount-1-i) i db.skills
  skillCount := db.skillCount-1
  skillCount_le := Nat.le_trans (Nat.sub_le _ _) db.skillCount_le
  heap := kfree db.heap (db.skills i).elfBlob

def aevosDbSkillDelete (db : Store) (id : UInt64) : Except Errno Unit × Store :=
  match findFirst (fun r => r.info.id == id) db.skillCount db.skills with
  | some i => (.ok (),remove db i)
  | none => (.error .enoent,db)

inductive Op
  | save (skill : Option Skill) (block : Nat)
  | load (name : Option CStr) (granted : Bool)
  | delete (id : UInt64)

def step (db : Store) : Op → Store
  | .save skill block => (aevosDbSkillSave db skill block).2
  | .load _ _ => db
  | .delete id => (aevosDbSkillDelete db id).2

def emptyRow : Row := ⟨⟨0,fun _ => 0,fun _ => 0,fun _ => 0,0,0,0,0,0,0,false,0⟩,0⟩
def opened : Store := ⟨fun _ => emptyRow,0,Nat.zero_le _,fun _ => none⟩
def nameKey (name : Bytes) : Bytes := (name.take skillNameLen).takeWhile fun c => c ≠ 0
def Skill.key (s : Skill) : Bytes := nameKey s.info.nameBytes

def Skill.data (s : Skill) : Skill :=
  ⟨s.info,if s.info.elfBlobLen = 0 then none else s.elfBlob.map fun bytes => bytes.take s.info.elfBlobLen.toNat⟩

def hasId (id : UInt64) (s : Skill) : Bool := s.info.id == id
def rows (db : Store) : List Row := firsts db.skills db.skillCount
def contents (db : Store) : List Skill := (rows db).map (fetch db.heap true)

def recorded (db : Store) (m : Bytes → Option Skill) : Op → Bytes → Option Skill
  | .save (some skill) block =>
    match (aevosDbSkillSave db (some skill) block).1 with
    | .ok _ => update m skill.key (some skill.data)
    | .error _ => m
  | .delete id =>
    match (contents db).find? (hasId id) with
    | some s => update m s.key none
    | none => m
  | .save none _ | .load _ _ => m

def records (db : Store) (m : Bytes → Option Skill) : List Op → Bytes → Option Skill
  | [] => m
  | op :: ops => records (step db op) (recorded db m op) ops

/-- The call gets the block it asks for, one that is not in use. -/
def Granted (db : Store) : Op → Prop
  | .save (some skill) block =>
    block ≠ 0 ∧ match findFirst (isNamed skill.info.nameBytes) db.skillCount db.skills with
      | some i => kfree db.heap (db.skills i).elfBlob block = none
      | none => db.heap block = none
  | .load _ granted => granted = true
  | .save none _ | .delete _ => True

theorem takeWhile_take_succ (n : Nat) (a : Bytes) : ((a.take (n+1)).takeWhile fun c => c ≠ 0) =
    if a.headD 0 ≠ 0 then a.headD 0 :: ((a.tail.take n).takeWhile fun c => c ≠ 0) else [] := by
  cases a with
  | nil => rfl
  | cons x a => simp [takeWhile_cons]

theorem strncmpEq_iff (n : Nat) (a b : Bytes) :
    strncmpEq n a b = true ↔ ((a.take n).takeWhile fun c => c ≠ 0) = ((b.take n).takeWhile fun c => c ≠ 0) := by
  induction n generalizing a b with
  | zero => simp [strncmpEq]
  | succ n ih =>
    rw [takeWhile_take_succ,takeWhile_take_succ,strncmpEq]
    split
    · rename_i hs
      rw [ih,if_pos hs.1,if_pos (hs.2 ▸ hs.1),hs.2,cons_inj_right]
    rename_i hst
    rw [beq_iff_eq]
    constructor
    · intro heq
      have hz : a.headD 0 = 0 := by
        by_contra hne
        exact hst ⟨hne,heq⟩
      rw [if_neg (not_not.mpr hz),if_neg (not_not.mpr (heq ▸ hz))]
    intro heq
    split at heq
    · rename_i hne
      split at heq
      · exact (cons.inj heq).1
      · cases heq
    rename_i hz
    split at heq
    · cases heq
    · rename_i hz'
      rw [not_not.mp hz,not_not.mp hz']

theorem isNamed_iff (name : Bytes) (r : Row) : isNamed name r = true ↔ nameKey r.info.nameBytes = nameKey name :=
  strncmpEq_iff _ _ _

def Apart (r r' : Row) : Prop := r.elfBlob ≠ 0 → r.elfBlob ≠ r'.elfBlob

variable {r' : Row} {block i : Nat} {db : Store} {skill : Skill}

theorem Apart.symm {r : Row} (h : Apart r r') : Apart r' r := by
  intro hne heq
  exact h (heq ▸ hne) heq.symm

structure Owned (heap : Heap) (l : List Row) : Prop where
  live : ∀ r ∈ l, r.elfBlob ≠ 0 → heap r.elfBlob ≠ none
  apart : l.Pairwise Apart

section
variable {heap heap' : Heap} {before after : List Row} {r : Row}

theorem fetch_congr (h : r.elfBlob ≠ 0 → heap' r.elfBlob = heap r.elfBlob) : fetch heap' true r = fetch heap true r := by
  unfold fetch
  by_cases hn : r.elfBlob = 0
  · rw [if_neg (fun hc => hc.1 hn),if_neg (fun hc => hc.1 hn)]
  · rw [h hn]

theorem apart_middle : (before ++ r :: after).Pairwise Apart ↔
    (∀ r' ∈ before ++ after, Apart r r') ∧ (before ++ after).Pairwise Apart := by
  rw [pairwise_middle Apart.symm,pairwise_cons]

theorem mem_middle : r' ∈ before ++ r :: after ↔ r' = r ∨ r' ∈ before ++ after := by
  rw [perm_middle.mem_iff,mem_cons]

theorem Owned.free (h : Owned heap (before ++ r :: after)) : Owned (kfree heap r.elfBlob) (before ++ after) ∧
    ∀ r' ∈ before ++ after, fetch (kfree heap r.elfBlob) true r' = fetch heap true r' := by
  obtain ⟨hr,hrs⟩ := apart_middle.mp h.apart
  have hs : ∀ r' ∈ before ++ after, kfree heap r.elfBlob r'.elfBlob = heap r'.elfBlob := by
    intro r' hr'
    unfold kfree
    split
    · rfl
    · rename_i hb
      exact setAt_ne _ _ (hr r' hr' hb).symm
  refine ⟨⟨fun r' hr' hne => ?_,hrs⟩,fun r' hr' => fetch_congr fun _ => hs r' hr'⟩
  rw [hs r' hr']
  exact h.live r' (mem_middle.mpr (.inr hr')) hne

theorem copyBlob_cases (heap : Heap) (skill : Skill) (hb : block ≠ 0) :
    (copyBlob heap skill block = (0,heap) ∧ skill.data.elfBlob = none) ∨
      ∃ bytes, copyBlob heap skill block = (block,setAt heap block (some bytes)) ∧ skill.data.elfBlob = some bytes ∧
        skill.info.elfBlobLen ≠ 0 ∧ bytes.take skill.info.elfBlobLen.toNat = bytes := by
  unfold copyBlob Skill.data
  cases hbl : skill.elfBlob with
  | none => exact .inl ⟨rfl,by simp⟩
  | some bytes =>
    by_cases hlen : skill.info.elfBlobLen = 0
    · exact .inl ⟨if_pos (.inl hlen),if_pos hlen⟩
    · refine .inr ⟨bytes.take skill.info.elfBlobLen.toNat,if_neg (by simp [hlen,hb]),?_,hlen,?_⟩
      · exact if_neg hlen
      · rw [take_take,min_self]

theorem Owned.copy (h : Owned heap (before ++ after)) (skill : Skill) (hb : block ≠ 0)
    (hf : heap block = none) :
    Owned (copyBlob heap skill block).2 (before ++ ⟨skill.info,(copyBlob heap skill block).1⟩ :: after) ∧
      (∀ r' ∈ before ++ after, fetch (copyBlob heap skill block).2 true r' = fetch heap true r') ∧
      fetch (copyBlob heap skill block).2 true ⟨skill.info,(copyBlob heap skill block).1⟩ = skill.data := by
  have ho : ∀ r' ∈ before ++ after, r'.elfBlob ≠ 0 → r'.elfBlob ≠ block := by
    intro r' hr' hne heq
    exact h.live r' hr' hne (heq ▸ hf)
  rcases copyBlob_cases heap skill hb with ⟨hc,hd⟩ | ⟨bytes,hc,hd,hlen,hby⟩
  · rw [hc]
    refine ⟨⟨fun r' hr' hne => ?_,apart_middle.mpr ⟨fun r' _ hne => absurd rfl hne,h.apart⟩⟩,fun _ _ => rfl,?_⟩
    · rcases mem_middle.mp hr' with rfl | hr'
      · exact absurd rfl hne
      · exact h.live r' hr' hne
    · exact congrArg (Skill.mk skill.info) hd.symm
  rw [hc]
  dsimp only
  have hs : ∀ r' ∈ before ++ after, r'.elfBlob ≠ 0 → setAt heap block (some bytes) r'.elfBlob = heap r'.elfBlob :=
    fun r' hr' hne => setAt_ne _ _ (ho r' hr' hne)
  refine ⟨⟨fun r' hr' hne => ?_,apart_middle.mpr ⟨fun r' hr' _ heq => ?_,h.apart⟩⟩,
    fun r' hr' => fetch_congr (hs r' hr'),?_⟩
  · rcases mem_middle.mp hr' with rfl | hr'
    · rw [setAt_self]
      exact Option.some_ne_none _
    · rw [hs r' hr' hne]
      exact h.live r' hr' hne
  · have heq : block = r'.elfBlob := heq
    exact ho r' hr' (heq ▸ hb) heq.symm
  have hfn : fetch (setAt heap block (some bytes)) true ⟨skill.info,block⟩ = ⟨skill.info,some bytes⟩ := by
    unfold fetch
    rw [if_pos ⟨hb,hlen,rfl⟩,setAt_self,Option.map_some,hby]
  rw [hfn,← hd]
  rfl

end

structure Inv (db : Store) : Prop where
  owned : Owned db.heap (rows db)
  distinct : ((contents db).map Skill.key).Nodup

def stored (db : Store) : Bytes → Option Skill := lookup Skill.key (contents db)

theorem aevosDbSkillLoad_eq (db : Store) (name : CStr) : aevosDbSkillLoad db (some name) true =
      match stored db (nameKey name.bytes) with
      | some s => .ok s
      | none => .error .enoent := by
  have hfn : stored db (nameKey name.bytes) =
      ((rows db).find? (isNamed name.bytes)).map (fetch db.heap true) := by
    rw [stored,lookup,contents,find?_map]
    congr 2
    funext r
    rw [Bool.eq_iff_iff,isNamed_iff,comp_apply,decide_eq_true_iff]
    rfl
  rw [hfn]
  unfold aevosDbSkillLoad
  dsimp only
  split
  · rename_i i hf
    rw [rows,find?_firsts hf]
    rfl
  · rename_i hf
    rw [rows,find?_eq_none.mpr fun r hr => by simp [findFirst_none hf r hr]]
    rfl

theorem contents_put {db' : Store} {heap : Heap} {before after : List Row}
    (hon : Owned heap (before ++ after))
    (hs : ∀ r ∈ before ++ after, fetch heap true r = fetch db.heap true r) (hb : block ≠ 0)
    (hf : heap block = none) (hrw : rows db' = before ++ ⟨skill.info,(copyBlob heap skill block).1⟩ :: after)
    (hh : db'.heap = (copyBlob heap skill block).2) : Owned db'.heap (rows db') ∧
      contents db' = before.map (fetch db.heap true) ++ skill.data :: after.map (fetch db.heap true) := by
  obtain ⟨hown,ho,hnew⟩ := hon.copy skill hb hf
  rw [← hh] at hown ho hnew
  refine ⟨hrw ▸ hown,?_⟩
  rw [contents,hrw,map_append,map_cons,hnew]
  congr 1
  · exact map_congr_left fun r hr =>
      (ho r (mem_append_left _ hr)).trans (hs r (mem_append_left _ hr))
  · congr 1
    exact map_congr_left fun r hr =>
      (ho r (mem_append_right _ hr)).trans (hs r (mem_append_right _ hr))

theorem overwrite_spec (hs : Inv db) (hi : i < db.skillCount)
    (hkey : skill.key = nameKey (db.skills i).info.nameBytes) (hb : block ≠ 0)
    (hf : kfree db.heap (db.skills i).elfBlob block = none) : Inv (overwrite db i skill block) ∧
      stored (overwrite db i skill block) = update (stored db) skill.key (some skill.data) := by
  have ho := hs.owned
  have hd := hs.distinct
  rw [contents] at hd
  rw [rows,firsts_split db.skills hi] at ho hd
  rw [map_append,map_cons] at hd
  obtain ⟨hr,hsm⟩ := ho.free
  have hrw : rows (overwrite db i skill block) =
      firsts db.skills i ++ ⟨skill.info,(copyBlob (kfree db.heap (db.skills i).elfBlob) skill block).1⟩ ::
        firsts (fun k => db.skills (i+1+k)) (db.skillCount-(i+1)) := firsts_setAt db.skills hi _
  obtain ⟨hown,hc⟩ := contents_put hr hsm hb hf hrw rfl
  have hdt : skill.data.key = (fetch db.heap true (db.skills i)).key := hkey
  refine ⟨⟨hown,?_⟩,?_⟩
  · rw [hc]
    exact nodup_replace hd hdt
  · rw [stored,hc,lookup_replace hd hdt,stored,contents,rows,firsts_split db.skills hi,
      map_append,map_cons]
    rfl

theorem append_spec (hs : Inv db) (hr : db.skillCount < dbMaxSkills)
    (hnew : skill.key ∉ (contents db).map Skill.key) (hb : block ≠ 0) (hf : db.heap block = none) :
    Inv (append db hr skill block) ∧
      stored (append db hr skill block) = update (stored db) skill.key (some skill.data) := by
  have ho : Owned db.heap (rows db ++ []) := by
    rw [append_nil]
    exact hs.owned
  have hrw : rows (append db hr skill block) =
      rows db ++ ⟨skill.info,(copyBlob db.heap skill block).1⟩ :: [] := by
    show firsts (setAt db.skills db.skillCount _) (db.skillCount+1) = _
    rw [firsts_succ,setAt_self]
    congr 1
    exact firsts_congr fun j hj => setAt_ne _ _ (ne_of_lt hj)
  obtain ⟨hown,hc⟩ := contents_put ho (fun _ _ => rfl) hb hf hrw rfl
  have hc : contents (append db hr skill block) = contents db ++ [skill.data] := hc
  refine ⟨⟨hown,?_⟩,?_⟩
  · rw [hc]
    exact nodup_concat hs.distinct hnew
  · rw [stored,hc]
    exact lookup_concat hnew

theorem save_spec (hs : Inv db) (skill : Skill) (hg : Granted db (.save (some skill) block)) :
    Inv (aevosDbSkillSave db (some skill) block).2 ∧
      stored (aevosDbSkillSave db (some skill) block).2 = recorded db (stored db) (.save (some skill) block) := by
  obtain ⟨hb,hf⟩ := hg
  rw [recorded,aevosDbSkillSave]
  cases hfr : findFirst (isNamed skill.info.nameBytes) db.skillCount db.skills with
  | some i =>
    rw [hfr] at hf
    obtain ⟨hi,hn,-⟩ := findFirst_some hfr
    exact overwrite_spec hs hi ((isNamed_iff _ _).mp hn).symm hb hf
  | none =>
    rw [hfr] at hf
    by_cases hrm : db.skillCount < dbMaxSkills
    · rw [dif_pos hrm]
      refine append_spec hs hrm ?_ hb hf
      rw [contents,map_map]
      intro hmem
      obtain ⟨r,hr,hkey⟩ := mem_map.mp hmem
      have hnot := findFirst_none hfr r hr
      rw [(isNamed_iff _ _).mpr hkey] at hnot
      cases hnot
    · rw [dif_neg hrm]
      exact ⟨hs,rfl⟩

theorem contents_split (db : Store) (hi : i < db.skillCount) :
    contents db = (firsts db.skills i).map (fetch db.heap true) ++ fetch db.heap true (db.skills i) ::
      (firsts (fun k => db.skills (i+1+k)) (db.skillCount-(i+1))).map (fetch db.heap true) := by
  rw [contents,rows,firsts_split db.skills hi,map_append,map_cons]

theorem remove_spec (hs : Inv db) (hi : i < db.skillCount) :
    Inv (remove db i) ∧ contents (remove db i) = (contents db).eraseIdx i ∧
      stored (remove db i) = update (stored db) (nameKey (db.skills i).info.nameBytes) none := by
  have ho := hs.owned
  have hd := hs.distinct
  have hlen : (firsts db.skills i).length = i := firsts_length db.skills i
  rw [rows,firsts_split db.skills hi] at ho
  rw [contents_split db hi] at hd
  obtain ⟨hrs,hsm⟩ := ho.free
  have hr : rows (remove db i) =
      firsts db.skills i ++ firsts (fun k => db.skills (i+1+k)) (db.skillCount-(i+1)) := by
    show firsts (shiftDown _ i db.skills) (db.skillCount-1) = _
    rw [firsts_shiftDown db.skills hi,firsts_split db.skills hi,eraseIdx_append_of_length_le (by rw [hlen]),hlen,
      Nat.sub_self,eraseIdx_cons_zero]
  have hc : contents (remove db i) = (firsts db.skills i).map (fetch db.heap true) ++
      (firsts (fun k => db.skills (i+1+k)) (db.skillCount-(i+1))).map (fetch db.heap true) := by
    rw [contents,hr,← map_append]
    exact map_congr_left hsm
  refine ⟨⟨?_,?_⟩,?_,?_⟩
  · rw [hr]
    exact hrs
  · rw [hc]
    exact nodup_remove hd
  · rw [hc,contents_split db hi,eraseIdx_append_of_length_le (by rw [length_map,hlen]),
      length_map,hlen,Nat.sub_self,eraseIdx_cons_zero]
  · rw [stored,hc,lookup_remove hd,stored,← contents_split db hi]
    rfl

theorem delete_spec (hs : Inv db) (id : UInt64) : Inv (aevosDbSkillDelete db id).2 ∧
    contents (aevosDbSkillDelete db id).2 = (contents db).eraseP (hasId id) ∧
    stored (aevosDbSkillDelete db id).2 = recorded db (stored db) (.delete id) := by
  rw [recorded,aevosDbSkillDelete]
  cases hf : findFirst (fun r => r.info.id == id) db.skillCount db.skills with
  | none =>
    have hn : ∀ s ∈ contents db, ¬ hasId id s = true := by
      intro s hmem
      obtain ⟨r,hr,rfl⟩ := mem_map.mp hmem
      exact Bool.not_eq_true _ ▸ findFirst_none hf r hr
    rw [find?_eq_none.mpr hn,eraseP_of_forall_not hn]
    exact ⟨hs,rfl,rfl⟩
  | some i =>
    obtain ⟨hi,hid,hlow⟩ := findFirst_some hf
    have hb : ∀ s ∈ (firsts db.skills i).map (fetch db.heap true), ¬ hasId id s = true := by
      intro s hmem
      obtain ⟨r,hr,rfl⟩ := mem_map.mp hmem
      obtain ⟨j,hj,rfl⟩ := mem_firsts.mp hr
      exact Bool.not_eq_true _ ▸ hlow j hj
    have hrow : hasId id (fetch db.heap true (db.skills i)) = true := hid
    have hfn : (contents db).find? (hasId id) = some (fetch db.heap true (db.skills i)) := by
      rw [contents_split db hi,find?_append,find?_eq_none.mpr hb,Option.none_or,
        find?_cons_of_pos hrow]
    obtain ⟨hinv,hc,hst⟩ := remove_spec hs hi
    rw [hfn]
    refine ⟨hinv,?_,hst⟩
    rw [hc,contents_split db hi,eraseP_append_right _ hb,
      eraseP_cons_of_pos hrow,eraseIdx_append_of_length_le (by simp)]
    simp

theorem inv_opened : Inv opened := ⟨⟨fun _ hr => absurd hr not_mem_nil,Pairwise.nil⟩,nodup_nil⟩

theorem step_spec (hs : Inv db) {op : Op} (hg : Granted db op) :
    Inv (step db op) ∧ stored (step db op) = recorded db (stored db) op := by
  cases op with
  | save skill block =>
    cases skill with
    | none => exact ⟨hs,rfl⟩
    | some skill => exact save_spec hs skill hg
  | load name granted => exact ⟨hs,rfl⟩
  | delete id => exact ⟨(delete_spec hs id).1,(delete_spec hs id).2.2⟩

theorem run_spec (hs : Inv db) {ops : List Op} (hg : Along step Granted db ops) :
    Inv (run step db ops) ∧ stored (run step db ops) = records db (stored db) ops := by
  induction ops generalizing db with
  | nil => exact ⟨hs,rfl⟩
  | cons op ops ih =>
    obtain ⟨hn,hst⟩ := step_spec hs hg.1
    rw [records,← hst]
    exact ih hn hg.2

theorem skillStore_map (ops : List Op) (hgrant : Along step Granted opened ops) :
    ((contents (run step opened ops)).map Skill.key).Nodup ∧
      (∀ name, aevosDbSkillLoad (run step opened ops) (some name) true =
        match records opened (fun _ => none) ops (nameKey name.bytes) with
        | some s => .ok s
        | none => .error .enoent) ∧
      ∀ id, contents (aevosDbSkillDelete (run step opened ops) id).2 =
        (contents (run step opened ops)).eraseP (hasId id) := by
  obtain ⟨hs,hstored⟩ := run_spec inv_opened hgrant
  refine ⟨hs.distinct,fun name => ?_,fun id => (delete_spec hs id).2.1⟩
  have hempty : stored opened = fun _ => none := rfl
  rw [aevosDbSkillLoad_eq,hstored,hempty]

def oneLetter (id : UInt64) (c : UInt8) (blob : Bytes) : Skill :=
  ⟨⟨id,fun i => if i.val = 0 then c else 0,fun _ => 0,fun _ => 0,0,0,0,0,0,1,true,UInt32.ofNat blob.length⟩,some blob⟩

def someOps : List Op :=
  [.save (some (oneLetter 1 97 [1,2])) 10,.save (some (oneLetter 2 98 [3])) 11,.save (some (oneLetter 5 97 [9])) 10,
    .delete 2]

theorem someOps_granted : Along step Granted opened someOps :=
  ⟨⟨by decide,rfl⟩,⟨by decide,rfl⟩,⟨by decide,rfl⟩,trivial,trivial⟩

theorem noNulA : (0 : UInt8) ∉ [97] := by decide
def letterA : CStr := ⟨[97],noNulA⟩

theorem skillStore_letter : Along step Granted opened someOps ∧
    aevosDbSkillLoad (run step opened someOps) (some letterA) true = .ok (oneLetter 5 97 [9]) :=
  ⟨someOps_granted,(skillStore_map someOps someOps_granted).2.1 letterA⟩

end AevOS.DbSkills
