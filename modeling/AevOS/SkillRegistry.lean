import AevOS.SkillImage
import AevOS.HashMap
import AevOS.Snprintf
import AevOS.Runs

/-! The skill table of `agent/skill.c` as a map by name: a table in which slots are never used
again, and a hash map from names to slots beside it. -/

namespace AevOS.SkillTable
open ArrayPrefix Wire Slab Buffer AgentImage SkillImage Runs List
open HashMap (Hashmap PutGrants hashmapCreate hashmapPut hashmapGet hashmapRemove hashmapClear
  fnv1aHash)
open Memory (Floats FloatBits)
open Str (format utf8)
open List (ofFn replicate)

def field (n : Nat) (bs : Bytes) : Fin n → UInt8 := fun k => byteAt bs k

variable {bs name : Bytes} {i size : Nat} {b : Buf} {buf : Addr}

section
variable {F : Type}

def storedName (s : Skill F) : Bytes :=
  (ofFn s.name ++ ofFn s.description ++ ofFn s.signature).takeWhile (fun c => decide (c ≠ 0))

structure Registry (F : Type) where
  engine : SkillEngine F
  byName : Option Hashmap
  handle : Nat → Nat
  freed : List Nat

def skillInit (zero : Skill F) (grantMap grantBuckets : Bool) : Registry F :=
  ⟨⟨fun _ => zero,0,1⟩,hashmapCreate grantMap grantBuckets 64,fun _ => 0,[]⟩

def free (freed : List Nat) (block : Nat) : List Nat := if block ≠ 0 then freed ++ [block] else freed

def skillDestroy (r : Registry F) : Registry F :=
  { r with
    engine := { r.engine with count := 0 }
    byName := none
    freed := (firsts r.handle r.engine.count).foldl free r.freed }

def called (name : Bytes) (s : Skill F) : Bool := s.active && storedName s == name

def newSkill (fl : Floats F) (id : UInt64) (name : Bytes) (description : Option Bytes) (now : UInt64) : Skill F where
  id := id
  name := field 64 (name.take 63)
  description := field 256 ((description.getD []).take 255)
  signature := field 128 ((format (utf8 "int %s(const char*, char*, size_t)") [.str (some name)]).take 127)
  successRate := fl.one
  callCount := 0
  failCount := 0
  totalLatencyUs := 0
  avgLatencyUs := 0
  isSandboxed := false
  createdAt := now
  version := 1
  active := true

def skillRegister (fl : Floats F) (r : Registry F) (grants : PutGrants) (now : UInt64) (fn : Bool)
    (name : Option CStr) (description : Option Bytes) : Option Nat × Registry F :=
  match name with
  | none => (none,r)
  | some name =>
    if fn = false then (none,r)
    else if r.engine.count ≥ maxSkills then (none,r)
    else if (firsts r.engine.skills r.engine.count).any (called name.bytes) then (none,r)
    else
      let slot := r.engine.count
      (some slot,{ r with
        engine :=
          ⟨setAt r.engine.skills slot (newSkill fl r.engine.nextId name.bytes description now),slot+1,
            r.engine.nextId+1⟩
        byName := r.byName.map fun m => (hashmapPut fnv1aHash grants m name.bytes (UInt64.ofNat slot)).2
        handle := setAt r.handle slot 0 })

def retired (s : Skill F) : Skill F := { s with active := false }

def skillUnregister (r : Registry F) (skillId : UInt64) : Int × Registry F :=
  match findFirst (fun s => s.id == skillId) r.engine.count r.engine.skills with
  | none => (-enoent,r)
  | some i => (0,{ r with
      engine := { r.engine with skills := setAt r.engine.skills i (retired (r.engine.skills i)) }
      byName := r.byName.map fun m => (hashmapRemove fnv1aHash m (storedName (r.engine.skills i))).2
      freed := free r.freed (r.handle i) })

def hashLookup (r : Registry F) (name : Bytes) : Option Nat :=
  match r.byName with
  | none => none
  | some m =>
    let v := hashmapGet fnv1aHash m name
    let idx := v.toNat%2^32
    if v ≠ 0 ∧ idx < r.engine.count ∧ called name (r.engine.skills idx) = true then some idx else none

def scanLookup (r : Registry F) (name : Bytes) : Option Nat :=
  findFirst (called name) r.engine.count r.engine.skills

def skillFindByName (r : Registry F) (name : Bytes) : Option Nat :=
  match hashLookup r name with
  | some i => some i
  | none => scanLookup r name

def skillMinCallsEval : UInt32 := 10

def retireSlot (fl : Floats F) (limit : F) (r : Registry F) (i : Nat) : Registry F :=
  let s := r.engine.skills i
  if s.active = true ∧ skillMinCallsEval ≤ s.callCount ∧ fl.lt s.successRate limit = true then
    { r with
      engine := { r.engine with skills := setAt r.engine.skills i (retired s) }
      byName := r.byName.map fun m => (hashmapRemove fnv1aHash m (storedName s)).2
      handle := setAt r.handle i 0
      freed := free r.freed (r.handle i) }
  else r

def skillAutoRetire (fl : Floats F) (limit : F) (r : Registry F) : Registry F :=
  (List.range r.engine.count).foldl (retireSlot fl limit) r

def refill (grants : Nat → PutGrants) (e : SkillEngine F) (m : Hashmap) : Hashmap :=
  (List.range e.count).foldl (fun m i =>
    if (e.skills i).active then (hashmapPut fnv1aHash (grants i) m (storedName (e.skills i)) (UInt64.ofNat i)).2
    else m) (hashmapClear m)

def skillLoad (fl : Floats F) (grants : Nat → PutGrants) (r : Registry F) (b : Buf) (buf : Addr) (size : Nat) :
    Int × Registry F :=
  let l := skillDeserialize fl r.engine b buf size
  (l.1,{ r with
    engine := l.2.2
    byName := if l.1 = 0 then r.byName.map (refill grants l.2.2) else r.byName
    handle := fun i => if r.engine.count ≤ i ∧ i < l.2.2.count then 0 else r.handle i })

def measure (r : Registry F) (i : Nat) (callCount : UInt32) (successRate : F) : Registry F :=
  { r with engine := { r.engine with
      skills := setAt r.engine.skills i { r.engine.skills i with callCount := callCount, successRate := successRate } } }

inductive Call (F : Type) where
  | register (grants : PutGrants) (now : UInt64) (fn : Bool) (name : Option CStr) (description : Option Bytes)
      (attach : Bool)
  | unregister (skillId : UInt64)
  | autoRetire
  | load (grants : Nat → PutGrants) (b : Buf) (buf : Addr) (size : Nat)
  | measure (i : Nat) (callCount : UInt32) (successRate : F)

structure World (F : Type) where
  reg : Registry F
  blocks : Nat
  last : Option (Bytes × Nat)

def step (fl : Floats F) (limit : F) (w : World F) : Call F → World F
  | .register grants now fn name description attach =>
    let r := skillRegister fl w.reg grants now fn name description
    match r.1, name with
    | some i, some name =>
      if attach then ⟨{ r.2 with handle := setAt r.2.handle i (w.blocks+1) },w.blocks+1,some (name.bytes,i)⟩
      else ⟨r.2,w.blocks,some (name.bytes,i)⟩
    | _, _ => ⟨r.2,w.blocks,none⟩
  | .unregister skillId => ⟨(skillUnregister w.reg skillId).2,w.blocks,none⟩
  | .autoRetire => ⟨skillAutoRetire fl limit w.reg,w.blocks,none⟩
  | .load grants b buf size => ⟨(skillLoad fl grants w.reg b buf size).2,w.blocks,none⟩
  | .measure i callCount successRate => ⟨measure w.reg i callCount successRate,w.blocks,none⟩

def activeNames (e : SkillEngine F) : List Bytes := (activeSkills e).map storedName

/-- Names are unique, and what the hash map finds is what the scan finds. -/
structure World.Map (w : World F) : Prop where
  unique : (activeNames w.reg.engine).Nodup
  agree : ∀ name i, hashLookup w.reg name = some i → scanLookup w.reg name = some i
  found : ∀ name i, w.last = some (name,i) → skillFindByName w.reg name = some i

def loadedNames (fl : Floats F) (e : SkillEngine F) (b : Buf) : List Bytes :=
  firsts (fun i => storedName (readSkill fl b (16+perSkill*i))) (loads e b)

def Tidy (fl : Floats F) (w : World F) : Call F → Prop
  | .register _ _ fn name _ _ => ∀ n, name = some n → fn = true → w.reg.engine.count < maxSkills →
      n.bytes ∉ activeNames w.reg.engine → n.bytes.length ≤ 63
  | .load _ b buf size => buf ≠ 0 → 12 ≤ size → leValue (get b 0 4) = skillSerialMagic →
      (activeNames w.reg.engine ++ loadedNames fl w.reg.engine b).Nodup
  | _ => True

section
variable (fl : Floats F) (e : SkillEngine F) (r : Registry F) (limit : F)

theorem takeWhile_zero {as : Bytes} (h : (0 : UInt8) ∉ as) :
    (as ++ 0 :: bs).takeWhile (fun c => decide (c ≠ 0)) = as := by
  rw [takeWhile_append_of_pos fun c hc => by simpa using ne_of_mem_of_not_mem hc h]
  simp

theorem ofFn_field {n : Nat} (h : bs.length < n) : ∃ rest, ofFn (field n bs) = bs ++ 0 :: rest := by
  refine ⟨replicate (n-bs.length-1) 0,?_⟩
  rw [← replicate_succ]
  apply ext_getElem
  · simp
    omega
  intro i hi hi'
  rw [List.getElem_ofFn]
  simp only [field]
  by_cases hib : i < bs.length
  · rw [byteAt_of_lt hib,getElem_append_left hib]
  · rw [getElem_append_right (by omega),getElem_replicate]
    simp [byteAt,getD_eq_getElem?_getD,getElem?_eq_none (show bs.length ≤ i by omega)]

theorem storedName_newSkill (id : UInt64) (name : CStr) (description : Option Bytes) (now : UInt64) :
    storedName (newSkill fl id name.bytes description now) = name.bytes.take 63 := by
  have hlen : (name.bytes.take 63).length < 64 := by
    rw [length_take]
    omega
  obtain ⟨rest,hr⟩ := ofFn_field hlen
  have hno : (0 : UInt8) ∉ name.bytes.take 63 := fun h => name.noNul (mem_of_mem_take h)
  simp only [storedName,newSkill]
  rw [hr,append_assoc,append_assoc,cons_append]
  exact takeWhile_zero hno

theorem mem_activeNames {e : SkillEngine F} :
    name ∈ activeNames e ↔ ∃ i, i < e.count ∧ called name (e.skills i) = true := by
  simp only [activeNames,activeSkills,mem_map,mem_filter,mem_firsts,called,Bool.and_eq_true,beq_iff_eq]
  constructor
  · rintro ⟨s,⟨⟨i,hi,rfl⟩,hact⟩,hn⟩
    exact ⟨i,hi,hact,hn⟩
  · rintro ⟨i,hi,hact,hn⟩
    exact ⟨e.skills i,⟨⟨i,hi,rfl⟩,hact⟩,hn⟩

theorem called_unique {e : SkillEngine F} (h : (activeNames e).Nodup) {j : Nat} (hi : i < e.count)
    (hj : j < e.count) (hni : called name (e.skills i) = true)
    (hnj : called name (e.skills j) = true) : i = j := by
  have hp : (firsts e.skills e.count).Pairwise
      (fun s t => s.active = true → t.active = true → storedName s ≠ storedName t) := by
    have := pairwise_filter.mp (pairwise_map.mp h)
    exact this.imp fun hst hs ht => hst hs ht
  rw [pairwise_firsts] at hp
  simp only [called,Bool.and_eq_true,beq_iff_eq] at hni hnj
  rcases lt_trichotomy i j with hlt | heq | hgt
  · exact absurd (hni.2.trans hnj.2.symm) (hp i j hlt hj hni.1 hnj.1)
  · exact heq
  · exact absurd (hnj.2.trans hni.2.symm) (hp j i hgt hi hnj.1 hni.1)

theorem hashLookup_some {r : Registry F} (h : hashLookup r name = some i) :
    i < r.engine.count ∧ called name (r.engine.skills i) = true := by
  unfold hashLookup at h
  split at h
  · cases h
  dsimp only at h
  split at h
  · rename_i hc
    obtain rfl := Option.some.inj h
    exact hc.2
  · cases h

theorem skillFindByName_some {r : Registry F} (h : skillFindByName r name = some i) :
    i < r.engine.count ∧ called name (r.engine.skills i) = true := by
  unfold skillFindByName at h
  split at h
  · rename_i j hj
    obtain rfl := Option.some.inj h
    exact hashLookup_some hj
  · have := findFirst_some h
    exact ⟨this.1,this.2.1⟩

theorem lookups_of_called {r : Registry F} (h : (activeNames r.engine).Nodup)
    (hi : i < r.engine.count) (hn : called name (r.engine.skills i) = true) :
    scanLookup r name = some i ∧ skillFindByName r name = some i := by
  have hs : scanLookup r name = some i := by
    apply findFirst_eq hi hn
    intro j hj
    by_contra hno
    have := called_unique h (lt_trans hj hi) hi (by simpa using hno) hn
    omega
  refine ⟨hs,?_⟩
  unfold skillFindByName
  cases hh : hashLookup r name with
  | none => exact hs
  | some j =>
    obtain ⟨hj,hnj⟩ := hashLookup_some hh
    rw [called_unique h hj hi hnj hn]

theorem map_of_unique {w : World F} (h : (activeNames w.reg.engine).Nodup)
    (hl : ∀ name i, w.last = some (name,i) →
      i < w.reg.engine.count ∧ called name (w.reg.engine.skills i) = true) : w.Map where
  unique := h
  agree := by
    intro name i hi
    obtain ⟨hlt,hn⟩ := hashLookup_some hi
    exact (lookups_of_called h hlt hn).1
  found := by
    intro name i hi
    obtain ⟨hlt,hn⟩ := hl name i hi
    exact (lookups_of_called h hlt hn).2

theorem activeNames_sublist {e e' : SkillEngine F} (hc : e'.count = e.count)
    (h : ∀ i < e.count, (e'.skills i).active = true →
      (e.skills i).active = true ∧ storedName (e'.skills i) = storedName (e.skills i)) :
    (activeNames e').Sublist (activeNames e) := by
  have hall : ∀ n ≤ e.count, (((firsts e'.skills n).filter (fun s => s.active)).map storedName).Sublist
      (((firsts e.skills n).filter (fun s => s.active)).map storedName) := by
    intro n
    induction n with
    | zero => simp [firsts]
    | succ n ih =>
      intro hn
      have ih := ih (by omega)
      simp only [firsts_succ,filter_append,map_append]
      refine ih.append ?_
      cases hact : (e'.skills n).active with
      | false => simp [hact]
      | true =>
        obtain ⟨ha,hnm⟩ := h n (by omega) hact
        simp [hact,ha,hnm]
  unfold activeNames activeSkills
  rw [hc]
  exact hall e.count (le_refl _)

theorem retired_sublist (k : Nat) :
    (activeNames { e with skills := setAt e.skills k (retired (e.skills k)) }).Sublist (activeNames e) := by
  refine activeNames_sublist rfl ?_
  intro i _ hact
  by_cases hik : i = k
  · subst hik
    simp [retired] at hact
  · simp only [setAt_ne _ _ hik] at hact ⊢
    exact ⟨hact,trivial⟩

theorem skillUnregister_sublist (skillId : UInt64) :
    (activeNames (skillUnregister r skillId).2.engine).Sublist (activeNames r.engine) := by
  unfold skillUnregister
  split
  · exact Sublist.refl _
  · exact retired_sublist r.engine _

theorem skillAutoRetire_sublist (r : Registry F) :
    (activeNames (skillAutoRetire fl limit r).engine).Sublist (activeNames r.engine) := by
  have hall : ∀ (l : List Nat) (r : Registry F),
      (activeNames (l.foldl (retireSlot fl limit) r).engine).Sublist (activeNames r.engine) := by
    intro l
    induction l with
    | nil => exact fun r => Sublist.refl _
    | cons i l ih =>
      intro r
      refine (ih (retireSlot fl limit r i)).trans ?_
      unfold retireSlot
      dsimp only
      split
      · exact retired_sublist r.engine i
      · exact Sublist.refl _
  exact hall _ r

theorem measure_sublist (i : Nat) (callCount : UInt32) (successRate : F) :
    (activeNames (measure r i callCount successRate).engine).Sublist (activeNames r.engine) := by
  refine activeNames_sublist rfl ?_
  intro j _ hact
  by_cases hij : j = i
  · subst hij
    simp only [measure,setAt_self] at hact ⊢
    exact ⟨hact,rfl⟩
  · simp only [measure,setAt_ne _ _ hij] at hact ⊢
    exact ⟨hact,trivial⟩

def added (fl : Floats F) (e : SkillEngine F) (name : Bytes) (description : Option Bytes) (now : UInt64) : SkillEngine F :=
  ⟨setAt e.skills e.count (newSkill fl e.nextId name description now),e.count+1,e.nextId+1⟩

theorem skillRegister_cases (grants : PutGrants) (now : UInt64) (fn : Bool) (name : Option CStr)
    (description : Option Bytes) : (skillRegister fl r grants now fn name description = (none,r) ∧
      ∀ n, name = some n → fn = true → r.engine.count < maxSkills → n.bytes ∈ activeNames r.engine) ∨
    ∃ n, name = some n ∧ fn = true ∧ r.engine.count < maxSkills ∧ n.bytes ∉ activeNames r.engine ∧
      skillRegister fl r grants now fn name description = (some r.engine.count,
        ⟨added fl r.engine n.bytes description now,
          r.byName.map fun m => (hashmapPut fnv1aHash grants m n.bytes (UInt64.ofNat r.engine.count)).2,
          setAt r.handle r.engine.count 0,r.freed⟩) := by
  have hany : ∀ n : Bytes, (firsts r.engine.skills r.engine.count).any (called n) = true ↔
      n ∈ activeNames r.engine := by
    intro n
    rw [mem_activeNames]
    simp
  unfold skillRegister
  cases name with
  | none => simp
  | some n =>
    dsimp only
    by_cases hfn : fn = false
    · rw [if_pos hfn]
      exact .inl ⟨rfl,by simp [hfn]⟩
    rw [if_neg hfn]
    by_cases hf : r.engine.count ≥ maxSkills
    · rw [if_pos hf]
      exact .inl ⟨rfl,fun _ _ _ hlt => absurd hlt (by omega)⟩
    rw [if_neg hf]
    by_cases hno : (firsts r.engine.skills r.engine.count).any (called n.bytes) = true
    · rw [if_pos hno]
      refine .inl ⟨rfl,fun n' hn' _ _ => ?_⟩
      obtain rfl := Option.some.inj hn'
      exact (hany _).mp hno
    · rw [if_neg hno]
      exact .inr ⟨n,rfl,by simpa using hfn,by omega,fun hm => hno ((hany _).mpr hm),rfl⟩

theorem activeNames_added (name : CStr) (description : Option Bytes) (now : UInt64) :
    activeNames (added fl e name.bytes description now) = activeNames e ++ [name.bytes.take 63] := by
  have hold : firsts (setAt e.skills e.count (newSkill fl e.nextId name.bytes description now)) e.count =
      firsts e.skills e.count := firsts_congr fun i hi => setAt_ne _ _ (ne_of_lt hi)
  have hact : (newSkill fl e.nextId name.bytes description now).active = true := rfl
  simp only [activeNames,activeSkills,added,firsts_succ,setAt_self,hold,filter_append,map_append,
    filter_cons,hact,if_true,filter_nil,map_cons,map_nil,storedName_newSkill]

theorem activeNames_load (hbuf : buf ≠ 0) (hsz : 12 ≤ size) (hm : leValue (get b 0 4) = skillSerialMagic) :
    activeNames (skillDeserialize fl e b buf size).2.2 = activeNames e ++ loadedNames fl e b := by
  have hsk := (@skillDeserialize_ok F fl e b buf size hbuf hsz hm).2.2.1
  have ha : ∀ n, (firsts (fun i => readSkill fl b (16+perSkill*i)) n).filter (fun s => s.active) =
      firsts (fun i => readSkill fl b (16+perSkill*i)) n := by
    intro n
    apply filter_eq_self.mpr
    intro s hs
    obtain ⟨i,_,rfl⟩ := mem_firsts.mp hs
    rfl
  simp only [activeNames,activeSkills]
  rw [hsk,filter_append,ha,map_append,map_firsts]
  rfl

theorem skillDeserialize_refused (h : ¬ (buf ≠ 0 ∧ 12 ≤ size ∧ leValue (get b 0 4) = skillSerialMagic)) :
    (skillDeserialize fl e b buf size).2.2 = e := by
  unfold skillDeserialize
  split
  · rfl
  rename_i hok
  split
  · rfl
  · rename_i hm
    simp only [not_or] at hok
    exact absurd ⟨hok.1,by omega,not_not.mp hm⟩ h

theorem step_register (w : World F) (grants : PutGrants) (now : UInt64) (fn : Bool)
    (name : Option CStr) (description : Option Bytes) (attach : Bool) :
    ((step fl limit w (.register grants now fn name description attach)) = ⟨w.reg,w.blocks,none⟩ ∧
      ∀ n, name = some n → fn = true → w.reg.engine.count < maxSkills → n.bytes ∈ activeNames w.reg.engine) ∨
    ∃ n, name = some n ∧ fn = true ∧ w.reg.engine.count < maxSkills ∧ n.bytes ∉ activeNames w.reg.engine ∧
      (step fl limit w (.register grants now fn name description attach)).reg.engine =
        added fl w.reg.engine n.bytes description now ∧
      (step fl limit w (.register grants now fn name description attach)).last =
        some (n.bytes,w.reg.engine.count) := by
  rcases skillRegister_cases fl w.reg grants now fn name description with ⟨hs,hno⟩ | ⟨n,hn,hfn,hlt,hnew,hs⟩
  · refine .inl ⟨?_,hno⟩
    simp only [step,hs]
  refine .inr ⟨n,hn,hfn,hlt,hnew,?_⟩
  subst hn
  simp only [step,hs]
  cases attach with
  | false | true => exact ⟨rfl,rfl⟩

end

theorem World.Map.keep {fl : Floats F} {limit : F} {w : World F} (h : w.Map) {c : Call F} (hc : Tidy fl w c) :
    (step fl limit w c).Map := by
  cases c with
  | register grants now fn name description attach =>
    rcases step_register fl limit w grants now fn name description attach with
      ⟨hs,_⟩ | ⟨n,hn,hfn,hlt,hnew,heng,hl⟩
    · rw [hs]
      exact map_of_unique h.unique (by simp)
    have hlen := hc n hn hfn hlt hnew
    have hcut : n.bytes.take 63 = n.bytes := take_of_length_le hlen
    apply map_of_unique
    · rw [heng,activeNames_added,hcut]
      exact h.unique.append (nodup_singleton _) (by simpa using hnew)
    intro name' i hi
    rw [hl] at hi
    obtain ⟨rfl,rfl⟩ := Prod.mk.inj (Option.some.inj hi)
    rw [heng]
    refine ⟨Nat.lt_succ_self _,?_⟩
    have hact : (newSkill fl w.reg.engine.nextId n.bytes description now).active = true := rfl
    simp [added,called,storedName_newSkill,hcut,hact]
  | unregister skillId => exact map_of_unique (h.unique.sublist (skillUnregister_sublist w.reg skillId)) (by simp [step])
  | autoRetire => exact map_of_unique (h.unique.sublist (skillAutoRetire_sublist fl limit w.reg)) (by simp [step])
  | measure i callCount successRate =>
    exact map_of_unique (h.unique.sublist (measure_sublist w.reg i callCount successRate)) (by simp [step])
  | load grants b buf size =>
    refine map_of_unique ?_ (by simp [step])
    show (activeNames (skillDeserialize fl w.reg.engine b buf size).2.2).Nodup
    by_cases hok : buf ≠ 0 ∧ 12 ≤ size ∧ leValue (get b 0 4) = skillSerialMagic
    · rw [activeNames_load fl w.reg.engine hok.1 hok.2.1 hok.2.2]
      exact hc hok.1 hok.2.1 hok.2.2
    · rw [skillDeserialize_refused fl w.reg.engine hok]
      exact h.unique

theorem not_map_of_untidy {fl : Floats F} {limit : F} {w : World F} {c : Call F} (hc : ¬ Tidy fl w c) :
    ¬ (step fl limit w c).Map := by
  intro hmap
  cases c with
  | unregister skillId | autoRetire | measure i callCount successRate => exact hc trivial
  | register grants now fn name description attach =>
    apply hc
    intro n hn hfn hlt hnew
    rcases step_register fl limit w grants now fn name description attach with
      ⟨_,hno⟩ | ⟨n',hn',_,_,_,heng,hl⟩
    · exact absurd (hno n hn hfn hlt) hnew
    obtain rfl : n = n' := Option.some.inj (hn.symm.trans hn')
    -- the new slot must answer to the name, and what it stores has at most 63 bytes
    have hf := (skillFindByName_some (hmap.found _ _ hl)).2
    rw [heng] at hf
    simp only [added,setAt_self,called,storedName_newSkill,Bool.and_eq_true,beq_iff_eq] at hf
    have hlen := congrArg List.length hf.2
    rw [length_take] at hlen
    omega
  | load grants b buf size =>
    apply hc
    intro hbuf hs hm
    rw [← activeNames_load fl w.reg.engine hbuf hs hm]
    exact hmap.unique

def opened (zero : Skill F) (grantMap grantBuckets : Bool) : World F := ⟨skillInit zero grantMap grantBuckets,0,none⟩

theorem opened_map (zero : Skill F) (grantMap grantBuckets : Bool) : (opened zero grantMap grantBuckets).Map :=
  map_of_unique (by simp [opened,skillInit,activeNames,activeSkills,firsts]) (by simp [opened])

theorem skillTable_map_iff (fl : Floats F) (limit : F) (zero : Skill F) (grantMap grantBuckets : Bool)
    (calls : List (Call F)) :
    (∀ done rest, calls = done ++ rest → (run (step fl limit) (opened zero grantMap grantBuckets) done).Map) ↔
      Along (step fl limit) (Tidy fl) (opened zero grantMap grantBuckets) calls :=
  @always_iff_along_kept (World F) (Call F) (step fl limit) (Tidy fl) World.Map World.Map (fun _ h => h)
    (fun _ _ h hc => h.keep hc) (fun _ _ _ hc => not_map_of_untidy hc) (opened zero grantMap grantBuckets) calls
    (opened_map zero grantMap grantBuckets)

end

open Memory (wordFloats wordBits)

def letters (n : Nat) : CStr := .of (replicate n 97) (by simp [mem_replicate])
def registerAs (name : CStr) : Call UInt32 := .register ⟨true,true,true⟩ 0 true (some name) none false

def afterCalls (calls : List (Call UInt32)) : World UInt32 :=
  run (step wordFloats 0) (opened (sampleSkill false) true true) calls

theorem longName_registered_twice :
    ((afterCalls [registerAs (letters 64)]).last = some ((letters 64).bytes,0) ∧
      skillFindByName (afterCalls [registerAs (letters 64)]).reg (letters 64).bytes = none ∧
      activeNames (afterCalls [registerAs (letters 64),registerAs (letters 64)]).reg.engine =
        [replicate 63 97,replicate 63 97]) ∧
    activeNames (afterCalls [registerAs (letters 1),.load (fun _ => ⟨true,true,true⟩)
        (put zeros 0 (skillSerialize wordBits (afterCalls [registerAs (letters 1)]).reg.engine 1 600).2) 1 516]).reg.engine =
      [[97],[97]] ∧
    ¬ (afterCalls [registerAs (letters 64)]).Map := by
  refine ⟨by decide +kernel,by decide +kernel,fun h => ?_⟩
  exact absurd (h.found (letters 64).bytes 0 (by decide +kernel)) (by decide +kernel)

/-! The code blocks of skills: who passes them to `kfree`, and how often. -/

section
variable {F : Type}

def Registry.live (r : Registry F) : List Nat := (firsts r.handle r.engine.count).filter (fun b => decide (b ≠ 0))
def Registry.total (r : Registry F) : List Nat := r.freed ++ r.live

section
variable (fl : Floats F) (limit : F) (r : Registry F)

theorem foldl_free (l freed : List Nat) : l.foldl free freed = freed ++ l.filter (fun b => decide (b ≠ 0)) := by
  induction l generalizing freed with
  | nil => simp
  | cons b l ih =>
    rw [foldl_cons,ih]
    by_cases hb : b = 0
    · simp [free,hb]
    · simp [free,hb]

theorem skillDestroy_freed : (skillDestroy r).freed = r.total := foldl_free _ _

def World.attached (w : World F) : List Nat := firsts (fun k => k+1) w.blocks
def World.FreedOnce (w : World F) : Prop := ∀ b ∈ w.attached, (skillDestroy w.reg).freed.count b = 1

def Spares (w : World F) : Call F → Prop
  | .unregister skillId => ∀ i,
      findFirst (fun s => s.id == skillId) w.reg.engine.count w.reg.engine.skills = some i → w.reg.handle i = 0
  | _ => True

theorem attached_nodup (w : World F) : w.attached.Nodup :=
  pairwise_firsts.mpr fun i j hij _ => by omega

theorem live_setAt_zero {r : Registry F} {i : Nat} (hi : i < r.engine.count) :
    (((firsts (setAt r.handle i 0) r.engine.count).filter (fun b => decide (b ≠ 0))) ++
      [r.handle i].filter (fun b => decide (b ≠ 0))).Perm r.live := by
  rw [firsts_setAt _ hi,Registry.live,firsts_split r.handle hi]
  simp only [filter_append,filter_cons,filter_nil,ne_eq,not_true_eq_false,decide_false,
    Bool.false_eq_true,if_false,append_assoc]
  refine Perm.append_left _ ?_
  split
  · exact perm_append_comm
  · simp

theorem free_eq (freed : List Nat) (b : Nat) : free freed b = freed ++ [b].filter (fun b => decide (b ≠ 0)) := by
  by_cases hb : b = 0
  · simp [free,hb]
  · simp [free,hb]

theorem retireSlot_total {i : Nat} (hi : i < r.engine.count) :
    (retireSlot fl limit r i).total.Perm r.total ∧ (retireSlot fl limit r i).engine.count = r.engine.count := by
  unfold retireSlot
  dsimp only
  split
  · refine ⟨?_,rfl⟩
    show (free r.freed (r.handle i) ++
      (firsts (setAt r.handle i 0) r.engine.count).filter (fun b => decide (b ≠ 0))).Perm r.total
    rw [free_eq,append_assoc]
    exact Perm.append_left _ (perm_append_comm.trans (live_setAt_zero hi))
  · exact ⟨Perm.refl _,rfl⟩

theorem skillAutoRetire_total : (skillAutoRetire fl limit r).total.Perm r.total := by
  have hall : ∀ (l : List Nat) (r : Registry F), (∀ i ∈ l, i < r.engine.count) →
      (l.foldl (retireSlot fl limit) r).total.Perm r.total := by
    intro l
    induction l with
    | nil => exact fun r _ => Perm.refl _
    | cons i l ih =>
      intro r hl
      obtain ⟨hp,hc⟩ := retireSlot_total fl limit r (hl i mem_cons_self)
      refine (ih _ fun j hj => ?_).trans hp
      rw [hc]
      exact hl j (mem_cons_of_mem i hj)
  exact hall _ r fun i hi => mem_range.mp hi

theorem skillLoad_total (grants : Nat → HashMap.PutGrants) (r : Registry F) (b : Buffer.Buf)
    (buf : Slab.Addr) (size : Nat) : (skillLoad fl grants r b buf size).2.total = r.total := by
  have hle : r.engine.count ≤ (skillDeserialize fl r.engine b buf size).2.2.count := by
    by_cases hok : buf ≠ 0 ∧ 12 ≤ size ∧ leValue (Buffer.get b 0 4) = skillSerialMagic
    · have := congrArg List.length (@skillDeserialize_ok F fl r.engine b buf size hok.1 hok.2.1 hok.2.2).2.2.1
      simp only [firsts_length,length_append] at this
      omega
    · rw [skillDeserialize_refused fl r.engine hok]
  unfold Registry.total Registry.live skillLoad
  dsimp only
  congr 1
  generalize (skillDeserialize fl r.engine b buf size).2.2.count = n at hle
  obtain ⟨k,rfl⟩ : ∃ k, n = r.engine.count+k := ⟨n-r.engine.count,by omega⟩
  rw [firsts_add,filter_append]
  have hold : firsts (fun i => if r.engine.count ≤ i ∧ i < r.engine.count+k then 0 else r.handle i) r.engine.count =
      firsts r.handle r.engine.count := by
    apply firsts_congr
    intro i hi
    rw [if_neg (by omega)]
  rw [hold]
  refine (congrArg _ (filter_eq_nil_iff.mpr ?_)).trans (append_nil _)
  intro b hb
  obtain ⟨i,hi,rfl⟩ := mem_firsts.mp hb
  rw [if_pos (by omega)]
  simp

theorem total_added {r r' : Registry F} (hf : r'.freed = r.freed) (hc : r'.engine.count = r.engine.count+1)
    (hold : ∀ i < r.engine.count, r'.handle i = r.handle i) :
    r'.total = r.total ++ [r'.handle r.engine.count].filter (fun b => decide (b ≠ 0)) := by
  unfold Registry.total Registry.live
  rw [hf,hc,firsts_succ,firsts_congr hold,filter_append,append_assoc]

theorem step_total (w : World F) (c : Call F) :
    ∃ new again, (step fl limit w c).reg.total.Perm (w.reg.total ++ new ++ again) ∧
      (step fl limit w c).attached = w.attached ++ new ∧ (again = [] ↔ Spares w c) ∧
      ∀ b ∈ again, b ∈ w.reg.live := by
  cases c with
  | autoRetire =>
    refine ⟨[],[],?_,by simp [step,World.attached],by simp [Spares],by simp⟩
    simpa [step] using skillAutoRetire_total fl limit w.reg
  | measure i callCount successRate =>
    exact ⟨[],[],by simp [step,measure,Registry.total,Registry.live],by simp [step,World.attached],
      by simp [Spares],by simp⟩
  | load grants b buf size =>
    refine ⟨[],[],?_,by simp [step,World.attached],by simp [Spares],by simp⟩
    simp only [step,skillLoad_total,append_nil]
    exact Perm.refl _
  | unregister skillId =>
    cases hf : findFirst (fun s => s.id == skillId) w.reg.engine.count w.reg.engine.skills with
    | none =>
      exact ⟨[],[],by simp [step,skillUnregister,hf],by simp [step,World.attached],by simp [Spares,hf],by simp⟩
    | some i =>
      have hi := (findFirst_some hf).1
      refine ⟨[],[w.reg.handle i].filter (fun b => decide (b ≠ 0)),?_,by simp [step,World.attached],?_,?_⟩
      · have ht : (step fl limit w (.unregister skillId)).reg.total = free w.reg.freed (w.reg.handle i) ++ w.reg.live := by
          simp only [step,skillUnregister,hf]
          rfl
        rw [ht,free_eq,Registry.total,append_nil,append_assoc,append_assoc]
        exact Perm.append_left _ perm_append_comm
      · simp [Spares,hf]
      intro b hb
      simp only [mem_filter,mem_singleton] at hb
      obtain ⟨rfl,hne⟩ := hb
      exact mem_filter.mpr ⟨mem_firsts.mpr ⟨i,hi,rfl⟩,hne⟩
  | register grants now fn name description attach =>
    rcases skillRegister_cases fl w.reg grants now fn name description with ⟨hs,_⟩ | ⟨n,hn,_,_,_,hs⟩
    · refine ⟨[],[],?_,?_,by simp [Spares],by simp⟩
      · simp [step,hs]
      · simp [step,hs,World.attached]
    subst hn
    cases attach with
    | false =>
      refine ⟨[],[],?_,by simp [step,hs,World.attached],by simp [Spares],by simp⟩
      simp only [step,hs,Bool.false_eq_true,if_false]
      refine Perm.of_eq ((@total_added F w.reg _ ?_ ?_ fun i hi => ?_).trans ?_)
      · rfl
      · rfl
      · exact setAt_ne _ _ (ne_of_lt hi)
      · simp
    | true =>
      refine ⟨[w.blocks+1],[],?_,by simp [step,hs,World.attached,firsts_succ],by simp [Spares],by simp⟩
      simp only [step,hs,if_true]
      refine Perm.of_eq ((@total_added F w.reg _ ?_ ?_ fun i hi => ?_).trans ?_)
      · rfl
      · rfl
      · exact (setAt_ne _ _ (ne_of_lt hi)).trans (setAt_ne _ _ (ne_of_lt hi))
      · simp

end

def World.Clean (w : World F) : Prop := w.reg.total.Perm w.attached
def World.Doubled (w : World F) : Prop := ∃ b ∈ w.attached, 2 ≤ w.reg.total.count b

theorem World.Clean.freedOnce {w : World F} (h : w.Clean) : w.FreedOnce := by
  intro b hb
  rw [skillDestroy_freed,h.count_eq]
  exact count_eq_one_of_mem (attached_nodup w) hb

theorem World.Doubled.not_freedOnce {w : World F} (h : w.Doubled) : ¬ w.FreedOnce := by
  intro hall
  obtain ⟨b,hb,hc⟩ := h
  have := hall b hb
  rw [skillDestroy_freed] at this
  omega

theorem World.Clean.keep {fl : Floats F} {limit : F} {w : World F} (h : w.Clean) {c : Call F} (hc : Spares w c) :
    (step fl limit w c).Clean := by
  obtain ⟨new,again,hp,hatt,hiff,_⟩ := step_total fl limit w c
  rw [hiff.mpr hc,append_nil] at hp
  unfold World.Clean
  rw [hatt]
  exact hp.trans (Perm.append_right new h)

theorem World.Clean.doubled {fl : Floats F} {limit : F} {w : World F} (h : w.Clean) {c : Call F} (hc : ¬ Spares w c) :
    (step fl limit w c).Doubled := by
  obtain ⟨new,again,hp,hatt,hiff,hl⟩ := step_total fl limit w c
  obtain ⟨b,hb⟩ := exists_mem_of_ne_nil again fun he => hc (hiff.mp he)
  have ht : b ∈ w.reg.total := mem_append_right _ (hl b hb)
  refine ⟨b,?_,?_⟩
  · rw [hatt]
    exact mem_append_left _ (h.mem_iff.mp ht)
  have hone := count_pos_iff.mpr ht
  have htwo := count_pos_iff.mpr hb
  rw [hp.count_eq,count_append,count_append]
  omega

theorem World.Doubled.stay {fl : Floats F} {limit : F} {w : World F} (h : w.Doubled) (c : Call F) :
    (step fl limit w c).Doubled := by
  obtain ⟨new,again,hp,hatt,_,_⟩ := step_total fl limit w c
  obtain ⟨b,hb,hc⟩ := h
  refine ⟨b,by rw [hatt]; exact mem_append_left _ hb,?_⟩
  rw [hp.count_eq,count_append,count_append]
  omega

theorem opened_clean (zero : Skill F) (grantMap grantBuckets : Bool) : (opened zero grantMap grantBuckets).Clean := by
  unfold World.Clean
  simp [opened,skillInit,Registry.total,Registry.live,World.attached,firsts]

theorem handles_freedOnce_iff (fl : Floats F) (limit : F) (zero : Skill F) (grantMap grantBuckets : Bool)
    (calls : List (Call F)) :
    (run (step fl limit) (opened zero grantMap grantBuckets) calls).FreedOnce ↔
      Along (step fl limit) Spares (opened zero grantMap grantBuckets) calls :=
  @end_iff_along (World F) (Call F) (step fl limit) Spares World.Clean World.Doubled World.FreedOnce
    (fun _ h => h.freedOnce) (fun _ h => h.not_freedOnce) (fun _ _ h hc => h.keep hc) (fun _ _ h hc => h.doubled hc)
    (fun _ c h => h.stay c) (opened zero grantMap grantBuckets) calls (opened_clean zero grantMap grantBuckets)

end

open Memory (wordFloats)

def attachThenUnregister : List (Call UInt32) :=
  [.register ⟨true,true,true⟩ 0 true (some (letters 1)) none true,.unregister 1]

theorem unregistered_handle_freed_twice : (afterCalls attachThenUnregister).blocks = 1 ∧
    (skillDestroy (afterCalls attachThenUnregister).reg).freed = [1,1] ∧
    ¬ (afterCalls attachThenUnregister).FreedOnce := by
  have hall : (afterCalls attachThenUnregister).blocks = 1 ∧
      (skillDestroy (afterCalls attachThenUnregister).reg).freed = [1,1] := by decide +kernel
  refine ⟨hall.1,hall.2,fun h => ?_⟩
  have := h 1 (by simp [World.attached,hall.1,firsts])
  rw [hall.2] at this
  simp at this

end AevOS.SkillTable
