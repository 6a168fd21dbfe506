import AevOS.AgentImage

/-! `skill_deserialize` of `agent/skill.c` against `skill_serialize`. The writer counts its 16 bytes of
header as 12, the reader trusts the number of records. -/

namespace AevOS.SkillImage
open ArrayPrefix Wire Slab Buffer AgentImage
open List hiding foldl_append
open Memory (Floats FloatBits)
open Hist (foldl_append)
open UInt64 (ofNat ofNat_toNat)

def maxSkills : Nat := 1024

variable {b : Buf} {p n : Nat}

section
variable {F : Type} (fl : Floats F)

def readSkill (b : Buf) (p : Nat) : Skill F where
  id := ofNat (leValue (get b p 8))
  name := fun k => b (p+8+k)
  description := fun k => b (p+72+k)
  signature := fun k => b (p+328+k)
  successRate := fl.ofBits (leValue (get b (p+456) 4))
  callCount := UInt32.ofNat (leValue (get b (p+460) 4))
  failCount := UInt32.ofNat (leValue (get b (p+464) 4))
  totalLatencyUs := ofNat (leValue (get b (p+468) 8))
  avgLatencyUs := ofNat (leValue (get b (p+476) 8))
  createdAt := ofNat (leValue (get b (p+484) 8))
  version := UInt32.ofNat (leValue (get b (p+492) 4))
  isSandboxed := leValue (get b (p+496) 4)%2 = 1
  active := true

abbrev Read := Nat × Nat

def loadLoop (b : Buf) : (k p : Nat) → SkillEngine F → List Read × SkillEngine F
  | 0, _, e => ([],e)
  | k+1, p, e =>
    if e.count < maxSkills then
      let r := loadLoop b k (p+perSkill)
        { e with skills := setAt e.skills e.count (readSkill fl b p), count := e.count+1 }
      ((p,perSkill) :: r.1,r.2)
    else ([],e)

def skillDeserialize (e : SkillEngine F) (b : Buf) (buf : Addr) (size : Nat) :
    Int × List Read × SkillEngine F :=
  if buf = 0 ∨ size < 12 then (-einval,[],e)
  else if leValue (get b 0 4) ≠ skillSerialMagic then (-einval,[(0,4)],e)
  else
    let r := loadLoop fl b (leValue (get b 4 4)) 16 { e with nextId := ofNat (leValue (get b 8 8)) }
    (0,[(0,4),(4,4),(8,8)] ++ r.1,r.2)

def loads (e : SkillEngine F) (b : Buf) : Nat := min (leValue (get b 4 4)) (maxSkills-e.count)

variable {fl}

section
variable (bits : FloatBits fl) (e : SkillEngine F)

theorem loadLoop_spec (b : Buf) (k p : Nat) (e : SkillEngine F) :
    (loadLoop fl b k p e).1 = firsts (fun i => (p+perSkill*i,perSkill)) (min k (maxSkills-e.count)) ∧
      firsts (loadLoop fl b k p e).2.skills (loadLoop fl b k p e).2.count = firsts e.skills e.count ++
        firsts (fun i => readSkill fl b (p+perSkill*i)) (min k (maxSkills-e.count)) ∧
      (loadLoop fl b k p e).2.nextId = e.nextId := by
  induction k generalizing p e with
  | zero => simp [loadLoop,firsts]
  | succ k ih =>
    rw [loadLoop]
    by_cases hc : e.count < maxSkills
    · rw [if_pos hc]
      obtain ⟨hr,hs,hn⟩ := ih (p+perSkill)
        { e with skills := setAt e.skills e.count (readSkill fl b p), count := e.count+1 }
      have hmin : min (k+1) (maxSkills-e.count) = min k (maxSkills-(e.count+1))+1 := by omega
      have hsh : ∀ i, p+perSkill+perSkill*i = p+perSkill*(i+1) := by
        intro i
        ring
      simp only [hsh] at hr hs
      dsimp only
      refine ⟨?_,?_,hn⟩
      · rw [hr,hmin,firsts_cons]
        rfl
      have hold : firsts (setAt e.skills e.count (readSkill fl b p)) e.count = firsts e.skills e.count :=
        firsts_congr fun i hi => setAt_ne _ _ (ne_of_lt hi)
      rw [hs,hmin,firsts_succ,setAt_self,hold,append_assoc]
      conv_rhs => rw [firsts_cons]
      rfl
    rw [if_neg hc]
    have hmin : min (k+1) (maxSkills-e.count) = 0 := by omega
    rw [hmin]
    simp [firsts]

theorem skillDeserialize_ok {e : SkillEngine F} {b : Buf} {buf : Addr} {size : Nat} (hbuf : buf ≠ 0)
    (hsz : 12 ≤ size) (hm : leValue (get b 0 4) = skillSerialMagic) :
    (skillDeserialize fl e b buf size).1 = 0 ∧ (skillDeserialize fl e b buf size).2.1 =
        [(0,4),(4,4),(8,8)] ++ firsts (fun i => (16+perSkill*i,perSkill)) (loads e b) ∧
      firsts (skillDeserialize fl e b buf size).2.2.skills (skillDeserialize fl e b buf size).2.2.count =
        firsts e.skills e.count ++ firsts (fun i => readSkill fl b (16+perSkill*i)) (loads e b) ∧
      (skillDeserialize fl e b buf size).2.2.nextId = ofNat (leValue (get b 8 8)) := by
  obtain ⟨hr,hs,hn⟩ := @loadLoop_spec F fl b (leValue (get b 4 4)) 16
    { e with nextId := ofNat (leValue (get b 8 8)) }
  have hok : ¬ (buf = 0 ∨ size < 12) := by
    rintro (h | h)
    · exact hbuf h
    · omega
  rw [skillDeserialize,if_neg hok,if_neg (not_not.mpr hm)]
  dsimp only
  exact ⟨rfl,by rw [hr]; rfl,hs,hn⟩

def ReadsInside (reads : List Read) (size : Nat) : Prop := ∀ r ∈ reads, r.1+r.2 ≤ size

theorem readsInside_records (n size : Nat) :
    ReadsInside ([(0,4),(4,4),(8,8)] ++ firsts (fun i => (16+perSkill*i,perSkill)) n) size ↔
      16+perSkill*n ≤ size := by
  constructor
  · intro h
    cases n with
    | zero =>
      have := h (8,8) (by simp)
      simpa using this
    | succ n =>
      have := h (16+perSkill*n,perSkill) (by simp only [mem_append,mem_firsts]; exact .inr ⟨n,by omega,rfl⟩)
      rw [Nat.mul_succ]
      omega
  intro h r hr
  rcases mem_append.mp hr with hr | hr
  · simp only [mem_cons,not_mem_nil,or_false] at hr
    rcases hr with rfl | rfl | rfl <;> simp only <;> omega
  obtain ⟨i,hi,rfl⟩ := mem_firsts.mp hr
  have : perSkill*(i+1) ≤ perSkill*n := Nat.mul_le_mul_left _ hi
  rw [Nat.mul_succ] at this
  simp only
  omega

theorem skillDeserialize_reads_iff (b : Buf) (buf : Addr) (size : Nat) :
    ReadsInside (skillDeserialize fl e b buf size).2.1 size ↔
      (buf = 0 ∨ size < 12 ∨ leValue (get b 0 4) ≠ skillSerialMagic ∨ 16+perSkill*loads e b ≤ size) := by
  by_cases hbuf : buf = 0
  · simp [skillDeserialize,hbuf,ReadsInside]
  by_cases hs : size < 12
  · simp [skillDeserialize,hs,ReadsInside]
  by_cases hm : leValue (get b 0 4) = skillSerialMagic
  · rw [(skillDeserialize_ok hbuf (by omega) hm).2.1,readsInside_records]
    simp [hbuf,hs,hm]
  have hr : (skillDeserialize fl e b buf size).2.1 = [(0,4)] := by
    simp [skillDeserialize,hbuf,hs,hm]
  rw [hr]
  simp only [ReadsInside,mem_singleton,forall_eq]
  constructor
  · intro _
    exact .inr (.inr (.inl hm))
  · intro _
    omega

theorem skillSerialize_writes_iff (buf : Addr) (size : Nat) :
    (skillSerialize bits e buf size).2.length ≤ size ↔
      (buf = 0 ∨ size < skillNeeded e ∨ skillNeeded e+4 ≤ size) := by
  by_cases hbuf : buf = 0
  · simp [skillSerialize,hbuf]
  by_cases hs : size < skillNeeded e
  · simp [skillSerialize,hs]
    split <;> simp
  · rw [skillSerialize_length bits e hbuf (by omega)]
    simp [hbuf,hs]

theorem get_eq_append {m : Nat} {as bs : Bytes} (h : get b p (m+n) = as ++ bs) (hm : as.length = m) :
    get b p m = as ∧ get b (p+m) n = bs := by
  rw [get_append] at h
  exact append_inj h (by simp [hm])

theorem get_eq_ofFn {f : Fin n → UInt8} (h : get b p n = ofFn f) (k : Fin n) : b (p+k) = f k := by
  have hk := congrArg (fun l => l[(k : Nat)]?) h
  simpa [Buffer.get,firsts] using hk

theorem readSkill_serializeSkill {s : Skill F} (h : get b p perSkill = serializeSkill bits s) :
    readSkill fl b p = { s with active := true } := by
  have h : get b p (8+(64+(256+(128+(4+(4+(4+(8+(8+(8+(4+4))))))))))) = serializeSkill bits s := h
  simp only [serializeSkill,append_assoc] at h
  obtain ⟨hid,h⟩ := get_eq_append h (leBytes_length _ _)
  obtain ⟨hn,h⟩ := get_eq_append h length_ofFn
  obtain ⟨hd,h⟩ := get_eq_append h length_ofFn
  obtain ⟨hsig,h⟩ := get_eq_append h length_ofFn
  obtain ⟨hr,h⟩ := get_eq_append h (leBytes_length _ _)
  obtain ⟨hc,h⟩ := get_eq_append h (leBytes_length _ _)
  obtain ⟨hf,h⟩ := get_eq_append h (leBytes_length _ _)
  obtain ⟨ht,h⟩ := get_eq_append h (leBytes_length _ _)
  obtain ⟨havg,h⟩ := get_eq_append h (leBytes_length _ _)
  obtain ⟨hcr,h⟩ := get_eq_append h (leBytes_length _ _)
  obtain ⟨hv,hfl⟩ := get_eq_append h (leBytes_length _ _)
  simp only [add_assoc,Nat.reduceAdd] at hn hd hsig hr hc hf ht havg hcr hv hfl
  have hs : decide (leValue (get b (p+496) 4)%2 = 1) = s.isSandboxed := by
    rw [hfl]
    cases s.isSandboxed <;> rfl
  have hn : (fun k : Fin 64 => b (p+8+k)) = s.name := funext (get_eq_ofFn hn)
  have hd : (fun k : Fin 256 => b (p+72+k)) = s.description := funext (get_eq_ofFn hd)
  have hsig : (fun k : Fin 128 => b (p+328+k)) = s.signature := funext (get_eq_ofFn hsig)
  unfold readSkill
  rw [hid,hn,hd,hsig,hr,hc,hf,ht,havg,hcr,hv,hs,leValue_word64,leValue_word64,
    leValue_word64,leValue_word64,leValue_word32,leValue_word32,leValue_word32,
    leValue_leBytes 4 _ (bits.toBits_lt _),bits.ofBits_toBits]
  simp only [ofNat_toNat,UInt32.ofNat_toNat]

theorem get_flatMap {w : Nat} {α : Type} {f : α → Bytes} {l : List α}
    (hw : ∀ a ∈ l, (f a).length = w) (h : get b p (w*l.length) = l.flatMap f) :
    ∀ i (hi : i < l.length), get b (p+w*i) w = f l[i] := by
  induction l generalizing p with
  | nil =>
    intro i hi
    simp at hi
  | cons a l ih =>
    have hs : get b p (w+w*l.length) = f a ++ l.flatMap f := by
      rw [show w+w*l.length = w*(a :: l).length by rw [length_cons]; ring,h,flatMap_cons]
    obtain ⟨hh,ht⟩ := get_eq_append hs (hw a mem_cons_self)
    intro i hi
    cases i with
    | zero => simpa using hh
    | succ i =>
      have := ih (fun x hx => hw x (mem_cons_of_mem a hx)) ht i (by simpa using hi)
      rw [show p+w*(i+1) = p+w+w*i by ring]
      simpa using this

theorem skillSerialize_eq {e : SkillEngine F} {buf : Addr} {size : Nat} (hbuf : buf ≠ 0)
    (hs : skillNeeded e ≤ size) :
    (skillSerialize bits e buf size).2 = skillHeader e ++ (activeSkills e).flatMap (serializeSkill bits) := by
  rw [skillSerialize,if_neg hbuf,if_neg (by omega)]
  simp only [foldl_append]

theorem get_header {e : SkillEngine F} {rest : Bytes} (h : get b 0 (16+n) = skillHeader e ++ rest) :
    get b 0 4 = leBytes 4 skillSerialMagic ∧ get b 4 4 = leBytes 4 (activeSkills e).length ∧
      get b 8 8 = leBytes 8 e.nextId.toNat ∧ get b 16 n = rest := by
  have h : get b 0 (4+(4+(8+n))) = skillHeader e ++ rest := by
    rw [← h,show 4+(4+(8+n)) = 16+n by omega]
  simp only [skillHeader,append_assoc] at h
  obtain ⟨hm,h⟩ := get_eq_append h (leBytes_length _ _)
  obtain ⟨hc,h⟩ := get_eq_append h (leBytes_length _ _)
  obtain ⟨hn,hr⟩ := get_eq_append h (leBytes_length _ _)
  exact ⟨hm,hc,hn,hr⟩

theorem activeSkills_length_le : (activeSkills e).length ≤ e.count :=
  le_trans (length_filter_le _ _) (by simp)

theorem skillDeserialize_skillSerialize (e₀ : SkillEngine F) (b : Buf) (buf buf' : Addr)
    (size size' : Nat) (hcn : e.count ≤ maxSkills) (he : e₀.count = 0) (hbuf : buf ≠ 0)
    (hb' : buf' ≠ 0) (hs : skillNeeded e ≤ size) (hs' : 12 ≤ size')
    (hb : get b 0 (skillSerialize bits e buf size).2.length = (skillSerialize bits e buf size).2) :
    (skillDeserialize fl e₀ b buf' size').1 = 0 ∧
      firsts (skillDeserialize fl e₀ b buf' size').2.2.skills (skillDeserialize fl e₀ b buf' size').2.2.count =
        activeSkills e ∧ (skillDeserialize fl e₀ b buf' size').2.2.nextId = e.nextId := by
  have hle := activeSkills_length_le e
  have hmax : maxSkills = 1024 := rfl
  have hlen : (skillSerialize bits e buf size).2.length = 16+perSkill*(activeSkills e).length := by
    rw [skillSerialize_length bits e hbuf hs,skillNeeded,mul_comm]
    omega
  rw [hlen,skillSerialize_eq bits hbuf hs] at hb
  obtain ⟨hm,ha,hn,hr⟩ := get_header hb
  have hl : loads e₀ b = (activeSkills e).length := by
    rw [loads,ha,he,leValue_leBytes 4 _ (by omega)]
    omega
  have hm : leValue (get b 0 4) = skillSerialMagic := by
    rw [hm,leValue_leBytes 4 _ (by decide)]
  obtain ⟨hc,_,hsk,hn'⟩ := @skillDeserialize_ok F fl e₀ b buf' size' hb' hs' hm
  refine ⟨hc,?_,?_⟩
  · rw [hsk,he,hl]
    apply ext_getElem
    · simp
    intro i hi hi'
    have hget := get_flatMap (fun s _ => serializeSkill_length bits s) hr i hi'
    have hact : (activeSkills e)[i].active = true := by
      have := getElem_mem hi'
      simp only [activeSkills,mem_filter] at this
      exact this.2
    simp only [firsts,range_zero,map_nil,nil_append,getElem_map,getElem_range]
    rw [readSkill_serializeSkill bits hget]
    generalize (activeSkills e)[i] = s at hact
    cases s
    simp only at hact
    rw [hact]
  · rw [hn',hn,leValue_word64,ofNat_toNat]

end

theorem skillImage_codec (bits : FloatBits fl) (e e₀ : SkillEngine F) (b : Buf) (buf : Addr) (size : Nat) :
    ((skillSerialize bits e buf size).2.length ≤ size ↔
      (buf = 0 ∨ size < skillNeeded e ∨ skillNeeded e+4 ≤ size)) ∧
    (ReadsInside (skillDeserialize fl e₀ b buf size).2.1 size ↔
      (buf = 0 ∨ size < 12 ∨ leValue (get b 0 4) ≠ skillSerialMagic ∨ 16+perSkill*loads e₀ b ≤ size)) ∧
    (e.count ≤ maxSkills → e₀.count = 0 → buf ≠ 0 → skillNeeded e ≤ size →
      get b 0 (skillSerialize bits e buf size).2.length = (skillSerialize bits e buf size).2 →
      ∀ buf' size', buf' ≠ 0 → 12 ≤ size' → (skillDeserialize fl e₀ b buf' size').1 = 0 ∧
        firsts (skillDeserialize fl e₀ b buf' size').2.2.skills (skillDeserialize fl e₀ b buf' size').2.2.count =
          activeSkills e ∧
        (skillDeserialize fl e₀ b buf' size').2.2.nextId = e.nextId) := by
  refine ⟨skillSerialize_writes_iff bits e buf size,skillDeserialize_reads_iff e₀ b buf size,?_⟩
  intro hcount hempty hbuf hsize hb buf' size' hbuf' hsize'
  exact skillDeserialize_skillSerialize bits e e₀ b buf buf' size size' hcount hempty hbuf hbuf' hsize hsize' hb

end

open Memory (wordFloats wordBits)

def sampleSkill (active : Bool) : Skill UInt32 :=
  ⟨7,fun k => if k.val < 4 then 97 else 0,fun _ => 0,fun _ => 0,0x3F800000,3,1,3000,1000,true,5,2,active⟩

def noSkills : SkillEngine UInt32 := ⟨fun _ => sampleSkill false,0,1⟩
def oneSkill : SkillEngine UInt32 := ⟨fun i => sampleSkill (i == 1),2,8⟩

theorem skillImage_codec_one : (activeSkills oneSkill).map Skill.id = [7] ∧
    (skillDeserialize wordFloats noSkills (put zeros 0 (skillSerialize wordBits oneSkill 1 600).2) 1 516).1 = 0 ∧
      firsts (skillDeserialize wordFloats noSkills (put zeros 0 (skillSerialize wordBits oneSkill 1 600).2) 1 516).2.2.skills
          (skillDeserialize wordFloats noSkills (put zeros 0 (skillSerialize wordBits oneSkill 1 600).2) 1 516).2.2.count =
        activeSkills oneSkill := by
  have h := (skillImage_codec wordBits oneSkill noSkills (put zeros 0 (skillSerialize wordBits oneSkill 1 600).2)
    1 600).2.2 (by decide) rfl (by decide) (by decide +kernel) get_put_self 1 516 (by decide) (by decide)
  exact ⟨by decide +kernel,h.1,h.2.1⟩

theorem skillSerialize_overruns : (skillSerialize wordBits noSkills 1 12).2.length = 16 ∧
    (skillDeserialize wordFloats noSkills (put zeros 0 (leBytes 4 skillSerialMagic)) 1 12).2.1 =
      [(0,4),(4,4),(8,8)] ∧
    ¬ ReadsInside (skillDeserialize wordFloats noSkills (put zeros 0 (leBytes 4 skillSerialMagic)) 1 12).2.1 12 := by
  refine ⟨by decide +kernel,by decide +kernel,fun h => ?_⟩
  exact absurd (h (8,8) (by decide +kernel)) (by decide)

end AevOS.SkillImage
