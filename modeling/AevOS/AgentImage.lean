import AevOS.MemoryImage
import AevOS.ByteBuffer

/-! `agent_save_state` of `agent/agent_core.c`; it asks three serializers for sizes with a null buffer. -/

namespace AevOS.AgentImage
open ArrayPrefix Wire Slab Buffer
open List hiding foldl_append
open Memory (Floats FloatBits)
open Hist (foldl_append)
open List (ofFn)

structure Skill (F : Type) where
  id : UInt64
  name : Fin 64 → UInt8
  description : Fin 256 → UInt8
  signature : Fin 128 → UInt8
  successRate : F
  callCount : UInt32
  failCount : UInt32
  totalLatencyUs : UInt64
  avgLatencyUs : UInt64
  isSandboxed : Bool
  createdAt : UInt64
  version : UInt32
  active : Bool

structure SkillEngine (F : Type) where
  skills : Nat → Skill F
  count : Nat
  nextId : UInt64

def skillSerialMagic : Nat := 0x534B4C53
def perSkill : Nat := 8+64+256+128+4+4+4+8+8+8+4+4

section
variable {F : Type} {fl : Floats F} (bits : FloatBits fl)

def activeSkills (e : SkillEngine F) : List (Skill F) :=
  (firsts e.skills e.count).filter (fun s => s.active)

def skillNeeded (e : SkillEngine F) : Nat := 12+(activeSkills e).length*perSkill

def serializeSkill (s : Skill F) : Bytes :=
  leBytes 8 s.id.toNat ++ ofFn s.name ++ ofFn s.description ++ ofFn s.signature ++
    leBytes 4 (bits.toBits s.successRate) ++ leBytes 4 s.callCount.toNat ++
    leBytes 4 s.failCount.toNat ++ leBytes 8 s.totalLatencyUs.toNat ++
    leBytes 8 s.avgLatencyUs.toNat ++ leBytes 8 s.createdAt.toNat ++ leBytes 4 s.version.toNat ++
    leBytes 4 (if s.isSandboxed then 1 else 0)

def skillHeader (e : SkillEngine F) : Bytes :=
  leBytes 4 skillSerialMagic ++ leBytes 4 (activeSkills e).length ++ leBytes 8 e.nextId.toNat

def skillSerialize (e : SkillEngine F) (buf : Addr) (size : Nat) : Int × Bytes :=
  if buf = 0 then (-einval,[])
  else if size < skillNeeded e then (skillNeeded e,[])
  else
    let out := (activeSkills e).foldl (fun out s => out ++ serializeSkill bits s) (skillHeader e)
    (out.length,out)

@[simp] theorem serializeSkill_length (s : Skill F) : (serializeSkill bits s).length = perSkill := by
  simp only [serializeSkill,length_append,leBytes_length,length_ofFn]
  rfl

theorem skillSerialize_length (e : SkillEngine F) {buf : Addr} {size : Nat} (hbuf : buf ≠ 0)
    (h : skillNeeded e ≤ size) : (skillSerialize bits e buf size).2.length = skillNeeded e+4 := by
  have hs : ∀ l : List (Skill F), (l.flatMap (serializeSkill bits)).length = l.length*perSkill := by
    intro l
    induction l with
    | nil => simp
    | cons s l ih =>
      rw [flatMap_cons,length_append,ih,serializeSkill_length,length_cons]
      ring
  rw [skillSerialize,if_neg hbuf,if_neg (by omega)]
  simp only [foldl_append,length_append,hs,skillHeader,leBytes_length,skillNeeded]
  omega

end

structure EvolutionState where
  currentVersion : UInt32
  autoEvolveEnabled : Bool
  lastEvolveTime : UInt64
  evolveCount : UInt32
  retireCount : UInt32
  failedEvolveCount : UInt32
  gap : Fin 3 → UInt8
  tail : Fin 4 → UInt8

def evolutionSize : Nat := 32

def evolutionBytes (s : EvolutionState) : Bytes :=
  leBytes 4 s.currentVersion.toNat ++ [if s.autoEvolveEnabled then 1 else 0] ++ ofFn s.gap ++
    leBytes 8 s.lastEvolveTime.toNat ++ leBytes 4 s.evolveCount.toNat ++
    leBytes 4 s.retireCount.toNat ++ leBytes 4 s.failedEvolveCount.toNat ++ ofFn s.tail

@[simp] theorem evolutionBytes_length (s : EvolutionState) : (evolutionBytes s).length = evolutionSize := by
  simp only [evolutionBytes,length_append,leBytes_length,length_ofFn,length_singleton]
  rfl

structure Agent (F : Type) where
  history : Hist.History
  memory : Memory.Engine F
  skills : SkillEngine F
  name : Fin 64 → UInt8
  evolution : EvolutionState

abbrev Serializer := Addr → Nat → Int × Bytes

def historySerializer (m : Heap) (h : Hist.History) : Serializer := fun buf size =>
  if buf = 0 then (-einval,[]) else Hist.historySerialize ⟨m,h⟩ size

def queried (s : Serializer) : Nat := (s 0 0).1.toNat

structure Output where
  pos : Nat
  writes : List Write

def Output.put (o : Output) (bs : Bytes) : Output :=
  ⟨o.pos+bs.length,o.writes ++ [(o.pos,bs)]⟩

def putSection (buf : Addr) (s : Serializer) (o : Output) : Output :=
  let size := queried s%2^32
  let o := o.put (leBytes 4 size)
  if 0 < size then ⟨o.pos+size,o.writes ++ [(o.pos,(s buf size).2)]⟩ else o

def agentSaveMagic : Nat := 0x41474E54

variable {o : Output} {text : Bytes}

section
variable {F : Type} {fl : Floats F} (bits : FloatBits fl) (m : Heap)

def components (a : Agent F) : List Serializer :=
  [historySerializer m a.history,Memory.memorySerialize bits ⟨a.memory,m⟩,
    skillSerialize bits a.skills]

def headerOutput (a : Agent F) : Output :=
  (((Output.mk 0 []).put (leBytes 4 agentSaveMagic)).put (leBytes 4 1)).put (ofFn a.name)
    |>.put (evolutionBytes a.evolution)

def saveTotal (a : Agent F) : Nat :=
  4+4+64+evolutionSize+((components bits m a).map (fun s => 4+queried s)).sum

structure Saved where
  room : Nat
  writes : List Write
  image : Bytes

def agentSaveState (a : Agent F) (path pick : Addr) : Int × Option Saved × Heap :=
  if path = 0 then (-einval,none,m)
  else
    let b := kmalloc m (saveTotal bits m a) pick
    if b.1 = 0 then (-enomem,none,b.2)
    else
      let o := (components bits m a).foldl (fun o s => putSection b.1 s o) (headerOutput a)
      let bytes := applyWrites o.writes (b.2.bytes b.1)
      (0,some ⟨saveTotal bits m a,o.writes,Buffer.get bytes 0 o.pos⟩,
        kfree { b.2 with bytes := setAt b.2.bytes b.1 bytes } b.1)

def FullOutput (s : Serializer) (out : Bytes) : Prop :=
  ∃ buf size, buf ≠ 0 ∧ s buf size = ((out.length : Int),out)

def sectionBytes (out : Bytes) : Bytes := leBytes 4 out.length ++ out

/-- Behind the fixed fields stands every section in full. -/
def Complete (a : Agent F) (s : Saved) : Prop :=
  ∃ outs, List.Forall₂ FullOutput (components bits m a) outs ∧
    s.image.drop (4+4+64+evolutionSize) = outs.flatMap sectionBytes

def Inside (s : Saved) : Prop := ∀ w ∈ s.writes, w.1+w.2.length ≤ s.room

structure Front (o : Output) (text : Bytes) : Prop where
  pos : o.pos = text.length
  bytes : ∀ b, applyWrites o.writes b = put b 0 text
  inside : ∀ w ∈ o.writes, w.1+w.2.length ≤ o.pos

theorem front_nil : Front ⟨0,[]⟩ [] :=
  ⟨rfl,fun b => (put_nil b 0).symm,fun _ hw => absurd hw not_mem_nil⟩

theorem Front.put (h : Front o text) (bs : Bytes) : Front (o.put bs) (text ++ bs) := by
  refine ⟨?_,?_,?_⟩
  · rw [Output.put,h.pos,length_append]
  · intro b
    have hend := put_append b 0 text bs
    rw [zero_add] at hend
    rw [Output.put,applyWrites_append,h.bytes,applyWrites_cons,applyWrites_nil,h.pos,hend]
  intro w hw
  rw [Output.put] at hw ⊢
  rcases mem_append.mp hw with hw | hw
  · exact (h.inside w hw).trans (Nat.le_add_right _ _)
  · rw [mem_singleton.mp hw]

def headerBytes (a : Agent F) : Bytes :=
  leBytes 4 agentSaveMagic ++ leBytes 4 1 ++ ofFn a.name ++ evolutionBytes a.evolution

theorem headerBytes_length (a : Agent F) : (headerBytes a).length = 4+4+64+evolutionSize := by
  simp only [headerBytes,length_append,leBytes_length,length_ofFn,evolutionBytes_length]

theorem front_headerOutput (a : Agent F) : Front (headerOutput a) (headerBytes a) :=
  (((front_nil.put _).put _).put _).put _

theorem queried_components (a : Agent F) : ∀ s ∈ components bits m a, queried s = 0 := by
  intro s hs
  simp only [components,mem_cons,not_mem_nil,or_false] at hs
  rcases hs with rfl | rfl | rfl
  · rfl
  · rfl
  · rfl

theorem putSection_of_queried {s : Serializer} (h : queried s = 0) (buf : Addr) (o : Output) :
    putSection buf s o = o.put (leBytes 4 0) := by
  rw [putSection,h]
  rfl

theorem Front.sections {ss : List Serializer} (hss : ∀ s ∈ ss, queried s = 0) (buf : Addr)
    (h : Front o text) : Front (ss.foldl (fun o s => putSection buf s o) o)
      (text ++ replicate (4*ss.length) 0) := by
  induction ss generalizing o text with
  | nil => simpa using h
  | cons s ss ih =>
    rw [foldl_cons,putSection_of_queried (hss s mem_cons_self)]
    have hr := ih (fun t ht => hss t (mem_cons_of_mem _ ht)) (h.put (leBytes 4 0))
    rw [append_assoc,show leBytes 4 0 = replicate 4 0 from rfl,replicate_append_replicate] at hr
    rw [length_cons,Nat.mul_succ,add_comm]
    exact hr

theorem saveTotal_eq (a : Agent F) : saveTotal bits m a = 116 := by
  have hsum : (components bits m a).map (fun s => 4+queried s) =
      (components bits m a).map (fun _ => 4) :=
    map_congr_left fun s hs => by rw [queried_components bits m a s hs]
  rw [saveTotal,hsum]
  rfl

theorem agentSaveState_cases (a : Agent F) (path pick : Addr) :
    ((path = 0 ∨ pick = 0 ∨ m.allocated pick = true) ∧ (agentSaveState bits m a path pick).2.1 = none) ∨
      ((path ≠ 0 ∧ pick ≠ 0 ∧ m.allocated pick = false) ∧
        ∃ s, (agentSaveState bits m a path pick).2.1 = some s ∧ Inside s ∧
          s.image = headerBytes a ++ replicate 12 0) := by
  unfold agentSaveState
  by_cases hp : path = 0
  · rw [if_pos hp]
    exact .inl ⟨.inl hp,rfl⟩
  rw [if_neg hp,saveTotal_eq]
  dsimp only
  rcases Decidable.em (pick = 0 ∨ m.allocated pick = true) with hno | hyes
  · have hn : kmalloc m 116 pick = (0,m) := by
      rcases kmalloc_cases m 116 pick with hnn | ⟨c,-,-,hne,hfr,-,-⟩
      · exact hnn
      rcases hno with hz | hall
      · exact absurd hz hne
      · rw [hfr] at hall
        exact absurd hall (by decide)
    rw [hn,if_pos rfl]
    exact .inl ⟨.inr hno,rfl⟩
  rw [not_or,Bool.not_eq_true] at hyes
  have hgot : (kmalloc m 116 pick).1 = pick :=
    kmalloc_granted (by decide) (by decide) hyes.1 hyes.2
  rw [hgot,if_neg hyes.1]
  refine .inr ⟨⟨hp,hyes⟩,_,rfl,?_⟩
  have hf := (front_headerOutput a).sections (queried_components bits m a) pick
  have hlen : (headerBytes a ++ replicate (4*(components bits m a).length) 0).length =
      116 := by
    rw [length_append,headerBytes_length,length_replicate]
    rfl
  refine ⟨?_,?_⟩
  · intro w hw
    exact (hf.inside w hw).trans (hf.pos.trans hlen).le
  · dsimp only
    rw [hf.bytes,hf.pos,get_put_self]
    rfl

theorem not_complete {a : Agent F} {s : Saved}
    (h : s.image = headerBytes a ++ replicate 12 0) : ¬ Complete bits m a s := by
  rintro ⟨outs,hf,hi⟩
  rw [h,← headerBytes_length a,drop_left] at hi
  have hlen := congrArg List.length hi
  obtain ⟨out,rest,⟨buf,size,hbuf,hout⟩,-,rfl⟩ := forall₂_cons_left_iff.mp hf
  rw [historySerializer,if_neg hbuf,Hist.historySerialize] at hout
  split at hout
  · obtain ⟨hn,hnil⟩ := Prod.mk.inj hout
    rw [← hnil,length_nil,Int.natCast_inj] at hn
    exact absurd hn (ne_of_gt (Hist.serializeNeeded_pos _))
  have hout := (Prod.mk.inj hout).2
  rw [foldl_append] at hout
  rw [← hout] at hlen
  simp [sectionBytes,Hist.serializeHeader] at hlen
  omega

theorem agentSaveState_complete_iff (a : Agent F) (path pick : Addr) :
    (∀ s, (agentSaveState bits m a path pick).2.1 = some s →
        Inside s ∧ s.image = headerBytes a ++ List.replicate 12 0) ∧
      ((∀ s, (agentSaveState bits m a path pick).2.1 = some s → Complete bits m a s ∧ Inside s) ↔
        path = 0 ∨ pick = 0 ∨ m.allocated pick = true) := by
  rcases agentSaveState_cases bits m a path pick with ⟨hno,hnone⟩ | ⟨⟨hp,hk,hf⟩,s,hs,hin,himage⟩
  · rw [hnone]
    exact ⟨fun s hs => absurd hs (by simp),fun _ => hno,fun _ s hs => absurd hs (by simp)⟩
  rw [hs]
  refine ⟨?_,?_,?_⟩
  · rintro t ht
    obtain rfl := Option.some.inj ht
    exact ⟨hin,himage⟩
  · intro hall
    exact absurd (hall s rfl).1 (not_complete bits m himage)
  rintro (h | h | h)
  · exact absurd h hp
  · exact absurd h hk
  · rw [hf] at h
    exact absurd h (by decide)

end

def freshAgent : Agent UInt32 :=
  ⟨Hist.historyInit 4096,Memory.memoryInit Memory.wordFloats,
    ⟨fun _ => ⟨0,fun _ => 0,fun _ => 0,fun _ => 0,0,0,0,0,0,false,0,0,false⟩,0,1⟩,
    fun _ => 97,⟨1,true,0,0,0,0,fun _ => 0,fun _ => 0⟩⟩

theorem freshAgent_not_saved :
    (∃ s, (agentSaveState Memory.wordBits Memory.emptyHeap freshAgent 1 1).2.1 = some s ∧
        s.image.drop 104 = List.replicate 12 0 ∧
        ¬ Complete Memory.wordBits Memory.emptyHeap freshAgent s) ∧
      (components Memory.wordBits Memory.emptyHeap freshAgent).map
        (fun s => (s 1 1000).2.length) = [24,16,16] := by
  refine ⟨?_,by decide +kernel⟩
  rcases agentSaveState_cases Memory.wordBits Memory.emptyHeap freshAgent 1 1 with
    ⟨hno,-⟩ | ⟨-,s,hs,-,himage⟩
  · exact absurd hno (by decide)
  · refine ⟨s,hs,?_,not_complete _ _ himage⟩
    have hlen : (headerBytes freshAgent).length = 104 := headerBytes_length freshAgent
    rw [himage,← hlen,drop_left]

end AevOS.AgentImage
