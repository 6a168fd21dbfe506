import AevOS.Runs
import AevOS.ArrayPrefix
import AevOS.Snprintf

/-! Information flow between the domains of the container layer, `container/ifc.c`, and the gate
for Linux system calls over it, `container/sandbox.c`. -/

namespace AevOS.Lc
open Runs
open UInt64 (ofNat)

abbrev Domain := Nat

def domHost : Domain := 0
def domContainer : Domain := 1
def domSkill : Domain := 2
def domLlm : Domain := 3
def domHms : Domain := 4
def domCount : Nat := 5

def opRead : UInt32 := 1
def opWrite : UInt32 := 2
def opExec : UInt32 := 4
def ifcAll : UInt32 := opRead ||| opWrite ||| opExec

abbrev Policy := Domain → Domain → UInt32

def ifcSet (p : Policy) (a b : Domain) (mask : UInt32) : Policy :=
  fun i j => if i = a ∧ j = b then mask else p i j

def lcIfcInit : Policy :=
  let p : Policy := (List.range domCount).foldl (fun p j => ifcSet p domHost j ifcAll) fun _ _ => 0
  let p := ifcSet p domContainer domHost (opRead ||| opWrite)
  let p := ifcSet p domContainer domHms opRead
  let p := ifcSet p domContainer domLlm 0
  let p := ifcSet p domSkill domLlm opRead
  let p := ifcSet p domSkill domHms (opRead ||| opWrite)
  let p := ifcSet p domSkill domHost 0
  let p := ifcSet p domLlm domHms opRead
  let p := ifcSet p domLlm domHost opWrite
  let p := ifcSet p domHms domHost (opRead ||| opWrite)
  ifcSet p domHms domSkill opRead

def lcIfcFlowAllowed (p : Policy) (src dst : Domain) (ops : UInt32) : Bool :=
  if src ≥ domCount ∨ dst ≥ domCount then false else (p src dst &&& ops) == ops

def lcIfcGrant (p : Policy) (src dst : Domain) (ops : UInt32) : Policy :=
  if src ≥ domCount ∨ dst ≥ domCount then p else ifcSet p src dst (p src dst ||| ops)

def lcIfcRevoke (p : Policy) (src dst : Domain) (ops : UInt32) : Policy :=
  if src ≥ domCount ∨ dst ≥ domCount then p else ifcSet p src dst (p src dst &&& ~~~ops)

def uint32Max : UInt32 := 0xFFFFFFFF
def skillAllow : List UInt32 := [0,1,2,3,9,10,11,12,60,231,uint32Max]

def dockerAllow : List UInt32 :=
  [0,1,2,3,4,5,6,7,8,9,10,11,12,13,14,16,17,23,24,28,35,39,41,42,56,57,59,60,63,72,78,
    79,89,96,97,102,131,158,186,202,217,230,231,234,237,270,
    273,281,291,293,318,
    257,262,263,267,269,270,271,273,281,uint32Max]

def inList : List UInt32 → UInt32 → Bool
  | [], _ => false
  | x :: list, nr => if x = uint32Max then false else if x = nr then true else inList list nr

inductive Profile where
  | skill | docker | other
  deriving DecidableEq

def lcSandboxSyscallAllow (prof : Profile) (linuxNr : UInt32) : Bool :=
  match prof with
  | .skill => inList skillAllow linuxNr
  | .docker => inList dockerAllow linuxNr
  | .other => false

def lcLinuxSyscallGate (p : Policy) (prof : Profile) (fromDom : Domain) (linuxNr : UInt32) : Int :=
  if lcSandboxSyscallAllow prof linuxNr = false then -1
  else if prof = .docker ∧ fromDom = domContainer then
    if lcIfcFlowAllowed p fromDom domHost (opRead ||| opWrite) = false then -1 else 0
  else 0

inductive FlowCall where
  | grant (src dst : Domain) (ops : UInt32)
  | revoke (src dst : Domain) (ops : UInt32)
  deriving DecidableEq

def flowStep (p : Policy) : FlowCall → Policy
  | .grant src dst ops => lcIfcGrant p src dst ops
  | .revoke src dst ops => lcIfcRevoke p src dst ops

def bitSet (w : UInt32) (b : Nat) : Bool := w.toBitVec.getLsbD b

def FlowCall.src : FlowCall → Domain
  | .grant src _ _ => src
  | .revoke src _ _ => src

def FlowCall.dst : FlowCall → Domain
  | .grant _ dst _ => dst
  | .revoke _ dst _ => dst

def FlowCall.ops : FlowCall → UInt32
  | .grant _ _ ops => ops
  | .revoke _ _ ops => ops

def FlowCall.isGrant : FlowCall → Bool
  | .grant _ _ _ => true
  | .revoke _ _ _ => false

def FlowCall.touches (src dst : Domain) (b : Nat) (c : FlowCall) : Bool :=
  c.src == src && c.dst == dst && bitSet c.ops b

def held (history : List FlowCall) (src dst : Domain) (b : Nat) : Bool :=
  match history.reverse.find? (FlowCall.touches src dst b) with
  | some c => c.isGrant
  | none => bitSet (lcIfcInit src dst) b

def HoldsReadWrite (history : List FlowCall) (src dst : Domain) : Prop :=
  src < domCount ∧ dst < domCount ∧ held history src dst 0 = true ∧ held history src dst 1 = true

def whitelist (list : List UInt32) : List UInt32 := list.takeWhile (fun x => decide (x ≠ uint32Max))

theorem inList_iff (list : List UInt32) (nr : UInt32) : inList list nr = true ↔ nr ∈ whitelist list := by
  induction list with
  | nil => simp [inList,whitelist]
  | cons x list ih =>
    by_cases hx : x = uint32Max
    · simp [inList,whitelist,hx]
    by_cases hn : x = nr
    · subst hn
      simp [inList,whitelist,hx]
    · simp [inList,whitelist,hx,hn,ih,Ne.symm hn]

theorem mask_iff (w ops : UInt32) : (w &&& ops) = ops ↔ ∀ b, bitSet ops b = true → bitSet w b = true := by
  constructor
  · intro h b hb
    have hbit : bitSet (w &&& ops) b = true := by rw [h]; exact hb
    simp only [bitSet,UInt32.toBitVec_and,BitVec.getLsbD_and,Bool.and_eq_true] at hbit
    exact hbit.1
  intro h
  apply UInt32.eq_of_toBitVec_eq
  apply BitVec.eq_of_getLsbD_eq
  intro b hb
  have := h b
  simp only [bitSet] at this
  simp only [UInt32.toBitVec_and,BitVec.getLsbD_and]
  cases hops : ops.toBitVec.getLsbD b with
  | false => simp
  | true => simp [this hops]

theorem bitSet_readWrite (b : Nat) : bitSet (opRead ||| opWrite) b = true ↔ b = 0 ∨ b = 1 := by
  by_cases hb : b < 32
  · have hall : ∀ b : Fin 32, bitSet (opRead ||| opWrite) b.val = true ↔ b.val = 0 ∨ b.val = 1 := by decide
    exact hall ⟨b,hb⟩
  have hge : bitSet (opRead ||| opWrite) b = false := BitVec.getLsbD_of_ge _ b (by omega)
  simp only [hge]
  constructor
  · intro h
    cases h
  · omega

theorem run_snoc (history : List FlowCall) (c : FlowCall) :
    run flowStep lcIfcInit (history ++ [c]) = flowStep (run flowStep lcIfcInit history) c := by
  simp [run,List.foldl_append]

theorem held_snoc (history : List FlowCall) (c : FlowCall) (src dst : Domain) (b : Nat) :
    held (history ++ [c]) src dst b = if c.touches src dst b then c.isGrant else held history src dst b := by
  unfold held
  cases hc : c.touches src dst b with
  | true | false => simp [hc]

theorem bitSet_or (w ops : UInt32) (b : Nat) : bitSet (w ||| ops) b = (bitSet w b || bitSet ops b) := by
  simp [bitSet]

theorem bitSet_andNot (w ops : UInt32) (b : Nat) :
    bitSet (w &&& ~~~ops) b = (bitSet w b && !bitSet ops b) := by
  by_cases hb : b < 32
  · simp [bitSet,hb]
  have hw : bitSet w b = false := BitVec.getLsbD_of_ge _ b (by omega)
  have hand : bitSet (w &&& ~~~ops) b = false := BitVec.getLsbD_of_ge _ b (by omega)
  rw [hw,hand]
  rfl

variable {c : FlowCall}

theorem flowStep_other (p : Policy) {src dst : Domain} (h : ¬ (src = c.src ∧ dst = c.dst)) :
    flowStep p c src dst = p src dst := by
  cases c with
  | grant s d ops =>
    simp only [flowStep,lcIfcGrant]
    split
    · rfl
    · exact if_neg h
  | revoke s d ops =>
    simp only [flowStep,lcIfcRevoke]
    split
    · rfl
    · exact if_neg h

theorem flowStep_self (p : Policy) (h : c.src < domCount ∧ c.dst < domCount) :
    flowStep p c c.src c.dst = if c.isGrant then p c.src c.dst ||| c.ops else p c.src c.dst &&& ~~~c.ops := by
  have hin : ¬ (c.src ≥ domCount ∨ c.dst ≥ domCount) := not_or.mpr ⟨Nat.not_le.mpr h.1,Nat.not_le.mpr h.2⟩
  cases c with
  | grant s d ops =>
    simp only [flowStep,lcIfcGrant,FlowCall.src,FlowCall.dst] at hin ⊢
    rw [if_neg hin]
    exact if_pos ⟨rfl,rfl⟩
  | revoke s d ops =>
    simp only [flowStep,lcIfcRevoke,FlowCall.src,FlowCall.dst] at hin ⊢
    rw [if_neg hin]
    exact if_pos ⟨rfl,rfl⟩

theorem bitSet_flowStep (p : Policy) (c : FlowCall) {src dst : Domain} (hsrc : src < domCount)
    (hdst : dst < domCount) (b : Nat) :
    bitSet (flowStep p c src dst) b = if c.touches src dst b then c.isGrant else bitSet (p src dst) b := by
  by_cases hc : src = c.src ∧ dst = c.dst
  · obtain ⟨rfl,rfl⟩ := hc
    rw [flowStep_self p ⟨hsrc,hdst⟩]
    cases hg : c.isGrant with
    | true =>
      cases hb : bitSet c.ops b with
      | true | false => simp [FlowCall.touches,bitSet_or,hb]
    | false =>
      cases hb : bitSet c.ops b with
      | true | false => simp [FlowCall.touches,bitSet_andNot,hb]
  have hno : c.touches src dst b = false := by
    simp only [FlowCall.touches,Bool.and_eq_false_iff,beq_eq_false_iff_ne]
    by_cases hs : c.src = src
    · exact .inl (.inr fun hd => hc ⟨hs.symm,hd.symm⟩)
    · exact .inl (.inl hs)
  rw [flowStep_other p hc]
  simp [hno]

theorem bitSet_run (history : List FlowCall) {src dst : Domain} (hsrc : src < domCount) (hdst : dst < domCount)
    (b : Nat) : bitSet (run flowStep lcIfcInit history src dst) b = held history src dst b := by
  induction history using List.reverseRecOn with
  | nil => rfl
  | append_singleton history c ih => rw [run_snoc,held_snoc,bitSet_flowStep _ c hsrc hdst,ih]

theorem lcIfcFlowAllowed_iff (history : List FlowCall) (src dst : Domain) :
    lcIfcFlowAllowed (run flowStep lcIfcInit history) src dst (opRead ||| opWrite) = true ↔
      HoldsReadWrite history src dst := by
  unfold lcIfcFlowAllowed HoldsReadWrite
  split
  · rename_i hout
    simp only [Bool.false_eq_true,false_iff]
    rintro ⟨hs,hd,_⟩
    exact hout.elim (Nat.not_le.mpr hs) (Nat.not_le.mpr hd)
  rename_i hin
  obtain ⟨hs,hd⟩ := not_or.mp hin
  have hs := Nat.not_le.mp hs
  have hd := Nat.not_le.mp hd
  rw [beq_iff_eq,mask_iff]
  simp [bitSet_readWrite,bitSet_run history hs hd,hs,hd]

theorem lcLinuxSyscallGate_docker (p : Policy) (fromDom : Domain) (nr : UInt32) :
    lcLinuxSyscallGate p .docker fromDom nr = 0 ↔ nr ∈ whitelist dockerAllow ∧
      (fromDom = domContainer → lcIfcFlowAllowed p fromDom domHost (opRead ||| opWrite) = true) := by
  rw [← inList_iff]
  unfold lcLinuxSyscallGate lcSandboxSyscallAllow
  cases inList dockerAllow nr with
  | false => simp
  | true =>
    by_cases hc : fromDom = domContainer
    · simp [hc]
    · simp [hc]

theorem gate_respects_flow_iff (history : List FlowCall) (nr : UInt32) (fromDom : Domain) :
    (lcLinuxSyscallGate (run flowStep lcIfcInit history) .docker fromDom nr = 0 →
        nr ∈ whitelist dockerAllow ∧ HoldsReadWrite history fromDom domHost) ↔
      (fromDom = domContainer ∨ nr ∉ whitelist dockerAllow ∨ HoldsReadWrite history fromDom domHost) := by
  rw [lcLinuxSyscallGate_docker,lcIfcFlowAllowed_iff]
  tauto

theorem gate_passes_skill : lcLinuxSyscallGate (run flowStep lcIfcInit []) .docker domSkill 0 = 0 ∧
    ¬ HoldsReadWrite [] domSkill domHost := by
  refine ⟨by decide,?_⟩
  rintro ⟨_,_,h,_⟩
  revert h
  decide

theorem lcIfcFlowAllowed_run (history : List FlowCall) (src dst : Domain) (ops : UInt32) :
    lcIfcFlowAllowed (run flowStep lcIfcInit history) src dst ops = true ↔
      src < domCount ∧ dst < domCount ∧ ∀ b, bitSet ops b = true → held history src dst b = true := by
  by_cases hd : src ≥ domCount ∨ dst ≥ domCount
  · rw [lcIfcFlowAllowed,if_pos hd]
    simp only [Bool.false_eq_true,false_iff]
    rintro ⟨hs,ht,-⟩
    exact hd.elim (Nat.not_le.mpr hs) (Nat.not_le.mpr ht)
  obtain ⟨hsrc,hdst⟩ := not_or.mp hd
  rw [lcIfcFlowAllowed,if_neg hd,beq_iff_eq,mask_iff]
  simp [bitSet_run history (not_le.mp hsrc) (not_le.mp hdst),not_le.mp hsrc,not_le.mp hdst]

/-! Containers of `container/lc_container.c` and their bundle records in `container/oci_runtime.c`. -/

open Wire ArrayPrefix
open Str (Arg format utf8)

def maxContainers : Nat := 16
def maxBundles : Nat := 16
def imageNameLen : Nat := 96
def ctrNameLen : Nat := 64
def idStrLen : Nat := 24

inductive CtrState where
  | created | running | stopped
  deriving DecidableEq

structure Container where
  id : UInt64
  idStr : Bytes
  name : Bytes
  image : Bytes
  state : CtrState
  deriving DecidableEq

structure Bundle where
  ctrId : UInt64
  image : Bytes
  lower : Bytes
  upper : Bytes
  work : Bytes
  rootfs : Bytes
  used : Bool
  deriving DecidableEq

structure Layer where
  slots : Nat → Container
  nextId : UInt64
  bundles : Nat → Bundle
  policy : Policy

def noContainer : Container := ⟨0,[],[],[],.created⟩
def noBundle : Bundle := ⟨0,[],[],[],[],[],false⟩
def boot : Layer := ⟨fun _ => noContainer,1,fun _ => noBundle,lcIfcInit⟩
def printed (cap : Nat) (fmt : String) (args : List Arg) : Bytes := (format (utf8 fmt) args).take (cap-1)
def slotAlloc (slots : Nat → Container) : Option Nat := findFirst (fun s => s.id == 0) maxContainers slots

def findLoop (slots : Nat → Container) (q : Bytes) : (k i : Nat) → (hit : Option Nat) → (hits : Nat) → Option Nat
  | 0, _, hit, hits => if hits = 1 then hit else none
  | k+1, i, hit, hits =>
    if (slots i).id = 0 then findLoop slots q k (i+1) hit hits
    else if (slots i).idStr = q ∨ (slots i).name = q then some i
    else if q.length ≥ 4 ∧ q.isPrefixOf (slots i).idStr = true then findLoop slots q k (i+1) (some i) (hits+1)
    else findLoop slots q k (i+1) hit hits

def findSlot (slots : Nat → Container) (q : Option Bytes) : Option Nat :=
  match q with
  | none => none
  | some [] => none
  | some q => findLoop slots q maxContainers 0 none 0

def lowerPathForImage (image : Bytes) (cap : Nat) : Bytes := printed cap "/lc/images/%s/rootfs" [.str (some image)]

def lcOciRegisterBundle (bundles : Nat → Bundle) (ctrId : UInt64) (image lowerRoot : Option Bytes) : Nat → Bundle :=
  match findFirst (fun b => !b.used) maxBundles bundles with
  | none => bundles
  | some i => setAt bundles i
      ⟨ctrId,(image.getD []).take (imageNameLen-1),(lowerRoot.getD []).take 127,
        printed 128 "/lc/overlay/%llu/upper" [.num ctrId.toNat],printed 128 "/lc/overlay/%llu/work" [.num ctrId.toNat],
        printed 128 "/lc/overlay/%llu/merged" [.num ctrId.toNat],true⟩

def newContainer (id : UInt64) (image : Bytes) : Container :=
  ⟨id,printed idStrLen "aevos_lc_%llu" [.num id.toNat],printed ctrNameLen "focused_%llu" [.num id.toNat],
    image.take (imageNameLen-1),.running⟩

def lcDockerRun (s : Layer) (image cmdlineRest : Option Bytes) (msgOut : Bool) (msgCap : Nat) :
    (Int × Bytes) × Layer :=
  match image with
  | none => ((-1,[]),s)
  | some image =>
    if image = [] ∨ msgOut = false ∨ msgCap = 0 then ((-1,[]),s)
    else if lcIfcFlowAllowed s.policy domContainer domHost (opRead ||| opWrite) = false then
      ((-1,printed msgCap "LC: IFC denied container→host I/O; start aborted" []),s)
    else
      match slotAlloc s.slots with
      | none => ((-1,printed msgCap "LC: no free container slots (max=%d)" [.int maxContainers]),s)
      | some i =>
        let c := newContainer s.nextId image
        let cmd := match cmdlineRest with
          | none => utf8 "(default)"
          | some [] => utf8 "(default)"
          | some cmd => cmd
        ((0,printed msgCap
            "LC: started %s as %s [%s]\n    image=%s cmd=%s\n    OCI: bundle registered; exec is shim-only on bare-metal AevOS."
            [.str (some c.name),.str (some c.idStr),.str (some (utf8 "running")),.str (some image),.str (some cmd)]),
          { s with
            slots := setAt s.slots i c
            nextId := s.nextId+1
            bundles := lcOciRegisterBundle s.bundles s.nextId (some image) (some (lowerPathForImage image 160)) })

def lcDockerStop (s : Layer) (idOrName : Option Bytes) (errcap : Nat) : (Int × Bytes) × Layer :=
  match findSlot s.slots idOrName with
  | none => ((-1,printed errcap "Error: no such container: %s" [.str idOrName]),s)
  | some i =>
    if (s.slots i).state = .stopped then ((-1,printed errcap "Container %s already stopped" [.str idOrName]),s)
    else ((0,printed errcap "Stopped %s" [.str (some (s.slots i).idStr)]),
      { s with slots := setAt s.slots i { s.slots i with state := .stopped } })

def lcDockerRm (s : Layer) (idOrName : Option Bytes) (errcap : Nat) : (Int × Bytes) × Layer :=
  match findSlot s.slots idOrName with
  | none => ((-1,printed errcap "Error: no such container: %s" [.str idOrName]),s)
  | some i =>
    if (s.slots i).state ≠ .stopped then
      ((-1,printed errcap "Error: container %s is running — `docker stop` first" [.str idOrName]),s)
    else ((0,printed errcap "Removed %s" [.str (some (s.slots i).idStr)]),
      { s with slots := setAt s.slots i noContainer })

inductive Call where
  | run (image cmdlineRest : Option Bytes) (msgOut : Bool) (msgCap : Nat)
  | stop (idOrName : Option Bytes) (errcap : Nat)
  | rm (idOrName : Option Bytes) (errcap : Nat)
  | flow (c : FlowCall)

def step (s : Layer) : Call → Layer
  | .run image cmd msgOut msgCap => (lcDockerRun s image cmd msgOut msgCap).2
  | .stop q errcap => (lcDockerStop s q errcap).2
  | .rm q errcap => (lcDockerRm s q errcap).2
  | .flow c => { s with policy := flowStep s.policy c }

def Layer.Exists (s : Layer) (i : Nat) : Prop := i < maxContainers ∧ (s.slots i).id ≠ 0
def Layer.InUse (s : Layer) (j : Nat) : Prop := j < maxBundles ∧ (s.bundles j).used = true
def Layer.existing (s : Layer) : Nat := (firsts s.slots maxContainers).countP fun c => c.id != 0

/-- Every container has exactly one bundle, and every bundle a container. -/
structure Layer.Paired (s : Layer) : Prop where
  bundle : ∀ i, s.Exists i → ∃! j, s.InUse j ∧ (s.bundles j).ctrId = (s.slots i).id ∧
    (s.bundles j).image = (s.slots i).image
  owner : ∀ j, s.InUse j → ∃ i, s.Exists i ∧ (s.slots i).id = (s.bundles j).ctrId

def Layer.Removes (s : Layer) (q : Option Bytes) : Prop :=
  ∃ i, findSlot s.slots q = some i ∧ (s.slots i).state = .stopped

def Keeps (s : Layer) : Call → Prop
  | .rm q _ => ¬ s.Removes q
  | _ => True

structure Layer.Filled (s : Layer) (k : Nat) : Prop where
  le : k ≤ maxContainers
  next : s.nextId = ofNat (k+1)
  slot : ∀ i < k, (s.slots i).id = ofNat (i+1)
  free : ∀ i, k ≤ i → i < maxContainers → (s.slots i).id = 0
  record : ∀ i < k, (s.bundles i).used = true ∧ (s.bundles i).ctrId = ofNat (i+1) ∧
    (s.bundles i).image = (s.slots i).image
  unused : ∀ i, k ≤ i → i < maxBundles → (s.bundles i).used = false

theorem boot_filled : boot.Filled 0 :=
  ⟨Nat.zero_le _,rfl,by simp,fun _ _ _ => rfl,by simp,fun _ _ _ => rfl⟩

variable {i k : Nat} {s : Layer} {c : Call}

theorem ofNat_inj {j : Nat} (hi : i < maxContainers) (hj : j < maxContainers)
    (h : ofNat (i+1) = ofNat (j+1)) : i = j := by
  have hmax : maxContainers = 16 := rfl
  have hs : UInt64.size = 2^64 := rfl
  have := congrArg UInt64.toNat h
  rw [UInt64.toNat_ofNat_of_lt' (by omega),UInt64.toNat_ofNat_of_lt' (by omega)] at this
  omega

theorem ofNat_succ_ne_zero (hi : i < maxContainers) : ofNat (i+1) ≠ 0 := by
  have hmax : maxContainers = 16 := rfl
  rw [Ne,UInt64.ofNat_eq_iff_mod_eq_toNat,UInt64.toNat_zero]
  omega

section
variable {s : Layer} {k : Nat}

theorem Layer.Filled.exists_iff (h : s.Filled k) (i : Nat) : s.Exists i ↔ i < k := by
  have hle := h.le
  constructor
  · rintro ⟨hi,hne⟩
    by_contra hge
    exact hne (h.free i (by omega) hi)
  · intro hi
    exact ⟨by omega,by rw [h.slot i hi]; exact ofNat_succ_ne_zero (by omega)⟩

theorem Layer.Filled.inUse_iff (h : s.Filled k) (j : Nat) : s.InUse j ↔ j < k := by
  have hle : k ≤ maxBundles := h.le
  constructor
  · rintro ⟨hj,hu⟩
    by_contra hge
    rw [h.unused j (by omega) hj] at hu
    cases hu
  · intro hj
    exact ⟨by omega,(h.record j hj).1⟩

theorem Layer.Filled.paired (h : s.Filled k) : s.Paired := by
  have hle := h.le
  constructor
  · intro i hi
    rw [h.exists_iff] at hi
    obtain ⟨hu,hid,hig⟩ := h.record i hi
    refine ⟨i,⟨(h.inUse_iff i).mpr hi,hid.trans (h.slot i hi).symm,hig⟩,?_⟩
    rintro j ⟨hj,hjid,_⟩
    rw [h.inUse_iff] at hj
    rw [(h.record j hj).2.1,h.slot i hi] at hjid
    exact ofNat_inj (by omega) (by omega) hjid
  · intro j hj
    rw [h.inUse_iff] at hj
    exact ⟨j,(h.exists_iff j).mpr hj,(h.slot j hj).trans (h.record j hj).2.1.symm⟩

end

theorem findLoop_some {slots : Nat → Container} {q : Bytes} {j hits : Nat} {hit : Option Nat}
    (hhit : ∀ a, hit = some a → a < i+k ∧ (slots a).id ≠ 0)
    (h : findLoop slots q k i hit hits = some j) : j < i+k ∧ (slots j).id ≠ 0 := by
  induction k generalizing i hit hits with
  | zero =>
    simp only [findLoop] at h
    split at h
    · exact hhit j h
    · cases h
  | succ k ih =>
    have hs : i+1+k = i+(k+1) := by omega
    rw [findLoop] at h
    split at h
    · exact hs ▸ ih (hs ▸ hhit) h
    rename_i hid
    split at h
    · obtain rfl : i = j := by simpa using h
      exact ⟨by omega,hid⟩
    split at h
    · refine hs ▸ ih (fun a ha => ?_) h
      obtain rfl : i = a := by simpa using ha
      exact ⟨by omega,hid⟩
    · exact hs ▸ ih (hs ▸ hhit) h

theorem findSlot_some {q : Option Bytes} (h : findSlot s.slots q = some i) : s.Exists i := by
  unfold findSlot at h
  split at h
  · cases h
  · cases h
  · have := findLoop_some (fun a ha => by cases ha) h
    exact ⟨by simpa using this.1,this.2⟩

theorem lcDockerRun_cases (s : Layer) (image cmd : Option Bytes) (msgOut : Bool) (msgCap : Nat) :
    ((lcDockerRun s image cmd msgOut msgCap).2 = s) ∨
      ∃ text i, slotAlloc s.slots = some i ∧ (lcDockerRun s image cmd msgOut msgCap).2 =
        { s with
          slots := setAt s.slots i (newContainer s.nextId text)
          nextId := s.nextId+1
          bundles := lcOciRegisterBundle s.bundles s.nextId (some text) (some (lowerPathForImage text 160)) } := by
  unfold lcDockerRun
  split
  · exact .inl rfl
  rename_i text
  split
  · exact .inl rfl
  split
  · exact .inl rfl
  split
  · exact .inl rfl
  · rename_i i hi
    exact .inr ⟨text,i,hi,rfl⟩

section
variable (h : s.Filled k)
include h

theorem Layer.Filled.slotAlloc_eq (hi : slotAlloc s.slots = some i) :
    i = k ∧ k < maxContainers := by
  obtain ⟨hlt,hz,hb⟩ := findFirst_some hi
  have hz : (s.slots i).id = 0 := by simpa using hz
  have hge : ¬ i < k := by
    intro hik
    rw [h.slot i hik] at hz
    exact ofNat_succ_ne_zero hlt hz
  have hle : ¬ k < i := by
    intro hki
    have := hb k hki
    simp [h.free k (le_refl k) (by omega)] at this
  exact ⟨by omega,by omega⟩

theorem Layer.Filled.run (image cmd : Option Bytes) (msgOut : Bool) (msgCap : Nat) :
    ∃ k', (step s (.run image cmd msgOut msgCap)).Filled k' := by
  rcases lcDockerRun_cases s image cmd msgOut msgCap with hs | ⟨text,i,hi,hs⟩
  · exact ⟨k,by rw [step,hs]; exact h⟩
  obtain ⟨rfl,hk⟩ := h.slotAlloc_eq hi
  have hb : findFirst (fun b : Bundle => !b.used) maxBundles s.bundles = some i := by
    apply findFirst_eq hk
    · simp [h.unused i (le_refl i) hk]
    · intro j hj
      simp [(h.record j hj).1]
  rw [step,hs,lcOciRegisterBundle,hb]
  refine ⟨i+1,hk,?_,?_,?_,?_,?_⟩
  · rw [h.next]
    simp
  · intro j hj
    by_cases hji : j = i
    · subst hji
      simp [newContainer,h.next]
    · simp only [setAt_ne _ _ hji]
      exact h.slot j (by omega)
  · intro j hj hmax
    simp only [setAt_ne s.slots _ (show j ≠ i by omega)]
    exact h.free j (by omega) hmax
  · intro j hj
    by_cases hji : j = i
    · subst hji
      simp [newContainer,h.next]
    · simp only [setAt_ne _ _ hji]
      exact h.record j (by omega)
  · intro j hj hmax
    simp only [setAt_ne s.bundles _ (show j ≠ i by omega)]
    exact h.unused j (by omega) hmax

theorem Layer.Filled.stop (q : Option Bytes) (errcap : Nat) :
    (step s (.stop q errcap)).Filled k := by
  simp only [step,lcDockerStop]
  split
  · exact h
  rename_i i _
  split
  · exact h
  have hid := setAt_field Container.id s.slots i { s.slots i with state := .stopped } rfl
  have hi := setAt_field Container.image s.slots i { s.slots i with state := .stopped } rfl
  exact ⟨h.le,h.next,by simpa only [hid] using h.slot,by simpa only [hid] using h.free,
    by simpa only [hi] using h.record,h.unused⟩

theorem Layer.Filled.keep (hc : Keeps s c) : ∃ k', (step s c).Filled k' := by
  cases c with
  | run image cmd msgOut msgCap => exact h.run image cmd msgOut msgCap
  | stop q errcap => exact ⟨k,h.stop q errcap⟩
  | flow c => exact ⟨k,h.le,h.next,h.slot,h.free,h.record,h.unused⟩
  | rm q errcap =>
    refine ⟨k,?_⟩
    simp only [step,lcDockerRm]
    split
    · exact h
    rename_i i hi
    split
    · exact h
    · rename_i hs
      exact absurd ⟨i,hi,not_not.mp hs⟩ hc

theorem Layer.Filled.broken (hc : ¬ Keeps s c) : ¬ (step s c).Paired := by
  cases c with
  | run image cmd msgOut msgCap | stop q errcap | flow c => exact absurd trivial hc
  | rm q errcap =>
    obtain ⟨i,hi,hst⟩ := not_not.mp hc
    have hik := (h.exists_iff i).mp (findSlot_some hi)
    have hle := h.le
    have hs : step s (.rm q errcap) = { s with slots := setAt s.slots i noContainer } := by
      simp only [step,lcDockerRm,hi,hst,ne_eq,not_true,if_false]
    rw [hs]
    intro hp
    obtain ⟨j,⟨hj,hne⟩,hid⟩ := hp.owner i ⟨lt_of_lt_of_le hik hle,(h.record i hik).1⟩
    simp only [(h.record i hik).2.1] at hid
    by_cases hji : j = i
    · subst hji
      simp [noContainer] at hne
    simp only [setAt_ne _ _ hji] at hne hid
    have hjk := (h.exists_iff j).mp ⟨hj,hne⟩
    rw [h.slot j hjk] at hid
    exact hji (ofNat_inj (by omega) (by omega) hid)

end

def Layer.Packed (s : Layer) : Prop := ∃ k, s.Filled k

theorem Layer.Packed.paired (h : s.Packed) : s.Paired := h.elim fun _ h => h.paired

theorem Layer.Packed.keep (h : s.Packed) (hc : Keeps s c) : (step s c).Packed :=
  h.elim fun _ h => h.keep hc

theorem Layer.Packed.broken (h : s.Packed) (hc : ¬ Keeps s c) : ¬ (step s c).Paired :=
  h.elim fun _ h => h.broken hc

theorem existing_lt_iff (s : Layer) : s.existing < maxContainers ↔ ∃ i, i < maxContainers ∧ (s.slots i).id = 0 := by
  have h := List.countP_lt_length_iff (l := firsts s.slots maxContainers) (p := fun c => c.id != 0)
  simpa [Layer.existing] using h

theorem slotAlloc_isSome (s : Layer) : (slotAlloc s.slots).isSome = true ↔ s.existing < maxContainers := by
  rw [existing_lt_iff]
  cases hi : slotAlloc s.slots with
  | none =>
    have := findFirst_none hi
    simpa using this
  | some i =>
    obtain ⟨hlt,hz,_⟩ := findFirst_some hi
    simpa using ⟨i,hlt,by simpa using hz⟩

theorem lcDockerRun_ok_iff (s : Layer) (image cmd : Option Bytes) (msgOut : Bool) (msgCap : Nat) :
    (lcDockerRun s image cmd msgOut msgCap).1.1 = 0 ↔
      (∃ text, image = some text ∧ text ≠ []) ∧ msgOut = true ∧ msgCap ≠ 0 ∧
        lcIfcFlowAllowed s.policy domContainer domHost (opRead ||| opWrite) = true ∧
        s.existing < maxContainers := by
  rw [← slotAlloc_isSome]
  unfold lcDockerRun
  cases image with
  | none => simp
  | some text =>
    dsimp only
    by_cases ha : text = [] ∨ msgOut = false ∨ msgCap = 0
    · rw [if_pos ha]
      simp only [Int.reduceNeg,Int.reduceEq,false_iff]
      rintro ⟨⟨t,ht,hne⟩,hout,hcap,_⟩
      obtain rfl : text = t := by simpa using ht
      rcases ha with h | h | h
      · exact hne h
      · rw [h] at hout
        cases hout
      · exact hcap h
    rw [if_neg ha]
    cases hf : lcIfcFlowAllowed s.policy domContainer domHost (opRead ||| opWrite) with
    | false => simp
    | true =>
      cases slotAlloc s.slots with
      | none => simp
      | some i => simpa using ha

theorem containers_paired_iff (calls : List Call) :
    ((∀ done rest, calls = done ++ rest → (run step boot done).Paired) ↔ Along step Keeps boot calls) ∧
    ∀ (s : Layer) (text : Bytes) (cmd : Option Bytes) (msgCap : Nat), text ≠ [] → msgCap ≠ 0 →
      s.existing < maxContainers →
      lcIfcFlowAllowed s.policy domContainer domHost (opRead ||| opWrite) = true →
      (lcDockerRun s (some text) cmd true msgCap).1.1 = 0 := by
  constructor
  · exact @always_iff_along_kept Layer Call step Keeps Layer.Packed Layer.Paired (fun _ h => h.paired)
      (fun _ _ h hc => h.keep hc) (fun _ _ h hc => h.broken hc) boot calls ⟨0,boot_filled⟩
  · intro s text cmd msgCap htext hcap hroom hflow
    exact (lcDockerRun_ok_iff s (some text) cmd true msgCap).mpr ⟨⟨text,rfl,htext⟩,rfl,hcap,hflow,hroom⟩

def runStopRm : List Call :=
  [.run (some (utf8 "busybox")) none true 256,.stop (some (utf8 "focused_1")) 64,.rm (some (utf8 "focused_1")) 64]

theorem runStopRm_leaves_bundle :
    ((run step boot runStopRm).bundles 0).used = true ∧ ((run step boot runStopRm).bundles 0).ctrId = 1 ∧
      (run step boot runStopRm).existing = 0 ∧ ¬ (run step boot runStopRm).Paired := by
  refine ⟨by decide +kernel,by decide +kernel,by decide +kernel,fun hp => ?_⟩
  obtain ⟨i,⟨hi,hne⟩,_⟩ := hp.owner 0 ⟨by decide,by decide +kernel⟩
  have hfree : ∀ i < maxContainers, ((run step boot runStopRm).slots i).id = 0 := by decide +kernel
  exact hne (hfree i hi)

end AevOS.Lc
