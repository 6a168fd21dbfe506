import AevOS.IndexRing
import AevOS.Runs

/-! The receive queue of `kernel/drivers/virtio_net.c`. The device may take or complete descriptors between
any two accesses of `vn_recv_raw`. -/

namespace AevOS.VirtioNet
open ArrayPrefix IndexRing Runs List
open BitVec (ofNat)

def virtioNetHdrSize : Nat := 12
def rxSlotSize : Nat := 2048
def virtqDescFWrite : BitVec 16 := 2

structure VirtqDesc where
  addr : BitVec 64
  len : BitVec 32
  flags : BitVec 16
  next : BitVec 16
  deriving DecidableEq

structure VirtqUsedElem where
  id : BitVec 32
  len : BitVec 32
  deriving DecidableEq

inductive Pc
  | idle
  | readId (maxLen : Nat)
  | readLen (maxLen : Nat) (d : BitVec 32)
  | copy (maxLen : Nat) (d l : BitVec 32)
  | repost (d l : BitVec 32)
  | offer (d l : BitVec 32)
  | publish (d l : BitVec 32)
  deriving DecidableEq

structure Rx where
  desc : Nat → VirtqDesc
  availRing : Nat → BitVec 16
  availIdx : BitVec 16
  usedRing : Nat → VirtqUsedElem
  usedIdx : BitVec 16
  rxBuf : Nat → UInt8
  lastUsed : BitVec 16
  ready : Bool
  pc : Pc
  buf : List UInt8
  result : Nat
  devAvail : BitVec 16
  inFlight : List Nat
  completed : List Nat
  returned : List Nat

section
variable (size : BitVec 16) (rxBufPhys : BitVec 64)

def rxDesc (i : Nat) : VirtqDesc :=
  ⟨rxBufPhys+ofNat 64 i*ofNat 64 rxSlotSize,ofNat 32 rxSlotSize,virtqDescFWrite,0⟩

def slot (idx : BitVec 16) : Nat := idx.toNat%size.toNat

def driverStep (s : Rx) (maxLen : Nat) : Rx :=
  match s.pc with
  | .idle =>
    if s.usedIdx-s.lastUsed = 0 then { s with result := 0 } else { s with pc := .readId maxLen }
  | .readId maxLen => { s with pc := .readLen maxLen (s.usedRing (slot size s.lastUsed)).id }
  | .readLen maxLen d =>
    let l := (s.usedRing (slot size s.lastUsed)).len
    if d.toNat ≥ size.toNat then { s with lastUsed := s.lastUsed+1, ready := false, result := 0, pc := .idle }
    else { s with lastUsed := s.lastUsed+1, pc := .copy maxLen d l }
  | .copy maxLen d l =>
    if l.toNat ≤ virtioNetHdrSize then { s with pc := .repost d l }
    else
      let pkt := d.toNat*rxSlotSize
      let ethLen := l.toNat-virtioNetHdrSize
      let copy := if ethLen < maxLen then ethLen else maxLen
      { s with pc := .repost d l, buf := firsts (fun i => s.rxBuf (pkt+virtioNetHdrSize+i)) copy }
  | .repost d l => { s with desc := setAt s.desc d.toNat (rxDesc rxBufPhys d.toNat), pc := .offer d l }
  | .offer d l =>
    { s with availRing := setAt s.availRing (slot size s.availIdx) (d.truncate 16), pc := .publish d l }
  | .publish _ l =>
    { s with
      availIdx := s.availIdx+1
      returned := s.returned ++ [(s.availRing (slot size s.availIdx)).toNat]
      result := if l.toNat > virtioNetHdrSize then l.toNat-virtioNetHdrSize else 0
      pc := .idle }

def fetch (s : Rx) : Rx :=
  if s.devAvail = s.availIdx then s
  else
    { s with
      devAvail := s.devAvail+1
      inFlight := s.inFlight ++ [(s.availRing (slot size s.devAvail)).toNat] }

def complete (s : Rx) (d : Nat) (l : BitVec 32) (packet : Nat → UInt8) : Rx :=
  if d ∈ s.inFlight then
    { s with
      rxBuf := fun a => if d*rxSlotSize ≤ a ∧ a < (d+1)*rxSlotSize then packet (a-d*rxSlotSize) else s.rxBuf a
      inFlight := s.inFlight.erase d
      usedRing := setAt s.usedRing (slot size s.usedIdx) ⟨ofNat 32 d,l⟩
      usedIdx := s.usedIdx+1
      completed := s.completed ++ [d] }
  else s

inductive Action
  | driver (maxLen : Nat)
  | fetch
  | complete (d : Nat) (l : BitVec 32) (packet : Nat → UInt8)

def step (s : Rx) : Action → Rx
  | .driver maxLen => driverStep size rxBufPhys s maxLen
  | .fetch => fetch size s
  | .complete d l packet => complete size s d l packet

def zeroed : Rx where
  desc _ := ⟨0,0,0,0⟩
  availRing _ := 0
  availIdx := 0
  usedRing _ := ⟨0,0⟩
  usedIdx := 0
  rxBuf _ := 0
  lastUsed := 0
  ready := true
  pc := .idle
  buf := []
  result := 0
  devAvail := 0
  inFlight := []
  completed := []
  returned := []

def rxFill (s : Rx) (i : Nat) : Rx :=
  { s with desc := setAt s.desc i (rxDesc rxBufPhys i), availRing := setAt s.availRing i (ofNat 16 i) }

def virtioNetInit : Rx :=
  { run (rxFill rxBufPhys) zeroed (List.range size.toNat) with availIdx := size, lastUsed := 0 }

def available (s : Rx) : List Nat :=
  (pending size.toNat s.availRing s.devAvail s.availIdx).map BitVec.toNat ++ s.inFlight

def unread (s : Rx) : List Nat :=
  (pending size.toNat s.usedRing s.lastUsed s.usedIdx).map fun e => e.id.toNat

end

def Pc.held : Pc → List Nat
  | .copy _ d _ | .repost d _ | .offer d _ | .publish d _ => [d.toNat]
  | .idle | .readId _ | .readLen _ _ => []

variable {d : Nat} {more : List Action}

section
variable {size : BitVec 16} {rxBufPhys : BitVec 64} {s : Rx}

def PcOk (size : BitVec 16) (s : Rx) : Prop :=
  match s.pc with
  | .readId _ => unread size s ≠ []
  | .readLen _ d => (unread size s).head? = some d.toNat
  | .publish d _ => (s.availRing (slot size s.availIdx)).toNat = d.toNat
  | .idle | .copy _ _ _ | .repost _ _ | .offer _ _ => True

structure Inv (size : BitVec 16) (rxBufPhys : BitVec 64) (s : Rx) : Prop where
  owners : (available size s ++ unread size s ++ s.pc.held).Perm (List.range size.toNat)
  log : s.completed = s.returned ++ (s.pc.held ++ unread size s)
  pc : PcOk size s
  desc : ∀ i, i < size.toNat → s.desc i = rxDesc rxBufPhys i
  ready : s.ready = true

theorem Inv.lt (hs : Inv size rxBufPhys s) (hd : d ∈ available size s ++ unread size s ++ s.pc.held) :
    d < size.toNat := mem_range.mp (hs.owners.mem_iff.mp hd)

theorem Inv.length (hs : Inv size rxBufPhys s) :
    (pending size.toNat s.availRing s.devAvail s.availIdx).length+s.inFlight.length +
      (pending size.toNat s.usedRing s.lastUsed s.usedIdx).length+s.pc.held.length = size.toNat := by
  have hlen := hs.owners.length_eq
  rw [length_range,length_append,length_append,available,unread,length_append,length_map,
    length_map] at hlen
  exact hlen

theorem unread_eq_nil_iff : unread size s = [] ↔ s.usedIdx-s.lastUsed = 0 := by
  rw [unread,map_eq_nil_iff,pending_eq_nil_iff,sub_eq_zero,eq_comm]

section
variable (hN : size.toNat ∣ 2^16)
include hN

theorem unread_cons (hne : unread size s ≠ []) :
    unread size s = (s.usedRing (slot size s.lastUsed)).id.toNat :: unread size { s with lastUsed := s.lastUsed+1 } := by
  have hidx : s.lastUsed ≠ s.usedIdx := by
    intro heq
    exact hne (unread_eq_nil_iff.mpr (sub_eq_zero.mpr heq.symm))
  rw [unread,pending_take hN hidx,map_cons]
  rfl

section
variable (hs : Inv size rxBufPhys s)
include hs

theorem Inv.fetch : Inv size rxBufPhys (fetch size s) := by
  unfold VirtioNet.fetch
  split
  · exact hs
  rename_i hne
  refine ⟨?_,hs.log,hs.pc,hs.desc,hs.ready⟩
  have ho := hs.owners
  rw [available,pending_take hN hne,map_cons] at ho
  refine Perm.trans ?_ ho
  apply Perm.append_right
  apply Perm.append_right
  rw [available,← append_assoc]
  exact perm_append_singleton _ _

theorem unread_complete (hd : d ∈ s.inFlight)
    (l : BitVec 32) (packet : Nat → UInt8) :
    unread size (complete size s d l packet) = unread size s ++ [d] := by
  have hlen := hs.length
  have hpos := length_pos_of_mem hd
  have hlt : d < size.toNat := hs.lt (by simp [available,hd])
  have hsz := size.isLt
  have hid : (ofNat 32 d).toNat = d := by
    exact Nat.mod_eq_of_lt (by omega)
  have hp := pending_push hN hsz (by omega : (pending size.toNat s.usedRing s.lastUsed s.usedIdx).length < _)
    ⟨ofNat 32 d,l⟩
  rw [complete,if_pos hd]
  show (pending size.toNat (setAt s.usedRing (slot size s.usedIdx) _) s.lastUsed (s.usedIdx+1)).map _ = _
  rw [slot,hp,map_append,map_singleton,hid]
  rfl

theorem PcOk.complete (hd : d ∈ s.inFlight)
    (l : BitVec 32) (packet : Nat → UInt8) : PcOk size (complete size s d l packet) := by
  have hu := unread_complete hN hs hd l packet
  have hok := hs.pc
  unfold PcOk at hok ⊢
  rw [hu]
  rw [VirtioNet.complete,if_pos hd]
  cases hpc : s.pc with
  | readId maxLen => simp
  | readLen maxLen d' =>
    rw [hpc] at hok
    simp [hok]
  | publish d' l' =>
    rw [hpc] at hok
    exact hok
  | _ => trivial

theorem Inv.complete (d : Nat) (l : BitVec 32)
    (packet : Nat → UInt8) : Inv size rxBufPhys (complete size s d l packet) := by
  by_cases hd : d ∈ s.inFlight
  · have hu := unread_complete hN hs hd l packet
    have hpc := PcOk.complete hN hs hd l packet
    rw [VirtioNet.complete,if_pos hd] at hu hpc ⊢
    refine ⟨?_,?_,hpc,hs.desc,hs.ready⟩
    · rw [hu]
      refine Perm.trans ?_ hs.owners
      apply Perm.append_right
      have hl := perm_append_singleton d (available size { s with inFlight := s.inFlight.erase d } ++ unread size s)
      rw [append_assoc] at hl
      refine hl.trans ?_
      rw [← cons_append]
      apply Perm.append_right
      exact perm_middle.symm.trans ((perm_cons_erase hd).symm.append_left _)
    rw [hu]
    rw [hs.log]
    simp only [append_assoc]
  · rw [VirtioNet.complete,if_neg hd]
    exact hs

end

end

theorem Inv.room (hs : Inv size rxBufPhys s) (hh : s.pc.held = [d]) :
    (pending size.toNat s.availRing s.devAvail s.availIdx).length < size.toNat := by
  have hlen := hs.length
  rw [hh,length_singleton] at hlen
  omega

section
variable (hN : size.toNat ∣ 2^16)
include hN

theorem available_offer
    (hr : (pending size.toNat s.availRing s.devAvail s.availIdx).length < size.toNat) (x : BitVec 16) :
    available size { s with availRing := setAt s.availRing (slot size s.availIdx) x } = available size s := by
  rw [available,available]
  rw [slot,pending_write hN hr]

theorem available_publish
    (hr : (pending size.toNat s.availRing s.devAvail s.availIdx).length < size.toNat) :
    (available size { s with availIdx := s.availIdx+1 }).Perm
      ((s.availRing (slot size s.availIdx)).toNat :: available size s) := by
  rw [available]
  rw [pending_publish hN size.isLt hr,map_append,append_assoc]
  exact perm_middle

theorem Inv.found (hs : Inv size rxBufPhys s) {m : Nat} {d : BitVec 32}
    (hpc : s.pc = .readLen m d) :
    d.toNat < size.toNat ∧ unread size s = d.toNat :: unread size { s with lastUsed := s.lastUsed+1 } := by
  have hok := hs.pc
  rw [PcOk,hpc] at hok
  dsimp only at hok
  have hne : unread size s ≠ [] := by
    intro hnil
    rw [hnil] at hok
    cases hok
  have hc := unread_cons hN hne
  rw [hc,head?_cons,Option.some_inj] at hok
  rw [hok] at hc
  exact ⟨hs.lt (by simp [hc]),hc⟩

theorem Inv.driver (hs : Inv size rxBufPhys s) (maxLen : Nat) :
    Inv size rxBufPhys (driverStep size rxBufPhys s maxLen) := by
  have hok := hs.pc
  have ho := hs.owners
  have hlog := hs.log
  unfold PcOk at hok
  unfold driverStep
  cases hpc : s.pc with
  | idle =>
    rw [hpc] at ho hlog
    dsimp only
    split
    · exact ⟨ho,hlog,trivial,hs.desc,hs.ready⟩
    · rename_i hsm
      exact ⟨ho,hlog,fun hnil => hsm (unread_eq_nil_iff.mp hnil),hs.desc,hs.ready⟩
  | readId m =>
    rw [hpc] at ho hlog hok
    refine ⟨ho,hlog,?_,hs.desc,hs.ready⟩
    show (unread size s).head? = _
    rw [unread_cons hN hok]
    rfl
  | readLen m d =>
    obtain ⟨hlt,hc⟩ := hs.found hN hpc
    dsimp only
    rw [if_neg (by omega)]
    rw [hpc,hc] at ho hlog
    refine ⟨?_,hlog,trivial,hs.desc,hs.ready⟩
    refine Perm.trans ?_ ho
    rw [append_assoc]
    exact (perm_append_singleton _ _).append_left _ |>.trans (Perm.of_eq (append_nil _).symm)
  | copy m d l =>
    rw [hpc] at ho hlog
    dsimp only
    split <;> exact ⟨ho,hlog,trivial,hs.desc,hs.ready⟩
  | repost d l =>
    rw [hpc] at ho hlog
    refine ⟨ho,hlog,trivial,?_,hs.ready⟩
    intro i hi
    by_cases heq : i = d.toNat
    · rw [heq]
      exact setAt_self _ _ _
    · exact (setAt_ne _ _ heq).trans (hs.desc i hi)
  | offer d l =>
    have hlt : d.toNat < size.toNat := hs.lt (by simp [hpc,Pc.held])
    have hsa := available_offer hN (hs.room (by rw [hpc]; rfl)) (d.truncate 16)
    rw [hpc,← hsa] at ho
    rw [hpc] at hlog
    refine ⟨ho,hlog,?_,hs.desc,hs.ready⟩
    show (setAt s.availRing (slot size s.availIdx) (d.truncate 16) (slot size s.availIdx)).toNat = d.toNat
    rw [setAt_self,BitVec.truncate_eq_setWidth,BitVec.toNat_setWidth]
    exact Nat.mod_eq_of_lt (by omega)
  | publish d l =>
    have hm := available_publish hN (hs.room (by rw [hpc]; rfl))
    rw [hpc] at ho hlog hok
    rw [hok] at hm
    refine ⟨?_,?_,trivial,hs.desc,hs.ready⟩
    · refine Perm.trans ?_ ho
      have hg := hm.append_right (unread size s)
      refine (Perm.of_eq (append_nil _)).trans (hg.trans ?_)
      exact (perm_append_singleton _ _).symm
    rw [hok]
    show s.completed = s.returned ++ [d.toNat] ++ ([] ++ unread size s)
    rw [hlog]
    simp [Pc.held]

theorem Inv.step (hs : Inv size rxBufPhys s) (a : Action) :
    Inv size rxBufPhys (step size rxBufPhys s a) := by
  cases a with
  | driver maxLen => exact hs.driver hN maxLen
  | fetch => exact hs.fetch hN
  | complete d l packet => exact hs.complete hN d l packet

end

theorem rxFill_run (n : Nat) :
    (∀ i, i < n → (run (rxFill rxBufPhys) zeroed (List.range n)).desc i = rxDesc rxBufPhys i ∧
        (run (rxFill rxBufPhys) zeroed (List.range n)).availRing i = ofNat 16 i) ∧
      run (rxFill rxBufPhys) zeroed (List.range n) =
        { zeroed with
          desc := (run (rxFill rxBufPhys) zeroed (List.range n)).desc
          availRing := (run (rxFill rxBufPhys) zeroed (List.range n)).availRing } := by
  induction n with
  | zero => exact ⟨fun i hi => absurd hi (Nat.not_lt_zero i),rfl⟩
  | succ n ih =>
    obtain ⟨hs,hr⟩ := ih
    have hsn : run (rxFill rxBufPhys) zeroed (List.range (n+1)) =
        rxFill rxBufPhys (run (rxFill rxBufPhys) zeroed (List.range n)) n := by
      rw [range_succ,run,List.foldl_append]
      rfl
    rw [hsn]
    constructor
    · intro i hi
      by_cases heq : i = n
      · rw [heq]
        exact ⟨setAt_self _ _ _,setAt_self _ _ _⟩
      · obtain ⟨hd,hrn⟩ := hs i (by omega)
        exact ⟨(setAt_ne _ _ heq).trans hd,(setAt_ne _ _ heq).trans hrn⟩
    · rw [hr]
      rfl

theorem inv_init : Inv size rxBufPhys (virtioNetInit size rxBufPhys) := by
  obtain ⟨hs,hr⟩ := @rxFill_run rxBufPhys size.toNat
  unfold virtioNetInit
  generalize run (rxFill rxBufPhys) zeroed (List.range size.toNat) = filled at hs hr ⊢
  rw [hr]
  have hn : unread size zeroed = [] := unread_eq_nil_iff.mpr rfl
  have ha : (pending size.toNat filled.availRing 0 size).map BitVec.toNat = List.range size.toNat := by
    rw [pending,sub_zero,RingWindow.window,firsts,map_map]
    conv_rhs => rw [← map_id (List.range size.toNat)]
    apply map_congr_left
    intro i hi
    have hlt := mem_range.mp hi
    have hsl : ((0 : BitVec 16).toNat+i)%size.toNat = i := by
      rw [BitVec.ofNat_eq_ofNat,BitVec.toNat_zero,zero_add]
      exact Nat.mod_eq_of_lt hlt
    rw [Function.comp_apply,hsl,(hs i hlt).2,BitVec.toNat_ofNat]
    exact Nat.mod_eq_of_lt (by omega)
  refine ⟨?_,?_,trivial,fun i hi => (hs i hi).1,rfl⟩
  · show ((pending size.toNat filled.availRing 0 size).map BitVec.toNat ++ [] ++ unread size zeroed ++ []).Perm _
    rw [ha,hn]
    simp
  · show [] = [] ++ ([] ++ unread size zeroed)
    rfl

def Pc.left : Pc → Nat
  | .idle => 7
  | .readId _ => 6
  | .readLen _ _ => 5
  | .copy _ _ _ => 4
  | .repost _ _ => 3
  | .offer _ _ => 2
  | .publish _ _ => 1

def Action.isDriver : Action → Bool
  | .driver _ => true
  | .fetch | .complete _ _ _ => false

theorem device_step {a : Action} (ha : a.isDriver = false) :
    (step size rxBufPhys s a).pc = s.pc ∧ (step size rxBufPhys s a).returned = s.returned := by
  cases a with
  | driver maxLen => cases ha
  | fetch =>
    rw [step,VirtioNet.fetch]
    split <;> exact ⟨rfl,rfl⟩
  | complete d l packet =>
    rw [step,VirtioNet.complete]
    split <;> exact ⟨rfl,rfl⟩

theorem completed_step (a : Action) : s.completed <+: (step size rxBufPhys s a).completed := by
  cases a with
  | driver maxLen =>
    rw [step,driverStep]
    split
    · split
      · exact prefix_rfl
      · exact prefix_rfl
    · exact prefix_rfl
    · split
      · exact prefix_rfl
      · exact prefix_rfl
    · split
      · exact prefix_rfl
      · exact prefix_rfl
    · exact prefix_rfl
    · exact prefix_rfl
    · exact prefix_rfl
  | fetch =>
    rw [step,VirtioNet.fetch]
    split <;> exact prefix_rfl
  | complete d l packet =>
    rw [step,VirtioNet.complete]
    split
    · exact prefix_append _ _
    · exact prefix_rfl

theorem driver_left (hN : size.toNat ∣ 2^16) (hs : Inv size rxBufPhys s) (ho : s.returned.length < s.completed.length)
    (maxLen : Nat) : ((driverStep size rxBufPhys s maxLen).pc.left+1 = s.pc.left ∧
        (driverStep size rxBufPhys s maxLen).returned = s.returned) ∨
      (s.pc.left = 1 ∧ ∃ x, (driverStep size rxBufPhys s maxLen).returned = s.returned ++ [x]) := by
  unfold driverStep
  cases hpc : s.pc with
  | idle =>
    have hsm : ¬ s.usedIdx-s.lastUsed = 0 := by
      rw [← @unread_eq_nil_iff size s]
      intro hnil
      have hlog := hs.log
      rw [hpc,hnil] at hlog
      rw [hlog] at ho
      simp [Pc.held] at ho
    rw [if_neg hsm]
    exact .inl ⟨rfl,rfl⟩
  | readId m => exact .inl ⟨rfl,rfl⟩
  | readLen m d =>
    obtain ⟨hlt,-⟩ := hs.found hN hpc
    dsimp only
    rw [if_neg (by omega)]
    exact .inl ⟨rfl,rfl⟩
  | copy m d l =>
    dsimp only
    split <;> exact .inl ⟨rfl,rfl⟩
  | repost d l | offer d l => exact .inl ⟨rfl,rfl⟩
  | publish d l => exact .inr ⟨rfl,_,rfl⟩

theorem device_run (hm : more.countP Action.isDriver = 0) :
    (run (step size rxBufPhys) s more).returned = s.returned := by
  induction more generalizing s with
  | nil => rfl
  | cons a more ih =>
    have hn := countP_eq_zero.mp hm
    have ha : a.isDriver = false := Bool.eq_false_iff.mpr (hn a mem_cons_self)
    have hr : more.countP Action.isDriver = 0 :=
      countP_eq_zero.mpr fun b hb => hn b (mem_cons_of_mem _ hb)
    exact (ih hr).trans (device_step ha).2

theorem getElem?_of_prefix {l l' : List Nat} (h : l <+: l') {i x : Nat} (hx : l[i]? = some x) : l'[i]? = some x := by
  obtain ⟨t,rfl⟩ := h
  rw [getElem?_append_left (List.getElem?_eq_some_iff.mp hx).1,hx]

theorem run_left (hN : size.toNat ∣ 2^16) (hs : Inv size rxBufPhys s)
    (ho : s.completed[s.returned.length]? = some d) (hm : more.countP Action.isDriver = s.pc.left) :
    (run (step size rxBufPhys) s more).returned = s.returned ++ [d] := by
  induction more generalizing s with
  | nil =>
    cases hpc : s.pc <;> rw [hpc] at hm <;> cases hm
  | cons a more ih =>
    have hn := hs.step hN a
    have hst := getElem?_of_prefix (@completed_step size rxBufPhys s a) ho
    show (run (step size rxBufPhys) (step size rxBufPhys s a) more).returned = _
    cases ha : a.isDriver with
    | false =>
      obtain ⟨hpc,hr⟩ := @device_step size rxBufPhys s a ha
      rw [countP_cons_of_neg (by simp [ha])] at hm
      rw [← hr] at hst ⊢
      exact ih hn hst (by rw [hpc]; exact hm)
    | true =>
      rw [countP_cons_of_pos ha] at hm
      cases a with
      | fetch | complete => cases ha
      | driver maxLen =>
        have hlt := (List.getElem?_eq_some_iff.mp ho).1
        rcases driver_left hN hs hlt maxLen with ⟨hl,hr⟩ | ⟨hls,x,hr⟩
        · rw [← hr] at hst ⊢
          exact ih hn hst (by rw [step]; omega)
        have hlog := hn.log
        rw [step,hr] at hlog
        rw [step,hlog,append_assoc,getElem?_append_right (Nat.le_refl _),Nat.sub_self] at hst
        obtain rfl : x = d := by simpa using hst
        rw [device_run (by omega)]
        exact hr

end

theorem dvd_of_pow {n k : Nat} (hk : n = 2^k) (hn : n < 2^16) : n ∣ 2^16 := by
  rw [hk] at hn ⊢
  exact Nat.pow_dvd_pow 2 (le_of_lt ((Nat.pow_lt_pow_iff_right (by decide)).mp hn))

theorem inv_run (size : BitVec 16) (rxBufPhys : BitVec 64) (hsz : ∃ k, size.toNat = 2^k) (actions : List Action) :
    Inv size rxBufPhys (run (step size rxBufPhys) (virtioNetInit size rxBufPhys) actions) := by
  obtain ⟨k,hk⟩ := hsz
  exact run_invariant _ (fun _ a hs => hs.step (dvd_of_pow hk size.isLt) a) inv_init actions

theorem rxRing_conserves (size : BitVec 16) (rxBufPhys : BitVec 64) (hsize : ∃ k, size.toNat = 2^k)
    (actions : List Action) :
    let s := run (step size rxBufPhys) (virtioNetInit size rxBufPhys) actions
    (available size s ++ unread size s ++ s.pc.held).Perm (List.range size.toNat) ∧
      s.completed = s.returned ++ (s.pc.held ++ unread size s) ∧
      ∀ d more, s.completed[s.returned.length]? = some d → more.countP Action.isDriver = s.pc.left →
        (run (step size rxBufPhys) s more).returned = s.returned ++ [d] := by
  have hs := inv_run size rxBufPhys hsize actions
  obtain ⟨k,hk⟩ := hsize
  exact ⟨hs.owners,hs.log,fun d more howed hmore => run_left (dvd_of_pow hk size.isLt) hs howed hmore⟩

def oneCompleted : Rx :=
  run (step 2 0x100000) (virtioNetInit 2 0x100000)
    [.fetch,.complete 0 60 (fun _ => 7),.driver 2048,.fetch,.driver 2048]

theorem oneCompleted_given_back : oneCompleted.completed[oneCompleted.returned.length]? = some 0 ∧
    (run (step 2 0x100000) oneCompleted
      [.driver 0,.complete 1 0 (fun _ => 0),.driver 0,.driver 0,.driver 0,.driver 0]).returned = [0] := by
  obtain ⟨-,-,hback⟩ := rxRing_conserves 2 0x100000 ⟨1,rfl⟩
    [.fetch,.complete 0 60 (fun _ => 7),.driver 2048,.fetch,.driver 2048]
  exact ⟨by decide,hback 0 _ (by decide) (by decide)⟩

end AevOS.VirtioNet
