import AevOS.KernelHeap

/-! The memory-side cache of `agent/hms_cache.c`: a CLOCK tier L1, and L2 and L3 that evict the smallest
`lru_tag`. A blob is the bytes `kmalloc` gave it room for; grants come from outside. -/

namespace AevOS.Cache
open Slab Wire
open Option (some.inj)

structure KvEntry where
  key : Bytes
  blob : Option Bytes
  len : Nat
  ref : UInt32
  lruTag : UInt64
  inUse : Bool
  deriving DecidableEq

def zeroEntry : KvEntry := ⟨[],none,0,0,0,false⟩

structure HmsKv where
  tab : List KvEntry
  hand : Nat
  clock : UInt64
  deriving DecidableEq

def HmsKv.cap (K : HmsKv) : Nat := K.tab.length

def HmsKv.modify (K : HmsKv) (i : Nat) (f : KvEntry → KvEntry) : HmsKv :=
  { K with tab := K.tab.modify i f }

def KvEntry.holds (key : Bytes) (e : KvEntry) : Bool := e.inUse && e.key == key
def kvFind (K : HmsKv) (key : Bytes) : Option Nat := K.tab.findIdx? (KvEntry.holds key)

def l1Turns : Nat → HmsKv → Nat × HmsKv
  | 0, L => (0,L.modify 0 (fun _ => zeroEntry))
  | n+1, L =>
    let e := L.tab.getD L.hand zeroEntry
    let L' := { L with hand := (L.hand+1)%L.cap }
    if e.inUse = false then l1Turns n L'
    else if e.ref = 0 then (L.hand,L'.modify L.hand (fun _ => zeroEntry))
    else l1Turns n (L'.modify L.hand (fun e => { e with ref := 0 }))

def l1Evict (L : HmsKv) : Nat × HmsKv := l1Turns (L.cap*2) L

def lruScan : List KvEntry → Nat → Nat → UInt64 → Nat × Bool
  | [], _, bestI, _ => (bestI,true)
  | e :: es, i, bestI, bestT =>
    if e.inUse = false then (i,false)
    else if e.lruTag < bestT then lruScan es (i+1) i e.lruTag
    else lruScan es (i+1) bestI bestT

def lruEvict (K : HmsKv) : Nat × HmsKv :=
  let r := lruScan K.tab 0 (2^32-1) (UInt64.ofNat (2^64-1))
  (r.1,if r.2 then K.modify r.1 (fun _ => zeroEntry) else K)

def claimSlot (key : Bytes) (r : Nat × HmsKv) : Nat × HmsKv :=
  (r.1,r.2.modify r.1 (fun e => { e with key := key.take 63, inUse := true }))

def fillSlot (grant : Bool) (data : Bytes) (f : HmsKv → KvEntry → KvEntry) (tick : UInt64)
    (r : Nat × HmsKv) : Int × HmsKv :=
  if served grant data.length then
    let K := { r.2 with clock := r.2.clock+tick }
    (0,K.modify r.1 (fun e => f K { e with blob := some data, len := data.length }))
  else (-enomem,r.2.modify r.1 (fun e => { e with blob := none, inUse := false }))

def l1PutKv (grant : Bool) (key data : Bytes) (L : HmsKv) : Int × HmsKv :=
  fillSlot grant data (fun _ e => { e with ref := 1 }) 0 (match kvFind L key with
    | some i => (i,L)
    | none => claimSlot key (l1Evict L))

def HmsKv.used (K : HmsKv) : Nat := K.tab.countP KvEntry.inUse

def tierSlot (K : HmsKv) : Nat × HmsKv :=
  if K.cap ≤ K.used then lruEvict K
  else ((K.tab.findIdx? (fun e => !e.inUse)).getD 0,K)

def tierPut (grant : Bool) (key data : Bytes) (K : HmsKv) : Int × HmsKv :=
  fillSlot grant data (fun K e => { e with lruTag := K.clock }) 1 (match kvFind K key with
    | some i => (i,K)
    | none => claimSlot key (tierSlot K))

def copyOut (ioLen : Nat) (e : KvEntry) : Bytes := (e.blob.getD []).take (min ioLen e.len)

def l1GetKv (key : Bytes) (ioLen : Nat) (L : HmsKv) : Int × Bytes × HmsKv :=
  match kvFind L key with
  | none => (-enoent,[],L)
  | some i =>
    (0,copyOut ioLen (L.tab.getD i zeroEntry),L.modify i (fun e => { e with ref := 1 }))

def tierGet (key : Bytes) (ioLen : Nat) (K : HmsKv) : Int × Bytes × HmsKv :=
  match kvFind K key with
  | none => (-enoent,[],K)
  | some i =>
    (0,copyOut ioLen (K.tab.getD i zeroEntry),
      { K with clock := K.clock+1 }.modify i (fun e => { e with lruTag := K.clock+1 }))

structure HmsCache where
  l1Slots : UInt32
  l1 : Option HmsKv
  l2 : Option HmsKv
  l3 : Option HmsKv
  hitsL1 : UInt64
  hitsL2 : UInt64
  hitsL3 : UInt64
  misses : UInt64

def sizeofKv : Nat := 24
def sizeofEntry : Nat := 104

def kvCreate (grants : Bool × Bool) (cap : Nat) : Option HmsKv :=
  if served grants.1 sizeofKv && served grants.2 (cap*sizeofEntry) then
    some ⟨List.replicate cap zeroEntry,0,0⟩
  else none

def hmsCacheInit (grants1 grants2 grants3 : Bool × Bool) (l1Slots : UInt32) : HmsCache :=
  let slots := if l1Slots = 0 then 32 else l1Slots
  ⟨slots,kvCreate grants1 slots.toNat,kvCreate grants2 256,kvCreate grants3 512,0,0,0,0⟩

def getThrough (kv : Option HmsKv) (get : HmsKv → Int × Bytes × HmsKv)
    (hit : HmsCache → HmsKv → HmsCache) (c : HmsCache) : Int × Bytes × HmsCache :=
  match kv with
  | none => (-einval,[],c)
  | some K =>
    let r := get K
    if r.1 = 0 then (0,r.2.1,hit c r.2.2) else (r.1,r.2.1,{ c with misses := c.misses+1 })

def hmsCacheL1Get (c : HmsCache) (key : Bytes) (ioLen : Nat) : Int × Bytes × HmsCache :=
  getThrough c.l1 (l1GetKv key ioLen) (fun c L => { c with l1 := some L, hitsL1 := c.hitsL1+1 }) c

def hmsCacheL2Get (c : HmsCache) (key : Bytes) (ioLen : Nat) : Int × Bytes × HmsCache :=
  getThrough c.l2 (tierGet key ioLen) (fun c K => { c with l2 := some K, hitsL2 := c.hitsL2+1 }) c

def hmsCacheL3Get (c : HmsCache) (key : Bytes) (ioLen : Nat) : Int × Bytes × HmsCache :=
  getThrough c.l3 (tierGet key ioLen) (fun c K => { c with l3 := some K, hitsL3 := c.hitsL3+1 }) c

def putThrough (kv : Option HmsKv) (data : Bytes) (put : HmsKv → Int × HmsKv)
    (set : HmsCache → HmsKv → HmsCache) (c : HmsCache) : Int × HmsCache :=
  match kv with
  | none => (-einval,c)
  | some K =>
    if data.length = 0 then (-einval,c)
    else
      let r := put K
      (r.1,set c r.2)

def hmsCacheL1Put (grant : Bool) (c : HmsCache) (key data : Bytes) : Int × HmsCache :=
  putThrough c.l1 data (l1PutKv grant key data) (fun c L => { c with l1 := some L }) c

def hmsCacheL2Put (grant : Bool) (c : HmsCache) (key data : Bytes) : Int × HmsCache :=
  putThrough c.l2 data (tierPut grant key data) (fun c K => { c with l2 := some K }) c

def hmsCacheL3Put (grant : Bool) (c : HmsCache) (key data : Bytes) : Int × HmsCache :=
  putThrough c.l3 data (tierPut grant key data) (fun c K => { c with l3 := some K }) c

inductive Tier where
  | l1 | l2 | l3
  deriving DecidableEq

inductive Op where
  | get (tier : Tier) (key : Bytes) (ioLen : Nat)
  | put (tier : Tier) (key data : Bytes) (grant : Bool)
  deriving DecidableEq

def step (c : HmsCache) : Op → HmsCache
  | .get .l1 key ioLen => (hmsCacheL1Get c key ioLen).2.2
  | .get .l2 key ioLen => (hmsCacheL2Get c key ioLen).2.2
  | .get .l3 key ioLen => (hmsCacheL3Get c key ioLen).2.2
  | .put .l1 key data grant => (hmsCacheL1Put grant c key data).2
  | .put .l2 key data grant => (hmsCacheL2Put grant c key data).2
  | .put .l3 key data grant => (hmsCacheL3Put grant c key data).2

def run (ops : List Op) (c : HmsCache) : HmsCache := ops.foldl step c

open List

def KvEntry.value (e : KvEntry) : Bytes := (e.blob.getD []).take e.len
def KvEntry.pair (e : KvEntry) : Bytes × Bytes := (e.key,e.value)
def KvEntry.stamp (e : KvEntry) : Nat := e.lruTag.toNat
def HmsKv.live (K : HmsKv) : List KvEntry := K.tab.filter KvEntry.inUse
def HmsKv.contents (K : HmsKv) : List (Bytes × Bytes) := K.live.map KvEntry.pair

def HmsKv.others (K : HmsKv) (i : Nat) : List KvEntry :=
  (K.tab.eraseIdx i).filter KvEntry.inUse

@[simp] theorem modify_cap (K : HmsKv) (i : Nat) (f : KvEntry → KvEntry) :
    (K.modify i f).cap = K.cap := length_modify f K.tab i

@[simp] theorem modify_clock (K : HmsKv) (i : Nat) (f : KvEntry → KvEntry) :
    (K.modify i f).clock = K.clock := rfl

theorem served_pos {grant : Bool} {n : Nat} (h : served grant n = true) : n ≠ 0 := by
  simp only [served,Bool.and_eq_true,decide_eq_true_eq] at h
  omega

section
variable {K : HmsKv} {i : Nat} {key data : Bytes} {get : HmsKv → Int × Bytes × HmsKv}
    {hit set : HmsCache → HmsKv → HmsCache} {kv : Option HmsKv} {put : HmsKv → Int × HmsKv}

theorem live_perm (hi : i < K.tab.length) : K.live.Perm ([K.tab[i]].filter KvEntry.inUse ++ K.others i) := by
  have hp := (getElem_cons_eraseIdx_perm hi).symm.filter KvEntry.inUse
  rw [← singleton_append,filter_append] at hp
  exact hp

theorem live_modify_perm (hi : i < K.tab.length) (f : KvEntry → KvEntry) :
    (K.modify i f).live.Perm ([f K.tab[i]].filter KvEntry.inUse ++ K.others i) := by
  have hi' : i < (K.modify i f).tab.length := by simpa [HmsKv.modify] using hi
  have hp := live_perm hi'
  simp only [HmsKv.modify,HmsKv.others,getElem_modify_eq,eraseIdx_modify_of_eq] at hp
  exact hp

theorem mem_others {e : KvEntry} (h : e ∈ K.others i) : e ∈ K.live := by
  rw [HmsKv.others,mem_filter] at h
  exact mem_filter.mpr ⟨mem_of_mem_eraseIdx h.1,h.2⟩

theorem live_length (K : HmsKv) : K.live.length = K.used := countP_eq_length_filter.symm

theorem kvFind_some (h : kvFind K key = some i) :
    ∃ hi : i < K.tab.length, K.tab[i].inUse = true ∧ K.tab[i].key = key := by
  obtain ⟨hi,hp,-⟩ := findIdx?_eq_some_iff_getElem.mp h
  simp only [KvEntry.holds,Bool.and_eq_true,beq_iff_eq] at hp
  exact ⟨hi,hp⟩

theorem kvFind_none (h : kvFind K key = none) : ∀ e ∈ K.live, e.key ≠ key := by
  intro e he heq
  obtain ⟨hmem,huse⟩ := mem_filter.mp he
  have hp := findIdx?_eq_none_iff.mp h e hmem
  simp [KvEntry.holds,huse,heq] at hp

theorem lruScan_spec {es : List KvEntry} (huse : ∀ e ∈ es, e.inUse = true) (i bestI : Nat)
    (bestT : UInt64) : (lruScan es i bestI bestT = (bestI,true) ∧ ∀ e ∈ es, bestT ≤ e.lruTag) ∨
      ∃ k, ∃ hk : k < es.length, lruScan es i bestI bestT = (i+k,true) ∧
        es[k].lruTag < bestT ∧ ∀ e ∈ es, es[k].lruTag ≤ e.lruTag := by
  induction es generalizing i bestI bestT with
  | nil => exact .inl ⟨rfl,fun e he => absurd he not_mem_nil⟩
  | cons e es ih =>
    obtain ⟨he,hes⟩ := forall_mem_cons.mp huse
    rw [lruScan,if_neg (by simp [he])]
    by_cases hlt : e.lruTag < bestT
    · rw [if_pos hlt]
      refine .inr ?_
      rcases ih hes (i+1) i e.lruTag with ⟨hr,hmin⟩ | ⟨k,hk,hr,hkt,hmin⟩
      · exact ⟨0,Nat.succ_pos _,hr,hlt,forall_mem_cons.mpr ⟨UInt64.le_refl _,hmin⟩⟩
      · refine ⟨k+1,Nat.succ_lt_succ hk,?_,UInt64.lt_trans hkt hlt,?_⟩
        · rw [hr,add_assoc,add_comm 1]
        · exact forall_mem_cons.mpr ⟨UInt64.le_of_lt hkt,hmin⟩
    rw [if_neg hlt]
    rcases ih hes (i+1) bestI bestT with ⟨hr,hmin⟩ | ⟨k,hk,hr,hkt,hmin⟩
    · exact .inl ⟨hr,forall_mem_cons.mpr ⟨UInt64.not_lt.mp hlt,hmin⟩⟩
    refine .inr ⟨k+1,Nat.succ_lt_succ hk,?_,hkt,?_⟩
    · rw [hr,add_assoc,add_comm 1]
    · exact forall_mem_cons.mpr ⟨UInt64.le_trans (UInt64.le_of_lt hkt) (UInt64.not_lt.mp hlt),hmin⟩

theorem lruEvict_spec (huse : ∀ e ∈ K.tab, e.inUse = true) (htag : ∃ e ∈ K.tab, e.lruTag.toNat < 2^64-1) :
    ∃ i, ∃ hi : i < K.tab.length, lruEvict K = (i,K.modify i (fun _ => zeroEntry)) ∧
      ∀ e ∈ K.tab, K.tab[i].stamp ≤ e.stamp := by
  rcases lruScan_spec huse 0 (2^32-1) (UInt64.ofNat (2^64-1)) with
    ⟨-,hmin⟩ | ⟨i,hi,hr,-,hmin⟩
  · obtain ⟨e,he,hlt⟩ := htag
    have hle := UInt64.le_iff_toNat_le.mp (hmin e he)
    rw [UInt64.toNat_ofNat'] at hle
    omega
  · refine ⟨i,hi,?_,fun e he => UInt64.le_iff_toNat_le.mp (hmin e he)⟩
    rw [lruEvict,hr,zero_add]
    rfl

theorem tierSlot_spec (htag : K.cap ≤ K.used → ∃ e ∈ K.live, e.lruTag.toNat < 2^64-1) :
    ∃ i, ∃ hi : i < K.tab.length, ∃ f, tierSlot K = (i,K.modify i f) ∧
      ((K.cap ≤ K.used ∧ K.tab[i].inUse = true ∧ ∀ e ∈ K.live, K.tab[i].stamp ≤ e.stamp) ∨
        (K.used < K.cap ∧ K.tab[i].inUse = false)) := by
  unfold tierSlot
  by_cases hf : K.cap ≤ K.used
  · have hle : K.used ≤ K.cap := countP_le_length
    have huse : ∀ e ∈ K.tab, e.inUse = true :=
      countP_eq_length.mp (le_antisymm hle hf)
    obtain ⟨e,he,hlow⟩ := htag hf
    obtain ⟨i,hi,hr,hmin⟩ := lruEvict_spec huse ⟨e,(mem_filter.mp he).1,hlow⟩
    rw [if_pos hf]
    refine ⟨i,hi,_,hr,.inl ⟨hf,huse _ (getElem_mem hi),?_⟩⟩
    exact fun e he => hmin e (mem_filter.mp he).1
  rw [if_neg hf]
  cases hfn : K.tab.findIdx? (fun e => !e.inUse) with
  | none =>
    exfalso
    apply hf
    have hall := findIdx?_eq_none_iff.mp hfn
    simp only [Bool.not_eq_false'] at hall
    exact le_of_eq (countP_eq_length.mpr hall).symm
  | some i =>
    obtain ⟨hi,hfr,-⟩ := findIdx?_eq_some_iff_getElem.mp hfn
    refine ⟨i,hi,id,?_,.inr ⟨by omega,by simpa using hfr⟩⟩
    simp [HmsKv.modify]

def kvGet : Tier → Bytes → Nat → HmsKv → Int × Bytes × HmsKv
  | .l1 => l1GetKv
  | .l2 => tierGet
  | .l3 => tierGet

def kvPut : Tier → Bool → Bytes → Bytes → HmsKv → Int × HmsKv
  | .l1 => l1PutKv
  | .l2 => tierPut
  | .l3 => tierPut

def tierStep (t : Tier) (K : HmsKv) : Op → HmsKv
  | .get t' key ioLen => if t' = t then (kvGet t key ioLen K).2.2 else K
  | .put t' key data grant =>
    if t' = t ∧ data.length ≠ 0 then (kvPut t grant key data K).2 else K

def HmsCache.tier (c : HmsCache) : Tier → Option HmsKv
  | .l1 => c.l1
  | .l2 => c.l2
  | .l3 => c.l3

section
variable {t : Tier} {c : HmsCache}

theorem getThrough_tier (hhit : ∀ K, (hit c K).tier t = some K) (hm : ∀ K, (get K).1 ≠ 0 → (get K).2.2 = K) :
    (getThrough (c.tier t) get hit c).2.2.tier t = (c.tier t).map (fun K => (get K).2.2) := by
  unfold getThrough
  cases hK : c.tier t with
  | none => exact hK
  | some K =>
    by_cases hz : (get K).1 = 0
    · simp [hz,hhit]
    · have hs : ({ c with misses := c.misses+1 } : HmsCache).tier t = c.tier t := by
        cases t <;> rfl
      simp [hz,hm K hz,hs,hK]

theorem getThrough_other (hhit : ∀ K, (hit c K).tier t = c.tier t) :
    (getThrough kv get hit c).2.2.tier t = c.tier t := by
  unfold getThrough
  cases kv with
  | none => rfl
  | some K =>
    simp only
    split
    · exact hhit _
    · cases t <;> rfl

theorem putThrough_tier (hset : ∀ K, (set c K).tier t = some K) :
    (putThrough (c.tier t) data put set c).2.tier t =
      (c.tier t).map (fun K => if data.length ≠ 0 then (put K).2 else K) := by
  unfold putThrough
  cases hK : c.tier t with
  | none => exact hK
  | some K =>
    by_cases hz : data.length = 0
    · simp [hz,hK]
    · simp [hz,hset]

theorem putThrough_other (hset : ∀ K, (set c K).tier t = c.tier t) :
    (putThrough kv data put set c).2.tier t = c.tier t := by
  unfold putThrough
  cases kv with
  | none => rfl
  | some K =>
    simp only
    split
    · rfl
    · exact hset _

end

theorem kvGet_miss (t : Tier) (key : Bytes) (ioLen : Nat) (K : HmsKv)
    (h : (kvGet t key ioLen K).1 ≠ 0) : (kvGet t key ioLen K).2.2 = K := by
  cases hf : kvFind K key with
  | none => cases t <;> simp [kvGet,l1GetKv,tierGet,hf]
  | some i =>
    refine absurd ?_ h
    cases t <;> simp [kvGet,l1GetKv,tierGet,hf]

theorem step_tier (c : HmsCache) (o : Op) (t : Tier) :
    (step c o).tier t = (c.tier t).map (fun K => tierStep t K o) := by
  have hid : c.tier t = (c.tier t).map (fun K => K) := by simp
  cases o with
  | get t' key ioLen =>
    by_cases ht : t' = t
    · subst ht
      simp only [tierStep,if_true]
      cases t' with
      | l1 => exact getThrough_tier (t := .l1) (fun _ => rfl) (kvGet_miss .l1 key ioLen)
      | l2 => exact getThrough_tier (t := .l2) (fun _ => rfl) (kvGet_miss .l2 key ioLen)
      | l3 => exact getThrough_tier (t := .l3) (fun _ => rfl) (kvGet_miss .l3 key ioLen)
    · simp only [tierStep,if_neg ht]
      refine Eq.trans ?_ hid
      cases t' <;> cases t <;> first | exact absurd rfl ht | exact getThrough_other (fun _ => rfl)
  | put t' key data grant =>
    by_cases ht : t' = t
    · subst ht
      simp only [tierStep,true_and]
      cases t' with
      | l1 => exact putThrough_tier (t := .l1) (fun _ => rfl)
      | l2 => exact putThrough_tier (t := .l2) (fun _ => rfl)
      | l3 => exact putThrough_tier (t := .l3) (fun _ => rfl)
    · simp only [tierStep,ht,false_and,if_false]
      refine Eq.trans ?_ hid
      cases t' <;> cases t <;> first | exact absurd rfl ht | exact putThrough_other (fun _ => rfl)

theorem run_tier (ops : List Op) (c : HmsCache) (t : Tier) :
    (run ops c).tier t = (c.tier t).map (fun K => ops.foldl (tierStep t) K) := by
  induction ops generalizing c with
  | nil => simp [run]
  | cons o ops ih =>
    have hr := ih (step c o)
    rw [step_tier c o t,Option.map_map] at hr
    exact hr

end

/-! The tier L1 never uses more than its first slot: the hand of `l1_evict` passes over unused slots. -/

structure FirstOnly (e : KvEntry) (cap : Nat) (L : HmsKv) : Prop where
  table : ∃ rest, L.tab = e :: rest ∧ rest.length+1 = cap ∧ ∀ x ∈ rest, x.inUse = false

variable {e : KvEntry} {cap : Nat} {L : HmsKv} {key data k : Bytes} {c : HmsCache} {grant : Bool}
    {ops : List Op}

theorem FirstOnly.modify (h : FirstOnly e cap L) (f : KvEntry → KvEntry) :
    FirstOnly (f e) cap (L.modify 0 f) := by
  obtain ⟨rest,ht,hlen,hr⟩ := h.table
  exact ⟨rest,by simp [HmsKv.modify,ht],hlen,hr⟩

theorem FirstOnly.entry (h : FirstOnly e cap L) (i : Nat) :
    L.tab.getD i zeroEntry = e ∧ i = 0 ∨ (L.tab.getD i zeroEntry).inUse = false := by
  obtain ⟨rest,ht,-,hr⟩ := h.table
  rw [ht]
  cases i with
  | zero => exact .inl ⟨rfl,rfl⟩
  | succ i =>
    refine .inr ?_
    rw [getD_cons_succ,getD_eq_getElem?_getD]
    cases hx : rest[i]? with
    | none => rfl
    | some x => exact hr x (mem_of_getElem? hx)

theorem l1Turns_firstOnly (n : Nat) (h : FirstOnly e cap L) :
    ∃ L', l1Turns n L = (0,L') ∧ FirstOnly zeroEntry cap L' := by
  induction n generalizing e L with
  | zero => exact ⟨_,rfl,h.modify (fun _ => zeroEntry)⟩
  | succ n ih =>
    have hh : FirstOnly e cap { L with hand := (L.hand+1)%L.cap } := ⟨h.table⟩
    rw [l1Turns]
    rcases h.entry L.hand with ⟨he,hz⟩ | hu
    · rw [he,hz]
      rw [hz] at hh
      split
      · exact ih hh
      · split
        · exact ⟨_,rfl,hh.modify (fun _ => zeroEntry)⟩
        · exact ih (hh.modify (fun e => { e with ref := 0 }))
    · rw [if_pos hu]
      exact ih hh

def KvEntry.held (e : KvEntry) : Option Bytes := if e.inUse then some e.key else none

structure Holds (held : Option Bytes) (cap : Nat) (L : HmsKv) : Prop where
  first : ∃ e, FirstOnly e cap L ∧ held = e.held
  short : ∀ s, held = some s → s.length ≤ 63

def HmsKv.Has (L : HmsKv) (key : Bytes) : Prop := ∃ e ∈ L.tab, e.inUse = true ∧ e.key = key
def HmsKv.Full (L : HmsKv) : Prop := ∀ e ∈ L.tab, e.inUse = true

section
variable {held : Option Bytes} {cap : Nat} {L : HmsKv}

theorem Holds.has_iff (h : Holds held cap L) : L.Has key ↔ held = some key := by
  obtain ⟨e,⟨rest,ht,-,hr⟩,rfl⟩ := h.first
  rw [HmsKv.Has,ht,KvEntry.held]
  constructor
  · rintro ⟨x,hx,huse,rfl⟩
    rcases mem_cons.mp hx with rfl | hx
    · rw [if_pos huse]
    · rw [hr x hx] at huse
      exact Bool.noConfusion huse
  intro hkey
  split at hkey
  · rename_i huse
    exact ⟨e,mem_cons_self,huse,some.inj hkey⟩
  · exact absurd hkey (by simp)

theorem Holds.full_iff (h : Holds held cap L) : L.Full ↔ cap = 1 ∧ held ≠ none := by
  obtain ⟨e,⟨rest,ht,hlen,hr⟩,rfl⟩ := h.first
  rw [HmsKv.Full,ht,forall_mem_cons]
  cases rest with
  | nil =>
    simp [← hlen,KvEntry.held]
  | cons x rest =>
    simp only [length_cons] at hlen
    have hx := hr x mem_cons_self
    simp [hx]
    omega

theorem Holds.find (h : Holds held cap L) (key : Bytes) :
    kvFind L key = if held = some key then some 0 else none := by
  obtain ⟨e,⟨rest,ht,-,hr⟩,rfl⟩ := h.first
  have hn : rest.findIdx? (KvEntry.holds key) = none := by
    rw [findIdx?_eq_none_iff]
    intro x hx
    simp [KvEntry.holds,hr x hx]
  rw [kvFind,ht,findIdx?_cons,hn]
  by_cases huse : e.inUse = true
  · simp [KvEntry.holds,KvEntry.held,huse]
  · simp [KvEntry.holds,KvEntry.held,huse]

end

def heldAfter (held : Option Bytes) : Op → Option Bytes
  | .put .l1 key data grant =>
    if data.length = 0 then held
    else if served grant data.length then some (key.take 63) else none
  | _ => held

section
variable {held : Option Bytes} {cap : Nat} {L : HmsKv}

theorem Holds.get (h : Holds held cap L) (key : Bytes) (ioLen : Nat) :
    Holds held cap (l1GetKv key ioLen L).2.2 := by
  rw [l1GetKv,h.find key]
  by_cases hk : held = some key
  · rw [if_pos hk]
    obtain ⟨e,hf,he⟩ := h.first
    exact ⟨⟨_,hf.modify (fun e => { e with ref := 1 }),he⟩,h.short⟩
  · rw [if_neg hk]
    exact h

theorem FirstOnly.fill (h : FirstOnly e cap L) (huse : e.inUse = true) (hsh : e.key.length ≤ 63)
    (grant : Bool) (data : Bytes) :
    (fillSlot grant data (fun _ e => { e with ref := 1 }) 0 (0,L)).1 =
        (if served grant data.length then 0 else -enomem) ∧
      Holds (if served grant data.length then some e.key else none) cap
        (fillSlot grant data (fun _ e => { e with ref := 1 }) 0 (0,L)).2 := by
  unfold fillSlot
  by_cases hs : served grant data.length = true
  · simp only [if_pos hs]
    have hc : FirstOnly e cap { L with clock := L.clock+0 } := ⟨h.table⟩
    refine ⟨trivial,⟨_,hc.modify _,?_⟩,?_⟩
    · simp [KvEntry.held,huse]
    · rintro s hs
      rw [← some.inj hs]
      exact hsh
  simp only [if_neg hs]
  refine ⟨trivial,⟨_,h.modify _,?_⟩,?_⟩
  · simp [KvEntry.held]
  · rintro s hs
    exact absurd hs (by simp)

theorem Holds.put (h : Holds held cap L) (grant : Bool) (key data : Bytes) :
    (l1PutKv grant key data L).1 = (if served grant data.length then 0 else -enomem) ∧
      Holds (if served grant data.length then some (key.take 63) else none) cap
        (l1PutKv grant key data L).2 := by
  rw [l1PutKv,h.find key]
  by_cases hk : held = some key
  · obtain ⟨e,hf,he⟩ := h.first
    have hs := h.short key hk
    have huse : e.inUse = true ∧ e.key = key := by
      rw [hk,KvEntry.held] at he
      split at he
      · rename_i huse
        exact ⟨huse,(some.inj he).symm⟩
      · exact absurd he (by simp)
    have hfl := hf.fill huse.1 (by rw [huse.2]; exact hs) grant data
    rw [huse.2] at hfl
    rw [if_pos hk,take_of_length_le hs]
    exact hfl
  obtain ⟨e,hf,-⟩ := h.first
  obtain ⟨L',ht,hz⟩ := l1Turns_firstOnly (L.cap*2) hf
  have hc := hz.modify (fun e => { e with key := key.take 63, inUse := true })
  rw [if_neg hk]
  simp only [claimSlot,l1Evict,ht]
  exact hc.fill rfl (length_take_le 63 key) grant data

end

def Held (held : Option Bytes) (cap : Nat) (c : HmsCache) : Prop :=
  ∃ L, c.l1 = some L ∧ Holds held cap L

theorem Holds.step {held : Option Bytes} (h : Holds held cap L) (o : Op) :
    Holds (heldAfter held o) cap (tierStep .l1 L o) := by
  cases o with
  | get t key ioLen =>
    rw [tierStep]
    split
    · exact h.get key ioLen
    · exact h
  | put t key data grant =>
    cases t with
    | l1 =>
      rw [tierStep,heldAfter]
      by_cases hz : data.length = 0
      · rw [if_pos hz,if_neg (fun hne => hne.2 hz)]
        exact h
      have hput : (if Tier.l1 = Tier.l1 ∧ data.length ≠ 0 then (kvPut .l1 grant key data L).2
          else L) = (l1PutKv grant key data L).2 := if_pos ⟨rfl,hz⟩
      rw [hput,if_neg hz]
      exact (h.put grant key data).2
    | l2 | l3 => exact h

theorem Held.step {held : Option Bytes} (h : Held held cap c) (o : Op) :
    Held (heldAfter held o) cap (step c o) := by
  obtain ⟨L,hL,hh⟩ := h
  have hs := step_tier c o .l1
  rw [show c.tier .l1 = some L from hL] at hs
  exact ⟨_,hs,hh.step o⟩

theorem Held.run {held : Option Bytes} (h : Held held cap c) (ops : List Op) :
    Held (ops.foldl heldAfter held) cap (run ops c) := by
  induction ops generalizing held c with
  | nil => exact h
  | cons o ops ih => exact ih (h.step o)

def EvictsOnlyFull (c : HmsCache) : Op → Prop
  | .put .l1 key data grant =>
    ∀ L L', c.l1 = some L → (step c (.put .l1 key data grant)).l1 = some L' →
      kvFind L key = none → (∃ k, L.Has k ∧ ¬ L'.Has k) → L.Full
  | _ => True

def l1Keys (ops : List Op) : List Bytes :=
  ops.filterMap (fun o => match o with | .put .l1 key _ _ => some key | _ => none)

def PutsSucceed (c : HmsCache) (ops : List Op) : Prop :=
  ∀ before key data grant after, ops = before ++ .put .l1 key data grant :: after →
    (hmsCacheL1Put grant (run before c) key data).1 = 0

/-- Nothing is evicted while a slot is free, and keys that fit are all kept. -/
structure UsesCapacity (c : HmsCache) (ops : List Op) : Prop where
  evicts : ∀ before o after, ops = before ++ o :: after → EvictsOnlyFull (run before c) o
  keeps : ∀ before after, ops = before ++ after → PutsSucceed c before →
    (l1Keys before).dedup.length ≤ c.l1Slots.toNat →
    ∀ k ∈ l1Keys before, ∃ L, (run before c).l1 = some L ∧ L.Has (k.take 63)

def Repeat (held : Option Bytes) : Op → Prop
  | .put .l1 key data grant =>
    data.length = 0 ∨ held = none ∨ held = some key ∨
      (held = some (key.take 63) ∧ served grant data.length = true)
  | _ => True

instance (held : Option Bytes) (o : Op) : Decidable (Repeat held o) :=
  match o with
  | .put .l1 _ _ _ => inferInstanceAs (Decidable (_ ∨ _))
  | .put .l2 _ _ _ => inferInstanceAs (Decidable True)
  | .put .l3 _ _ _ => inferInstanceAs (Decidable True)
  | .get _ _ _ => inferInstanceAs (Decidable True)

def Repeats : Option Bytes → List Op → Prop
  | _, [] => True
  | held, o :: ops => Repeat held o ∧ Repeats (heldAfter held o) ops

theorem repeat_iff {held : Option Bytes} : Repeat held (.put .l1 key data grant) ↔
    held = some key ∨ ∀ k, held = some k → heldAfter held (.put .l1 key data grant) = some k := by
  rw [Repeat,heldAfter]
  by_cases hz : data.length = 0
  · simp [hz]
  cases held with
  | none => simp
  | some s =>
    by_cases hs : served grant data.length = true
    · simp [hz,hs,eq_comm]
    · simp [hz,hs]

theorem Held.evictsOnlyFull_iff {held : Option Bytes} (h : Held held cap c) (o : Op) :
    EvictsOnlyFull c o ↔ cap = 1 ∨ Repeat held o := by
  cases o with
  | get t key ioLen => exact iff_of_true trivial (.inr trivial)
  | put t key data grant =>
    cases t with
    | l2 | l3 => exact iff_of_true trivial (.inr trivial)
    | l1 =>
      obtain ⟨L',hL',ha⟩ := h.step (.put .l1 key data grant)
      obtain ⟨L,hL,hb⟩ := h
      have hf := hb.find key
      rw [repeat_iff]
      constructor
      · intro hall
        by_contra hcon
        simp only [not_or,not_forall] at hcon
        obtain ⟨hcap,hkey,k,hk,hl⟩ := hcon
        rw [if_neg hkey] at hf
        have hfl := hall L L' hL hL' hf ⟨k,hb.has_iff.mpr hk,fun hhas => hl (ha.has_iff.mp hhas)⟩
        exact hcap (hb.full_iff.mp hfl).1
      rintro hc M M' hM hM' hn ⟨k,hhas,hl⟩
      obtain rfl : L = M := some.inj (hL.symm.trans hM)
      obtain rfl : L' = M' := some.inj (hL'.symm.trans hM')
      have hk := hb.has_iff.mp hhas
      rcases hc with hcap | hkey | hkp
      · exact hb.full_iff.mpr ⟨hcap,by rw [hk]; simp⟩
      · rw [if_pos hkey,hn] at hf
        exact absurd hf (by simp)
      · exact absurd (ha.has_iff.mpr (hkp k hk)) hl

theorem Held.evicts_iff {held : Option Bytes} (h : Held held cap c) (hcap : cap ≠ 1) (ops : List Op) :
    (∀ before o after, ops = before ++ o :: after → EvictsOnlyFull (Cache.run before c) o) ↔
      Repeats held ops := by
  induction ops generalizing held c with
  | nil => exact iff_of_true (fun before o after he => by simp at he) trivial
  | cons o ops ih =>
    rw [Repeats,← ih (h.step o)]
    constructor
    · intro hall
      refine ⟨((h.evictsOnlyFull_iff o).mp (hall [] o ops rfl)).resolve_left hcap,?_⟩
      intro before o' after he
      exact hall (o :: before) o' after (by rw [he]; rfl)
    rintro ⟨hrep,hall⟩ before o' after he
    cases before with
    | nil =>
      obtain ⟨rfl,rfl⟩ := cons.inj he
      exact (h.evictsOnlyFull_iff o).mpr (.inr hrep)
    | cons b before =>
      obtain ⟨rfl,rfl⟩ := cons.inj he
      exact hall before o' after rfl

def AllServed (ops : List Op) : Prop :=
  ∀ key data grant, Op.put .l1 key data grant ∈ ops → served grant data.length = true

theorem Held.putsSucceed {held : Option Bytes} (h : Held held cap c) (hops : PutsSucceed c ops) :
    AllServed ops := by
  intro key data grant hmem
  obtain ⟨before,after,rfl⟩ := append_of_mem hmem
  have hok := hops before key data grant after rfl
  obtain ⟨L,hL,hh⟩ := h.run before
  rw [hmsCacheL1Put,hL] at hok
  simp only [putThrough] at hok
  split at hok
  · exact absurd hok (by simp [einval])
  have hput := (hh.put grant key data).1
  by_contra hs
  rw [if_neg hs] at hput
  simp only [hput] at hok
  exact absurd hok (by simp [enomem])

theorem heldAfter_served (key : Bytes) (hs : served grant data.length = true) (held : Option Bytes) :
    heldAfter held (.put .l1 key data grant) = some (key.take 63) := by
  rw [heldAfter,if_neg (served_pos hs),if_pos hs]

theorem Op.l1_cases (o : Op) : (∃ key data grant, o = .put .l1 key data grant) ∨
    ((∀ held, heldAfter held o = held ∧ Repeat held o) ∧ ∀ ops, l1Keys (o :: ops) = l1Keys ops) := by
  cases o with
  | get t key ioLen => exact .inr ⟨fun _ => ⟨rfl,trivial⟩,fun _ => rfl⟩
  | put t key data grant =>
    cases t with
    | l1 => exact .inl ⟨key,data,grant,rfl⟩
    | l2 | l3 => exact .inr ⟨fun _ => ⟨rfl,trivial⟩,fun _ => rfl⟩

theorem Repeats.held {held : Option Bytes} (h : Repeats held ops) (hs : AllServed ops) :
    (∀ s, held = some s → s.length ≤ 63 → ops.foldl heldAfter held = some s) ∧
      ∀ k ∈ l1Keys ops, ops.foldl heldAfter held = some (k.take 63) := by
  induction ops generalizing held with
  | nil => exact ⟨fun s hs _ => hs,fun k hk => absurd hk not_mem_nil⟩
  | cons o ops ih =>
    obtain ⟨hrep,hr⟩ := h
    obtain ⟨hf,hky⟩ := ih hr (fun key data grant hmem =>
      hs key data grant (mem_cons_of_mem _ hmem))
    rw [foldl_cons]
    rcases o.l1_cases with ⟨key,data,grant,rfl⟩ | ⟨hsm,hn⟩
    · have hsr := hs key data grant mem_cons_self
      have ha := heldAfter_served key hsr held
      have hend := hf _ ha (length_take_le 63 key)
      refine ⟨fun s hh hsh => ?_,fun k hk => ?_⟩
      · rw [hend]
        rcases repeat_iff.mp hrep with hkey | hkp
        · rw [hh] at hkey
          rw [← some.inj hkey,take_of_length_le hsh]
        · rw [← ha]
          exact hkp s hh
      · rcases mem_cons.mp (show k ∈ key :: l1Keys ops from hk) with rfl | hk
        · exact hend
        · exact hky k hk
    · rw [(hsm held).1] at hf hky ⊢
      rw [hn]
      exact ⟨hf,hky⟩

theorem Repeats.left {held : Option Bytes} {before after : List Op}
    (h : Repeats held (before ++ after)) : Repeats held before := by
  induction before generalizing held with
  | nil => trivial
  | cons o before ih => exact ⟨h.1,ih h.2⟩

theorem repeats_of_one_key {held : Option Bytes} (hh : held = none ∨ held = some (k.take 63))
    (hk : ∀ key ∈ l1Keys ops, key = k) (hs : AllServed ops) : Repeats held ops := by
  induction ops generalizing held with
  | nil => trivial
  | cons o ops ih =>
    have hr : AllServed ops := fun key data grant hmem =>
      hs key data grant (mem_cons_of_mem _ hmem)
    rcases o.l1_cases with ⟨key,data,grant,rfl⟩ | ⟨hsm,hn⟩
    · have hsr := hs key data grant mem_cons_self
      obtain ⟨rfl,hk⟩ := forall_mem_cons.mp (show ∀ x ∈ key :: l1Keys ops, x = k from hk)
      refine ⟨?_,ih (.inr (heldAfter_served key hsr held)) hk hr⟩
      rcases hh with hh | hh
      · exact .inr (.inl hh)
      · exact .inr (.inr (.inr ⟨hh,hsr⟩))
    rw [hn] at hk
    refine ⟨(hsm held).2,?_⟩
    rw [(hsm held).1]
    exact ih hh hk hr

theorem Held.keeps (h : Held none cap c) (hrep : Repeats none ops) (hs : AllServed ops)
    (hk : k ∈ l1Keys ops) : ∃ L, (Cache.run ops c).l1 = some L ∧ L.Has (k.take 63) := by
  obtain ⟨L,hL,hh⟩ := h.run ops
  exact ⟨L,hL,hh.has_iff.mpr ((hrep.held hs).2 k hk)⟩

theorem l1Keys_mem (h : k ∈ l1Keys ops) :
    ∃ before data grant after, ops = before ++ .put .l1 k data grant :: after := by
  obtain ⟨o,ho,hkey⟩ := mem_filterMap.mp h
  obtain ⟨before,after,rfl⟩ := append_of_mem ho
  split at hkey
  · rename_i key data grant
    obtain rfl := some.inj hkey
    exact ⟨before,data,grant,after,rfl⟩
  · exact absurd hkey (by simp)

theorem eq_of_dedup_le_one {l : List Bytes} (h : l.dedup.length ≤ 1) {a b : Bytes}
    (ha : a ∈ l) (hb : b ∈ l) : a = b := by
  rw [← mem_dedup] at ha hb
  match hl : l.dedup with
  | [] => simp [hl] at ha
  | [x] => simp only [hl,mem_singleton] at ha hb; rw [ha,hb]
  | x :: y :: r => simp [hl] at h

theorem holds_empty (hcap : cap ≠ 0) : Holds none cap ⟨replicate cap zeroEntry,0,0⟩ := by
  obtain ⟨n,rfl⟩ := Nat.exists_eq_succ_of_ne_zero hcap
  refine ⟨⟨zeroEntry,⟨replicate n zeroEntry,rfl,by simp,?_⟩,rfl⟩,fun s hs => by simp at hs⟩
  intro x hx
  rw [(mem_replicate.mp hx).2]
  rfl

theorem hmsCacheInit_l1 (grants1 grants2 grants3 : Bool × Bool) (l1Slots : UInt32) :
    (hmsCacheInit grants1 grants2 grants3 l1Slots).l1 = none ∨
      Held none (hmsCacheInit grants1 grants2 grants3 l1Slots).l1Slots.toNat
        (hmsCacheInit grants1 grants2 grants3 l1Slots) := by
  obtain ⟨slots,hs⟩ : ∃ slots, slots = (if l1Slots = 0 then 32 else l1Slots) := ⟨_,rfl⟩
  have hpos : slots ≠ 0 := by
    rw [hs]
    split
    · decide
    · assumption
  simp only [hmsCacheInit,Held,← hs,kvCreate]
  by_cases hok : (served grants1.1 sizeofKv && served grants1.2 (slots.toNat*sizeofEntry)) = true
  · rw [if_pos hok]
    exact .inr ⟨_,rfl,holds_empty (fun hz => hpos (UInt32.toNat_inj.mp hz))⟩
  · rw [if_neg hok]
    exact .inl rfl

theorem usesCapacity_of_none (h : c.l1 = none) (ops : List Op) : UsesCapacity c ops := by
  have hrun : ∀ before, (run before c).l1 = none := by
    intro before
    have ht := run_tier before c .l1
    rw [show c.tier .l1 = none from h] at ht
    exact ht
  constructor
  · intro before o after _
    cases o with
    | get t key ioLen => trivial
    | put t key data grant =>
      cases t with
      | l1 =>
        intro L L' hL
        rw [hrun before] at hL
        exact absurd hL (by simp)
      | l2 | l3 => trivial
  intro before after _ hok _ k hk
  obtain ⟨b,data,grant,a,rfl⟩ := l1Keys_mem hk
  have hput := hok b k data grant a rfl
  rw [hmsCacheL1Put,hrun b] at hput
  exact absurd hput (by simp [putThrough,einval])

theorem usesCapacity_iff (grants1 grants2 grants3 : Bool × Bool) (l1Slots : UInt32)
    (ops : List Op) :
    UsesCapacity (hmsCacheInit grants1 grants2 grants3 l1Slots) ops ↔
      (hmsCacheInit grants1 grants2 grants3 l1Slots).l1 = none ∨
        (hmsCacheInit grants1 grants2 grants3 l1Slots).l1Slots = 1 ∨ Repeats none ops := by
  obtain ⟨c,hc⟩ : ∃ c, c = hmsCacheInit grants1 grants2 grants3 l1Slots := ⟨_,rfl⟩
  have hinit := hmsCacheInit_l1 grants1 grants2 grants3 l1Slots
  rw [← hc] at hinit ⊢
  rcases hinit with hnone | hheld
  · exact iff_of_true (usesCapacity_of_none hnone ops) (.inl hnone)
  have hsome : c.l1 ≠ none := by
    obtain ⟨L,hL,-⟩ := hheld
    rw [hL]
    simp
  by_cases hone : c.l1Slots = 1
  · refine iff_of_true ⟨?_,?_⟩ (.inr (.inl hone))
    · intro before o after _
      refine ((hheld.run before).evictsOnlyFull_iff o).mpr (.inl ?_)
      rw [hone]
      rfl
    intro before after _ hok hdedup k hk
    have hserved := hheld.putsSucceed hok
    rw [hone] at hdedup
    exact hheld.keeps (repeats_of_one_key (.inl rfl)
      (fun key hkey => eq_of_dedup_le_one hdedup hkey hk) hserved) hserved hk
  have hcap : c.l1Slots.toNat ≠ 1 := fun he => hone (UInt32.toNat_inj.mp he)
  simp only [hsome,hone,false_or]
  rw [← hheld.evicts_iff hcap ops]
  constructor
  · exact fun h => h.evicts
  intro hevicts
  refine ⟨hevicts,?_⟩
  rintro before after rfl hok - k hk
  exact hheld.keeps ((hheld.evicts_iff hcap _).mp hevicts).left (hheld.putsSucceed hok) hk

theorem usesCapacity_two_keys : let ops : List Op := [.put .l1 [97] [1] true,.put .l1 [98] [2] true]
    let c := run ops (hmsCacheInit (true,true) (true,true) (true,true) 0)
    c.l1Slots = 32 ∧ (hmsCacheL1Get c [97] 8).1 = -enoent ∧
      ¬ UsesCapacity (hmsCacheInit (true,true) (true,true) (true,true) 0) ops := by
  intro ops c
  refine ⟨by decide +kernel,by decide +kernel,fun h => ?_⟩
  have hheld : Held none 32 (hmsCacheInit (true,true) (true,true) (true,true) 0) :=
    ⟨_,rfl,holds_empty (by decide)⟩
  have hevicts := h.evicts [.put .l1 [97] [1] true] (.put .l1 [98] [2] true) [] rfl
  rcases ((hheld.run _).evictsOnlyFull_iff _).mp hevicts with hone | hrep
  · exact absurd hone (by decide)
  · exact absurd hrep (by decide)

end AevOS.Cache
