import AevOS.ChainBuckets
import AevOS.KernelHeap

/-! The string map of `lib/hashmap.c`. The hash function is a parameter of everything but `fnv1aHash`;
whether an allocation is granted comes from outside. -/

namespace AevOS.HashMap
open Wire Chains List
open Slab (served)

def fnv1aHash (key : Bytes) : UInt64 :=
  key.foldl (fun h b => (h ^^^ b.toUInt64)*0x100000001b3) 0xcbf29ce484222325

structure HashmapEntry where
  key : Bytes
  value : UInt64
  hash : UInt64
  deriving DecidableEq

structure Hashmap where
  buckets : List (List HashmapEntry)
  count : UInt64
  capacity : UInt64
  loadThreshold : UInt64
  deriving DecidableEq

def defaultCapacity : UInt64 := 16
def sizeofHashmap : Nat := 32
def sizeofEntry : Nat := 32
def sizeofPointer : Nat := 8

def nextPowerOf2 (v : UInt64) : UInt64 :=
  let v := v-1
  let v := v ||| v >>> 1
  let v := v ||| v >>> 2
  let v := v ||| v >>> 4
  let v := v ||| v >>> 8
  let v := v ||| v >>> 16
  let v := v ||| v >>> 32
  v+1

def hashmapCreate (grantMap grantBuckets : Bool) (initialCapacity : UInt64) : Option Hashmap :=
  let cap := nextPowerOf2
    (if initialCapacity < defaultCapacity then defaultCapacity else initialCapacity)
  if served grantMap sizeofHashmap && served grantBuckets (cap.toNat*sizeofPointer) then
    some ⟨List.replicate cap.toNat [],0,cap,cap*75/100⟩
  else none

def bucketOf (cap h : UInt64) : Nat := (h &&& (cap-1)).toNat

def Hashmap.chain (m : Hashmap) (h : UInt64) : List HashmapEntry :=
  m.buckets.getD (bucketOf m.capacity h) []

def Hashmap.entries (m : Hashmap) : List HashmapEntry := m.buckets.flatten

def HashmapEntry.hits (h : UInt64) (key : Bytes) (e : HashmapEntry) : Bool :=
  e.hash == h && e.key == key

def hashmapResize (grant : Bool) (m : Hashmap) (newCap : UInt64) : Option Hashmap :=
  if served grant (newCap.toNat*sizeofPointer) then
    some { m with
      buckets := rehash (fun e => bucketOf newCap e.hash) newCap.toNat m.entries
      capacity := newCap
      loadThreshold := newCap*75/100 }
  else none

structure PutGrants where
  buckets : Bool
  entry : Bool
  key : Bool
  deriving DecidableEq

/-- One of the allocations that a put of a new key may need is not served. -/
def PutGrants.Refused (g : PutGrants) (m : Hashmap) (key : Bytes) : Prop :=
  served g.buckets ((m.capacity*2).toNat*sizeofPointer) = false ∨ served g.entry sizeofEntry = false ∨
    served g.key (key.length+1) = false

def assignFirst (hit : HashmapEntry → Bool) (value : UInt64) : List HashmapEntry → List HashmapEntry
  | [] => []
  | e :: es => if hit e then { e with value := value } :: es else e :: assignFirst hit value es

def hashmapPut (hash : Bytes → UInt64) (g : PutGrants) (m : Hashmap) (key : Bytes)
    (value : UInt64) : Int × Hashmap :=
  let h := hash key
  if (m.chain h).any (HashmapEntry.hits h key) then
    (0,{ m with buckets := m.buckets.modify (bucketOf m.capacity h)
                  (assignFirst (HashmapEntry.hits h key) value) })
  else
    match (if m.loadThreshold ≤ m.count then hashmapResize g.buckets m (m.capacity*2)
      else some m) with
    | none => (-enomem,m)
    | some m =>
      if served g.entry sizeofEntry && served g.key (key.length+1) then
        (0,{ m with
          buckets := m.buckets.modify (bucketOf m.capacity h) (⟨key,value,h⟩ :: ·)
          count := m.count+1 })
      else (-enomem,m)

def hashmapGet (hash : Bytes → UInt64) (m : Hashmap) (key : Bytes) : UInt64 :=
  match (m.chain (hash key)).find? (HashmapEntry.hits (hash key) key) with
  | some e => e.value
  | none => 0

def hashmapContains (hash : Bytes → UInt64) (m : Hashmap) (key : Bytes) : Bool :=
  (m.chain (hash key)).any (HashmapEntry.hits (hash key) key)

def hashmapRemove (hash : Bytes → UInt64) (m : Hashmap) (key : Bytes) : UInt64 × Hashmap :=
  let h := hash key
  match (m.chain h).find? (HashmapEntry.hits h key) with
  | some e =>
    (e.value,{ m with
      buckets := m.buckets.modify (bucketOf m.capacity h)
        (fun c => c.eraseP (HashmapEntry.hits h key))
      count := m.count-1 })
  | none => (0,m)

def hashmapSize (m : Hashmap) : UInt64 := m.count

def hashmapClear (m : Hashmap) : Hashmap :=
  { m with buckets := m.buckets.map (fun _ => []), count := 0 }

abbrev StringMap := Finmap (fun _ : Bytes => UInt64)

structure Hashmap.Stands (hash : Bytes → UInt64) (m : Hashmap) (f : StringMap) : Prop where
  cap : m.capacity.toNat = m.buckets.length
  pos : 0 < m.buckets.length
  small : m.buckets.length ≤ 8192
  threshold : m.loadThreshold = m.capacity*75/100
  placed : Placed (fun e => bucketOf m.capacity (HashmapEntry.hash e)) m.buckets
  hashed : ∀ e ∈ m.entries, e.hash = hash e.key
  pairs : Represents HashmapEntry.key HashmapEntry.value m.entries f
  counted : m.count.toNat = m.entries.length
  loaded : m.entries.length ≤ m.buckets.length

theorem bucketOf_lt {cap : UInt64} (h : 0 < cap.toNat) (x : UInt64) : bucketOf cap x < cap.toNat := by
  rw [bucketOf,UInt64.toNat_and]
  have hle : x.toNat &&& (cap-1).toNat ≤ (cap-1).toNat := Nat.and_le_right
  have hsub : (cap-1).toNat = cap.toNat-1 := by
    apply UInt64.toNat_sub_of_le
    exact h
  omega

variable {grant : Bool} {key : Bytes} {e : HashmapEntry} {c as bs : List HashmapEntry}
    {hit : HashmapEntry → Bool} {m' m : Hashmap} {newCap : UInt64} {hash : Bytes → UInt64}
    {f : StringMap}

theorem served_le {n : Nat} (h : served grant n = true) : 0 < n ∧ n ≤ 65536 := by
  simp only [served,Bool.and_eq_true,decide_eq_true_eq] at h
  obtain ⟨c,hc⟩ := Option.isSome_iff_exists.mp h.2
  have hle := Slab.findCache_some hc
  omega

section
variable {hash : Bytes → UInt64} {m : Hashmap} {f : StringMap}

theorem Hashmap.Stands.chain_get (h : m.Stands hash f) (x : UInt64) :
    m.buckets[bucketOf m.capacity x]? = some (m.chain x) := by
  have hlt : bucketOf m.capacity x < m.buckets.length := by
    rw [← h.cap]
    exact bucketOf_lt (by rw [h.cap]; exact h.pos) x
  rw [Hashmap.chain,getD_eq_getElem?_getD,getElem?_eq_getElem hlt]
  rfl

theorem hits_iff {x : UInt64} : e.hits x key = true ↔ e.hash = x ∧ e.key = key := by
  simp [HashmapEntry.hits]

theorem Hashmap.Stands.hit_iff (h : m.Stands hash f) :
    (e ∈ m.chain (hash key) ∧ e.hits (hash key) key = true) ↔ (e ∈ m.entries ∧ e.key = key) := by
  constructor
  · rintro ⟨hmem,hhit⟩
    exact ⟨mem_flatten.mpr ⟨_,mem_of_getElem? (h.chain_get (hash key)),hmem⟩,(hits_iff.mp hhit).2⟩
  rintro ⟨hmem,rfl⟩
  have hh := h.hashed e hmem
  obtain ⟨c,hc,hec⟩ := h.placed.mem_iff.mp hmem
  simp only [hh,h.chain_get,Option.some.injEq] at hc
  exact ⟨hc ▸ hec,hits_iff.mpr ⟨hh,rfl⟩⟩

theorem Hashmap.Stands.find_cases (h : m.Stands hash f) (key : Bytes) :
    (∃ (e : HashmapEntry) (as bs : List HashmapEntry), m.chain (hash key) = as ++ e :: bs ∧
      (m.chain (hash key)).find? (HashmapEntry.hits (hash key) key) = some e ∧
      e.hits (hash key) key = true ∧ (∀ a ∈ as, a.hits (hash key) key = false) ∧
      f.lookup key = some e.value) ∨ ((m.chain (hash key)).find? (HashmapEntry.hits (hash key) key) = none ∧
      (∀ e ∈ m.entries, e.key ≠ key) ∧ f.lookup key = none) := by
  cases hf : (m.chain (hash key)).find? (HashmapEntry.hits (hash key) key) with
  | some e =>
    obtain ⟨hhit,as,bs,hs,hb⟩ := find?_eq_some_iff_append.mp hf
    refine .inl ⟨e,as,bs,hs,rfl,hhit,by simpa using hb,?_⟩
    obtain ⟨hmem,rfl⟩ := h.hit_iff.mp ⟨mem_of_find?_eq_some hf,hhit⟩
    exact h.pairs.lookup hmem
  | none =>
    have hno : ∀ e ∈ m.entries, e.key ≠ key := by
      intro e he hek
      obtain ⟨hmem,hhit⟩ := h.hit_iff.mpr ⟨he,hek⟩
      exact find?_eq_none.mp hf e hmem hhit
    exact .inr ⟨rfl,hno,h.pairs.lookup_none hno⟩

theorem Hashmap.Stands.get (h : m.Stands hash f) (key : Bytes) :
    hashmapGet hash m key = (f.lookup key).getD 0 := by
  rw [hashmapGet]
  rcases h.find_cases key with ⟨e,as,bs,-,hf,-,-,hval⟩ | ⟨hf,-,hval⟩
  · rw [hf,hval]
    rfl
  · rw [hf,hval]
    rfl

theorem any_eq_isSome_find {p : HashmapEntry → Bool} : c.any p = (c.find? p).isSome := by
  rw [Bool.eq_iff_iff,find?_isSome,any_eq_true]

theorem Hashmap.Stands.contains (h : m.Stands hash f) (key : Bytes) :
    hashmapContains hash m key = true ↔ key ∈ f := by
  rw [hashmapContains,any_eq_isSome_find,Finmap.mem_iff]
  rcases h.find_cases key with ⟨e,as,bs,-,hf,-,-,hval⟩ | ⟨hf,-,hval⟩
  · simp [hf,hval]
  · simp [hf,hval]

theorem Hashmap.Stands.size (h : m.Stands hash f) : (hashmapSize m).toNat = f.keys.card := by
  rw [hashmapSize,h.counted,h.pairs.card]

theorem Hashmap.Stands.modify (h : m.Stands hash f) (key : Bytes)
    {g : List HashmapEntry → List HashmapEntry} {count : UInt64} {f' : StringMap}
    (rest es' : List HashmapEntry)
    (hg : ∀ c, ∀ e ∈ g c, e ∈ c ∨ e.hash = hash key)
    (hold : (m.chain (hash key)).Perm rest)
    (hnew : (g (m.chain (hash key))).Perm es')
    (hhs : ∀ e ∈ es', e ∈ rest ∨ e.hash = hash e.key)
    (hpr : ∀ others : List HashmapEntry, (∀ e ∈ others, e ∈ m.entries) →
      Represents HashmapEntry.key HashmapEntry.value (rest ++ others) f →
        Represents HashmapEntry.key HashmapEntry.value (es' ++ others) f')
    (hc : count.toNat+rest.length = m.count.toNat+es'.length)
    (hld : m.entries.length+es'.length ≤ m.buckets.length+rest.length) :
    ({ m with
      buckets := m.buckets.modify (bucketOf m.capacity (hash key)) g
      count := count } : Hashmap).Stands hash f' := by
  have hget := h.chain_get (hash key)
  have hp := (flatten_perm hget).trans (hold.append_right _)
  have hpn := (flatten_modify_perm hget g).trans (hnew.append_right _)
  generalize ho : (m.buckets.eraseIdx (bucketOf m.capacity (hash key))).flatten = others at hp hpn
  have hl := hp.length_eq
  have hln := hpn.length_eq
  simp only [length_append] at hl hln
  have hen : m.entries.length = rest.length+others.length := hl
  have hcn := h.counted
  refine ⟨?_,?_,?_,h.threshold,?_,?_,?_,?_,?_⟩
  · simpa using h.cap
  · simpa using h.pos
  · simpa using h.small
  · refine h.placed.modify _ ?_
    intro c e he
    rcases hg c e he with hmem | hh
    · exact .inl hmem
    · exact .inr (by rw [hh])
  · intro e he
    rcases mem_append.mp (hpn.mem_iff.mp he) with hmem | hmem
    · rcases hhs e hmem with hr | hh
      · exact h.hashed e (hp.mem_iff.mpr (mem_append_left _ hr))
      · exact hh
    · exact h.hashed e (hp.mem_iff.mpr (mem_append_right _ hmem))
  · refine (hpr others ?_ (h.pairs.perm hp.symm)).perm hpn
    exact fun e he => hp.mem_iff.mpr (mem_append_right _ he)
  · show count.toNat = (m.buckets.modify _ g).flatten.length
    omega
  · show (m.buckets.modify _ g).flatten.length ≤ (m.buckets.modify _ g).length
    rw [length_modify]
    omega

theorem assignFirst_split (has : ∀ a ∈ as, hit a = false) (he : hit e = true) (value : UInt64) :
    assignFirst hit value (as ++ e :: bs) = as ++ { e with value := value } :: bs := by
  induction as with
  | nil => simp [assignFirst,he]
  | cons a as ih =>
    obtain ⟨ha,hr⟩ := forall_mem_cons.mp has
    rw [cons_append,assignFirst,ha,ih hr]
    rfl

theorem mem_assignFirst {value : UInt64} (h : e ∈ assignFirst hit value c) :
    e ∈ c ∨ ∃ x ∈ c, hit x = true ∧ e = { x with value := value } := by
  induction c with
  | nil => exact absurd h not_mem_nil
  | cons x c ih =>
    rw [assignFirst] at h
    split at h
    · rcases mem_cons.mp h with rfl | hmem
      · exact .inr ⟨x,mem_cons_self,‹_›,rfl⟩
      · exact .inl (mem_cons_of_mem x hmem)
    rcases mem_cons.mp h with rfl | hmem
    · exact .inl mem_cons_self
    · rcases ih hmem with hc | ⟨y,hy,hyh,hey⟩
      · exact .inl (mem_cons_of_mem x hc)
      · exact .inr ⟨y,mem_cons_of_mem x hy,hyh,hey⟩

theorem Hashmap.Stands.update (h : m.Stands hash f) (hs : m.chain (hash key) = as ++ e :: bs)
    (hhit : e.hits (hash key) key = true) (has : ∀ a ∈ as, a.hits (hash key) key = false)
    (value : UInt64) :
    ({ m with
      buckets := m.buckets.modify (bucketOf m.capacity (hash key))
        (assignFirst (HashmapEntry.hits (hash key) key) value) } : Hashmap).Stands hash
      (f.insert key value) := by
  obtain ⟨hh,hk⟩ := hits_iff.mp hhit
  have hmem : e ∈ m.entries := (h.hit_iff.mp
    ⟨by rw [hs]; exact mem_append_right _ mem_cons_self,hhit⟩).1
  apply h.modify key (e :: (as ++ bs)) ({ e with value := value } :: (as ++ bs))
  · intro c x hx
    rcases mem_assignFirst hx with hc | ⟨y,-,hy,rfl⟩
    · exact .inl hc
    · exact .inr (hits_iff.mp hy).1
  · rw [hs]
    exact perm_middle
  · rw [hs,assignFirst_split has hhit]
    exact perm_middle
  · intro x hx
    rcases mem_cons.mp hx with rfl | hx
    · exact .inr (h.hashed e hmem)
    · exact .inl (mem_cons_of_mem e hx)
  · intro others _ hrep
    have hr := hrep.replace { e with value := value } rfl
    rw [← hk]
    exact hr
  · simp
  · simpa using h.loaded

theorem Hashmap.Stands.insert (h : m.Stands hash f) (hno : ∀ e ∈ m.entries, e.key ≠ key)
    (hl : m.entries.length < m.buckets.length) (value : UInt64) :
    ({ m with
      buckets := m.buckets.modify (bucketOf m.capacity (hash key)) (⟨key,value,hash key⟩ :: ·)
      count := m.count+1 } : Hashmap).Stands hash (f.insert key value) := by
  have hn : ∀ e ∈ m.chain (hash key), e.key ≠ key := by
    intro e he
    exact hno e (mem_flatten.mpr ⟨_,mem_of_getElem? (h.chain_get _),he⟩)
  have hs := h.small
  have hc := h.counted
  have hlen : (m.count+1).toNat = m.count.toNat+1 := by
    rw [UInt64.toNat_add,UInt64.toNat_one]
    omega
  apply h.modify key (m.chain (hash key)) (⟨key,value,hash key⟩ :: m.chain (hash key))
  · intro c x hx
    rcases mem_cons.mp hx with rfl | hx
    · exact .inr rfl
    · exact .inl hx
  · exact Perm.refl _
  · exact Perm.refl _
  · intro x hx
    rcases mem_cons.mp hx with rfl | hx
    · exact .inr rfl
    · exact .inl hx
  · intro others ho hrep
    refine hrep.cons (e := ⟨key,value,hash key⟩) ?_
    intro x hx
    rcases mem_append.mp hx with hx | hx
    · exact hn x hx
    · exact hno x (ho x hx)
  · rw [length_cons]
    omega
  · rw [length_cons]
    omega

theorem Hashmap.Stands.delete (h : m.Stands hash f) (hs : m.chain (hash key) = as ++ e :: bs)
    (hhit : e.hits (hash key) key = true) (has : ∀ a ∈ as, a.hits (hash key) key = false) :
    ({ m with
      buckets := m.buckets.modify (bucketOf m.capacity (hash key))
        (fun c => c.eraseP (HashmapEntry.hits (hash key) key))
      count := m.count-1 } : Hashmap).Stands hash (f.erase key) := by
  have hk := (hits_iff.mp hhit).2
  have hc : e ∈ m.chain (hash key) := by
    rw [hs]
    exact mem_append_right _ mem_cons_self
  have hpos : 0 < m.count.toNat := by
    rw [h.counted]
    exact length_pos_of_mem (h.hit_iff.mp ⟨hc,hhit⟩).1
  have hlen : (m.count-1).toNat = m.count.toNat-1 := by
    apply UInt64.toNat_sub_of_le
    exact hpos
  have he : (as ++ e :: bs).eraseP (HashmapEntry.hits (hash key) key) = as ++ bs := by
    rw [eraseP_append_right _ (by simpa using has),eraseP_cons_of_pos hhit]
  apply h.modify key (e :: (as ++ bs)) (as ++ bs)
  · exact fun c x hx => .inl (mem_of_mem_eraseP hx)
  · rw [hs]
    exact perm_middle
  · rw [hs,he]
  · exact fun x hx => .inl (mem_cons_of_mem e hx)
  · intro others _ hrep
    rw [← hk]
    exact hrep.tail.1
  · rw [length_cons]
    omega
  · have hl := h.loaded
    rw [length_cons]
    omega

theorem hashmapResize_perm (hr : hashmapResize grant m newCap = some m') : m'.entries.Perm m.entries := by
  rw [hashmapResize] at hr
  split at hr
  · obtain rfl := Option.some.inj hr
    have hpos := (served_le ‹_›).1
    exact rehash_perm (fun e _ => bucketOf_lt (Nat.pos_of_mul_pos_right hpos) e.hash)
  · exact nomatch hr

theorem Hashmap.Stands.resize (h : m.Stands hash f) (hle : m.buckets.length ≤ newCap.toNat)
    (hr : hashmapResize grant m newCap = some m') : m'.Stands hash f ∧ m'.buckets.length = newCap.toNat := by
  have hp := hashmapResize_perm hr
  rw [hashmapResize] at hr
  split at hr
  · obtain rfl := Option.some.inj hr
    obtain ⟨hpos,hs⟩ := served_le ‹_›
    have hlen := rehash_length (fun e => bucketOf newCap (HashmapEntry.hash e)) newCap.toNat m.entries
    rw [sizeofPointer] at hpos hs
    refine ⟨⟨hlen.symm,?_,?_,rfl,rehash_placed _ _ _,?_,h.pairs.perm hp,?_,?_⟩,hlen⟩
    · rw [hlen]
      omega
    · rw [hlen]
      omega
    · exact fun e he => h.hashed e (hp.mem_iff.mp he)
    · rw [hp.length_eq]
      exact h.counted
    · rw [hp.length_eq,hlen]
      exact h.loaded.trans hle
  · exact nomatch hr

theorem threshold_le (cap : UInt64) (h : cap.toNat ≤ 8192) : (cap*75/100).toNat ≤ cap.toNat := by
  have hmul : cap.toNat*75%2^64 = cap.toNat*75 := Nat.mod_eq_of_lt (by omega)
  rw [UInt64.toNat_div,UInt64.toNat_mul]
  simp only [UInt64.reduceToNat,hmul]
  omega

theorem Hashmap.Stands.put (h : m.Stands hash f) (g : PutGrants) (key : Bytes) (value : UInt64) :
    ((hashmapPut hash g m key value).1 = 0 ∧
        (hashmapPut hash g m key value).2.Stands hash (f.insert key value)) ∨
      ((hashmapPut hash g m key value).1 = -enomem ∧ (hashmapPut hash g m key value).2.Stands hash f ∧
        f.lookup key = none ∧ g.Refused m key) := by
  rw [hashmapPut,any_eq_isSome_find]
  rcases h.find_cases key with ⟨e,as,bs,hs,hf,hhit,has,-⟩ | ⟨hf,hno,hnone⟩
  · rw [hf]
    exact .inl ⟨rfl,h.update hs hhit has value⟩
  rw [hf]
  simp only [Option.isSome_none,Bool.false_eq_true,if_false]
  cases hg : (if m.loadThreshold ≤ m.count then hashmapResize g.buckets m (m.capacity*2)
    else some m) with
  | none =>
    refine .inr ⟨rfl,h,hnone,.inl ?_⟩
    split at hg
    · simpa [hashmapResize] using hg
    · cases hg
  | some m' =>
    -- there is a free bucket's worth of load, with the old table or with twice its size
    have hgr : m'.Stands hash f ∧ m'.entries.length < m'.buckets.length ∧
        ∀ e ∈ m'.entries, e.key ≠ key := by
      have hcap := h.cap
      have hsm := h.small
      have hld := h.loaded
      have hpos := h.pos
      split at hg
      · have hd : (m.capacity*2).toNat = m.buckets.length*2 := by
          rw [UInt64.toNat_mul,hcap]
          simp only [UInt64.reduceToNat]
          omega
        obtain ⟨hst,hlen⟩ := h.resize (by omega) hg
        have hp := hashmapResize_perm hg
        refine ⟨hst,?_,fun e he => hno e (hp.mem_iff.mp he)⟩
        rw [hp.length_eq,hlen]
        omega
      obtain rfl := Option.some.inj hg
      refine ⟨h,?_,hno⟩
      have hthr := threshold_le m.capacity (by omega)
      rename_i hlt
      rw [UInt64.not_le,UInt64.lt_iff_toNat_lt,h.threshold,h.counted] at hlt
      omega
    obtain ⟨hst,hl,hno'⟩ := hgr
    simp only
    split
    · exact .inl ⟨rfl,hst.insert hno' hl value⟩
    · exact .inr ⟨rfl,hst,hnone,.inr (Bool.and_eq_false_iff.mp (Bool.eq_false_of_not_eq_true ‹_›))⟩

theorem Hashmap.Stands.remove (h : m.Stands hash f) (key : Bytes) :
    (hashmapRemove hash m key).1 = (f.lookup key).getD 0 ∧
      (hashmapRemove hash m key).2.Stands hash (f.erase key) := by
  rw [hashmapRemove]
  rcases h.find_cases key with ⟨e,as,bs,hs,hf,hhit,has,hval⟩ | ⟨hf,hno,hval⟩
  · rw [hf,hval]
    exact ⟨rfl,h.delete hs hhit has⟩
  rw [hf,hval]
  refine ⟨rfl,?_⟩
  have hsm : f.erase key = f := by
    apply Finmap.ext_lookup
    intro k
    by_cases hk : k = key
    · rw [hk,Finmap.lookup_erase,hval]
    · rw [Finmap.lookup_erase_ne hk]
  rw [hsm]
  exact h

theorem Hashmap.Stands.clear (h : m.Stands hash f) : (hashmapClear m).Stands hash ∅ := by
  have hem : (hashmapClear m).entries = [] := by
    simp [hashmapClear,Hashmap.entries]
  refine ⟨?_,?_,?_,h.threshold,?_,?_,?_,?_,?_⟩
  · simpa [hashmapClear] using h.cap
  · simpa [hashmapClear] using h.pos
  · simpa [hashmapClear] using h.small
  · intro i c hi e he
    simp only [hashmapClear,getElem?_map,Option.map_eq_some_iff] at hi
    obtain ⟨-,-,rfl⟩ := hi
    exact absurd he not_mem_nil
  · rw [hem]
    exact fun e he => absurd he not_mem_nil
  · rw [hem]
    exact represents_nil
  · rw [hem]
    rfl
  · rw [hem]
    exact Nat.zero_le _

end

theorem hashmapCreate_stands (hash : Bytes → UInt64) {grantMap grantBuckets : Bool}
    {initialCapacity : UInt64} (h : hashmapCreate grantMap grantBuckets initialCapacity = some m) :
    m.Stands hash ∅ := by
  rw [hashmapCreate] at h
  generalize nextPowerOf2 _ = cap at h
  split at h
  · obtain rfl := Option.some.inj h
    rename_i hs
    rw [Bool.and_eq_true] at hs
    obtain ⟨hpos,hsm⟩ := served_le hs.2
    rw [sizeofPointer] at hpos hsm
    have hem : (⟨List.replicate cap.toNat [],0,cap,cap*75/100⟩ : Hashmap).entries = [] :=
      flatten_replicate_nil
    refine ⟨?_,?_,?_,rfl,?_,?_,?_,?_,?_⟩
    · simp
    · simp only [length_replicate]
      omega
    · simp only [length_replicate]
      omega
    · intro i c hi e he
      rw [(mem_replicate.mp (mem_of_getElem? hi)).2] at he
      exact absurd he not_mem_nil
    · rw [hem]
      exact fun e he => absurd he not_mem_nil
    · rw [hem]
      exact represents_nil
    · rw [hem]
      rfl
    · rw [hem]
      exact Nat.zero_le _
  · exact nomatch h

inductive Op where
  | put (key : Bytes) (value : UInt64) (grants : PutGrants)
  | get (key : Bytes)
  | remove (key : Bytes)
  | clear
  deriving DecidableEq

inductive Outcome where
  | code (rc : Int)
  | pointer (p : UInt64)
  | nothing
  deriving DecidableEq

def step (hash : Bytes → UInt64) (m : Hashmap) : Op → Outcome × Hashmap
  | .put key value g => ((.code (hashmapPut hash g m key value).1),(hashmapPut hash g m key value).2)
  | .get key => (.pointer (hashmapGet hash m key),m)
  | .remove key => (.pointer (hashmapRemove hash m key).1,(hashmapRemove hash m key).2)
  | .clear => (.nothing,hashmapClear m)

def mapStep (f : StringMap) : Op → Outcome → StringMap
  | .put key value _, r => if r = .code 0 then f.insert key value else f
  | .get _, _ => f
  | .remove key, _ => f.erase key
  | .clear, _ => ∅

/-- What a call may answer where the map stands for `f`. -/
def Allowed (m : Hashmap) (f : StringMap) : Op → Outcome → Prop
  | .put key _ g, r => r = .code 0 ∨ r = .code (-enomem) ∧ f.lookup key = none ∧ g.Refused m key
  | .get key, r => r = .pointer ((f.lookup key).getD 0)
  | .remove key, r => r = .pointer ((f.lookup key).getD 0)
  | .clear, r => r = .nothing

def run (hash : Bytes → UInt64) (ops : List Op) (m : Hashmap) (f : StringMap) :
    Hashmap × StringMap :=
  ops.foldl (fun s o => ((step hash s.1 o).2,mapStep s.2 o (step hash s.1 o).1)) (m,f)

theorem Hashmap.Stands.step (h : m.Stands hash f) (o : Op) : Allowed m f o (step hash m o).1 ∧
    (HashMap.step hash m o).2.Stands hash (mapStep f o (HashMap.step hash m o).1) := by
  cases o with
  | put key value g =>
    rcases h.put g key value with ⟨hrc,hst⟩ | ⟨hrc,hst,hwhy⟩
    · refine ⟨.inl (congrArg Outcome.code hrc),?_⟩
      simpa [mapStep,HashMap.step,hrc] using hst
    · refine ⟨.inr ⟨congrArg Outcome.code hrc,hwhy⟩,?_⟩
      simpa [mapStep,HashMap.step,hrc,enomem] using hst
  | get key => exact ⟨congrArg Outcome.pointer (h.get key),h⟩
  | remove key => exact ⟨congrArg Outcome.pointer (h.remove key).1,(h.remove key).2⟩
  | clear => exact ⟨rfl,h.clear⟩

theorem Hashmap.Stands.run (h : m.Stands hash f) (ops : List Op) :
    (run hash ops m f).1.Stands hash (HashMap.run hash ops m f).2 := by
  induction ops generalizing m f with
  | nil => exact h
  | cons o ops ih => exact ih (h.step o).2

theorem run_refines (hash : Bytes → UInt64) (grantMap grantBuckets : Bool)
    (initialCapacity : UInt64) (m : Hashmap)
    (hm : hashmapCreate grantMap grantBuckets initialCapacity = some m) (ops : List Op) :
    ∃ (s : Hashmap) (f : StringMap), run hash ops m ∅ = (s,f) ∧
      (∀ key, hashmapGet hash s key = (f.lookup key).getD 0) ∧
      (∀ key, hashmapContains hash s key = true ↔ key ∈ f) ∧
      (hashmapSize s).toNat = f.keys.card ∧
      (s.entries.map HashmapEntry.key).Nodup ∧
      (∀ o, Allowed s f o (step hash s o).1) ∧
      (∀ (grant : Bool) (newCap : UInt64) (s' : Hashmap),
        hashmapResize grant s newCap = some s' → s'.entries.Perm s.entries) ∧
      ∀ (g : PutGrants) (key : Bytes) (value : UInt64), (hashmapPut hash g s key value).1 ≠ 0 →
        ∀ k, hashmapGet hash (hashmapPut hash g s key value).2 k = hashmapGet hash s k ∧
          hashmapContains hash (hashmapPut hash g s key value).2 k = hashmapContains hash s k := by
  have hst := (hashmapCreate_stands hash hm).run ops
  generalize run hash ops m ∅ = s at hst
  refine ⟨s.1,s.2,rfl,hst.get,hst.contains,hst.size,hst.pairs.keys,fun o => (hst.step o).1,
    fun _ _ _ => hashmapResize_perm,?_⟩
  intro g key value hrc k
  rcases hst.put g key value with ⟨hok,-⟩ | ⟨-,hsame,-⟩
  · exact absurd hok hrc
  · refine ⟨by rw [hsame.get,hst.get],?_⟩
    rw [Bool.eq_iff_iff,hsame.contains,hst.contains]

theorem run_refines_four : ∃ (s : Hashmap) (f : StringMap),
    run fnv1aHash [.put [97] 1 ⟨true,true,true⟩,.put [98] 2 ⟨true,true,true⟩,
      .remove [97],.put [99] 3 ⟨true,false,true⟩]
      ⟨List.replicate 16 [],0,16,12⟩ ∅ = (s,f) ∧
    (∀ key, hashmapGet fnv1aHash s key = (f.lookup key).getD 0) ∧
    (hashmapSize s).toNat = f.keys.card := by
  obtain ⟨s,f,hrun,hget,-,hsize,-⟩ := run_refines fnv1aHash true true 16
    ⟨replicate 16 [],0,16,12⟩ (by decide +kernel)
    [.put [97] 1 ⟨true,true,true⟩,.put [98] 2 ⟨true,true,true⟩,
      .remove [97],.put [99] 3 ⟨true,false,true⟩]
  exact ⟨s,f,hrun,hget,hsize⟩

end AevOS.HashMap
