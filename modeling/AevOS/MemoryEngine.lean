import AevOS.HistoryImage
import AevOS.Hnsw

/-! The memory engine of `agent/memory.c` over the search graph. Float arithmetic, the distance and the
answers of the allocator for the arrays come from outside. -/

namespace AevOS.Memory
open ArrayPrefix Wire Slab Hnsw
open Hist (fetch fetch_of_le)

abbrev embedDim : Nat := 512
def memMaxEntries : Nat := 65536
def memInitialCap : Nat := 1024
def memSerialMagic : Nat := 0x4D454D53

abbrev Embedding := Fin embedDim → Int8

structure Floats (F : Type) where
  zero : F
  one : F
  msPerHour : F
  threshold : F
  ofNat : Nat → F
  ofBits : Nat → F
  neg : F → F
  mul : F → F → F
  div : F → F → F
  lt : F → F → Bool
  memExpf : F → F

structure Entry (F : Type) where
  embedding : Embedding
  importance : F
  lastAccess : UInt64
  accessCount : UInt32
  content : Addr
  contentLen : UInt32
  id : UInt64

structure Engine (F : Type) where
  entries : Nat → Entry F
  count : Nat
  capacity : Nat
  nextId : UInt64
  index : Graph

structure World (F : Type) where
  engine : Engine F
  heap : Heap

def live {F : Type} (e : Engine F) : List (Entry F) := firsts e.entries e.count
def zeroEntry {F : Type} (fl : Floats F) : Entry F := ⟨fun _ => 0,fl.zero,0,0,0,0,0⟩

def memoryInit {F : Type} (fl : Floats F) : Engine F :=
  ⟨fun _ => zeroEntry fl,0,memInitialCap,1,hnswInit memInitialCap⟩

section
variable {F D : Type} [LinearOrder D] (fl : Floats F) (dist : Embedding → Embedding → D)

def insertEntry (entries : Nat → Entry F) (grants : Grants) (level : Fin hnswMaxLevel) (g : Graph)
    (i : Nat) : Graph :=
  (hnswInsert dist (fun x => (entries x).embedding) grants g i (entries i).embedding level).2

structure GrowEnv where
  entries : Bool
  graph : Bool
  nodes : Bool
  insert : Nat → Grants
  level : Nat → Fin hnswMaxLevel

def rebuild (env : GrowEnv) (entries : Nat → Entry F) (count newCap : Nat) : Graph :=
  (List.range count).foldl (fun g i => insertEntry dist entries (env.insert i) (env.level i) g i)
    (hnswInit newCap)

def memoryGrow (env : GrowEnv) (e : Engine F) : Int × Engine F :=
  let newCap := min (e.capacity*2) memMaxEntries
  if newCap ≤ e.capacity then (-enospc,e)
  else if env.entries = false then (-enomem,e)
  else
    let e := { e with
      entries := fun i => if e.capacity ≤ i ∧ i < newCap then zeroEntry fl else e.entries i }
    if env.graph = false ∨ env.nodes = false then (-enomem,e)
    else (0,{ e with index := rebuild dist env e.entries e.count newCap, capacity := newCap })

structure StoreEnv where
  grow : GrowEnv
  now : UInt64
  pick : Addr
  insert : Grants
  level : Fin hnswMaxLevel

def copyContent (m : Heap) (size : Nat) (content : Bytes) (pick : Addr) : Addr × Heap :=
  let a := kmalloc m size pick
  (a.1,if a.1 = 0 then a.2 else store a.2 a.1 (content ++ [0]))

def storeAt (env : StoreEnv) (content : Bytes) (embedding : Embedding) (importance : F)
    (w : World F) : UInt64 × World F :=
  let e := w.engine
  let a := copyContent w.heap (content.length+1) content env.pick
  let entries := setAt e.entries e.count
    ⟨embedding,importance,env.now,1,a.1,UInt32.ofNat content.length,e.nextId⟩
  (e.nextId,
    ⟨{ e with
        entries := entries
        index := insertEntry dist entries env.insert env.level e.index e.count
        count := e.count+1
        nextId := e.nextId+1 },a.2⟩)

def memoryStore (env : StoreEnv) (content : Bytes) (embedding : Embedding) (importance : F)
    (w : World F) : UInt64 × World F :=
  if w.engine.capacity ≤ w.engine.count then
    let r := memoryGrow fl dist env.grow w.engine
    if r.1 < 0 then (0,{ w with engine := r.2 })
    else storeAt dist env content embedding importance { w with engine := r.2 }
  else storeAt dist env content embedding importance w

structure RetrieveEnv where
  ids : Bool
  scores : Bool
  results : Bool
  level : Bool
  clock : Nat → UInt64

def report {S : Type} (scoreOf : D → S) (clock : Nat → UInt64) :
    Nat → Engine F → List (Nat × D) → List (UInt64 × S) × Engine F
  | _, e, [] => ([],e)
  | i, e, p :: ps =>
    let x := e.entries p.1
    let r := report scoreOf clock (i+1)
      { e with
        entries := setAt e.entries p.1
          { x with lastAccess := clock i, accessCount := x.accessCount+1 } } ps
    ((x.id,scoreOf p.2) :: r.1,r.2)

def memoryRetrieve {S : Type} (scoreOf : D → S) (env : RetrieveEnv) (query : Embedding)
    (topK : Nat) (w : World F) : Int × List (UInt64 × S) × World F :=
  let e := w.engine
  if e.count = 0 then (0,[],w)
  else if env.ids = true ∧ env.scores = true then
    let found := hnswSearch e.index (fun x => dist query (e.entries x).embedding) topK
      env.results env.level
    let r := report scoreOf env.clock 0 e found
    (found.length,r.1,{ w with engine := r.2 })
  else (-enomem,[],w)

def decayed (now : UInt64) (x : Entry F) : F :=
  let s := fl.mul (fl.ofNat x.accessCount.toNat) x.importance
  let stability := if fl.lt s fl.one = true then fl.one else s
  let elapsedHours := fl.div (fl.ofNat (now-x.lastAccess).toNat) fl.msPerHour
  let retention := fl.memExpf (fl.div (fl.neg elapsedHours) stability)
  fl.mul x.importance retention

def fade (now : UInt64) (x : Entry F) : Entry F := { x with importance := decayed fl now x }

def forgets (now : UInt64) (x : Entry F) : Bool :=
  fl.lt (decayed fl now x) fl.threshold && decide (x.accessCount ≤ 1)

def removeAt (now : UInt64) (i : Nat) (e : Engine F) : Engine F :=
  let entries := setAt e.entries i { fade fl now (e.entries i) with content := 0, contentLen := 0 }
  { e with
    entries := if i < e.count-1 then
        setAt (setAt entries i (entries (e.count-1))) (e.count-1) (zeroEntry fl)
      else entries
    count := e.count-1 }

def forgetLoop (now : UInt64) (i : Nat) (w : World F) : World F :=
  if i < w.engine.count then
    if forgets fl now (w.engine.entries i) = true then
      forgetLoop now i ⟨removeAt fl now i w.engine,kfree w.heap (w.engine.entries i).content⟩
    else
      forgetLoop now (i+1)
        ⟨{ w.engine with
            entries := setAt w.engine.entries i (fade fl now (w.engine.entries i)) },w.heap⟩
  else w
termination_by w.engine.count-i
decreasing_by
  · simp only [removeAt]
    omega
  · omega

def memoryForget (now : UInt64) (w : World F) : World F :=
  if w.engine.count = 0 then w else forgetLoop fl now 0 w

theorem memoryGrow_capacity {env : GrowEnv} {e : Engine F} (h : ¬ (memoryGrow fl dist env e).1 < 0) :
    e.capacity < (memoryGrow fl dist env e).2.capacity := by
  unfold memoryGrow at h ⊢
  dsimp only at h ⊢
  split_ifs at h ⊢ with h1 h2 h3
  · exact absurd (show -enospc < 0 by decide) h
  · exact absurd (show -enomem < 0 by decide) h
  · exact absurd (show -enomem < 0 by decide) h
  · exact Nat.not_le.mp h1

def growTo (env : Nat → GrowEnv) (count k : Nat) (e : Engine F) : Int × Engine F :=
  if e.capacity < count then
    if _h : (memoryGrow fl dist (env k) e).1 < 0 then
      (-enomem,(memoryGrow fl dist (env k) e).2)
    else growTo env count (k+1) (memoryGrow fl dist (env k) e).2
  else (0,e)
termination_by count-e.capacity
decreasing_by
  have hgrow := memoryGrow_capacity fl dist _h
  omega

structure Record where
  id : UInt64
  embedding : Embedding
  importance : Nat
  lastAccess : UInt64
  accessCount : UInt32
  contentLen : UInt32
  content : Option Bytes

def readRecord (buf : Bytes) (p : Nat) : Option (Option (Record × Nat)) :=
  if buf.length < p+8+embedDim+20 then some none
  else do
    let id ← fetch buf p 8
    let embedding ← fetch buf (p+8) embedDim
    let q := p+8+embedDim
    let importance ← fetch buf q 4
    let lastAccess ← fetch buf (q+4) 8
    let accessCount ← fetch buf (q+12) 4
    let contentLen ← fetch buf (q+16) 4
    let r : Option Bytes → Record := fun content =>
      ⟨UInt64.ofNat (leValue id),fun k => (byteAt embedding k).toInt8,leValue importance,
        UInt64.ofNat (leValue lastAccess),UInt32.ofNat (leValue accessCount),
        UInt32.ofNat (leValue contentLen),content⟩
    if 0 < leValue contentLen ∧ q+20+leValue contentLen ≤ buf.length then do
      let content ← fetch buf (q+20) (leValue contentLen)
      some (some (r (some content),q+20+leValue contentLen))
    else some (some (r none,q+20))

structure LoadEnv where
  grow : Nat → GrowEnv
  pick : Nat → Addr
  insert : Nat → Grants
  level : Nat → Fin hnswMaxLevel

def loadContent (m : Heap) (r : Record) (old pick : Addr) : Addr × Heap :=
  match r.content with
  | none => (old,m)
  | some content => copyContent m (r.contentLen+1).toNat content pick

def acceptRecord (env : LoadEnv) (i : Nat) (w : World F) (r : Record) : World F :=
  let e := w.engine
  let a := loadContent w.heap r (e.entries i).content (env.pick i)
  let entries := setAt e.entries i
    ⟨r.embedding,fl.ofBits r.importance,r.lastAccess,r.accessCount,a.1,r.contentLen,r.id⟩
  ⟨{ e with
      entries := entries
      index := insertEntry dist entries (env.insert i) (env.level i) e.index i
      count := e.count+1 },a.2⟩

def deserializeLoop (env : LoadEnv) (buf : Bytes) : Nat → Nat → Nat → World F → Option (World F)
  | 0, _, _, w => some w
  | n+1, i, p, w =>
    match readRecord buf p with
    | none => none
    | some none => some w
    | some (some r) => deserializeLoop env buf n (i+1) r.2 (acceptRecord fl dist env i w r.1)

def memoryDeserialize (env : LoadEnv) (buf : Bytes) (w : World F) : Option (Int × World F) :=
  if buf.length < 16 then some (-einval,w)
  else do
    let magic ← fetch buf 0 4
    if leValue magic ≠ memSerialMagic then some (-einval,w)
    else do
      let count ← fetch buf 4 4
      let nextId ← fetch buf 8 8
      let r := growTo fl dist env.grow (leValue count) 0 w.engine
      if r.1 < 0 then some (r.1,{ w with engine := r.2 })
      else do
        let e := { r.2 with count := 0, nextId := UInt64.ofNat (leValue nextId) }
        let w ← deserializeLoop fl dist env buf (leValue count) 0 16 { w with engine := e }
        some (0,w)

end

/-! Results of `memory_retrieve` are live entries while the graph has no more nodes than the engine has
entries; `memory_forget` and `memory_deserialize` can break that. -/

open List

theorem report_spec {F D S : Type} (scoreOf : D → S) (clock : Nat → UInt64) (ps : List (Nat × D)) (i : Nat) (e : Engine F) :
    (report scoreOf clock i e ps).1 = ps.map (fun p => ((e.entries p.1).id,scoreOf p.2)) ∧
      (report scoreOf clock i e ps).2.count = e.count ∧
      (report scoreOf clock i e ps).2.capacity = e.capacity ∧
      (report scoreOf clock i e ps).2.index = e.index := by
  induction ps generalizing i e with
  | nil => exact ⟨rfl,rfl,rfl,rfl⟩
  | cons p ps ih =>
    rw [report]
    generalize hx : ({ e.entries p.1 with
      lastAccess := clock i, accessCount := (e.entries p.1).accessCount+1 } : Entry F) = x
    obtain ⟨hres,hr⟩ := ih (i+1) { e with entries := setAt e.entries p.1 x }
    refine ⟨?_,hr⟩
    rw [hres,map_cons]
    refine congrArg _ (map_congr_left fun q _ => ?_)
    have hid : (setAt e.entries p.1 x q.1).id = (e.entries q.1).id := by
      by_cases hq : q.1 = p.1
      · rw [hq,setAt_self,← hx]
      · rw [setAt_ne _ _ hq]
    rw [hid]

variable {i : Nat}

section
variable {F D : Type} [LinearOrder D]

structure Indexed (e : Engine F) : Prop where
  fits : Fits e.index e.capacity e.count
  bound : e.index.count ≤ e.count
  room : e.count ≤ e.capacity

theorem indexed_memoryInit (fl : Floats F) : Indexed (memoryInit fl) :=
  ⟨fits_hnswInit memInitialCap,Nat.le_refl 0,Nat.zero_le memInitialCap⟩

section
variable (fl : Floats F) (dist : Embedding → Embedding → D)

theorem rebuild_fits (env : GrowEnv) (entries : Nat → Entry F) {count newCap : Nat}
    (h : count ≤ newCap) : Fits (rebuild dist env entries count newCap) newCap count ∧
      (rebuild dist env entries count newCap).count ≤ count := by
  induction count with
  | zero => exact ⟨fits_hnswInit newCap,le_refl 0⟩
  | succ n ih =>
    obtain ⟨hf,hb⟩ := ih (Nat.le_of_succ_le h)
    have hn := hf.insert dist (fun x => (entries x).embedding) (env.insert n) h
      (entries n).embedding (env.level n)
    rw [rebuild,range_succ,List.foldl_append]
    exact ⟨hn.1,hn.2.trans (by omega)⟩

section
variable (env : StoreEnv) (content : Bytes) (embedding : Embedding) (importance : F)

theorem memoryGrow_indexed (env : GrowEnv) {e : Engine F} (h : Indexed e) :
    Indexed (memoryGrow fl dist env e).2 ∧ (memoryGrow fl dist env e).2.count = e.count := by
  unfold memoryGrow
  dsimp only
  split_ifs with h1 h2 h3
  · exact ⟨h,rfl⟩
  · exact ⟨h,rfl⟩
  · exact ⟨⟨h.fits,h.bound,h.room⟩,rfl⟩
  have hcap := h.room.trans (le_of_lt (Nat.not_le.mp h1))
  have hf := rebuild_fits dist env
    (fun i => if e.capacity ≤ i ∧ i < min (e.capacity*2) memMaxEntries then zeroEntry fl
      else e.entries i) hcap
  exact ⟨⟨hf.1,hf.2,hcap⟩,rfl⟩

theorem storeAt_indexed {w : World F} (h : Indexed w.engine) (hr : w.engine.count < w.engine.capacity) :
    Indexed (storeAt dist env content embedding importance w).2.engine := by
  have hn := fun entries : Nat → Entry F =>
    h.fits.insert dist (fun x => (entries x).embedding) env.insert hr
      (entries w.engine.count).embedding env.level
  have hb := max_le (h.bound.trans (Nat.le_succ _)) (le_refl (w.engine.count+1))
  exact ⟨(hn _).1,(hn _).2.trans hb,hr⟩

theorem memoryStore_indexed {w : World F} (h : Indexed w.engine) :
    Indexed (memoryStore fl dist env content embedding importance w).2.engine := by
  obtain ⟨hg,hc⟩ := memoryGrow_indexed fl dist env.grow h
  unfold memoryStore
  dsimp only
  split_ifs with h1 h2
  · exact hg
  · have hcap := memoryGrow_capacity fl dist h2
    refine storeAt_indexed dist env content embedding importance hg ?_
    rw [hc]
    exact h.room.trans_lt hcap
  · exact storeAt_indexed dist env content embedding importance h (Nat.not_le.mp h1)

end

end

section
variable {S : Type} (scoreOf : D → S) (dist : Embedding → Embedding → D)

theorem memoryRetrieve_indexed (env : RetrieveEnv) (query : Embedding) (topK : Nat) {w : World F}
    (h : Indexed w.engine) : Indexed (memoryRetrieve dist scoreOf env query topK w).2.2.engine := by
  unfold memoryRetrieve
  dsimp only
  split_ifs
  · exact h
  · obtain ⟨-,hc,hcap,hi⟩ := report_spec scoreOf env.clock
      (hnswSearch w.engine.index (fun x => dist query (w.engine.entries x).embedding) topK
        env.results env.level) 0 w.engine
    refine ⟨?_,?_,?_⟩
    · rw [hc,hcap,hi]
      exact h.fits
    · rw [hc,hi]
      exact h.bound
    · rw [hc,hcap]
      exact h.room
  · exact h

theorem memoryRetrieve_live (env : RetrieveEnv) (query : Embedding) (topK : Nat) {w : World F}
    (h : Indexed w.engine) : ∀ r ∈ (memoryRetrieve dist scoreOf env query topK w).2.1, ∃ x ∈ live w.engine,
      r.1 = x.id ∧ r.2 = scoreOf (dist query x.embedding) := by
  intro r hr
  unfold memoryRetrieve at hr
  dsimp only at hr
  split_ifs at hr
  · exact absurd hr not_mem_nil
  · rw [(report_spec scoreOf env.clock _ 0 w.engine).1] at hr
    obtain ⟨p,hp,rfl⟩ := mem_map.mp hr
    obtain ⟨hlt,hd⟩ := h.fits.search _ topK env.results env.level p hp
    refine ⟨w.engine.entries p.1,?_,rfl,?_⟩
    · exact mem_firsts.mpr ⟨p.1,hlt.trans_le h.bound,rfl⟩
    · rw [hd]
  · exact absurd hr not_mem_nil

end

section
variable (fl : Floats F) (now : UInt64)

def kept (xs : List (Entry F)) : List (Entry F) :=
  (xs.filter (fun x => !forgets fl now x)).map (fade fl now)

def liveFrom (i : Nat) (e : Engine F) : List (Entry F) :=
  firsts (fun k => e.entries (i+k)) (e.count-i)

theorem liveFrom_cons {e : Engine F} (h : i < e.count) : liveFrom i e = e.entries i :: liveFrom (i+1) e := by
  rw [liveFrom,liveFrom,show e.count-i = e.count-(i+1)+1 by omega,firsts_cons]
  refine congrArg _ (firsts_congr fun k _ => ?_)
  rw [add_right_comm,add_assoc]

theorem removeAt_entries {k : Nat} {e : Engine F} (hk : k < e.count-1) :
    (removeAt fl now i e).entries k = if k = i then e.entries (e.count-1) else e.entries k := by
  rw [removeAt]
  dsimp only
  by_cases hl : i < e.count-1
  · rw [if_pos hl,setAt_ne _ _ (ne_of_lt hk)]
    by_cases hki : k = i
    · rw [if_pos hki,hki,setAt_self,setAt_ne _ _ (ne_of_gt hl)]
    · rw [if_neg hki,setAt_ne _ _ hki,setAt_ne _ _ hki]
  · rw [if_neg hl,setAt_ne _ _ (by omega),if_neg (by omega)]

theorem removeAt_liveFrom {e : Engine F} (h : i < e.count) :
    (liveFrom i (removeAt fl now i e)).Perm (liveFrom (i+1) e) := by
  have hc : (removeAt fl now i e).count = e.count-1 := rfl
  by_cases hl : i < e.count-1
  · obtain ⟨n,hn⟩ : ∃ n, e.count = i+1+n+1 := ⟨e.count-1-i-1,by omega⟩
    have hf : (removeAt fl now i e).entries i = e.entries (i+1+n) := by
      rw [removeAt_entries fl now hl,if_pos rfl,hn,Nat.add_sub_cancel]
    have hr : liveFrom (i+1) (removeAt fl now i e) = firsts (fun k => e.entries (i+1+k)) n := by
      rw [liveFrom,hc,show e.count-1-(i+1) = n by omega]
      refine firsts_congr fun k hk => ?_
      rw [removeAt_entries fl now (by omega),if_neg (by omega)]
    rw [liveFrom_cons (hc.symm ▸ hl),hf,hr,liveFrom,show e.count-(i+1) = n+1 by omega,firsts_succ]
    exact (perm_append_singleton _ _).symm
  · rw [liveFrom,liveFrom,hc,show e.count-1-i = 0 by omega,show e.count-(i+1) = 0 by omega]
    exact Perm.refl _

theorem kept_cons (x : Entry F) (xs : List (Entry F)) : kept fl now (x :: xs) =
    if forgets fl now x = true then kept fl now xs else fade fl now x :: kept fl now xs := by
  rw [kept,kept,filter_cons]
  by_cases hf : forgets fl now x = true
  · rw [if_pos hf,hf]
    rfl
  · rw [if_neg hf,Bool.not_eq_true] at *
    rw [hf]
    rfl

theorem kept_perm {xs ys : List (Entry F)} (h : xs.Perm ys) : (kept fl now xs).Perm (kept fl now ys) :=
  (h.filter _).map _

theorem forgetLoop_live (i : Nat) (w : World F) (h : i ≤ w.engine.count) :
    (live (forgetLoop fl now i w).engine).Perm
        (firsts w.engine.entries i ++ kept fl now (liveFrom i w.engine)) ∧
      (forgetLoop fl now i w).engine.capacity = w.engine.capacity ∧
      (forgetLoop fl now i w).engine.index = w.engine.index := by
  induction i, w using forgetLoop.induct fl now with
  | case1 i w hi hf ih =>
    rw [forgetLoop,if_pos hi,if_pos hf]
    obtain ⟨hl,hr⟩ := ih (Nat.le_sub_one_of_lt hi)
    refine ⟨hl.trans ?_,hr⟩
    have hb : firsts (removeAt fl now i w.engine).entries i = firsts w.engine.entries i := by
      refine firsts_congr fun k hk => ?_
      rw [removeAt_entries fl now (by omega),if_neg (by omega)]
    rw [liveFrom_cons hi,kept_cons,if_pos hf,hb]
    exact (kept_perm fl now (removeAt_liveFrom fl now hi)).append_left _
  | case2 i w hi hf ih =>
    rw [forgetLoop,if_pos hi,if_neg hf]
    obtain ⟨hl,hr⟩ := ih hi
    refine ⟨hl.trans ?_,hr⟩
    have hb : firsts (setAt w.engine.entries i (fade fl now (w.engine.entries i))) i =
        firsts w.engine.entries i :=
      firsts_congr fun k hk => setAt_ne _ _ (ne_of_lt hk)
    have ha : liveFrom (i+1) { w.engine with
        entries := setAt w.engine.entries i (fade fl now (w.engine.entries i)) } =
        liveFrom (i+1) w.engine :=
      firsts_congr fun k _ => setAt_ne _ _ (by omega)
    dsimp only
    rw [liveFrom_cons hi,kept_cons,if_neg hf,firsts_succ,hb,setAt_self,ha,append_assoc]
    exact Perm.refl _
  | case3 i w hi =>
    rw [forgetLoop,if_neg hi]
    obtain rfl : i = w.engine.count := by omega
    refine ⟨?_,rfl,rfl⟩
    rw [liveFrom,Nat.sub_self]
    exact (append_nil _).symm ▸ Perm.refl _

theorem memoryForget_live (w : World F) :
    (live (memoryForget fl now w).engine).Perm (kept fl now (live w.engine)) ∧
      (memoryForget fl now w).engine.capacity = w.engine.capacity ∧
      (memoryForget fl now w).engine.index = w.engine.index := by
  rw [memoryForget]
  split
  · rename_i hz
    refine ⟨?_,rfl,rfl⟩
    rw [live,hz]
    exact List.Perm.refl _
  have hl := forgetLoop_live fl now 0 w (Nat.zero_le _)
  have hs : liveFrom 0 w.engine = live w.engine :=
    firsts_congr fun k _ => by rw [Nat.zero_add]
  rw [hs] at hl
  exact hl

theorem memoryForget_indexed {w : World F} (h : Indexed w.engine)
    (hk : w.engine.index.count ≤ (kept fl now (live w.engine)).length) :
    Indexed (memoryForget fl now w).engine := by
  obtain ⟨hl,hcap,hi⟩ := memoryForget_live fl now w
  have hc : (memoryForget fl now w).engine.count = (kept fl now (live w.engine)).length := by
    rw [← hl.length_eq,live,firsts_length]
  have hle : (kept fl now (live w.engine)).length ≤ w.engine.count := by
    rw [kept,length_map]
    exact (length_filter_le _ _).trans (firsts_length _ _).le
  refine ⟨⟨?_,?_,?_⟩,?_,?_⟩
  · rw [hi,hcap]
    exact h.fits.capacity
  · rw [hi]
    exact h.fits.entry
  · rw [hi,hc]
    intro hz
    have hs := h.fits.started hz
    omega
  · rw [hi,hc]
    exact hk
  · rw [hc,hcap]
    exact hle.trans h.room

end

theorem readRecord_total (buf : Bytes) (p : Nat) : ∃ o, readRecord buf p = some o := by
  unfold readRecord
  split
  · exact ⟨none,rfl⟩
  rw [fetch_of_le (by omega),fetch_of_le (by omega)]
  simp only [Option.bind_eq_bind,Option.bind_some]
  rw [fetch_of_le (by omega),fetch_of_le (by omega),fetch_of_le (by omega),fetch_of_le (by omega)]
  simp only [Option.bind_some]
  split
  · rename_i hf
    rw [fetch_of_le hf.2]
    exact ⟨_,rfl⟩
  · exact ⟨_,rfl⟩

def records (buf : Bytes) : Nat → Nat → List Record
  | 0, _ => []
  | n+1, p =>
    match readRecord buf p with
    | some (some r) => r.1 :: records buf n r.2
    | _ => []

theorem records_length (buf : Bytes) (n p : Nat) : (records buf n p).length ≤ n := by
  induction n generalizing p with
  | zero => exact Nat.le_refl 0
  | succ n ih =>
    rw [records]
    split
    · exact Nat.succ_le_succ (ih _)
    · exact Nat.zero_le _

def isImage (buf : Bytes) : Prop := 16 ≤ buf.length ∧ leValue (slice buf 0 4) = memSerialMagic
def imageCount (buf : Bytes) : Nat := leValue (slice buf 4 4)
def imageRecords (buf : Bytes) : List Record := records buf (imageCount buf) 16

section
variable (fl : Floats F) (dist : Embedding → Embedding → D)

def acceptAll (env : LoadEnv) : Nat → World F → List Record → World F
  | _, w, [] => w
  | i, w, r :: rs => acceptAll env (i+1) (acceptRecord fl dist env i w r) rs

theorem deserializeLoop_eq (env : LoadEnv) (buf : Bytes) (n i p : Nat) (w : World F) :
    deserializeLoop fl dist env buf n i p w = some (acceptAll fl dist env i w (records buf n p)) := by
  induction n generalizing i p w with
  | zero => rfl
  | succ n ih =>
    obtain ⟨o,ho⟩ := readRecord_total buf p
    rw [deserializeLoop,records,ho]
    cases o with
    | none => rfl
    | some r => exact ih _ _ _

def openImage (buf : Bytes) (e : Engine F) : Engine F :=
  { e with count := 0, nextId := UInt64.ofNat (leValue (slice buf 8 8)) }

theorem memoryDeserialize_cases (env : LoadEnv) (buf : Bytes) (w : World F) :
    (¬ isImage buf ∧ memoryDeserialize fl dist env buf w = some (-einval,w)) ∨ (isImage buf ∧
        let r := growTo fl dist env.grow (imageCount buf) 0 w.engine
        (r.1 < 0 ∧ memoryDeserialize fl dist env buf w = some (r.1,{ w with engine := r.2 })) ∨
        (¬ r.1 < 0 ∧ memoryDeserialize fl dist env buf w =
          some (0,acceptAll fl dist env 0 { w with engine := openImage buf r.2 }
            (imageRecords buf)))) := by
  unfold memoryDeserialize
  by_cases hlen : buf.length < 16
  · rw [if_pos hlen]
    exact .inl ⟨fun h => absurd h.1 (by omega),rfl⟩
  rw [if_neg hlen,fetch_of_le (by omega)]
  simp only [Option.bind_eq_bind,Option.bind_some]
  by_cases hm : leValue (slice buf 0 4) = memSerialMagic
  · refine .inr ⟨⟨by omega,hm⟩,?_⟩
    rw [if_neg (not_not.mpr hm),fetch_of_le (by omega),fetch_of_le (by omega)]
    by_cases hneg : (growTo fl dist env.grow (imageCount buf) 0 w.engine).1 < 0
    · exact .inl ⟨hneg,if_pos hneg⟩
    · refine .inr ⟨hneg,(if_neg hneg).trans ?_⟩
      rw [deserializeLoop_eq]
      rfl
  · rw [if_pos hm]
    exact .inl ⟨fun h => hm h.2,rfl⟩

theorem growTo_indexed (env : Nat → GrowEnv) (count k : Nat) {e : Engine F} (h : Indexed e) :
    Indexed (growTo fl dist env count k e).2 ∧ (growTo fl dist env count k e).2.count = e.count ∧
      (¬ (growTo fl dist env count k e).1 < 0 → count ≤ (growTo fl dist env count k e).2.capacity) := by
  induction k, e using growTo.induct fl dist env count with
  | case1 k e hlt hneg =>
    obtain ⟨hg,hc⟩ := memoryGrow_indexed fl dist (env k) h
    rw [growTo,if_pos hlt,dif_pos hneg]
    exact ⟨hg,hc,fun h0 => absurd (show -enomem < 0 by decide) h0⟩
  | case2 k e hlt hneg ih =>
    obtain ⟨hg,hc⟩ := memoryGrow_indexed fl dist (env k) h
    rw [growTo,if_pos hlt,dif_neg hneg]
    obtain ⟨hind,hs,hcap⟩ := ih hg
    exact ⟨hind,hs.trans hc,hcap⟩
  | case3 k e hlt =>
    rw [growTo,if_neg hlt]
    exact ⟨h,rfl,fun _ => Nat.not_lt.mp hlt⟩

theorem acceptAll_fits (env : LoadEnv) (rs : List Record) (i : Nat) {w : World F}
    (h : Fits w.engine.index w.engine.capacity i) (hc : w.engine.count = i)
    (hr : i+rs.length ≤ w.engine.capacity) :
    let e := (acceptAll fl dist env i w rs).engine
    Fits e.index e.capacity (i+rs.length) ∧ e.count = i+rs.length ∧
      e.capacity = w.engine.capacity ∧ e.index.count ≤ max w.engine.index.count (i+rs.length) := by
  induction rs generalizing i w with
  | nil => exact ⟨h,hc,rfl,le_max_left _ _⟩
  | cons r rs ih =>
    rw [length_cons] at hr ⊢
    obtain ⟨hf,hb⟩ := h.insert dist
      (fun x => ((acceptRecord fl dist env i w r).engine.entries x).embedding) (env.insert i)
      (by omega) ((acceptRecord fl dist env i w r).engine.entries i).embedding (env.level i)
    obtain ⟨hall,hlen,hcap,hmax⟩ := ih (i+1) (w := acceptRecord fl dist env i w r) hf
      (congrArg Nat.succ hc) (show i+1+rs.length ≤ w.engine.capacity by omega)
    rw [show i+(rs.length+1) = i+1+rs.length by omega]
    refine ⟨hall,hlen,hcap,hmax.trans ?_⟩
    exact max_le (hb.trans (max_le_max_left _ (by omega))) (le_max_right _ _)

theorem memoryDeserialize_indexed (env : LoadEnv) (buf : Bytes) {w : World F}
    (h : Indexed w.engine) (hr : isImage buf → w.engine.count ≤ (imageRecords buf).length) :
    ∃ r, memoryDeserialize fl dist env buf w = some r ∧ Indexed r.2.engine := by
  obtain ⟨hg,hs,hcap⟩ := growTo_indexed fl dist env.grow (imageCount buf) 0 h
  rcases memoryDeserialize_cases fl dist env buf w with
    ⟨-,heq⟩ | ⟨hi,⟨-,heq⟩ | ⟨hneg,heq⟩⟩
  · exact ⟨_,heq,h⟩
  · exact ⟨_,heq,hg⟩
  have hlen := (records_length buf (imageCount buf) 16).trans (hcap hneg)
  generalize growTo fl dist env.grow (imageCount buf) 0 w.engine = g at *
  obtain ⟨hf,hc,hcp,hmax⟩ := acceptAll_fits fl dist env (imageRecords buf) 0
    (w := ⟨openImage buf g.2,w.heap⟩)
    ⟨hg.fits.capacity,hg.fits.entry,fun _ => rfl⟩ rfl
    ((zero_add _).trans_le hlen)
  rw [zero_add] at hf hc hmax
  have hb := hg.bound.trans (hs.trans_le (hr hi))
  refine ⟨_,heq,hc.symm ▸ hf,?_,?_⟩
  · rw [hc]
    exact hmax.trans (max_le hb (le_refl _))
  · rw [hc,hcp]
    exact hlen

end

end

inductive Op (F : Type) where
  | store (env : StoreEnv) (content : Bytes) (embedding : Embedding) (importance : F)
  | forget (now : UInt64)
  | deserialize (env : LoadEnv) (buf : Bytes)
  | retrieve (env : RetrieveEnv) (query : Embedding) (topK : Nat)

section
variable {F D S : Type} [LinearOrder D]
variable (fl : Floats F) (dist : Embedding → Embedding → D) (scoreOf : D → S)

def step (w : World F) : Op F → World F
  | .store env content embedding importance =>
    (memoryStore fl dist env content embedding importance w).2
  | .forget now => memoryForget fl now w
  | .deserialize env buf => ((memoryDeserialize fl dist env buf w).getD (0,w)).2
  | .retrieve env query topK => (memoryRetrieve dist scoreOf env query topK w).2.2

def run (w : World F) (ops : List (Op F)) : World F := ops.foldl (step fl dist scoreOf) w

def OpOk (w : World F) : Op F → Prop
  | .store .. => True
  | .forget now => w.engine.index.count ≤ (kept fl now (live w.engine)).length
  | .deserialize _ buf => isImage buf → w.engine.count ≤ (imageRecords buf).length
  | .retrieve .. => True

def RunOk (w : World F) : List (Op F) → Prop
  | [] => True
  | op :: ops => OpOk fl w op ∧ RunOk (step fl dist scoreOf w op) ops

theorem step_indexed {w : World F} (h : Indexed w.engine) {op : Op F} (hok : OpOk fl w op) :
    Indexed (step fl dist scoreOf w op).engine := by
  cases op with
  | store env content embedding importance =>
    exact memoryStore_indexed fl dist env content embedding importance h
  | forget now => exact memoryForget_indexed fl now h hok
  | deserialize env buf =>
    obtain ⟨r,heq,hind⟩ := memoryDeserialize_indexed fl dist env buf h hok
    rw [step,heq]
    exact hind
  | retrieve env query topK => exact memoryRetrieve_indexed scoreOf dist env query topK h

theorem run_indexed {w : World F} (h : Indexed w.engine) {ops : List (Op F)}
    (hok : RunOk fl dist scoreOf w ops) : Indexed (run fl dist scoreOf w ops).engine := by
  induction ops generalizing w with
  | nil => exact h
  | cons op ops ih => exact ih (step_indexed fl dist scoreOf h hok.1) hok.2

theorem run_memoryRetrieve (heap : Heap) (ops : List (Op F))
    (hok : RunOk fl dist scoreOf ⟨memoryInit fl,heap⟩ ops) :
    let w := run fl dist scoreOf ⟨memoryInit fl,heap⟩ ops
    (∀ env query topK, ∀ r ∈ (memoryRetrieve dist scoreOf env query topK w).2.1,
      ∃ x ∈ live w.engine, r.1 = x.id ∧ r.2 = scoreOf (dist query x.embedding)) ∧
    ∀ now, (live (memoryForget fl now w).engine).Perm
      (((live w.engine).filter (fun x => !forgets fl now x)).map (fade fl now)) := by
  have hind := run_indexed fl dist scoreOf (indexed_memoryInit fl) hok
  refine ⟨?_,?_⟩
  · exact fun env query topK => memoryRetrieve_live scoreOf dist env query topK hind
  · exact fun now => (memoryForget_live fl now _).1

end

def hundredths : Floats Nat :=
  ⟨0,100,1,1,fun n => 100*n,fun n => n,fun x => x,fun x y => x*y/100,fun x y => x/y,
    fun x y => decide (x < y),fun _ => 100⟩

def firstDistance (a b : Embedding) : Nat := ((a 0).toInt-(b 0).toInt).natAbs
def allGranted : Grants := ⟨true,fun _ => true⟩
def growGranted : GrowEnv := ⟨true,true,true,fun _ => allGranted,fun _ => 0⟩
def retrieveGranted : RetrieveEnv := ⟨true,true,true,true,fun _ => 0⟩
def emptyHeap : Heap := ⟨fun _ => false,fun _ => 0,fun _ _ => 0⟩

def storeOne (pick : Addr) (value : Int8) (importance : Nat) : Op Nat :=
  .store ⟨growGranted,0,pick,allGranted,0⟩ [65] (fun _ => value) importance

def recordBytes (id : Nat) (value : UInt8) : Bytes :=
  leBytes 8 id ++ List.replicate embedDim value ++ leBytes 4 100 ++ leBytes 8 0 ++ leBytes 4 1 ++
    leBytes 4 0

def loadTwo : Op Nat :=
  .deserialize ⟨fun _ => growGranted,fun _ => 0,fun _ => allGranted,fun _ => 0⟩
    (leBytes 4 memSerialMagic ++ leBytes 4 2 ++ leBytes 8 9 ++ recordBytes 7 1 ++ recordBytes 8 3)

theorem run_memoryRetrieve_loaded :
    let w := run hundredths firstDistance (fun d => d) ⟨memoryInit hundredths,emptyHeap⟩
      [storeOne 1 1 100,storeOne 2 3 100,.forget 0,loadTwo]
    (memoryRetrieve firstDistance (fun d => d) retrieveGranted (fun _ => 1) 2 w).2.1 =
        [(7,0),(8,2)] ∧
      ∀ r ∈ (memoryRetrieve firstDistance (fun d => d) retrieveGranted (fun _ => 1) 2 w).2.1,
        ∃ x ∈ live w.engine, r.1 = x.id ∧ r.2 = firstDistance (fun _ => 1) x.embedding :=
  ⟨by decide +kernel,(run_memoryRetrieve hundredths firstDistance (fun d => d) emptyHeap
      [storeOne 1 1 100,storeOne 2 3 100,.forget 0,loadTwo]
      ⟨trivial,trivial,show _ ≤ _ by decide +kernel,fun _ => by decide +kernel,trivial⟩).1
      retrieveGranted (fun _ => 1) 2⟩

theorem memoryRetrieve_forgotten :
    let w := run hundredths firstDistance (fun d => d) ⟨memoryInit hundredths,emptyHeap⟩
      [storeOne 1 1 100,storeOne 2 3 0,.forget 0]
    (live w.engine).map (fun x => x.id) = [1] ∧
      (memoryRetrieve firstDistance (fun d => d) retrieveGranted (fun _ => 1) 2 w).2.1 =
        [(1,0),(2,2)] := by
  decide +kernel

end AevOS.Memory
