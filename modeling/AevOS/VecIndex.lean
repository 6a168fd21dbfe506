import AevOS.ArrayPrefix
import AevOS.CellStore
import AevOS.Runs
import AevOS.Common

/-! The quantised vector index (`vecindex.c`). A function answers `none` where the source would leave an
array or read a centroid never written. Grants of the heap are arguments; capacities are left out. -/

namespace AevOS.VecSearch
open Wire ArrayPrefix Cells

def ivfDefaultNlist : UInt32 := 64
def ivfDefaultNprobe : UInt32 := 8
def kmeansMaxIters : Nat := 20
def vecindexMagic : UInt32 := 0x56454349
def vecindexFlat : UInt32 := 0
def vecindexIvf : UInt32 := 1
def vecdistL2 : UInt32 := 0

structure VecEntry where
  id : UInt64
  vec : List Int8
  deriving DecidableEq

structure CentroidStore where
  cells : List (Option Int8)
  cells_lt : cells.length < 2^32

structure VecIndex where
  type : UInt32
  dist : UInt32
  dim : UInt32
  flat : List VecEntry
  centroids : Option CentroidStore
  lists : Option (List (List VecEntry))
  nlist : UInt32
  nprobe : UInt32
  trained : Bool

def mul32 (a b : Nat) : Nat := a*b%2^32

theorem mul32_lt (a b : Nat) : mul32 a b < 2^32 := Nat.mod_lt _ (by decide)

namespace CentroidStore

def alloc (a b : Nat) : CentroidStore :=
  ⟨List.replicate (mul32 a b) none,by rw [List.length_replicate]; exact mul32_lt a b⟩

def write (s : CentroidStore) (off : Nat) (row : List Int8) : Option CentroidStore :=
  match h : writeCells s.cells off row with
  | none => none
  | some cells => some ⟨cells,by rw [writeCells_length h]; exact s.cells_lt⟩

theorem ext_cells {s t : CentroidStore} (h : s.cells = t.cells) : s = t := by
  cases s
  cases t
  cases h
  rfl

theorem write_cells (s : CentroidStore) (off : Nat) (row : List Int8) :
    (s.write off row).map CentroidStore.cells = writeCells s.cells off row := by
  unfold write
  split <;> simp_all

end CentroidStore

def distL2Sq (a b : List Int8) : Int32 :=
  (List.zipWith (fun x y => (x.toInt32-y.toInt32)*(x.toInt32-y.toInt32)) a b).foldl (· + ·) 0

def distIp (a b : List Int8) : Int32 :=
  (List.zipWith (fun x y => x.toInt32*y.toInt32) a b).foldl (· + ·) 0

def distance (dist : UInt32) (a b : List Int8) : Int32 :=
  if dist = vecdistL2 then distL2Sq a b else distIp a b

structure HeapItem where
  id : UInt64
  dist : Int32
  deriving DecidableEq

def above (maxHeap : Bool) (a b : Int32) : Bool := if maxHeap then a > b else a < b
def distAt (h : List HeapItem) (i : Nat) : Int32 := (h[i]?.map HeapItem.dist).getD 0

def heapSiftDown (maxHeap : Bool) (n : Nat) : Nat → List HeapItem → Nat → List HeapItem
  | 0, h, _ => h
  | fuel+1, h, i =>
    let l := 2*i+1
    let r := 2*i+2
    let target := if l < n ∧ above maxHeap (distAt h l) (distAt h i) then l else i
    let target := if r < n ∧ above maxHeap (distAt h r) (distAt h target) then r else target
    if target = i then h
    else
      match h[i]?, h[target]? with
      | some x, some y => heapSiftDown maxHeap n fuel ((h.set i y).set target x) target
      | _, _ => h

def offer (isL2 : Bool) (k : Nat) (h : List HeapItem) (item : HeapItem) : List HeapItem :=
  if h.length < k then
    let h := h ++ [item]
    if h.length = k then
      ((List.range (k/2)).reverse).foldl (fun h j => heapSiftDown isL2 k k h j) h
    else h
  else if (if isL2 then item.dist < distAt h 0 else item.dist > distAt h 0) then
    heapSiftDown isL2 k k (h.set 0 item) 0
  else h

def extract (isL2 : Bool) : Nat → List HeapItem → List HeapItem → List HeapItem
  | 0, _, out => out
  | i+1, h, out =>
    match h[0]?, h[i]? with
    | some root, some last =>
      let h := h.set 0 last
      extract isL2 i (if 0 < i then heapSiftDown isL2 i i h 0 else h) (root :: out)
    | _, _ => out

def topK (isL2 : Bool) (k : Nat) (items : List HeapItem) : List HeapItem :=
  let h := items.foldl (offer isL2 k) []
  extract isL2 h.length h []

namespace VecIndex

def cells (idx : VecIndex) : List (Option Int8) := (idx.centroids.map CentroidStore.cells).getD []

theorem cells_lt (idx : VecIndex) : idx.cells.length < 2^32 := by
  unfold cells
  cases idx.centroids with
  | none => simp
  | some store => exact store.cells_lt

def row (cells : List (Option Int8)) (dim c : Nat) : Option (List Int8) :=
  readCells cells (mul32 c dim) dim

def centroid (idx : VecIndex) (c : Nat) : Option (List Int8) := row idx.cells idx.dim.toNat c
def listAt (idx : VecIndex) (c : Nat) : Option (List VecEntry) := idx.lists.bind (fun ls => ls[c]?)

def nearer (vec : List Int8) (centroid : Nat → Option (List Int8)) (best : Nat × Int32) (c : Nat) :
    Option (Nat × Int32) :=
  (centroid c).map fun row =>
    if distL2Sq vec row < best.2 then (c,distL2Sq vec row) else best

def nearest (vec : List Int8) (centroid : Nat → Option (List Int8)) (n : Nat) : Option Nat :=
  (centroid 0).bind fun row =>
  ((List.range' 1 (n-1)).foldlM (nearer vec centroid) (0,distL2Sq vec row)).map Prod.fst

def findNearestCentroid (idx : VecIndex) (vec : List Int8) : Option Nat :=
  nearest vec idx.centroid idx.nlist.toNat

def create (dim type dist : UInt32) (mem memLists : Bool) : Option VecIndex :=
  if !mem then none
  else if type = vecindexIvf then
    if !memLists then none
    else some ⟨type,dist,dim,[],none,
      some (List.replicate ivfDefaultNlist.toNat []),ivfDefaultNlist,ivfDefaultNprobe,false⟩
  else some ⟨type,dist,dim,[],none,none,0,0,false⟩

def flatAdd (idx : VecIndex) (id : UInt64) (vec : List Int8) (mem : Bool) :
    Option Errno × VecIndex :=
  if mem then (none,{ idx with flat := idx.flat ++ [⟨id,vec⟩] }) else (some .enomem,idx)

def ivfAdd (idx : VecIndex) (id : UInt64) (vec : List Int8) (mem : Bool) :
    Option (Option Errno × VecIndex) :=
  if !idx.trained then some (some .einval,idx)
  else
    (idx.findNearestCentroid vec).bind fun c =>
    (idx.listAt c).bind fun _ =>
    if mem then
      some (none,{ idx with lists := idx.lists.map (fun ls => ls.modify c (· ++ [⟨id,vec⟩])) })
    else some (some .enomem,idx)

def add (idx : VecIndex) (id : UInt64) (vec : Nat → Int8) (mem : Bool) :
    Option (Option Errno × VecIndex) :=
  if idx.type = vecindexFlat then some (idx.flatAdd id (firsts vec idx.dim.toNat) mem)
  else idx.ivfAdd id (firsts vec idx.dim.toNat) mem

def findList (idx : VecIndex) (id : UInt64) : (k c : Nat) → Option (Option Nat)
  | 0, _ => some none
  | k+1, c => (idx.listAt c).bind fun l =>
    if l.any (fun e => e.id == id) then some (some c) else findList idx id k (c+1)

def remove (idx : VecIndex) (id : UInt64) : Option (Option Errno × VecIndex) :=
  if idx.type = vecindexFlat then
    if idx.flat.any (fun e => e.id == id) then
      some (none,{ idx with flat := idx.flat.eraseP (fun e => e.id == id) })
    else some (some .enoent,idx)
  else
    (idx.findList id idx.nlist.toNat 0).map fun found =>
      match found with
      | some c => (none,{ idx with
          lists := idx.lists.map (fun ls => ls.modify c (·.eraseP (fun e => e.id == id))) })
      | none => (some .enoent,idx)

def count (idx : VecIndex) : Option Nat :=
  if idx.type = vecindexFlat then some idx.flat.length
  else ((List.range idx.nlist.toNat).mapM idx.listAt).map fun ls =>
    (ls.map List.length).sum%2^32

structure SearchMem where
  probe : Bool
  cdist : Bool
  heap : Bool

def items (idx : VecIndex) (query : List Int8) (es : List VecEntry) : List HeapItem :=
  es.map fun e => ⟨e.id,distance idx.dist query e.vec⟩

def flatSearch (idx : VecIndex) (query : List Int8) (k : Nat) (mem : SearchMem) :
    Except Errno (List HeapItem) :=
  if k = 0 ∨ idx.flat = [] then .ok []
  else if !mem.heap then .error .enomem
  else .ok (topK (idx.dist == vecdistL2) (min k idx.flat.length) (idx.items query idx.flat))

def argmin (cdist : List Int32) : Nat :=
  (List.range' 1 (cdist.length-1)).foldl
    (fun best c => if cdist.getD c 0 < cdist.getD best 0 then c else best) 0

def probes : Nat → List Int32 → List Nat
  | 0, _ => []
  | n+1, cdist => argmin cdist :: probes n (cdist.set (argmin cdist) 0x7FFFFFFF)

def ivfSearch (idx : VecIndex) (query : List Int8) (k : Nat) (mem : SearchMem) :
    Option (Except Errno (List HeapItem)) :=
  if !idx.trained ∨ k = 0 then some (.ok [])
  else if !mem.probe ∨ !mem.cdist then some (.error .enomem)
  else
    ((List.range idx.nlist.toNat).mapM idx.centroid).bind fun rows =>
    let cdist := rows.map (distL2Sq query)
    let probe := probes (min idx.nprobe.toNat idx.nlist.toNat) cdist
    if !mem.heap then some (.error .enomem)
    else
      (probe.mapM idx.listAt).map fun ls =>
        .ok (topK (idx.dist == vecdistL2) k (idx.items query ls.flatten))

def search (idx : VecIndex) (query : Nat → Int8) (k : Nat) (mem : SearchMem) :
    Option (Except Errno (List HeapItem)) :=
  let query := firsts query idx.dim.toNat
  if k = 0 then some (.error .einval)
  else if idx.type = vecindexFlat then some (idx.flatSearch query k mem)
  else idx.ivfSearch query k mem

def destroy (idx : VecIndex) : Option (List VecEntry) :=
  match idx.lists with
  | none => some idx.flat
  | some _ => ((List.range idx.nlist.toNat).mapM idx.listAt).map fun ls => idx.flat ++ ls.flatten

def trainVec (vecs : Nat → Int8) (dim i : Nat) : List Int8 :=
  firsts (fun d => vecs (mul32 i dim+d)) dim

structure Sums where
  count : Nat
  accum : List Int32

def assign (vecs : Nat → Int8) (cells : List (Option Int8)) (dim nlist : Nat) (s : Nat → Sums)
    (i : Nat) : Option (Nat → Sums) :=
  (nearest (trainVec vecs dim i) (row cells dim) nlist).map fun best =>
    setAt s best ⟨(s best).count+1,
      List.zipWith (fun a v => a+v.toInt32) (s best).accum (trainVec vecs dim i)⟩

def average (sum : Int32) (count : Nat) : Int8 :=
  let avg := sum/Int32.ofNat count
  if avg > 127 then 127 else if avg < -128 then -128 else avg.toInt8

def recompute (dim : Nat) (s : Nat → Sums) (store : CentroidStore) (c : Nat) :
    Option CentroidStore :=
  if (s c).count = 0 then some store
  else store.write (mul32 c dim) ((s c).accum.map (average · (s c).count))

def lloyd (vecs : Nat → Int8) (dim nlist count : Nat) (store : CentroidStore) :
    Option CentroidStore :=
  ((List.range count).foldlM (assign vecs store.cells dim nlist)
    (fun _ => ⟨0,List.replicate dim 0⟩)).bind fun s =>
  (List.range nlist).foldlM (recompute dim s) store

def seed (vecs : Nat → Int8) (dim nlist : Nat) (store : CentroidStore) : Option CentroidStore :=
  (List.range nlist).foldlM (fun store c => store.write (mul32 c dim) (trainVec vecs dim c)) store

structure TrainMem where
  centroids : Bool
  sums : Bool

def train (idx : VecIndex) (vecs : Nat → Int8) (count : UInt32) (mem : TrainMem) :
    Option (Option Errno × VecIndex) :=
  if count = 0 ∨ idx.type ≠ vecindexIvf then some (some .einval,idx)
  else
    let dim := idx.dim.toNat
    -- the reduced number of lists is not stored
    let nlist := min idx.nlist.toNat count.toNat
    let store? := match idx.centroids with
      | some store => some store
      | none => if mem.centroids then some (CentroidStore.alloc nlist dim) else none
    match store? with
    | none => some (some .enomem,idx)
    | some store =>
      (seed vecs dim nlist store).bind fun store =>
      if !mem.sums then some (some .enomem,{ idx with centroids := some store })
      else
        ((List.range kmeansMaxIters).foldlM
          (fun store _ => lloyd vecs dim nlist count.toNat store) store).map fun store =>
        (none,{ idx with centroids := some store, trained := true })

def entryBytes (e : VecEntry) : Bytes := leBytes 8 e.id.toNat ++ e.vec.map Int8.toUInt8

def entries (idx : VecIndex) : Option (List VecEntry) :=
  if idx.type = vecindexFlat then some idx.flat
  else ((List.range idx.nlist.toNat).mapM idx.listAt).map List.flatten

def centroidBytes (idx : VecIndex) : Option Bytes :=
  if idx.type = vecindexIvf ∧ idx.centroids.isSome then
    (readCells idx.cells 0 (mul32 idx.nlist.toNat idx.dim.toNat)).map (List.map Int8.toUInt8)
  else some []

def needed (idx : VecIndex) (count : Nat) : Nat :=
  24+count*((8+idx.dim.toNat)%2^32) +
    (if idx.type = vecindexIvf ∧ idx.centroids.isSome then idx.nlist.toNat*idx.dim.toNat else 0)

def header (idx : VecIndex) (count : Nat) : Bytes :=
  leBytes 4 vecindexMagic.toNat ++ leBytes 4 idx.type.toNat ++ leBytes 4 idx.dist.toNat ++
    leBytes 4 idx.dim.toNat ++ leBytes 4 count ++ leBytes 4 idx.nlist.toNat

def serialize (idx : VecIndex) (size : Nat) : Option (Except Nat Bytes) :=
  idx.count.bind fun count =>
  if size < idx.needed count then some (.error (idx.needed count))
  else
    idx.centroidBytes.bind fun centroids =>
    idx.entries.bind fun es =>
    let bytes := idx.header count ++ centroids ++ es.flatMap entryBytes
    if size < bytes.length then none else some (.ok bytes)

structure LoadMem where
  index : Bool
  lists : Bool
  centroids : Bool
  entry : Nat → Bool

def field32 (buf : Bytes) (off : Nat) : UInt32 := UInt32.ofNat (leValue (slice buf off 4))

theorem loadStore_lt (buf : Bytes) (a b : Nat) :
    ((slice buf 24 (mul32 a b)).map (fun x => some x.toInt8)).length < 2^32 := by
  have := mul32_lt a b
  simp only [List.length_map,slice,List.length_take]
  omega

def loadStore (buf : Bytes) (a b : Nat) : CentroidStore :=
  ⟨(slice buf 24 (mul32 a b)).map (fun x => some x.toInt8),loadStore_lt buf a b⟩

def loadEntries (buf : Bytes) (mem : Nat → Bool) : (k i pos : Nat) → VecIndex → Option VecIndex
  | 0, _, _, idx => some idx
  | k+1, i, pos, idx =>
    if buf.length < pos+8+idx.dim.toNat then some idx
    else
      let id := UInt64.ofNat (leValue (slice buf pos 8))
      (idx.add id (fun d => (byteAt buf (pos+8+d)).toInt8) (mem i)).bind fun r =>
      loadEntries buf mem k (i+1) (pos+8+idx.dim.toNat) r.2

def deserialize (buf : Bytes) (mem : LoadMem) : Option (Option VecIndex) :=
  if buf.length < 24 then some none
  else if field32 buf 0 ≠ vecindexMagic then some none
  else
    let dim := field32 buf 12
    let nlist := field32 buf 20
    match create dim (field32 buf 4) (field32 buf 8) mem.index mem.lists with
    | none => some none
    | some idx =>
      let count := (field32 buf 16).toNat
      if field32 buf 4 = vecindexIvf ∧ 0 < nlist then
        let size := mul32 nlist.toNat dim.toNat
        if mem.centroids then
          if size = 0 ∨ 24+size ≤ buf.length then
            (loadEntries buf mem.entry count 0 (24+size) { idx with
              nlist := nlist
              centroids := some (loadStore buf nlist.toNat dim.toNat)
              trained := true }).map some
          else none
        else
          (loadEntries buf mem.entry count 0 24
            { idx with nlist := nlist, trained := true }).map some
      else (loadEntries buf mem.entry count 0 24 idx).map some

end VecIndex

/-! Training: which centroids are written, and when those that are read are among them. -/

open Runs List

variable {store store' : CentroidStore} {off dim c size : Nat} {row : List Int8} {vecs : Nat → Int8}
    {idx idx' : VecIndex}

namespace VecIndex

theorem nearest_isSome (vec : List Int8) (centroid : Nat → Option (List Int8)) (n : Nat)
    (hn : 0 < n) (h : ∀ c < n, (centroid c).isSome = true) : ∃ c < n, nearest vec centroid n = some c := by
  obtain ⟨row0,h0⟩ := Option.isSome_iff_exists.mp (h 0 hn)
  have hl := @foldlM_runs (Nat × Int32) Nat (nearer vec centroid) (fun b => b.1 < n)
    (range' 1 (n-1)) (0,distL2Sq vec row0) (by
      intro best hb c hc
      have hc : c < n := by
        have := (mem_range'_1.mp hc).2
        omega
      obtain ⟨row,hrow⟩ := Option.isSome_iff_exists.mp (h c hc)
      refine ⟨_,by rw [nearer,hrow]; rfl,?_⟩
      dsimp only
      split
      · exact hc
      · exact hb) hn
  obtain ⟨best,hb,hlt⟩ := hl
  exact ⟨best.1,hlt,by rw [nearest,h0]; simp [hb]⟩

def Searchable (idx : VecIndex) : Prop := ∀ c < idx.nlist.toNat, (idx.centroid c).isSome = true

theorem searchable_iff (idx : VecIndex) :
    idx.Searchable ↔ ∀ j < idx.nlist.toNat*idx.dim.toNat, Filled idx.cells j := by
  rw [← rows_filled_iff idx.cells idx.nlist.toNat idx.dim.toNat (2^32) idx.cells_lt]
  unfold Searchable centroid row
  simp only [readCells_isSome,mul32]

theorem write_some (h : store.write off row = some store') :
    writeCells store.cells off row = some store'.cells := by
  rw [← CentroidStore.write_cells,h]
  rfl

theorem write_runs (store : CentroidStore) (off : Nat) (row : List Int8)
    (h : off+row.length ≤ store.cells.length) : ∃ store', store.write off row = some store' := by
  have hs := writeCells_isSome store.cells off row (.inr h)
  rw [← CentroidStore.write_cells,Option.isSome_map] at hs
  exact Option.isSome_iff_exists.mp hs

theorem write_length (h : store.write off row = some store') : store'.cells.length = store.cells.length :=
  writeCells_length (write_some h)

theorem seed_length {nlist : Nat} (h : seed vecs dim nlist store = some store') :
    store'.cells.length = store.cells.length :=
  @foldlM_keeps CentroidStore Nat _ (fun s => s.cells.length = store.cells.length) _ _ _ h
    (fun _ _ _ hs hw => (write_length hw).trans hs) rfl

theorem recompute_length {s : Nat → Sums} (h : recompute dim s store c = some store') :
    store'.cells.length = store.cells.length := by
  unfold recompute at h
  split at h
  · rw [Option.some.inj h]
  · exact write_length h

theorem lloyd_length {nlist count : Nat} (h : lloyd vecs dim nlist count store = some store') :
    store'.cells.length = store.cells.length := by
  obtain ⟨s,_,h⟩ := Option.bind_eq_some_iff.mp h
  exact @foldlM_keeps CentroidStore Nat _ (fun t => t.cells.length = store.cells.length) _ _ _ h
    (fun _ _ _ ht hw => (recompute_length hw).trans ht) rfl

section Inside

variable {dim nlist : Nat}

theorem mul32_row (hr : nlist*dim ≤ store.cells.length) (hc : c < nlist) :
    mul32 c dim = c*dim ∧ c*dim+dim ≤ nlist*dim := by
  have hlt := store.cells_lt
  have hrow : c*dim+dim ≤ nlist*dim := by
    have := Nat.mul_le_mul_right dim (Nat.succ_le_of_lt hc)
    rwa [Nat.succ_mul] at this
  exact ⟨Nat.mod_eq_of_lt (by omega),hrow⟩

section
variable (vecs : Nat → Int8) (count : Nat) (store : CentroidStore)

theorem seed_runs (hr : nlist*dim ≤ store.cells.length) : ∃ store', seed vecs dim nlist store = some store' ∧
    ∀ j, Filled store'.cells j ↔ j < nlist*dim ∨ Filled store.cells j := by
  suffices h : ∀ k ≤ nlist, ∃ store', seed vecs dim k store = some store' ∧
      ∀ j, Filled store'.cells j ↔ j < k*dim ∨ Filled store.cells j from h nlist (le_refl _)
  intro k
  induction k with
  | zero =>
    intro _
    exact ⟨store,rfl,fun j => by simp⟩
  | succ k ih =>
    intro hk
    obtain ⟨store1,h1,hf⟩ := ih (by omega)
    have hlen := seed_length h1
    obtain ⟨hmul,hrow⟩ := mul32_row hr (show k < nlist by omega)
    have hvec : (trainVec vecs dim k).length = dim := firsts_length _ _
    obtain ⟨store2,h2⟩ := write_runs store1 (mul32 k dim) (trainVec vecs dim k) (by omega)
    refine ⟨store2,?_,fun j => ?_⟩
    · rw [seed,range_succ,foldlM_append]
      rw [seed] at h1
      rw [h1]
      simpa using h2
    rw [writeCells_filled (write_some h2),hf,hmul,hvec,Nat.succ_mul]
    constructor
    · rintro (h | h | h)
      · exact .inl (by omega)
      · exact .inl (by omega)
      · exact .inr h
    rintro (h | h)
    · rcases lt_or_ge j (k*dim) with hj | hj
      · exact .inr (.inl hj)
      · exact .inl ⟨hj,h⟩
    · exact .inr (.inr h)

theorem lloyd_runs (hn : 0 < nlist) (hr : nlist*dim ≤ store.cells.length)
    (hf : ∀ j < nlist*dim, Filled store.cells j) : ∃ store', lloyd vecs dim nlist count store = some store' ∧
      ∀ j, Filled store'.cells j ↔ Filled store.cells j := by
  have hrw : ∀ c < nlist, (row store.cells dim c).isSome = true := by
    intro c hc
    obtain ⟨hmul,hrow⟩ := mul32_row hr hc
    rw [row,readCells_isSome,hmul]
    intro i hi
    exact hf _ (by omega)
  obtain ⟨s,hs,ha⟩ := @foldlM_runs (Nat → Sums) Nat (assign vecs store.cells dim nlist)
    (fun s => ∀ c, (s c).accum.length ≤ dim) (List.range count)
    (fun _ => ⟨0,replicate dim 0⟩) (by
      intro s hs i _
      obtain ⟨best,_,hb⟩ := nearest_isSome (trainVec vecs dim i) (row store.cells dim) nlist hn hrw
      refine ⟨_,by rw [assign,hb]; rfl,fun c => ?_⟩
      by_cases hc : c = best
      · subst hc
        have := hs c
        simp only [setAt_self,length_zipWith]
        omega
      · simp only [setAt_ne _ _ hc]
        exact hs c) (by simp)
  obtain ⟨store',hst,_,hsm⟩ := @foldlM_runs CentroidStore Nat (recompute dim s)
    (fun t => t.cells.length = store.cells.length ∧ ∀ j, Filled t.cells j ↔ Filled store.cells j)
    (List.range nlist) store (by
      rintro t ⟨hlen,hsm⟩ c hc
      obtain ⟨hmul,hrow⟩ := mul32_row hr (mem_range.mp hc)
      unfold recompute
      split
      · exact ⟨t,rfl,hlen,hsm⟩
      have hle : ((s c).accum.map (average · (s c).count)).length ≤ dim := by
        simpa using ha c
      obtain ⟨t',ht'⟩ := write_runs t (mul32 c dim) ((s c).accum.map (average · (s c).count))
        (by omega)
      refine ⟨t',ht',(write_length ht').trans hlen,fun j => ?_⟩
      rw [writeCells_filled (write_some ht'),hsm,hmul]
      constructor
      · rintro (h | h)
        · exact hf j (by omega)
        · exact h
      · exact .inr) ⟨rfl,fun _ => Iff.rfl⟩
  exact ⟨store',by rw [lloyd,hs]; exact hst,hsm⟩

theorem rounds_runs (hn : 0 < nlist) (hr : nlist*dim ≤ store.cells.length)
    (hf : ∀ j < nlist*dim, Filled store.cells j) : ∃ store', (List.range kmeansMaxIters).foldlM
        (fun store _ => lloyd vecs dim nlist count store) store = some store' ∧
      store'.cells.length = store.cells.length ∧ ∀ j, Filled store'.cells j ↔ Filled store.cells j :=
  @foldlM_runs CentroidStore Nat (fun store _ => lloyd vecs dim nlist count store)
    (fun t => t.cells.length = store.cells.length ∧ ∀ j, Filled t.cells j ↔ Filled store.cells j)
    (List.range kmeansMaxIters) store (by
      rintro t ⟨hlen,hs⟩ _ _
      obtain ⟨t',ht',hst⟩ := lloyd_runs vecs count t hn (by rw [hlen]; exact hr)
        (fun j hj => (hs j).mpr (hf j hj))
      exact ⟨t',ht',(lloyd_length ht').trans hlen,fun j => (hst j).trans (hs j)⟩)
    ⟨rfl,fun _ => Iff.rfl⟩

end

end Inside

structure TrainCall where
  vecs : Nat → Int8
  count : UInt32

def trainCall (idx : VecIndex) (call : TrainCall) : Option VecIndex :=
  (idx.train call.vecs call.count ⟨true,true⟩).map Prod.snd

def trainedLists (idx : VecIndex) (call : TrainCall) : Nat :=
  min idx.nlist.toNat call.count.toNat

def storeFor (idx : VecIndex) (call : TrainCall) : CentroidStore :=
  idx.centroids.getD (.alloc (idx.trainedLists call) idx.dim.toNat)

theorem train_eq (idx : VecIndex) (call : TrainCall) (mem : TrainMem)
    (hivf : idx.type = vecindexIvf) (hcn : call.count ≠ 0) :
    idx.train call.vecs call.count mem =
      if idx.centroids.isNone ∧ mem.centroids = false then some (some .enomem,idx)
      else
        (seed call.vecs idx.dim.toNat (idx.trainedLists call) (idx.storeFor call)).bind fun store =>
        if !mem.sums then some (some .enomem,{ idx with centroids := some store })
        else
          ((List.range kmeansMaxIters).foldlM (fun store _ =>
            lloyd call.vecs idx.dim.toNat (idx.trainedLists call) call.count.toNat store) store).map
            fun store => (none,{ idx with centroids := some store, trained := true }) := by
  have hgo : ¬ (call.count = 0 ∨ idx.type ≠ vecindexIvf) := by simp [hivf,hcn]
  unfold train
  rw [if_neg hgo]
  cases hc : idx.centroids with
  | none => cases hm : mem.centroids <;> simp [storeFor,hc,trainedLists]
  | some store => simp [storeFor,hc,trainedLists]

theorem trainCall_eq (idx : VecIndex) (call : TrainCall) (hivf : idx.type = vecindexIvf)
    (hc : call.count ≠ 0) : idx.trainCall call =
      (seed call.vecs idx.dim.toNat (idx.trainedLists call) (idx.storeFor call)).bind fun store =>
      ((List.range kmeansMaxIters).foldlM (fun store _ =>
        lloyd call.vecs idx.dim.toNat (idx.trainedLists call) call.count.toNat store) store).map
          fun store => { idx with centroids := some store, trained := true } := by
  rw [trainCall,train_eq idx call _ hivf hc,if_neg (by simp),Option.map_bind]
  congr 1
  funext store
  simp [Function.comp_def]

theorem trainedLists_pos (idx : VecIndex) (call : TrainCall) (hn : 0 < idx.nlist)
    (hc : call.count ≠ 0) : 0 < idx.trainedLists call := by
  have h0 : call.count.toNat ≠ 0 := fun h => hc (UInt32.toNat_inj.mp h)
  have h1 : 0 < idx.nlist.toNat := UInt32.lt_iff_toNat_lt.mp hn
  simp only [trainedLists]
  omega

structure KeepsShape (idx idx' : VecIndex) (size : Nat) : Prop where
  type : idx'.type = idx.type
  dim : idx'.dim = idx.dim
  nlist : idx'.nlist = idx.nlist
  stored : ∃ store, idx'.centroids = some store ∧ store.cells.length = size

theorem trainCall_shape {call : TrainCall} (hivf : idx.type = vecindexIvf) (hc : call.count ≠ 0)
    (h : idx.trainCall call = some idx') : KeepsShape idx idx' (idx.storeFor call).cells.length := by
  rw [trainCall_eq idx call hivf hc,Option.bind_eq_some_iff] at h
  obtain ⟨store1,h1,h⟩ := h
  obtain ⟨store2,h2,rfl⟩ := Option.map_eq_some_iff.mp h
  have hlen := @foldlM_keeps CentroidStore Nat _
    (fun s => s.cells.length = store1.cells.length) _ _ _ h2
    (fun _ _ _ hs hw => (lloyd_length hw).trans hs) rfl
  exact ⟨rfl,rfl,rfl,store2,rfl,hlen.trans (seed_length h1)⟩

theorem trainCall_runs (idx : VecIndex) (call : TrainCall) (hivf : idx.type = vecindexIvf)
    (hn : 0 < idx.nlist) (hc : call.count ≠ 0)
    (hr : idx.trainedLists call*idx.dim.toNat ≤ (idx.storeFor call).cells.length) :
    ∃ idx', idx.trainCall call = some idx' ∧ ∀ j, Filled idx'.cells j ↔
      j < idx.trainedLists call*idx.dim.toNat ∨ Filled (idx.storeFor call).cells j := by
  have hpos := idx.trainedLists_pos call hn hc
  obtain ⟨store1,h1,hf⟩ := seed_runs call.vecs (idx.storeFor call) hr
  have hl1 := seed_length h1
  obtain ⟨store2,h2,_,hs⟩ := rounds_runs call.vecs call.count.toNat store1 hpos
    (by rw [hl1]; exact hr) (fun j hj => (hf j).mpr (.inl hj))
  refine ⟨{ idx with centroids := some store2, trained := true },?_,fun j => ?_⟩
  · rw [trainCall_eq idx call hivf hc,h1]
    simp [h2]
  · exact (hs j).trans (hf j)

def trainRun (idx : VecIndex) (calls : List TrainCall) : Option VecIndex :=
  calls.foldlM trainCall idx

def TrainedSafely (idx : VecIndex) (calls : List TrainCall) : Prop :=
  ∃ idx', idx.trainRun calls = some idx' ∧ idx'.Searchable

def Covers (idx : VecIndex) (store : CentroidStore) (calls : List TrainCall) : Prop :=
  ∀ j < idx.nlist.toNat*idx.dim.toNat, j < store.cells.length ∧
    (Filled store.cells j ∨ ∃ call ∈ calls, j < idx.trainedLists call*idx.dim.toNat)

theorem KeepsShape.storeFor (h : KeepsShape idx idx' size) (call : TrainCall) :
    (idx'.storeFor call).cells = idx'.cells ∧ (idx'.storeFor call).cells.length = size := by
  obtain ⟨store,hs,hlen⟩ := h.stored
  simp [VecIndex.storeFor,cells,hs,hlen]

theorem KeepsShape.trainedLists (h : KeepsShape idx idx' size) (call : TrainCall) :
    idx'.trainedLists call = idx.trainedLists call := by
  simp [VecIndex.trainedLists,h.nlist]

theorem trainRun_cons (idx : VecIndex) (call : TrainCall) (calls : List TrainCall) :
    idx.trainRun (call :: calls) = (idx.trainCall call).bind (·.trainRun calls) := rfl

theorem trainRun_shape {first : TrainCall} {rest : List TrainCall} (hivf : idx.type = vecindexIvf)
    (hcn : ∀ call ∈ first :: rest, call.count ≠ 0) (h : idx.trainRun (first :: rest) = some idx') :
    KeepsShape idx idx' (idx.storeFor first).cells.length := by
  induction rest generalizing idx first with
  | nil =>
    rw [trainRun_cons,Option.bind_eq_some_iff] at h
    obtain ⟨idx1,h1,hr⟩ := h
    obtain rfl : idx1 = idx' := by simpa [trainRun] using hr
    exact trainCall_shape hivf (hcn first mem_cons_self) h1
  | cons second rest ih =>
    rw [trainRun_cons,Option.bind_eq_some_iff] at h
    obtain ⟨idx1,h1,hr⟩ := h
    have hs1 := trainCall_shape hivf (hcn first mem_cons_self) h1
    have hs2 := ih (hs1.type.trans hivf) (fun call hc => hcn call (mem_cons_of_mem _ hc)) hr
    rw [(hs1.storeFor second).2] at hs2
    exact ⟨hs2.type.trans hs1.type,hs2.dim.trans hs1.dim,hs2.nlist.trans hs1.nlist,hs2.stored⟩

section
variable (idx : VecIndex) (first : TrainCall) (rest : List TrainCall)

theorem trainedLists_mul_le (call : TrainCall) :
    idx.trainedLists call*idx.dim.toNat ≤ idx.nlist.toNat*idx.dim.toNat :=
  Nat.mul_le_mul_right _ (min_le_left _ _)

theorem trainRun_runs (hivf : idx.type = vecindexIvf) (hn : 0 < idx.nlist)
    (hcn : ∀ call ∈ first :: rest, call.count ≠ 0)
    (hr : idx.nlist.toNat*idx.dim.toNat ≤ (idx.storeFor first).cells.length) :
    ∃ idx', idx.trainRun (first :: rest) = some idx' ∧ ∀ j, Filled idx'.cells j ↔
      Filled (idx.storeFor first).cells j ∨
        ∃ call ∈ first :: rest, j < idx.trainedLists call*idx.dim.toNat := by
  induction rest generalizing idx first with
  | nil =>
    have hc := hcn first mem_cons_self
    obtain ⟨idx1,h1,hf⟩ := trainCall_runs idx first hivf hn hc
      ((idx.trainedLists_mul_le first).trans hr)
    refine ⟨idx1,by rw [trainRun_cons,h1]; rfl,fun j => ?_⟩
    rw [hf j]
    simp only [mem_singleton,exists_eq_left]
    exact Or.comm
  | cons second rest ih =>
    have hc := hcn first mem_cons_self
    obtain ⟨idx1,h1,hf⟩ := trainCall_runs idx first hivf hn hc
      ((idx.trainedLists_mul_le first).trans hr)
    have hs := trainCall_shape hivf hc h1
    obtain ⟨hcl,hlen⟩ := hs.storeFor second
    obtain ⟨idx2,h2,hf2⟩ := ih idx1 second (hs.type.trans hivf) (hs.nlist.symm ▸ hn)
      (fun call hc => hcn call (mem_cons_of_mem _ hc))
      (by rw [hlen,hs.nlist,hs.dim]; exact hr)
    refine ⟨idx2,by rw [trainRun_cons,h1]; exact h2,fun j => ?_⟩
    rw [hf2 j,hcl,hf j,hs.dim]
    simp only [hs.trainedLists]
    rw [exists_mem_cons_iff _ first]
    tauto

theorem trainedSafely_covers (hivf : idx.type = vecindexIvf) (hn : 0 < idx.nlist)
    (hc : ∀ call ∈ first :: rest, call.count ≠ 0) :
    idx.TrainedSafely (first :: rest) ↔ idx.Covers (idx.storeFor first) (first :: rest) := by
  have hr : (∀ j < idx.nlist.toNat*idx.dim.toNat, j < (idx.storeFor first).cells.length) →
      idx.nlist.toNat*idx.dim.toNat ≤ (idx.storeFor first).cells.length := by
    intro h
    by_contra hlt
    have := h _ (Nat.lt_of_not_le hlt)
    omega
  constructor
  · rintro ⟨idx',hrun,hsr⟩
    have hs := trainRun_shape hivf hc hrun
    have hlen : idx'.cells.length = (idx.storeFor first).cells.length := by
      rw [← (hs.storeFor first).1]
      exact (hs.storeFor first).2
    rw [searchable_iff,hs.nlist,hs.dim] at hsr
    have hall : ∀ j < idx.nlist.toNat*idx.dim.toNat, j < (idx.storeFor first).cells.length :=
      fun j hj => hlen ▸ (hsr j hj).lt
    obtain ⟨idx2,hr2,hf⟩ := trainRun_runs idx first rest hivf hn hc (hr hall)
    obtain rfl : idx' = idx2 := Option.some.inj (hrun.symm.trans hr2)
    exact fun j hj => ⟨hall j hj,(hf j).mp (hsr j hj)⟩
  intro hcov
  obtain ⟨idx',hrun,hf⟩ := trainRun_runs idx first rest hivf hn hc (hr fun j hj => (hcov j hj).1)
  have hs := trainRun_shape hivf hc hrun
  refine ⟨idx',hrun,?_⟩
  rw [searchable_iff,hs.nlist,hs.dim]
  exact fun j hj => (hf j).mpr (hcov j hj).2

theorem covers_alloc (hn : 0 < idx.nlist) :
    idx.Covers (.alloc (idx.trainedLists first) idx.dim.toNat) (first :: rest) ↔
      idx.dim = 0 ∨ (idx.nlist ≤ first.count ∧ idx.nlist.toNat*idx.dim.toNat < 2^32) := by
  have hnp : 0 < idx.nlist.toNat := UInt32.lt_iff_toNat_lt.mp hn
  have hnn : ∀ j, ¬ Filled (CentroidStore.alloc (idx.trainedLists first) idx.dim.toNat).cells j := by
    rintro j ⟨a,ha⟩
    simp only [CentroidStore.alloc,getElem?_replicate] at ha
    split at ha <;> simp at ha
  have hlen : (CentroidStore.alloc (idx.trainedLists first) idx.dim.toNat).cells.length =
      mul32 (idx.trainedLists first) idx.dim.toNat := length_replicate
  unfold Covers
  simp only [hnn,false_or,hlen]
  constructor
  · intro h
    by_cases hd : idx.dim = 0
    · exact .inl hd
    have hdp : 0 < idx.dim.toNat := Nat.pos_of_ne_zero fun h => hd (UInt32.toNat_inj.mp h)
    have hpos : 0 < idx.nlist.toNat*idx.dim.toNat := mul_pos hnp hdp
    have hl := (h (idx.nlist.toNat*idx.dim.toNat-1) (by omega)).1
    have hcut : mul32 (idx.trainedLists first) idx.dim.toNat ≤
        idx.trainedLists first*idx.dim.toNat := Nat.mod_le _ _
    have hlt := mul32_lt (idx.trainedLists first) idx.dim.toNat
    have hmul : idx.nlist.toNat*idx.dim.toNat ≤ idx.trainedLists first*idx.dim.toNat := by omega
    have hle : idx.nlist.toNat ≤ idx.trainedLists first := Nat.le_of_mul_le_mul_right hmul hdp
    right
    refine ⟨UInt32.le_iff_toNat_le.mpr ?_,by omega⟩
    simp only [trainedLists] at hle
    omega
  rintro (hd | ⟨hle,hlt⟩) j hj
  · simp [hd] at hj
  have ht : idx.trainedLists first = idx.nlist.toNat :=
    min_eq_left (UInt32.le_iff_toNat_le.mp hle)
  rw [ht,mul32,Nat.mod_eq_of_lt hlt]
  exact ⟨hj,first,mem_cons_self,by rw [ht]; exact hj⟩

end

theorem trainedSafely_iff (idx : VecIndex) (first : TrainCall) (rest : List TrainCall)
    (hivf : idx.type = vecindexIvf) (hn : 0 < idx.nlist)
    (hcount : ∀ call ∈ first :: rest, call.count ≠ 0) :
    idx.TrainedSafely (first :: rest) ↔ match idx.centroids with
      | none => idx.dim = 0 ∨ (idx.nlist ≤ first.count ∧ idx.nlist.toNat*idx.dim.toNat < 2^32)
      | some store => ∀ j < idx.nlist.toNat*idx.dim.toNat, j < store.cells.length ∧
          (Filled store.cells j ∨
            ∃ call ∈ first :: rest, j < min idx.nlist.toNat call.count.toNat*idx.dim.toNat) := by
  rw [trainedSafely_covers idx first rest hivf hn hcount]
  unfold storeFor
  cases hc : idx.centroids with
  | none => exact covers_alloc idx first rest hn
  | some store => exact Iff.rfl

def fresh (dim : UInt32) : VecIndex :=
  ⟨vecindexIvf,vecdistL2,dim,[],none,some (List.replicate 64 []),ivfDefaultNlist,ivfDefaultNprobe,
    false⟩

theorem fresh_created (dim : UInt32) : create dim vecindexIvf vecdistL2 true true = some (fresh dim) :=
  rfl

theorem trainedSafely_fresh :
    (fresh 2).TrainedSafely [⟨fun k => k.toInt8,64⟩,⟨fun k => k.toInt8,1⟩] := by
  refine (trainedSafely_iff (fresh 2) ⟨fun k => k.toInt8,64⟩ [⟨fun k => k.toInt8,1⟩] rfl
    (by decide) ?_).mpr (.inr ⟨by decide,by decide⟩)
  simp

theorem trained_on_one :
    ((fresh 1).trainRun [⟨fun _ => 5,1⟩]).map (fun idx => (idx.cells,idx.centroid 1)) =
        some ([some 5],none) ∧
      ¬ (fresh 1).TrainedSafely [⟨fun _ => 5,1⟩] := by
  have hrun : ((fresh 1).trainRun [⟨fun _ => 5,1⟩]).map
      (fun idx => (idx.cells,idx.nlist,idx.centroid 1)) = some ([some 5],64,none) := by
    decide +kernel
  refine ⟨?_,?_⟩
  · decide +kernel
  rintro ⟨idx,hidx,hsearch⟩
  rw [hidx] at hrun
  simp only [Option.map_some,Option.some.injEq,Prod.mk.injEq] at hrun
  obtain ⟨_,hnlist,hnone⟩ := hrun
  have := hsearch 1 (by rw [hnlist]; decide)
  simp [hnone] at this

end VecIndex
end AevOS.VecSearch
