import AevOS.VecIndexImage
import AevOS.ChainBuckets

/-! Saving and loading a vector index. -/

namespace AevOS.VecSearch
open Wire ArrayPrefix Cells Chains Runs List
open Option (bind_some map_some getD_some some.inj isSome_iff_exists)

variable {idx : VecIndex} {store : CentroidStore}

namespace VecIndex

section
variable (es : List VecEntry) (idx : VecIndex)

@[simp] theorem header_length (count : Nat) : (idx.header count).length = 24 := by
  simp [header]

theorem ofNat_leValue_leBytes (x : UInt32) : UInt32.ofNat (leValue (leBytes 4 x.toNat)) = x := by
  rw [leValue_word32]
  exact UInt32.ofNat_toNat

theorem header_fields (count : Nat) (tail : Bytes) (hcn : count < 2^32) :
    field32 (idx.header count ++ tail) 0 = vecindexMagic ∧
      field32 (idx.header count ++ tail) 4 = idx.type ∧ field32 (idx.header count ++ tail) 8 = idx.dist ∧
      field32 (idx.header count ++ tail) 12 = idx.dim ∧
      (field32 (idx.header count ++ tail) 16).toNat = count ∧
      field32 (idx.header count ++ tail) 20 = idx.nlist := by
  have hc : (UInt32.ofNat count).toNat = count := by
    rw [UInt32.toNat_ofNat']
    exact Nat.mod_eq_of_lt hcn
  simp only [field32,header,append_assoc]
  simp (disch := simp) only [slice_append_right,slice_front,leBytes_length,Nat.reduceSub]
  refine ⟨ofNat_leValue_leBytes _,ofNat_leValue_leBytes _,ofNat_leValue_leBytes _,
    ofNat_leValue_leBytes _,?_,ofNat_leValue_leBytes _⟩
  rw [← hc,ofNat_leValue_leBytes]

def addEntry (idx : VecIndex) (e : VecEntry) : Option VecIndex :=
  (if idx.type = vecindexFlat then some (idx.flatAdd e.id e.vec true)
    else idx.ivfAdd e.id e.vec true).map Prod.snd

theorem entryBytes_length {e : VecEntry} {dim : Nat} (h : e.vec.length = dim) :
    (entryBytes e).length = 8+dim := by
  simp [entryBytes,h]

theorem entry_id (e : VecEntry) (pre tail : Bytes) :
    UInt64.ofNat (leValue (slice (pre ++ (entryBytes e ++ tail)) pre.length 8)) = e.id := by
  rw [slice_append_right _ _ (le_refl _),Nat.sub_self,entryBytes,append_assoc,
    slice_front _ (leBytes_length 8 _),leValue_word64]
  exact UInt64.ofNat_toNat

theorem entry_vec (e : VecEntry) (pre tail : Bytes) :
    firsts (fun d => (byteAt (pre ++ (entryBytes e ++ tail)) (pre.length+8+d)).toInt8)
      e.vec.length = e.vec := by
  apply ext_getElem
  · simp
  intro d hd hd'
  have hb : byteAt (pre ++ (entryBytes e ++ tail)) (pre.length+8+d) = (e.vec[d]).toUInt8 := by
    rw [byteAt_append_right (by omega),show pre.length+8+d-pre.length = 8+d by omega,
      entryBytes,append_assoc,byteAt_append_right (by simp),leBytes_length,
      show 8+d-8 = d by omega,byteAt_append_left (by simpa using hd'),
      byteAt_of_lt (by simpa using hd')]
    simp
  simp only [firsts,getElem_map,getElem_range]
  rw [hb]
  simp

theorem loadEntries_eq (pre rest : Bytes) (i : Nat) (idx : VecIndex)
    (hvec : ∀ e ∈ es, e.vec.length = idx.dim.toNat) :
    loadEntries (pre ++ (es.flatMap entryBytes ++ rest)) (fun _ => true) es.length i pre.length idx =
      es.foldlM addEntry idx := by
  induction es generalizing pre i idx with
  | nil => rfl
  | cons e es ih =>
    obtain ⟨he,hes⟩ := forall_mem_cons.mp hvec
    have hlen := entryBytes_length he
    have hrm : ¬ (pre ++ ((e :: es).flatMap entryBytes ++ rest)).length <
        pre.length+8+idx.dim.toNat := by
      simp only [flatMap_cons,length_append,hlen]
      omega
    rw [length_cons,loadEntries,if_neg hrm]
    simp only [flatMap_cons,append_assoc]
    rw [entry_id]
    have hadd : idx.add e.id
        (fun d => (byteAt (pre ++ (entryBytes e ++ (es.flatMap entryBytes ++ rest)))
          (pre.length+8+d)).toInt8) true =
        if idx.type = vecindexFlat then some (idx.flatAdd e.id e.vec true)
        else idx.ivfAdd e.id e.vec true := by
      rw [add,← he,entry_vec]
    rw [foldlM_cons,addEntry,← hadd]
    cases hr : idx.add e.id (fun d => (byteAt (pre ++ (entryBytes e ++
        (es.flatMap entryBytes ++ rest))) (pre.length+8+d)).toInt8) true with
    | none => rfl
    | some r =>
      have hdim := (add_shape hr).dim
      have := ih (pre ++ entryBytes e) (i+1) r.2 (fun x hx => by rw [hdim]; exact hes x hx)
      simp only [length_append,hlen,append_assoc] at this
      simp only [bind_some,map_some,Option.bind_eq_bind]
      rw [← this,add_assoc]

theorem foldlM_addEntry_flat (hf : idx.type = vecindexFlat) :
    es.foldlM addEntry idx = some { idx with flat := idx.flat ++ es } := by
  induction es generalizing idx with
  | nil => simp
  | cons e es ih =>
    rw [foldlM_cons,addEntry,if_pos hf]
    have := ih { idx with flat := idx.flat ++ [e] } hf
    simpa [flatAdd] using this

theorem foldlM_addEntry_ivf (ls : List (List VecEntry)) (place : VecEntry → Nat)
    (hivf : idx.type ≠ vecindexFlat) (ht : idx.trained = true) (hls : idx.lists = some ls)
    (hp : ∀ e ∈ es, idx.findNearestCentroid e.vec = some (place e) ∧ place e < ls.length) :
    es.foldlM addEntry idx = some { idx with lists := some (appendAll place es ls) } := by
  induction es generalizing idx ls with
  | nil => simp [appendAll,← hls]
  | cons e es ih =>
    obtain ⟨⟨hn,hlt⟩,hes⟩ := forall_mem_cons.mp hp
    have hl : idx.listAt (place e) = some ls[place e] := by
      simp [listAt,hls,hlt]
    have hadd : idx.addEntry e =
        some { idx with lists := some (ls.modify (place e) (· ++ [e])) } := by
      rw [addEntry,if_neg hivf,ivfAdd]
      simp [ht,hn,hl,hls]
    rw [foldlM_cons,hadd]
    have := ih { idx with lists := some (ls.modify (place e) (· ++ [e])) }
      (ls.modify (place e) (· ++ [e])) hivf ht rfl (fun x hx => by
        rw [length_modify]
        exact hes x hx)
    simpa [appendAll] using this

end

theorem centroidBytes_row {row : List Int8} (hivf : idx.type = vecindexIvf)
    (hs : idx.centroids = some store) (hrow : store.cells = row.map some)
    (hlen : row.length = mul32 idx.nlist.toNat idx.dim.toNat) :
    idx.centroidBytes = some (row.map Int8.toUInt8) := by
  rw [centroidBytes,if_pos ⟨hivf,by simp [hs]⟩,← hlen]
  simp only [cells,hs,map_some,getD_some,hrow,readCells_all]

theorem loadStore_row {front : Bytes} (hf : front.length = 24) (row : List Int8) (tail : Bytes)
    {a b : Nat} (hlen : row.length = mul32 a b) :
    (loadStore (front ++ (row.map Int8.toUInt8 ++ tail)) a b).cells = row.map some := by
  simp only [loadStore]
  rw [slice_append_right _ _ (by omega),hf,Nat.sub_self,slice_front _ (by simpa using hlen)]
  simp [Function.comp_def]

structure SameIndex (idx idx' : VecIndex) : Prop where
  type : idx'.type = idx.type
  dist : idx'.dist = idx.dist
  dim : idx'.dim = idx.dim
  trained : idx'.trained = idx.trained
  entries : idx'.entries = idx.entries
  search : ∀ query k mem, idx'.search query k mem = idx.search query k mem

def RoundTrip (idx : VecIndex) : Prop :=
  ∃ count bytes, idx.count = some count ∧ (∀ size, idx.needed count ≤ size → bytes.length ≤ size →
      idx.serialize size = some (.ok bytes)) ∧
    ∀ rest, ∃ idx', deserialize (bytes ++ rest) plenty = some (some idx') ∧ idx.SameIndex idx'

theorem roundTrip_of_loaded {idx : VecIndex} {count : Nat} {centroids : Bytes} {es : List VecEntry}
    (hc : idx.count = some count) (hcn : idx.centroidBytes = some centroids) (he : idx.entries = some es)
    (hl : ∀ rest, deserialize (idx.header count ++ (centroids ++ (es.flatMap entryBytes ++ rest)))
      plenty = some (some idx)) : idx.RoundTrip := by
  refine ⟨count,idx.header count ++ centroids ++ es.flatMap entryBytes,hc,?_,?_⟩
  · intro size hn hr
    rw [serialize,hc,bind_some,if_neg (by omega),hcn,bind_some,he,bind_some]
    exact if_neg (by omega)
  · intro rest
    refine ⟨idx,?_,rfl,rfl,rfl,rfl,rfl,fun _ _ _ => rfl⟩
    simpa only [append_assoc] using hl rest

structure FlatSound (idx : VecIndex) : Prop where
  type : idx.type = vecindexFlat
  centroids : idx.centroids = none
  lists : idx.lists = none
  nlist : idx.nlist = 0
  nprobe : idx.nprobe = 0
  trained : idx.trained = false
  vecs : ∀ e ∈ idx.flat, e.vec.length = idx.dim.toNat

theorem deserialize_flat (buf : Bytes) (hlen : 24 ≤ buf.length)
    (hm : field32 buf 0 = vecindexMagic) (ht : field32 buf 4 = vecindexFlat) :
    deserialize buf plenty = (loadEntries buf (fun _ => true) (field32 buf 16).toNat 0 24
      ⟨vecindexFlat,field32 buf 8,field32 buf 12,[],none,none,0,0,false⟩).map some := by
  unfold deserialize
  rw [if_neg (by omega),if_neg (by simpa using hm)]
  simp only [ht]
  rfl

theorem FlatSound.roundTrip (h : idx.FlatSound) (hlt : idx.flat.length < 2^32) : idx.RoundTrip := by
  have hcn : idx.count = some idx.flat.length := by simp [VecIndex.count,h.type]
  have he : idx.entries = some idx.flat := by simp [VecIndex.entries,h.type]
  have hct : idx.centroidBytes = some [] := by
    rw [centroidBytes,if_neg (by simp [h.centroids])]
  apply roundTrip_of_loaded hcn hct he
  intro rest
  rw [nil_append]
  obtain ⟨hm,hty,hd,hdim,hnum,_⟩ :=
    idx.header_fields idx.flat.length (idx.flat.flatMap entryBytes ++ rest) hlt
  rw [deserialize_flat _ (by simp) hm (hty.trans h.type),hd,hdim,hnum]
  have hld := loadEntries_eq idx.flat (idx.header idx.flat.length) rest 0
    ⟨vecindexFlat,idx.dist,idx.dim,[],none,none,0,0,false⟩ h.vecs
  rw [header_length] at hld
  rw [hld,foldlM_addEntry_flat _ _ rfl]
  simp only [map_some,nil_append]
  congr 2
  obtain ⟨ht,hc,hl,hn,hp,htr,_⟩ := h
  cases idx
  simp_all

def place (idx : VecIndex) (e : VecEntry) : Nat := (idx.findNearestCentroid e.vec).getD 0

structure IvfSound (idx : VecIndex) (ls : List (List VecEntry)) : Prop where
  type : idx.type = vecindexIvf
  flat : idx.flat = []
  nlist : idx.nlist = ivfDefaultNlist
  nprobe : idx.nprobe = ivfDefaultNprobe
  lists : idx.lists = some ls
  length : ls.length = 64
  placed : Placed idx.place ls
  vecs : ∀ e ∈ ls.flatten, e.vec.length = idx.dim.toNat
  stored : ∀ store, idx.centroids = some store →
    store.cells.length = 64*idx.dim.toNat ∧ ∀ j < 64*idx.dim.toNat, Filled store.cells j
  trained : idx.trained = true → idx.centroids.isSome = true

section Ivf

variable {idx : VecIndex} {ls : List (List VecEntry)}

section
variable (h : idx.IvfSound ls)
include h

theorem IvfSound.nlist_toNat : idx.nlist.toNat = 64 := by
  rw [h.nlist]
  rfl

theorem IvfSound.type_ne : idx.type ≠ vecindexFlat := by
  rw [h.type]
  decide

theorem IvfSound.usable : idx.Usable where
  lists := by
    intro ls' hls'
    obtain rfl : ls = ls' := some.inj (h.lists.symm.trans hls')
    rw [h.nlist_toNat,h.length]
  trained := by
    intro ht
    obtain ⟨store,hs⟩ := isSome_iff_exists.mp (h.trained ht)
    refine ⟨?_,by rw [h.nlist]; decide,by simp [h.lists]⟩
    rw [searchable_iff,h.nlist_toNat]
    intro j hj
    simpa [cells,hs] using (h.stored store hs).2 j hj

theorem IvfSound.nearest (ht : idx.trained = true) (e : VecEntry) :
    idx.findNearestCentroid e.vec = some (idx.place e) ∧ idx.place e < 64 := by
  obtain ⟨hs,hn,_⟩ := h.usable.trained ht
  obtain ⟨c,hc,hnr⟩ := nearest_isSome e.vec idx.centroid idx.nlist.toNat
    (UInt32.lt_iff_toNat_lt.mp hn) hs
  have hp : idx.place e = c := by simp [place,findNearestCentroid,hnr]
  rw [hp]
  exact ⟨hnr,h.nlist_toNat ▸ hc⟩

theorem IvfSound.allLists : (List.range idx.nlist.toNat).mapM idx.listAt = some ls := by
  have hl : idx.listAt = fun c => ls[c]? := by
    funext c
    simp [VecIndex.listAt,h.lists]
  rw [hl,h.nlist_toNat,← h.length]
  exact mapM_getElem? ls

theorem IvfSound.entries : idx.entries = some ls.flatten := by
  rw [VecIndex.entries,if_neg h.type_ne,h.allLists]
  rfl

theorem IvfSound.count (hlt : ls.flatten.length < 2^32) : idx.count = some ls.flatten.length := by
  rw [VecIndex.count,if_neg h.type_ne,h.allLists,map_some,← length_flatten,Nat.mod_eq_of_lt hlt]

theorem IvfSound.stored_mul32 (hs : idx.centroids = some store) :
    mul32 idx.nlist.toNat idx.dim.toNat = 64*idx.dim.toNat := by
  have hlen := (h.stored store hs).1
  have hlt := store.cells_lt
  rw [h.nlist_toNat,mul32,Nat.mod_eq_of_lt (by omega)]

theorem IvfSound.roundTrip (ht : idx.trained = true)
    (hlt : ls.flatten.length < 2^32) : idx.RoundTrip := by
  obtain ⟨store,hs⟩ := isSome_iff_exists.mp (h.trained ht)
  obtain ⟨hsl,hf⟩ := h.stored store hs
  obtain ⟨row,hrow⟩ := exists_row_of_filled (hsl ▸ hf)
  have hmul := h.stored_mul32 hs
  have hr : row.length = mul32 idx.nlist.toNat idx.dim.toNat := by
    rw [hmul,← hsl,hrow,length_map]
  apply roundTrip_of_loaded (h.count hlt) (centroidBytes_row h.type hs hrow hr) h.entries
  intro rest
  obtain ⟨hm,hty,hd,hdim,hnum,hn⟩ := idx.header_fields ls.flatten.length
    (row.map Int8.toUInt8 ++ (ls.flatten.flatMap entryBytes ++ rest)) hlt
  generalize hbuf : idx.header ls.flatten.length ++
    (row.map Int8.toUInt8 ++ (ls.flatten.flatMap entryBytes ++ rest)) = buf
    at hm hty hd hdim hnum hn ⊢
  have hrm : 24+mul32 idx.nlist.toNat idx.dim.toNat ≤ buf.length := by
    simp only [← hbuf,length_append,header_length,length_map,hr]
    omega
  rw [deserialize_ivf buf plenty (by omega) hm (hty.trans h.type)
    (by rw [hn,h.nlist]; decide) rfl rfl]
  simp only [hnum,hn,hdim,plenty,if_true]
  rw [if_pos (.inr hrm)]
  -- the target has the saved index's centroids and no entries yet
  have hsm : loadStore buf idx.nlist.toNat idx.dim.toNat = store := by
    apply CentroidStore.ext_cells
    rw [← hbuf,loadStore_row (header_length _ _) row _ hr,hrow]
  have htr : loadTarget buf (some (loadStore buf idx.nlist.toNat idx.dim.toNat)) =
      { idx with lists := some (replicate 64 []) } := by
    rw [hsm,loadTarget,hd,hdim,hn,← hs,← h.type,← h.flat,← h.nprobe,← ht]
  have hl := loadEntries_eq ls.flatten (idx.header ls.flatten.length ++ row.map Int8.toUInt8) rest 0
    { idx with lists := some (replicate 64 []) } h.vecs
  rw [length_append,header_length,length_map,hr,append_assoc,hbuf] at hl
  have hfl := foldlM_addEntry_ivf ls.flatten { idx with lists := some (replicate 64 []) }
    (replicate 64 []) idx.place h.type_ne ht rfl
    (fun e _ => by rw [length_replicate]; exact h.nearest ht e)
  have hls := h.placed.appendAll_flatten
  rw [h.length] at hls
  rw [htr,hl,hfl,hls,← h.lists]
  rfl

theorem IvfSound.trained_of_roundTrip (hlt : ls.flatten.length < 2^32)
    (hr : idx.RoundTrip) : idx.trained = true := by
  obtain ⟨count,bytes,hc,hs,hl⟩ := hr
  obtain rfl : ls.flatten.length = count := some.inj ((h.count hlt).symm.trans hc)
  obtain ⟨idx',hi',hsm⟩ := hl []
  rw [append_nil] at hi'
  have hw := hs (max (idx.needed ls.flatten.length) bytes.length) (le_max_left _ _)
    (le_max_right _ _)
  rw [serialize,hc,bind_some,if_neg (by omega)] at hw
  obtain ⟨centroids,hcn,hw⟩ := Option.bind_eq_some_iff.mp hw
  rw [h.entries,bind_some] at hw
  dsimp only at hw
  split at hw
  · cases hw
  obtain rfl : _ = bytes := Except.ok.inj (some.inj hw)
  rw [append_assoc] at hi'
  obtain ⟨hm,ht,_,_,_,hn⟩ := idx.header_fields ls.flatten.length
    (centroids ++ ls.flatten.flatMap entryBytes) hlt
  rw [deserialize_ivf _ plenty (by simp) hm (ht.trans h.type)
    (by rw [hn,h.nlist]; decide) rfl rfl] at hi'
  simp only [plenty,if_true] at hi'
  split at hi'
  · obtain ⟨idx2,he,hi2⟩ := Option.map_eq_some_iff.mp hi'
    obtain rfl := some.inj hi2
    rw [← hsm.trained]
    exact (loadEntries_shape he).trained
  · cases hi'

theorem IvfSound.modify (c : Nat) (f : List VecEntry → List VecEntry)
    (hf : ∀ l, ∀ e ∈ f l, e ∈ l ∨ (idx.place e = c ∧ e.vec.length = idx.dim.toNat)) :
    IvfSound { idx with lists := some (ls.modify c f) } (ls.modify c f) where
  type := h.type
  flat := h.flat
  nlist := h.nlist
  nprobe := h.nprobe
  lists := rfl
  length := by rw [length_modify,h.length]
  placed := h.placed.modify c fun l e he => (hf l e he).imp_right And.left
  vecs := by
    intro e he
    rcases mem_flatten_modify he with hold | ⟨l,hl,hmem⟩
    · exact h.vecs e hold
    · rcases hf l e hmem with hold | ⟨_,hlen⟩
      · exact h.vecs e (mem_flatten.mpr ⟨l,mem_of_getElem? hl,hold⟩)
      · exact hlen
  stored := h.stored
  trained := h.trained

theorem IvfSound.add (id : UInt64) (vec : Nat → Int8) (mem : Bool) :
    ∃ r, idx.add id vec mem = some r ∧ ∃ ls', r.2.IvfSound ls' := by
  rw [VecIndex.add,if_neg h.type_ne,ivfAdd]
  split
  · exact ⟨_,rfl,ls,h⟩
  rename_i hnot
  have ht : idx.trained = true := by simpa using hnot
  obtain ⟨hn,hlt⟩ := h.nearest ht ⟨id,firsts vec idx.dim.toNat⟩
  have hls := h.usable.listAt (by simp [h.lists]) (h.nlist_toNat ▸ hlt)
  obtain ⟨l,hl⟩ := isSome_iff_exists.mp hls
  rw [hn,bind_some,hl,bind_some,h.lists]
  split
  · refine ⟨_,rfl,_,h.modify (idx.place (VecEntry.mk id (firsts vec idx.dim.toNat)))
      (· ++ [VecEntry.mk id (firsts vec idx.dim.toNat)]) ?_⟩
    intro l e he
    rcases mem_append.mp he with hold | hnew
    · exact .inl hold
    · obtain rfl := mem_singleton.mp hnew
      exact .inr ⟨rfl,firsts_length _ _⟩
  · exact ⟨_,rfl,ls,h⟩

theorem IvfSound.findList (id : UInt64) (k c : Nat) (hk : c+k ≤ 64) :
    ∃ found, idx.findList id k c = some found := by
  induction k generalizing c with
  | zero => exact ⟨none,rfl⟩
  | succ k ih =>
    have hls := h.usable.listAt (by simp [h.lists]) (show c < idx.nlist.toNat by
      rw [h.nlist_toNat]
      omega)
    obtain ⟨l,hl⟩ := isSome_iff_exists.mp hls
    rw [VecIndex.findList,hl,bind_some]
    split
    · exact ⟨some c,rfl⟩
    · exact ih (c+1) (by omega)

theorem IvfSound.remove (id : UInt64) : ∃ r, idx.remove id = some r ∧ ∃ ls', r.2.IvfSound ls' := by
  obtain ⟨found,hf⟩ := h.findList id idx.nlist.toNat 0 (by rw [h.nlist_toNat])
  rw [VecIndex.remove,if_neg h.type_ne,hf,map_some]
  cases found with
  | none => exact ⟨_,rfl,ls,h⟩
  | some c =>
    refine ⟨_,rfl,ls.modify c (·.eraseP (fun e => e.id == id)),?_⟩
    simp only [h.lists,map_some]
    exact h.modify c _ fun l e he => .inl (mem_of_mem_eraseP he)

theorem IvfSound.withStore (hem : ls.flatten = []) (store : CentroidStore)
    (t : Bool) (hlen : store.cells.length = 64*idx.dim.toNat)
    (hf : ∀ j < 64*idx.dim.toNat, Filled store.cells j) :
    IvfSound { idx with centroids := some store, trained := t } ls where
  type := h.type
  flat := h.flat
  nlist := h.nlist
  nprobe := h.nprobe
  lists := h.lists
  length := h.length
  placed := by
    intro c l hl e he
    have hmem : e ∈ ls.flatten := mem_flatten.mpr ⟨l,mem_of_getElem? hl,he⟩
    rw [hem] at hmem
    cases hmem
  vecs := h.vecs
  stored := by
    intro store' hs'
    obtain rfl := some.inj hs'
    exact ⟨hlen,hf⟩
  trained := fun _ => rfl

end

def TrainSafe (idx : VecIndex) (count : UInt32) : Prop :=
  idx.type = vecindexIvf → count ≠ 0 → idx.entries = some [] ∧ (idx.centroids = none →
    idx.dim = 0 ∨ (idx.nlist ≤ count ∧ idx.nlist.toNat*idx.dim.toNat < 2^32))

theorem IvfSound.storeFor (h : idx.IvfSound ls) (call : TrainCall) (hf : idx.centroids = none →
      idx.dim = 0 ∨ (idx.nlist ≤ call.count ∧ idx.nlist.toNat*idx.dim.toNat < 2^32)) :
    (idx.storeFor call).cells.length = 64*idx.dim.toNat ∧ ∀ j < 64*idx.dim.toNat,
      j < idx.trainedLists call*idx.dim.toNat ∨ Filled (idx.storeFor call).cells j := by
  cases hc : idx.centroids with
  | some store =>
    obtain ⟨hlen,hfl⟩ := h.stored store hc
    simp only [VecIndex.storeFor,hc,getD_some]
    exact ⟨hlen,fun j hj => .inr (hfl j hj)⟩
  | none =>
    simp only [VecIndex.storeFor,hc,Option.getD_none,CentroidStore.alloc,length_replicate]
    rcases hf hc with hd | ⟨hle,hlt⟩
    · simp [hd,mul32]
    have hl : idx.trainedLists call = 64 := by
      rw [trainedLists,min_eq_left (UInt32.le_iff_toNat_le.mp hle),h.nlist_toNat]
    rw [h.nlist_toNat] at hlt
    rw [hl,mul32,Nat.mod_eq_of_lt hlt]
    exact ⟨rfl,fun j hj => .inl hj⟩

theorem IvfSound.train (h : idx.IvfSound ls) (vecs : Nat → Int8) (count : UInt32) (mem : TrainMem)
    (hs : idx.TrainSafe count) : ∃ r, idx.train vecs count mem = some r ∧ ∃ ls', r.2.IvfSound ls' := by
  by_cases hc : count = 0
  · exact ⟨_,by rw [VecIndex.train,if_pos (.inl hc)],ls,h⟩
  obtain ⟨hen,hf⟩ := hs h.type hc
  have he : ls.flatten = [] := some.inj (h.entries.symm.trans hen)
  have heq := train_eq idx ⟨vecs,count⟩ mem h.type hc
  have hpos := idx.trainedLists_pos ⟨vecs,count⟩ (by rw [h.nlist]; decide) hc
  obtain ⟨hlen,hr⟩ := h.storeFor ⟨vecs,count⟩ hf
  have hle := idx.trainedLists_mul_le ⟨vecs,count⟩
  rw [h.nlist_toNat,← hlen] at hle
  obtain ⟨store1,h1,hf1⟩ := seed_runs vecs (idx.storeFor ⟨vecs,count⟩) hle
  have hl1 := seed_length h1
  obtain ⟨store2,h2,hl2,hf2⟩ := rounds_runs vecs count.toNat store1 hpos
    (by rw [hl1]; exact hle) (fun j hj => (hf1 j).mpr (.inl hj))
  have hall : ∀ j < 64*idx.dim.toNat, Filled store1.cells j :=
    fun j hj => (hf1 j).mpr (hr j hj)
  rw [heq]
  split
  · exact ⟨_,rfl,ls,h⟩
  rw [h1,bind_some]
  split
  · exact ⟨_,rfl,ls,h.withStore he store1 idx.trained (hl1.trans hlen) hall⟩
  · rw [h2,map_some]
    exact ⟨_,rfl,ls,h.withStore he store2 true (hl2.trans (hl1.trans hlen))
      fun j hj => (hf2 j).mpr (hall j hj)⟩

end Ivf

section Flat

variable {idx : VecIndex}

section
variable (h : idx.FlatSound)
include h

theorem FlatSound.withFlat (es : List VecEntry)
    (hv : ∀ e ∈ es, e.vec.length = idx.dim.toNat) : FlatSound { idx with flat := es } :=
  ⟨h.type,h.centroids,h.lists,h.nlist,h.nprobe,h.trained,hv⟩

theorem FlatSound.add (id : UInt64) (vec : Nat → Int8) (mem : Bool) :
    ∃ r, idx.add id vec mem = some r ∧ r.2.FlatSound := by
  rw [VecIndex.add,if_pos h.type,flatAdd]
  refine ⟨_,rfl,?_⟩
  split
  · apply h.withFlat
    intro e he
    rcases mem_append.mp he with hold | hnew
    · exact h.vecs e hold
    · obtain rfl := mem_singleton.mp hnew
      exact firsts_length _ _
  · exact h

theorem FlatSound.remove (id : UInt64) : ∃ r, idx.remove id = some r ∧ r.2.FlatSound := by
  rw [VecIndex.remove,if_pos h.type]
  split
  · exact ⟨_,rfl,h.withFlat _ fun e he => h.vecs e (mem_of_mem_eraseP he)⟩
  · exact ⟨_,rfl,h⟩

theorem FlatSound.train (vecs : Nat → Int8) (count : UInt32) (mem : TrainMem) :
    idx.train vecs count mem = some (some .einval,idx) := by
  rw [VecIndex.train,if_pos (.inr (by rw [h.type]; decide))]

end

end Flat

inductive Op where
  | train (vecs : Nat → Int8) (count : UInt32) (mem : TrainMem)
  | add (id : UInt64) (vec : Nat → Int8) (mem : Bool)
  | remove (id : UInt64)

def step (idx : VecIndex) : Op → Option VecIndex
  | .train vecs count mem => (idx.train vecs count mem).map Prod.snd
  | .add id vec mem => (idx.add id vec mem).map Prod.snd
  | .remove id => (idx.remove id).map Prod.snd

def OpSafe (idx : VecIndex) : Op → Prop
  | .train _ count _ => idx.TrainSafe count
  | _ => True

def Sound (idx : VecIndex) : Prop := idx.FlatSound ∨ ∃ ls, idx.IvfSound ls

theorem create_sound {dim type dist : UInt32} {mem memLists : Bool}
    (ht : type = vecindexFlat ∨ type = vecindexIvf)
    (h : create dim type dist mem memLists = some idx) : idx.Sound := by
  rcases ht with rfl | rfl
  · left
    cases mem with
    | false => cases h
    | true =>
      obtain rfl := some.inj h
      exact ⟨rfl,rfl,rfl,rfl,rfl,rfl,by simp⟩
  right
  rw [create_ivf] at h
  split at h
  · obtain rfl := some.inj h
    exact ⟨_,rfl,rfl,rfl,rfl,rfl,length_replicate,placed_replicate_nil _ 64,by simp,by simp,by simp⟩
  · cases h

theorem step_sound (idx : VecIndex) (op : Op) (h : idx.Sound) (hsf : idx.OpSafe op) :
    ∃ idx', idx.step op = some idx' ∧ idx'.Sound := by
  have hmap : ∀ {o : Option (Option Errno × VecIndex)} {r : Option Errno × VecIndex},
      o = some r → r.2.Sound → ∃ idx', o.map Prod.snd = some idx' ∧ idx'.Sound := by
    rintro _ r rfl hr
    exact ⟨r.2,rfl,hr⟩
  rcases h with h | ⟨ls,h⟩
  · cases op with
    | train vecs count mem => exact hmap (h.train vecs count mem) (.inl h)
    | add id vec mem =>
      obtain ⟨r,hr,hs⟩ := h.add id vec mem
      exact hmap hr (.inl hs)
    | remove id =>
      obtain ⟨r,hr,hs⟩ := h.remove id
      exact hmap hr (.inl hs)
  cases op with
  | train vecs count mem =>
    obtain ⟨r,hr,hs⟩ := h.train vecs count mem hsf
    exact hmap hr (.inr hs)
  | add id vec mem =>
    obtain ⟨r,hr,hs⟩ := h.add id vec mem
    exact hmap hr (.inr hs)
  | remove id =>
    obtain ⟨r,hr,hs⟩ := h.remove id
    exact hmap hr (.inr hs)

theorem Sound.roundTrip_iff (h : idx.Sound) (hlt : ∀ es, idx.entries = some es → es.length < 2^32) :
    idx.RoundTrip ↔ (idx.type = vecindexIvf → idx.trained = true) := by
  rcases h with h | ⟨ls,h⟩
  · have he : idx.entries = some idx.flat := by simp [entries,h.type]
    have hne : idx.type ≠ vecindexIvf := by
      rw [h.type]
      decide
    exact iff_of_true (h.roundTrip (hlt _ he)) fun hivf => absurd hivf hne
  · have hlt := hlt _ h.entries
    exact ⟨fun hr _ => h.trained_of_roundTrip hlt hr,fun ht => h.roundTrip (ht h.type) hlt⟩

theorem history_roundTrip {dim type dist : UInt32} {mem memLists : Bool} {new : VecIndex}
    (htype : type = vecindexFlat ∨ type = vecindexIvf)
    (hnew : create dim type dist mem memLists = some new) (ops : List Op)
    (hsafe : AlongM step OpSafe new ops) :
    ∃ idx, ops.foldlM step new = some idx ∧ ((∀ es, idx.entries = some es → es.length < 2^32) →
      (idx.RoundTrip ↔ (idx.type = vecindexIvf → idx.trained = true))) := by
  obtain ⟨idx,hrun,hsound⟩ := alongM_runs step_sound (create_sound htype hnew) hsafe
  exact ⟨idx,hrun,hsound.roundTrip_iff⟩

theorem history_roundTrip_one :
    (∃ idx, [Op.train (fun k => k.toInt8) 64 ⟨true,true⟩,.add 7 (fun _ => 3) true].foldlM step
        (fresh 1) = some idx ∧ ((∀ es, idx.entries = some es → es.length < 2^32) →
          (idx.RoundTrip ↔ (idx.type = vecindexIvf → idx.trained = true)))) ∧
      RoundTrip ⟨vecindexFlat,vecdistL2,2,[⟨7,[3,3]⟩],none,none,0,0,false⟩ := by
  constructor
  · refine history_roundTrip (.inr rfl) (fresh_created 1) _ ⟨?_,fun _ _ => ⟨trivial,?_⟩⟩
    · intro _ _
      exact ⟨by decide +kernel,fun _ => .inr ⟨by decide,by decide⟩⟩
    · exact fun _ _ => trivial
  obtain ⟨idx,hrun,hround⟩ := history_roundTrip (.inl rfl)
    (rfl : create 2 vecindexFlat vecdistL2 true true = some _) [.add 7 (fun _ => 3) true]
    ⟨trivial,fun _ _ => trivial⟩
  obtain rfl := some.inj hrun
  refine (hround ?_).mpr (by decide)
  intro es hes
  obtain rfl := some.inj hes
  decide

theorem untrained_not_loaded : ((fresh 1).serialize 24).map (fun r => r.toOption.map (fun bytes =>
      (bytes.length,(deserialize bytes plenty).isNone))) = some (some (24,true)) ∧
    ¬ (fresh 1).RoundTrip := by
  refine ⟨by decide +kernel,?_⟩
  intro hround
  have hnew : (fresh 1).Sound := create_sound (.inr rfl) (fresh_created 1)
  have hnone : (fresh 1).entries = some [] := by decide +kernel
  have ht := (hnew.roundTrip_iff fun es hes => by
    obtain rfl : [] = es := some.inj (hnone.symm.trans hes)
    decide).mp hround rfl
  cases ht

end VecIndex
end AevOS.VecSearch
