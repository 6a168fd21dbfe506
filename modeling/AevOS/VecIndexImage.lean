import AevOS.VecIndex

/-! Loading a saved vector index: which images can be loaded, searched and destroyed. -/

namespace AevOS.VecSearch
open Wire ArrayPrefix Cells List
open Option (isSome_iff_exists isSome_map bind_some map_eq_some_iff some.inj bind_eq_some_iff)

variable {idx idx' : VecIndex} {mem : Bool} {buf : Bytes} {centroids : Option CentroidStore}

namespace VecIndex

structure Usable (idx : VecIndex) : Prop where
  lists : ∀ ls, idx.lists = some ls → idx.nlist.toNat ≤ ls.length
  trained : idx.trained = true → idx.Searchable ∧ 0 < idx.nlist ∧ idx.lists.isSome = true

theorem Usable.listAt (h : idx.Usable) (hl : idx.lists.isSome = true) {c : Nat}
    (hc : c < idx.nlist.toNat) : (idx.listAt c).isSome = true := by
  obtain ⟨ls,hls⟩ := isSome_iff_exists.mp hl
  have hlen : c < ls.length := lt_of_lt_of_le hc (h.lists ls hls)
  simp [VecIndex.listAt,hls,hlen]

theorem Usable.destroy (h : idx.Usable) : idx.destroy.isSome = true := by
  unfold VecIndex.destroy
  cases hl : idx.lists with
  | none => rfl
  | some ls =>
    simp only [isSome_map]
    rw [isSome_mapM]
    intro c hc
    exact h.listAt (by simp [hl]) (mem_range.mp hc)

theorem argmin_lt (cdist : List Int32) (hpos : 0 < cdist.length) : argmin cdist < cdist.length := by
  unfold argmin
  have hr : ∀ c ∈ range' 1 (cdist.length-1), c < cdist.length := by
    intro c hc
    have := (mem_range'_1.mp hc).2
    omega
  generalize range' 1 (cdist.length-1) = l at hr
  generalize hb : 0 = b at hpos
  clear hb
  induction l generalizing b with
  | nil => exact hpos
  | cons c l ih =>
    apply ih
    · exact fun c hc => hr c (mem_cons_of_mem _ hc)
    dsimp only
    split
    · exact hr c mem_cons_self
    · exact hpos

theorem probes_lt (n : Nat) (cdist : List Int32) (hpos : 0 < cdist.length) :
    ∀ c ∈ probes n cdist, c < cdist.length := by
  induction n generalizing cdist with
  | zero => simp [probes]
  | succ n ih =>
    intro c hc
    rcases mem_cons.mp hc with rfl | hc
    · exact argmin_lt cdist hpos
    · have := ih (cdist.set (argmin cdist) 0x7FFFFFFF) (by simpa using hpos) c hc
      simpa using this

theorem Usable.ivfSearch (h : idx.Usable) (query : List Int8) (k : Nat) (mem : SearchMem) :
    (idx.ivfSearch query k mem).isSome = true := by
  unfold VecIndex.ivfSearch
  split
  · rfl
  split
  · rfl
  rename_i hgo _
  have ht : idx.trained = true := by
    by_contra ht
    exact hgo (.inl (by simpa using ht))
  obtain ⟨hs,hn,hl⟩ := h.trained ht
  have hpos : 0 < idx.nlist.toNat := UInt32.lt_iff_toNat_lt.mp hn
  have hr : ((List.range idx.nlist.toNat).mapM idx.centroid).isSome = true := by
    rw [isSome_mapM]
    exact fun c hc => hs c (mem_range.mp hc)
  obtain ⟨rows,hr⟩ := isSome_iff_exists.mp hr
  have hlen : (rows.map (distL2Sq query)).length = idx.nlist.toNat := by
    simpa using length_of_mapM hr
  rw [hr]
  simp only [bind_some]
  split
  · rfl
  rw [isSome_map,isSome_mapM]
  intro c hc
  apply h.listAt hl
  rw [← hlen]
  exact probes_lt _ _ (by rw [hlen]; exact hpos) c hc

theorem Usable.search (h : idx.Usable) (query : Nat → Int8) (k : Nat) (mem : SearchMem) :
    (idx.search query k mem).isSome = true := by
  unfold VecIndex.search
  split
  · rfl
  split
  · rfl
  · exact h.ivfSearch _ k mem

structure SameShape (idx idx' : VecIndex) : Prop where
  type : idx'.type = idx.type
  dim : idx'.dim = idx.dim
  nlist : idx'.nlist = idx.nlist
  centroids : idx'.centroids = idx.centroids
  trained : idx'.trained = idx.trained
  lists : idx'.lists.map List.length = idx.lists.map List.length

theorem SameShape.refl (idx : VecIndex) : SameShape idx idx := ⟨rfl,rfl,rfl,rfl,rfl,rfl⟩

theorem SameShape.trans {a b c : VecIndex} (h : SameShape a b) (h' : SameShape b c) : SameShape a c :=
  ⟨h'.type.trans h.type,h'.dim.trans h.dim,h'.nlist.trans h.nlist,h'.centroids.trans h.centroids,
    h'.trained.trans h.trained,h'.lists.trans h.lists⟩

theorem SameShape.centroid (h : SameShape idx idx') (c : Nat) : idx'.centroid c = idx.centroid c := by
  simp [VecIndex.centroid,cells,h.dim,h.centroids]

theorem SameShape.usable (h : SameShape idx idx') (hu : idx.Usable) : idx'.Usable where
  lists := by
    intro ls' hls'
    have hmap := h.lists
    rw [hls'] at hmap
    obtain ⟨ls,hls,hlen⟩ := map_eq_some_iff.mp hmap.symm
    rw [h.nlist,← hlen]
    exact hu.lists ls hls
  trained := by
    intro ht
    obtain ⟨hs,hn,hl⟩ := hu.trained (h.trained ▸ ht)
    refine ⟨?_,h.nlist ▸ hn,?_⟩
    · intro c hc
      rw [h.centroid]
      exact hs c (h.nlist ▸ hc)
    have := congrArg Option.isSome h.lists
    rw [isSome_map,isSome_map] at this
    rw [this]
    exact hl

theorem add_shape {id : UInt64} {vec : Nat → Int8} {r : Option Errno × VecIndex}
    (h : idx.add id vec mem = some r) : SameShape idx r.2 := by
  unfold add at h
  split at h
  · obtain rfl := some.inj h
    unfold flatAdd
    split <;> exact ⟨rfl,rfl,rfl,rfl,rfl,rfl⟩
  unfold ivfAdd at h
  split at h
  · obtain rfl := some.inj h
    exact SameShape.refl idx
  obtain ⟨c,_,h⟩ := bind_eq_some_iff.mp h
  obtain ⟨l,_,h⟩ := bind_eq_some_iff.mp h
  split at h
  · obtain rfl := some.inj h
    refine ⟨rfl,rfl,rfl,rfl,rfl,?_⟩
    cases idx.lists <;> simp
  · obtain rfl := some.inj h
    exact SameShape.refl idx

theorem Usable.add (h : idx.Usable) (id : UInt64) (vec : Nat → Int8) (mem : Bool) :
    ∃ r, idx.add id vec mem = some r := by
  unfold VecIndex.add
  split
  · exact ⟨_,rfl⟩
  unfold ivfAdd
  split
  · exact ⟨_,rfl⟩
  rename_i hnot
  have ht : idx.trained = true := by simpa using hnot
  obtain ⟨hs,hn,hl⟩ := h.trained ht
  obtain ⟨c,hc,hnr⟩ := nearest_isSome (firsts vec idx.dim.toNat) idx.centroid
    idx.nlist.toNat (UInt32.lt_iff_toNat_lt.mp hn) hs
  obtain ⟨l,hls⟩ := isSome_iff_exists.mp (h.listAt hl hc)
  rw [findNearestCentroid,hnr]
  simp only [bind_some,hls]
  split <;> exact ⟨_,rfl⟩

theorem loadEntries_shape {mem : Nat → Bool} {k i pos : Nat}
    (h : loadEntries buf mem k i pos idx = some idx') : SameShape idx idx' := by
  induction k generalizing i pos idx with
  | zero =>
    obtain rfl := some.inj h
    exact SameShape.refl idx
  | succ k ih =>
    unfold loadEntries at h
    split at h
    · obtain rfl := some.inj h
      exact SameShape.refl idx
    · obtain ⟨r,hr,h⟩ := bind_eq_some_iff.mp h
      exact (add_shape hr).trans (ih h)

theorem Usable.loadEntries (h : idx.Usable) (buf : Bytes) (mem : Nat → Bool) (k i pos : Nat) :
    ∃ idx', loadEntries buf mem k i pos idx = some idx' ∧ idx'.Usable := by
  induction k generalizing i pos idx with
  | zero => exact ⟨idx,rfl,h⟩
  | succ k ih =>
    unfold VecIndex.loadEntries
    split
    · exact ⟨idx,rfl,h⟩
    obtain ⟨r,hr⟩ := h.add (UInt64.ofNat (leValue (slice buf pos 8)))
      (fun d => (byteAt buf (pos+8+d)).toInt8) (mem i)
    simp only [hr,bind_some]
    exact ih ((add_shape hr).usable h) _ _

def LoadsSafely (buf : Bytes) (mem : LoadMem) : Prop :=
  ∃ r, deserialize buf mem = some r ∧ ∀ idx, r = some idx →
    (∀ query k m, (idx.search query k m).isSome = true) ∧ idx.destroy.isSome = true

theorem Usable.loadsSafely (h : idx.Usable) (buf : Bytes) (mem : LoadMem) (k pos : Nat)
    (heq : deserialize buf mem = (VecIndex.loadEntries buf mem.entry k 0 pos idx).map some) :
    LoadsSafely buf mem := by
  obtain ⟨idx',hl,hu⟩ := h.loadEntries buf mem.entry k 0 pos
  refine ⟨some idx',by rw [heq,hl]; rfl,?_⟩
  rintro _ ⟨rfl⟩
  exact ⟨hu.search,hu.destroy⟩

theorem create_usable {dim type dist : UInt32} {memLists : Bool}
    (h : create dim type dist mem memLists = some idx) : idx.Usable := by
  unfold create at h
  split at h
  · simp at h
  split at h
  · split at h
    · simp at h
    obtain rfl := some.inj h
    refine ⟨?_,by simp⟩
    intro ls hls
    obtain rfl := some.inj hls
    simp
  · obtain rfl := some.inj h
    exact ⟨by simp,by simp⟩

/-- The counts of an IVF image fit its list array and its centroids. -/
def ImageSafe (buf : Bytes) (mem : LoadMem) : Prop :=
  24 ≤ buf.length → field32 buf 0 = vecindexMagic → field32 buf 4 = vecindexIvf →
    0 < field32 buf 20 → mem.index = true → mem.lists = true →
    (field32 buf 20).toNat ≤ 64 ∧ (field32 buf 12 = 0 ∨ (mem.centroids = true ∧
      (field32 buf 20).toNat*(field32 buf 12).toNat < 2^32 ∧
      24+(field32 buf 20).toNat*(field32 buf 12).toNat ≤ buf.length))

def loadTarget (buf : Bytes) (centroids : Option CentroidStore) : VecIndex where
  type := vecindexIvf
  dist := field32 buf 8
  dim := field32 buf 12
  flat := []
  centroids := centroids
  lists := some (List.replicate 64 [])
  nlist := field32 buf 20
  nprobe := ivfDefaultNprobe
  trained := true

theorem loadTarget_usable (hn : 0 < field32 buf 20) (hle : (field32 buf 20).toNat ≤ 64)
    (hs : (loadTarget buf centroids).Searchable) : (loadTarget buf centroids).Usable := by
  refine ⟨?_,fun _ => ⟨hs,hn,rfl⟩⟩
  intro ls hls
  obtain rfl := some.inj hls
  exact hle

theorem usable_of_loaded (hs : SameShape (loadTarget buf centroids) idx)
    (hsr : ∀ query k m, (idx.search query k m).isSome = true) (hd : idx.destroy.isSome = true) :
    (field32 buf 20).toNat ≤ 64 ∧ (loadTarget buf centroids).Searchable := by
  have hmap := hs.lists
  obtain ⟨ls,hls,hlen⟩ := map_eq_some_iff.mp hmap
  have hlen : ls.length = 64 := by simpa using hlen
  have hn : idx.nlist = field32 buf 20 := hs.nlist
  constructor
  · unfold destroy at hd
    rw [hls] at hd
    simp only [isSome_map] at hd
    rw [isSome_mapM] at hd
    by_contra hgt
    have hc := hd 64 (mem_range.mpr (by rw [hn]; omega))
    simp [listAt,hls,hlen] at hc
  have hgo := hsr (fun _ => 0) 1 ⟨true,true,true⟩
  have ht : idx.type ≠ vecindexFlat := by
    rw [hs.type]
    exact (by decide : vecindexIvf ≠ vecindexFlat)
  have htr : idx.trained = true := hs.trained
  simp only [search,one_ne_zero,if_false,ht,ivfSearch,htr,Bool.not_true,
    Bool.false_eq_true,or_self] at hgo
  intro c hc
  cases hr : (List.range idx.nlist.toNat).mapM idx.centroid with
  | none => simp [hr] at hgo
  | some rows =>
    have := (isSome_mapM _ _).mp (by rw [hr]; rfl) c (mem_range.mpr (hs.nlist ▸ hc))
    rwa [hs.centroid] at this

section
variable (buf : Bytes) (mem : LoadMem)

theorem create_ivf (dim dist : UInt32) (mem memLists : Bool) :
    create dim vecindexIvf dist mem memLists = if mem = true ∧ memLists = true then
      some ⟨vecindexIvf,dist,dim,[],none,some (replicate 64 []),ivfDefaultNlist,
        ivfDefaultNprobe,false⟩ else none := by
  cases mem <;> cases memLists <;> rfl

theorem deserialize_ivf (hlen : 24 ≤ buf.length) (hm : field32 buf 0 = vecindexMagic)
    (ht : field32 buf 4 = vecindexIvf) (hn : 0 < field32 buf 20) (hmem : mem.index = true)
    (hl : mem.lists = true) : deserialize buf mem = let size := mul32 (field32 buf 20).toNat (field32 buf 12).toNat
      if mem.centroids then
        if size = 0 ∨ 24+size ≤ buf.length then
          (loadEntries buf mem.entry (field32 buf 16).toNat 0 (24+size) (loadTarget buf
            (some (loadStore buf (field32 buf 20).toNat (field32 buf 12).toNat)))).map some
        else none
      else (loadEntries buf mem.entry (field32 buf 16).toNat 0 24 (loadTarget buf none)).map some := by
  unfold deserialize
  rw [if_neg (by omega),if_neg (by simpa using hm)]
  simp only [ht,create_ivf,hmem,hl,hn,and_self,if_true]
  rfl

theorem filled_loadStore (a b j : Nat) :
    Filled (loadStore buf a b).cells j ↔ j < min (mul32 a b) (buf.length-24) := by
  unfold Filled loadStore
  have hlen : (slice buf 24 (mul32 a b)).length = min (mul32 a b) (buf.length-24) := by
    simp [slice]
  rw [← hlen]
  constructor
  · rintro ⟨x,hx⟩
    simpa using (List.getElem?_eq_some_iff.mp hx).1
  · intro hj
    simp [hj]

theorem loadTarget_searchable (centroids : Option CentroidStore) :
    (loadTarget buf centroids).Searchable ↔ ∀ j < (field32 buf 20).toNat*(field32 buf 12).toNat,
        Filled (loadTarget buf centroids).cells j := searchable_iff _

def Trains (buf : Bytes) (mem : LoadMem) : Prop :=
  24 ≤ buf.length ∧ field32 buf 0 = vecindexMagic ∧ field32 buf 4 = vecindexIvf ∧
    0 < field32 buf 20 ∧ mem.index = true ∧ mem.lists = true

theorem loadsSafely_untrained (h : ¬ Trains buf mem) : LoadsSafely buf mem := by
  by_cases hlen : buf.length < 24
  · exact ⟨none,by rw [deserialize,if_pos hlen],by simp⟩
  by_cases hm : field32 buf 0 ≠ vecindexMagic
  · exact ⟨none,by rw [deserialize,if_neg hlen,if_pos hm],by simp⟩
  cases hc : create (field32 buf 12) (field32 buf 4) (field32 buf 8) mem.index mem.lists with
  | none =>
    refine ⟨none,?_,by simp⟩
    rw [deserialize,if_neg hlen,if_neg hm]
    simp only [hc]
  | some idx =>
    have hivf : ¬ (field32 buf 4 = vecindexIvf ∧ 0 < field32 buf 20) := by
      rintro ⟨ht,hn⟩
      rw [ht,create_ivf] at hc
      split at hc
      · rename_i hmem
        exact h ⟨by omega,not_not.mp hm,ht,hn,hmem⟩
      · simp at hc
    apply (create_usable hc).loadsSafely buf mem (field32 buf 16).toNat 24
    rw [deserialize,if_neg hlen,if_neg hm]
    simp only [hc,hivf,if_false]

theorem loadsSafely_target (hn : 0 < field32 buf 20) (centroids : Option CentroidStore) (k pos : Nat)
    (heq : deserialize buf mem = (loadEntries buf mem.entry k 0 pos (loadTarget buf centroids)).map some) :
    LoadsSafely buf mem ↔ (field32 buf 20).toNat ≤ 64 ∧ (loadTarget buf centroids).Searchable := by
  constructor
  · rintro ⟨r,hr,hsf⟩
    rw [heq] at hr
    obtain ⟨idx,hl,rfl⟩ := map_eq_some_iff.mp hr
    obtain ⟨hsr,hd⟩ := hsf idx rfl
    exact usable_of_loaded (loadEntries_shape hl) hsr hd
  · rintro ⟨hle,hs⟩
    exact (loadTarget_usable hn hle hs).loadsSafely buf mem k pos heq

theorem loadStore_searchable (hn : 0 < field32 buf 20) (hlen : 24 ≤ buf.length) :
    (loadTarget buf (some (loadStore buf (field32 buf 20).toNat (field32 buf 12).toNat))).Searchable ↔
      field32 buf 12 = 0 ∨ ((field32 buf 20).toNat*(field32 buf 12).toNat < 2^32 ∧
        24+(field32 buf 20).toNat*(field32 buf 12).toNat ≤ buf.length) := by
  rw [loadTarget_searchable]
  simp only [loadTarget,cells,Option.map_some,Option.getD_some,filled_loadStore]
  have hnp : 0 < (field32 buf 20).toNat := UInt32.lt_iff_toNat_lt.mp hn
  have hcut := mul32_lt (field32 buf 20).toNat (field32 buf 12).toNat
  constructor
  · intro h
    by_cases hd : field32 buf 12 = 0
    · exact .inl hd
    have hdp : 0 < (field32 buf 12).toNat :=
      Nat.pos_of_ne_zero fun h => hd (UInt32.toNat_inj.mp h)
    have hpos := mul_pos hnp hdp
    have hl := h ((field32 buf 20).toNat*(field32 buf 12).toNat-1) (by omega)
    omega
  rintro (hd | ⟨hlt,hr⟩) j hj
  · simp [hd] at hj
  · rw [mul32,Nat.mod_eq_of_lt hlt]
    omega

theorem loadsSafely_trained (h : Trains buf mem) : LoadsSafely buf mem ↔ (field32 buf 20).toNat ≤ 64 ∧
    (field32 buf 12 = 0 ∨ (mem.centroids = true ∧ (field32 buf 20).toNat*(field32 buf 12).toNat < 2^32 ∧
      24+(field32 buf 20).toNat*(field32 buf 12).toNat ≤ buf.length)) := by
  obtain ⟨hlen,hm,ht,hn,hmem,hl⟩ := h
  have heq := deserialize_ivf buf mem hlen hm ht hn hmem hl
  cases hc : mem.centroids with
  | false =>
    simp only [hc,Bool.false_eq_true,if_false] at heq
    rw [loadsSafely_target buf mem hn none _ _ heq,loadTarget_searchable]
    simp only [Bool.false_eq_true,false_and,or_false]
    apply and_congr_right
    intro _
    constructor
    · intro hall
      by_contra hd
      have hdp : 0 < (field32 buf 12).toNat :=
        Nat.pos_of_ne_zero fun h => hd (UInt32.toNat_inj.mp h)
      have hf := (hall 0 (mul_pos (UInt32.lt_iff_toNat_lt.mp hn) hdp)).lt
      simp [loadTarget,cells] at hf
    · intro hd j hj
      simp [hd] at hj
  | true =>
    simp only [hc,if_true] at heq
    simp only [true_and]
    by_cases hrm : mul32 (field32 buf 20).toNat (field32 buf 12).toNat = 0 ∨
        24+mul32 (field32 buf 20).toNat (field32 buf 12).toNat ≤ buf.length
    · rw [if_pos hrm] at heq
      rw [loadsSafely_target buf mem hn _ _ _ heq,loadStore_searchable buf hn hlen]
    · -- the copy of the centroids leaves the buffer
      rw [if_neg hrm] at heq
      have hno : ¬ LoadsSafely buf mem := by
        rintro ⟨r,hr,_⟩
        rw [heq] at hr
        cases hr
      simp only [hno,false_iff]
      rintro ⟨_,hd | ⟨hlt,hft⟩⟩
      · exact hrm (.inl (by simp [hd,mul32]))
      · rw [mul32,Nat.mod_eq_of_lt hlt] at hrm
        exact hrm (.inr hft)

end

theorem loadsSafely_iff (buf : Bytes) (mem : LoadMem) :
    LoadsSafely buf mem ↔ ImageSafe buf mem := by
  by_cases h : Trains buf mem
  · rw [loadsSafely_trained buf mem h]
    obtain ⟨hlen,hmagic,htype,hn,hmem,hlists⟩ := h
    simp only [ImageSafe,hlen,hmagic,htype,hn,hmem,hlists,true_implies]
  · have hsafe : ImageSafe buf mem := fun h1 h2 h3 h4 h5 h6 => absurd ⟨h1,h2,h3,h4,h5,h6⟩ h
    simp only [hsafe,iff_true]
    exact loadsSafely_untrained buf mem h

def bareHeader : Bytes :=
  leBytes 4 vecindexMagic.toNat ++ leBytes 4 1 ++ leBytes 4 0 ++ leBytes 4 1 ++ leBytes 4 0 ++
    leBytes 4 1

def plenty : LoadMem := ⟨true,true,true,fun _ => true⟩

theorem bareHeader_read_outside : bareHeader.length = 24 ∧ deserialize bareHeader plenty = none ∧
    ¬ LoadsSafely bareHeader plenty := by
  have hnone : deserialize bareHeader plenty = none := by
    rw [← Option.isNone_iff_eq_none]
    decide +kernel
  refine ⟨by decide,hnone,?_⟩
  rintro ⟨r,hr,_⟩
  rw [hnone] at hr
  cases hr

end VecIndex
end AevOS.VecSearch
