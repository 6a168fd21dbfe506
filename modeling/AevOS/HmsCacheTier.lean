import AevOS.HmsCache
import AevOS.RecencyList

/-! The tiers L2 and L3 are least recently used maps, as long as the clock does not wrap. -/

namespace AevOS.Cache
open Wire Recency List
open Slab (served)
open UInt64 (toNat_add toNat_one ofNat add_assoc ofNat_add)

structure Lru (K : HmsKv) (l : List (Bytes × Bytes)) : Prop where
  tracks : Tracks KvEntry.stamp KvEntry.pair K.live l
  tags : ∀ e ∈ K.live, 0 < e.stamp ∧ e.stamp ≤ K.clock.toNat

variable {f : KvEntry → KvEntry} {grant : Bool} {key data k : Bytes} {K : HmsKv} {t : Tier}
    {l : List (Bytes × Bytes)} {i n : Nat} {ks : List Bytes}

section
variable {K : HmsKv} {l : List (Bytes × Bytes)} {i : Nat}

section
variable (h : Lru K l)
include h

theorem Lru.length : l.length = K.used := by
  rw [h.tracks.length,live_length]

theorem Lru.others_lt (hc : K.clock.toNat+1 < 2^64) {e : KvEntry}
    (he : e ∈ K.others i) : e.stamp < (K.clock+1).toNat := by
  have hle := (h.tags e (mem_others he)).2
  rw [toNat_add,toNat_one]
  omega

theorem Lru.low_tag (hpos : 0 < K.cap) (hc : K.clock.toNat+1 < 2^64)
    (hf : K.cap ≤ K.used) : ∃ e ∈ K.live, e.lruTag.toNat < 2^64-1 := by
  have hlen : 0 < K.live.length := by
    rw [live_length]
    omega
  have hle := (h.tags _ (getElem_mem hlen)).2
  rw [KvEntry.stamp] at hle
  exact ⟨_,getElem_mem hlen,by omega⟩

theorem Lru.tracks_slot (hi : i < K.tab.length) (huse : K.tab[i].inUse = true) :
    Tracks KvEntry.stamp KvEntry.pair (K.tab[i] :: K.others i) l := by
  have hp := live_perm hi
  rw [filter_cons_of_pos huse] at hp
  exact h.tracks.perm hp

theorem Lru.tick (hc : K.clock.toNat+1 < 2^64) (hi : i < K.tab.length)
    {l' : List (Bytes × Bytes)} (huse : (f K.tab[i]).inUse = true) (htag : (f K.tab[i]).lruTag = K.clock+1)
    (hl : Tracks KvEntry.stamp KvEntry.pair (f K.tab[i] :: K.others i) l') :
    Lru ({ K with clock := K.clock+1 }.modify i f) l' := by
  have hp := live_modify_perm (K := { K with clock := K.clock+1 }) hi f
  simp only [filter_cons_of_pos huse] at hp
  refine ⟨hl.perm hp.symm,fun e he => ?_⟩
  rcases mem_cons.mp (hp.mem_iff.mp he) with rfl | hr
  · rw [KvEntry.stamp,htag]
    simp only [modify_clock,toNat_add,toNat_one]
    omega
  · exact ⟨(h.tags e (mem_others hr)).1,le_of_lt (h.others_lt hc hr)⟩

theorem Lru.get (hc : K.clock.toNat+1 < 2^64) (key : Bytes) (ioLen : Nat) :
    Lru (tierGet key ioLen K).2.2 (touch key l) := by
  unfold tierGet
  cases hf : kvFind K key with
  | none =>
    rw [touch_of_not_mem]
    · exact h
    · rw [h.tracks.mem_keys]
      rintro ⟨e,he,hkey⟩
      exact kvFind_none hf e he hkey
  | some i =>
    obtain ⟨hi,huse,rfl⟩ := kvFind_some hf
    exact h.tick hc hi huse rfl ((h.tracks_slot hi huse).touch rfl (fun e he => h.others_lt hc he))

end

def putEntry (key data : Bytes) (tag : UInt64) (e : KvEntry) : KvEntry :=
  { e with key := key, blob := some data, len := data.length, lruTag := tag, inUse := true }

theorem putEntry_pair (key data : Bytes) (tag : UInt64) (e : KvEntry) :
    (putEntry key data tag e).pair = (key,data) := by
  simp [putEntry,KvEntry.pair,KvEntry.value]

theorem tierPut_known (hs : served grant data.length = true) (hf : kvFind K key = some i) :
    ∃ f, (tierPut grant key data K).2 = { K with clock := K.clock+1 }.modify i f ∧
      ∀ hi : i < K.tab.length, f K.tab[i] = putEntry key data (K.clock+1) K.tab[i] := by
  obtain ⟨hi,huse,hkey⟩ := kvFind_some hf
  refine ⟨_,by rw [tierPut,hf,fillSlot,if_pos hs],fun _ => ?_⟩
  simp [putEntry,huse,hkey]

theorem tierPut_new (hs : served grant data.length = true) (hkey : key.length < 64)
    (hf : kvFind K key = none) (hsl : tierSlot K = (i,K.modify i f)) :
    (tierPut grant key data K).2 = { K with clock := K.clock+1 }.modify i
        (fun e => putEntry key data (K.clock+1) (f e)) := by
  have ht : key.take 63 = key := take_of_length_le (by omega)
  rw [tierPut,hf,fillSlot,if_pos hs]
  simp only [claimSlot,hsl,ht,HmsKv.modify,modify_modify_eq]
  rfl

theorem Lru.put (h : Lru K l) (hpos : 0 < K.cap) (hc : K.clock.toNat+1 < 2^64)
    (hs : served grant data.length = true) (hkey : key.length < 64) :
    Lru (tierPut grant key data K).2 (assign K.cap key data l) := by
  have hl : ∀ (j : Nat) (x : KvEntry), ∀ e ∈ K.others j,
      e.stamp < (putEntry key data (K.clock+1) x).stamp :=
    fun j x e he => h.others_lt hc he
  cases hfn : kvFind K key with
  | some i =>
    obtain ⟨hi,huse,hk⟩ := kvFind_some hfn
    obtain ⟨f,hput,hf⟩ := tierPut_known hs hfn
    rw [hput]
    refine h.tick hc hi (by rw [hf hi]; rfl) (by rw [hf hi]; rfl) ?_
    have hpr := putEntry_pair key data (K.clock+1) K.tab[i]
    have hnew := (h.tracks_slot hi huse).assign_known K.cap (y := f K.tab[i])
      (by rw [hf hi,hpr]; exact hk.symm) (by rw [hf hi]; exact hl i _)
    rw [hf hi,hpr] at hnew
    rw [hf hi]
    exact hnew
  | none =>
    obtain ⟨i,hi,f,hsl,hcs⟩ := tierSlot_spec (h.low_tag hpos hc)
    have hpr := putEntry_pair key data (K.clock+1) (f K.tab[i])
    have hmem : (putEntry key data (K.clock+1) (f K.tab[i])).pair.1 ∉ l.map Prod.fst := by
      rw [hpr,h.tracks.mem_keys]
      rintro ⟨e,he,hk⟩
      exact kvFind_none hfn e he hk
    rw [tierPut_new hs hkey hfn hsl]
    refine h.tick hc hi rfl rfl ?_
    rcases hcs with ⟨hfl,huse,hmin⟩ | ⟨hr,hfr⟩
    · have hnew := (h.tracks_slot hi huse).assign_evict hmem
        (show K.cap ≤ l.length by rw [h.length]; exact hfl) (fun e he => hmin e (mem_others he)) (hl i _)
      rw [hpr] at hnew
      exact hnew
    have hp := live_perm hi
    rw [filter_cons_of_neg (by simp [hfr]),filter_nil,nil_append] at hp
    have hnew := (h.tracks.perm hp).assign_new hmem
      (show l.length < K.cap by rw [h.length]; exact hr) (hl i _)
    rw [hpr] at hnew
    exact hnew

end

theorem tierGet_frame (key : Bytes) (ioLen : Nat) (K : HmsKv) (hc : K.clock.toNat+1 < 2^64) :
    (tierGet key ioLen K).2.2.cap = K.cap ∧ (tierGet key ioLen K).2.2.clock.toNat ≤ K.clock.toNat+1 := by
  unfold tierGet
  cases kvFind K key with
  | none => exact ⟨rfl,Nat.le_succ _⟩
  | some i =>
    refine ⟨modify_cap _ _ _,?_⟩
    simp only [modify_clock,toNat_add,toNat_one]
    omega

theorem tierPut_frame (hs : served grant data.length = true) (hkey : key.length < 64)
    (htag : K.cap ≤ K.used → ∃ e ∈ K.live, e.lruTag.toNat < 2^64-1) (hc : K.clock.toNat+1 < 2^64) :
    (tierPut grant key data K).2.cap = K.cap ∧
      (tierPut grant key data K).2.clock.toNat = K.clock.toNat+1 := by
  obtain ⟨i,f,hput⟩ : ∃ i f, (tierPut grant key data K).2 =
      { K with clock := K.clock+1 }.modify i f := by
    cases hf : kvFind K key with
    | some i =>
      obtain ⟨f,hput,-⟩ := tierPut_known hs hf
      exact ⟨i,f,hput⟩
    | none =>
      obtain ⟨i,-,f,hsl,-⟩ := tierSlot_spec htag
      exact ⟨i,_,tierPut_new hs hkey hf hsl⟩
  rw [hput]
  refine ⟨modify_cap _ _ _,?_⟩
  simp only [modify_clock,toNat_add,toNat_one]
  omega

theorem kvGet_of_ne (ht : t ≠ .l1) : kvGet t = tierGet := by
  cases t with
  | l1 => exact absurd rfl ht
  | l2 | l3 => rfl

theorem kvPut_of_ne (ht : t ≠ .l1) : kvPut t = tierPut := by
  cases t with
  | l1 => exact absurd rfl ht
  | l2 | l3 => rfl

def Op.use (t : Tier) : Op → Option (Use Bytes Bytes)
  | .get t' key _ => if t' = t then some (.get key) else none
  | .put t' key data _ => if t' = t ∧ data.length ≠ 0 then some (.put key data) else none

def Op.tier : Op → Tier
  | .get t _ _ => t
  | .put t _ _ _ => t

def Op.Plain : Op → Prop
  | .get _ key _ => key.length < 64
  | .put _ key data grant =>
    key.length < 64 ∧ (data.length ≠ 0 → served grant data.length = true)

instance (o : Op) : Decidable o.Plain :=
  match o with
  | .get _ key _ => inferInstanceAs (Decidable (key.length < 64))
  | .put _ key data grant => inferInstanceAs
    (Decidable (key.length < 64 ∧ (data.length ≠ 0 → served grant data.length = true)))

theorem Lru.step (h : Lru K l) (hpos : 0 < K.cap) (hc : K.clock.toNat+1 < 2^64) (ht1 : t ≠ .l1)
    {o : Op} (ho : o.tier = t → o.Plain) :
    Lru (tierStep t K o) (useAll K.cap (o.use t).toList l) ∧ (tierStep t K o).cap = K.cap ∧
      (tierStep t K o).clock.toNat ≤ K.clock.toNat+1 := by
  cases o with
  | get t' key ioLen =>
    by_cases ht : t' = t
    · simp only [tierStep,Op.use,if_pos ht,kvGet_of_ne ht1]
      exact ⟨h.get hc key ioLen,tierGet_frame key ioLen K hc⟩
    · simp only [tierStep,Op.use,if_neg ht]
      exact ⟨h,trivial,Nat.le_succ _⟩
  | put t' key data grant =>
    by_cases ht : t' = t ∧ data.length ≠ 0
    · obtain ⟨hkey,hs⟩ := ho ht.1
      have hsr := hs ht.2
      obtain ⟨hcap,hcl⟩ := tierPut_frame (K := K) hsr hkey (h.low_tag hpos hc) hc
      simp only [tierStep,Op.use,if_pos ht,kvPut_of_ne ht1]
      exact ⟨h.put hpos hc hsr hkey,hcap,le_of_eq hcl⟩
    · simp only [tierStep,Op.use,if_neg ht]
      exact ⟨h,trivial,Nat.le_succ _⟩

theorem Lru.run (h : Lru K l) (hpos : 0 < K.cap) (ht1 : t ≠ .l1) (ops : List Op)
    (hops : ∀ o ∈ ops, o.tier = t → o.Plain) (hc : K.clock.toNat+ops.length < 2^64) :
    Lru (ops.foldl (tierStep t) K) (useAll K.cap (ops.filterMap (Op.use t)) l) ∧
      (ops.foldl (tierStep t) K).cap = K.cap := by
  induction ops generalizing K l with
  | nil => exact ⟨h,rfl⟩
  | cons o ops ih =>
    obtain ⟨ho,hops⟩ := forall_mem_cons.mp hops
    rw [length_cons] at hc
    obtain ⟨hs,hcap,hcl⟩ := h.step hpos (by omega) ht1 ho
    have hr := ih hs (by omega) hops (by omega)
    rw [hcap,← useAll_append] at hr
    rw [foldl_cons]
    cases hu : o.use t with
    | none =>
      rw [hu] at hr
      rw [filterMap_cons_none hu]
      exact hr
    | some u =>
      rw [hu] at hr
      rw [filterMap_cons_some hu]
      exact hr

theorem lru_empty (cap : Nat) : Lru ⟨replicate cap zeroEntry,0,0⟩ [] := by
  have hl : (⟨replicate cap zeroEntry,0,0⟩ : HmsKv).live = [] := by
    simp [HmsKv.live,zeroEntry]
  refine ⟨?_,?_⟩
  · rw [hl]
    exact tracks_nil
  · rw [hl]
    exact fun e he => absurd he not_mem_nil

theorem run_tier_contents {c : HmsCache} (ht : t ≠ .l1) {cap : Nat} (hpos : 0 < cap)
    (hc : c.tier t = some ⟨replicate cap zeroEntry,0,0⟩) {ops : List Op}
    (hops : ∀ o ∈ ops, o.tier = t → o.Plain) (hlen : ops.length < 2^64) :
    ∃ K, (run ops c).tier t = some K ∧ K.contents.Perm (useAll cap (ops.filterMap (Op.use t)) []) := by
  have hlru := (lru_empty cap).run (by simpa [HmsKv.cap] using hpos) ht ops hops (by simpa using hlen)
  refine ⟨_,by rw [run_tier ops c t,hc]; rfl,?_⟩
  have hp := hlru.1.tracks.pairs
  simp only [HmsKv.cap,length_replicate] at hp
  exact hp.symm

theorem run_lruTiers (grants : Bool × Bool) (l1Slots : UInt32) (ops : List Op)
    (hops : ∀ o ∈ ops, o.tier ≠ .l1 → o.Plain) (hlen : ops.length < 2^64) :
    ∃ K2 K3, (run ops (hmsCacheInit grants (true,true) (true,true) l1Slots)).l2 = some K2 ∧
      (run ops (hmsCacheInit grants (true,true) (true,true) l1Slots)).l3 = some K3 ∧
      K2.contents.Perm (useAll 256 (ops.filterMap (Op.use .l2)) []) ∧
      K3.contents.Perm (useAll 512 (ops.filterMap (Op.use .l3)) []) := by
  have h2 : (hmsCacheInit grants (true,true) (true,true) l1Slots).tier .l2 =
      some ⟨replicate 256 zeroEntry,0,0⟩ := rfl
  have h3 : (hmsCacheInit grants (true,true) (true,true) l1Slots).tier .l3 =
      some ⟨replicate 512 zeroEntry,0,0⟩ := rfl
  obtain ⟨K2,hK2,hp2⟩ := run_tier_contents (by decide) (by decide) h2
    (fun o ho ht => hops o ho (by rw [ht]; decide)) hlen
  obtain ⟨K3,hK3,hp3⟩ := run_tier_contents (by decide) (by decide) h3
    (fun o ho ht => hops o ho (by rw [ht]; decide)) hlen
  exact ⟨K2,K3,hK2,hK3,hp2,hp3⟩

theorem run_lruTiers_four : ∃ K2 K3,
    (run [.put .l2 [97] [1] true,.put .l2 [98] [2,3] true,.get .l2 [97] 8,
      .put .l3 [99] [4] true] (hmsCacheInit (false,true) (true,true) (true,true) 0)).l2 =
        some K2 ∧
    (run [.put .l2 [97] [1] true,.put .l2 [98] [2,3] true,.get .l2 [97] 8,
      .put .l3 [99] [4] true] (hmsCacheInit (false,true) (true,true) (true,true) 0)).l3 =
        some K3 ∧
    K2.contents.Perm [([98],[2,3]),([97],[1])] ∧ K3.contents.Perm [([99],[4])] :=
  run_lruTiers (false,true) 0
    [.put .l2 [97] [1] true,.put .l2 [98] [2,3] true,.get .l2 [97] 8,.put .l3 [99] [4] true]
    (by decide) (by decide)

def stamped (K : HmsKv) (i : Nat) (c : UInt64) : HmsKv :=
  { K with clock := c }.modify i (fun e => { e with lruTag := c })

theorem kvFind_stamped (K : HmsKv) (i : Nat) (c : UInt64) (key : Bytes) :
    kvFind (stamped K i c) key = kvFind K key := by
  show (K.tab.modify i _).findIdx? _ = K.tab.findIdx? _
  induction K.tab generalizing i with
  | nil => rw [modify_nil]
  | cons e es ih => cases i <;> simp [findIdx?_cons,ih,KvEntry.holds]

theorem gets_stamped (hf : kvFind K k = some i) (n : Nat) (c : UInt64) :
    (List.replicate n (Op.get .l2 k 1)).foldl (tierStep .l2) (stamped K i c) =
      stamped K i (c+ofNat n) := by
  induction n generalizing c with
  | zero => simp
  | succ n ih =>
    have hs : tierStep .l2 (stamped K i c) (.get .l2 k 1) = stamped K i (c+1) := by
      show (tierGet k 1 (stamped K i c)).2.2 = _
      rw [tierGet,kvFind_stamped,hf]
      simp [stamped,HmsKv.modify,modify_modify_eq,Function.comp_def]
    rw [replicate_succ,foldl_cons,hs,ih,add_assoc,Nat.add_comm,ofNat_add]
    rfl

def stored : List Bytes → UInt64 → List KvEntry
  | [], _ => []
  | k :: ks, c => ⟨k,some [1],1,0,c+1,true⟩ :: stored ks (c+1)

theorem tierPut_fresh {es : List KvEntry} (m : Nat) (c : UInt64)
    (hes : ∀ e ∈ es, e.inUse = true ∧ e.key ≠ k) (hk : k.length < 64) :
    (tierPut true k [1] ⟨es ++ replicate (m+1) zeroEntry,0,c⟩).2 =
      ⟨es ++ ⟨k,some [1],1,0,c+1,true⟩ :: replicate m zeroEntry,0,c+1⟩ := by
  have hf : kvFind ⟨es ++ replicate (m+1) zeroEntry,0,c⟩ k = none := by
    refine findIdx?_eq_none_iff.mpr fun e he => ?_
    rcases mem_append.mp he with h | h
    · simp [KvEntry.holds,hes e h]
    · simp [KvEntry.holds,eq_of_mem_replicate h,zeroEntry]
  have hfree : (es ++ replicate (m+1) zeroEntry).findIdx? (fun e => !e.inUse) = some es.length := by
    rw [findIdx?_append,findIdx?_eq_none_iff.mpr (fun e he => by simp [(hes e he).1])]
    simp [replicate_succ,findIdx?_cons,zeroEntry]
  have hu : es.countP KvEntry.inUse = es.length := countP_eq_length.mpr fun e he => (hes e he).1
  have hsl : tierSlot ⟨es ++ replicate (m+1) zeroEntry,0,c⟩ =
      (es.length,HmsKv.modify ⟨es ++ replicate (m+1) zeroEntry,0,c⟩ es.length id) := by
    rw [tierSlot,if_neg (by simp [HmsKv.cap,HmsKv.used,hu,zeroEntry,countP_replicate]),hfree]
    simp [HmsKv.modify]
  rw [tierPut_new (by decide) hk hf hsl]
  simp [HmsKv.modify,putEntry,zeroEntry,replicate_succ,modify_eq_take_cons_drop]

theorem puts_stored (hks : ks.Nodup) (hlen : ∀ k ∈ ks, k.length < 64) {l : List KvEntry}
    (hl : ∀ e ∈ l, e.inUse = true ∧ e.key ∉ ks) (c : UInt64) :
    (ks.map (fun k => Op.put .l2 k [1] true)).foldl (tierStep .l2)
      ⟨l ++ List.replicate ks.length zeroEntry,0,c⟩ = ⟨l ++ stored ks c,0,c+ofNat ks.length⟩ := by
  induction ks generalizing l c with
  | nil => simp [stored]
  | cons k ks ih =>
    have hs := tierPut_fresh ks.length c
      (fun e he => ⟨(hl e he).1,fun h => (hl e he).2 (h ▸ mem_cons_self)⟩) (hlen k mem_cons_self)
    have hr := ih (nodup_cons.mp hks).2 (fun k hk => hlen k (mem_cons_of_mem _ hk))
      (l := l ++ [⟨k,some [1],1,0,c+1,true⟩]) (fun e he => by
        rcases mem_append.mp he with h | h
        · exact ⟨(hl e h).1,fun h' => (hl e h).2 (mem_cons_of_mem _ h')⟩
        · rw [mem_singleton.mp h]
          exact ⟨rfl,(nodup_cons.mp hks).1⟩) (c+1)
    rw [append_assoc,append_assoc] at hr
    have hst : tierStep .l2 ⟨l ++ List.replicate (k :: ks).length zeroEntry,0,c⟩ (.put .l2 k [1] true) =
        _ := hs
    rw [map_cons,foldl_cons,hst]
    refine hr.trans ?_
    rw [length_cons,Nat.add_comm,ofNat_add,← add_assoc]
    rfl

def wrapOps (ks : List Bytes) (k k1 k' : Bytes) (n : Nat) : List Op :=
  (ks.map (fun key => Op.put .l2 key [1] true) ++ List.replicate n (Op.get .l2 k 1)) ++
    [.get .l2 k1 1,.put .l2 k' [1] true]

def tierKeys : List Bytes :=
  (List.range 256).map (fun i => [UInt8.ofNat (65+i/16),UInt8.ofNat (65+i%16)])

theorem tierKeys_nodup : tierKeys.Nodup := by
  apply Nodup.map_on _ nodup_range
  intro i hi j hj h
  rw [mem_range] at hi hj
  simp only [cons.injEq,and_true] at h
  have h1 := congrArg UInt8.toNat h.1
  have h2 := congrArg UInt8.toNat h.2
  simp only [UInt8.toNat_ofNat'] at h1 h2
  omega

theorem wrapOps_plain (n : Nat) : ∀ o ∈ wrapOps tierKeys [65,65] [65,66] [33] n, o.Plain := by
  have hs : ∀ key ∈ tierKeys, key.length < 64 := by decide +kernel
  intro o ho
  simp only [wrapOps,mem_append,mem_map,mem_replicate] at ho
  rcases ho with (⟨key,hkey,rfl⟩ | ⟨-,rfl⟩) | ho
  · exact ⟨hs key hkey,fun _ => by decide⟩
  · exact (by decide : ([65,65] : Bytes).length < 64)
  · revert o
    decide

theorem wrapOps_tier (hn : 257+n = 2^64-1) :
    (wrapOps tierKeys [65,65] [65,66] [33] (n+1)).foldl (tierStep .l2) ⟨replicate 256 zeroEntry,0,0⟩ =
      [Op.get .l2 [65,66] 1,.put .l2 [33] [1] true].foldl (tierStep .l2)
        (stamped ⟨stored tierKeys 0,0,256⟩ 0 (ofNat (2^64-1))) := by
  have hputs := puts_stored tierKeys_nodup (by decide +kernel) (l := []) (by simp) 0
  rw [nil_append,nil_append,show tierKeys.length = 256 by simp [tierKeys]] at hputs
  have hfirst : tierStep .l2 ⟨stored tierKeys 0,0,0+ofNat 256⟩ (.get .l2 [65,65] 1) =
      stamped ⟨stored tierKeys 0,0,256⟩ 0 (ofNat 257) := by decide +kernel
  have hgets : (replicate (n+1) (Op.get .l2 [65,65] 1)).foldl (tierStep .l2)
      ⟨stored tierKeys 0,0,0+ofNat 256⟩ = stamped ⟨stored tierKeys 0,0,256⟩ 0 (ofNat (2^64-1)) := by
    rw [replicate_succ,foldl_cons,hfirst,gets_stamped (by decide +kernel),← ofNat_add,hn]
  rw [wrapOps,List.foldl_append,List.foldl_append,hputs,hgets]

theorem wrapOps_uses (n : Nat) :
    useAll 256 ((wrapOps tierKeys [65,65] [65,66] [33] (n+1)).filterMap (Op.use .l2)) [] =
      useAll 256 [.get [65,66],.put [33] [1]] (touch [65,65] (tierKeys.map (fun k => (k,[1])))) := by
  have hputs : (tierKeys.map (fun k => Op.put .l2 k [1] true)).filterMap (Op.use .l2) =
      tierKeys.map (fun k => Use.put k [1]) := by
    rw [filterMap_map,← filterMap_eq_map]
    rfl
  have hgets : (replicate (n+1) (Op.get .l2 [65,65] 1)).filterMap (Op.use .l2) =
      replicate (n+1) (.get [65,65]) := filterMap_replicate_of_some rfl
  rw [wrapOps,filterMap_append,filterMap_append,useAll_append,useAll_append,hputs,hgets,
    useAll_puts (by simpa using tierKeys_nodup) (by decide +kernel),replicate_succ]
  exact congrArg _ (useAll_gets (by decide +kernel) n)

theorem wrapOps_diverges (hn : 256+n = 2^64-1) : ∃ K, (run (wrapOps tierKeys [65,65] [65,66] [33] n)
    (hmsCacheInit (true,true) (true,true) (true,true) 1)).l2 = some K ∧ ¬ K.contents.Perm (useAll 256
    ((wrapOps tierKeys [65,65] [65,66] [33] n).filterMap (Op.use .l2)) []) := by
  obtain ⟨n,rfl⟩ : ∃ m, n = m+1 := ⟨n-1,by omega⟩
  refine ⟨_,(run_tier (wrapOps tierKeys [65,65] [65,66] [33] (n+1))
    (hmsCacheInit (true,true) (true,true) (true,true) 1) .l2).trans
      (congrArg some (wrapOps_tier (by omega))),fun heq => ?_⟩
  rw [wrapOps_uses] at heq
  -- the key used at the last tick is gone, in the map it is not
  exact absurd ((heq.map Prod.fst).mem_iff (a := [65,66])) (by decide +kernel)

theorem run_lruTiers_wraps : (∀ o ∈ wrapOps tierKeys [65,65] [65,66] [33] (2^64-257), o.Plain) ∧
    ∃ K, (run (wrapOps tierKeys [65,65] [65,66] [33] (2^64-257))
        (hmsCacheInit (true,true) (true,true) (true,true) 1)).l2 = some K ∧
      ¬ K.contents.Perm (useAll 256
        ((wrapOps tierKeys [65,65] [65,66] [33] (2^64-257)).filterMap (Op.use .l2)) []) :=
  ⟨wrapOps_plain _,wrapOps_diverges (by omega)⟩

end AevOS.Cache
