import AevOS.HmsCache

/-! Whether a get finds what the put before it stored. `kv_find` compares the whole key, while an entry
keeps at most 63 of its bytes. -/

namespace AevOS.Cache
open Wire List
open Slab (served)
open Option (map_eq_some_iff some.injEq)

structure HmsKv.Formed (K : HmsKv) : Prop where
  short : ∀ e ∈ K.tab, e.key.length < 64
  hand : K.hand < K.cap
  cap : K.cap < 2^32

def HmsKv.Unique (K : HmsKv) : Prop :=
  ∀ (key : Bytes) (i j : Nat) (e e' : KvEntry), K.tab[i]? = some e → K.tab[j]? = some e' →
    e.holds key = true → e'.holds key = true → i = j

structure Within (K' K : HmsKv) : Prop where
  cap : K'.cap = K.cap
  kept : ∀ (i : Nat) (e' : KvEntry), K'.tab[i]? = some e' → e'.inUse = true →
    ∃ e, K.tab[i]? = some e ∧ e.inUse = true ∧ e.key = e'.key

theorem Within.refl (K : HmsKv) : Within K K :=
  ⟨rfl,fun _ e' h huse => ⟨e',h,huse,rfl⟩⟩

variable {key : Bytes} {f : KvEntry → KvEntry} {K : HmsKv} {t : Tier} {i cap : Nat} {grant : Bool}
    {ops : List Op} {c : HmsCache} {grants1 grants2 grants3 : Bool × Bool} {l1Slots : UInt32}

theorem holds_iff {e : KvEntry} : e.holds key = true ↔ e.inUse = true ∧ e.key = key := by
  simp [KvEntry.holds]

theorem modify_slot (K : HmsKv) (i j : Nat) (f : KvEntry → KvEntry) :
    (K.modify i f).tab[j]? = (K.tab[j]?).map (fun e => if i = j then f e else e) := by
  rw [HmsKv.modify,getElem?_modify]
  split <;> rfl

theorem mem_modify {e : KvEntry} (h : e ∈ (K.modify i f).tab) : ∃ e0 ∈ K.tab, e = f e0 ∨ e = e0 := by
  obtain ⟨j,hj⟩ := mem_iff_getElem?.mp h
  obtain ⟨e0,h0,rfl⟩ := map_eq_some_iff.mp (modify_slot K i j f ▸ hj)
  exact ⟨e0,mem_of_getElem? h0,ite_eq_or_eq _ _ _⟩

section
variable {K K' K'' : HmsKv}

theorem Within.modify (h : Within K' K) (i : Nat)
    (hf : ∀ e, (f e).inUse = true → e.inUse = true ∧ (f e).key = e.key) : Within (K'.modify i f) K := by
  refine ⟨(modify_cap K' i f).trans h.cap,?_⟩
  intro j e' hj huse
  obtain ⟨e,he,rfl⟩ := map_eq_some_iff.mp (modify_slot K' i j f ▸ hj)
  split at huse
  · obtain ⟨hes,hkey⟩ := hf e huse
    simpa [*] using h.kept j e he hes
  · simpa [*] using h.kept j e he huse

theorem Within.turn (h : Within K' K) (hand : Nat) : Within { K' with hand := hand } K :=
  ⟨h.cap,h.kept⟩

theorem Within.unique (h : Within K' K) (hu : K.Unique) : K'.Unique := by
  intro key i j e e' hi hj he he'
  obtain ⟨huse,hkey⟩ := holds_iff.mp he
  obtain ⟨hu',hk'⟩ := holds_iff.mp he'
  obtain ⟨x,hx,hxs,hxk⟩ := h.kept i e hi huse
  obtain ⟨y,hy,hys,hyk⟩ := h.kept j e' hj hu'
  exact hu key i j x y hx hy (holds_iff.mpr ⟨hxs,hxk.trans hkey⟩)
    (holds_iff.mpr ⟨hys,hyk.trans hk'⟩)

theorem kvFind_eq_none :
    kvFind K key = none ↔ ∀ (i : Nat) (e : KvEntry), K.tab[i]? = some e → e.holds key = false := by
  simp only [kvFind,findIdx?_eq_none_iff,mem_iff_getElem?,forall_exists_index]
  exact forall_comm

theorem Within.find_none (h : Within K' K) (hf : kvFind K key = none) : kvFind K' key = none := by
  rw [kvFind_eq_none] at hf ⊢
  intro i e hi
  by_contra hh
  obtain ⟨huse,hkey⟩ := holds_iff.mp (Bool.not_eq_false _ ▸ hh)
  obtain ⟨e0,h0,hu0,hk0⟩ := h.kept i e hi huse
  simpa [hf i e0 h0] using holds_iff.mpr ⟨hu0,hk0.trans hkey⟩

theorem HmsKv.Formed.modify (h : K.Formed) (i : Nat)
    (hf : ∀ e, e.key.length < 64 → (f e).key.length < 64) : (K.modify i f).Formed := by
  refine ⟨?_,h.hand.trans_eq (modify_cap K i f).symm,by simpa using h.cap⟩
  intro e he
  obtain ⟨e0,h0,rfl | rfl⟩ := mem_modify he
  · exact hf e0 (h.short e0 h0)
  · exact h.short e h0

theorem HmsKv.Formed.turn (h : K.Formed) : ({ K with hand := (K.hand+1)%K.cap } : HmsKv).Formed :=
  ⟨h.short,Nat.mod_lt _ (Nat.zero_lt_of_lt h.hand),h.cap⟩

end

def newSlot : Tier → HmsKv → Nat × HmsKv
  | .l1 => l1Evict
  | .l2 => tierSlot
  | .l3 => tierSlot

def Room (t : Tier) (K : HmsKv) : Prop :=
  t ≠ .l1 → K.cap ≤ K.used → ∃ e ∈ K.live, e.lruTag.toNat < 2^64-1

structure Reserved (K : HmsKv) (r : Nat × HmsKv) : Prop where
  slot : r.1 < K.cap
  within : Within r.2 K
  formed : r.2.Formed

theorem zeroEntry_unused (e : KvEntry) (h : zeroEntry.inUse = true) :
    e.inUse = true ∧ zeroEntry.key = e.key := Bool.noConfusion h

theorem l1Turns_reserved (n : Nat) {L : HmsKv} (hL : Within L K) (hf : L.Formed) :
    Reserved K (l1Turns n L) := by
  induction n generalizing L with
  | zero =>
    exact ⟨by rw [← hL.cap]; exact Nat.zero_lt_of_lt hf.hand,
      hL.modify 0 zeroEntry_unused,hf.modify 0 (fun _ _ => by decide)⟩
  | succ n ih =>
    have hW := hL.turn ((L.hand+1)%L.cap)
    have hF := hf.turn
    rw [l1Turns]
    split
    · exact ih hW hF
    split
    · exact ⟨by rw [← hL.cap]; exact hf.hand,hW.modify _ zeroEntry_unused,
        hF.modify _ (fun _ _ => by decide)⟩
    · exact ih (hW.modify _ (fun e he => ⟨he,rfl⟩)) (hF.modify _ (fun _ he => he))

theorem newSlot_reserved (t : Tier) (h : K.Formed) (hrm : Room t K) : Reserved K (newSlot t K) := by
  have hrs : t ≠ .l1 → Reserved K (tierSlot K) := by
    intro ht
    obtain ⟨i,hi,f,hr,hc⟩ := tierSlot_spec (hrm ht)
    rcases hc with ⟨hf,-,-⟩ | ⟨hfr,-⟩
    · -- the slot of the least tag, cleared
      have hle : K.used ≤ K.cap := countP_le_length
      obtain ⟨e,he,hlow⟩ := hrm ht hf
      obtain ⟨j,hj,hev,-⟩ := lruEvict_spec (countP_eq_length.mp (le_antisymm hle hf))
        ⟨e,(mem_filter.mp he).1,hlow⟩
      rw [tierSlot,if_pos hf,hev]
      exact ⟨hj,(Within.refl K).modify j zeroEntry_unused,h.modify j (fun _ _ => by decide)⟩
    have hs : (tierSlot K).2 = K := by rw [tierSlot,if_neg (Nat.not_le.mpr hfr)]
    exact ⟨hr ▸ hi,hs.symm ▸ Within.refl K,hs.symm ▸ h⟩
  cases t with
  | l1 => exact l1Turns_reserved _ (Within.refl K) h
  | l2 | l3 => exact hrs (by decide)

theorem newSlot_outside (h : K.Formed) (hrm : ¬ Room t K) : ∃ i, newSlot t K = (i,K) ∧ K.tab.length ≤ i := by
  rw [Room,Classical.not_imp,Classical.not_imp] at hrm
  obtain ⟨ht,hf,hlow⟩ := hrm
  have hle : K.used ≤ K.cap := countP_le_length
  have huse : ∀ e ∈ K.tab, e.inUse = true :=
    countP_eq_length.mp (le_antisymm hle hf)
  have hh : ∀ e ∈ K.tab, 2^64-1 ≤ e.lruTag.toNat := by
    intro e he
    by_contra hlt
    exact hlow ⟨e,mem_filter.mpr ⟨he,huse e he⟩,by omega⟩
  have hev : lruEvict K = (2^32-1,K) := by
    rcases lruScan_spec huse 0 (2^32-1) (UInt64.ofNat (2^64-1)) with ⟨hr,-⟩ | ⟨i,hi,-,hlt,-⟩
    · rw [lruEvict,hr]
      refine Prod.ext rfl ?_
      have hcap := h.cap
      rw [HmsKv.cap] at hcap
      simp only [HmsKv.modify,if_true]
      rw [modify_eq_self (by omega)]
    · have hi' := hh _ (getElem_mem hi)
      rw [UInt64.lt_iff_toNat_lt,UInt64.toNat_ofNat'] at hlt
      omega
  refine ⟨2^32-1,?_,Nat.le_pred_of_lt h.cap⟩
  cases t with
  | l1 => exact absurd rfl ht
  | l2 | l3 => exact (if_pos hf).trans hev

def keySlot (t : Tier) (key : Bytes) (K : HmsKv) : Nat × HmsKv :=
  match kvFind K key with
  | some i => (i,K)
  | none => claimSlot key (newSlot t K)

def ticked : Tier → HmsKv → HmsKv
  | .l1, K => K
  | .l2, K => { K with clock := K.clock+1 }
  | .l3, K => { K with clock := K.clock+1 }

def putEntryOf (t : Tier) (data : Bytes) (clock : UInt64) (e : KvEntry) : KvEntry :=
  match t with
  | .l1 => { e with blob := some data, len := data.length, ref := 1 }
  | .l2 => { e with blob := some data, len := data.length, lruTag := clock }
  | .l3 => { e with blob := some data, len := data.length, lruTag := clock }

theorem kvPut_eq (t : Tier) (grant : Bool) (key data : Bytes) (K : HmsKv) :
    kvPut t grant key data K = if served grant data.length then
        (0,(ticked t (keySlot t key K).2).modify (keySlot t key K).1
          (putEntryOf t data (ticked t (keySlot t key K).2).clock))
      else (-enomem,(keySlot t key K).2.modify (keySlot t key K).1
        (fun e => { e with blob := none, inUse := false })) := by
  cases t with
  | l1 =>
    have hs : l1PutKv grant key data K =
      fillSlot grant data (fun _ e => { e with ref := 1 }) 0 (keySlot .l1 key K) := rfl
    rw [kvPut,hs,fillSlot,UInt64.add_zero]
    rfl
  | l2 | l3 => rfl

section
variable {t : Tier} {key data : Bytes} {K : HmsKv}

@[simp] theorem ticked_tab (t : Tier) (K : HmsKv) : (ticked t K).tab = K.tab := by
  cases t <;> rfl

theorem ticked_formed (h : K.Formed) : (ticked t K).Formed := by
  cases t with
  | l1 | l2 | l3 => exact ⟨h.short,h.hand,h.cap⟩

section
variable (t : Tier) (data : Bytes) (clock : UInt64) (e : KvEntry)

@[simp] theorem putEntryOf_key : (putEntryOf t data clock e).key = e.key := by
  cases t <;> rfl

@[simp] theorem putEntryOf_inUse : (putEntryOf t data clock e).inUse = e.inUse := by
  cases t <;> rfl

theorem copyOut_putEntryOf (ioLen : Nat) : copyOut ioLen (putEntryOf t data clock e) = data.take ioLen := by
  have hlen : data.take (min ioLen data.length) = data.take ioLen := by
    rw [take_eq_take_iff]
    omega
  cases t <;> exact hlen

end

theorem take_eq_iff : key.take 63 = key ↔ key.length < 64 := by
  rw [take_eq_self_iff]
  omega

theorem kvFind_modify (hi : i < K.tab.length)
    (ho : ∀ (j : Nat) (e : KvEntry), j < i → K.tab[j]? = some e → e.holds key = false)
    (hf : (f K.tab[i]).holds key = true) : kvFind (K.modify i f) key = some i := by
  rw [kvFind,findIdx?_eq_some_iff_getElem]
  refine ⟨by simpa [HmsKv.modify] using hi,by simpa [HmsKv.modify] using hf,?_⟩
  intro j hj
  have hot := ho j _ hj (getElem?_eq_getElem (hj.trans hi))
  simpa [HmsKv.modify,getElem_modify,ne_of_gt hj] using hot

theorem kvFind_before (h : kvFind K key = some i) :
    ∀ (j : Nat) (e : KvEntry), j < i → K.tab[j]? = some e → e.holds key = false := by
  obtain ⟨hi,-,hb⟩ := findIdx?_eq_some_iff_getElem.mp h
  intro j e hj he
  obtain ⟨-,rfl⟩ := List.getElem?_eq_some_iff.mp he
  simpa using hb j hj

theorem kvFind_put (t : Tier) (key data : Bytes) (h : K.Formed) (clock : UInt64) :
    (kvFind ((ticked t (keySlot t key K).2).modify (keySlot t key K).1
        (putEntryOf t data clock)) key = some (keySlot t key K).1 ∧
      (keySlot t key K).1 < (keySlot t key K).2.tab.length ∧
      (key.length < 64 ∧ (kvFind K key = none → Room t K))) ∨
    (kvFind ((ticked t (keySlot t key K).2).modify (keySlot t key K).1 (putEntryOf t data clock)) key = none ∧
      ¬ (key.length < 64 ∧ (kvFind K key = none → Room t K))) := by
  cases hf : kvFind K key with
  | some i =>
    obtain ⟨hi,huse,hkey⟩ := kvFind_some hf
    have hs : keySlot t key K = (i,K) := by rw [keySlot,hf]
    rw [hs]
    refine .inl ⟨?_,hi,hkey ▸ h.short _ (getElem_mem hi),fun hno => nomatch hno⟩
    apply kvFind_modify (by simpa using hi)
    · simpa using kvFind_before hf
    · simp [KvEntry.holds,huse,hkey]
  | none =>
    have hs : keySlot t key K = claimSlot key (newSlot t K) := by rw [keySlot,hf]
    rw [hs,claimSlot]
    by_cases hr : Room t K
    · obtain ⟨hi,hw,-⟩ := newSlot_reserved t h hr
      have hn := hw.find_none hf
      have hi' : (newSlot t K).1 < (newSlot t K).2.tab.length := by
        rw [← hw.cap] at hi
        exact hi
      rw [kvFind_eq_none] at hn
      by_cases hlen : key.length < 64
      · refine .inl ⟨?_,by simpa [HmsKv.modify] using hi',hlen,fun _ => hr⟩
        apply kvFind_modify (by simpa [HmsKv.modify] using hi')
        · intro j e hj he
          rw [ticked_tab,modify_slot,map_eq_some_iff] at he
          obtain ⟨e0,h0,rfl⟩ := he
          rw [if_neg (Nat.ne_of_gt hj)]
          exact hn j e0 h0
        · simp [KvEntry.holds,HmsKv.modify,take_eq_iff.mpr hlen]
      · -- the entry holds only the first 63 bytes
        refine .inr ⟨?_,fun hall => hlen hall.1⟩
        rw [kvFind_eq_none]
        intro j e he
        rw [modify_slot,ticked_tab,modify_slot,Option.map_map,map_eq_some_iff] at he
        obtain ⟨e0,h0,rfl⟩ := he
        have hcut : key.take 63 ≠ key := fun heq => hlen (take_eq_iff.mp heq)
        by_cases hj : (newSlot t K).1 = j
        · simp [KvEntry.holds,hj,hcut]
        · simpa [hj] using hn j e0 h0
    refine .inr ⟨?_,fun hall => hr (hall.2 rfl)⟩
    obtain ⟨i,hnew,hi⟩ := newSlot_outside h hr
    rw [hnew]
    rw [kvFind_eq_none] at hf ⊢
    intro j e he
    rw [modify_slot,ticked_tab,modify_slot,Option.map_map,map_eq_some_iff] at he
    obtain ⟨e0,h0,rfl⟩ := he
    obtain ⟨hlt,-⟩ := List.getElem?_eq_some_iff.mp h0
    have hj : i ≠ j := Nat.ne_of_gt (hlt.trans_le hi)
    simpa [hj] using hf j e0 h0

theorem kvGet_eq (t : Tier) (key : Bytes) (ioLen : Nat) (K : HmsKv) :
    (kvFind K key = none → (kvGet t key ioLen K).1 = -enoent) ∧
      ∀ i, kvFind K key = some i → (kvGet t key ioLen K).1 = 0 ∧
        (kvGet t key ioLen K).2.1 = copyOut ioLen (K.tab.getD i zeroEntry) := by
  cases t <;> simp +contextual [kvGet,l1GetKv,tierGet]

theorem kvGet_kvPut_iff (h : K.Formed) (hput : (kvPut t grant key data K).1 = 0) :
    (∀ ioLen, (kvGet t key ioLen (kvPut t grant key data K).2).1 = 0 ∧
        (kvGet t key ioLen (kvPut t grant key data K).2).2.1 = data.take ioLen) ↔
      key.length < 64 ∧ (kvFind K key = none → Room t K) := by
  rw [kvPut_eq] at hput ⊢
  have hs : served grant data.length = true := by
    by_contra hs
    rw [if_neg hs] at hput
    exact absurd (show -enomem = 0 from hput) (by decide)
  rw [if_pos hs]
  rcases kvFind_put t key data h (ticked t (keySlot t key K).2).clock with
    ⟨hf,hi,hc⟩ | ⟨hf,hc⟩
  · refine iff_of_true (fun ioLen => ?_) hc
    obtain ⟨hrc,hout⟩ := (kvGet_eq t key ioLen _).2 _ hf
    refine ⟨hrc,hout.trans ?_⟩
    rw [getD_eq_getElem?_getD,modify_slot,ticked_tab,getElem?_eq_getElem hi]
    simp [copyOut_putEntryOf]
  refine iff_of_false (fun hall => ?_) hc
  have hrc := (hall 0).1
  rw [(kvGet_eq t key 0 _).1 hf] at hrc
  exact absurd hrc (by decide)

end

section
variable {t : Tier} {key : Bytes} {K : HmsKv}

theorem newSlot_within (h : K.Formed) : Within (newSlot t K).2 K ∧ (newSlot t K).2.Formed := by
  by_cases hr : Room t K
  · have hres := newSlot_reserved t h hr
    exact ⟨hres.within,hres.formed⟩
  · obtain ⟨i,hnew,-⟩ := newSlot_outside h hr
    rw [hnew]
    exact ⟨Within.refl K,h⟩

theorem keySlot_formed (t : Tier) (key : Bytes) (h : K.Formed) : (keySlot t key K).2.Formed := by
  rw [keySlot]
  split
  · exact h
  apply (newSlot_within h).2.modify
  intro e _
  simp only [length_take]
  omega

theorem HmsKv.Unique.claim (h : K.Unique) (hn : kvFind K key = none) (i : Nat) :
    (K.modify i (fun e => { e with key := key, inUse := true })).Unique := by
  rw [kvFind_eq_none] at hn
  -- a slot other than `i` is as it was, and `i` itself holds nothing but `key`
  have hold : ∀ (k : Bytes) (j : Nat) (e : KvEntry),
      (K.modify i (fun e => { e with key := key, inUse := true })).tab[j]? = some e →
        e.holds k = true → (i = j ∧ k = key) ∨ (k ≠ key ∧ ∃ e, K.tab[j]? = some e ∧ e.holds k = true) := by
    intro k j e he hk
    rw [modify_slot,map_eq_some_iff] at he
    obtain ⟨e0,h0,rfl⟩ := he
    by_cases hij : i = j
    · rw [if_pos hij,holds_iff] at hk
      exact .inl ⟨hij,hk.2.symm⟩
    rw [if_neg hij] at hk
    refine .inr ⟨?_,e0,h0,hk⟩
    rintro rfl
    rw [hn j e0 h0] at hk
    exact Bool.noConfusion hk
  intro k j j' e e' hj hj' he he'
  rcases hold k j e hj he with ⟨hij,hk⟩ | ⟨hk,x,hx,hxk⟩
  · rcases hold k j' e' hj' he' with ⟨hij',-⟩ | ⟨hk',-⟩
    · exact hij.symm.trans hij'
    · exact absurd hk hk'
  · rcases hold k j' e' hj' he' with ⟨-,hk'⟩ | ⟨-,y,hy,hyk⟩
    · exact absurd hk' hk
    · exact h k j j' x y hx hy hxk hyk

theorem keySlot_unique (h : K.Formed) (hu : K.Unique) (hlen : key.length < 64) :
    (keySlot t key K).2.Unique := by
  rw [keySlot]
  cases hf : kvFind K key with
  | some i => exact hu
  | none =>
    have hw := (newSlot_within (t := t) h).1
    simp only [claimSlot,take_eq_iff.mpr hlen]
    exact (hw.unique hu).claim (hw.find_none hf) _

theorem ticked_within (t : Tier) (K : HmsKv) : Within (ticked t K) K := by
  cases t with
  | l1 | l2 | l3 => exact ⟨rfl,(Within.refl K).kept⟩

theorem kvGet_within (t : Tier) (key : Bytes) (ioLen : Nat) (h : K.Formed) :
    Within (kvGet t key ioLen K).2.2 K ∧ (kvGet t key ioLen K).2.2.Formed := by
  cases hf : kvFind K key with
  | none => cases t <;> simpa [kvGet,l1GetKv,tierGet,hf] using ⟨Within.refl K,h⟩
  | some i =>
    cases t with
    | l1 =>
      simp only [kvGet,l1GetKv,hf]
      exact ⟨(Within.refl K).modify i (fun e he => ⟨he,rfl⟩),h.modify i (fun _ he => he)⟩
    | l2 | l3 =>
      simp only [kvGet,tierGet,hf]
      exact ⟨(ticked_within .l2 K).modify i (fun e he => ⟨he,rfl⟩),
        (ticked_formed (t := .l2) h).modify i (fun _ he => he)⟩

theorem kvPut_within (t : Tier) (grant : Bool) (key data : Bytes) (h : K.Formed) :
    Within (kvPut t grant key data K).2 (keySlot t key K).2 ∧ (kvPut t grant key data K).2.Formed := by
  have hs := keySlot_formed t key h
  rw [kvPut_eq]
  split
  · refine ⟨(ticked_within t _).modify _ ?_,(ticked_formed hs).modify _ ?_⟩
    · intro e he
      simpa using he
    · intro e he
      simpa using he
  · exact ⟨(Within.refl _).modify _ (fun e he => Bool.noConfusion he),hs.modify _ (fun _ he => he)⟩

theorem tierStep_formed (h : K.Formed) (o : Op) : (tierStep t K o).Formed := by
  cases o with
  | get t' key ioLen =>
    rw [tierStep]
    split
    · exact (kvGet_within t key ioLen h).2
    · exact h
  | put t' key data grant =>
    rw [tierStep]
    split
    · exact (kvPut_within t grant key data h).2
    · exact h

def Op.ShortPut (t : Tier) : Op → Prop
  | .get _ _ _ => True
  | .put t' key _ _ => t' = t → key.length < 64

instance (t : Tier) (o : Op) : Decidable (o.ShortPut t) :=
  match o with
  | .get _ _ _ => inferInstanceAs (Decidable True)
  | .put t' key _ _ => inferInstanceAs (Decidable (t' = t → key.length < 64))

theorem tierStep_unique (h : K.Formed) (hu : K.Unique) {o : Op} (ho : o.ShortPut t) :
    (tierStep t K o).Unique := by
  cases o with
  | get t' key ioLen =>
    rw [tierStep]
    split
    · exact (kvGet_within t key ioLen h).1.unique hu
    · exact hu
  | put t' key data grant =>
    rw [tierStep]
    split
    · rename_i hput
      exact (kvPut_within t grant key data h).1.unique (keySlot_unique h hu (ho hput.1))
    · exact hu

theorem tierRun_formed (h : K.Formed) (ops : List Op) : (ops.foldl (tierStep t) K).Formed := by
  induction ops generalizing K with
  | nil => exact h
  | cons o ops ih => exact ih (tierStep_formed h o)

theorem tierRun_unique (h : K.Formed) (hu : K.Unique) (hops : ∀ o ∈ ops, o.ShortPut t) :
    (ops.foldl (tierStep t) K).Unique := by
  induction ops generalizing K with
  | nil => exact hu
  | cons o ops ih =>
    obtain ⟨ho,hr⟩ := forall_mem_cons.mp hops
    exact ih (tierStep_formed h o) (tierStep_unique h hu ho) hr

theorem Holds.unique {held : Option Bytes} (h : Holds held cap K) : K.Unique := by
  obtain ⟨e,hf,-⟩ := h.first
  have hz : ∀ (key : Bytes) (i : Nat) (x : KvEntry), K.tab[i]? = some x →
      x.holds key = true → i = 0 := by
    intro key i x hx hh
    rcases hf.entry i with ⟨-,hi⟩ | hu
    · exact hi
    · rw [getD_eq_getElem?_getD,hx,Option.getD_some] at hu
      rw [(holds_iff.mp hh).1] at hu
      exact Bool.noConfusion hu
  intro key i j x y hx hy hxk hyk
  rw [hz key i x hx hxk,hz key j y hy hyk]

end

structure HmsKv.Dated (n : Nat) (K : HmsKv) : Prop where
  clock : K.clock.toNat ≤ n
  tags : ∀ e ∈ K.tab, e.lruTag.toNat ≤ n

section
variable {t : Tier} {n : Nat} {K : HmsKv}

theorem HmsKv.Dated.mono (h : K.Dated n) {m : Nat} (hm : n ≤ m) : K.Dated m :=
  ⟨h.clock.trans hm,fun e he => (h.tags e he).trans hm⟩

theorem HmsKv.Dated.modify (h : K.Dated n) (i : Nat)
    (hf : ∀ e, e.lruTag.toNat ≤ n → (f e).lruTag.toNat ≤ n) : (K.modify i f).Dated n := by
  refine ⟨h.clock,?_⟩
  intro e he
  obtain ⟨e0,h0,rfl | rfl⟩ := mem_modify he
  · exact hf e0 (h.tags e0 h0)
  · exact h.tags e h0

theorem HmsKv.Dated.tick (h : K.Dated n) (hn : n+1 < 2^64) :
    ({ K with clock := K.clock+1 } : HmsKv).Dated (n+1) := by
  have hc := h.clock
  refine ⟨?_,fun e he => Nat.le_succ_of_le (h.tags e he)⟩
  rw [UInt64.toNat_add,UInt64.toNat_one]
  omega

theorem l1Turns_dated (m : Nat) (h : K.Dated n) : (l1Turns m K).2.Dated n := by
  induction m generalizing K with
  | zero => exact h.modify 0 (fun _ _ => Nat.zero_le n)
  | succ m ih =>
    have ht : ({ K with hand := (K.hand+1)%K.cap } : HmsKv).Dated n := ⟨h.clock,h.tags⟩
    rw [l1Turns]
    split
    · exact ih ht
    · split
      · exact ht.modify _ (fun _ _ => Nat.zero_le n)
      · exact ih (ht.modify _ (fun _ he => he))

theorem tierSlot_dated (h : K.Dated n) : (tierSlot K).2.Dated n := by
  rw [tierSlot]
  split
  · rw [lruEvict]
    split
    · exact h.modify _ (fun _ _ => Nat.zero_le n)
    · exact h
  · exact h

theorem keySlot_dated (key : Bytes) (h : K.Dated n) : (keySlot t key K).2.Dated n := by
  rw [keySlot]
  split
  · exact h
  refine HmsKv.Dated.modify ?_ _ (fun _ he => he)
  cases t with
  | l1 => exact l1Turns_dated _ h
  | l2 | l3 => exact tierSlot_dated h

theorem ticked_dated (h : K.Dated n) (hn : n+1 < 2^64) : (ticked t K).Dated (n+1) := by
  cases t with
  | l1 => exact h.mono (Nat.le_succ n)
  | l2 | l3 => exact h.tick hn

theorem tierStep_dated (h : K.Dated n) (hn : n+1 < 2^64) (o : Op) : (tierStep t K o).Dated (n+1) := by
  cases o with
  | get t' key ioLen =>
    rw [tierStep]
    split
    · have ht := ticked_dated (t := t) h hn
      cases hf : kvFind K key with
      | none =>
        cases t <;> simpa [kvGet,l1GetKv,tierGet,hf] using h.mono (Nat.le_succ n)
      | some i =>
        cases t with
        | l1 =>
          simp only [kvGet,l1GetKv,hf]
          exact ht.modify i (fun _ he => he)
        | l2 | l3 =>
          simp only [kvGet,tierGet,hf]
          exact ht.modify i (fun _ _ => ht.clock)
    · exact h.mono (Nat.le_succ n)
  | put t' key data grant =>
    rw [tierStep]
    split
    · have hs := keySlot_dated (t := t) key h
      have ht := ticked_dated (t := t) hs hn
      rw [kvPut_eq]
      split
      · refine ht.modify _ (fun e he => ?_)
        cases t with
        | l1 => exact he
        | l2 | l3 => exact ht.clock
      · exact (hs.mono (Nat.le_succ n)).modify _ (fun _ he => he)
    · exact h.mono (Nat.le_succ n)

theorem tierRun_dated (h : K.Dated n) (ops : List Op) (hn : n+ops.length < 2^64) :
    (ops.foldl (tierStep t) K).Dated (n+ops.length) := by
  induction ops generalizing K n with
  | nil => exact h
  | cons o ops ih =>
    rw [length_cons] at hn ⊢
    have hr := ih (tierStep_dated (t := t) h (by omega) o) (by omega)
    rw [add_assoc,add_comm 1] at hr
    exact hr

theorem HmsKv.Dated.room (h : K.Dated n) (hn : n < 2^64-1) (hf : K.Formed) (t : Tier) : Room t K := by
  intro _ hfl
  have hcap := hf.hand
  rw [← live_length] at hfl
  obtain ⟨e,he⟩ := exists_mem_of_length_pos (l := K.live) (by omega)
  exact ⟨e,he,(h.tags e (mem_filter.mp he).1).trans_lt hn⟩

end

def hmsCacheGet : Tier → HmsCache → Bytes → Nat → Int × Bytes × HmsCache
  | .l1 => hmsCacheL1Get
  | .l2 => hmsCacheL2Get
  | .l3 => hmsCacheL3Get

def hmsCachePut : Tier → Bool → HmsCache → Bytes → Bytes → Int × HmsCache
  | .l1 => hmsCacheL1Put
  | .l2 => hmsCacheL2Put
  | .l3 => hmsCacheL3Put

def HmsCache.Formed (c : HmsCache) : Prop := ∀ t K, c.tier t = some K → K.Formed

theorem hmsCacheGet_tier (h : c.tier t = some K) (key : Bytes) (ioLen : Nat) :
    (hmsCacheGet t c key ioLen).1 = (kvGet t key ioLen K).1 ∧
      (hmsCacheGet t c key ioLen).2.1 = (kvGet t key ioLen K).2.1 := by
  have ht : ∀ (get : HmsKv → Int × Bytes × HmsKv) (hit : HmsCache → HmsKv → HmsCache),
      (getThrough (some K) get hit c).1 = (get K).1 ∧
        (getThrough (some K) get hit c).2.1 = (get K).2.1 := by
    intro get hit
    rw [getThrough]
    split
    · exact ⟨Eq.symm ‹_›,rfl⟩
    · exact ⟨rfl,rfl⟩
  cases t with
  | l1 | l2 | l3 =>
    rw [HmsCache.tier] at h
    simp only [hmsCacheGet,hmsCacheL1Get,hmsCacheL2Get,hmsCacheL3Get,h]
    exact ht _ _

theorem hmsCachePut_ok {data : Bytes} (h : (hmsCachePut t grant c key data).1 = 0) :
    ∃ K, c.tier t = some K ∧ (kvPut t grant key data K).1 = 0 ∧
      (hmsCachePut t grant c key data).2.tier t = some (kvPut t grant key data K).2 := by
  have ht : ∀ (kv : Option HmsKv) (put : HmsKv → Int × HmsKv)
      (set : HmsCache → HmsKv → HmsCache), (putThrough kv data put set c).1 = 0 →
      ∃ K, kv = some K ∧ (put K).1 = 0 ∧ (putThrough kv data put set c).2 = set c (put K).2 := by
    intro kv put set hrc
    unfold putThrough at hrc ⊢
    cases kv with
    | none => exact absurd (show -einval = 0 from hrc) (by decide)
    | some K =>
      simp only at hrc ⊢
      split at hrc
      · exact absurd (show -einval = 0 from hrc) (by decide)
      · exact ⟨K,rfl,hrc,by rw [if_neg ‹_›]⟩
  cases t with
  | l1 | l2 | l3 =>
    obtain ⟨K,hK,hrc,hset⟩ := ht _ _ _ h
    exact ⟨K,hK,hrc,congrArg (HmsCache.tier · _) hset⟩

theorem emptyTable_formed (hpos : 0 < cap) (hcap : cap < 2^32) :
    (⟨replicate cap zeroEntry,0,0⟩ : HmsKv).Formed :=
  ⟨by simp [zeroEntry],by simpa [HmsKv.cap] using hpos,by simpa [HmsKv.cap] using hcap⟩

theorem emptyTable_dated (cap : Nat) : (⟨replicate cap zeroEntry,0,0⟩ : HmsKv).Dated 0 :=
  ⟨le_refl 0,by simp [zeroEntry]⟩

theorem emptyTable_unique (cap : Nat) : (⟨replicate cap zeroEntry,0,0⟩ : HmsKv).Unique := by
  intro key i j e e' hi _ he _
  have hmem := mem_of_getElem? hi
  rw [(mem_replicate.mp hmem).2] at he
  exact Bool.noConfusion (holds_iff.mp he).1

theorem hmsCacheInit_tier (h : (hmsCacheInit grants1 grants2 grants3 l1Slots).tier t = some K) :
    ∃ cap, 0 < cap ∧ cap < 2^32 ∧ K = ⟨replicate cap zeroEntry,0,0⟩ := by
  have hc : ∀ {grants : Bool × Bool} {cap : Nat}, kvCreate grants cap = some K →
      K = ⟨replicate cap zeroEntry,0,0⟩ := by
    intro grants cap hkv
    rw [kvCreate] at hkv
    split at hkv
    · exact (Option.some.inj hkv).symm
    · cases hkv
  cases t with
  | l1 =>
    refine ⟨_,?_,UInt32.toNat_lt _,hc h⟩
    split
    · decide
    · exact Nat.pos_of_ne_zero (fun hz => ‹¬ _› (UInt32.toNat_inj.mp hz))
  | l2 => exact ⟨256,by decide,by decide,hc h⟩
  | l3 => exact ⟨512,by decide,by decide,hc h⟩

theorem run_init_tier (h : (run ops (hmsCacheInit grants1 grants2 grants3 l1Slots)).tier t = some K) :
    ∃ cap, 0 < cap ∧ cap < 2^32 ∧ K = ops.foldl (tierStep t) ⟨replicate cap zeroEntry,0,0⟩ := by
  rw [run_tier,map_eq_some_iff] at h
  obtain ⟨K0,hK0,rfl⟩ := h
  obtain ⟨cap,hpos,hcap,rfl⟩ := hmsCacheInit_tier hK0
  exact ⟨cap,hpos,hcap,rfl⟩

theorem getAfterPut_iff (grants1 grants2 grants3 : Bool × Bool) (l1Slots : UInt32) (ops : List Op) :
    (∀ (c : HmsCache) (t : Tier) (key data : Bytes) (grant : Bool), c.Formed →
      (hmsCachePut t grant c key data).1 = 0 →
      ((∀ ioLen, (hmsCacheGet t (hmsCachePut t grant c key data).2 key ioLen).1 = 0 ∧
          (hmsCacheGet t (hmsCachePut t grant c key data).2 key ioLen).2.1 = data.take ioLen) ↔
        key.length < 64 ∧ ∀ K, c.tier t = some K → kvFind K key = none → Room t K)) ∧
    (run ops (hmsCacheInit grants1 grants2 grants3 l1Slots)).Formed ∧
      ∀ t K, (run ops (hmsCacheInit grants1 grants2 grants3 l1Slots)).tier t = some K →
        (ops.length < 2^64-1 → Room t K) ∧
        ((t = .l1 ∨ ∀ o ∈ ops, o.ShortPut t) → K.Unique) := by
  constructor
  · intro c t key data grant hform hput
    obtain ⟨K,hK,hrc,hafter⟩ := hmsCachePut_ok hput
    have hget := fun ioLen => hmsCacheGet_tier hafter key ioLen
    have hroom : (∀ K', c.tier t = some K' → kvFind K' key = none → Room t K') ↔
        (kvFind K key = none → Room t K) := by
      constructor
      · exact fun h => h K hK
      · intro h K' hK'
        rw [hK,some.injEq] at hK'
        exact hK' ▸ h
    rw [hroom,← kvGet_kvPut_iff (hform t K hK) hrc]
    simp only [hget]
  constructor
  · intro t K hK
    obtain ⟨cap,hpos,hcap,rfl⟩ := run_init_tier hK
    exact tierRun_formed (emptyTable_formed hpos hcap) ops
  intro t K hK
  obtain ⟨cap,hpos,hcap,rfl⟩ := run_init_tier hK
  have hform := emptyTable_formed hpos hcap
  constructor
  · intro hlen
    have hdated := tierRun_dated (t := t) (emptyTable_dated cap) ops (by omega)
    exact hdated.room (by omega) (tierRun_formed hform ops) t
  rintro (rfl | hops)
  · -- L1 only ever uses its first slot
    rcases hmsCacheInit_l1 grants1 grants2 grants3 l1Slots with hnone | hheld
    · have hno := run_tier ops (hmsCacheInit grants1 grants2 grants3 l1Slots) .l1
      rw [show (hmsCacheInit grants1 grants2 grants3 l1Slots).tier .l1 = none from hnone,hK] at hno
      exact nomatch hno
    obtain ⟨L,hL,hholds⟩ := hheld.run ops
    rw [show (run ops (hmsCacheInit grants1 grants2 grants3 l1Slots)).l1 = _ from hK,
      some.injEq] at hL
    rw [hL]
    exact hholds.unique
  · exact tierRun_unique hform (emptyTable_unique cap) hops

theorem getAfterPut_iff_short : (hmsCacheGet .l2 (hmsCachePut .l2 true
      (hmsCacheInit (true,true) (true,true) (true,true) 1) [97] [1,2]).2 [97] 8).2.1 = [1,2] ∧
    ∀ K, (run [.put .l2 [97] [1,2] true]
      (hmsCacheInit (true,true) (true,true) (true,true) 1)).tier .l2 = some K → K.Unique := by
  have hinit := (getAfterPut_iff (true,true) (true,true) (true,true) 1 []).2
  have hget := ((getAfterPut_iff (true,true) (true,true) (true,true) 1 []).1 (hmsCacheInit (true,true) (true,true) (true,true) 1) .l2
    [97] [1,2] true hinit.1 (by decide +kernel)).mpr
      ⟨by decide,fun K hK _ => (hinit.2 .l2 K hK).1 (by decide)⟩
  refine ⟨(hget 8).2,?_⟩
  intro K hK
  exact ((getAfterPut_iff (true,true) (true,true) (true,true) 1 _).2.2 .l2 K hK).2
    (.inr (by decide))

theorem getAfterPut_long_key : ∃ c, c = run [.put .l2 (List.replicate 64 97) [1] true]
      (hmsCacheInit (true,true) (true,true) (true,true) 1) ∧
    (hmsCachePut .l2 true c (List.replicate 64 97) [1]).1 = 0 ∧
    (hmsCacheGet .l2 (hmsCachePut .l2 true c (List.replicate 64 97) [1]).2
      (List.replicate 64 97) 1).1 = -enoent ∧
    ∃ K, (hmsCachePut .l2 true c (List.replicate 64 97) [1]).2.tier .l2 = some K ∧
      ¬ K.Unique := by
  refine ⟨_,rfl,by decide +kernel,by decide +kernel,_,(Option.some_get (by decide +kernel)).symm,
    fun hu => ?_⟩
  have heq := hu (replicate 63 97) 0 1 ⟨replicate 63 97,some [1],1,0,1,true⟩
    ⟨replicate 63 97,some [1],1,0,2,true⟩ (by decide +kernel) (by decide +kernel)
    (by decide) (by decide)
  exact absurd heq (by decide)

/-! What a put that runs out of memory does to the stored keys. -/

/-- What a get can see of an entry. -/
def KvEntry.face (e : KvEntry) : Bool × Bytes × Bytes := (e.inUse,e.key,e.value)

def look (key : Bytes) (tab : List KvEntry) : Option Bytes :=
  (tab.find? (KvEntry.holds key)).map KvEntry.value

/-- The slot is idle, or the other slots give the same value for its key. -/
def HmsKv.Spare (K : HmsKv) (i : Nat) : Prop :=
  ∀ e, K.tab[i]? = some e → e.inUse = true → look e.key (K.tab.eraseIdx i) = look e.key K.tab

section
variable {K : HmsKv} {data : Bytes} {l l' : List KvEntry}

theorem look_congr (h : l.map KvEntry.face = l'.map KvEntry.face) : look key l = look key l' := by
  have hl : ∀ l : List KvEntry, look key l =
      ((l.map KvEntry.face).find? fun x => x.1 && x.2.1 == key).map fun x => x.2.2 := by
    intro l
    rw [find?_map,Option.map_map]
    rfl
  rw [hl,hl,h]

theorem look_eraseIdx (h : ∀ e, l[i]? = some e → e.holds key = false) :
    look key (l.eraseIdx i) = look key l := by
  unfold look
  congr 1
  induction l generalizing i with
  | nil => rfl
  | cons e l ih =>
    cases i with
    | zero => simp [h e rfl]
    | succ i => simp [find?_cons,ih h]

theorem map_face_modify (hf : ∀ e, (f e).face = e.face) (l : List KvEntry) (i : Nat) :
    (l.modify i f).map KvEntry.face = l.map KvEntry.face := by
  induction l generalizing i with
  | nil => simp
  | cons e l ih => cases i <;> simp [hf,ih]

theorem faces_modify (K : HmsKv) (i : Nat) (f : KvEntry → KvEntry) :
    ((K.modify i f).tab.map KvEntry.face).eraseIdx i = (K.tab.map KvEntry.face).eraseIdx i := by
  rw [HmsKv.modify,eraseIdx_map,eraseIdx_modify_of_eq,eraseIdx_map]

/-- The turns of the hand change only reference bits outside the slot they end at. -/
theorem l1Turns_faces (n : Nat) (L : HmsKv) :
    ((l1Turns n L).2.tab.map KvEntry.face).eraseIdx (l1Turns n L).1 =
      (L.tab.map KvEntry.face).eraseIdx (l1Turns n L).1 := by
  induction n generalizing L with
  | zero => exact faces_modify L 0 _
  | succ n ih =>
    rw [l1Turns]
    split
    · exact ih _
    split
    · exact faces_modify _ _ _
    · have hm := map_face_modify (f := fun e => { e with ref := 0 }) (fun _ => rfl) L.tab L.hand
      exact (ih _).trans (congrArg (eraseIdx · _) hm)

theorem keySlot_faces (t : Tier) (key : Bytes) (K : HmsKv) :
    ((keySlot t key K).2.tab.map KvEntry.face).eraseIdx (keySlot t key K).1 =
      (K.tab.map KvEntry.face).eraseIdx (keySlot t key K).1 := by
  have hn : ((newSlot t K).2.tab.map KvEntry.face).eraseIdx (newSlot t K).1 =
      (K.tab.map KvEntry.face).eraseIdx (newSlot t K).1 := by
    have ht : ((tierSlot K).2.tab.map KvEntry.face).eraseIdx (tierSlot K).1 =
        (K.tab.map KvEntry.face).eraseIdx (tierSlot K).1 := by
      rw [tierSlot,lruEvict]
      split
      · dsimp only
        split
        · exact faces_modify _ _ _
        · rfl
      · rfl
    cases t with
    | l1 => exact l1Turns_faces _ K
    | l2 | l3 => exact ht
  rw [keySlot]
  cases kvFind K key with
  | some i => rfl
  | none => exact (faces_modify _ _ _).trans hn

/-- A put without memory reads as if the slot it takes were gone. -/
theorem look_kvPut (hs : ¬ served grant data.length = true) (key' : Bytes) :
    look key' (kvPut t grant key data K).2.tab = look key' (K.tab.eraseIdx (keySlot t key K).1) := by
  have hf := keySlot_faces t key K
  rw [eraseIdx_map,eraseIdx_map] at hf
  rw [kvPut_eq,if_neg hs,← look_congr hf,HmsKv.modify,← eraseIdx_modify_of_eq (fun e : KvEntry => { e with blob := none, inUse := false }),look_eraseIdx]
  intro e he
  rw [getElem?_modify_eq] at he
  obtain ⟨e0,-,rfl⟩ := map_eq_some_iff.mp he
  rfl

theorem kvGet_look (t : Tier) (key : Bytes) (n : Nat) (K : HmsKv) :
    (look key K.tab = none → (kvGet t key n K).1 ≠ 0) ∧ ∀ v, look key K.tab = some v →
      (kvGet t key n K).1 = 0 ∧ (kvGet t key n K).2.1 = v.take n := by
  have hl : look key K.tab = ((kvFind K key).bind (K.tab[·]?)).map KvEntry.value := by
    rw [look,find?_eq_bind_findIdx?_getElem?]
    rfl
  rw [hl]
  cases hk : kvFind K key with
  | none => simp [(kvGet_eq t key n K).1 hk,enoent]
  | some i =>
    obtain ⟨hi,-⟩ := kvFind_some hk
    obtain ⟨hrc,hout⟩ := (kvGet_eq t key n K).2 i hk
    simp [hrc,hout,hi,copyOut,KvEntry.value,take_take]

theorem kept_iff_spare (hs : ¬ served grant data.length = true) :
    (∀ key' n, (kvGet t key' n K).1 = 0 → (kvGet t key' n (kvPut t grant key data K).2).1 = 0 ∧
        (kvGet t key' n (kvPut t grant key data K).2).2.1 = (kvGet t key' n K).2.1) ↔
      K.Spare (keySlot t key K).1 := by
  have hput : ∀ key', look key' (kvPut t grant key data K).2.tab = _ := look_kvPut hs
  constructor
  · intro h e he huse
    rw [← hput]
    cases hv : look e.key K.tab with
    | none =>
      have := find?_eq_none.mp (Option.map_eq_none_iff.mp hv) e (mem_of_getElem? he)
      simp [KvEntry.holds,huse] at this
    | some v =>
      have hg := fun n => (kvGet_look t e.key n K).2 v hv
      cases hv' : look e.key (kvPut t grant key data K).2.tab with
      | none => exact absurd (h e.key 0 (hg 0).1).1 ((kvGet_look t e.key 0 _).1 hv')
      | some v' =>
        have hn := (h e.key (v.length+v'.length) (hg _).1).2
        rw [(hg _).2,((kvGet_look t e.key _ _).2 v' hv').2,take_of_length_le (by omega),
          take_of_length_le (by omega)] at hn
        rw [hn]
  · intro hsp key' n hr
    cases hv : look key' K.tab with
    | none => exact absurd hr ((kvGet_look t key' n K).1 hv)
    | some v =>
      have hk : look key' (K.tab.eraseIdx (keySlot t key K).1) = look key' K.tab := by
        cases he : K.tab[(keySlot t key K).1]? with
        | none => exact look_eraseIdx (by simp [he])
        | some e =>
          by_cases hh : e.holds key' = true
          · obtain ⟨huse,rfl⟩ := holds_iff.mp hh
            exact hsp e he huse
          · exact look_eraseIdx (by simpa [he] using hh)
      rw [((kvGet_look t key' n K).2 v hv).2]
      exact (kvGet_look t key' n _).2 v ((hput key').trans (hk.trans hv))

theorem hmsCachePut_tier (h : c.tier t = some K) (hd : data ≠ []) :
    (hmsCachePut t grant c key data).1 = (kvPut t grant key data K).1 := by
  have hd : data.length ≠ 0 := fun hz => hd (length_eq_zero_iff.mp hz)
  cases t <;> simp_all [HmsCache.tier,hmsCachePut,hmsCacheL1Put,hmsCacheL2Put,hmsCacheL3Put,putThrough,kvPut]

theorem hmsCachePut_eq_enomem : (hmsCachePut t grant c key data).1 = -enomem ↔
    ∃ K, c.tier t = some K ∧ data ≠ [] ∧ ¬ served grant data.length = true := by
  cases hK : c.tier t with
  | none =>
    cases t <;> simp_all [HmsCache.tier,hmsCachePut,hmsCacheL1Put,hmsCacheL2Put,hmsCacheL3Put,
      putThrough,einval,enomem]
  | some K =>
    by_cases hd : data = []
    · cases t <;> simp_all [HmsCache.tier,hmsCachePut,hmsCacheL1Put,hmsCacheL2Put,hmsCacheL3Put,
        putThrough,einval,enomem]
    · rw [hmsCachePut_tier hK hd,kvPut_eq]
      split_ifs with hs <;> simp [hd,hs,enomem]

end

/-- A put that returns -ENOMEM leaves every readable key as it is exactly if the slot it takes, its
key's own or the one it evicts, is spare. -/
theorem hmsCachePut_enomem_iff (c : HmsCache) (t : Tier) (grant : Bool) (key data : Bytes) :
    ((hmsCachePut t grant c key data).1 = -enomem → ∀ t' key' n, (hmsCacheGet t' c key' n).1 = 0 →
        (hmsCacheGet t' (hmsCachePut t grant c key data).2 key' n).1 = 0 ∧
          (hmsCacheGet t' (hmsCachePut t grant c key data).2 key' n).2.1 = (hmsCacheGet t' c key' n).2.1) ↔
      ∀ K ∈ c.tier t, data ≠ [] → ¬ served grant data.length = true → K.Spare (keySlot t key K).1 := by
  have ha : ∀ t', (hmsCachePut t grant c key data).2.tier t' =
      (c.tier t').map fun K => tierStep t' K (.put t key data grant) := by
    intro t'
    rw [← step_tier]
    cases t <;> rfl
  constructor
  · intro h K hK hd hs
    have hafter : (hmsCachePut t grant c key data).2.tier t = some (kvPut t grant key data K).2 := by
      rw [ha,hK]
      simp [tierStep,hd]
    refine (kept_iff_spare hs).mp fun key' n hr => ?_
    have := h (hmsCachePut_eq_enomem.mpr ⟨K,hK,hd,hs⟩) t key' n
    rw [(hmsCacheGet_tier hK key' n).1,(hmsCacheGet_tier hK key' n).2,
      (hmsCacheGet_tier hafter key' n).1,(hmsCacheGet_tier hafter key' n).2] at this
    exact this hr
  · intro hsp h t' key' n hr
    obtain ⟨K,hK,hd,hs⟩ := hmsCachePut_eq_enomem.mp h
    rcases hK' : c.tier t' with - | K'
    · cases t' <;> simp_all [HmsCache.tier,hmsCacheGet,hmsCacheL1Get,hmsCacheL2Get,hmsCacheL3Get,
        getThrough,einval]
    have hafter := ha t'
    rw [hK',Option.map_some,tierStep] at hafter
    rw [(hmsCacheGet_tier hK' key' n).1] at hr
    rw [(hmsCacheGet_tier hafter key' n).1,(hmsCacheGet_tier hafter key' n).2,
      (hmsCacheGet_tier hK' key' n).2]
    split
    · obtain ⟨rfl,-⟩ := ‹_ ∧ _›
      rw [hK,some.injEq] at hK'
      subst hK'
      exact (kept_iff_spare hs).mpr (hsp K hK hd hs) key' n hr
    · exact ⟨hr,rfl⟩

def oneKey : HmsCache := run [.put .l2 [98] [2] true] (hmsCacheInit (true,true) (true,true) (true,true) 1)

theorem hmsCachePut_loses_key :
    (hmsCacheGet .l2 oneKey [98] 8).2.1 = [2] ∧ (hmsCachePut .l2 false oneKey [98] [1]).1 = -enomem ∧
      (hmsCacheGet .l2 (hmsCachePut .l2 false oneKey [98] [1]).2 [98] 8).1 = -enoent := by
  decide +kernel

end AevOS.Cache
