import Mathlib

/-! Entries kept in chains, and the finite map they stand for: `place` is the chain an entry belongs to. -/

namespace AevOS.Chains
open List

variable {i : Nat}

section
variable {E : Type} {place : E → Nat} {bs : List (List E)}

def Placed (place : E → Nat) (bs : List (List E)) : Prop :=
  ∀ (i : Nat) (c : List E), bs[i]? = some c → ∀ e ∈ c, place e = i

theorem Placed.mem_iff (h : Placed place bs) {e : E} :
    e ∈ bs.flatten ↔ ∃ c, bs[place e]? = some c ∧ e ∈ c := by
  rw [mem_flatten]
  constructor
  · rintro ⟨c,hc,he⟩
    obtain ⟨i,hi⟩ := mem_iff_getElem?.mp hc
    exact ⟨c,by rw [h i c hi e he]; exact hi,he⟩
  · rintro ⟨c,hc,he⟩
    exact ⟨c,mem_of_getElem? hc,he⟩

theorem Placed.modify (h : Placed place bs) (i : Nat) {f : List E → List E}
    (hf : ∀ (c : List E), ∀ e ∈ f c, e ∈ c ∨ place e = i) : Placed place (bs.modify i f) := by
  intro j c hj e he
  rw [getElem?_modify] at hj
  obtain ⟨c0,hc0,rfl⟩ := Option.map_eq_some_iff.mp hj
  by_cases hij : i = j
  · simp only [hij,if_true] at he
    rcases hf c0 e he with hmem | hp
    · exact h j c0 hc0 e hmem
    · exact hp.trans hij
  · simp only [hij,if_false] at he
    exact h j c0 hc0 e he

section
variable (place : E → Nat) (n : Nat) (es : List E)

theorem mem_flatten_modify {f : List E → List E} {e : E} (h : e ∈ (bs.modify i f).flatten) :
    e ∈ bs.flatten ∨ ∃ c, bs[i]? = some c ∧ e ∈ f c := by
  obtain ⟨c,hc,he⟩ := mem_flatten.mp h
  obtain ⟨j,hj⟩ := mem_iff_getElem?.mp hc
  rw [getElem?_modify] at hj
  obtain ⟨c0,hc0,rfl⟩ := Option.map_eq_some_iff.mp hj
  by_cases hij : i = j
  · simp only [hij,if_true] at he
    exact .inr ⟨c0,hij ▸ hc0,he⟩
  · simp only [hij,if_false] at he
    exact .inl (mem_flatten.mpr ⟨c0,mem_of_getElem? hc0,he⟩)

theorem flatten_perm {c : List E} (h : bs[i]? = some c) : bs.flatten.Perm (c ++ (bs.eraseIdx i).flatten) := by
  obtain ⟨hi,rfl⟩ := List.getElem?_eq_some_iff.mp h
  exact (getElem_cons_eraseIdx_perm hi).symm.flatten

theorem flatten_modify_perm {c : List E} (h : bs[i]? = some c) (f : List E → List E) :
    (bs.modify i f).flatten.Perm (f c ++ (bs.eraseIdx i).flatten) := by
  have hmod : (bs.modify i f)[i]? = some (f c) := by
    rw [getElem?_modify,h]
    simp
  have hp := flatten_perm hmod
  rwa [eraseIdx_modify_of_eq] at hp

def rehash (place : E → Nat) (n : Nat) (es : List E) : List (List E) :=
  es.foldl (fun bs e => bs.modify (place e) (e :: ·)) (List.replicate n [])

theorem pushAll_length (bs : List (List E)) :
    (es.foldl (fun bs e => bs.modify (place e) (e :: ·)) bs).length = bs.length := by
  induction es generalizing bs with
  | nil => rfl
  | cons e es ih => rw [foldl_cons,ih,length_modify]

theorem rehash_length : (rehash place n es).length = n := by
  rw [rehash,pushAll_length,length_replicate]

theorem placed_replicate_nil : Placed place (replicate n []) := by
  intro i c hi e he
  rw [(mem_replicate.mp (mem_of_getElem? hi)).2] at he
  exact absurd he not_mem_nil

theorem rehash_placed : Placed place (rehash place n es) := by
  have hp : ∀ bs, Placed place bs →
      Placed place (es.foldl (fun bs e => bs.modify (place e) (e :: ·)) bs) := by
    induction es with
    | nil => exact fun _ h => h
    | cons e es ih =>
      intro bs h
      refine ih _ (h.modify (place e) ?_)
      intro c x hx
      rcases mem_cons.mp hx with rfl | hx
      · exact .inr rfl
      · exact .inl hx
  exact hp _ (placed_replicate_nil place n)

end

theorem rehash_perm {n : Nat} {es : List E} (h : ∀ e ∈ es, place e < n) :
    (rehash place n es).flatten.Perm es := by
  have hps : ∀ bs : List (List E), bs.length = n →
      (es.foldl (fun bs e => bs.modify (place e) (e :: ·)) bs).flatten.Perm (es ++ bs.flatten) := by
    induction es with
    | nil => exact fun bs _ => Perm.refl _
    | cons e es ih =>
      intro bs hlen
      obtain ⟨he,hes⟩ := forall_mem_cons.mp h
      obtain ⟨c,hc⟩ : ∃ c, bs[place e]? = some c := ⟨_,getElem?_eq_getElem (by omega)⟩
      have hmod := flatten_modify_perm hc (e :: ·)
      have hs : (bs.modify (place e) (e :: ·)).flatten.Perm (e :: bs.flatten) :=
        hmod.trans ((flatten_perm hc).symm.cons e)
      refine (ih hes _ (by rw [length_modify,hlen])).trans ?_
      exact (hs.append_left es).trans perm_middle
  have hp := hps (replicate n []) length_replicate
  rw [flatten_replicate_nil,append_nil] at hp
  exact hp

def appendAll (place : E → Nat) (es : List E) (bs : List (List E)) : List (List E) :=
  es.foldl (fun bs e => bs.modify (place e) (· ++ [e])) bs

theorem appendAll_append (place : E → Nat) (es fs : List E) (bs : List (List E)) :
    appendAll place (es ++ fs) bs = appendAll place fs (appendAll place es bs) :=
  List.foldl_append

theorem modify_middle (f : List E → List E) (c : List E) (front rest : List (List E)) :
    (front ++ c :: rest).modify front.length f = front ++ f c :: rest := by
  induction front with
  | nil => simp
  | cons b front ih => simp [ih]

theorem appendAll_chain (place : E → Nat) (es c : List E) (front rest : List (List E))
    (h : ∀ e ∈ es, place e = front.length) :
    appendAll place es (front ++ c :: rest) = front ++ (c ++ es) :: rest := by
  induction es generalizing c with
  | nil => simp [appendAll]
  | cons e es ih =>
    obtain ⟨he,hes⟩ := forall_mem_cons.mp h
    have hmod : (front ++ c :: rest).modify (place e) (· ++ [e]) = front ++ (c ++ [e]) :: rest := by
      rw [he]
      exact modify_middle (· ++ [e]) c front rest
    rw [appendAll,foldl_cons,hmod]
    have := ih (c ++ [e]) hes
    rw [append_assoc] at this
    exact this

theorem Placed.appendAll_flatten (h : Placed place bs) :
    appendAll place bs.flatten (replicate bs.length []) = bs := by
  suffices hgen : ∀ todo front : List (List E), bs = front ++ todo →
      appendAll place todo.flatten (front ++ replicate todo.length []) = bs from hgen bs [] rfl
  intro todo
  induction todo with
  | nil =>
    intro front hbs
    simp [appendAll,hbs]
  | cons c todo ih =>
    intro front hbs
    have hc : ∀ e ∈ c, place e = front.length := h front.length c (by simp [hbs])
    rw [flatten_cons,appendAll_append,length_cons,replicate_succ,
      appendAll_chain place c [] front _ hc,nil_append]
    have := ih (front ++ [c]) (by simp [hbs])
    simpa using this

end

section
variable {E K V : Type} [DecidableEq K] {key : E → K} {value : E → V}

structure Represents (key : E → K) (value : E → V) (es : List E) (f : Finmap (fun _ : K => V)) :
    Prop where
  keys : (es.map key).Nodup
  pairs : ∀ k v, f.lookup k = some v ↔ ∃ e ∈ es, key e = k ∧ value e = v

section
variable {es : List E} {f : Finmap (fun _ : K => V)}

theorem represents_nil : Represents key value [] (∅ : Finmap (fun _ : K => V)) :=
  ⟨nodup_nil,fun k v => by simp⟩

section
variable (h : Represents key value es f)
include h

theorem Represents.perm {es' : List E} (hp : es'.Perm es) : Represents key value es' f :=
  ⟨(hp.map key).nodup_iff.mpr h.keys,fun k v => by simp only [hp.mem_iff]; exact h.pairs k v⟩

theorem Represents.mem_keys {k : K} : k ∈ f.keys ↔ k ∈ es.map key := by
  rw [Finmap.mem_keys,Finmap.mem_iff,mem_map]
  constructor
  · rintro ⟨v,hv⟩
    obtain ⟨e,he,hk,-⟩ := (h.pairs k v).mp hv
    exact ⟨e,he,hk⟩
  · rintro ⟨e,he,hk⟩
    exact ⟨value e,(h.pairs k _).mpr ⟨e,he,hk,rfl⟩⟩

theorem Represents.card : f.keys.card = es.length := by
  have hset : f.keys = (es.map key).toFinset := by
    ext k
    rw [mem_toFinset,h.mem_keys]
  rw [hset,toFinset_card_of_nodup h.keys,length_map]

theorem Represents.lookup {e : E} (he : e ∈ es) : f.lookup (key e) = some (value e) :=
  (h.pairs _ _).mpr ⟨e,he,rfl,rfl⟩

theorem Represents.lookup_none {k : K} (hk : ∀ e ∈ es, key e ≠ k) : f.lookup k = none := by
  cases hv : f.lookup k with
  | none => rfl
  | some v =>
    obtain ⟨e,he,hek,-⟩ := (h.pairs k v).mp hv
    exact absurd hek (hk e he)

theorem Represents.cons {e : E} (hk : ∀ x ∈ es, key x ≠ key e) :
    Represents key value (e :: es) (f.insert (key e) (value e)) := by
  refine ⟨?_,?_⟩
  · rw [map_cons,nodup_cons]
    refine ⟨?_,h.keys⟩
    rintro hmem
    obtain ⟨x,hx,hxk⟩ := mem_map.mp hmem
    exact hk x hx hxk
  intro k v
  by_cases hkk : k = key e
  · subst hkk
    rw [Finmap.lookup_insert,Option.some.injEq]
    constructor
    · exact fun hv => ⟨e,mem_cons_self,rfl,hv⟩
    rintro ⟨x,hx,hxk,rfl⟩
    rcases mem_cons.mp hx with rfl | hx
    · rfl
    · exact absurd hxk (hk x hx)
  rw [Finmap.lookup_insert_of_ne _ hkk,h.pairs]
  constructor
  · rintro ⟨x,hx,hxk⟩
    exact ⟨x,mem_cons_of_mem e hx,hxk⟩
  rintro ⟨x,hx,rfl,hv⟩
  rcases mem_cons.mp hx with rfl | hx
  · exact absurd rfl hkk
  · exact ⟨x,hx,rfl,hv⟩

end

theorem Represents.tail {e : E} (h : Represents key value (e :: es) f) :
    Represents key value es (f.erase (key e)) ∧ ∀ x ∈ es, key x ≠ key e := by
  have hk := h.keys
  rw [map_cons,nodup_cons] at hk
  have hne : ∀ x ∈ es, key x ≠ key e := by
    intro x hx hxk
    exact hk.1 (hxk ▸ mem_map_of_mem hx)
  refine ⟨⟨hk.2,?_⟩,hne⟩
  intro k v
  by_cases hkk : k = key e
  · subst hkk
    rw [Finmap.lookup_erase]
    constructor
    · exact fun hv => nomatch hv
    · rintro ⟨x,hx,hxk,-⟩
      exact absurd hxk (hne x hx)
  rw [Finmap.lookup_erase_ne hkk,h.pairs]
  constructor
  · rintro ⟨x,hx,rfl,hv⟩
    rcases mem_cons.mp hx with rfl | hx
    · exact absurd rfl hkk
    · exact ⟨x,hx,rfl,hv⟩
  · rintro ⟨x,hx,hxk⟩
    exact ⟨x,mem_cons_of_mem e hx,hxk⟩

theorem Represents.replace {e : E} (h : Represents key value (e :: es) f) (e' : E)
    (hk : key e' = key e) : Represents key value (e' :: es) (f.insert (key e') (value e')) := by
  obtain ⟨ht,hne⟩ := h.tail
  have hc := ht.cons (e := e') (fun x hx => by rw [hk]; exact hne x hx)
  refine ⟨hc.keys,fun k v => ?_⟩
  rw [← hc.pairs]
  by_cases hkk : k = key e'
  · rw [hkk,Finmap.lookup_insert,Finmap.lookup_insert]
  · rw [Finmap.lookup_insert_of_ne _ hkk,Finmap.lookup_insert_of_ne _ hkk,
      Finmap.lookup_erase_ne (hk ▸ hkk)]

end
end

end AevOS.Chains
