import AevOS.ArrayPrefix

/-! Radix trees in a memory of tables, looked up along a path of indices. The tables of a tree are listed
with repetition: without duplicates no table is reached twice. -/

namespace AevOS.Radix
open ArrayPrefix List

inductive Kind where
  | absent
  | table (t : Nat)
  | leaf
  deriving DecidableEq

abbrev Tables (E : Type) := Nat → Nat → E

section
variable {E : Type} (kind : E → Kind) (zero : E) (fan : Nat → Nat)

def setEntry (mem : Tables E) (t i : Nat) (x : E) : Tables E := setAt mem t (setAt (mem t) i x)

def look (mem : Tables E) : List Nat → Nat → Nat → E × Bool
  | [], last, t => (mem t last,false)
  | i :: is, last, t =>
    match kind (mem t i) with
    | .absent => (zero,false)
    | .table c => look mem is last c
    | .leaf => (mem t i,true)

def leafTable (mem : Tables E) : List Nat → Nat → Option Nat
  | [], t => some t
  | i :: is, t =>
    match kind (mem t i) with
    | .table c => leafTable mem is c
    | _ => none

def Kind.sub (f : Nat → List Nat) : Kind → List Nat
  | .table c => f c
  | _ => []

def tables (mem : Tables E) : Nat → Nat → List Nat
  | 0, t => [t]
  | n+1, t => t :: (List.range (fan n)).flatMap (fun i => (kind (mem t i)).sub (tables mem n))

def Bounded : List Nat → Prop
  | [] => True
  | i :: is => i < fan is.length ∧ Bounded is

def others (mem : Tables E) (n t i : Nat) : List Nat :=
  ((List.range (fan n)).erase i).flatMap (fun j => (kind (mem t j)).sub (tables kind fan mem n))

end

variable {t' p last : Nat} {is : List Nat}

section
variable {E : Type} {kind : E → Kind} {zero : E} {fan : Nat → Nat} {mem mem' : Tables E}
  {n t i c : Nat}

theorem setEntry_ne (x : E) (h : t' ≠ t) : setEntry mem t i x t' = mem t' :=
  setAt_ne _ _ h

@[simp] theorem setEntry_self (x : E) : setEntry mem t i x t = setAt (mem t) i x :=
  setAt_self _ _ _

theorem Kind.sub_congr {k : Kind} {f g : Nat → List Nat} (h : ∀ c, k = .table c → f c = g c) :
    k.sub f = k.sub g := by
  cases k with
  | table c => exact h c rfl
  | absent | leaf => rfl

theorem look_cons_congr {j : Nat} (hrow : mem' t j = mem t j)
    (h : ∀ c, kind (mem t j) = .table c → look kind zero mem' is last c = look kind zero mem is last c) :
    look kind zero mem' (j :: is) last t = look kind zero mem (j :: is) last t := by
  rw [look,look,hrow]
  cases hk : kind (mem t j) with
  | table c => exact h c hk
  | absent | leaf => rfl

theorem self_mem_tables : t ∈ tables kind fan mem n t := by
  cases n with
  | zero => exact mem_singleton_self t
  | succ n => exact mem_cons_self

theorem tables_perm (kind : E → Kind) (mem : Tables E) (t : Nat) (hi : i < fan n) :
    (tables kind fan mem (n+1) t).Perm
      (t :: ((kind (mem t i)).sub (tables kind fan mem n) ++ others kind fan mem n t i)) := by
  have hp := perm_cons_erase (mem_range.mpr hi)
  have hf := hp.flatMap_right (fun j => (kind (mem t j)).sub (tables kind fan mem n))
  exact hf.cons t

theorem mem_tables_child (hi : i < fan n) (hk : kind (mem t i) = .table c)
    (hp : p ∈ tables kind fan mem n c) : p ∈ tables kind fan mem (n+1) t := by
  rw [(tables_perm _ _ _ hi).mem_iff,hk]
  exact mem_cons_of_mem t (mem_append_left _ hp)

theorem tables_congr (h : ∀ p ∈ tables kind fan mem n t, mem' p = mem p) :
    tables kind fan mem' n t = tables kind fan mem n t := by
  induction n generalizing t with
  | zero => rfl
  | succ n ih =>
    have ht := h t self_mem_tables
    rw [tables,tables,ht]
    congr 1
    refine flatMap_congr fun j hj => Kind.sub_congr fun c hk => ?_
    exact ih (fun p hp => h p (mem_tables_child (mem_range.mp hj) hk hp))

theorem look_congr (hb : Bounded fan is) (h : ∀ p ∈ tables kind fan mem is.length t, mem' p = mem p) :
    look kind zero mem' is last t = look kind zero mem is last t := by
  induction is generalizing t with
  | nil => rw [look,look,h t self_mem_tables]
  | cons i is ih =>
    refine look_cons_congr (by rw [h t self_mem_tables]) fun c hk => ?_
    exact ih hb.2 (fun p hp => h p (mem_tables_child hb.1 hk hp))

theorem nodup_split (hi : i < fan n) (hk : kind (mem t i) = .table c)
    (h : (tables kind fan mem (n+1) t).Nodup) :
    (tables kind fan mem n c).Nodup ∧ t ∉ tables kind fan mem n c ∧
      (∀ p ∈ others kind fan mem n t i, p ∉ tables kind fan mem n c ∧ p ≠ t) := by
  have hnd := (tables_perm _ _ _ hi).nodup_iff.mp h
  rw [hk,nodup_cons,mem_append,not_or,Kind.sub,nodup_append] at hnd
  obtain ⟨⟨htc,hto⟩,hc,-,hd⟩ := hnd
  refine ⟨hc,htc,fun p hp => ⟨fun hpc => hd p hpc p hp rfl,?_⟩⟩
  rintro rfl
  exact hto hp

theorem mem_others {j c' : Nat} (hj : j < fan n) (hne : j ≠ i) (hk : kind (mem t j) = .table c')
    (hp : p ∈ tables kind fan mem n c') : p ∈ others kind fan mem n t i := by
  rw [others,mem_flatMap]
  exact ⟨j,(mem_erase_of_ne hne).mpr (mem_range.mpr hj),by rw [hk]; exact hp⟩

theorem mem_others_tables (hi : i < fan n) (hp : p ∈ others kind fan mem n t i) :
    p ∈ tables kind fan mem (n+1) t := by
  rw [(tables_perm _ _ _ hi).mem_iff]
  exact mem_cons_of_mem t (mem_append_right _ hp)

theorem others_congr (hrow : ∀ j, j ≠ i → mem' t j = mem t j)
    (h : ∀ p ∈ others kind fan mem n t i, mem' p = mem p) :
    others kind fan mem' n t i = others kind fan mem n t i := by
  apply flatMap_congr
  intro j hj
  have hne : j ≠ i := by
    rintro rfl
    exact (nodup_range.not_mem_erase) hj
  have hlt : j < fan n := mem_range.mp (mem_of_mem_erase hj)
  rw [hrow j hne]
  exact Kind.sub_congr fun c hk => tables_congr (fun p hp => h p (mem_others hlt hne hk hp))

structure Grown (kind : E → Kind) (zero : E) (fan : Nat → Nat) (mem mem' : Tables E) (n t : Nat)
    (fresh : List Nat) : Prop where
  outside : ∀ p, p ∉ tables kind fan mem n t → p ∉ fresh → mem' p = mem p
  pages : (tables kind fan mem' n t).Perm (tables kind fan mem n t ++ fresh)
  same : ∀ (is : List Nat) (last : Nat), is.length = n → Bounded fan is →
    look kind zero mem' is last t = look kind zero mem is last t

theorem Grown.refl (mem : Tables E) (n t : Nat) : Grown kind zero fan mem mem n t [] :=
  ⟨fun _ _ _ => rfl,by rw [append_nil],fun _ _ _ _ => rfl⟩

theorem Grown.trans {mem1 mem2 : Tables E} {f1 f2 : List Nat}
    (h1 : Grown kind zero fan mem mem1 n t f1) (h2 : Grown kind zero fan mem1 mem2 n t f2) :
    Grown kind zero fan mem mem2 n t (f1 ++ f2) := by
  refine ⟨?_,?_,?_⟩
  · intro p hp hf
    rw [mem_append,not_or] at hf
    have hp1 : p ∉ tables kind fan mem1 n t := by
      rw [h1.pages.mem_iff,mem_append,not_or]
      exact ⟨hp,hf.1⟩
    rw [h2.outside p hp1 hf.2,h1.outside p hp hf.1]
  · rw [← append_assoc]
    exact h2.pages.trans (h1.pages.append_right f2)
  · intro is last hlen hb
    rw [h2.same is last hlen hb,h1.same is last hlen hb]

theorem Grown.lift {fresh : List Nat} (h : Grown kind zero fan mem mem' n c fresh) (hi : i < fan n)
    (hk : kind (mem t i) = .table c) (hnd : (tables kind fan mem (n+1) t).Nodup)
    (hfr : ∀ p ∈ fresh, p ∉ tables kind fan mem (n+1) t) : Grown kind zero fan mem mem' (n+1) t fresh := by
  obtain ⟨-,htc,ho⟩ := nodup_split hi hk hnd
  have hrow : mem' t = mem t := h.outside t htc (fun hf => hfr t hf self_mem_tables)
  have hkp : ∀ p ∈ others kind fan mem n t i, mem' p = mem p := by
    intro p hp
    exact h.outside p (ho p hp).1 (fun hf => hfr p hf (mem_others_tables hi hp))
  refine ⟨?_,?_,?_⟩
  · intro p hp hf
    exact h.outside p (fun hpc => hp (mem_tables_child hi hk hpc)) hf
  · have hnew := tables_perm kind mem' t hi
    rw [hrow,hk,others_congr (fun j _ => by rw [hrow]) hkp] at hnew
    have hold := tables_perm kind mem t hi
    rw [hk] at hold
    refine hnew.trans (Perm.trans ?_ (hold.append_right fresh).symm)
    rw [cons_append,append_assoc]
    refine Perm.cons t (((h.pages).append_right _).trans ?_)
    rw [append_assoc]
    exact Perm.append_left _ perm_append_comm
  intro js last hlen hb
  cases js with
  | nil => exact absurd hlen (Nat.succ_ne_zero n).symm
  | cons j js =>
    have hl' : js.length = n := Nat.succ.inj hlen
    refine look_cons_congr (by rw [hrow]) fun c' hkj => ?_
    by_cases hji : j = i
    · rw [hji,hk] at hkj
      cases hkj
      exact h.same js last hl' hb.2
    · refine look_congr hb.2 (fun p hp => hkp p ?_)
      rw [hl'] at hp
      exact mem_others (hl' ▸ hb.1) hji hkj hp

theorem tables_blank (h : ∀ j, kind (mem c j) = .absent) : tables kind fan mem n c = [c] := by
  cases n with
  | zero => rfl
  | succ n => simp [tables,h,Kind.sub]

theorem look_blank (hz : kind zero = .absent) (h : ∀ j, mem c j = zero) (is : List Nat) (last : Nat) :
    look kind zero mem is last c = (zero,false) := by
  cases is with
  | nil => rw [look,h last]
  | cons i is => rw [look,h i,hz]

theorem grown_link {x : E} (hz : kind zero = .absent) (hi : i < fan n)
    (habs : kind (mem t i) = .absent) (hx : kind x = .table c)
    (hnd : (tables kind fan mem (n+1) t).Nodup) (hc : c ∉ tables kind fan mem (n+1) t) :
    Grown kind zero fan mem (setEntry (setAt mem c (fun _ => zero)) t i x) (n+1) t [c] := by
  have hct : c ≠ t := fun h => hc (h ▸ self_mem_tables)
  obtain ⟨mem',hm⟩ : ∃ m, m = setEntry (setAt mem c (fun _ => zero)) t i x := ⟨_,rfl⟩
  have hrow : mem' t = setAt (mem t) i x := by simp [hm,hct.symm]
  have hbl : mem' c = fun _ => zero := by simp [hm,setEntry_ne _ hct]
  have hout : ∀ p, p ≠ t → p ≠ c → mem' p = mem p := by
    intro p hpt hpc
    simp [hm,setEntry_ne _ hpt,hpc]
  rw [← hm]
  have hk : ∀ p ∈ others kind fan mem n t i, mem' p = mem p := by
    intro p hp
    apply hout
    · rintro rfl
      have hnd' := (tables_perm _ _ _ hi).nodup_iff.mp hnd
      rw [nodup_cons,mem_append,not_or] at hnd'
      exact hnd'.1.2 hp
    · rintro rfl
      exact hc (mem_others_tables hi hp)
  refine ⟨?_,?_,?_⟩
  · intro p hp hpc
    exact hout p (fun h => hp (h ▸ self_mem_tables)) (fun h => hpc (h ▸ mem_singleton_self c))
  · have hnew := tables_perm kind mem' t hi
    have hold := tables_perm kind mem t hi
    rw [habs] at hold
    rw [hrow,setAt_self,hx,others_congr (fun j hj => by rw [hrow,setAt_ne _ _ hj]) hk] at hnew
    simp only [Kind.sub] at hnew hold
    have he : tables kind fan mem' n c = [c] := tables_blank (fun j => by rw [hbl]; exact hz)
    rw [he] at hnew
    refine hnew.trans (Perm.trans ?_ (hold.append_right [c]).symm)
    exact Perm.cons t perm_append_comm
  intro js last hlen hb
  cases js with
  | nil => exact absurd hlen (Nat.succ_ne_zero n).symm
  | cons j js =>
    have hl' : js.length = n := Nat.succ.inj hlen
    by_cases hji : j = i
    · subst hji
      rw [look,look,hrow,setAt_self,hx,habs]
      exact look_blank hz (fun j => by rw [hbl]) js last
    refine look_cons_congr (by simp [hrow,hji]) fun c' hkj => look_congr hb.2 (fun p hp => hk p ?_)
    rw [hl'] at hp
    exact mem_others (hl' ▸ hb.1) hji hkj hp

def SameTables (k k' : Kind) : Prop := ∀ c, k = .table c ↔ k' = .table c

theorem SameTables.sub {k k' : Kind} (h : SameTables k k') (f : Nat → List Nat) : k.sub f = k'.sub f := by
  cases k with
  | table c => rw [(h c).mp rfl]
  | absent | leaf => cases k' <;> simp_all [SameTables,Kind.sub]

theorem tables_setEntry {x : E} (h : SameTables (kind x) (kind (mem t' i))) :
    tables kind fan (setEntry mem t' i x) n t = tables kind fan mem n t := by
  induction n generalizing t with
  | zero => rfl
  | succ n ih =>
    rw [tables,tables]
    congr 1
    apply flatMap_congr
    intro j _
    have hsub : ((kind (setEntry mem t' i x t j)).sub (tables kind fan (setEntry mem t' i x) n)) =
        (kind (mem t j)).sub (tables kind fan (setEntry mem t' i x) n) := by
      by_cases ht : t = t'
      · subst ht
        by_cases hj : j = i
        · subst hj
          simpa using h.sub _
        · simp [hj]
      · rw [setEntry_ne _ ht]
    rw [hsub]
    exact Kind.sub_congr fun c _ => ih

theorem leafTable_mem (hb : Bounded fan is) (h : leafTable kind mem is t = some t') :
    t' ∈ tables kind fan mem is.length t := by
  induction is generalizing t with
  | nil =>
    cases h
    exact mem_singleton_self _
  | cons i is ih =>
    rw [leafTable] at h
    cases hk : kind (mem t i) with
    | absent | leaf => simp [hk] at h
    | table c =>
      rw [hk] at h
      exact mem_tables_child hb.1 hk (ih hb.2 h)

theorem setLeaf_spec (zero x : E) (last : Nat) (hb : Bounded fan is)
    (h : leafTable kind mem is t = some t') (hnd : (tables kind fan mem is.length t).Nodup) :
    tables kind fan (setEntry mem t' last x) is.length t = tables kind fan mem is.length t ∧
      ∀ (js : List Nat) (j : Nat), js.length = is.length → Bounded fan js →
        look kind zero (setEntry mem t' last x) js j t =
          if js = is ∧ j = last then (x,false) else look kind zero mem js j t := by
  induction is generalizing t with
  | nil =>
    cases h
    refine ⟨rfl,?_⟩
    intro js j hlen _
    obtain rfl := length_eq_zero_iff.mp hlen
    by_cases hj : j = last <;> simp [look,hj]
  | cons i is ih =>
    rw [leafTable] at h
    cases hk : kind (mem t i) with
    | absent | leaf => simp [hk] at h
    | table c =>
      rw [hk] at h
      obtain ⟨hndc,htc,ho⟩ := nodup_split hb.1 hk hnd
      have ht' := leafTable_mem hb.2 h
      obtain ⟨ht,hl⟩ := ih hb.2 h hndc
      have hrow : setEntry mem t' last x t = mem t :=
        setEntry_ne _ (fun heq => htc (heq ▸ ht'))
      have hkp : ∀ p ∈ others kind fan mem is.length t i, setEntry mem t' last x p = mem p :=
        fun p hp => setEntry_ne _ (fun heq => (ho p hp).1 (heq ▸ ht'))
      constructor
      · rw [length_cons,tables,tables,hrow]
        congr 1
        refine flatMap_congr fun j hj => Kind.sub_congr fun c' hkj => ?_
        by_cases hji : j = i
        · rw [hji,hk] at hkj
          cases hkj
          exact ht
        · exact tables_congr (fun p hp => hkp p (mem_others (mem_range.mp hj) hji hkj hp))
      intro js j hlen hbj
      cases js with
      | nil => exact absurd hlen (Nat.succ_ne_zero is.length).symm
      | cons j' js =>
        have hl' : js.length = is.length := Nat.succ.inj hlen
        by_cases hji : j' = i
        · subst hji
          simp [look,hrow,hk,hl js j hl' hbj.2]
        have hne : ¬ (j' :: js = i :: is ∧ j = last) := fun h => hji (cons.inj h.1).1
        rw [if_neg hne]
        refine look_cons_congr (by rw [hrow]) fun c' hkj => look_congr hbj.2 (fun p hp => hkp p ?_)
        rw [hl'] at hp
        exact mem_others (hl' ▸ hbj.1) hji hkj hp

theorem tables_succ_of_leaves (kind : E → Kind) (zero : E) (mem : Tables E) (n t k : Nat)
    (h : ∀ (is : List Nat) (last : Nat), is.length = n → Bounded (fun _ => k) is → last < k →
      ∀ c, kind (look kind zero mem is last t).1 ≠ .table c) :
    tables kind (fun _ => k) mem (n+1) t = tables kind (fun _ => k) mem n t := by
  induction n generalizing t with
  | zero =>
    rw [tables,tables,flatMap_eq_nil_iff.mpr]
    intro j hj
    have hj' := h [] j rfl trivial (mem_range.mp hj)
    cases hk : kind (mem t j) with
    | absent | leaf => rfl
    | table c => exact absurd hk (hj' c)
  | succ n ih =>
    rw [tables,tables]
    congr 1
    refine flatMap_congr fun j hj => Kind.sub_congr fun c hk => ih c (fun is last hlen hb hl => ?_)
    have hp := h (j :: is) last (congrArg Nat.succ hlen) ⟨mem_range.mp hj,hb⟩ hl
    rwa [look,hk] at hp

end

end AevOS.Radix
