import Mathlib

/-! Finite maps as lists of pairs in strictly ascending key order. -/

namespace AevOS.OrderedAssoc
open List
open Prod (fst snd)

def insertPair {κ α : Type} [LinearOrder κ] (k : κ) (v : α) : List (κ × α) → List (κ × α)
  | [] => [(k,v)]
  | (k',v') :: m =>
    if k < k' then (k,v) :: (k',v') :: m
    else if k = k' then (k,v) :: m
    else (k',v') :: insertPair k v m

def Ascending {κ α : Type} [LinearOrder κ] (m : List (κ × α)) : Prop :=
  m.Pairwise (fun a b => a.1 < b.1)

theorem insertPair_append {κ α : Type} [LinearOrder κ] (k : κ) (v : α)
    (as bs cs : List (κ × α)) (ha : ∀ a ∈ as, a.1 < k) (hc : ∀ c ∈ cs, k < c.1) :
    insertPair k v (as ++ (bs ++ cs)) = as ++ (insertPair k v bs ++ cs) := by
  induction as with
  | nil =>
    induction bs with
    | nil =>
      cases cs with
      | nil => rfl
      | cons c cs => simp [insertPair,hc c (by simp)]
    | cons b bs ih =>
      simp only [nil_append,cons_append,insertPair] at ih ⊢
      split
      · rfl
      split
      · rfl
      · rw [ih,cons_append]
  | cons a as ih =>
    have hak := ha a (by simp)
    have hr := ih (fun a h => ha a (by simp [h]))
    simp only [cons_append,insertPair]
    rw [if_neg (not_lt_of_gt hak),if_neg (ne_of_gt hak),hr]

theorem insertPair_replace {κ α : Type} [LinearOrder κ] (k : κ) (v v' : α)
    (as cs : List (κ × α)) (ha : ∀ a ∈ as, a.1 < k) (hc : ∀ c ∈ cs, k < c.1) :
    insertPair k v (as ++ (k,v') :: cs) = as ++ (k,v) :: cs := by
  have h := insertPair_append k v as [(k,v')] cs ha hc
  simpa [insertPair] using h

theorem mem_keys_insertPair {κ α : Type} [LinearOrder κ] (k : κ) (v : α) (m : List (κ × α)) (x : κ) :
    x ∈ (insertPair k v m).map fst ↔ x = k ∨ x ∈ m.map fst := by
  induction m with
  | nil => simp [insertPair]
  | cons a m ih =>
    unfold insertPair
    split
    · simp
    split
    · rename_i he
      simp [he]
    · simp only [map_cons,mem_cons,ih]
      tauto

theorem Ascending.insertPair {κ α : Type} [LinearOrder κ] {m : List (κ × α)}
    (h : Ascending m) (k : κ) (v : α) : Ascending (insertPair k v m) := by
  induction m with
  | nil => simp [OrderedAssoc.insertPair,Ascending]
  | cons a m ih =>
    obtain ⟨hh,ht⟩ := pairwise_cons.mp h
    unfold OrderedAssoc.insertPair
    split
    · rename_i hlt
      refine pairwise_cons.mpr ⟨fun b hb => ?_,h⟩
      obtain rfl | hb := mem_cons.mp hb
      · exact hlt
      · exact lt_trans hlt (hh b hb)
    split
    · rename_i he
      exact pairwise_cons.mpr ⟨fun b hb => by rw [he]; exact hh b hb,ht⟩
    rename_i hnlt hne
    refine pairwise_cons.mpr ⟨fun b hb => ?_,ih ht⟩
    have hk := (mem_keys_insertPair k v m b.1).mp (mem_map_of_mem hb)
    obtain hk | hk := hk
    · rw [hk]
      exact lt_of_le_of_ne (not_lt.mp hnlt) (Ne.symm hne)
    · obtain ⟨c,hc,hcb⟩ := mem_map.mp hk
      rw [← hcb]
      exact hh c hc

theorem mem_insertPair {κ α : Type} [LinearOrder κ] {m : List (κ × α)} (h : Ascending m)
    (k : κ) (v : α) (a : κ × α) : a ∈ insertPair k v m ↔ a = (k,v) ∨ a ∈ m ∧ a.1 ≠ k := by
  induction m with
  | nil => simp [insertPair]
  | cons b m ih =>
    obtain ⟨hh,ht⟩ := pairwise_cons.mp h
    have hne : k ≤ b.1 → ∀ c ∈ m, c.1 ≠ k := fun hk c hc =>
      ne_of_gt (lt_of_le_of_lt hk (hh c hc))
    unfold insertPair
    split
    · rename_i hlt
      have hm := hne (le_of_lt hlt)
      have hb : b.1 ≠ k := ne_of_gt hlt
      simp only [mem_cons]
      constructor
      · rintro (h | rfl | h)
        · exact .inl h
        · exact .inr ⟨.inl rfl,hb⟩
        · exact .inr ⟨.inr h,hm a h⟩
      · rintro (h | ⟨h,-⟩)
        · exact .inl h
        · exact .inr h
    split
    · rename_i he
      have hm := hne (le_of_eq he)
      simp only [mem_cons]
      constructor
      · rintro (h | h)
        · exact .inl h
        · exact .inr ⟨.inr h,hm a h⟩
      rintro (h | ⟨rfl | h,hk⟩)
      · exact .inl h
      · exact absurd he.symm hk
      · exact .inr h
    rename_i hnlt hne'
    simp only [mem_cons,ih ht]
    constructor
    · rintro (rfl | h | ⟨h,hk⟩)
      · exact .inr ⟨.inl rfl,fun h => hne' h.symm⟩
      · exact .inl h
      · exact .inr ⟨.inr h,hk⟩
    rintro (h | ⟨h | h,hk⟩)
    · exact .inr (.inl h)
    · exact .inl h
    · exact .inr (.inr ⟨h,hk⟩)

def insertAll {κ α : Type} [LinearOrder κ] (ops : List (κ × α)) : List (κ × α) :=
  ops.foldl (fun m o => insertPair o.1 o.2 m) []

def latest {κ α : Type} [DecidableEq κ] [Inhabited α] (ops : List (κ × α)) (k : κ) : α :=
  ((ops.reverse.find? (fun o => o.1 = k)).map snd).getD default

@[simp] theorem insertAll_append_singleton {κ α : Type} [LinearOrder κ]
    (ops : List (κ × α)) (o : κ × α) : insertAll (ops ++ [o]) = insertPair o.1 o.2 (insertAll ops) := by
  simp [insertAll]

theorem latest_append_singleton {κ α : Type} [DecidableEq κ] [Inhabited α]
    (ops : List (κ × α)) (o : κ × α) (k : κ) :
    latest (ops ++ [o]) k = if o.1 = k then o.2 else latest ops k := by
  unfold latest
  by_cases h : o.1 = k <;> simp [h]

theorem insertAll_ascending {κ α : Type} [LinearOrder κ] (ops : List (κ × α)) :
    Ascending (insertAll ops) := by
  induction ops using reverseRecOn with
  | nil => exact Pairwise.nil
  | append_singleton ops o ih =>
    rw [insertAll_append_singleton]
    exact ih.insertPair o.1 o.2

theorem insertPair_last {κ α : Type} [LinearOrder κ] (k : κ) (v : α) (m : List (κ × α))
    (h : ∀ a ∈ m, a.1 < k) : insertPair k v m = m ++ [(k,v)] := by
  have hl := insertPair_append k v m [] [] h (by simp)
  simpa [insertPair] using hl

theorem insertAll_of_ascending {κ α : Type} [LinearOrder κ] {ops : List (κ × α)}
    (h : Ascending ops) : insertAll ops = ops := by
  induction ops using reverseRecOn with
  | nil => rfl
  | append_singleton ops o ih =>
    obtain ⟨hf,-,hl⟩ := pairwise_append.mp h
    rw [insertAll_append_singleton,ih hf,insertPair_last]
    exact fun a ha => hl a ha o mem_cons_self

theorem mem_keys_insertAll {κ α : Type} [LinearOrder κ] (ops : List (κ × α)) (k : κ) :
    k ∈ (insertAll ops).map fst ↔ k ∈ ops.map fst := by
  induction ops using reverseRecOn with
  | nil => rfl
  | append_singleton ops o ih =>
    rw [insertAll_append_singleton,mem_keys_insertPair,ih]
    simp only [map_append,map_cons,map_nil,mem_append,mem_singleton]
    tauto

theorem insertAll_latest {κ α : Type} [LinearOrder κ] [Inhabited α] (ops : List (κ × α))
    {a : κ × α} (h : a ∈ insertAll ops) : latest ops a.1 = a.2 := by
  induction ops using reverseRecOn with
  | nil => simp [insertAll] at h
  | append_singleton ops o ih =>
    rw [insertAll_append_singleton,mem_insertPair (insertAll_ascending ops)] at h
    rw [latest_append_singleton]
    obtain rfl | ⟨h,hne⟩ := h
    · simp
    · rw [if_neg (fun he => hne he.symm),ih h]

theorem keys_insertAll {κ α : Type} [LinearOrder κ] (ops : List (κ × α)) :
    (insertAll ops).map fst = (ops.map fst).toFinset.sort := by
  have hasc : ((insertAll ops).map fst).Pairwise (· < ·) := by
    rw [pairwise_map]
    exact insertAll_ascending ops
  have hset : (ops.map fst).toFinset = ((insertAll ops).map fst).toFinset := by
    ext k
    rw [mem_toFinset,mem_toFinset,mem_keys_insertAll]
  rw [hset]
  symm
  exact (toFinset_sort _ (hasc.imp (fun h => ne_of_lt h))).mpr (hasc.imp (fun h => le_of_lt h))

theorem length_insertAll {κ α : Type} [LinearOrder κ] (ops : List (κ × α)) :
    (insertAll ops).length = (ops.map fst).toFinset.card := by
  rw [← length_map fst,keys_insertAll,Finset.length_sort]

theorem insertAll_eq_sort {κ α : Type} [LinearOrder κ] [Inhabited α] (ops : List (κ × α)) :
    insertAll ops = ((ops.map fst).toFinset.sort).map (fun k => (k,latest ops k)) := by
  rw [← keys_insertAll,map_map]
  conv_lhs => rw [← map_id (insertAll ops)]
  apply map_congr_left
  intro a ha
  simp [insertAll_latest ops ha]

end AevOS.OrderedAssoc
