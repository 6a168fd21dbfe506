import Mathlib

/-! Least recently used maps: pairs of a key and a value in a list, the least
recently used first, and how a bag of stamped items stands for such a list. -/

namespace AevOS.Recency
open List
open Prod (fst)

variable {cap : Nat}

section
variable {α β : Type}

variable [DecidableEq α]

def without (k : α) (l : List (α × β)) : List (α × β) := l.filter (fun p => p.1 ≠ k)

def touch (k : α) (l : List (α × β)) : List (α × β) :=
  match l.find? (fun p => p.1 = k) with
  | none => l
  | some p => without k l ++ [p]

def assign (cap : Nat) (k : α) (v : β) (l : List (α × β)) : List (α × β) :=
  if k ∈ l.map fst then without k l ++ [(k,v)]
  else (if l.length < cap then l else l.tail) ++ [(k,v)]

inductive Use (α β : Type) where
  | get (k : α)
  | put (k : α) (v : β)

def use (cap : Nat) (l : List (α × β)) : Use α β → List (α × β)
  | .get k => touch k l
  | .put k v => assign cap k v l

def useAll (cap : Nat) (uses : List (Use α β)) (l : List (α × β)) : List (α × β) :=
  uses.foldl (use cap) l

theorem without_of_not_mem {k : α} {l : List (α × β)} (h : k ∉ l.map fst) : without k l = l := by
  apply filter_eq_self.mpr
  intro p hp
  simp only [decide_eq_true_eq]
  exact fun he => h (mem_map.mpr ⟨p,hp,he⟩)

theorem without_middle {k : α} {v : β} {a b : List (α × β)}
    (h : ((a ++ (k,v) :: b).map fst).Nodup) : without k (a ++ (k,v) :: b) = a ++ b := by
  rw [map_append,map_cons,nodup_middle,← map_append] at h
  have hk := without_of_not_mem (nodup_cons.mp h).1
  rw [without,filter_append] at hk ⊢
  simpa using hk

theorem not_mem_without (k : α) (l : List (α × β)) : k ∉ (without k l).map fst := by
  simp [without]

theorem touch_of_not_mem {k : α} {l : List (α × β)} (h : k ∉ l.map fst) : touch k l = l := by
  have hn : l.find? (fun p => p.1 = k) = none := by
    rw [find?_eq_none]
    intro p hp
    simp only [decide_eq_true_eq]
    exact fun he => h (mem_map.mpr ⟨p,hp,he⟩)
  rw [touch,hn]

theorem touch_middle {k : α} {v : β} {a b : List (α × β)} (h : ((a ++ (k,v) :: b).map fst).Nodup) :
    touch k (a ++ (k,v) :: b) = a ++ b ++ [(k,v)] := by
  have hw := without_middle h
  rw [map_append,map_cons,nodup_middle,← map_append] at h
  have hf : (a ++ (k,v) :: b).find? (fun p => p.1 = k) = some (k,v) := by
    rw [find?_append,find?_eq_none.mpr]
    · simp
    intro p hp
    simp only [decide_eq_true_eq]
    intro he
    exact (nodup_cons.mp h).1 (mem_map.mpr ⟨p,mem_append_left _ hp,he⟩)
  rw [touch,hf,hw]

theorem useAll_append {l : List (α × β)} (us vs : List (Use α β)) :
    useAll cap (us ++ vs) l = useAll cap vs (useAll cap us l) := List.foldl_append

theorem useAll_gets {k : α} {l : List (α × β)} (h : touch k l = l) (n : Nat) :
    useAll cap (replicate n (.get k)) l = l := by
  induction n with
  | zero => rfl
  | succ n ih =>
    rw [replicate_succ,useAll,foldl_cons,use,h]
    exact ih

theorem useAll_puts {v : β} {ks : List α} {l : List (α × β)} (h : (l.map fst ++ ks).Nodup)
    (hcap : l.length+ks.length ≤ cap) :
    useAll cap (ks.map (fun k => .put k v)) l = l ++ ks.map (fun k => (k,v)) := by
  induction ks generalizing l with
  | nil => exact (append_nil l).symm
  | cons k ks ih =>
    rw [length_cons] at hcap
    have hk : k ∉ l.map fst :=
      fun hmem => (nodup_append.mp h).2.2 k hmem k mem_cons_self rfl
    have hs : assign cap k v l = l ++ [(k,v)] := by
      rw [assign,if_neg hk,if_pos (by omega)]
    have hr := ih (l := l ++ [(k,v)]) (by simpa using h)
      (by rw [length_append,length_singleton]; omega)
    rw [append_assoc] at hr
    rw [← hs] at hr
    exact hr

end

section
variable {α β γ : Type} {stamp : γ → Nat} {pair : γ → α × β} {items : List γ}
  {l : List (α × β)} {x y : γ}

structure Tracks (stamp : γ → Nat) (pair : γ → α × β) (items : List γ)
    (l : List (α × β)) : Prop where
  keys : (l.map fst).Nodup
  order : ∃ es : List γ, es.Perm items ∧ es.Pairwise (fun a b => stamp a < stamp b) ∧
    l = es.map pair

theorem tracks_nil : Tracks stamp pair [] [] :=
  ⟨nodup_nil,[],.nil,.nil,rfl⟩

section
variable (h : Tracks stamp pair items l)
include h

theorem Tracks.perm {items' : List γ} (hp : items.Perm items') : Tracks stamp pair items' l := by
  obtain ⟨hk,es,he,hs,hl⟩ := h
  exact ⟨hk,es,he.trans hp,hs,hl⟩

theorem Tracks.pairs : l.Perm (items.map pair) := by
  obtain ⟨-,es,he,-,rfl⟩ := h
  exact he.map pair

theorem Tracks.length : l.length = items.length := by
  rw [h.pairs.length_eq,length_map]

theorem Tracks.mem_keys {k : α} : k ∈ l.map fst ↔ ∃ x ∈ items, (pair x).1 = k := by
  rw [(h.pairs.map fst).mem_iff]
  simp

theorem Tracks.add (hk : (pair y).1 ∉ l.map fst)
    (hls : ∀ z ∈ items, stamp z < stamp y) : Tracks stamp pair (y :: items) (l ++ [pair y]) := by
  obtain ⟨hky,es,he,hs,hl⟩ := h
  refine ⟨?_,es ++ [y],?_,?_,?_⟩
  · rw [map_append,map_singleton]
    exact nodup_append_comm.mp (nodup_cons.mpr ⟨hk,hky⟩)
  · exact perm_append_comm.trans (he.cons y)
  · rw [pairwise_append]
    refine ⟨hs,pairwise_singleton _ _,fun a ha b hb => ?_⟩
    rw [mem_singleton.mp hb]
    exact hls a (he.mem_iff.mp ha)
  · rw [hl,map_append,map_singleton]

end

theorem Tracks.split (h : Tracks stamp pair (x :: items) l) :
    ∃ a b : List γ, (a ++ b).Perm items ∧ l = a.map pair ++ pair x :: b.map pair ∧
      (a ++ b).Pairwise (fun a b => stamp a < stamp b) ∧ (∀ z ∈ a, stamp z < stamp x) := by
  obtain ⟨-,es,he,hs,rfl⟩ := h
  obtain ⟨a,b,rfl⟩ := append_of_mem (he.mem_iff.mpr mem_cons_self)
  refine ⟨a,b,(perm_middle.symm.trans he).cons_inv,by simp,?_,?_⟩
  · exact hs.sublist (Sublist.append (Sublist.refl a) (sublist_cons_self x b))
  · intro z hz
    exact (pairwise_append.mp hs).2.2 z hz x mem_cons_self

variable [DecidableEq α]

section
variable (h : Tracks stamp pair (x :: items) l)
include h

theorem Tracks.remove : Tracks stamp pair items (without (pair x).1 l) := by
  obtain ⟨a,b,he,hl,hs,-⟩ := h.split
  have hk := h.keys
  have hw : without (pair x).1 l = (a ++ b).map pair := by
    rw [hl] at hk ⊢
    rw [without_middle hk,map_append]
  refine ⟨?_,a ++ b,he,hs,hw⟩
  exact hk.sublist (Sublist.map _ filter_sublist)

theorem Tracks.oldest (hmin : ∀ z ∈ items, stamp x ≤ stamp z) : without (pair x).1 l = l.tail := by
  obtain ⟨a,b,he,hl,-,ha⟩ := h.split
  have hk := h.keys
  cases a with
  | nil =>
    rw [hl] at hk ⊢
    exact without_middle (a := []) hk
  | cons z a =>
    have hz := ha z mem_cons_self
    have hle := hmin z (he.mem_iff.mp mem_cons_self)
    omega

theorem Tracks.touch (hy : pair y = pair x)
    (hls : ∀ z ∈ items, stamp z < stamp y) : Tracks stamp pair (y :: items) (touch (pair x).1 l) := by
  obtain ⟨a,b,-,hl,-,-⟩ := h.split
  have hk := h.keys
  have ht : Recency.touch (pair x).1 l = without (pair x).1 l ++ [pair y] := by
    rw [hl] at hk ⊢
    rw [touch_middle hk,without_middle hk,hy]
  rw [ht]
  exact h.remove.add (by rw [hy]; exact not_mem_without _ l) hls

theorem Tracks.assign_known (cap : Nat)
    (hy : (pair y).1 = (pair x).1) (hl : ∀ z ∈ items, stamp z < stamp y) :
    Tracks stamp pair (y :: items) (assign cap (pair y).1 (pair y).2 l) := by
  rw [assign,if_pos (h.mem_keys.mpr ⟨x,mem_cons_self,hy.symm⟩),hy]
  have hadd := h.remove.add (by rw [hy]; exact not_mem_without _ l) hl
  rw [← hy] at hadd ⊢
  exact hadd

end

theorem Tracks.assign_new (h : Tracks stamp pair items l) (hk : (pair y).1 ∉ l.map fst)
    (hcap : l.length < cap) (hl : ∀ z ∈ items, stamp z < stamp y) :
    Tracks stamp pair (y :: items) (assign cap (pair y).1 (pair y).2 l) := by
  rw [assign,if_neg hk,if_pos hcap]
  exact h.add hk hl

theorem Tracks.assign_evict (h : Tracks stamp pair (x :: items) l)
    (hk : (pair y).1 ∉ l.map fst) (hcap : cap ≤ l.length)
    (hmin : ∀ z ∈ items, stamp x ≤ stamp z) (hl : ∀ z ∈ items, stamp z < stamp y) :
    Tracks stamp pair (y :: items) (assign cap (pair y).1 (pair y).2 l) := by
  rw [assign,if_neg hk,if_neg (by omega),← h.oldest hmin]
  refine h.remove.add (fun hmem => hk ?_) hl
  exact (Sublist.map _ filter_sublist).subset hmem

end

end AevOS.Recency
