import Mathlib

/-! Lists of rows with pairwise distinct keys, as maps from keys to rows. -/

namespace AevOS.KeyedList
open List Function

section
variable {α κ : Type} {key : α → κ}

theorem nodup_split {before after : List α} {x : α} (hd : ((before ++ x :: after).map key).Nodup) :
    key x ∉ before.map key ∧ key x ∉ after.map key := by
  rw [map_append,map_cons,nodup_middle,nodup_cons,mem_append,not_or] at hd
  exact hd.1

theorem nodup_replace {before after : List α} {x y : α} (hd : ((before ++ x :: after).map key).Nodup)
    (hkey : key y = key x) : ((before ++ y :: after).map key).Nodup := by
  rw [map_append,map_cons] at hd ⊢
  rwa [hkey]

theorem nodup_concat {l : List α} {y : α} (hd : (l.map key).Nodup) (hnew : key y ∉ l.map key) :
    ((l ++ [y]).map key).Nodup := by
  rw [map_append,map_singleton]
  exact hd.append (nodup_singleton _) (disjoint_singleton.mpr hnew)

theorem nodup_remove {before after : List α} {x : α} (hd : ((before ++ x :: after).map key).Nodup) :
    ((before ++ after).map key).Nodup := by
  rw [map_append,map_cons,nodup_middle,nodup_cons,← map_append] at hd
  exact hd.2

end

section
variable {α κ : Type} [DecidableEq κ] {key : α → κ}

def lookup (key : α → κ) (l : List α) (k : κ) : Option α := l.find? fun x => key x = k

theorem lookup_append (l l' : List α) (k : κ) : lookup key (l ++ l') k = (lookup key l k).or (lookup key l' k) :=
  find?_append

theorem lookup_cons_self (x : α) (l : List α) : lookup key (x :: l) (key x) = some x :=
  find?_cons_of_pos (by simp)

theorem lookup_cons_ne {x : α} {k : κ} (h : k ≠ key x) (l : List α) : lookup key (x :: l) k = lookup key l k :=
  find?_cons_of_neg (by simpa using Ne.symm h)

theorem lookup_eq_none {l : List α} {k : κ} (h : k ∉ l.map key) : lookup key l k = none := by
  apply find?_eq_none.mpr
  intro x hx
  have hne : key x ≠ k := fun heq => h (heq ▸ mem_map_of_mem hx)
  simpa using hne

theorem lookup_replace {before after : List α} {x y : α} (hd : ((before ++ x :: after).map key).Nodup)
    (hkey : key y = key x) :
    lookup key (before ++ y :: after) = update (lookup key (before ++ x :: after)) (key y) (some y) := by
  obtain ⟨hb,-⟩ := nodup_split hd
  rw [← hkey] at hb
  funext k
  rw [lookup_append]
  by_cases hk : k = key y
  · rw [hk,update_self,lookup_eq_none hb,lookup_cons_self,Option.none_or]
  · rw [update_of_ne hk,lookup_cons_ne hk,lookup_append,lookup_cons_ne (hkey ▸ hk)]

theorem lookup_concat {l : List α} {y : α} (hnew : key y ∉ l.map key) :
    lookup key (l ++ [y]) = update (lookup key l) (key y) (some y) := by
  funext k
  rw [lookup_append]
  by_cases hk : k = key y
  · rw [hk,update_self,lookup_eq_none hnew,lookup_cons_self,Option.none_or]
  · rw [update_of_ne hk,lookup_cons_ne hk]
    exact Option.or_none

theorem lookup_remove {before after : List α} {x : α} (hd : ((before ++ x :: after).map key).Nodup) :
    lookup key (before ++ after) = update (lookup key (before ++ x :: after)) (key x) none := by
  obtain ⟨hb,ha⟩ := nodup_split hd
  funext k
  rw [lookup_append]
  by_cases hk : k = key x
  · rw [hk,update_self,lookup_eq_none hb,lookup_eq_none ha,Option.none_or]
  · rw [update_of_ne hk,lookup_append,lookup_cons_ne hk]

end

end AevOS.KeyedList
