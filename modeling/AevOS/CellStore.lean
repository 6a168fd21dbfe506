import Mathlib

/-! Storage as cells that are written or not: `none` is an access outside, or to a cell never written.
Rows have one length; their offset is cut to the word size. -/

namespace AevOS.Cells
open List

variable {α : Type}

def Filled (cells : List (Option α)) (j : Nat) : Prop := ∃ a, cells[j]? = some (some a)

def readCells (cells : List (Option α)) (off n : Nat) : Option (List α) :=
  (List.range n).mapM (fun i => (cells[off+i]?).join)

def writeCells (cells : List (Option α)) (off : Nat) (row : List α) : Option (List (Option α)) :=
  if row = [] ∨ off+row.length ≤ cells.length then
    some (cells.take off ++ row.map some ++ cells.drop (off+row.length))
  else none

theorem isSome_mapM {β γ : Type} (f : β → Option γ) (l : List β) :
    (l.mapM f).isSome = true ↔ ∀ b ∈ l, (f b).isSome = true := by
  induction l with
  | nil => simp
  | cons b l ih =>
    cases hb : f b with
    | none => simp [hb]
    | some c =>
      cases hl : l.mapM f with
      | none | some => simp_all

theorem length_of_mapM {β γ : Type} {f : β → Option γ} {l : List β} {r : List γ}
    (h : l.mapM f = some r) : r.length = l.length := by
  induction l generalizing r with
  | nil =>
    obtain rfl : [] = r := by simpa using h
    rfl
  | cons b l ih =>
    cases hb : f b with
    | none => simp [hb] at h
    | some c =>
      cases hl : l.mapM f with
      | none => simp [hb,hl] at h
      | some cs =>
        obtain rfl : c :: cs = r := by simpa [hb,hl] using h
        simp [ih hl]

theorem mapM_eq_map {β γ : Type} {f : β → Option γ} {g : β → γ} {l : List β}
    (h : ∀ b ∈ l, f b = some (g b)) : l.mapM f = some (l.map g) := by
  induction l with
  | nil => rfl
  | cons b l ih =>
    obtain ⟨hb,hl⟩ := forall_mem_cons.mp h
    simp [hb,ih hl]

theorem mapM_getElem? {β : Type} (l : List β) : (List.range l.length).mapM (fun i => l[i]?) = some l := by
  cases l with
  | nil => rfl
  | cons b l =>
    rw [@mapM_eq_map Nat β _ (fun i => (b :: l).getD i b)]
    · congr 1
      apply ext_getElem
      · simp
      intro i hi hi'
      simp only [getElem_map,getElem_range,getD_eq_getElem?_getD]
      rw [getElem?_eq_getElem hi']
      rfl
    · intro i hi
      rw [getD_eq_getElem?_getD,getElem?_eq_getElem (mem_range.mp hi)]
      rfl

theorem filled_iff_join (cells : List (Option α)) (j : Nat) :
    Filled cells j ↔ ((cells[j]?).join).isSome = true := by
  unfold Filled
  cases hc : cells[j]? with
  | none => simp
  | some cell => cases cell <;> simp

theorem readCells_isSome (cells : List (Option α)) (off n : Nat) :
    (readCells cells off n).isSome = true ↔ ∀ i < n, Filled cells (off+i) := by
  rw [readCells,isSome_mapM]
  simp only [mem_range,filled_iff_join]

theorem exists_row_of_filled {cells : List (Option α)} (h : ∀ j < cells.length, Filled cells j) :
    ∃ row : List α, cells = row.map some := by
  induction cells with
  | nil => exact ⟨[],rfl⟩
  | cons cell cells ih =>
    obtain ⟨a,ha⟩ := h 0 (by simp)
    obtain ⟨row,hrow⟩ := ih fun j hj => by
      obtain ⟨b,hb⟩ := h (j+1) (by simpa using hj)
      exact ⟨b,by simpa using hb⟩
    exact ⟨a :: row,by rw [map_cons,← hrow]; simpa using ha⟩

theorem readCells_all (row : List α) : readCells (row.map some) 0 row.length = some row := by
  have hr : ∀ i, (((row.map some)[0+i]?).join) = row[i]? := by
    intro i
    rw [zero_add,getElem?_map]
    cases row[i]? <;> rfl
  rw [readCells]
  simp only [hr]
  exact mapM_getElem? row

theorem Filled.lt {cells : List (Option α)} {j : Nat} (h : Filled cells j) : j < cells.length := by
  obtain ⟨a,ha⟩ := h
  exact (List.getElem?_eq_some_iff.mp ha).1

variable {off : Nat}

theorem writeCells_length {cells cells' : List (Option α)} {row : List α}
    (h : writeCells cells off row = some cells') : cells'.length = cells.length := by
  unfold writeCells at h
  split at h
  · rename_i hr
    obtain rfl := Option.some.inj h
    rcases hr with rfl | hle
    · simp
    · simp only [length_append,length_take,length_map,length_drop]
      omega
  · simp at h

theorem writeCells_isSome (cells : List (Option α)) (off : Nat) (row : List α)
    (h : row = [] ∨ off+row.length ≤ cells.length) : (writeCells cells off row).isSome = true := by
  rw [writeCells,if_pos h]
  rfl

theorem writeCells_filled {cells cells' : List (Option α)} {row : List α}
    (h : writeCells cells off row = some cells') (j : Nat) :
    Filled cells' j ↔ (off ≤ j ∧ j < off+row.length) ∨ Filled cells j := by
  unfold writeCells at h
  split at h
  case isFalse => simp at h
  rename_i hr
  obtain rfl := Option.some.inj h
  by_cases he : row = []
  · subst he
    have hs : cells.take off ++ ([] : List α).map some ++ cells.drop (off+0) = cells := by simp
    rw [show ([] : List α).length = 0 from rfl,hs]
    constructor
    · exact .inr
    · rintro (h | h)
      · omega
      · exact h
  have hle : off+row.length ≤ cells.length := hr.resolve_left he
  have ht : (cells.take off).length = off := by simp; omega
  unfold Filled
  rcases lt_or_ge j off with hj | hj
  · rw [append_assoc,getElem?_append_left (by omega),getElem?_take_of_lt hj]
    constructor
    · exact .inr
    · rintro (h | h)
      · omega
      · exact h
  rcases lt_or_ge j (off+row.length) with hj' | hj'
  · rw [append_assoc,getElem?_append_right (by omega),ht,
      getElem?_append_left (by simp; omega),getElem?_map,
      getElem?_eq_getElem (by omega)]
    simp [hj,hj']
  rw [getElem?_append_right (by simp; omega)]
  simp only [length_append,ht,length_map,getElem?_drop]
  rw [show off+row.length+(j-(off+row.length)) = j by omega]
  constructor
  · exact .inr
  · rintro (h | h)
    · omega
    · exact h

theorem rows_filled_iff (cells : List (Option α)) (n d M : Nat) (hM : cells.length < M) :
    (∀ c < n, ∀ i < d, Filled cells (c*d%M+i)) ↔ ∀ j < n*d, Filled cells j := by
  constructor
  · intro h j hj
    have hd : 0 < d := Nat.pos_of_ne_zero (by rintro rfl; simp at hj)
    have hs : n*d < M := by
      by_contra hge
      have hdiv : (M-1)/d*d ≤ M-1 := Nat.div_mul_le_self _ _
      have hrem := Nat.mod_lt (M-1) hd
      have hmod := Nat.div_add_mod (M-1) d
      have hc : (M-1)/d < n := by
        by_contra hcn
        have := Nat.mul_le_mul_right d (Nat.le_of_not_lt hcn)
        omega
      have hl := (h _ hc ((M-1)%d) hrem).lt
      rw [Nat.mod_eq_of_lt (by omega),mul_comm] at hl
      omega
    have hc : j/d < n := (Nat.div_lt_iff_lt_mul hd).mpr hj
    have hrow := h _ hc (j%d) (Nat.mod_lt j hd)
    have hle : j/d*d ≤ j := Nat.div_mul_le_self _ _
    rw [Nat.mod_eq_of_lt (by omega),mul_comm,Nat.div_add_mod] at hrow
    exact hrow
  intro h c hc i hi
  have hrow : c*d+d ≤ n*d := by
    have := Nat.mul_le_mul_right d (Nat.succ_le_of_lt hc)
    rwa [Nat.succ_mul] at this
  have hlt : c*d+i < cells.length := (h (c*d+i) (by omega)).lt
  rw [Nat.mod_eq_of_lt (by omega)]
  exact h _ (by omega)

end AevOS.Cells
