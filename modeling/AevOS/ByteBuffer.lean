import AevOS.ByteWire
import AevOS.ArrayPrefix

/-! Byte buffers as functions of the position, and the byte strings copied in and out. -/

namespace AevOS.Buffer
open Wire ArrayPrefix List

abbrev Buf := Nat → UInt8

def zeros : Buf := fun _ => 0

def put (b : Buf) (off : Nat) (bs : Bytes) : Buf :=
  fun i => if off ≤ i ∧ i < off+bs.length then byteAt bs (i-off) else b i

def get (b : Buf) (off n : Nat) : Bytes := firsts (fun k => b (off+k)) n

@[simp] theorem get_length (b : Buf) (off n : Nat) : (get b off n).length = n := by simp [get]

theorem leValue_get_lt (b : Buf) (off n : Nat) : leValue (get b off n) < 256^n := by
  simpa using leValue_lt (get b off n)

variable {n off i : Nat} {bs : Bytes} {b : Buf}

theorem cut_length {c : Prop} [Decidable c] (h : c ↔ n < bs.length) :
    (if c then n else bs.length) = (bs.take n).length := by
  rw [length_take]
  split
  · rename_i hc
    have := h.mp hc
    omega
  · rename_i hc
    have := mt h.mpr hc
    omega

theorem take_cut (n : Nat) (bs : Bytes) : bs.take (bs.take n).length = bs.take n := by
  rw [length_take,← take_eq_take_min]

theorem put_inside (hlow : off ≤ i) (hh : i < off+bs.length) :
    put b off bs i = byteAt bs (i-off) := if_pos ⟨hlow,hh⟩

theorem put_outside (h : i < off ∨ off+bs.length ≤ i) : put b off bs i = b i := if_neg (by omega)

theorem get_congr {a : Buf} (h : ∀ i, off ≤ i → i < off+n → a i = b i) : get a off n = get b off n :=
  firsts_congr fun k hk => h (off+k) (Nat.le_add_right off k) (Nat.add_lt_add_left hk off)

theorem get_put_inside {b : Buf} {off i n : Nat} {bs : Bytes} (h : i+n ≤ bs.length) :
    get (put b off bs) (off+i) n = slice bs i n := by
  apply ext_getElem
  · rw [get_length,slice_length h]
  intro k hk _
  have hk : k < n := by simpa using hk
  have hlt : i+k < bs.length := by omega
  simp only [get,firsts,getElem_map,getElem_range,slice,getElem_take,getElem_drop]
  rw [put_inside (by omega) (by omega),show off+i+k-off = i+k by omega,byteAt_of_lt hlt]

theorem get_put_self {b : Buf} {off : Nat} {bs : Bytes} : get (put b off bs) off bs.length = bs := by
  have h : get (put b off bs) (off+0) bs.length = slice bs 0 bs.length := get_put_inside (by simp)
  simpa [slice] using h

theorem get_put_outside {o : Nat} (h : o+n ≤ off ∨ off+bs.length ≤ o) : get (put b off bs) o n = get b o n :=
  get_congr fun i _ _ => put_outside (by omega)

section
variable (b : Buf) (off : Nat)

theorem get_append (m n : Nat) : get b off (m+n) = get b off m ++ get b (off+m) n := by
  rw [get,firsts_add]
  simp only [get,add_assoc]

theorem get_take {m : Nat} (h : m ≤ n) : (get b off n).take m = get b off m :=
  firsts_take _ h

theorem get_slice {m : Nat} (h : i+n ≤ m) : get b (off+i) n = slice (get b off m) i n := by
  have hm : m = i+(n+(m-i-n)) := by omega
  have hlen : (get b off i).length ≤ i := (get_length b off i).le
  rw [hm,get_append,slice_append_right _ _ hlen,get_length,Nat.sub_self,get_append,
    slice_front _ (get_length b _ n)]

theorem get_shift (o off n : Nat) : get (fun i => b (o+i)) off n = get b (o+off) n := by
  simp only [get,add_assoc]

abbrev Write := Nat × Bytes

def applyWrites (ws : List Write) (b : Buf) : Buf := ws.foldl (fun b w => put b w.1 w.2) b

@[simp] theorem applyWrites_nil : applyWrites [] b = b := rfl

@[simp] theorem applyWrites_cons (w : Write) (ws : List Write) (b : Buf) :
    applyWrites (w :: ws) b = applyWrites ws (put b w.1 w.2) := rfl

theorem applyWrites_append (ws vs : List Write) (b : Buf) :
    applyWrites (ws ++ vs) b = applyWrites vs (applyWrites ws b) := List.foldl_append

theorem put_nil : put b off [] = b :=
  funext fun i => put_outside (by simp only [length_nil]; omega)

theorem put_append (as bs : Bytes) : put (put b off as) (off+as.length) bs = put b off (as ++ bs) := by
  funext i
  by_cases hlow : i < off
  · rw [put_outside (.inl (by omega)),put_outside (.inl hlow),put_outside (.inl hlow)]
  by_cases has : i < off+as.length
  · rw [put_outside (.inl has),put_inside (by omega) has,put_inside (by omega) (by simp; omega),
      byteAt_append_left (by omega)]
  by_cases hbs : i < off+as.length+bs.length
  · rw [put_inside (by omega) hbs,put_inside (by omega) (by simp; omega),
      byteAt_append_right (by omega),Nat.sub_add_eq]
  · rw [put_outside (.inr (by omega)),put_outside (.inr (by omega)),
      put_outside (.inr (by simp; omega))]

end

def Apart (w v : Write) : Prop := w.1+w.2.length ≤ v.1 ∨ v.1+v.2.length ≤ w.1

variable {ws : List Write}

theorem get_applyWrites_outside (h : ∀ w ∈ ws, off+n ≤ w.1 ∨ w.1+w.2.length ≤ off) :
    get (applyWrites ws b) off n = get b off n := by
  induction ws generalizing b with
  | nil => rfl
  | cons w ws ih =>
    rw [applyWrites_cons,ih (fun v hv => h v (mem_cons_of_mem _ hv)),
      get_put_outside (h w mem_cons_self)]

theorem get_applyWrites_mem {w : Write} (hw : w ∈ ws) (h : ∀ v ∈ ws, v = w ∨ Apart w v) (b : Buf) :
    get (applyWrites ws b) w.1 w.2.length = w.2 := by
  induction ws generalizing b with
  | nil => cases hw
  | cons v ws ih =>
    have hr : ∀ u ∈ ws, u = w ∨ Apart w u := fun u hu => h u (mem_cons_of_mem _ hu)
    rw [applyWrites_cons]
    by_cases hin : w ∈ ws
    · exact ih hin hr _
    · have hv : w = v := (mem_cons.mp hw).resolve_right hin
      subst hv
      rw [get_applyWrites_outside fun u hu => (hr u hu).resolve_left fun e => hin (e ▸ hu),get_put_self]

end AevOS.Buffer
