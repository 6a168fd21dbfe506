import AevOS.ArrayPrefix
import AevOS.Common

/-! The kernel allocator of `kernel/mm/slab.c`, object by object; 0 is the null pointer. Which free object
`cache_alloc` takes comes from outside as `pick`. -/

namespace AevOS.Slab
open ArrayPrefix Wire List

abbrev Addr := Nat

structure Heap where
  allocated : Addr → Bool
  objSize : Addr → Nat
  bytes : Addr → Nat → UInt8

def findCache (size : Nat) : Option Nat := cacheSizes.find? (fun c => size ≤ c)

/-- A `kmalloc` of `len` bytes succeeds, where `grant` says whether the pages are there. -/
def served (grant : Bool) (len : Nat) : Bool :=
  grant && decide (0 < len) && (findCache len).isSome

def kmalloc (m : Heap) (size : Nat) (pick : Addr) : Addr × Heap :=
  if size = 0 then (0,m)
  else
    match findCache size with
    | none => (0,m)
    | some c =>
      if pick = 0 ∨ m.allocated pick then (0,m)
      else
        (pick,
          { m with
            allocated := setAt m.allocated pick true
            objSize := setAt m.objSize pick c })

def kfree (m : Heap) (p : Addr) : Heap :=
  if p = 0 then m else { m with allocated := setAt m.allocated p false }

def store (m : Heap) (p : Addr) (bs : Bytes) : Heap :=
  { m with
    bytes := setAt m.bytes p (fun i => if i < bs.length then byteAt bs i else m.bytes p i) }

def load (m : Heap) (p : Addr) (n : Nat) : Bytes := firsts (m.bytes p) n

def krealloc (m : Heap) (p : Addr) (newSize : Nat) (pick : Addr) : Addr × Heap :=
  if p = 0 then kmalloc m newSize pick
  else if newSize = 0 then (0,kfree m p)
  else if newSize ≤ m.objSize p then (p,m)
  else
    let a := kmalloc m newSize pick
    if a.1 = 0 then (0,a.2)
    else (a.1,kfree (store a.2 a.1 (load a.2 p (m.objSize p))) p)

variable {size : Nat} {m : Heap} {p : Addr}

theorem findCache_some {c : Nat} (h : findCache size = some c) : size ≤ c ∧ c ≤ 65536 := by
  have hmem := mem_of_find?_eq_some h
  have hle := find?_some h
  simp only [cacheSizes,mem_cons,not_mem_nil,or_false] at hmem
  simp only [decide_eq_true_eq] at hle
  omega

theorem findCache_isSome (h : size ≤ 65536) : ∃ c, findCache size = some c := by
  apply Option.isSome_iff_exists.mp
  rw [findCache,find?_isSome]
  exact ⟨65536,by simp [cacheSizes],by simpa using h⟩

theorem kmalloc_cases (m : Heap) (size : Nat) (pick : Addr) : kmalloc m size pick = (0,m) ∨
      ∃ c, size ≤ c ∧ c ≤ 65536 ∧ pick ≠ 0 ∧ m.allocated pick = false ∧ 0 < size ∧
        kmalloc m size pick = (pick,
            { m with
              allocated := setAt m.allocated pick true
              objSize := setAt m.objSize pick c }) := by
  unfold kmalloc
  split
  · exact .inl rfl
  split
  · exact .inl rfl
  rename_i c hc
  obtain ⟨h1,h2⟩ := findCache_some hc
  split
  · exact .inl rfl
  · rename_i hf
    rw [not_or] at hf
    refine .inr ⟨c,h1,h2,hf.1,by simpa using hf.2,by omega,rfl⟩

theorem kmalloc_granted {pick : Addr} (hpos : 0 < size) (hmax : size ≤ 65536) (hp : pick ≠ 0)
    (hf : m.allocated pick = false) : (kmalloc m size pick).1 = pick := by
  obtain ⟨c,hc⟩ := findCache_isSome hmax
  unfold kmalloc
  rw [if_neg (by omega),hc]
  simp [hp,hf]

@[simp] theorem kfree_zero (m : Heap) : kfree m 0 = m := rfl

@[simp] theorem kfree_bytes (m : Heap) (p : Addr) : (kfree m p).bytes = m.bytes := by
  unfold kfree
  split <;> rfl

theorem kfree_allocated_ne (m : Heap) {q : Addr} (h : q ≠ p) : (kfree m p).allocated q = m.allocated q := by
  unfold kfree
  split
  · rfl
  · exact setAt_ne _ _ h

theorem krealloc_zero (m : Heap) (hp : p ≠ 0) (pick : Addr) :
    krealloc m p 0 pick = (0,kfree m p) := by simp [krealloc,hp]

theorem krealloc_fits (hp : p ≠ 0) {n : Nat} (hpos : 0 < n) (hn : n ≤ m.objSize p) (pick : Addr) :
    krealloc m p n pick = (p,m) := by
  simp [krealloc,hp,hn,ne_of_gt hpos]

@[simp] theorem load_length (m : Heap) (p : Addr) (n : Nat) : (load m p n).length = n :=
  firsts_length _ n

theorem load_store (m : Heap) (p : Addr) (bs : Bytes) : load (store m p bs) p bs.length = bs := by
  apply ext_getElem (by simp)
  intro i h1 h2
  simp [load,store,firsts,h2,byteAt_of_lt]

/-! Places that hold pointers into the kernel heap, each to a block of its own. -/

structure Owners {ι : Type} (m : Heap) (f : ι → Addr) : Prop where
  allocated : ∀ i, f i ≠ 0 → m.allocated (f i) = true
  apart : ∀ i j, i ≠ j → f i ≠ 0 → f i ≠ f j

section
variable {ι κ : Type} {m m' : Heap} {f g : ι → Addr} {i : ι}

section
variable (h : Owners m f)
include h

theorem Owners.unclaimed {q : Addr} (hq : q ≠ 0) (hf : m.allocated q = false)
    (k : ι) : f k ≠ q := by
  rintro rfl
  rw [h.allocated k hq] at hf
  exact absurd hf (by decide)

theorem Owners.replace (ho : ∀ k, k ≠ i → g k = f k)
    (hm : ∀ a, a ≠ f i → m.allocated a = true → m'.allocated a = true)
    (hh : g i ≠ 0 → m'.allocated (g i) = true) (hnew : g i ≠ 0 → ∀ k, k ≠ i → f k ≠ g i) : Owners m' g := by
  constructor
  · intro k hk
    by_cases hki : k = i
    · subst hki
      exact hh hk
    · rw [ho k hki] at hk ⊢
      exact hm _ (h.apart k i hki hk) (h.allocated k hk)
  intro k l hkl hk
  by_cases hki : k = i
  · subst hki
    rw [ho l (Ne.symm hkl)]
    exact Ne.symm (hnew hk l (Ne.symm hkl))
  rw [ho k hki] at hk ⊢
  by_cases hli : l = i
  · subst hli
    intro heq
    exact hnew (heq ▸ hk) k hki heq
  · rw [ho l hli]
    exact h.apart k l hkl hk

theorem Owners.release (ho : ∀ k, k ≠ i → g k = f k) (hi : g i = 0) : Owners (kfree m (f i)) g :=
  h.replace ho (fun _ ha hall => by rw [kfree_allocated_ne _ ha]; exact hall)
    (fun hd => absurd hi hd) (fun hd => absurd hi hd)

theorem Owners.comp {σ : κ → ι} (hσ : Function.Injective σ) : Owners m (f ∘ σ) :=
  ⟨fun k => h.allocated (σ k),fun k l hkl => h.apart (σ k) (σ l) (hσ.ne hkl)⟩

theorem Owners.heap (hm : ∀ i, f i ≠ 0 → m'.allocated (f i) = m.allocated (f i)) : Owners m' f :=
  ⟨fun i hi => (hm i hi).trans (h.allocated i hi),h.apart⟩

end

end

section
variable {m0 m m' : Heap} {pick : Nat → Addr} {i : Nat}

theorem free_of_taken (h : ∀ a, m.allocated a = true → m0.allocated a = true ∨ ∃ j, j < i ∧ a = pick j)
    (hf : m0.allocated (pick i) = false) (hinj : ∀ j, j < i → pick j ≠ pick i) :
    m.allocated (pick i) = false := by
  cases ha : m.allocated (pick i) with
  | false => rfl
  | true =>
    rcases h _ ha with hm | ⟨j,hj,hij⟩
    · rw [hm] at hf
      exact absurd hf (by decide)
    · exact absurd hij.symm (hinj j hj)

theorem taken_succ (h : ∀ a, m.allocated a = true → m0.allocated a = true ∨ ∃ j, j < i ∧ a = pick j)
    (hs : ∀ a, m'.allocated a = true → m.allocated a = true ∨ a = pick i) :
    ∀ a, m'.allocated a = true → m0.allocated a = true ∨ ∃ j, j < i+1 ∧ a = pick j := by
  intro a ha
  rcases hs a ha with ha | rfl
  · rcases h a ha with hm | ⟨j,hj,hja⟩
    · exact .inl hm
    · exact .inr ⟨j,by omega,hja⟩
  · exact .inr ⟨i,by omega,rfl⟩

end

end AevOS.Slab
