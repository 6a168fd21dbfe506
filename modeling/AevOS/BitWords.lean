import AevOS.ArrayPrefix

/-! Bitmaps in words of 64 bits: single bits, ranges, and the searches for a clear bit and for a
run of clear bits. -/

namespace AevOS.BitWords
open ArrayPrefix List

abbrev Words := Nat → BitVec 64

def mask (i : Nat) : BitVec 64 := 1#64 <<< (i%64)
def test (b : Words) (i : Nat) : Bool := ((b (i/64) >>> (i%64)) &&& 1#64) != 0#64
def setBit (b : Words) (i : Nat) : Words := setAt b (i/64) (b (i/64) ||| mask i)
def clearBit (b : Words) (i : Nat) : Words := setAt b (i/64) (b (i/64) &&& ~~~ mask i)

theorem test_eq (b : Words) (i : Nat) : test b i = (b (i/64)).getLsbD (i%64) := by
  rw [test,← BitVec.testBit_toNat,Nat.testBit,Nat.and_comm,bne,bne]
  congr 1
  rw [Bool.eq_iff_iff,beq_iff_eq,beq_iff_eq,← BitVec.toNat_inj]
  simp

variable {k : Nat} {b : Words}

theorem mask_bit (i : Nat) (hk : k < 64) : (mask i).getLsbD k = decide (k = i%64) := by
  rw [mask,BitVec.getLsbD_shiftLeft,BitVec.getLsbD_one,Bool.eq_iff_iff]
  simp only [Bool.and_eq_true,Bool.not_eq_true',decide_eq_false_iff_not,decide_eq_true_eq]
  omega

@[simp] theorem test_setBit (b : Words) (i j : Nat) : test (setBit b i) j = (decide (j = i) || test b j) := by
  rw [test_eq,test_eq,setBit]
  by_cases hw : j/64 = i/64
  · rw [hw,setAt_self,BitVec.getLsbD_or,mask_bit i (Nat.mod_lt j (by decide)),Bool.or_comm]
    congr 2
    rw [eq_iff_iff]
    omega
  · have hne : j ≠ i := fun h => hw (by rw [h])
    rw [setAt_ne _ _ hw,decide_eq_false hne,Bool.false_or]

@[simp] theorem test_clearBit (b : Words) (i j : Nat) :
    test (clearBit b i) j = (!decide (j = i) && test b j) := by
  rw [test_eq,test_eq,clearBit]
  by_cases hw : j/64 = i/64
  · have hk : j%64 < 64 := Nat.mod_lt j (by decide)
    rw [hw,setAt_self,BitVec.getLsbD_and,BitVec.getLsbD_not,mask_bit i hk,decide_eq_true hk,
      Bool.true_and,Bool.and_comm]
    congr 3
    rw [eq_iff_iff]
    omega
  · have hne : j ≠ i := fun h => hw (by rw [h])
    rw [setAt_ne _ _ hw,decide_eq_false hne,Bool.not_false,Bool.true_and]

theorem and_field (n lo len : Nat) : n &&& ((2^len-1)*2^lo) = n/2^lo%2^len*2^lo := by
  apply Nat.eq_of_testBit_eq
  intro i
  rw [Nat.testBit_and,Nat.testBit_mul_two_pow,Nat.testBit_two_pow_sub_one,Nat.testBit_mul_two_pow,
    Nat.testBit_mod_two_pow,Nat.testBit_div_two_pow]
  by_cases hi : lo ≤ i
  · rw [decide_eq_true hi,Bool.true_and,Bool.true_and,Nat.sub_add_cancel hi,Bool.and_comm]
  · rw [decide_eq_false hi,Bool.false_and,Bool.false_and,Bool.and_false]

def setRange (lo hi : Nat) (b : Words) : Words := (List.range' lo (hi-lo)).foldl setBit b
def clearRange (lo hi : Nat) (b : Words) : Words := (List.range' lo (hi-lo)).foldl clearBit b

section
variable (is : List Nat) (lo hi : Nat) (b : Words) (j : Nat)

theorem test_setBits : test (is.foldl setBit b) j = (decide (j ∈ is) || test b j) := by
  induction is generalizing b with
  | nil => simp
  | cons i is ih =>
    rw [foldl_cons,ih,test_setBit,Bool.eq_iff_iff]
    simp only [Bool.or_eq_true,decide_eq_true_eq,mem_cons]
    tauto

theorem test_clearBits : test (is.foldl clearBit b) j = (!decide (j ∈ is) && test b j) := by
  induction is generalizing b with
  | nil => simp
  | cons i is ih =>
    rw [foldl_cons,ih,test_clearBit,Bool.eq_iff_iff]
    simp only [Bool.and_eq_true,Bool.not_eq_true',decide_eq_false_iff_not,mem_cons]
    tauto

theorem mem_range'_sub {lo hi j : Nat} : j ∈ range' lo (hi-lo) ↔ lo ≤ j ∧ j < hi := by
  rw [mem_range'_1]
  omega

theorem test_setRange : test (setRange lo hi b) j = (decide (lo ≤ j ∧ j < hi) || test b j) := by
  rw [setRange,test_setBits]
  simp only [mem_range'_sub]

theorem test_clearRange : test (clearRange lo hi b) j = (!decide (lo ≤ j ∧ j < hi) && test b j) := by
  rw [clearRange,test_clearBits]
  simp only [mem_range'_sub]

def clearSet (b : Words) (n : Nat) : Finset Nat := (Finset.range n).filter (fun i => test b i = false)

@[simp] theorem mem_clearSet {b : Words} {n i : Nat} : i ∈ clearSet b n ↔ i < n ∧ test b i = false := by
  simp [clearSet]

theorem clearSet_card_le (n : Nat) : (clearSet b n).card ≤ n := by
  have hle := Finset.card_filter_le (Finset.range n) (fun i => test b i = false)
  rwa [Finset.card_range] at hle

end

theorem clearSet_setBit (b : Words) (n i : Nat) : clearSet (setBit b i) n = (clearSet b n).erase i := by
  ext j
  simp only [mem_clearSet,test_setBit,Finset.mem_erase,Bool.or_eq_false_iff,decide_eq_false_iff_not]
  tauto

theorem clearSet_clearBit (b : Words) {n i : Nat} (hi : i < n) :
    clearSet (clearBit b i) n = insert i (clearSet b n) := by
  ext j
  simp only [mem_clearSet,test_clearBit,Finset.mem_insert,Bool.and_eq_false_iff,
    Bool.not_eq_false',decide_eq_true_eq]
  constructor
  · tauto
  · rintro (rfl | h)
    · exact ⟨hi,.inl rfl⟩
    · exact ⟨h.1,.inr h.2⟩

def findFirstClear (b : Words) (total : Nat) : Nat → Nat → Option Nat
  | 0, _ => none
  | n+1, w =>
    if b w ≠ BitVec.allOnes 64 then
      let page := w*64+(~~~ b w).ctz.toNat
      if page < total then some page else findFirstClear b total n (w+1)
    else findFirstClear b total n (w+1)

theorem ctz_not_spec {x : BitVec 64} (h : x ≠ BitVec.allOnes 64) :
    (~~~ x).ctz.toNat < 64 ∧ x.getLsbD (~~~ x).ctz.toNat = false ∧
      ∀ k, k < (~~~ x).ctz.toNat → x.getLsbD k = true := by
  have hne : ~~~ x ≠ 0#64 := by
    intro hz
    apply h
    have hnot := congrArg (fun y : BitVec 64 => ~~~ y) hz
    simpa using hnot
  have hbit := BitVec.getLsbD_true_ctz_of_ne_zero hne
  rw [BitVec.getLsbD_not,Bool.and_eq_true,decide_eq_true_eq,Bool.not_eq_true'] at hbit
  refine ⟨hbit.1,hbit.2,?_⟩
  intro k hk
  have hlow := BitVec.getLsbD_false_of_lt_ctz hk
  rw [BitVec.getLsbD_not,decide_eq_true (hk.trans hbit.1),Bool.true_and,Bool.not_eq_false'] at hlow
  exact hlow

theorem word_bits {w : Nat} (hk : k < 64) : test b (w*64+k) = (b w).getLsbD k := by
  rw [test_eq]
  congr 2 <;> omega

theorem findFirstClear_spec (b : Words) (total n w : Nat) (hn : total ≤ (w+n)*64) :
    (∀ p, findFirstClear b total n w = some p → w*64 ≤ p ∧ p < total ∧ test b p = false ∧
      ∀ q, w*64 ≤ q → q < p → test b q = true) ∧
    (findFirstClear b total n w = none → ∀ q, w*64 ≤ q → q < total → test b q = true) := by
  induction n generalizing w with
  | zero =>
    refine ⟨fun p hp => (nomatch hp),fun _ q hq hlt => ?_⟩
    omega
  | succ n ih =>
    obtain ⟨ihs,ihn⟩ := ih (w+1) (by omega)
    -- every bit of this word below `total` is set
    have hs : (∀ q, w*64 ≤ q → q < (w+1)*64 → q < total → test b q = true) →
        (∀ p, findFirstClear b total n (w+1) = some p → w*64 ≤ p ∧ p < total ∧ test b p = false ∧
            ∀ q, w*64 ≤ q → q < p → test b q = true) ∧
        (findFirstClear b total n (w+1) = none → ∀ q, w*64 ≤ q → q < total → test b q = true) := by
      intro hw
      constructor
      · intro p hp
        obtain ⟨hle,hlt,hc,hb⟩ := ihs p hp
        refine ⟨by omega,hlt,hc,?_⟩
        intro q hq hqp
        rcases lt_or_ge q ((w+1)*64) with hlow | hh
        · exact hw q hq hlow (by omega)
        · exact hb q hh hqp
      intro hnn q hq hlt
      rcases lt_or_ge q ((w+1)*64) with hlow | hh
      · exact hw q hq hlow hlt
      · exact ihn hnn q hh hlt
    rw [findFirstClear]
    by_cases hf : b w = BitVec.allOnes 64
    · rw [if_neg (by simpa using hf)]
      apply hs
      intro q hq hlow _
      obtain ⟨k,rfl⟩ := Nat.exists_eq_add_of_le hq
      rw [word_bits (by omega),hf,BitVec.getLsbD_allOnes,decide_eq_true_eq]
      omega
    rw [if_pos (by simpa using hf)]
    obtain ⟨hl64,hc,hbl⟩ := ctz_not_spec hf
    simp only
    have hw : ∀ q, w*64 ≤ q → q < w*64+(~~~ b w).ctz.toNat → test b q = true := by
      intro q hq hqp
      obtain ⟨k,rfl⟩ := Nat.exists_eq_add_of_le hq
      rw [word_bits (by omega)]
      exact hbl k (by omega)
    split
    · rename_i hpg
      refine ⟨?_,fun hno => nomatch hno⟩
      intro p hp
      obtain rfl := Option.some.inj hp
      exact ⟨by omega,hpg,by rw [word_bits hl64]; exact hc,hw⟩
    rename_i hpg
    apply hs
    intro q hq _ hlt
    exact hw q hq (by omega)

def ClearRun (b : Words) (start count : Nat) : Prop :=
  ∀ i, start ≤ i → i < start+count → test b i = false

def findRun (b : Words) (count : Nat) : Nat → Nat → Nat → Nat → Option Nat
  | 0, _, _, _ => none
  | n+1, i, run, start =>
    if test b i then findRun b count n (i+1) 0 (i+1)
    else if run+1 = count then some start
    else findRun b count n (i+1) (run+1) start

theorem findRun_spec {count : Nat} (lo n i run start : Nat) (hrun : run < count)
    (hsr : start+run = i) (hcl : ClearRun b start run) (hle : lo ≤ start)
    (hn : ∀ s, lo ≤ s → s < start → s+count ≤ i → ¬ ClearRun b s count)
    (hset : lo < start → test b (start-1) = true) :
    (∀ p, findRun b count n i run start = some p → lo ≤ p ∧ p+count ≤ i+n ∧ ClearRun b p count) ∧
    (findRun b count n i run start = none → ∀ s, lo ≤ s → s+count ≤ i+n → ¬ ClearRun b s count) := by
  induction n generalizing i run start with
  | zero =>
    refine ⟨fun p hp => (nomatch hp),fun _ s hs hle' => ?_⟩
    rcases lt_or_ge s start with hlt | hge
    · exact hn s hs hlt (by omega)
    · omega
  | succ n ih =>
    -- a run that starts before the last set bit contains it
    have hcr : ∀ s, lo ≤ s → s < start → start ≤ s+count → ¬ ClearRun b s count := by
      intro s hs hlt hge hr'
      have hbit := hr' (start-1) (by omega) (by omega)
      rw [hset (by omega)] at hbit
      exact Bool.noConfusion hbit
    rw [findRun]
    by_cases hi : test b i = true
    · rw [if_pos hi]
      have hst := ih (i+1) 0 (i+1) (by omega) (by omega) (fun j _ _ => by omega) (by omega)
        (fun s hs hlt hsc => by
          intro hr'
          rcases lt_or_ge (s+count) (i+1) with hb | ha
          · rcases lt_or_ge s start with hlt' | hge
            · exact hn s hs hlt' (by omega) hr'
            · omega
          · have hbit := hr' i (by omega) (by omega)
            rw [hi] at hbit
            exact Bool.noConfusion hbit)
        (fun _ => by simpa using hi)
      rw [show i+1+n = i+(n+1) by omega] at hst
      exact hst
    rw [if_neg hi]
    have hc' : ClearRun b start (run+1) := by
      intro j hj hlt
      rcases lt_or_ge j i with hlt' | hge
      · exact hcl j hj (by omega)
      · obtain rfl : j = i := by omega
        simpa using hi
    by_cases hc : run+1 = count
    · rw [if_pos hc]
      refine ⟨?_,fun hno => nomatch hno⟩
      intro p hp
      obtain rfl := Option.some.inj hp
      exact ⟨hle,by omega,hc ▸ hc'⟩
    rw [if_neg hc]
    have hst := ih (i+1) (run+1) start (by omega) (by omega) hc' hle (fun s hs hlt hsc => by
        rcases lt_or_ge (s+count) (i+1) with hb | ha
        · exact hn s hs hlt (by omega)
        · exact hcr s hs hlt (by omega)) hset
    rw [show i+1+n = i+(n+1) by omega] at hst
    exact hst

end AevOS.BitWords
