import AevOS.ArrayPrefix
import AevOS.Common

/-! The byte-pair tokenizer of `llm/llm_runtime.c`: `llm_tokenize` and `llm_detokenize`. -/

namespace AevOS.Llm
open Wire ArrayPrefix List

def isNan (a : UInt32) : Bool := decide (0x7F800000 < (a &&& 0x7FFFFFFF))

def floatRank (a : UInt32) : Int :=
  if a &&& 0x80000000 = 0 then (a &&& 0x7FFFFFFF).toNat else -((a &&& 0x7FFFFFFF).toNat : Int)

def floatGt (a b : UInt32) : Bool := !isNan a && !isNan b && decide (floatRank b < floatRank a)
def lowestScore : UInt32 := 0xF149F2CA

def asInt (v : Nat) : Int := if v < 2^31 then v else v-2^32
def asUint32 (token : Int) : Nat := (token%2^32).toNat

structure Vocab where
  entries : Option (Int → Option Bytes)
  scores : Option (Nat → UInt32)
  size : UInt32

def byteString (b : UInt8) : Bytes := if b = 0 then [] else [b]

def llmDetokenize (v : Vocab) (token : Int) : Bytes :=
  if 0 ≤ token ∧ token < 256 then byteString (UInt8.ofNat token.toNat)
  else
    match v.entries with
    | none => []
    | some e => if asUint32 token < v.size.toNat then (e token).getD [] else []

def mergedSize : Nat := 512

def findEntry (e : Int → Option Bytes) (size : UInt32) (merged : Bytes) : Option Nat :=
  (List.range' 256 (size.toNat-256)).find? fun i => decide (e i = some merged)

def pairEntry (v : Vocab) (e : Int → Option Bytes) (first second : Int) : Option Nat :=
  let s1 := llmDetokenize v first
  let s2 := llmDetokenize v second
  if s1.length+s2.length ≥ mergedSize then none else findEntry e v.size (s1 ++ s2)

structure Best where
  score : UInt32
  pair : Option (Nat × Int)

def scanPair (v : Vocab) (e : Int → Option Bytes) (scores : Nat → UInt32) (tokens : Nat → Int) (best : Best)
    (i : Nat) : Best :=
  match pairEntry v e (tokens i) (tokens (i+1)) with
  | none => best
  | some entry => if floatGt (scores entry) best.score then ⟨scores entry,some (i,asInt entry)⟩ else best

def bestPair (v : Vocab) (e : Int → Option Bytes) (scores : Nat → UInt32) (tokens : Nat → Int) (n : Nat) :
    Option (Nat × Int) :=
  ((List.range (n-1)).foldl (scanPair v e scores tokens) ⟨lowestScore,none⟩).pair

def mergeLoop (v : Vocab) (e : Int → Option Bytes) (scores : Nat → UInt32) : Nat → (Nat → Int) → Nat × (Nat → Int)
  | 0, tokens => (0,tokens)
  | 1, tokens => (1,tokens)
  | n+2, tokens =>
    match bestPair v e scores tokens (n+2) with
    | none => (n+2,tokens)
    | some (pos,id) => mergeLoop v e scores (n+1) (shiftDown (n+1-(pos+1)) (pos+1) (setAt tokens pos id))

def byteTokens (text : Bytes) (maxTokens : Int) (tokens : Nat → Int) : Nat × (Nat → Int) :=
  ((text.take maxTokens.toNat).length,
    fun i => if i < (text.take maxTokens.toNat).length then ((byteAt text i).toNat : Int) else tokens i)

def llmTokenize (v : Vocab) (text : CStr) (maxTokens : Int) (tokens : Nat → Int) : Nat × (Nat → Int) :=
  let start := byteTokens text.bytes maxTokens tokens
  match v.entries, v.scores with
  | some e, some scores => if v.size ≤ 256 then start else mergeLoop v e scores start.1 start.2
  | _, _ => start

def detokenizeAll (v : Vocab) (tokens : List Int) : Bytes := tokens.flatMap (llmDetokenize v)

def roundTrip (v : Vocab) (text : CStr) (maxTokens : Int) (tokens : Nat → Int) : Bytes :=
  let r := llmTokenize v text maxTokens tokens
  detokenizeAll v (firsts r.2 r.1)

theorem detokenize_byte (v : Vocab) {b : UInt8} (hb : b ≠ 0) : llmDetokenize v (b.toNat : Int) = [b] := by
  have hlt := b.toNat_lt
  have hr : 0 ≤ (b.toNat : Int) ∧ (b.toNat : Int) < 256 := by omega
  rw [llmDetokenize,if_pos hr]
  simp [byteString,hb]

theorem byteTokens_firsts (text : Bytes) (maxTokens : Int) (tokens : Nat → Int) :
    firsts (byteTokens text maxTokens tokens).2 (byteTokens text maxTokens tokens).1 =
      (text.take maxTokens.toNat).map fun b => (b.toNat : Int) := by
  apply ext_getElem
  · simp [byteTokens]
  intro i hi hi'
  have hlt : i < (text.take maxTokens.toNat).length := by simpa using hi'
  have ht : i < text.length := lt_of_lt_of_le hlt (length_take_le' _ _)
  simp only [firsts,getElem_map,getElem_range,byteTokens,if_pos hlt,getElem_take]
  rw [byteAt,getD_eq_getElem _ _ ht]

theorem detokenize_bytes (v : Vocab) {bs : Bytes} (h : (0 : UInt8) ∉ bs) :
    detokenizeAll v (bs.map fun b => (b.toNat : Int)) = bs := by
  induction bs with
  | nil => rfl
  | cons b bs ih =>
    have hb : b ≠ 0 := fun h0 => h (by simp [h0])
    have hbs : (0 : UInt8) ∉ bs := fun h0 => h (mem_cons_of_mem b h0)
    have hr := ih hbs
    simp only [detokenizeAll] at hr
    simp [detokenizeAll,detokenize_byte v hb,hr]

variable {size : UInt32} {i pos : Nat}

section
variable {v : Vocab} {e : Int → Option Bytes} {scores : Nat → UInt32} {tokens : Nat → Int} {n : Nat}

theorem findEntry_some {merged : Bytes} (h : findEntry e size merged = some i) :
    256 ≤ i ∧ i < size.toNat ∧ e i = some merged := by
  obtain ⟨hp,hmem,-⟩ := find?_range'_eq_some.mp h
  rw [mem_range'_1] at hmem
  exact ⟨hmem.1,by omega,of_decide_eq_true hp⟩

theorem bestPair_some {id : Int} (h : bestPair v e scores tokens n = some (pos,id)) :
    pos+1 < n ∧ ∃ entry, pairEntry v e (tokens pos) (tokens (pos+1)) = some entry ∧ id = asInt entry := by
  have hs : ∀ (l : List Nat) (best : Best),
      (l.foldl (scanPair v e scores tokens) best).pair = best.pair ∨
        ∃ i ∈ l, ∃ entry, pairEntry v e (tokens i) (tokens (i+1)) = some entry ∧
          (l.foldl (scanPair v e scores tokens) best).pair = some (i,asInt entry) := by
    intro l
    induction l with
    | nil => exact fun best => .inl rfl
    | cons i l ih =>
      intro best
      have hone : (scanPair v e scores tokens best i).pair = best.pair ∨
          ∃ entry, pairEntry v e (tokens i) (tokens (i+1)) = some entry ∧
            (scanPair v e scores tokens best i).pair = some (i,asInt entry) := by
        unfold scanPair
        cases he : pairEntry v e (tokens i) (tokens (i+1)) with
        | none => exact .inl rfl
        | some entry =>
          dsimp only
          split
          · exact .inr ⟨entry,rfl,rfl⟩
          · exact .inl rfl
      rcases ih (scanPair v e scores tokens best i) with hr | ⟨j,hj,entry,he,hr⟩
      · rcases hone with hsm | ⟨entry,he,hnew⟩
        · exact .inl (hr.trans hsm)
        · exact .inr ⟨i,mem_cons_self,entry,he,hr.trans hnew⟩
      · exact .inr ⟨j,mem_cons_of_mem i hj,entry,he,hr⟩
  rcases hs (List.range (n-1)) ⟨lowestScore,none⟩ with hn | ⟨i,hi,entry,he,hso⟩
  · rw [bestPair,hn] at h
    cases h
  rw [bestPair,hso] at h
  obtain ⟨rfl,rfl⟩ : i = pos ∧ asInt entry = id := by simpa using h
  rw [mem_range] at hi
  exact ⟨by omega,entry,he,rfl⟩

theorem detokenize_entry (he : v.entries = some e) (hsz : v.size.toNat ≤ 2^31) {s : Bytes}
    (hlow : 256 ≤ i) (hi : i < v.size.toNat) (hs : e i = some s) : llmDetokenize v (asInt i) = s := by
  have hint : asInt i = i := if_pos (by omega)
  have hmod : asUint32 (i : Int) = i := by
    rw [asUint32,Int.emod_eq_of_lt (by omega) (by omega),Int.toNat_natCast]
  rw [hint,llmDetokenize,if_neg (by omega),he]
  dsimp only
  rw [hmod,if_pos hi,hs,Option.getD_some]

theorem detokenize_merged (he : v.entries = some e) (hsz : v.size.toNat ≤ 2^31) {first second : Int} {entry : Nat}
    (h : pairEntry v e first second = some entry) :
    llmDetokenize v (asInt entry) = llmDetokenize v first ++ llmDetokenize v second := by
  unfold pairEntry at h
  dsimp only at h
  split at h
  · cases h
  · obtain ⟨hlow,hi,hs⟩ := findEntry_some h
    exact detokenize_entry he hsz hlow hi hs

theorem merge_firsts (hpos : pos+1 < n) (id : Int) :
    ∃ before after, firsts tokens n = before ++ tokens pos :: tokens (pos+1) :: after ∧
      firsts (shiftDown (n-1-(pos+1)) (pos+1) (setAt tokens pos id)) (n-1) = before ++ id :: after := by
  have hs : ∀ t : Nat → Int, firsts t n =
      firsts t pos ++ t pos :: t (pos+1) :: firsts (fun k => t (pos+2+k)) (n-(pos+2)) := by
    intro t
    conv_lhs => rw [show n = pos+(2+(n-(pos+2))) by omega,firsts_add,firsts_add]
    simp [firsts,range_succ,add_assoc]
  refine ⟨firsts tokens pos,firsts (fun k => tokens (pos+2+k)) (n-(pos+2)),hs tokens,?_⟩
  have hf : firsts (setAt tokens pos id) pos = firsts tokens pos :=
    firsts_congr fun i hi => setAt_ne _ _ (ne_of_lt hi)
  have hb : firsts (fun k => setAt tokens pos id (pos+2+k)) (n-(pos+2)) =
      firsts (fun k => tokens (pos+2+k)) (n-(pos+2)) := firsts_congr fun i _ => setAt_ne _ _ (by omega)
  have hlen : (firsts tokens pos).length = pos := firsts_length tokens pos
  rw [firsts_shiftDown _ hpos,hs (setAt tokens pos id),hf,hb,setAt_self,
    eraseIdx_append_of_length_le (by omega),hlen]
  simp

theorem mergeLoop_text (he : v.entries = some e) (hs : v.size.toNat ≤ 2^31) (n : Nat) (tokens : Nat → Int) :
    detokenizeAll v (firsts (mergeLoop v e scores n tokens).2 (mergeLoop v e scores n tokens).1) =
      detokenizeAll v (firsts tokens n) := by
  induction n, tokens using mergeLoop.induct v e scores with
  | case1 tokens | case2 tokens => rfl
  | case3 n tokens hb => rw [mergeLoop,hb]
  | case4 n tokens pos id hb ih =>
    obtain ⟨hpos,entry,hen,rfl⟩ := bestPair_some hb
    obtain ⟨before,after,hold,hnew⟩ := merge_firsts hpos (asInt entry)
    rw [mergeLoop,hb]
    have hnew : firsts (shiftDown (n+1-(pos+1)) (pos+1) (setAt tokens pos (asInt entry))) (n+1) =
        before ++ asInt entry :: after := hnew
    rw [ih,hold,hnew]
    simp [detokenizeAll,detokenize_merged he hs hen]

end

theorem roundTrip_eq (v : Vocab) (hsz : v.size.toNat ≤ 2^31) (text : CStr) (maxTokens : Int)
    (tokens : Nat → Int) : roundTrip v text maxTokens tokens = text.bytes.take maxTokens.toNat := by
  have hb : detokenizeAll v (firsts (byteTokens text.bytes maxTokens tokens).2
      (byteTokens text.bytes maxTokens tokens).1) = text.bytes.take maxTokens.toNat := by
    rw [byteTokens_firsts]
    exact detokenize_bytes v fun h => text.noNul (mem_of_mem_take h)
  unfold roundTrip llmTokenize
  cases he : v.entries with
  | none => exact hb
  | some e =>
    cases hs : v.scores with
    | none => exact hb
    | some scores =>
      dsimp only
      split
      · exact hb
      · rw [mergeLoop_text he hsz]
        exact hb

def farVocab (size : UInt32) : Vocab :=
  ⟨some fun i => if i = 2^31 then some [97,98] else none,some fun _ => 0,size⟩

def textAb : CStr := .of [97,98]

theorem roundTrip_far (h : 2^31 < size.toNat) : (llmTokenize (farVocab size) textAb 2 fun _ => 0).1 = 1 ∧
    (llmTokenize (farVocab size) textAb 2 fun _ => 0).2 0 = -2^31 ∧
    roundTrip (farVocab size) textAb 2 (fun _ => 0) = [] := by
  have hf : findEntry (fun i => if i = 2^31 then some [97,98] else none) size [97,98] = some (2^31) := by
    refine find?_range'_eq_some.mpr ⟨by decide,?_,?_⟩
    · rw [mem_range'_1]
      omega
    intro j _ hj
    have hne : (j : Int) ≠ 2^31 := by omega
    simp only [if_neg hne]
    rfl
  have hp : pairEntry (farVocab size) (fun i => if i = 2^31 then some [97,98] else none) 97 98 =
      some (2^31) := hf
  have hb : ∀ tokens : Nat → Int, tokens 0 = 97 → tokens 1 = 98 →
      bestPair (farVocab size) (fun i => if i = 2^31 then some [97,98] else none) (fun _ => 0) tokens 2 =
        some (0,-2^31) := by
    intro tokens h0 h1
    have hs : scanPair (farVocab size) (fun i => if i = 2^31 then some [97,98] else none) (fun _ => 0) tokens
        ⟨lowestScore,none⟩ 0 = ⟨0,some (0,asInt (2^31))⟩ := by
      unfold scanPair
      rw [h0,h1,hp]
      rfl
    show (scanPair _ _ _ tokens ⟨lowestScore,none⟩ 0).pair = _
    rw [hs]
    rfl
  have hl : ¬ size ≤ 256 := by
    rw [UInt32.le_iff_toNat_le]
    have : (256 : UInt32).toNat = 256 := rfl
    omega
  have ht : llmTokenize (farVocab size) textAb 2 (fun _ => 0) =
      (1,shiftDown 0 1 (setAt (byteTokens [97,98] 2 fun _ => 0).2 0 (-2^31))) := by
    show (if size ≤ 256 then _ else mergeLoop _ _ _ 2 _) = _
    rw [if_neg hl,mergeLoop,hb _ rfl rfl]
    rfl
  have hd : llmDetokenize (farVocab size) (-2^31) = [] := by
    show (if asUint32 (-2^31) < size.toNat then _ else _) = _
    split <;> rfl
  refine ⟨by rw [ht],by rw [ht]; rfl,?_⟩
  unfold roundTrip
  rw [ht]
  show llmDetokenize (farVocab size) (-2^31) ++ [] = []
  rw [hd,append_nil]

theorem tokenizer_lossless_iff (size : UInt32) :
    (∀ (entries : Option (Int → Option Bytes)) (scores : Option (Nat → UInt32)) (text : CStr) (maxTokens : Int)
        (tokens : Nat → Int), 0 < maxTokens →
        roundTrip ⟨entries,scores,size⟩ text maxTokens tokens = text.bytes.take maxTokens.toNat) ↔
      size.toNat ≤ 2^31 := by
  constructor
  · intro hall
    by_contra hlarge
    have hlost := (roundTrip_far (Nat.lt_of_not_le hlarge)).2.2
    rw [farVocab,hall _ _ textAb 2 _ (by decide)] at hlost
    exact absurd hlost (by decide)
  · intro hsize entries scores text maxTokens tokens _
    exact roundTrip_eq ⟨entries,scores,size⟩ hsize text maxTokens tokens

theorem farEntry_lost : (llmTokenize (farVocab 0x80000001) textAb 2 fun _ => 0).1 = 1 ∧
    (llmTokenize (farVocab 0x80000001) textAb 2 fun _ => 0).2 0 = -2^31 ∧
    roundTrip (farVocab 0x80000001) textAb 2 (fun _ => 0) = [] := by
  have hsize : 2^31 < (0x80000001 : UInt32).toNat := by decide
  exact roundTrip_far hsize

end AevOS.Llm
