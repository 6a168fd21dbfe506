import AevOS.LlmDecode
import AevOS.LlmTokenizer

/-! The positions at which `llm_infer` of `llm/llm_runtime.c` runs `llm_decode`. -/

namespace AevOS.Llm
open Wire ArrayPrefix List
open UInt32 (ofNat not_le lt_iff_toNat_lt)

def llmMaxBatch : Int := 512
def endOfText : Int := 2

structure Trace where
  decodedAt : List UInt32
  generated : List Int
  pos : UInt32

def decodeStep (r : Trace) : Trace := { r with decodedAt := r.decodedAt ++ [r.pos], pos := r.pos+1 }

def prefill : Nat → Trace → Trace
  | 0, r => r
  | n+1, r => prefill n (decodeStep r)

def generateLoop (nCtx : UInt32) (samples : Nat → Int) : (rounds t : Nat) → Trace → Trace
  | 0, _, r => r
  | k+1, t, r =>
    if samples t = endOfText then r
    else
      let r := decodeStep r
      let r := { r with generated := r.generated ++ [samples t] }
      if r.pos ≥ nCtx then r else generateLoop nCtx samples k (t+1) r

def llmGenerate (nCtx : UInt32) (samples : Nat → Int) (nInput : Nat) (maxNewTokens : Int) (pos : UInt32) : Trace :=
  generateLoop nCtx samples maxNewTokens.toNat 0 (prefill nInput ⟨[],[],pos⟩)

def maxGen (nCtx : UInt32) (nTok : Nat) : Int :=
  let room := asInt (nCtx-ofNat nTok).toNat
  let room := if room > llmMaxBatch then llmMaxBatch else room
  if room < 1 then 1 else room

def inferOutput (v : Vocab) (outSize : Nat) : List Int → Bytes → Bytes
  | [], out => out
  | token :: tokens, out =>
    inferOutput v outSize tokens
      (if out.length+(llmDetokenize v token).length < outSize then out ++ llmDetokenize v token else out)

def llmInfer (v : Vocab) (nCtx : UInt32) (grant : Bool) (tokens : Nat → Int) (samples : Nat → Int) (prompt : CStr)
    (outSize : Nat) : Int × Bytes × Trace :=
  if outSize = 0 then (-einval,[],⟨[],[],0⟩)
  else if grant = false then (-enomem,[],⟨[],[],0⟩)
  else
    let nTok := (llmTokenize v prompt (asInt nCtx.toNat) tokens).1
    let r := llmGenerate nCtx samples nTok (maxGen nCtx nTok) 0
    (r.generated.length,inferOutput v outSize r.generated [],r)

section
variable {v : Vocab} {e : Int → Option Bytes} {scores : Nat → UInt32}

theorem bestPair_none (tokens : Nat → Int) (n : Nat) :
    bestPair v e scores tokens n = none ↔ ∀ i, i+1 < n → ∀ entry,
      pairEntry v e (tokens i) (tokens (i+1)) = some entry → floatGt (scores entry) lowestScore = false := by
  have hst : ∀ (l : List Nat) (best : Best), best.pair ≠ none →
      (l.foldl (scanPair v e scores tokens) best).pair ≠ none := by
    intro l
    induction l with
    | nil => exact fun best h => h
    | cons i l ih =>
      intro best h
      apply ih
      unfold scanPair
      split
      · exact h
      · split
        · simp
        · exact h
  have hsc : ∀ l : List Nat, (l.foldl (scanPair v e scores tokens) ⟨lowestScore,none⟩).pair = none ↔
      ∀ i ∈ l, ∀ entry, pairEntry v e (tokens i) (tokens (i+1)) = some entry →
        floatGt (scores entry) lowestScore = false := by
    intro l
    induction l with
    | nil => simp
    | cons i l ih =>
      rw [foldl_cons,forall_mem_cons]
      cases he : pairEntry v e (tokens i) (tokens (i+1)) with
      | none =>
        have hs : scanPair v e scores tokens ⟨lowestScore,none⟩ i = ⟨lowestScore,none⟩ := by
          unfold scanPair
          rw [he]
        rw [hs,ih]
        simp
      | some entry =>
        cases hgt : floatGt (scores entry) lowestScore with
        | false =>
          have hs : scanPair v e scores tokens ⟨lowestScore,none⟩ i = ⟨lowestScore,none⟩ := by
            unfold scanPair
            rw [he]
            simp [hgt]
          rw [hs,ih]
          simp [hgt]
        | true =>
          have hsm : (scanPair v e scores tokens ⟨lowestScore,none⟩ i).pair ≠ none := by
            unfold scanPair
            rw [he]
            simp [hgt]
          simp [hst l _ hsm,hgt]
  rw [bestPair,hsc]
  simp only [mem_range]
  constructor
  · intro h i hi
    exact h i (by omega)
  · intro h i hi
    exact h i (by omega)

theorem mergeLoop_le (n : Nat) (tokens : Nat → Int) : (mergeLoop v e scores n tokens).1 ≤ n := by
  induction n, tokens using mergeLoop.induct v e scores with
  | case1 tokens | case2 tokens => exact le_refl _
  | case3 n tokens hb =>
    rw [mergeLoop,hb]
  | case4 n tokens pos id hb ih =>
    rw [mergeLoop,hb]
    exact Nat.le_succ_of_le ih

theorem mergeLoop_eq_iff (n : Nat) (tokens : Nat → Int) :
    (mergeLoop v e scores n tokens).1 = n ↔ bestPair v e scores tokens n = none := by
  cases n with
  | zero => exact ⟨fun _ => rfl,fun _ => rfl⟩
  | succ n =>
    cases n with
    | zero => exact ⟨fun _ => rfl,fun _ => rfl⟩
    | succ n =>
      rw [mergeLoop]
      cases hb : bestPair v e scores tokens (n+2) with
      | none => simp
      | some pair =>
        have hle := @mergeLoop_le v e scores (n+1)
          (shiftDown (n+1-(pair.1+1)) (pair.1+1) (setAt tokens pair.1 pair.2))
        simp only [reduceCtorEq,iff_false]
        omega

end

def MergesBytes (v : Vocab) (text : Bytes) (n : Nat) : Prop :=
  ∃ e scores, v.entries = some e ∧ v.scores = some scores ∧ 256 < v.size ∧
    ∃ i entry, i+1 < n ∧ findEntry e v.size [byteAt text i,byteAt text (i+1)] = some entry ∧
      floatGt (scores entry) lowestScore = true

theorem pairEntry_bytes (v : Vocab) (e : Int → Option Bytes) {a b : UInt8} (ha : a ≠ 0) (hb : b ≠ 0) :
    pairEntry v e (a.toNat : Int) (b.toNat : Int) = findEntry e v.size [a,b] := by
  unfold pairEntry
  rw [detokenize_byte v ha,detokenize_byte v hb]
  rfl

theorem byteAt_ne_zero (text : CStr) {i : Nat} (hi : i < text.bytes.length) : byteAt text.bytes i ≠ 0 := by
  intro h
  rw [byteAt,getD_eq_getElem _ _ hi] at h
  exact text.noNul (h ▸ getElem_mem hi)

theorem llmTokenize_count (v : Vocab) (text : CStr) (maxTokens : Int) (tokens : Nat → Int) :
    (llmTokenize v text maxTokens tokens).1 ≤ (text.bytes.take maxTokens.toNat).length ∧
      ((llmTokenize v text maxTokens tokens).1 = (text.bytes.take maxTokens.toNat).length ↔
        ¬ MergesBytes v text.bytes (text.bytes.take maxTokens.toNat).length) := by
  unfold llmTokenize MergesBytes
  cases he : v.entries with
  | none => exact ⟨le_refl _,by simp [byteTokens]⟩
  | some e =>
    cases hs : v.scores with
    | none => exact ⟨le_refl _,by simp [byteTokens]⟩
    | some scores =>
      dsimp only
      by_cases hsz : v.size ≤ 256
      · rw [if_pos hsz]
        exact ⟨le_refl _,by simp [byteTokens,UInt32.not_lt.mpr hsz]⟩
      rw [if_neg hsz]
      refine ⟨mergeLoop_le _ _,?_⟩
      show (mergeLoop v e scores (text.bytes.take maxTokens.toNat).length _).1 = _ ↔ _
      rw [mergeLoop_eq_iff,bestPair_none]
      have hlen : (text.bytes.take maxTokens.toNat).length ≤ text.bytes.length := length_take_le' _ _
      have ht : ∀ i, i < (text.bytes.take maxTokens.toNat).length →
          (byteTokens text.bytes maxTokens tokens).2 i = ((byteAt text.bytes i).toNat : Int) :=
        fun i hi => if_pos hi
      have hp : ∀ i, i+1 < (text.bytes.take maxTokens.toNat).length →
          pairEntry v e ((byteTokens text.bytes maxTokens tokens).2 i)
            ((byteTokens text.bytes maxTokens tokens).2 (i+1)) =
            findEntry e v.size [byteAt text.bytes i,byteAt text.bytes (i+1)] := by
        intro i hi
        rw [ht i (by omega),ht (i+1) hi]
        exact pairEntry_bytes v e (byteAt_ne_zero text (by omega)) (byteAt_ne_zero text (by omega))
      constructor
      · rintro hn ⟨e',scores',he',hs',_,i,entry,hi,hen,hgt⟩
        cases he'
        cases hs'
        have hlow := hn i hi entry ((hp i hi).trans hen)
        rw [hgt] at hlow
        cases hlow
      intro hno i hi entry hen
      rw [hp i hi] at hen
      by_contra hgt
      exact hno ⟨e,scores,rfl,rfl,not_le.mp hsz,i,entry,hi,hen,by simpa using hgt⟩

def Trace.Before (r : Trace) (nCtx : UInt32) : Prop := ∀ p ∈ r.decodedAt, p < nCtx

variable {r : Trace} {nCtx : UInt32}

theorem decodeStep_before (h : r.Before nCtx) (hpos : r.pos < nCtx) : (decodeStep r).Before nCtx := by
  intro p hp
  rcases mem_append.mp hp with hp | hp
  · exact h p hp
  · rw [mem_singleton.mp hp]
    exact hpos

theorem decodeStep_pos (hpos : r.pos < nCtx) : (decodeStep r).pos.toNat = r.pos.toNat+1 := by
  have hlt := lt_iff_toNat_lt.mp hpos
  have hctx := nCtx.toNat_lt
  show (r.pos+1).toNat = _
  exact Nat.mod_eq_of_lt (by show r.pos.toNat+1 < _; omega)

theorem prefill_before {nCtx : UInt32} (n : Nat) {r : Trace} (hr : r.Before nCtx)
    (hrm : r.pos.toNat+n ≤ nCtx.toNat) :
    (prefill n r).Before nCtx ∧ (prefill n r).pos.toNat = r.pos.toNat+n := by
  induction n generalizing r with
  | zero => exact ⟨hr,rfl⟩
  | succ n ih =>
    have hpos : r.pos < nCtx := lt_iff_toNat_lt.mpr (by omega)
    have hs := decodeStep_pos hpos
    obtain ⟨hb,hend⟩ := ih (decodeStep_before hr hpos) (by omega)
    exact ⟨hb,by rw [prefill,hend,hs]; omega⟩

theorem generateLoop_before (samples : Nat → Int) (k t : Nat) (hr : r.Before nCtx)
    (hpos : r.pos < nCtx) : (generateLoop nCtx samples k t r).Before nCtx := by
  induction k generalizing t r with
  | zero => exact hr
  | succ k ih =>
    have hs : Trace.Before { decodeStep r with generated := (decodeStep r).generated ++ [samples t] } nCtx :=
      decodeStep_before hr hpos
    unfold generateLoop
    dsimp only
    split
    · exact hr
    · split
      · exact hs
      · exact ih (t+1) hs (not_le.mp (by assumption))

theorem generateLoop_keeps (samples : Nat → Int) (k t : Nat) {p : UInt32} (hp : p ∈ r.decodedAt) :
    p ∈ (generateLoop nCtx samples k t r).decodedAt := by
  induction k generalizing t r with
  | zero => exact hp
  | succ k ih =>
    have hs : p ∈ (decodeStep r).decodedAt := mem_append_left _ hp
    unfold generateLoop
    dsimp only
    split
    · exact hp
    · split
      · exact hs
      · exact ih (t+1) hs

theorem generateLoop_full (samples : Nat → Int) (k : Nat) (hr : r.Before nCtx) (hpos : r.pos = nCtx) :
    (generateLoop nCtx samples (k+1) 0 r).Before nCtx ↔ samples 0 = endOfText := by
  constructor
  · intro h
    by_contra hs
    have hmem : r.pos ∈ (generateLoop nCtx samples (k+1) 0 r).decodedAt := by
      have hst : r.pos ∈ (decodeStep r).decodedAt := mem_append_right _ (mem_singleton_self _)
      unfold generateLoop
      dsimp only
      rw [if_neg hs]
      split
      · exact hst
      · exact generateLoop_keeps samples k 1 hst
    have hlt := h _ hmem
    rw [hpos] at hlt
    exact UInt32.lt_irrefl _ hlt
  · intro hs
    rw [generateLoop,if_pos hs]
    exact hr

theorem maxGen_pos (nCtx : UInt32) (nTok : Nat) : 1 ≤ maxGen nCtx nTok := by
  unfold maxGen
  dsimp only
  generalize (if asInt (nCtx-ofNat nTok).toNat > llmMaxBatch then _ else _ : Int) = room
  split
  · exact Int.le_refl _
  · omega

theorem llmGenerate_before (nCtx : UInt32) (samples : Nat → Int) {nTok : Nat} (hle : nTok ≤ nCtx.toNat) :
    (llmGenerate nCtx samples nTok (maxGen nCtx nTok) 0).Before nCtx ↔
      nTok < nCtx.toNat ∨ samples 0 = endOfText := by
  obtain ⟨hb,hpos⟩ := @prefill_before nCtx nTok ⟨[],[],0⟩ (fun p hp => absurd hp not_mem_nil)
    (by show (0 : UInt32).toNat+nTok ≤ _; simpa using hle)
  have hp' : (prefill nTok ⟨[],[],0⟩).pos.toNat = nTok := by simpa using hpos
  have hgen := maxGen_pos nCtx nTok
  obtain ⟨k,hk⟩ : ∃ k, (maxGen nCtx nTok).toNat = k+1 := ⟨(maxGen nCtx nTok).toNat-1,by omega⟩
  rw [llmGenerate,hk]
  by_cases hlt : nTok < nCtx.toNat
  · have hr : (prefill nTok ⟨[],[],0⟩).pos < nCtx := lt_iff_toNat_lt.mpr (by omega)
    exact ⟨fun _ => .inl hlt,fun _ => generateLoop_before samples (k+1) 0 hb hr⟩
  · have hf : (prefill nTok ⟨[],[],0⟩).pos = nCtx := UInt32.toNat_inj.mp (by omega)
    rw [generateLoop_full samples k hb hf]
    exact ⟨.inr,fun h => h.resolve_left hlt⟩

/-- The prompt leaves room in the context, or generation ends at once. -/
def LeavesRoom (v : Vocab) (nCtx : UInt32) (prompt : CStr) (samples : Nat → Int) : Prop :=
  2^31 ≤ nCtx.toNat ∨ prompt.bytes.length < nCtx.toNat ∨ MergesBytes v prompt.bytes nCtx.toNat ∨
    samples 0 = endOfText

theorem llmTokenize_room (v : Vocab) (nCtx : UInt32) (prompt : CStr) (tokens : Nat → Int) :
    (llmTokenize v prompt (asInt nCtx.toNat) tokens).1 ≤ nCtx.toNat ∧
      ((llmTokenize v prompt (asInt nCtx.toNat) tokens).1 < nCtx.toNat ↔
        2^31 ≤ nCtx.toNat ∨ prompt.bytes.length < nCtx.toNat ∨ MergesBytes v prompt.bytes nCtx.toNat) := by
  obtain ⟨hle,heq⟩ := llmTokenize_count v prompt (asInt nCtx.toNat) tokens
  have hctx := nCtx.toNat_lt
  by_cases hbig : 2^31 ≤ nCtx.toNat
  · have hz : (asInt nCtx.toNat).toNat = 0 := by
      unfold asInt
      split <;> omega
    rw [hz,take_zero,length_nil] at hle
    exact ⟨by omega,fun _ => .inl hbig,fun _ => by omega⟩
  have hmax : (asInt nCtx.toNat).toNat = nCtx.toNat := by
    unfold asInt
    split <;> omega
  rw [hmax] at hle heq
  have ht : (prompt.bytes.take nCtx.toNat).length = min nCtx.toNat prompt.bytes.length := length_take
  refine ⟨by omega,?_⟩
  by_cases hs : prompt.bytes.length < nCtx.toNat
  · exact ⟨fun _ => .inr (.inl hs),fun _ => by omega⟩
  have hf : (prompt.bytes.take nCtx.toNat).length = nCtx.toNat := by omega
  rw [hf] at hle heq
  simp only [hbig,hs,false_or]
  rw [← not_iff_not,← heq]
  omega

theorem llmInfer_inside_iff (c : Config) (v : Vocab) (grant : Bool) (tokens samples : Nat → Int) (prompt : CStr)
    (outSize : Nat) :
    (∀ p ∈ (llmInfer v c.nCtx grant tokens samples prompt outSize).2.2.decodedAt,
        p < c.nCtx ∧ c.WritesInside p.toNat) ↔
      outSize = 0 ∨ grant = false ∨ LeavesRoom v c.nCtx prompt samples := by
  have hwrites : (∀ p ∈ (llmInfer v c.nCtx grant tokens samples prompt outSize).2.2.decodedAt,
      p < c.nCtx ∧ c.WritesInside p.toNat) ↔
      (llmInfer v c.nCtx grant tokens samples prompt outSize).2.2.Before c.nCtx :=
    ⟨fun h p hp => (h p hp).1,fun h p hp => ⟨h p hp,c.writesInside (lt_iff_toNat_lt.mp (h p hp))⟩⟩
  rw [hwrites,llmInfer]
  by_cases hout : outSize = 0
  · rw [if_pos hout]
    exact ⟨fun _ => .inl hout,fun _ p hp => absurd hp not_mem_nil⟩
  rw [if_neg hout]
  by_cases hgrant : grant = false
  · rw [if_pos hgrant]
    exact ⟨fun _ => .inr (.inl hgrant),fun _ p hp => absurd hp not_mem_nil⟩
  rw [if_neg hgrant]
  obtain ⟨hle,hlt⟩ := llmTokenize_room v c.nCtx prompt tokens
  rw [llmGenerate_before c.nCtx samples hle,hlt]
  rw [or_iff_right hout,or_iff_right hgrant,LeavesRoom,or_assoc,or_assoc]

def oneWindow : Config := ⟨256,1,1,1,1,1,1⟩

def textA : CStr := .of [97]

theorem fullWindow_decoded_past : oneWindow.nCtx > 0 ∧
    (llmInfer ⟨none,none,256⟩ oneWindow.nCtx true (fun _ => 0) (fun _ => 5) textA 16).2.2.decodedAt = [0,1] ∧
    ¬ (oneWindow.kvRow 0 1).Inside oneWindow.cacheSize ∧ oneWindow.cacheSize = oneWindow.cacheNeed := by
  decide +kernel

end AevOS.Llm
