import AevOS.HistoryRing
import AevOS.Snprintf

/-! Putting a prompt together: `build_prompt` of `agent/agent_core.c` and
`hms_append_compressed_block` of `agent/hms_core.c`. -/

namespace AevOS.Prompt
open Wire Slab Lz4 Print Str Hist List
open UInt32 (ofNat)

structure Skill where
  id : UInt64
  name : Bytes
  description : Bytes
  active : Bool
  name_lt : name.length < 64
  description_lt : description.length < 256

structure Agent where
  name : Bytes
  skills : List Skill
  history : World
  name_lt : name.length < 64

inductive MemTier where
  | none | l1 | l2 | l3 | hnsw
  deriving DecidableEq

def MemTier.name : MemTier → Bytes
  | .none => utf8 "?"
  | .l1 => utf8 "L1"
  | .l2 => utf8 "L2"
  | .l3 => utf8 "L3"
  | .hnsw => utf8 "HNSW"

structure Recall where
  tier : MemTier
  hits : Option (List UInt64)
  snippet : UInt64 → Bytes

def historySeqAt (h : History) (logicalIndex : UInt32) : UInt64 :=
  if historyCount h ≤ logicalIndex then 0 else (h.ring (slotOf (h.tail+logicalIndex))).seq

def recentEntry (h : History) (i : UInt32) : HistEntry :=
  h.ring (slotOf (h.head-historyCount h+i))

def appendLoop {α : Type} (max slack : Nat) (item : α → Option (Bytes × List Arg)) : List α → Out → Out
  | [], o => o
  | x :: xs, o =>
    if o.pos < wordRoom max slack then
      match item x with
      | some f => appendLoop max slack item xs (append max o f.1 f.2)
      | none => appendLoop max slack item xs o
    else o

def hmsTitle : Bytes :=
  utf8 "\n--- HMS compressed (Memory L1→L2→L3→HNSW; History B+ seq; Skill registry) ---\n"

def registryItem (s : Skill) : Option (Bytes × List Arg) :=
  if s.active then some (utf8 "@%s#%llu ",[.str (some s.name),.num s.id.toNat]) else none

def seqItem (h : History) (k : Nat) : Option (Bytes × List Arg) :=
  some (utf8 "[H:%llu] ",[.num (historySeqAt h (historyCount h-1-ofNat k)).toNat])

def hitItem (r : Recall) (id : UInt64) : Option (Bytes × List Arg) :=
  some (utf8 "[M:%llu~%.2f] %.80s | ",[.num id.toNat,.str (some (r.snippet id))])

def hmsMemory (outMax : Nat) (found : Option Recall) (o : Out) : Out :=
  match found with
  | none => o
  | some r =>
    let o := append outMax o (utf8 "Memory hits (tier=%s): ") [.str (some r.tier.name)]
    let o := appendLoop outMax 128 (hitItem r) (r.hits.getD []) o
    let o := if r.hits = some [] then append outMax o (utf8 "(empty) ") [] else o
    append outMax o (utf8 "\n") []

def hmsAppendCompressedBlock (a : Agent) (found : Option Recall) (outMax : Nat) :
    Nat × List (Nat × UInt8) :=
  if outMax = 0 then (0,[])
  else
    let o := append outMax ⟨0,[]⟩ hmsTitle []
    let o := append outMax o (utf8 "Skill registry: ") []
    let o := appendLoop outMax 96 registryItem a.skills o
    let o := append outMax o (utf8 "\n") []
    let o := append outMax o (utf8 "History seq (B+): ") []
    let o := appendLoop outMax 48 (seqItem a.history.hist)
      (List.range (min 6 (historyCount a.history.hist).toNat)) o
    let o := append outMax o (utf8 "\n") []
    let o := hmsMemory outMax found o
    let o := append outMax o (utf8 "--- end HMS ---\n") []
    if outMax ≤ o.pos then (outMax-1,o.writes ++ [(outMax-1,0)]) else (o.pos,o.writes)

def systemFormat : Bytes :=
  utf8 "<|system|>\nYou are %s, an AI agent running on AevOS. " ++
    utf8 "You have skills you can call using [TOOL:skill_name(args)].\n" ++ utf8 "Available skills:\n"

def skillItem (s : Skill) : Option (Bytes × List Arg) :=
  if s.active then some (utf8 "- %s: %s\n",[.str (some s.name),.str (some s.description)]) else none

def roleTag (role : UInt8) : Bytes :=
  if role = 1 then utf8 "<|assistant|>"
  else if role = 2 then utf8 "<|system|>"
  else if role = 3 then utf8 "<|tool|>"
  else utf8 "<|user|>"

def turnItem (a : Agent) (recent : Nat → Bool) (i : Nat) : Option (Bytes × List Arg) :=
  let r := historyGet a.history (ofNat i) 2048
  if r.1 ≤ 0 then none
  else if !recent i then none
  else some (utf8 "%s\n%s\n",[.str (some (roleTag (recentEntry a.history.hist (ofNat i)).role)),
    .str (some (cstr r.2))])

def buildPrompt (a : Agent) (found : Option Recall) (recent : Nat → Bool) (max : Nat) :
    Nat × List (Nat × UInt8) :=
  let o := append max ⟨0,[]⟩ systemFormat [.str (some a.name)]
  let o := appendLoop max 256 skillItem a.skills o
  let o : Out :=
    if o.pos < wordRoom max 512 then
      let r := hmsAppendCompressedBlock a found (wordRoom max o.pos)
      ⟨o.pos+r.1,o.writes ++ shifted o.pos r.2⟩
    else o
  let o := append max o (utf8 "<|end_system|>\n") []
  let o := appendLoop max 512 (turnItem a recent) (List.range (historyCount a.history.hist).toNat) o
  let o := append max o (utf8 "<|assistant|>\n") []
  (o.pos,o.writes)

def textOf {α : Type} (item : α → Option (Bytes × List Arg)) (x : α) : Option Bytes :=
  (item x).map fun f => format f.1 f.2

variable {max k outMax : Nat} {o : Out} {s : Skill} {text : Bytes}

theorem printWhile_stop {slack : Nat} (h : ¬ o.pos < wordRoom max slack) (texts : List Bytes) :
    printWhile max slack texts o = o := by
  cases texts with
  | nil => rfl
  | cons text texts => rw [printWhile,if_neg h]

theorem appendLoop_eq {α : Type} (max slack : Nat) (item : α → Option (Bytes × List Arg)) (xs : List α)
    (o : Out) : appendLoop max slack item xs o = printWhile max slack (xs.filterMap (textOf item)) o := by
  induction xs generalizing o with
  | nil => rfl
  | cons x xs ih =>
    rw [appendLoop]
    by_cases hr : o.pos < wordRoom max slack
    · rw [if_pos hr]
      cases hx : item x with
      | none =>
        rw [filterMap_cons_none (by simp [textOf,hx])]
        exact ih o
      | some f =>
        rw [filterMap_cons_some (b := format f.1 f.2) (by simp [textOf,hx]),printWhile,if_pos hr,
          ← append_eq_print]
        exact ih _
    · rw [if_neg hr,printWhile_stop hr]

section
variable (a : Agent) (found : Option Recall) (recent : Nat → Bool)

def headParts : List Print.Part :=
  [.one (format systemFormat [.str (some a.name)]),.upTo 256 (a.skills.filterMap (textOf skillItem))]

def memoryParts : Option Recall → List Print.Part
  | none => []
  | some r =>
    [.one (format (utf8 "Memory hits (tier=%s): ") [.str (some r.tier.name)]),
      .upTo 128 ((r.hits.getD []).filterMap (textOf (hitItem r)))] ++
    (if r.hits = some [] then [.one (format (utf8 "(empty) ") [])] else []) ++
    [.one (format (utf8 "\n") [])]

def hmsParts : List Print.Part :=
  [.one (format hmsTitle []),.one (format (utf8 "Skill registry: ") []),
    .upTo 96 (a.skills.filterMap (textOf registryItem)),.one (format (utf8 "\n") []),
    .one (format (utf8 "History seq (B+): ") []),
    .upTo 48 ((List.range (min 6 (historyCount a.history.hist).toNat)).filterMap
      (textOf (seqItem a.history.hist))),
    .one (format (utf8 "\n") [])] ++ memoryParts found

def hmsLastLine : Bytes := format (utf8 "--- end HMS ---\n") []

def tailParts : List Print.Part :=
  [.one (format (utf8 "<|end_system|>\n") []),
    .upTo 512 ((List.range (historyCount a.history.hist).toNat).filterMap (textOf (turnItem a recent)))]

def hmsLength (room : Nat) : Nat :=
  min (advance room (place room (hmsParts a found) 0) hmsLastLine.length) (room-1)

def headEnd (max : Nat) : Nat := place max (headParts a) 0

def hmsEnd (max : Nat) : Nat :=
  if headEnd a max < max-512 then headEnd a max+hmsLength a found (max-headEnd a max)
  else headEnd a max

structure Fits (max : Nat) : Prop where
  head : headEnd a max ≤ max
  hms : headEnd a max < max-512 → place (max-headEnd a max) (hmsParts a found) 0 ≤ max-headEnd a max
  tail : place max (tailParts a recent) (hmsEnd a found max) ≤ max

end

theorem historyGet_length_le (w : World) (i : UInt32) (bufSize : Nat) :
    (historyGet w i bufSize).2.length ≤ bufSize-1 := by
  unfold historyGet
  split
  · exact Nat.zero_le _
  split
  · exact Nat.zero_le _
  dsimp only
  split
  · exact Nat.zero_le _
  split
  · have hmod := Nat.mod_le (bufSize-1) (2^32)
    simp only [length_take]
    omega
  · exact (lz4Decompress_length_le _ _).trans (Nat.min_le_left _ _)

theorem cstr_length_le (bs : Bytes) : (cstr bs).length ≤ bs.length := (takeWhile_sublist _).length_le

theorem systemFormat_length (a : Agent) : (format systemFormat [.str (some a.name)]).length < 2^64 := by
  have hn := a.name_lt
  have hs : systemFormat = systemFormat.take 19 ++ 37 :: 115 :: systemFormat.drop 21 := by
    decide +kernel
  have hlen : systemFormat.length = 131 := by decide +kernel
  rw [hs,format_string (by decide +kernel) (by decide +kernel)]
  simp only [length_append,length_take,length_drop,hlen]
  omega

theorem skillItem_length (h : textOf skillItem s = some text) : text.length < 2^64 := by
  unfold textOf skillItem at h
  split at h
  · obtain rfl := Option.some.inj h
    have hn := s.name_lt
    have hd := s.description_lt
    show (utf8 "- " ++ (s.name ++ (utf8 ": " ++ (s.description ++ utf8 "\n")))).length < 2^64
    simp only [length_append,show (utf8 "- ").length = 2 from rfl,show (utf8 ": ").length = 2 from rfl,
      show (utf8 "\n").length = 1 from rfl]
    omega
  · cases h

theorem registryItem_length (h : textOf registryItem s = some text) : text.length < 2^64 := by
  unfold textOf registryItem at h
  split at h
  · obtain rfl := Option.some.inj h
    have hn := s.name_lt
    have hid := emitUint_length (s.id.toNat%2^64) 10 false 32
    show (utf8 "@" ++ (s.name ++ (utf8 "#" ++
      (emitUint (s.id.toNat%2^64) 10 false 0 32 ++ utf8 " ")))).length < 2^64
    simp only [length_append,show (utf8 "@").length = 1 from rfl,show (utf8 "#").length = 1 from rfl,
      show (utf8 " ").length = 1 from rfl]
    omega
  · cases h

theorem seqItem_length {h : History} (ht : textOf (seqItem h) k = some text) : text.length < 2^64 := by
  obtain rfl := Option.some.inj ht
  generalize hseq : (historySeqAt h (historyCount h-1-ofNat k)).toNat = seq
  have hd := emitUint_length (seq%2^64) 10 false 32
  show (utf8 "[H:" ++ (emitUint (seq%2^64) 10 false 0 32 ++ utf8 "] ")).length < 2^64
  simp only [length_append,show (utf8 "[H:").length = 3 from rfl,show (utf8 "] ").length = 2 from rfl]
  omega

theorem hitItem_length {r : Recall} {id : UInt64} (h : textOf (hitItem r) id = some text) :
    text.length < 2^64 := by
  obtain rfl := Option.some.inj h
  have hd := emitUint_length (id.toNat%2^64) 10 false 32
  show (utf8 "[M:" ++ (emitUint (id.toNat%2^64) 10 false 0 32 ++ utf8 "~%.2f] %.80s | ")).length < 2^64
  simp only [length_append,show (utf8 "[M:").length = 3 from rfl,
    show (utf8 "~%.2f] %.80s | ").length = 15 from rfl]
  omega

theorem tier_length (t : MemTier) :
    (format (utf8 "Memory hits (tier=%s): ") [.str (some t.name)]).length < 2^64 := by
  cases t <;> decide +kernel

theorem roleTag_length (role : UInt8) : (roleTag role).length ≤ 13 := by
  unfold roleTag
  split
  · decide +kernel
  split
  · decide +kernel
  split <;> decide +kernel

theorem turnItem_length {a : Agent} {recent : Nat → Bool} {i : Nat}
    (h : textOf (turnItem a recent) i = some text) : text.length < 2^64 := by
  unfold textOf turnItem at h
  dsimp only at h
  split at h
  · cases h
  split at h
  · cases h
  obtain rfl := Option.some.inj h
  have htag := roleTag_length (recentEntry a.history.hist (ofNat i)).role
  have hgot := historyGet_length_le a.history (ofNat i) 2048
  have hcut := cstr_length_le (historyGet a.history (ofNat i) 2048).2
  show (roleTag (recentEntry a.history.hist (ofNat i)).role ++ (utf8 "\n" ++
    (cstr (historyGet a.history (ofNat i) 2048).2 ++ utf8 "\n"))).length < 2^64
  simp only [length_append,show (utf8 "\n").length = 1 from rfl]
  omega

theorem upTo_ok {α : Type} {item : α → Option (Bytes × List Arg)} {slack : Nat}
    (hs : slack ≤ max) (h : ∀ x text, textOf item x = some text → text.length < 2^64)
    (xs : List α) : (Print.Part.upTo slack (xs.filterMap (textOf item))).Ok max := by
  refine ⟨hs,fun text ht => ?_⟩
  obtain ⟨x,-,hx⟩ := mem_filterMap.mp ht
  exact h x text hx

section
variable (a : Agent) (found : Option Recall) (recent : Nat → Bool) {max : Nat}

theorem headParts_ok (h : 512 ≤ max) : ∀ part ∈ headParts a, part.Ok max := by
  have hs : (Print.Part.upTo 256 (a.skills.filterMap (textOf skillItem))).Ok max :=
    upTo_ok (by omega) (fun _ _ => skillItem_length) _
  have hsy : (Print.Part.one (format systemFormat [.str (some a.name)])).Ok max :=
    systemFormat_length a
  simp only [headParts,forall_mem_cons,not_mem_nil,false_imp_iff,implies_true,and_true]
  exact ⟨hsy,hs⟩

theorem line_ok (max : Nat) (h : text.length < 2^64) : (Print.Part.one text).Ok max := h

theorem memoryParts_ok (h : 512 ≤ max) : ∀ part ∈ memoryParts found, part.Ok max := by
  cases found with
  | none => simp [memoryParts]
  | some r =>
    have hh : (Print.Part.upTo 128 ((r.hits.getD []).filterMap (textOf (hitItem r)))).Ok max :=
      upTo_ok (by omega) (fun _ _ => hitItem_length) _
    simp only [memoryParts,forall_mem_append,forall_mem_cons,not_mem_nil,false_imp_iff,
      implies_true,and_true]
    refine ⟨⟨⟨line_ok max (tier_length r.tier),hh⟩,?_⟩,line_ok max (by decide +kernel)⟩
    split
    · simpa using line_ok max (by decide +kernel)
    · simp

theorem hmsParts_ok (h : 512 ≤ max) : ∀ part ∈ hmsParts a found, part.Ok max := by
  have hr : (Print.Part.upTo 96 (a.skills.filterMap (textOf registryItem))).Ok max :=
    upTo_ok (by omega) (fun _ _ => registryItem_length) _
  have hs : (Print.Part.upTo 48 ((List.range (min 6 (historyCount a.history.hist).toNat)).filterMap
      (textOf (seqItem a.history.hist)))).Ok max := upTo_ok (by omega) (fun _ _ => seqItem_length) _
  simp only [hmsParts,forall_mem_append,forall_mem_cons,not_mem_nil,false_imp_iff,
    implies_true,and_true]
  exact ⟨⟨line_ok max (by decide +kernel),line_ok max (by decide +kernel),hr,
    line_ok max (by decide +kernel),line_ok max (by decide +kernel),hs,line_ok max (by decide +kernel)⟩,
    memoryParts_ok found h⟩

theorem tailParts_ok (h : 512 ≤ max) : ∀ part ∈ tailParts a recent, part.Ok max := by
  have ht : (Print.Part.upTo 512 ((List.range (historyCount a.history.hist).toNat).filterMap
      (textOf (turnItem a recent)))).Ok max := upTo_ok h (fun _ _ => turnItem_length) _
  simp only [tailParts,forall_mem_cons,not_mem_nil,false_imp_iff,implies_true,and_true]
  exact ⟨line_ok max (by decide +kernel),ht⟩

theorem hmsMemory_eq_run (outMax : Nat) (o : Out) :
    hmsMemory outMax found o = Print.run outMax (memoryParts found) o := by
  cases found with
  | none => rfl
  | some r =>
    simp only [hmsMemory,memoryParts,append_eq_print,appendLoop_eq]
    split
    · rfl
    · rfl

def hmsBody (outMax : Nat) : Out := Print.run outMax (hmsParts a found) ⟨0,[]⟩

theorem hmsAppendCompressedBlock_eq (h : 0 < outMax) : hmsAppendCompressedBlock a found outMax =
      let o := print outMax (hmsBody a found outMax) hmsLastLine
      if outMax ≤ o.pos then (outMax-1,o.writes ++ [(outMax-1,0)]) else (o.pos,o.writes) := by
  rw [hmsBody,hmsParts,run_append,hmsAppendCompressedBlock,if_neg (by omega)]
  simp only [append_eq_print,appendLoop_eq,hmsMemory_eq_run]
  rfl

variable {a found recent}

theorem hms_inside (hmin : 512 ≤ outMax) (hmax : outMax < 2^64)
    (h : place outMax (hmsParts a found) 0 ≤ outMax) :
    (hmsAppendCompressedBlock a found outMax).1 = hmsLength a found outMax ∧
      ∀ w ∈ (hmsAppendCompressedBlock a found outMax).2, w.1 < outMax := by
  have hp := (start_placed outMax).run hmax (hmsParts_ok a found hmin)
  obtain ⟨hpos,hin⟩ := hp.inside h
  have hend := print_pos hmax (hpos.trans_le h) hmsLastLine
  have hl := hin.print hmax (hpos.trans_le h) hmsLastLine
  rw [hpos] at hend
  rw [hmsAppendCompressedBlock_eq a found (by omega),hmsLength,← hend]
  dsimp only [hmsBody]
  split
  · refine ⟨by omega,fun w hw => ?_⟩
    rcases mem_append.mp hw with hw | hw
    · exact hl w hw
    · obtain rfl := mem_singleton.mp hw
      omega
  · exact ⟨by omega,hl⟩

theorem hms_outside (hmin : 512 ≤ outMax) (hmax : outMax < 2^64)
    (h : outMax < place outMax (hmsParts a found) 0) :
    ¬ ∀ w ∈ (hmsAppendCompressedBlock a found outMax).2, w.1 < outMax := by
  have hp := (start_placed outMax).run hmax (hmsParts_ok a found hmin)
  intro hall
  refine (hp.beyond h).print hmax hmsLastLine fun w hw => hall w ?_
  rw [hmsAppendCompressedBlock_eq a found (by omega)]
  dsimp only [hmsBody]
  split
  · exact mem_append_left _ hw
  · exact hw

def withHms (a : Agent) (found : Option Recall) (max : Nat) (o : Out) : Out :=
  if o.pos < wordRoom max 512 then
    let r := hmsAppendCompressedBlock a found (wordRoom max o.pos)
    ⟨o.pos+r.1,o.writes ++ shifted o.pos r.2⟩
  else o

theorem buildPrompt_writes (a : Agent) (found : Option Recall) (recent : Nat → Bool) (max : Nat) :
    (buildPrompt a found recent max).2 =
      (print max (Print.run max (tailParts a recent) (withHms a found max
        (Print.run max (headParts a) ⟨0,[]⟩))) (format (utf8 "<|assistant|>\n") [])).writes := by
  simp only [buildPrompt,append_eq_print,appendLoop_eq]
  rfl

theorem withHms_over (hmin : 1024 ≤ max) (hmax : max < 2^64) (h : Over max o) :
    Over max (withHms a found max o) := by
  unfold withHms
  split
  · rename_i hr
    rw [wordRoom_of_le hmax (by omega)] at hr
    -- the position is not behind the end, so something outside has been written before
    refine .inr fun hin => ?_
    rcases h with ⟨hpos,-⟩ | hout
    · omega
    · exact hout fun w hw => hin w (mem_append_left _ hw)
  · exact h

theorem shifted_inside_iff {ws : List (Nat × UInt8)} {len : Nat} (hpos : o.pos ≤ max) (hin : Inside max o) :
    Inside max ⟨len,o.writes ++ shifted o.pos ws⟩ ↔ ∀ w ∈ ws, w.1 < max-o.pos := by
  constructor
  · intro hall w hw
    have hlt : o.pos+w.1 < max :=
      hall (o.pos+w.1,w.2) (mem_append_right _ (mem_map.mpr ⟨w,hw,rfl⟩))
    omega
  intro hall w hw
  rcases mem_append.mp hw with hw | hw
  · exact hin w hw
  obtain ⟨x,hx,rfl⟩ := mem_map.mp hw
  have hlt := hall x hx
  omega

theorem withHms_placed {o : Out} (hmin : 1024 ≤ max) (hmax : max < 2^64)
    (h : Placed max (headEnd a max) o) (hh : headEnd a max ≤ max) (hhms : headEnd a max < max-512 →
      place (max-headEnd a max) (hmsParts a found) 0 ≤ max-headEnd a max) :
    Placed max (hmsEnd a found max) (withHms a found max o) := by
  obtain ⟨hpos,hin⟩ := h.inside hh
  unfold withHms hmsEnd
  rw [wordRoom_of_le hmax (by omega),hpos]
  split
  · rename_i hr
    obtain ⟨hlen,hall⟩ := hms_inside (by omega) (by omega) (hhms hr)
    rw [wordRoom_of_le hmax hh]
    have hle : hmsLength a found (max-headEnd a max) ≤ max-headEnd a max-1 := min_le_right _ _
    refine ⟨fun _ => ⟨by rw [← hlen],?_⟩,fun ho => by omega⟩
    rw [← hpos] at hall ⊢
    exact (shifted_inside_iff (by omega) hin).mpr hall
  · exact h

theorem withHms_outside (hmin : 1024 ≤ max) (hmax : max < 2^64) (h : Placed max (headEnd a max) o)
    (hr : headEnd a max < max-512)
    (hhms : max-headEnd a max < place (max-headEnd a max) (hmsParts a found) 0) :
    Over max (withHms a found max o) := by
  obtain ⟨hpos,hin⟩ := h.inside (by omega)
  have hout := hms_outside (by omega) (by omega) hhms
  unfold withHms
  rw [wordRoom_of_le hmax (by omega),wordRoom_of_le hmax (by omega),if_pos (by omega),hpos]
  refine .inr fun hall => hout ?_
  rw [← hpos] at hall ⊢
  exact (shifted_inside_iff (by omega) hin).mp hall

theorem not_over_of_inside (hmax : max < 2^64) (hall : ∀ w ∈ (buildPrompt a found recent max).2, w.1 < max) :
    ¬ Over max (withHms a found max (Print.run max (headParts a) ⟨0,[]⟩)) := by
  rw [buildPrompt_writes] at hall
  exact fun ho => (ho.run hmax _).print hmax _ hall

theorem headEnd_le_of_inside (hmin : 1024 ≤ max) (hmax : max < 2^64)
    (hall : ∀ w ∈ (buildPrompt a found recent max).2, w.1 < max) : headEnd a max ≤ max := by
  have hh := (start_placed max).run hmax (headParts_ok a (by omega))
  exact Nat.le_of_not_lt fun ho =>
    not_over_of_inside hmax hall (withHms_over hmin hmax (hh.beyond ho))

theorem buildPrompt_inside_iff (hmin : 1024 ≤ max) (hmax : max < 2^64) :
    (∀ w ∈ (buildPrompt a found recent max).2, w.1 < max) ↔ Fits a found recent max := by
  have hhead := (start_placed max).run hmax (headParts_ok a (by omega))
  have htail : ∀ part ∈ tailParts a recent, part.Ok max := tailParts_ok a recent (by omega)
  constructor
  · intro hall
    have hnot := not_over_of_inside hmax hall
    have hfits := headEnd_le_of_inside hmin hmax hall
    have hhms : headEnd a max < max-512 →
        place (max-headEnd a max) (hmsParts a found) 0 ≤ max-headEnd a max :=
      fun hroom => Nat.le_of_not_lt fun hover => hnot (withHms_outside hmin hmax hhead hroom hover)
    have hplaced := (withHms_placed hmin hmax hhead hfits hhms).run hmax htail
    rw [buildPrompt_writes] at hall
    exact ⟨hfits,hhms,(inside_print_iff hplaced hmax _).mp hall⟩
  rintro ⟨hfits,hhms,hend⟩
  have hplaced := (withHms_placed hmin hmax hhead hfits hhms).run hmax htail
  rw [buildPrompt_writes]
  exact (inside_print_iff hplaced hmax _).mpr hend

end

theorem replicate_length_lt {n : Nat} (h : n < k) : (replicate n (97 : UInt8)).length < k := by
  rwa [length_replicate]

def skillOf (n d : Nat) (hn : n < 64) (hd : d < 256) : Skill :=
  ⟨1,List.replicate n 97,List.replicate d 97,true,replicate_length_lt hn,replicate_length_lt hd⟩

theorem noName_lt : ([] : Bytes).length < 64 := by decide

def agentOf (skills : List Skill) : Agent :=
  ⟨[],skills,⟨⟨fun _ => false,fun _ => 0,fun _ _ => 0⟩,historyInit 0⟩,noName_lt⟩

theorem longest_name : 63 < 64 := by decide
theorem longest_description : 255 < 256 := by decide
theorem some_description : 230 < 256 := by decide

def twoSkills : Agent :=
  agentOf [skillOf 63 255 longest_name longest_description,skillOf 63 230 longest_name some_description]

theorem buildPrompt_inside_twoSkills : 0 < (buildPrompt twoSkills none (fun _ => true) 1024).1 ∧
    ∀ w ∈ (buildPrompt twoSkills none (fun _ => true) 1024).2, w.1 < 1024 := by
  refine ⟨by decide +kernel,(buildPrompt_inside_iff (by decide) (by decide)).mpr ⟨?_,fun _ => ?_,?_⟩⟩
  · decide +kernel
  · decide +kernel
  · decide +kernel

theorem threeSkills_outside :
    ¬ ∀ w ∈ (buildPrompt (agentOf [skillOf 63 255 longest_name longest_description,
      skillOf 63 230 longest_name some_description,skillOf 63 255 longest_name longest_description])
      none (fun _ => true) 1024).2, w.1 < 1024 := by
  intro hall
  exact absurd (headEnd_le_of_inside (by decide) (by decide) hall) (by decide +kernel)

end AevOS.Prompt
