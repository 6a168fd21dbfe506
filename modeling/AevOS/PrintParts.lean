import AevOS.ByteWire

/-! Text printed piece after piece, moving on by the untruncated length. What is left of the buffer is a
word: behind its end it is huge. -/

namespace AevOS.Print
open Wire List

def wordRoom (max pos : Nat) : Nat := (max+2^64-pos%2^64)%2^64
def printed (size : Nat) (text : Bytes) : Nat := if size = 0 then 0 else text.length

def printWrites (size : Nat) (text : Bytes) : List (Nat × UInt8) :=
  if size = 0 then []
  else (text.take (size-1)).zipIdx.map Prod.swap ++ [(min text.length (size-1),0)]

structure Out where
  pos : Nat
  writes : List (Nat × UInt8)

def shifted (pos : Nat) (ws : List (Nat × UInt8)) : List (Nat × UInt8) := ws.map fun w => (pos+w.1,w.2)

def print (max : Nat) (o : Out) (text : Bytes) : Out :=
  ⟨o.pos+printed (wordRoom max o.pos) text,
    o.writes ++ shifted o.pos (printWrites (wordRoom max o.pos) text)⟩

inductive Part where
  | one (text : Bytes)
  | upTo (slack : Nat) (texts : List Bytes)

def printWhile (max slack : Nat) : List Bytes → Out → Out
  | [], o => o
  | text :: texts, o =>
    if o.pos < wordRoom max slack then printWhile max slack texts (print max o text) else o

def runPart (max : Nat) : Part → Out → Out
  | .one text, o => print max o text
  | .upTo slack texts, o => printWhile max slack texts o

def run (max : Nat) (parts : List Part) (o : Out) : Out := parts.foldl (fun o part => runPart max part o) o

theorem run_cons (max : Nat) (part : Part) (parts : List Part) (o : Out) :
    run max (part :: parts) o = run max parts (runPart max part o) := rfl

theorem run_append (max : Nat) (parts parts' : List Part) (o : Out) :
    run max (parts ++ parts') o = run max parts' (run max parts o) := List.foldl_append

def advance (max pos len : Nat) : Nat := if pos < max then pos+len else pos

def placeWhile (max slack : Nat) : List Bytes → Nat → Nat
  | [], pos => pos
  | text :: texts, pos =>
    if pos < wordRoom max slack then placeWhile max slack texts (advance max pos text.length) else pos

def placePart (max : Nat) : Part → Nat → Nat
  | .one text, pos => advance max pos text.length
  | .upTo slack texts, pos => placeWhile max slack texts pos

def place (max : Nat) (parts : List Part) (pos : Nat) : Nat :=
  parts.foldl (fun pos part => placePart max part pos) pos

theorem place_cons (max : Nat) (part : Part) (parts : List Part) (pos : Nat) :
    place max (part :: parts) pos = place max parts (placePart max part pos) := rfl

def Inside (max : Nat) (o : Out) : Prop := ∀ w ∈ o.writes, w.1 < max
def Over (max : Nat) (o : Out) : Prop := (max < o.pos ∧ o.pos < max+2^64) ∨ ¬ Inside max o

variable {pos size slack : Nat} {text : Bytes}

theorem wordRoom_of_le {max : Nat} (hmax : max < 2^64) (h : pos ≤ max) : wordRoom max pos = max-pos := by
  unfold wordRoom
  omega

theorem printWrites_lt : ∀ w ∈ printWrites size text, w.1 < size := by
  intro w hw
  unfold printWrites at hw
  split at hw
  · simp at hw
  rcases mem_append.mp hw with hw | hw
  · obtain ⟨x,hx,rfl⟩ := mem_map.mp hw
    have hlt := snd_lt_of_mem_zipIdx hx
    simp only [length_take] at hlt
    simp only [Prod.fst_swap]
    omega
  · obtain rfl := mem_singleton.mp hw
    omega

section
variable {max : Nat} {o : Out}

theorem print_pos (hmax : max < 2^64) (h : o.pos ≤ max) (text : Bytes) :
    (print max o text).pos = advance max o.pos text.length := by
  show o.pos+printed (wordRoom max o.pos) text = _
  rw [wordRoom_of_le hmax h]
  unfold printed advance
  split <;> split <;> omega

theorem Inside.print (hin : Inside max o) (hmax : max < 2^64) (h : o.pos ≤ max) (text : Bytes) :
    Inside max (print max o text) := by
  intro w hw
  rcases mem_append.mp hw with hw | hw
  · exact hin w hw
  obtain ⟨x,hx,rfl⟩ := mem_map.mp hw
  have hlt := printWrites_lt x hx
  rw [wordRoom_of_le hmax h] at hlt
  omega

theorem not_inside_print (h : ¬ Inside max o) (text : Bytes) : ¬ Inside max (print max o text) :=
  fun hin => h fun w hw => hin w (mem_append_left _ hw)

theorem nul_mem_printWrites (h : size ≠ 0) (text : Bytes) :
    (min text.length (size-1),0) ∈ printWrites size text := by
  rw [printWrites,if_neg h]
  exact mem_append_right _ (mem_singleton.mpr rfl)

theorem Over.print (h : Over max o) (hmax : max < 2^64) (text : Bytes) : ¬ Inside max (print max o text) := by
  rcases h with ⟨hpos,hlt⟩ | hout
  · intro hin
    have hr : wordRoom max o.pos ≠ 0 := by
      unfold wordRoom
      omega
    have hmem := mem_map_of_mem (f := fun w : Nat × UInt8 => (o.pos+w.1,w.2))
      (nul_mem_printWrites hr text)
    have hnul := hin _ (mem_append_right _ hmem)
    omega
  · exact not_inside_print hout text

theorem Over.printWhile (h : Over max o) (hmax : max < 2^64) (slack : Nat) (texts : List Bytes) :
    Over max (printWhile max slack texts o) := by
  induction texts generalizing o with
  | nil => exact h
  | cons text texts ih =>
    rw [Print.printWhile]
    split
    · exact ih (.inr (h.print hmax text))
    · exact h

theorem Over.run (h : Over max o) (hmax : max < 2^64) (parts : List Part) : Over max (run max parts o) := by
  induction parts generalizing o with
  | nil => exact h
  | cons part parts ih =>
    rw [run_cons]
    cases part with
    | one text => exact ih (.inr (h.print hmax text))
    | upTo slack texts => exact ih (h.printWhile hmax slack texts)

structure Placed (max pos : Nat) (o : Out) : Prop where
  inside : pos ≤ max → o.pos = pos ∧ Inside max o
  beyond : max < pos → Over max o

theorem start_placed (max : Nat) : Placed max 0 ⟨0,[]⟩ :=
  ⟨fun _ => ⟨rfl,fun _ hw => absurd hw not_mem_nil⟩,fun h => absurd h (Nat.not_lt_zero max)⟩

theorem Placed.print (h : Placed max pos o) (hmax : max < 2^64) (ht : text.length < 2^64) :
    Placed max (advance max pos text.length) (print max o text) := by
  by_cases hpos : pos ≤ max
  · obtain ⟨rfl,hin⟩ := h.inside hpos
    have hn := print_pos hmax hpos text
    refine ⟨fun _ => ⟨hn,hin.print hmax hpos text⟩,fun ho => .inl ?_⟩
    rw [hn]
    refine ⟨ho,?_⟩
    unfold advance
    split <;> omega
  · have hs : advance max pos text.length = pos := if_neg (by omega)
    rw [hs]
    exact ⟨fun hle => absurd hle hpos,fun ho => .inr ((h.beyond ho).print hmax text)⟩

theorem placeWhile_of_lt (hmax : max < 2^64) (hs : slack ≤ max) (h : max < pos)
    (texts : List Bytes) : placeWhile max slack texts pos = pos := by
  cases texts with
  | nil => rfl
  | cons text texts =>
    rw [placeWhile,wordRoom_of_le hmax hs,if_neg (by omega)]

theorem Placed.printWhile (h : Placed max pos o) (hmax : max < 2^64) (hs : slack ≤ max)
    {texts : List Bytes} (ht : ∀ text ∈ texts, text.length < 2^64) :
    Placed max (placeWhile max slack texts pos) (printWhile max slack texts o) := by
  induction texts generalizing pos o with
  | nil => exact h
  | cons text texts ih =>
    by_cases hpos : pos ≤ max
    · obtain ⟨htx,hr⟩ := forall_mem_cons.mp ht
      rw [Print.printWhile,placeWhile,(h.inside hpos).1]
      split
      · exact ih (h.print hmax htx) hr
      · exact h
    · -- over: neither the position nor the writes come back
      have hpos : max < pos := by omega
      rw [placeWhile_of_lt hmax hs hpos]
      exact ⟨fun hle => absurd hpos (by omega),
        fun ho => (h.beyond ho).printWhile hmax slack (text :: texts)⟩

def Part.Ok (max : Nat) : Part → Prop
  | .one text => text.length < 2^64
  | .upTo slack texts => slack ≤ max ∧ ∀ text ∈ texts, text.length < 2^64

theorem Placed.run (h : Placed max pos o) (hmax : max < 2^64) {parts : List Part}
    (hpr : ∀ part ∈ parts, part.Ok max) : Placed max (place max parts pos) (run max parts o) := by
  induction parts generalizing pos o with
  | nil => exact h
  | cons part parts ih =>
    obtain ⟨hp,hr⟩ := forall_mem_cons.mp hpr
    rw [run_cons,place_cons]
    cases part with
    | one text => exact ih (h.print hmax hp) hr
    | upTo slack texts => exact ih (h.printWhile hmax hp.1 hp.2) hr

theorem inside_print_iff (h : Placed max pos o) (hmax : max < 2^64) (text : Bytes) :
    Inside max (print max o text) ↔ pos ≤ max := by
  constructor
  · intro hin
    by_contra ho
    exact (h.beyond (by omega)).print hmax text hin
  · intro hle
    obtain ⟨hpos,hin⟩ := h.inside hle
    exact hin.print hmax (by omega) text

end

end AevOS.Print
