import AevOS.Common

/-! `parse_string_raw` of `lib/json.c`. A cursor is the bytes from it up to and with the NUL, so a read at
the empty list is one past it. -/

namespace AevOS.Json
open List

abbrev quote : UInt8 := 34
abbrev backslash : UInt8 := 92
abbrev letterU : UInt8 := 117

/-- The first pass: the length counted and where it stops; `none` is a read past the NUL. -/
def scan : List UInt8 → Nat → Option (Nat × List UInt8)
  | [], _ => none
  | c :: p, len =>
    if c = 0 ∨ c = quote then some (len,c :: p)
    else if c = backslash then
      p.head?.bind fun e =>
        if e = letterU then scan (p.drop 4) (len+1) else scan (p.drop 1) (len+1)
    else scan p (len+1)
termination_by p => p.length

def unescape (e : UInt8) : UInt8 :=
  if e = 98 then 8
  else if e = 102 then 12
  else if e = 110 then 10
  else if e = 114 then 13
  else if e = 116 then 9
  else e

/-- The second pass: the bytes written and the cursor behind the closing quote. -/
def copy : List UInt8 → Option (List UInt8 × List UInt8)
  | [] => none
  | c :: p =>
    if c = quote then some ([],p)
    else if c = backslash then
      p.head?.bind fun e =>
        if e = letterU then (copy (p.drop 4)).map (fun r => (63 :: r.1,r.2))
        else (copy (p.drop 1)).map (fun r => (unescape e :: r.1,r.2))
    else (copy p).map (fun r => (c :: r.1,r.2))
termination_by p => p.length

/-- The string, with the `len + 1` bytes allocated for it, or `NULL`; and the cursor. -/
def parseStringRaw (granted : Bool) (p : List UInt8) :
    Option (Option (List UInt8 × Nat) × List UInt8) :=
  match p with
  | [] => none
  | c :: start =>
    if c ≠ quote then some (none,p)
    else (scan start 0).bind fun r =>
      if r.2.head? ≠ some quote ∨ granted = false then some (none,p)
      else (copy start).map fun o => (some (o.1,r.1+1),o.2)

inductive Piece where
  | plain (c : UInt8)
  | escape (letter char : UInt8)
  | unicode (d1 d2 d3 d4 : UInt8)

def isHex (d : UInt8) : Prop := 48 ≤ d ∧ d ≤ 57 ∨ 65 ≤ d ∧ d ≤ 70 ∨ 97 ≤ d ∧ d ≤ 102

def Piece.Valid : Piece → Prop
  | plain c => 32 ≤ c ∧ c ≠ quote ∧ c ≠ backslash
  | escape l c => (l,c) ∈ [(quote,quote),(backslash,backslash),(47,47),(98,8),(102,12),(110,10),
      (114,13),(116,9)]
  | unicode a b c d => isHex a ∧ isHex b ∧ isHex c ∧ isHex d

def Piece.wire : Piece → List UInt8
  | plain c => [c]
  | escape l _ => [backslash,l]
  | unicode a b c d => [backslash,letterU,a,b,c,d]

def Piece.char : Piece → UInt8
  | plain c | escape _ c => c
  | unicode _ _ _ _ => 63

/-- A JSON string literal. -/
def literal (ps : List Piece) : List UInt8 := quote :: ps.flatMap Piece.wire ++ [quote]

/-- What the second pass writes for a piece: the last digit of a unicode escape is left over. -/
def Piece.written : Piece → List UInt8
  | plain c | escape _ c => [c]
  | unicode _ _ _ d => [63,d]

def Piece.isUnicode : Piece → Bool
  | unicode _ _ _ _ => true
  | _ => false

/-- Up to the closing quote no escape reaches over the end of the text, as the passes step: two
characters for an escape, five for a unicode escape. -/
def Contained : List UInt8 → Prop
  | [] => True
  | c :: p =>
    if c = quote then True
    else if c = backslash then
      match p with
      | [] => False
      | e :: q =>
        if e = letterU then 3 ≤ q.length ∧ Contained (q.drop 3) else Contained q
    else Contained p
termination_by p => p.length

variable {p q text : List UInt8} {len n : Nat} {c e : UInt8}

theorem scan_quote : scan (quote :: p) len = some (len,quote :: p) := by simp [scan]
theorem copy_quote : copy (quote :: p) = some ([],p) := by simp [copy]

theorem scan_escape (h : e ≠ letterU) : scan (backslash :: e :: q) len = scan q (len+1) := by
  simp [scan,h,backslash,quote]

theorem copy_escape (h : e ≠ letterU) :
    copy (backslash :: e :: q) = (copy q).map (fun r => (unescape e :: r.1,r.2)) := by
  simp [copy,h,backslash,quote]

theorem scan_plain (h0 : c ≠ 0) (hq : c ≠ quote) (hb : c ≠ backslash) :
    scan (c :: p) len = scan p (len+1) := by
  simp [scan,h0,hq,hb]

theorem copy_plain (hq : c ≠ quote) (hb : c ≠ backslash) :
    copy (c :: p) = (copy p).map (fun r => (c :: r.1,r.2)) := by
  simp [copy,hq,hb]

theorem scan_unicode : scan (backslash :: letterU :: q) len = scan (q.drop 3) (len+1) := by
  simp [scan,backslash,quote]

theorem copy_unicode :
    copy (backslash :: letterU :: q) = (copy (q.drop 3)).map (fun r => (63 :: r.1,r.2)) := by
  simp [copy,backslash,quote]

theorem scan_isSome_iff (h0 : 0 ∉ text) (len : Nat) : (scan (text ++ [0]) len).isSome ↔ Contained text := by
  fun_induction Contained text generalizing len with
  | case1 => simp [scan]
  | case2 => simp [scan_quote]
  | case3 => simp [scan,backslash,quote]
  | case4 q _ ih =>
    simp only [mem_cons,not_or] at h0
    rw [cons_append,cons_append,scan_unicode]
    by_cases hq : 3 ≤ q.length
    · rw [drop_append_of_le_length hq,ih fun hm => h0.2.2 (mem_of_mem_drop hm)]
      simp [hq]
    · simp [hq,drop_eq_nil_of_le (show (q ++ [0]).length ≤ 3 by simp; omega),scan]
  | case5 e q he _ ih =>
    simp only [mem_cons,not_or] at h0
    rw [cons_append,cons_append,scan_escape he]
    exact ih h0.2.2 _
  | case6 c p hq hb ih =>
    simp only [mem_cons,not_or] at h0
    rw [cons_append,scan_plain (Ne.symm h0.1) hq hb]
    exact ih h0.2 _

/-- Both passes advance alike, so the second writes what the first has counted. -/
theorem copy_of_scan (h : scan p len = some (n,quote :: q)) :
    ∃ out, copy p = some (out,q) ∧ len+out.length = n := by
  fun_induction scan p len with
  | case1 => cases h
  | case2 c p len hc =>
    obtain ⟨rfl,rfl,rfl⟩ := h
    exact ⟨[],copy_quote,rfl⟩
  | case3 p len hc ih2 ih1 =>
    cases p with
    | nil => cases h
    | cons e q' =>
      by_cases he : e = letterU
      · subst he
        obtain ⟨out,ho,hl⟩ := ih2 (by simpa using h)
        refine ⟨63 :: out,?_,by simp; omega⟩
        simp at ho
        simp [copy,ho,backslash,quote]
      · obtain ⟨out,ho,hl⟩ := ih1 (by simpa [he] using h)
        refine ⟨unescape e :: out,?_,by simp; omega⟩
        simp at ho
        simp [copy_escape he,ho]
  | case4 c p len hc hb ih =>
    obtain ⟨out,ho,hl⟩ := ih h
    exact ⟨c :: out,by simp [copy_plain (not_or.mp hc).2 hb,ho],by simp; omega⟩

theorem isHex_plain {d : UInt8} (h : isHex d) : d ≠ 0 ∧ d ≠ quote ∧ d ≠ backslash := by
  unfold isHex at h
  refine ⟨?_,?_,?_⟩ <;> rintro rfl <;> revert h <;> decide

theorem Piece.Valid.parsed {x : Piece} (hv : x.Valid) (p : List UInt8) (len : Nat) :
    scan (x.wire ++ p) len = scan p (len+x.written.length) ∧
      copy (x.wire ++ p) = (copy p).map (fun r => (x.written ++ r.1,r.2)) := by
  cases x with
  | plain c =>
    obtain ⟨h0,hq,hb⟩ := hv
    refine ⟨scan_plain (fun hc => ?_) hq hb,copy_plain hq hb⟩
    rw [hc] at h0
    exact absurd h0 (by decide)
  | escape l c =>
    have hl : l ≠ letterU ∧ unescape l = c := by
      simp only [Piece.Valid,mem_cons,Prod.mk.injEq,not_mem_nil,or_false] at hv
      rcases hv with ⟨rfl,rfl⟩ | ⟨rfl,rfl⟩ | ⟨rfl,rfl⟩ | ⟨rfl,rfl⟩ | ⟨rfl,rfl⟩ | ⟨rfl,rfl⟩ |
        ⟨rfl,rfl⟩ | ⟨rfl,rfl⟩ <;> decide
    refine ⟨scan_escape hl.1,?_⟩
    rw [wire,cons_append,cons_append,copy_escape hl.1,hl.2]
    rfl
  | unicode a b c d =>
    -- the passes step over three digits, and the fourth is a character of its own
    obtain ⟨h0,hq,hb⟩ := isHex_plain hv.2.2.2
    constructor
    · exact scan_unicode.trans (scan_plain h0 hq hb)
    · rw [wire,cons_append,cons_append,copy_unicode]
      simp [copy_plain hq hb,written,Function.comp_def]

theorem parsed_pieces {ps : List Piece} (hv : ∀ x ∈ ps, x.Valid) (p : List UInt8) (len : Nat) :
    (∃ n, scan (ps.flatMap Piece.wire ++ quote :: p) len = some (n,quote :: p)) ∧
      copy (ps.flatMap Piece.wire ++ quote :: p) = some (ps.flatMap Piece.written,p) := by
  induction ps generalizing len with
  | nil => exact ⟨⟨len,scan_quote⟩,copy_quote⟩
  | cons x ps ih =>
    simp only [flatMap_cons,append_assoc,forall_mem_cons] at hv ⊢
    obtain ⟨h1,h2⟩ := hv.1.parsed (ps.flatMap Piece.wire ++ quote :: p) len
    obtain ⟨h3,h4⟩ := ih hv.2 (len+x.written.length)
    rw [h1,h2,h4]
    exact ⟨h3,rfl⟩

theorem length_written (ps : List Piece) :
    (ps.flatMap Piece.written).length = ps.length+ps.countP Piece.isUnicode := by
  induction ps with
  | nil => rfl
  | cons x ps ih =>
    rw [flatMap_cons,length_append,ih,countP_cons]
    cases x <;> simp [Piece.written,Piece.isUnicode] <;> omega

theorem written_eq_chars (ps : List Piece) : ps.flatMap Piece.written = ps.map Piece.char ↔
    ∀ x ∈ ps, x.isUnicode = false := by
  constructor
  · intro h
    have hl := congrArg length h
    rw [length_written,length_map,Nat.add_eq_left] at hl
    simpa using countP_eq_zero.mp hl
  · intro h
    induction ps with
    | nil => rfl
    | cons x ps ih =>
      obtain ⟨hx,hps⟩ := forall_mem_cons.mp h
      rw [flatMap_cons,map_cons,ih hps]
      cases x <;> first | rfl | cases hx

theorem parseStringRaw_isSome_iff (granted : Bool) (h0 : 0 ∉ text) :
    (∃ r, parseStringRaw granted (text ++ [0]) = some r ∧ ∀ s ∈ r.1, s.1.length+1 ≤ s.2) ↔
      (text.head? = some quote → Contained text.tail) := by
  cases text with
  | nil => simp [parseStringRaw,quote]
  | cons c text =>
    by_cases hc : c = quote
    swap
    · simp [parseStringRaw,hc]
    have hs := scan_isSome_iff (fun hm => h0 (mem_cons_of_mem c hm)) 0
    subst hc
    simp only [head?_cons,tail_cons,forall_const,← hs]
    cases hr : scan (text ++ [0]) 0 with
    | none => simp [parseStringRaw,hr]
    | some r =>
      obtain ⟨n,q⟩ := r
      by_cases hq : q.head? ≠ some quote ∨ granted = false
      · simp [parseStringRaw,hr,hq]
      · simp only [not_or,ne_eq,not_not] at hq
        obtain ⟨q,rfl⟩ := head?_eq_some_iff.mp hq.1
        obtain ⟨out,ho,hl⟩ := copy_of_scan hr
        simp [parseStringRaw,hr,hq.2,ho]
        omega

/-- The parser is right exactly for the texts whose escapes stay inside and whose literal, if there is
one, has no unicode escape. -/
theorem parseStringRaw_exact_iff (text : CStr) :
    ((∀ granted, ∃ r, parseStringRaw granted (text.bytes ++ [0]) = some r ∧ ∀ s ∈ r.1, s.1.length+1 ≤ s.2) ∧
      ∀ ps rest, (∀ x ∈ ps, x.Valid) → text.bytes = literal ps ++ rest →
        ∃ n, parseStringRaw true (text.bytes ++ [0]) = some (some (ps.map Piece.char,n),rest ++ [0])) ↔
      (text.bytes.head? = some quote → Contained text.bytes.tail) ∧
        ∀ ps rest, (∀ x ∈ ps, x.Valid) → text.bytes = literal ps ++ rest → ∀ x ∈ ps, x.isUnicode = false := by
  refine and_congr ⟨fun h => (parseStringRaw_isSome_iff true text.noNul).mp (h true),
    fun h granted => (parseStringRaw_isSome_iff granted text.noNul).mpr h⟩ ?_
  refine forall₄_congr fun ps rest hv ht => ?_
  obtain ⟨⟨n,h1⟩,h2⟩ := parsed_pieces hv (rest ++ [0]) 0
  rw [← written_eq_chars,ht]
  simp [parseStringRaw,literal,h1,h2]

/-- `"\` and the NUL is read past; `"\u0041"` gives `?1`. -/
theorem parseStringRaw_astray : parseStringRaw true ([quote,backslash] ++ [0]) = none ∧
    (Piece.unicode 48 48 52 49).Valid ∧
    parseStringRaw true (literal [.unicode 48 48 52 49] ++ [0]) = some (some ([63,49],3),[0]) := by
  simp [parseStringRaw,scan,copy,literal,Piece.wire,Piece.Valid,isHex,quote,backslash,letterU]

end AevOS.Json
