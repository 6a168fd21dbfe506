import AevOS.PrintParts

/-! `snprintf` of `lib/string.c`: the text of a format and where its characters go. -/

namespace AevOS.Str
open Wire Print List

def utf8 (s : String) : Bytes := s.toUTF8.data.toList

inductive Arg where
  | num (v : Nat)
  | int (v : Int)
  | str (s : Option Bytes)

def Arg.unsigned (longness : Nat) : Arg → Nat
  | .num v => if longness = 0 then v%2^32 else v%2^64
  | .int v => (if longness = 0 then v%2^32 else v%2^64).toNat
  | .str _ => 0

def Arg.signed : Arg → Int
  | .num v => v
  | .int v => v
  | .str _ => 0

def Arg.text : Arg → Bytes
  | .str (some s) => s
  | .str none => utf8 "(null)"
  | _ => []

def digit (uppercase : Bool) (d : Nat) : UInt8 :=
  UInt8.ofNat (if d < 10 then 48+d else if uppercase then 55+d else 87+d)

def digitsLoop (base : Nat) (uppercase : Bool) : Nat → Nat → Bytes
  | 0, _ => []
  | n+1, val => if val = 0 then [] else digit uppercase (val%base) :: digitsLoop base uppercase n (val/base)

def emitUint (val base : Nat) (uppercase : Bool) (minWidth : Nat) (pad : UInt8) : Bytes :=
  let tmp := if val = 0 then [48] else digitsLoop base uppercase 64 val
  List.replicate (minWidth-tmp.length) pad ++ tmp.reverse

def emitInt (val : Int) (minWidth : Nat) (pad : UInt8) : Bytes :=
  if val < 0 then 45 :: emitUint val.natAbs 10 false (minWidth-1) pad
  else emitUint val.natAbs 10 false minWidth pad

def takeFlag : Bytes → UInt8 × Bytes
  | 48 :: fmt => (48,fmt)
  | fmt => (32,fmt)

def takeWidth (width : Nat) : Bytes → Nat × Bytes
  | [] => (width,[])
  | c :: fmt => if 48 ≤ c ∧ c ≤ 57 then takeWidth (width*10+(c.toNat-48)) fmt else (width,c :: fmt)

def takeLong : Bytes → Nat × Bytes
  | 108 :: 108 :: fmt => (2,fmt)
  | 108 :: fmt => (1,fmt)
  | fmt => (0,fmt)

def useArg (args : List Arg) (f : Arg → Bytes) : Bytes × List Arg := (f (args.headD (.num 0)),args.tail)

def directive (pad : UInt8) (width longness : Nat) (c : UInt8) (args : List Arg) : Bytes × List Arg :=
  if c = 100 ∨ c = 105 then useArg args fun a => emitInt a.signed width pad
  else if c = 117 then useArg args fun a => emitUint (a.unsigned longness) 10 false width pad
  else if c = 120 then useArg args fun a => emitUint (a.unsigned longness) 16 false width pad
  else if c = 88 then useArg args fun a => emitUint (a.unsigned longness) 16 true width pad
  else if c = 112 then useArg args fun a => utf8 "0x" ++ emitUint (a.unsigned 2) 16 false 0 48
  else if c = 115 then useArg args Arg.text
  else if c = 99 then useArg args fun a => [UInt8.ofNat (a.unsigned 0)]
  else if c = 37 then ([37],args)
  else ([37,c],args)

def formatLoop : Nat → Bytes → List Arg → Bytes
  | 0, _, _ => []
  | _+1, [], _ => []
  | fuel+1, c :: fmt, args =>
    if c ≠ 37 then c :: formatLoop fuel fmt args
    else
      let flag := takeFlag fmt
      let width := takeWidth 0 flag.2
      let long := takeLong width.2
      match long.2 with
      | [] => [37]
      | k :: fmt =>
        let r := directive flag.1 width.1 long.1 k args
        r.1 ++ formatLoop fuel fmt r.2

def format (fmt : Bytes) (args : List Arg) : Bytes := formatLoop fmt.length fmt args

theorem formatLoop_plain {text : Bytes} (h : text.all (· != 37) = true) (n : Nat) (fmt : Bytes) (args : List Arg) :
    formatLoop (text.length+n) (text ++ fmt) args = text ++ formatLoop n fmt args := by
  induction text with
  | nil => simp
  | cons c text ih =>
    obtain ⟨hc,ht⟩ : c ≠ 37 ∧ text.all (· != 37) = true := by simpa using h
    rw [length_cons,add_right_comm,cons_append,formatLoop,if_pos hc,ih ht]
    rfl

theorem format_string {text text' : Bytes} (h : text.all (· != 37) = true)
    (h' : text'.all (· != 37) = true) (s : Bytes) : format (text ++ 37 :: 115 :: text') [.str (some s)] = text ++ (s ++ text') := by
  have hr := formatLoop_plain h' 1 [] []
  rw [append_nil] at hr
  rw [format,length_append,formatLoop_plain h]
  show text ++ (s ++ formatLoop (text'.length+1) text' []) = _
  rw [hr]
  simp [formatLoop]

def emitChar (size : Nat) (e : Out) (c : UInt8) : Out :=
  ⟨e.pos+1,if e.pos < size-1 then e.writes ++ [(e.pos,c)] else e.writes⟩

def snprintf (size : Nat) (fmt : Bytes) (args : List Arg) : Nat × List (Nat × UInt8) :=
  if size = 0 then (0,[])
  else
    let e := (format fmt args).foldl (emitChar size) ⟨0,[]⟩
    (e.pos,e.writes ++ [(if e.pos < size then e.pos else size-1,0)])

def append (max : Nat) (o : Out) (fmt : Bytes) (args : List Arg) : Out :=
  let r := snprintf (wordRoom max o.pos) fmt args
  ⟨o.pos+r.1,o.writes ++ shifted o.pos r.2⟩

theorem emitChar_foldl (size : Nat) (text : Bytes) (pos : Nat) (writes : List (Nat × UInt8)) :
    text.foldl (emitChar size) ⟨pos,writes⟩ =
      ⟨pos+text.length,writes ++ ((text.take (size-1-pos)).zipIdx pos).map Prod.swap⟩ := by
  induction text generalizing pos writes with
  | nil => simp
  | cons c text ih =>
    rw [foldl_cons,emitChar,ih]
    by_cases h : pos < size-1
    · rw [if_pos h,show size-1-pos = size-1-(pos+1)+1 by omega,take_succ_cons,
        zipIdx_cons,map_cons,append_assoc,length_cons]
      simp [add_comm,add_left_comm]
    · rw [if_neg h,show size-1-(pos+1) = 0 by omega,show size-1-pos = 0 by omega,length_cons]
      simp [add_comm,add_left_comm]

theorem snprintf_eq (size : Nat) (fmt : Bytes) (args : List Arg) :
    snprintf size fmt args = (printed size (format fmt args),printWrites size (format fmt args)) := by
  unfold snprintf printed printWrites
  split
  · rfl
  rw [emitChar_foldl]
  simp only [zero_add,nil_append,Nat.sub_zero]
  congr 4
  split <;> omega

theorem append_eq_print (max : Nat) (o : Out) (fmt : Bytes) (args : List Arg) :
    append max o fmt args = print max o (format fmt args) := by
  simp only [append,print,snprintf_eq]

theorem digitsLoop_length (base : Nat) (uppercase : Bool) (n val : Nat) :
    (digitsLoop base uppercase n val).length ≤ n := by
  induction n generalizing val with
  | zero => simp [digitsLoop]
  | succ n ih =>
    rw [digitsLoop]
    split
    · simp
    · simpa using ih (val/base)

theorem emitUint_length (val base : Nat) (uppercase : Bool) (pad : UInt8) :
    (emitUint val base uppercase 0 pad).length ≤ 64 := by
  have h := digitsLoop_length base uppercase 64 val
  unfold emitUint
  split <;> simp [h]

end AevOS.Str
