import AevOS.ByteWire

/-! The names of `kernel/net/dns.c`. A read at an index the packet does not have is a fault
of its own. -/

namespace AevOS.Dns
open Wire List
open UInt8 (ofNat)

abbrev dot : UInt8 := 46

/-- `dns_encode_name` with `out` written so far. -/
def encodeName (cap : Nat) (name out : Bytes) : Option Bytes :=
  if name = [] then
    if cap ≤ out.length+1 then none else some (out ++ [0])
  else
    let lab := name.takeWhile (· ≠ dot)
    if lab.length = 0 ∨ 63 < lab.length ∨ cap ≤ out.length+1+lab.length then none
    else encodeName cap (name.drop (lab.length+1)) (out ++ ofNat lab.length :: lab)
termination_by name.length
decreasing_by
  have := length_pos_of_ne_nil ‹_›
  simp
  omega

inductive Fault where
  | outside
  | refused
  deriving DecidableEq

/-- The two bytes of a compression pointer, if one stands at `i`. -/
def pointerAt (pkt : Bytes) (i : Nat) : Option Nat :=
  (pkt[i]?).bind fun a => (pkt[i+1]?).bind fun b =>
    if a &&& 0xC0 = 0xC0 then some ((a &&& 0x3F).toNat*256+b.toNat) else none

/-- `dns_name_unpack` from its loop on: the offset it ends at and what it has written to
`dst`. `back` is the offset behind the first pointer followed; `none` is a loop that has not
ended after the given number of rounds. -/
def nameUnpack (pkt : Bytes) (dcap : Nat) :
    Nat → Nat → Option Nat → Bytes → Option (Except Fault Nat × Bytes)
  | 0, _, _, _ => none
  | n+1, off, back, dst =>
    if pkt.length ≤ off then some (.error .refused,dst)
    else match pkt[off]? with
    | none => some (.error .outside,dst)
    | some lab =>
      if lab = 0 then some (.ok (back.getD (off+1)),dst ++ [0])
      else if lab &&& 0xC0 = 0xC0 then
        if pkt.length ≤ off+1 then some (.error .refused,dst)
        else match pointerAt pkt off with
        | none => some (.error .outside,dst)
        | some ptr =>
          if pkt.length ≤ ptr then some (.error .refused,dst)
          else nameUnpack pkt dcap n ptr (some (back.getD (off+2))) dst
      else if pkt.length < off+1+lab.toNat ∨ dcap ≤ dst.length+lab.toNat+2 then
        some (.error .refused,dst)
      else nameUnpack pkt dcap n (off+1+lab.toNat) back
        ((if dst = [] then dst else dst ++ [dot]) ++ slice pkt (off+1) lab.toNat)

def dotted : List Bytes → Bytes
  | [] => []
  | l :: ls => l ++ ls.flatMap (dot :: ·)

variable {pkt dst out : Bytes} {dcap off i n : Nat} {back : Option Nat} {ls : List Bytes}

theorem pointerAt_some {t : Nat} (h : pointerAt pkt i = some t) :
    i+1 < pkt.length ∧ ∃ a, pkt[i]? = some a ∧ a &&& 0xC0 = 0xC0 := by
  obtain ⟨a,ha,h⟩ := Option.bind_eq_some_iff.mp h
  obtain ⟨b,hb,h⟩ := Option.bind_eq_some_iff.mp h
  refine ⟨(List.getElem?_eq_some_iff.mp hb).1,a,ha,?_⟩
  by_contra hc
  simp [hc] at h

/-- What the labels of a name add to what is written. -/
def extend (dst : Bytes) : List Bytes → Bytes
  | [] => dst
  | l :: ls => extend ((if dst = [] then dst else dst ++ [dot]) ++ l) ls

theorem extend_eq (h : dst ≠ []) (ls : List Bytes) : extend dst ls = dst ++ ls.flatMap (dot :: ·) := by
  induction ls generalizing dst with
  | nil => simp [extend]
  | cons l ls ih => simp [extend,h,ih]

theorem extend_nil (h : ∀ l ∈ ls, l ≠ []) : extend [] ls = dotted ls := by
  cases ls with
  | nil => rfl
  | cons l ls => simp [extend,dotted,extend_eq (h l mem_cons_self)]

theorem length_le_extend (dst : Bytes) (ls : List Bytes) : dst.length ≤ (extend dst ls).length := by
  induction ls generalizing dst with
  | nil => exact le_refl _
  | cons l ls ih =>
    refine le_trans ?_ (ih _)
    split <;> simp

theorem length_written {m : Nat} (h : off+1+m ≤ pkt.length) : dst.length+m ≤
    ((if dst = [] then dst else dst ++ [dot]) ++ slice pkt (off+1) m).length := by
  split <;> simp [slice_length h]

/-- The labels behind their lengths, and the empty one. -/
def wire (ls : List Bytes) : Bytes := ls.flatMap (fun l => ofNat l.length :: l) ++ [0]

structure Label (l : Bytes) : Prop where
  pos : 0 < l.length
  short : l.length ≤ 63
  noDot : dot ∉ l

theorem lengthByte : ∀ k < 64, 0 < k → ofNat k ≠ 0 ∧ ofNat k &&& 0xC0 ≠ 0xC0 := by decide

theorem nameUnpack_wire (h : ∀ l ∈ ls, Label l) (pre post dst : Bytes) (back : Option Nat)
    (hc : (extend dst ls).length+2 < dcap) :
    ∃ k, ∀ n, nameUnpack (pre ++ wire ls ++ post) dcap (n+k) pre.length back dst =
      some (.ok (back.getD (pre.length+(wire ls).length)),extend dst ls ++ [0]) := by
  induction ls generalizing pre dst with
  | nil => exact ⟨1,fun n => by simp [nameUnpack,wire,extend]⟩
  | cons l ls ih =>
    obtain ⟨hl,hls⟩ := forall_mem_cons.mp h
    have hn : (UInt8.ofNat l.length).toNat = l.length :=
      UInt8.toNat_ofNat_of_lt' (show _ < 2^8 by have := hl.short; omega)
    have hw : pre ++ wire (l :: ls) ++ post =
        (pre ++ UInt8.ofNat l.length :: l) ++ wire ls ++ post := by simp [wire]
    have hat : (pre ++ wire (l :: ls) ++ post)[pre.length]? = some (UInt8.ofNat l.length) := by simp [wire]
    have hs : slice (pre ++ wire (l :: ls) ++ post) (pre.length+1) l.length = l := by
      simp [slice,wire,drop_append,show pre.drop (pre.length+1) = [] by simp]
    have hin : pre.length+1+l.length ≤ (pre ++ wire (l :: ls) ++ post).length := by simp [wire]; omega
    have hb := lengthByte l.length (by have := hl.short; omega) hl.pos
    have hd : dst.length+l.length ≤ (extend dst (l :: ls)).length :=
      (hs ▸ length_written hin).trans (length_le_extend _ ls)
    obtain ⟨k,hk⟩ := ih hls (pre ++ UInt8.ofNat l.length :: l) _ hc
    rw [← hw,show (pre ++ UInt8.ofNat l.length :: l).length = pre.length+1+l.length by simp; omega] at hk
    refine ⟨k+1,fun n => ?_⟩
    rw [← add_assoc,nameUnpack,if_neg (by omega)]
    simp only [hat,if_neg hb.1,if_neg hb.2,hn]
    rw [if_neg (by omega),hs,hk,show (wire (l :: ls)).length = 1+l.length+(wire ls).length by
      simp [wire]; omega]
    simp [extend,Nat.add_assoc]

theorem encodeName_eq (h : ∀ l ∈ ls, Label l) {cap : Nat} {enc : Bytes}
    (he : encodeName cap (dotted ls) out = some enc) : enc = out ++ wire ls := by
  induction ls generalizing out with
  | nil =>
    rw [encodeName] at he
    simp [dotted] at he
    simp [wire,he.2]
  | cons l ls ih =>
    obtain ⟨hl,hls⟩ := forall_mem_cons.mp h
    have ht : (dotted (l :: ls)).takeWhile (· ≠ dot) = l := by
      have hne : ∀ c ∈ l, decide (c ≠ dot) = true := fun c hc =>
        decide_eq_true fun h => hl.noDot (h ▸ hc)
      rw [dotted,takeWhile_append_of_pos hne]
      cases ls <;> simp
    have hd : (dotted (l :: ls)).drop (l.length+1) = dotted ls := by
      cases ls <;> simp [dotted,drop_append]
    rw [encodeName,if_neg (by simp [dotted,ne_nil_of_length_pos hl.pos])] at he
    simp only [ht,hd] at he
    split at he
    · cases he
    · simpa [wire] using ih hls he

theorem nameUnpack_encodeName (labels : List Bytes) (h : ∀ l ∈ labels, Label l) (cap dcap : Nat)
    (enc pre post : Bytes) (he : encodeName cap (dotted labels) [] = some enc)
    (hd : (dotted labels).length+3 < dcap) :
    ∃ k, ∀ n, nameUnpack (pre ++ enc ++ post) dcap (n+k) pre.length none [] =
      some (.ok (pre.length+enc.length),dotted labels ++ [0]) := by
  obtain rfl : enc = wire labels := by simpa using encodeName_eq h he
  have hx := extend_nil fun l hl => ne_nil_of_length_pos (h l hl).pos
  simpa [hx] using nameUnpack_wire h pre post [] none (by rw [hx]; omega)

theorem nameUnpack_encodeName_ab :
    ∃ k, ∀ n, nameUnpack ([7] ++ [1,97,2,98,99,0] ++ []) 9 (n+k) 1 none [] = some (.ok 7,[97,dot,98,99,0]) :=
  nameUnpack_encodeName [[97],[98,99]]
    (by simp only [forall_mem_cons]; exact ⟨⟨by decide,by decide,by decide⟩,⟨by decide,by decide,by decide⟩,by simp⟩)
    16 9 [1,97,2,98,99,0] [7] [] (by simp [encodeName,dotted,dot]) (by decide)

/-- A compression pointer at `i` leads to `t`. -/
def Points (pkt : Bytes) (i t : Nat) : Prop := pointerAt pkt i = some t

def NoCycle (pkt : Bytes) : Prop := ∀ i, ¬ Relation.TransGen (Points pkt) i i

open Classical in
/-- How many pointers can be met from `i` on. -/
noncomputable def rank (pkt : Bytes) (i : Nat) : Nat :=
  ((Finset.range pkt.length).filter fun j =>
    Relation.ReflTransGen (Points pkt) i j ∧ (pointerAt pkt j).isSome).card

open Classical in
theorem rank_le (pkt : Bytes) (i : Nat) : rank pkt i ≤ pkt.length :=
  (Finset.card_filter_le _ _).trans (Finset.card_range _).le

open Classical in
theorem rank_lt {t : Nat} (h : NoCycle pkt) (ht : Points pkt i t) : rank pkt t < rank pkt i := by
  have hi := (pointerAt_some ht).1
  refine Finset.card_lt_card (Finset.ssubset_iff.mpr ⟨i,fun hm => ?_,fun j hj => ?_⟩)
  · exact h i (.head' ht (Finset.mem_filter.mp hm).2.1)
  · rcases Finset.mem_insert.mp hj with rfl | hj
    · exact Finset.mem_filter.mpr ⟨Finset.mem_range.mpr (by omega),.refl,Option.isSome_of_eq_some ht⟩
    · obtain ⟨hj,hr,hs⟩ := Finset.mem_filter.mp hj
      exact Finset.mem_filter.mpr ⟨hj,.head ht hr,hs⟩

theorem nameUnpack_isSome (h : NoCycle pkt) (hn : (dcap-dst.length)*(pkt.length+1)+rank pkt off < n) :
    (nameUnpack pkt dcap n off back dst).isSome := by
  fun_induction nameUnpack pkt dcap n off back dst with
  | case1 => omega
  | case8 n off back dst hoff lab hlab h0 hp h1 ptr hptr hle ih =>
    apply ih
    have := rank_lt h hptr
    omega
  | case10 n off back dst hoff lab hlab h0 hp hc ih =>
    apply ih
    have hr := rank_le pkt (off+1+lab.toNat)
    rw [not_or,not_lt,not_le] at hc
    have hw : dst.length+lab.toNat ≤ _ := length_written hc.1
    have hpos : lab.toNat ≠ 0 := fun hz => h0 (UInt8.toNat_inj.mp hz)
    -- a label leaves less room, which counts for more than any run of pointers
    have := Nat.mul_le_mul_right (pkt.length+1) (show dcap-((if dst = [] then dst else dst ++ [dot]) ++
      slice pkt (off+1) lab.toNat).length+1 ≤ dcap-dst.length by omega)
    rw [Nat.succ_mul] at this
    omega
  | _ => rfl

theorem nameUnpack_cycle (h : Relation.TransGen (Points pkt) off off) :
    nameUnpack pkt dcap n off back dst = none := by
  induction n generalizing off back with
  | zero => rfl
  | succ n ih =>
    obtain ⟨t,ht,hr⟩ := Relation.TransGen.head'_iff.mp h
    have hc : Relation.TransGen (Points pkt) t t := .tail' hr ht
    obtain ⟨u,hu,-⟩ := Relation.TransGen.head'_iff.mp hc
    obtain ⟨h1,a,ha,hp⟩ := pointerAt_some ht
    have h0 : a ≠ 0 := by rintro rfl; exact absurd hp (by decide)
    have h2 := (pointerAt_some hu).1
    rw [nameUnpack,if_neg (by omega)]
    simp only [ha,if_neg h0,if_pos hp,show pointerAt pkt off = some t from ht]
    rw [if_neg (by omega),if_neg (by omega),ih hc]

/-- Every name of a packet is expanded in bounded time exactly if its pointers make no cycle. -/
theorem nameUnpack_terminates_iff (pkt : Bytes) :
    (∀ dcap off, (nameUnpack pkt dcap ((dcap+1)*(pkt.length+1)) off none []).isSome) ↔ NoCycle pkt := by
  constructor
  · intro h i hc
    simpa [nameUnpack_cycle hc] using h 0 i
  · intro h dcap off
    apply nameUnpack_isSome h
    have := rank_le pkt off
    rw [length_nil,Nat.sub_zero,Nat.succ_mul]
    omega

/-- A pointer to itself. -/
theorem nameUnpack_loops : pointerAt [0xC0,0] 0 = some 0 ∧
    ∀ dcap n, nameUnpack [0xC0,0] dcap n 0 none [] = none := by
  refine ⟨rfl,fun dcap n => ?_⟩
  have h : ∀ back, nameUnpack [0xC0,0] dcap n 0 back [] = none := by
    induction n with
    | zero => exact fun _ => rfl
    | succ n ih => simp [nameUnpack,pointerAt,ih]
  exact h none

end AevOS.Dns
