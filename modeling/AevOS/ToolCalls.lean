import AevOS.Snprintf

/-! `parse_and_execute_tools` of `agent/agent_core.c`, and the responses it is meant for. Strings are the
bytes in front of their NUL. -/

namespace AevOS.Tools
open Wire Print Str List

def marker : Bytes := [91,84,79,79,76,58]

def findMarker : Bytes → Option Bytes
  | [] => none
  | c :: p => if marker.isPrefixOf (c :: p) then some ((c :: p).drop 6) else findMarker p

def takeName : Nat → Bytes → Bytes × Bytes
  | _, [] => ([],[])
  | 0, c :: p => ([],c :: p)
  | n+1, c :: p =>
    if c = 40 ∨ c = 93 then ([],c :: p)
    else
      let r := takeName n p
      (c :: r.1,r.2)

def takeArgs : Nat → Nat → Bytes → Bytes × Bytes
  | _, _, [] => ([],[])
  | 0, _, c :: p => ([],c :: p)
  | n+1, depth, c :: p =>
    let depth := if c = 40 then depth+1 else depth
    let depth := if c = 41 then depth-1 else depth
    if c = 41 ∧ depth = 0 then ([],c :: p)
    else
      let r := takeArgs n depth p
      (c :: r.1,r.2)

def skipOne (k : UInt8) : Bytes → Bytes
  | [] => []
  | c :: p => if c = k then p else c :: p

def readArgs : Bytes → Bytes × Bytes
  | [] => ([],[])
  | c :: p =>
    if c = 40 then
      let r := takeArgs 1023 1 p
      (r.1,skipOne 41 r.2)
    else ([],c :: p)

def readCall (p : Bytes) : Bytes × Bytes × Bytes :=
  let name := takeName 63 p
  let args := readArgs name.2
  (name.1,args.1,skipOne 93 args.2)

variable {toolMax : UInt64} {name : Bytes}

section
variable {σ ι : Type}

structure Skills (σ ι : Type) where
  find : σ → Bytes → Option ι
  execute : σ → ι → Bytes → σ × Int × Bytes

structure ToolState (σ : Type) where
  skills : σ
  out : Out
  calls : Nat
  lookups : List (Bytes × Bytes)

def runTool (sk : Skills σ ι) (toolMax : UInt64) (name args : Bytes) (s : ToolState σ) : ToolState σ :=
  let s := { s with lookups := s.lookups ++ [(name,args)] }
  match sk.find s.skills name with
  | some i =>
    let r := sk.execute s.skills i args
    { s with
      skills := r.1
      calls := s.calls+1
      out :=
        if s.out.pos+r.2.2.length+64 < toolMax.toNat then
          append toolMax.toNat s.out (utf8 "[RESULT:%s] %s\n")
            [.str (some (if r.2.1 = 0 then utf8 "OK" else utf8 "FAIL")),.str (some r.2.2)]
        else s.out }
  | none =>
    { s with
      out :=
        if s.out.pos+128 < toolMax.toNat then
          append toolMax.toNat s.out (utf8 "[RESULT:FAIL] Unknown skill '%s'\n") [.str (some name)]
        else s.out }

def toolLoop (sk : Skills σ ι) (toolMax : UInt64) : Nat → Bytes → ToolState σ → ToolState σ
  | 0, _, s => s
  | fuel+1, p, s =>
    match findMarker p with
    | none => s
    | some p =>
      let c := readCall p
      toolLoop sk toolMax fuel c.2.2 (runTool sk toolMax c.1 c.2.1 s)

def parseAndExecuteTools (sk : Skills σ ι) (response : Bytes) (toolMax : UInt64) (skills : σ) : ToolState σ :=
  toolLoop sk toolMax response.length response ⟨skills,⟨0,[]⟩,0,[]⟩

def lookupLoop : Nat → Bytes → List (Bytes × Bytes)
  | 0, _ => []
  | fuel+1, p =>
    match findMarker p with
    | none => []
    | some p => ((readCall p).1,(readCall p).2.1) :: lookupLoop fuel (readCall p).2.2

theorem runTool_lookups (sk : Skills σ ι) (toolMax : UInt64) (name args : Bytes) (s : ToolState σ) :
    (runTool sk toolMax name args s).lookups = s.lookups ++ [(name,args)] := by
  unfold runTool
  dsimp only
  split <;> rfl

theorem toolLoop_lookups (sk : Skills σ ι) (toolMax : UInt64) (fuel : Nat) (p : Bytes) (s : ToolState σ) :
    (toolLoop sk toolMax fuel p s).lookups = s.lookups ++ lookupLoop fuel p := by
  induction fuel generalizing p s with
  | zero => simp [toolLoop,lookupLoop]
  | succ fuel ih =>
    cases hf : findMarker p with
    | none => simp [toolLoop,lookupLoop,hf]
    | some p => simp [toolLoop,lookupLoop,hf,ih,runTool_lookups]

structure OutOk (toolMax : UInt64) (o : Out) : Prop where
  pos : o.pos ≤ toolMax.toNat
  inside : Inside toolMax.toNat o

theorem OutOk.append {o : Out} (h : OutOk toolMax o) {fmt : Bytes} {args : List Arg}
    (hf : o.pos+(format fmt args).length ≤ toolMax.toNat) :
    OutOk toolMax (append toolMax.toNat o fmt args) := by
  have hmax := toolMax.toNat_lt
  rw [append_eq_print]
  refine ⟨?_,h.inside.print hmax h.pos _⟩
  rw [print_pos hmax h.pos,advance]
  split
  · exact hf
  · exact h.pos

theorem readName_length (n : Nat) (p : Bytes) : (takeName n p).1.length ≤ n := by
  induction n generalizing p with
  | zero => cases p <;> simp [takeName]
  | succ n ih =>
    cases p with
    | nil => simp [takeName]
    | cons c p =>
      rw [takeName]
      split
      · simp
      · simpa using ih p

theorem runTool_outOk (sk : Skills σ ι) (hn : name.length ≤ 63) (args : Bytes) {s : ToolState σ}
    (h : OutOk toolMax s.out) : OutOk toolMax (runTool sk toolMax name args s).out := by
  unfold runTool
  dsimp only
  split
  · rename_i i _
    split
    · apply h.append
      generalize (sk.execute s.skills i args).2.2 = result at *
      generalize hc : (if (sk.execute s.skills i args).2.1 = 0 then utf8 "OK" else utf8 "FAIL") = code
      have hc : code.length ≤ 4 := by
        rw [← hc]
        split <;> decide
      show s.out.pos+(utf8 "[RESULT:" ++ (code ++ (utf8 "] " ++ (result ++ utf8 "\n")))).length ≤ _
      simp only [length_append,show (utf8 "[RESULT:").length = 8 from rfl,
        show (utf8 "] ").length = 2 from rfl,show (utf8 "\n").length = 1 from rfl]
      omega
    · exact h
  split
  · apply h.append
    show s.out.pos+(utf8 "[RESULT:FAIL] Unknown skill '" ++ (name ++ utf8 "'\n")).length ≤ _
    simp only [length_append,show (utf8 "[RESULT:FAIL] Unknown skill '").length = 29 from rfl,
      show (utf8 "'\n").length = 2 from rfl]
    omega
  · exact h

theorem toolLoop_outOk (sk : Skills σ ι) (fuel : Nat) (p : Bytes) {s : ToolState σ}
    (h : OutOk toolMax s.out) : OutOk toolMax (toolLoop sk toolMax fuel p s).out := by
  induction fuel generalizing p s with
  | zero => exact h
  | succ fuel ih =>
    rw [toolLoop]
    split
    · exact h
    · exact ih _ (runTool_outOk sk (readName_length 63 _) _ h)

end

def depthAfter : Nat → Bytes → Option Nat
  | d, [] => some d
  | d, c :: bs =>
    if c = 40 then depthAfter (d+1) bs
    else if c = 41 then
      match d with
      | 0 => none
      | d+1 => depthAfter d bs
    else depthAfter d bs

structure Call where
  name : Bytes
  args : Bytes
  name_ok : ∀ c ∈ name, c ≠ 40 ∧ c ≠ 93
  balanced : depthAfter 0 args = some 0

structure Plain where
  text : Bytes
  plain : ¬ marker <:+: text

def Call.wire (c : Call) : Bytes := marker ++ c.name ++ [40] ++ c.args ++ [41,93]

def responseText (t : Plain) : List (Call × Plain) → Bytes
  | [] => t.text
  | c :: cs => t.text ++ (c.1.wire ++ responseText c.2 cs)

theorem findMarker_plain (t : Plain) : findMarker t.text = none := by
  have hn : ∀ text, ¬ marker <:+: text → findMarker text = none := by
    intro text
    induction text with
    | nil => exact fun _ => rfl
    | cons c text ih =>
      intro hp
      have hs : ¬ marker.isPrefixOf (c :: text) = true :=
        fun h => hp ( isPrefixOf_iff_prefix.mp h).isInfix
      rw [findMarker,if_neg hs]
      exact ih fun h => hp (infix_cons h)
  exact hn t.text t.plain

theorem marker_not_across {text : Bytes} (hne : text ≠ []) (hp : ¬ marker <:+: text) (rest : Bytes) :
    ¬ marker <+: text ++ (marker ++ rest) := by
  intro h
  rcases lt_or_ge text.length 6 with hs | hl
  · -- the bracket of the second marker would be inside the first
    have hpos : 0 < text.length := length_pos_iff.mpr hne
    obtain ⟨u,hu⟩ := h
    have hget := congrArg (fun l => l[text.length]?) hu
    simp only [getElem?_append_left (show text.length < marker.length from hs),
      getElem?_append_right (le_refl _),Nat.sub_self] at hget
    generalize text.length = k at hs hpos hget
    interval_cases k <;> simp [marker] at hget
  · refine hp (IsPrefix.isInfix ?_)
    exact prefix_of_prefix_length_le h (prefix_append text _) (by simpa [marker] using hl)

theorem findMarker_text (t : Plain) (rest : Bytes) : findMarker (t.text ++ (marker ++ rest)) = some rest := by
  have hf : ∀ text, ¬ marker <:+: text → findMarker (text ++ (marker ++ rest)) = some rest := by
    intro text
    induction text with
    | nil =>
      intro _
      simp [marker,findMarker,isPrefixOf]
    | cons c text ih =>
      intro hp
      have hs : ¬ marker.isPrefixOf (c :: (text ++ (marker ++ rest))) = true :=
        fun h => marker_not_across (cons_ne_nil c text) hp rest ( isPrefixOf_iff_prefix.mp h)
      rw [cons_append,findMarker,if_neg hs]
      exact ih fun h => hp (infix_cons h)
  exact hf t.text t.plain

theorem takeName_call (h : ∀ c ∈ name, c ≠ 40 ∧ c ≠ 93) (n : Nat) (rest : Bytes) :
    takeName n (name ++ 40 :: rest) = (name.take n,name.drop n ++ 40 :: rest) := by
  induction name generalizing n with
  | nil => cases n <;> simp [takeName]
  | cons c name ih =>
    obtain ⟨hc,hn⟩ := forall_mem_cons.mp h
    cases n with
    | zero => rfl
    | succ n => simp [takeName,hc,ih hn]

theorem takeArgs_call {args : Bytes} {d : Nat} (h : depthAfter d args = some 0) (n : Nat) (rest : Bytes) :
    takeArgs n (d+1) (args ++ 41 :: rest) = (args.take n,args.drop n ++ 41 :: rest) := by
  induction args generalizing n d with
  | nil =>
    obtain rfl : d = 0 := by simpa [depthAfter] using h
    cases n <;> simp [takeArgs]
  | cons c args ih =>
    cases n with
    | zero => rfl
    | succ n =>
      by_cases ho : c = 40
      · subst ho
        have h : depthAfter (d+1) args = some 0 := by simpa [depthAfter] using h
        simp [takeArgs,ih h]
      by_cases hc : c = 41
      · subst hc
        cases d with
        | zero => simp [depthAfter] at h
        | succ d =>
          have h : depthAfter d args = some 0 := by simpa [depthAfter] using h
          simp [takeArgs,ih h]
      · have h : depthAfter d args = some 0 := by simpa [depthAfter,ho,hc] using h
        simp [takeArgs,ho,hc,ih h]

theorem readCall_wire (c : Call) (rest : Bytes) :
    (readCall (c.name ++ 40 :: (c.args ++ 41 :: 93 :: rest))).1 = c.name.take 63 ∧
      (c.name.length ≤ 63 → (readCall (c.name ++ 40 :: (c.args ++ 41 :: 93 :: rest))).2.1 = c.args.take 1023 ∧
        (c.args.length ≤ 1023 → (readCall (c.name ++ 40 :: (c.args ++ 41 :: 93 :: rest))).2.2 = rest)) := by
  have ha : takeArgs 1023 1 (c.args ++ 41 :: 93 :: rest) = _ := takeArgs_call c.balanced 1023 (93 :: rest)
  rw [readCall,takeName_call c.name_ok]
  refine ⟨rfl,fun hn => ?_⟩
  rw [drop_eq_nil_of_le hn,nil_append]
  simp only [readArgs,if_true,ha,true_and]
  intro hlen
  rw [drop_eq_nil_of_le hlen]
  simp [skipOne]

def written (cs : List (Call × Plain)) : List (Bytes × Bytes) := cs.map fun c => (c.1.name,c.1.args)

def Short (cs : List (Call × Plain)) : Prop :=
  ∀ c ∈ cs, c.1.name.length ≤ 63 ∧ c.1.args.length ≤ 1023

theorem lookupLoop_eq_written_iff (cs : List (Call × Plain)) (t : Plain) {fuel : Nat}
    (hf : (responseText t cs).length ≤ fuel) :
    lookupLoop fuel (responseText t cs) = written cs ↔ Short cs := by
  induction cs generalizing t fuel with
  | nil =>
    have hn : lookupLoop fuel t.text = [] := by
      cases fuel with
      | zero => rfl
      | succ fuel => rw [lookupLoop,findMarker_plain]
    simp [responseText,hn,written,Short]
  | cons c cs ih =>
    have ht : responseText t (c :: cs) = t.text ++ (marker ++
        (c.1.name ++ 40 :: (c.1.args ++ 41 :: 93 :: responseText c.2 cs))) := by
      simp [responseText,Call.wire]
    rw [ht] at hf ⊢
    cases fuel with
    | zero => simp [marker] at hf
    | succ fuel =>
      obtain ⟨hnm,hr⟩ := readCall_wire c.1 (responseText c.2 cs)
      rw [lookupLoop,findMarker_text]
      dsimp only
      rw [hnm]
      by_cases hs : c.1.name.length ≤ 63 ∧ c.1.args.length ≤ 1023
      · obtain ⟨ha,hgo⟩ := hr hs.1
        have hf' : (responseText c.2 cs).length ≤ fuel := by
          simp only [length_append,length_cons,marker] at hf
          omega
        rw [ha,hgo hs.2,take_of_length_le hs.1,take_of_length_le hs.2]
        simp only [written,map_cons,cons.injEq,true_and,Short,forall_mem_cons,hs]
        exact ih c.2 hf'
      · -- the first name or argument that is too long is cut
        refine ⟨fun h => absurd ?_ hs,fun h => absurd (forall_mem_cons.mp h).1 hs⟩
        have hh := (cons.inj h).1
        have hlen := congrArg (fun x : Bytes × Bytes => x.1.length) hh
        have hle : c.1.name.length ≤ 63 := by
          simp only [length_take] at hlen
          omega
        have ha := congrArg (fun x : Bytes × Bytes => x.2.length) hh
        simp only [(hr hle).1,length_take] at ha
        exact ⟨hle,by omega⟩

theorem parseAndExecuteTools_exact_iff {σ ι : Type} (sk : Skills σ ι) (t : Plain)
    (cs : List (Call × Plain)) (toolMax : UInt64) (skills : σ) :
    ((parseAndExecuteTools sk (responseText t cs) toolMax skills).lookups = written cs ↔ Short cs) ∧
      ∀ w ∈ (parseAndExecuteTools sk (responseText t cs) toolMax skills).out.writes,
        w.1 < toolMax.toNat := by
  constructor
  · rw [parseAndExecuteTools,toolLoop_lookups,nil_append]
    exact lookupLoop_eq_written_iff cs t (Nat.le_refl _)
  · have hstart : OutOk toolMax ⟨0,[]⟩ := ⟨Nat.zero_le _,fun w hw => absurd hw not_mem_nil⟩
    exact (toolLoop_outOk sk _ _ hstart).inside

theorem nil_plain : ¬ marker <:+: [] := by decide

def noText : Plain := ⟨[],nil_plain⟩
def longArgs : Bytes := List.replicate 1023 97 ++ (marker ++ [120,40,121,41,93])

theorem longArgs_name : ∀ c ∈ [(116 : UInt8)], c ≠ 40 ∧ c ≠ 93 := by simp
theorem longArgs_balanced : depthAfter 0 longArgs = some 0 := by decide +kernel

def longCall : Call := ⟨[116],longArgs,longArgs_name,longArgs_balanced⟩

theorem longCall_twice :
    (parseAndExecuteTools (⟨fun _ _ => none,fun _ _ _ => ((),0,[])⟩ : Skills Unit Unit)
        (responseText noText [(longCall,noText)]) 4096 ()).lookups =
      [([116],List.replicate 1023 97),([120],[121])] ∧
    written [(longCall,noText)] = [([116],longArgs)] := by
  refine ⟨?_,rfl⟩
  decide +kernel

end AevOS.Tools
