import AevOS.SlashPath
import AevOS.Common
import AevOS.Runs

/-! The working directory of `ui/terminal.c` under `cd`, `export` and `unset`. Strings are the bytes in
front of their NUL; what the commands print is left out. -/

namespace AevOS.Term
open Wire SlashPath Runs List

def termMaxEnv : Nat := 16
def termEnvKeyLen : Nat := 40
def termEnvValLen : Nat := 128
def termCwdLen : Nat := 256
def termLineLen : Nat := 256
def termPathMaxSeg : Nat := 24
def termPathSegLen : Nat := 48

structure EnvEntry where
  key : Bytes
  val : Bytes
  deriving DecidableEq

structure Terminal where
  cwd : Bytes
  env : List EnvEntry
  deriving DecidableEq

def termEnvSet (env : List EnvEntry) (key : Bytes) (val : Option Bytes) : List EnvEntry :=
  if key = [] then env
  else
    match env.findIdx? fun e => e.key = key, val with
    | some i, some v => env.modify i fun e => { e with val := v.take (termEnvValLen-1) }
    | some i, none => env.eraseIdx i
    | none, some v =>
      if env.length ≥ termMaxEnv then env
      else env ++ [⟨key.take (termEnvKeyLen-1),v.take (termEnvValLen-1)⟩]
    | none, none => env

def termEnvGet (env : List EnvEntry) (key : Bytes) : Option Bytes :=
  (env.find? fun e => e.key = key).map EnvEntry.val

def initialEnv : List (Bytes × Bytes) :=
  [(ascii "HOME",ascii "/workspace"),(ascii "USER",ascii "aevos"),(ascii "HOSTNAME",ascii "aevos-pc"),
    (ascii "SHELL",ascii "/bin/bash"),(ascii "PATH",ascii "/bin:/usr/bin:/sandbox/bin"),
    (ascii "PWD",ascii "/workspace"),(ascii "PS1",ascii "\\u@\\h: ")]

def terminalInit : Terminal :=
  ⟨ascii "/workspace",initialEnv.foldl (fun env kv => termEnvSet env kv.1 (some kv.2)) []⟩

def dot : Bytes := ascii "."
def dotDot : Bytes := ascii ".."

def pathPushSeg (segs : List Bytes) (tok : Bytes) : List Bytes :=
  if segs.length ≥ termPathMaxSeg ∨ tok = [] then segs
  else
    let tmp := tok.take (termPathSegLen-1)
    if tmp = dot ∨ tmp = [] then segs
    else if tmp = dotDot then segs.dropLast
    else segs ++ [tmp.take (termPathSegLen-1)]

def skipSlashes (p : Bytes) : Bytes := p.dropWhile fun c => c = slash

def pathTokenizeLoop : (rounds : Nat) → Bytes → List Bytes → List Bytes
  | 0, _, segs => segs
  | n+1, p, segs =>
    if p = [] ∨ segs.length ≥ termPathMaxSeg then segs
    else
      pathTokenizeLoop n (skipSlashes (p.dropWhile fun c => c ≠ slash))
        (pathPushSeg segs (p.takeWhile fun c => c ≠ slash))

def pathTokenizeInto (path : Bytes) (segs : List Bytes) : List Bytes :=
  pathTokenizeLoop path.length (skipSlashes path) segs

def pathBuildLoop (cap : Nat) : List Bytes → Bytes → Option Bytes
  | [], out => some out
  | seg :: segs, out =>
    if out.length+1+seg.length+1 > cap then none else pathBuildLoop cap segs (out ++ slash :: seg)

def pathBuild (cap : Nat) (segs : List Bytes) : Option Bytes :=
  if segs = [] then if cap < 2 then none else some [slash] else pathBuildLoop cap segs []

def termPathResolve (cwd path : Bytes) (cap : Nat) : Option Bytes :=
  let path := if path = [] then dot else path
  if path.head? = some slash then pathBuild cap (pathTokenizeInto path [])
  else pathBuild cap (pathTokenizeInto path (pathTokenizeInto cwd []))

def roots : List Bytes := [ascii "workspace",ascii "sandbox",ascii "tmp"]

def termPathAllowed (path : Bytes) : Bool :=
  if path.head? ≠ some slash then false
  else if path = [slash] then true
  else roots.any fun r => (slash :: r).isPrefixOf path

def skipWs (s : Bytes) : Bytes := s.dropWhile fun c => c = 32 ∨ c = 9

def home (t : Terminal) : Bytes :=
  match termEnvGet t.env (ascii "HOME") with
  | none => ascii "/workspace"
  | some h => if h = [] then ascii "/workspace" else h

def cmdCd (t : Terminal) (args : Bytes) : Terminal :=
  let a := skipWs args
  let target :=
    if a = [] then some ((home t).take (termCwdLen-1)) else termPathResolve t.cwd a termCwdLen
  match target with
  | none => t
  | some target =>
    if termPathAllowed target then
      let cwd := target.take (termCwdLen-1)
      ⟨cwd,termEnvSet t.env (ascii "PWD") (some cwd)⟩
    else t

def cmdExport (t : Terminal) (args : Bytes) : Terminal :=
  let a := skipWs args
  if a = [] then t
  else
    let key := a.takeWhile fun c => c ≠ 61
    match a.dropWhile fun c => c ≠ 61 with
    | [] => { t with env := termEnvSet t.env a (some []) }
    | _ :: val =>
      if key.length = 0 ∨ key.length ≥ termEnvKeyLen then t
      else
        ⟨if key = ascii "PWD" then val.take (termCwdLen-1) else t.cwd,termEnvSet t.env key (some val)⟩

def cmdUnset (t : Terminal) (args : Bytes) : Terminal :=
  let a := skipWs args
  if a = [] then t else { t with env := termEnvSet t.env a none }

inductive Command
  | cd (args : Bytes)
  | exportVar (args : Bytes)
  | unsetVar (args : Bytes)
  /-- Every other command leaves the directory and the variables alone. -/
  | other
  deriving DecidableEq

def stripShellComment : (sq dq : Bool) → Bytes → Bytes
  | _, _, [] => []
  | sq, dq, c :: s =>
    if !sq ∧ c = 34 then c :: stripShellComment sq (!dq) s
    else if !dq ∧ c = 39 then c :: stripShellComment (!sq) dq s
    else if !sq ∧ !dq ∧ c = 35 then []
    else c :: stripShellComment sq dq s

def trim (s : Bytes) : Bytes := (skipWs s).rdropWhile fun c => c = 32 ∨ c = 9 ∨ c = 10 ∨ c = 13

def cmdWordIs (line name : Bytes) : Bool :=
  name.isPrefixOf line && match line.drop name.length with
    | [] => true
    | c :: _ => c == 32 || c == 9

def commandOf (cmd : Bytes) : Command :=
  let cmd := cmd.dropWhile fun c => c = 32
  let w := trim (stripShellComment false false (cmd.take (termLineLen-1)))
  if cmdWordIs w (ascii "cd") then .cd (w.drop 2)
  else if cmdWordIs w (ascii "export") then .exportVar (w.drop 6)
  else if cmdWordIs w (ascii "unset") then .unsetVar (w.drop 5)
  else .other

def runCommand (t : Terminal) : Command → Terminal
  | .cd args => cmdCd t args
  | .exportVar args => cmdExport t args
  | .unsetVar args => cmdUnset t args
  | .other => t

def terminalExecuteCommand (t : Terminal) (cmd : CStr) : Terminal := runCommand t (commandOf cmd.bytes)

/-- A normal path that is the root or lies below an allowed one. -/
def InSandbox (p : Bytes) : Prop :=
  p = joined slash (components slash p) ∧ (∀ c ∈ components slash p, c ≠ dot ∧ c ≠ dotDot) ∧
    (components slash p = [] ∨ ∃ r ∈ roots, (components slash p).head? = some r)
  deriving Decidable

def Extends (c : Bytes) : Prop := (∃ r ∈ roots, r <+: c) ∧ c ∉ roots

def descend (n : Nat) (c : Bytes) : Nat :=
  if n ≥ termPathMaxSeg then n else if c = dot then n else if c = dotDot then n-1 else n+1

def depth (n : Nat) (cs : List Bytes) : Nat := cs.foldl descend n

/-- A component that only begins like an allowed root is entered and not left again. -/
def Strays (cs : List Bytes) : Prop :=
  ∃ before c after, cs = before ++ c :: after ∧ depth 0 before = 0 ∧ Extends c ∧ ∀ k, depth 1 (after.take k) ≠ 0

def route (cwd a : Bytes) : List Bytes :=
  if a.head? = some slash then components slash a else components slash cwd ++ components slash a

def Stays (t : Terminal) : Command → Prop
  | .cd args =>
    (skipWs args = [] → termPathAllowed ((home t).take (termCwdLen-1)) = true →
        InSandbox ((home t).take (termCwdLen-1))) ∧
      (skipWs args ≠ [] → ¬ Strays (route t.cwd (skipWs args)))
  | .exportVar args => ∀ val, skipWs args = ascii "PWD=" ++ val → InSandbox (val.take (termCwdLen-1))
  | .unsetVar _ | .other => True

variable {c r args : Bytes} {segs cs : List Bytes} {t : Terminal}

theorem take_eq_iff {s : Bytes} (hs : s.length < termPathSegLen-1) :
    c.take (termPathSegLen-1) = s ↔ c = s := by
  constructor
  · intro h
    rw [← h,length_take] at hs
    rw [← h,take_of_length_le (by omega)]
  · intro h
    rw [h,take_of_length_le (by omega)]

theorem pathPushSeg_eq (hc : c ≠ []) (segs : List Bytes) : pathPushSeg segs c =
    if segs.length ≥ termPathMaxSeg then segs else if c = dot then segs else if c = dotDot then segs.dropLast
    else segs ++ [c.take (termPathSegLen-1)] := by
  unfold pathPushSeg
  by_cases hf : segs.length ≥ termPathMaxSeg
  · rw [if_pos (.inl hf),if_pos hf]
  · simp only [take_eq_iff (by decide : dot.length < _),take_eq_iff (by decide : ([] : Bytes).length < _),
      take_eq_iff (by decide : dotDot.length < _),take_take,min_self,hc,or_false]

theorem foldl_full (hf : segs.length ≥ termPathMaxSeg) (cs : List Bytes) :
    cs.foldl pathPushSeg segs = segs := by
  induction cs with
  | nil => rfl
  | cons c cs ih => rw [foldl_cons,pathPushSeg,if_pos (.inl hf),ih]

theorem length_skipSlashes (p : Bytes) : (skipSlashes p).length ≤ p.length := (dropWhile_suffix _).length_le

theorem head?_skipSlashes (p : Bytes) : (skipSlashes p).head? ≠ some slash := by
  intro h
  have hnot := head?_dropWhile_not (fun c => decide (c = slash)) p
  unfold skipSlashes at h
  rw [h] at hnot
  simp at hnot

theorem pathTokenizeLoop_eq {rounds : Nat} {p : Bytes} (hlen : p.length ≤ rounds) (hh : p.head? ≠ some slash)
    (segs : List Bytes) : pathTokenizeLoop rounds p segs = (components slash p).foldl pathPushSeg segs := by
  induction rounds generalizing p segs with
  | zero =>
    rw [length_eq_zero_iff.mp (Nat.le_zero.mp hlen)]
    rfl
  | succ rounds ih =>
    rw [pathTokenizeLoop]
    by_cases hnil : p = []
    · rw [if_pos (.inl hnil),hnil]
      rfl
    by_cases hf : segs.length ≥ termPathMaxSeg
    · rw [if_pos (.inr hf),foldl_full hf]
    rw [if_neg (by simp [hnil,hf]),components_eq_cons hnil hh,foldl_cons,
      ← components_dropWhile (p.dropWhile _)]
    refine ih ((length_skipSlashes _).trans ?_) (head?_skipSlashes _) _
    cases p with
    | nil => exact absurd rfl hnil
    | cons c p =>
      have hc : c ≠ slash := fun heq => hh (by rw [heq]; rfl)
      rw [dropWhile_cons_of_pos (by simp [hc])]
      exact (dropWhile_suffix _).length_le.trans (Nat.le_of_succ_le_succ hlen)

theorem pathTokenizeInto_eq (p : Bytes) (segs : List Bytes) :
    pathTokenizeInto p segs = (components slash p).foldl pathPushSeg segs := by
  rw [pathTokenizeInto,pathTokenizeLoop_eq (length_skipSlashes p) (head?_skipSlashes p),skipSlashes,
    components_dropWhile]

theorem pathBuildLoop_eq (cap : Nat) (segs : List Bytes) (out : Bytes) : pathBuildLoop cap segs out =
    if segs = [] ∨ out.length+room segs+1 ≤ cap then some (out ++ segs.flatMap fun c => slash :: c) else none := by
  induction segs generalizing out with
  | nil => simp [pathBuildLoop]
  | cons seg segs ih =>
    have hr : room (seg :: segs) = seg.length+1+room segs := rfl
    rw [pathBuildLoop,ih]
    by_cases hfit : out.length+1+seg.length+1 > cap
    · rw [if_pos hfit,if_neg]
      rintro (hnil | hle)
      · cases hnil
      · omega
    rw [if_neg hfit,append_assoc,flatMap_cons]
    congr 1
    rw [length_append,length_cons,hr,eq_iff_iff]
    constructor
    · rintro (rfl | hle)
      · exact .inr (by simp only [room,map_nil,sum_nil]; omega)
      · exact .inr (by omega)
    · rintro (hnil | hle)
      · cases hnil
      · exact .inr (by omega)

theorem pathBuild_eq {cap : Nat} (hcap : 2 ≤ cap) (segs : List Bytes) :
    pathBuild cap segs = if room segs+1 ≤ cap then some (joined slash segs) else none := by
  unfold pathBuild joined
  split
  · rename_i hnil
    rw [hnil,if_neg (by omega),if_pos (by simp [room]; omega)]
  · rename_i hne
    rw [pathBuildLoop_eq]
    simp [hne]

theorem pathPushSeg_dot (segs : List Bytes) : pathPushSeg segs dot = segs := by
  simp [pathPushSeg_eq (show dot ≠ [] by decide)]

theorem termPathResolve_eq (cwd a : Bytes) (cap : Nat) :
    termPathResolve cwd a cap = pathBuild cap ((route cwd a).foldl pathPushSeg []) := by
  unfold termPathResolve route
  by_cases ha : a = []
  · -- the empty path is read as a dot
    have hd : components slash dot = [dot] := components_single (by decide) (by decide)
    rw [if_pos ha,if_neg (by decide),pathTokenizeInto_eq,pathTokenizeInto_eq,hd,ha]
    simp [pathPushSeg_dot]
  rw [if_neg ha]
  dsimp only
  split
  · rw [pathTokenizeInto_eq]
  · rw [pathTokenizeInto_eq,pathTokenizeInto_eq,List.foldl_append]

def keep (segs : List Bytes) (c : Bytes) : List Bytes :=
  if c = dot then segs else if c = dotDot then segs.dropLast else segs ++ [c]

def cut (c : Bytes) : Bytes := c.take (termPathSegLen-1)

def Normal (c : Bytes) : Prop := (c ≠ [] ∧ slash ∉ c) ∧ c ≠ dot ∧ c ≠ dotDot

theorem route_normal {cwd a c : Bytes} (hc : c ∈ route cwd a) : c ≠ [] ∧ slash ∉ c := by
  unfold route at hc
  split at hc
  · exact mem_components hc
  · exact (mem_append.mp hc).elim mem_components mem_components

theorem pathPushSeg_normal (hsg : ∀ s ∈ segs, Normal s) (hc : c ≠ [] ∧ slash ∉ c) :
    ∀ s ∈ pathPushSeg segs c, Normal s := by
  rw [pathPushSeg_eq hc.1]
  intro s hs
  split at hs
  · exact hsg s hs
  split at hs
  · exact hsg s hs
  split at hs
  · exact hsg s (mem_of_mem_dropLast hs)
  rcases mem_append.mp hs with hs | hs
  · exact hsg s hs
  rw [mem_singleton.mp hs]
  refine ⟨⟨?_,fun hmem => hc.2 (mem_of_mem_take hmem)⟩,?_,?_⟩
  · rw [ne_eq,take_eq_iff (by decide)]
    exact hc.1
  · rwa [ne_eq,take_eq_iff (by decide)]
  · rwa [ne_eq,take_eq_iff (by decide)]

theorem foldl_normal (hcs : ∀ c ∈ cs, c ≠ [] ∧ slash ∉ c) (hs : ∀ s ∈ segs, Normal s) :
    ∀ s ∈ cs.foldl pathPushSeg segs, Normal s := by
  induction cs generalizing segs with
  | nil => exact hs
  | cons c cs ih =>
    exact ih (fun c' hc' => hcs c' (mem_cons_of_mem _ hc')) (pathPushSeg_normal hs (hcs c mem_cons_self))

theorem route_foldl_normal (cwd a : Bytes) : ∀ s ∈ (route cwd a).foldl pathPushSeg [], Normal s :=
  foldl_normal (fun _ hc => route_normal hc) (by simp)

theorem length_pathPushSeg (hc : c ≠ []) (segs : List Bytes) :
    (pathPushSeg segs c).length = descend segs.length c := by
  rw [pathPushSeg_eq hc,descend]
  split
  · rfl
  split
  · rfl
  · split
    · exact length_dropLast
    · simp

theorem length_foldl (hcs : ∀ c ∈ cs, c ≠ []) (segs : List Bytes) :
    (cs.foldl pathPushSeg segs).length = depth segs.length cs := by
  induction cs generalizing segs with
  | nil => rfl
  | cons c cs ih =>
    rw [foldl_cons,ih (fun c' hc' => hcs c' (mem_cons_of_mem _ hc')),
      length_pathPushSeg (hcs c mem_cons_self)]
    rfl

theorem head?_pathPushSeg (hc : c ≠ []) (hsg : segs ≠ []) (hs : pathPushSeg segs c ≠ []) :
    (pathPushSeg segs c).head? = segs.head? := by
  rw [pathPushSeg_eq hc] at hs ⊢
  revert hs
  split
  · exact fun _ => rfl
  split
  · exact fun _ => rfl
  split
  · intro hs
    rw [dropLast_eq_take,head?_take,if_neg]
    intro hz
    rw [dropLast_eq_take,hz] at hs
    exact hs rfl
  · exact fun _ => head?_append_of_ne_nil _ hsg

theorem head?_foldl {cs : List Bytes} (hcs : ∀ c ∈ cs, c ≠ []) {segs : List Bytes} (hsg : segs ≠ [])
    (hs : ∀ k, depth segs.length (cs.take k) ≠ 0) : (cs.foldl pathPushSeg segs).head? = segs.head? := by
  induction cs generalizing segs with
  | nil => rfl
  | cons c cs ih =>
    have hc := hcs c mem_cons_self
    have hlen := length_pathPushSeg hc segs
    have hn : pathPushSeg segs c ≠ [] := by
      rw [← length_pos_iff,hlen]
      exact Nat.pos_of_ne_zero (hs 1)
    rw [foldl_cons,ih (fun c' hc' => hcs c' (mem_cons_of_mem _ hc')) hn,head?_pathPushSeg hc hsg hn]
    intro k
    rw [hlen]
    exact hs (k+1)

theorem depth_enter {before : List Bytes} (hb : depth 0 before = 0)
    (hn : c ≠ dot ∧ c ≠ dotDot) (after : List Bytes) : depth 0 (before ++ c :: after) = depth 1 after := by
  have he : descend 0 c = 1 := by rw [descend,if_neg (by decide),if_neg hn.1,if_neg hn.2]
  unfold depth at hb ⊢
  rw [List.foldl_append,hb,foldl_cons,he]

theorem head?_foldl_iff (hcs : ∀ c ∈ cs, c ≠ []) (s : Bytes) : (cs.foldl pathPushSeg []).head? = some s ↔
    ∃ before c after, cs = before ++ c :: after ∧ depth 0 before = 0 ∧ (c ≠ dot ∧ c ≠ dotDot) ∧
      (∀ k, depth 1 (after.take k) ≠ 0) ∧ s = c.take (termPathSegLen-1) := by
  constructor
  · induction cs using reverseRecOn with
    | nil => exact fun h => absurd h (Option.some_ne_none s).symm
    | append_singleton cs c ih =>
      have hc := hcs c (by simp)
      have hcs' : ∀ c' ∈ cs, c' ≠ [] := fun c' hc' => hcs c' (mem_append_left _ hc')
      rw [List.foldl_append,foldl_cons,foldl_nil]
      intro h
      by_cases hr : cs.foldl pathPushSeg [] = []
      · have hdp := length_foldl hcs' []
        rw [hr] at h hdp
        rw [pathPushSeg_eq hc,if_neg (by decide)] at h
        split at h
        · cases h
        rename_i hdot
        split at h
        · cases h
        rename_i hd
        refine ⟨cs,c,[],rfl,hdp.symm,⟨hdot,hd⟩,fun k => ?_,(Option.some_inj.mp h).symm⟩
        rw [take_nil]
        exact one_ne_zero
      have hst : pathPushSeg (cs.foldl pathPushSeg []) c ≠ [] := by
        intro hnil
        rw [hnil] at h
        cases h
      rw [head?_pathPushSeg hc hr hst] at h
      obtain ⟨before,c₀,after,rfl,hb,hn,ha,hs⟩ := ih hcs' h
      refine ⟨before,c₀,after ++ [c],by simp,hb,hn,fun k => ?_,hs⟩
      rcases lt_or_ge after.length k with hk | hk
      · have hlen := length_foldl hcs []
        rw [append_assoc,cons_append,length_nil,depth_enter hb hn] at hlen
        rw [take_of_length_le (by rw [length_append]; exact hk),← hlen,← cons_append,
          ← append_assoc,List.foldl_append]
        exact length_eq_zero_iff.not.mpr hst
      · rw [take_append_of_le_length hk]
        exact ha k
  rintro ⟨before,c,after,rfl,hb,⟨hdot,hd⟩,ha,rfl⟩
  have hr : before.foldl pathPushSeg [] = [] := by
    rw [← length_eq_zero_iff,length_foldl (fun c' hc' => hcs c' (mem_append_left _ hc'))]
    exact hb
  have he : pathPushSeg [] c = [c.take (termPathSegLen-1)] := by
    rw [pathPushSeg_eq (hcs c (by simp)),if_neg (by decide),if_neg hdot,if_neg hd]
    rfl
  have hh := @head?_foldl after (fun c' hc' => hcs c' (by simp [hc'])) [c.take (termPathSegLen-1)] (by simp) ha
  rw [List.foldl_append,hr,foldl_cons,he,hh]
  rfl

theorem roots_short (hr : r ∈ roots) : r.length < termPathSegLen-1 ∧ slash ∉ r ∧ r ≠ [] := by
  revert r
  decide

theorem extends_take (c : Bytes) : Extends (c.take (termPathSegLen-1)) ↔ Extends c := by
  have hp : ∀ r ∈ roots, (r <+: c.take (termPathSegLen-1) ↔ r <+: c) := by
    intro r hr
    rw [prefix_take_iff]
    exact and_iff_left (le_of_lt (roots_short hr).1)
  have hmem : c.take (termPathSegLen-1) ∈ roots ↔ c ∈ roots := by
    constructor
    · intro h
      rwa [(take_eq_iff (roots_short h).1).mp rfl]
    · intro h
      rwa [(take_eq_iff (roots_short h).1).mpr rfl]
  unfold Extends
  rw [hmem]
  exact and_congr_left fun _ => exists_congr fun r => and_congr_right fun hr => hp r hr

theorem strays_iff (hcs : ∀ c ∈ cs, c ≠ []) :
    Strays cs ↔ ∃ s, (cs.foldl pathPushSeg []).head? = some s ∧ Extends s := by
  constructor
  · rintro ⟨before,c,after,hsp,hb,hext,ha⟩
    refine ⟨c.take (termPathSegLen-1),?_,(extends_take c).mpr hext⟩
    refine (head?_foldl_iff hcs _).mpr ⟨before,c,after,hsp,hb,?_,ha,rfl⟩
    obtain ⟨⟨r,hr,hp⟩,-⟩ := hext
    constructor
    · rintro rfl
      revert r
      decide
    · rintro rfl
      revert r
      decide
  · rintro ⟨s,hs,hext⟩
    obtain ⟨before,c,after,hsp,hb,-,ha,rfl⟩ := (head?_foldl_iff hcs s).mp hs
    exact ⟨before,c,after,hsp,hb,(extends_take c).mp hext,ha⟩

theorem prefix_append_iff {h rest : Bytes} (hr : slash ∉ r) (hrs : ∀ c ∈ rest.head?, c = slash) :
    r <+: h ++ rest ↔ r <+: h := by
  constructor
  · intro hp
    rcases prefix_or_prefix_of_prefix hp (prefix_append h rest) with hle | ⟨x,rfl⟩
    · exact hle
    rw [prefix_append_right_inj] at hp
    cases x with
    | nil => simp
    | cons y ys =>
      obtain ⟨more,rfl⟩ := hp
      have hy : y = slash := hrs y rfl
      exact absurd (by simp [hy]) hr
  · exact fun hp => hp.trans (prefix_append h rest)

theorem allowed_joined (hsg : ∀ s ∈ segs, Normal s) : termPathAllowed (joined slash segs) = true ↔
    segs = [] ∨ ∃ s, segs.head? = some s ∧ ∃ r ∈ roots, r <+: s := by
  cases segs with
  | nil => simp [joined,termPathAllowed]
  | cons s segs =>
    have hs := (hsg s mem_cons_self).1.1
    have hj : joined slash (s :: segs) = slash :: (s ++ segs.flatMap fun c => slash :: c) := rfl
    have hrs : ∀ c ∈ (segs.flatMap fun c => slash :: c).head?, c = slash := by
      cases segs with
      | nil | cons => simp
    have hl : joined slash (s :: segs) ≠ [slash] := by
      rw [hj]
      simp [hs]
    unfold termPathAllowed
    rw [if_neg (by rw [hj]; simp),if_neg hl,hj,any_eq_true]
    simp only [ isPrefixOf_iff_prefix,cons_prefix_cons,true_and,head?_cons,Option.some_inj,
      reduceCtorEq,false_or,exists_eq_left']
    exact exists_congr fun r => and_congr_right fun hr => prefix_append_iff (roots_short hr).2.1 hrs

theorem inSandbox_joined (hsg : ∀ s ∈ segs, Normal s) :
    InSandbox (joined slash segs) ↔ segs = [] ∨ ∃ r ∈ roots, segs.head? = some r := by
  unfold InSandbox
  rw [components_joined fun s hs => (hsg s hs).1]
  constructor
  · exact fun h => h.2.2
  · exact fun h => ⟨rfl,fun s hs => (hsg s hs).2,h⟩

theorem accepted_outside_iff (hs : ∀ s ∈ segs, Normal s) :
    (termPathAllowed (joined slash segs) = true ∧ ¬ InSandbox (joined slash segs)) ↔
      ∃ s, segs.head? = some s ∧ Extends s := by
  rw [allowed_joined hs,inSandbox_joined hs]
  cases segs with
  | nil => simp
  | cons s segs => simp [Extends]

theorem room_pathPushSeg (hc : c ≠ []) (segs : List Bytes) :
    room (pathPushSeg segs c) ≤ room segs+room [c] := by
  rw [pathPushSeg_eq hc]
  split
  · exact Nat.le_add_right _ _
  split
  · exact Nat.le_add_right _ _
  split
  · exact (room_sublist (dropLast_sublist segs)).trans (Nat.le_add_right _ _)
  · rw [room_append]
    simp only [room,map_singleton,sum_singleton,length_take]
    omega

theorem room_foldl (hcs : ∀ c ∈ cs, c ≠ []) (segs : List Bytes) :
    room (cs.foldl pathPushSeg segs) ≤ room segs+room cs := by
  induction cs generalizing segs with
  | nil => exact le_refl _
  | cons c cs ih =>
    have hone := room_pathPushSeg (hcs c mem_cons_self) segs
    have hr := ih (fun c' hc' => hcs c' (mem_cons_of_mem _ hc')) (pathPushSeg segs c)
    rw [← singleton_append,room_append]
    exact hr.trans (by omega)

theorem room_route (cwd a : Bytes) : room (route cwd a) ≤ cwd.length+a.length+2 := by
  have hcwd := @room_components _ _ slash cwd
  have ha := @room_components _ _ slash a
  unfold route
  split
  · omega
  · rw [room_append]
    omega

theorem cmdCd_home (ht : InSandbox t.cwd) (ha : skipWs args = []) : InSandbox (cmdCd t args).cwd ↔
    (termPathAllowed ((home t).take (termCwdLen-1)) = true → InSandbox ((home t).take (termCwdLen-1))) := by
  unfold cmdCd
  dsimp only
  rw [if_pos ha]
  dsimp only
  split
  · rename_i hal
    rw [take_take,min_self]
    exact (imp_iff_right hal).symm
  · rename_i hno
    exact ⟨fun _ hal => absurd hal hno,fun _ => ht⟩

theorem cmdCd_path (t : Terminal) (ha : skipWs args ≠ []) : (cmdCd t args).cwd =
      let segs := (route t.cwd (skipWs args)).foldl pathPushSeg []
      if room segs+1 ≤ termCwdLen ∧ termPathAllowed (joined slash segs) = true then joined slash segs else t.cwd := by
  unfold cmdCd
  dsimp only
  rw [if_neg ha,termPathResolve_eq,pathBuild_eq (by decide)]
  by_cases hr : room ((route t.cwd (skipWs args)).foldl pathPushSeg [])+1 ≤ termCwdLen
  · have hlen := @length_joined_le _ slash ((route t.cwd (skipWs args)).foldl pathPushSeg [])
    have hcap : 1 ≤ termCwdLen-1 := by decide
    rw [if_pos hr]
    dsimp only
    split
    · rename_i hal
      rw [if_pos ⟨hr,hal⟩,take_of_length_le (by omega)]
    · rename_i hno
      rw [if_neg fun h => hno h.2]
  · rw [if_neg hr,if_neg fun h => hr h.1]

theorem cmdCd_inSandbox (ht : InSandbox t.cwd) (ha : skipWs args ≠ [])
    (hs : ¬ Strays (route t.cwd (skipWs args))) : InSandbox (cmdCd t args).cwd := by
  have hn := route_foldl_normal t.cwd (skipWs args)
  rw [strays_iff fun c hc => (route_normal hc).1,← accepted_outside_iff hn] at hs
  rw [cmdCd_path t ha]
  dsimp only
  split
  · rename_i hg
    by_contra hout
    exact hs ⟨hg.2,hout⟩
  · exact ht

theorem cmdCd_strays (ha : skipWs args ≠ []) (hf : t.cwd.length+(skipWs args).length+3 ≤ termCwdLen)
    (hs : Strays (route t.cwd (skipWs args))) : ¬ InSandbox (cmdCd t args).cwd := by
  have hn := route_foldl_normal t.cwd (skipWs args)
  have hrt := room_route t.cwd (skipWs args)
  have hr := room_foldl (fun c hc => (@route_normal t.cwd (skipWs args) c hc).1) []
  rw [show room ([] : List Bytes) = 0 from rfl] at hr
  rw [strays_iff fun c hc => (route_normal hc).1,← accepted_outside_iff hn] at hs
  rw [cmdCd_path t ha]
  rw [if_pos ⟨by omega,hs.1⟩]
  exact hs.2

theorem cmdExport_iff (ht : InSandbox t.cwd) (args : Bytes) :
    InSandbox (cmdExport t args).cwd ↔ ∀ val, skipWs args = ascii "PWD=" ++ val → InSandbox (val.take (termCwdLen-1)) := by
  by_cases hpwd : ∃ val, skipWs args = ascii "PWD=" ++ val
  · obtain ⟨val,hval⟩ := hpwd
    have hcwd : (cmdExport t args).cwd = val.take (termCwdLen-1) := by
      unfold cmdExport
      rw [hval]
      rfl
    rw [hcwd,hval]
    simp
  have hcwd : (cmdExport t args).cwd = t.cwd := by
    unfold cmdExport
    dsimp only
    split
    · rfl
    have hs := takeWhile_append_dropWhile (p := fun c => decide (c ≠ (61 : UInt8))) (l := skipWs args)
    split
    · rfl
    rename_i c val hr
    split
    · rfl
    have hkey : ((skipWs args).takeWhile fun c => decide (c ≠ 61)) ≠ ascii "PWD" := by
      intro hkey
      have hc : c = 61 := by
        have hh := head?_dropWhile_not (fun c => decide (c ≠ (61 : UInt8))) (skipWs args)
        rw [hr] at hh
        simpa using hh
      rw [hkey,hr,hc] at hs
      exact hpwd ⟨val,hs.symm⟩
    exact if_neg hkey
  rw [hcwd]
  exact ⟨fun _ val hval => absurd ⟨val,hval⟩ hpwd,fun _ => ht⟩

def Fits (t : Terminal) (c : Command) : Prop :=
  ∀ args, c = .cd args → t.cwd.length+(skipWs args).length+3 ≤ termCwdLen

theorem runCommand_inSandbox (ht : InSandbox t.cwd) {c : Command} (hs : Stays t c) :
    InSandbox (runCommand t c).cwd := by
  cases c with
  | cd args =>
    by_cases ha : skipWs args = []
    · exact (cmdCd_home ht ha).mpr (hs.1 ha)
    · exact cmdCd_inSandbox ht ha (hs.2 ha)
  | exportVar args => exact (cmdExport_iff ht args).mpr hs
  | unsetVar args =>
    unfold runCommand cmdUnset
    dsimp only
    split
    · exact ht
    · exact ht
  | other => exact ht

theorem stays_of_inSandbox (ht : InSandbox t.cwd) {c : Command} (hf : Fits t c)
    (hn : InSandbox (runCommand t c).cwd) : Stays t c := by
  cases c with
  | cd args =>
    refine ⟨fun ha => (cmdCd_home ht ha).mp hn,fun ha hs => ?_⟩
    exact cmdCd_strays ha (hf args rfl) hs hn
  | exportVar args => exact (cmdExport_iff ht args).mp hn
  | unsetVar args | other => trivial

def StaysLine (t : Terminal) (cmd : CStr) : Prop := Stays t (commandOf cmd.bytes)

theorem terminal_sandbox_iff (cmds : List CStr) :
    (Along terminalExecuteCommand StaysLine terminalInit cmds → ∀ done rest, cmds = done ++ rest →
        InSandbox (run terminalExecuteCommand terminalInit done).cwd) ∧
      ∀ t cmd, InSandbox t.cwd → Fits t (commandOf cmd.bytes) →
        (InSandbox (terminalExecuteCommand t cmd).cwd ↔ StaysLine t cmd) := by
  constructor
  · intro hstays
    have hinit : InSandbox terminalInit.cwd := by decide
    have hstep : ∀ t cmd, InSandbox t.cwd → StaysLine t cmd → InSandbox (terminalExecuteCommand t cmd).cwd :=
      fun t cmd ht hcmd => runCommand_inSandbox ht hcmd
    exact @along_invariant _ _ terminalExecuteCommand StaysLine (fun t => InSandbox t.cwd) hstep _ _ hinit hstays
  · intro t cmd ht hfits
    exact ⟨stays_of_inSandbox ht hfits,runCommand_inSandbox ht⟩

def cdTmpfiles : CStr := .of (ascii "cd /tmpfiles")
def exportPwd : CStr := .of (ascii "export PWD=/etc")
def exportHome : CStr := .of (ascii "export HOME=/tmp/../etc")
def cdHome : CStr := .of (ascii "cd")

theorem sandbox_left :
    (run terminalExecuteCommand terminalInit [cdTmpfiles]).cwd = ascii "/tmpfiles" ∧ ¬ InSandbox (ascii "/tmpfiles") ∧
      (run terminalExecuteCommand terminalInit [exportPwd]).cwd = ascii "/etc" ∧ ¬ InSandbox (ascii "/etc") ∧
      (run terminalExecuteCommand terminalInit [exportHome,cdHome]).cwd = ascii "/tmp/../etc" ∧
      ¬ InSandbox (ascii "/tmp/../etc") := by
  decide

end AevOS.Term
