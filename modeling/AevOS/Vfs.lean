import AevOS.NamedTree
import AevOS.Common
import AevOS.Runs

/-! The tree of `kernel/fs/vfs.c` without mounted drivers: walking a path, `vfs_mkdir` and
`vfs_open` with its descriptor table. -/

namespace AevOS.Vfs
open Wire ArrayPrefix

def nameMax : Nat := 128
def pathMax : Nat := 512
def maxOpenFiles : Nat := 256
def oCreate : UInt32 := 0x04
def oTrunc : UInt32 := 0x08

def dot : Bytes := [46]
def dotDot : Bytes := [46,46]

inductive NodeType where
  | file | dir | symlink | device
  deriving DecidableEq

structure Node where
  name : Bytes
  type : NodeType
  size : UInt64
  parent : Option Nat
  children : List Nat
  deriving DecidableEq

structure FdEntry where
  node : Option Nat
  flags : UInt32
  offset : UInt64
  inUse : Bool
  deriving DecidableEq

structure State where
  nodes : Nat → Node
  next : Nat
  fdTable : Nat → FdEntry

def root : Nat := 0
def rootNode : Node := ⟨[slash],.dir,0,none,[]⟩
def vfsInit : State := ⟨fun _ => rootNode,1,fun _ => ⟨none,0,0,false⟩⟩
def allocFd (v : State) : Option Nat := findFirst (fun e => !e.inUse) maxOpenFiles v.fdTable

def addNode (v : State) (name : Bytes) (type : NodeType) (parent : Nat) : State :=
  { v with
    nodes := setAt (setAt v.nodes v.next ⟨name.take (nameMax-1),type,0,some parent,[]⟩) parent
      { v.nodes parent with children := v.next :: (v.nodes parent).children }
    next := v.next+1 }

def findChild (v : State) (parent : Nat) (name : Bytes) : Option Nat :=
  (v.nodes parent).children.find? (fun c => decide ((v.nodes c).name = name))

def components (cur : Bytes) : Bytes → List Bytes
  | [] => if cur = [] then [] else [cur]
  | c :: path =>
    if c = slash then (if cur = [] then [] else [cur]) ++ components [] path
    else if cur.length = nameMax-1 then cur :: components [c] path
    else components (cur ++ [c]) path

def walk (v : State) : Nat → List Bytes → Option Nat
  | cur, [] => some cur
  | cur, comp :: comps =>
    if comp = dot then walk v cur comps
    else if comp = dotDot then walk v ((v.nodes cur).parent.getD cur) comps
    else
      match findChild v cur comp with
      | none => none
      | some child => walk v child comps

def vfsWalkPath (v : State) : Bytes → Option Nat
  | [] => none
  | c :: path => if c = slash then walk v root (components [] path) else none

def splitLast : Bytes → Option (Bytes × Bytes)
  | [] => none
  | c :: path =>
    match splitLast path with
    | some (before,after) => some (c :: before,after)
    | none => if c = slash then some ([],path) else none

def openCreate (v : State) (grant : Bool) (path : Bytes) : Except Int (Nat × State) :=
  match splitLast (path.take (pathMax-1)) with
  | none => .error (-einval)
  | some (parentPath,behind) =>
    if parentPath = [] then
      if grant = false then .error (-enomem)
      else .ok (v.next,addNode v ((path.drop 1).take (nameMax-1)) .file root)
    else
      match vfsWalkPath v parentPath with
      | none => .error (-enoent)
      | some parent =>
        if (v.nodes parent).type ≠ .dir then .error (-enoent)
        else if grant = false then .error (-enomem)
        else .ok (v.next,addNode v (behind.take (nameMax-1)) .file parent)

def openNode (v : State) (grant : Bool) (path : Bytes) (flags : UInt32) : Except Int (Nat × State) :=
  match vfsWalkPath v path with
  | some node => .ok (node,v)
  | none => if flags &&& oCreate ≠ 0 then openCreate v grant path else .error (-enoent)

def bindFd (v : State) (fd node : Nat) (flags : UInt32) : State :=
  { v with
    fdTable := setAt v.fdTable fd ⟨some node,flags,0,true⟩
    nodes := if flags &&& oTrunc ≠ 0 then setAt v.nodes node { v.nodes node with size := 0 } else v.nodes }

def vfsOpen (v : State) (grant : Bool) (path : Bytes) (flags : UInt32) : Int × State :=
  match openNode v grant path flags with
  | .error e => (e,v)
  | .ok (node,v) =>
    match allocFd v with
    | none => (-enomem,v)
    | some fd => (fd,bindFd v fd node flags)

def vfsMkdir (v : State) (grant : Bool) (path : Bytes) : Int × State :=
  if path.head? ≠ some slash then (-einval,v)
  else
    match vfsWalkPath v path with
    | some _ => (-eexist,v)
    | none =>
      match splitLast (path.take (pathMax-1)) with
      | none => (-einval,v)
      | some (parentPath,behind) =>
        let parent := if parentPath = [] then some root else vfsWalkPath v parentPath
        let dirname := if parentPath = [] then (path.drop 1).take (nameMax-1) else behind.take (nameMax-1)
        match parent with
        | none => (-enoent,v)
        | some parent =>
          if (v.nodes parent).type ≠ .dir then (-enoent,v)
          else if grant = false then (-enomem,v)
          else (0,addNode v dirname .dir parent)

def Place (v : State) (path : Bytes) (parent : Nat) (name : Bytes) : Prop :=
  ∃ parentPath behind, splitLast (path.take (pathMax-1)) = some (parentPath,behind) ∧
    (parentPath = [] ∧ parent = root ∧ name = (path.drop 1).take (nameMax-1) ∨
      parentPath ≠ [] ∧ vfsWalkPath v parentPath = some parent ∧ (v.nodes parent).type = .dir ∧
        name = behind.take (nameMax-1))

def Makes (v : State) (grant : Bool) (path : Bytes) (flags : UInt32) : Prop :=
  vfsWalkPath v path = none ∧ flags &&& oCreate ≠ 0 ∧ grant = true ∧ ∃ parent name, Place v path parent name

def FdsFull (v : State) : Prop := ∀ i < maxOpenFiles, (v.fdTable i).inUse = true

theorem allocFd_none {v : State} : allocFd v = none ↔ FdsFull v := by
  constructor
  · intro h i hi
    simpa using findFirst_none h (v.fdTable i) (mem_firsts.mpr ⟨i,hi,rfl⟩)
  intro h
  cases hf : allocFd v with
  | none => rfl
  | some i =>
    obtain ⟨hi,hfr,_⟩ := findFirst_some hf
    simp [h i hi] at hfr

@[simp] theorem allocFd_addNode (v : State) (name : Bytes) (type : NodeType) (parent : Nat) :
    allocFd (addNode v name type parent) = allocFd v := rfl

theorem openCreate_cases (v : State) (grant : Bool) (path : Bytes) :
    (∃ e : Int, e < 0 ∧ openCreate v grant path = .error e ∧
      ¬ (grant = true ∧ ∃ parent name, Place v path parent name)) ∨
    (∃ parent name, grant = true ∧ Place v path parent name ∧
      openCreate v grant path = .ok (v.next,addNode v name .file parent)) := by
  unfold openCreate Place
  cases hs : splitLast (path.take (pathMax-1)) with
  | none => exact .inl ⟨-einval,by decide,rfl,by simp⟩
  | some split =>
    obtain ⟨parentPath,behind⟩ := split
    dsimp only
    by_cases hp : parentPath = []
    · rw [if_pos hp]
      cases grant with
      | false => exact .inl ⟨-enomem,by decide,rfl,by simp⟩
      | true => exact .inr ⟨root,_,rfl,⟨parentPath,behind,rfl,.inl ⟨hp,rfl,rfl⟩⟩,rfl⟩
    rw [if_neg hp]
    cases hw : vfsWalkPath v parentPath with
    | none => exact .inl ⟨-enoent,by decide,rfl,by simp [hp,hw]⟩
    | some parent =>
      dsimp only
      by_cases ht : (v.nodes parent).type = .dir
      · rw [if_neg (not_not.mpr ht)]
        cases grant with
        | false => exact .inl ⟨-enomem,by decide,rfl,by simp⟩
        | true => exact .inr ⟨parent,_,rfl,⟨parentPath,behind,rfl,.inr ⟨hp,hw,ht,rfl⟩⟩,rfl⟩
      · rw [if_pos ht]
        exact .inl ⟨-enoent,by decide,rfl,by simp [hp,hw,ht]⟩

theorem openNode_cases (v : State) (grant : Bool) (path : Bytes) (flags : UInt32) :
    (¬ Makes v grant path flags ∧ ∃ e : Int, e < 0 ∧ openNode v grant path flags = .error e) ∨
    (¬ Makes v grant path flags ∧ ∃ node, vfsWalkPath v path = some node ∧ openNode v grant path flags = .ok (node,v)) ∨
    (Makes v grant path flags ∧ ∃ parent name, Place v path parent name ∧
      openNode v grant path flags = .ok (v.next,addNode v name .file parent)) := by
  unfold openNode Makes
  cases hw : vfsWalkPath v path with
  | some node => exact .inr (.inl ⟨by simp,node,rfl,rfl⟩)
  | none =>
    by_cases hf : flags &&& oCreate ≠ 0
    · rw [if_pos hf]
      rcases openCreate_cases v grant path with ⟨e,he,hc,hno⟩ | ⟨parent,name,hg,hp,hc⟩
      · exact .inl ⟨fun h => hno h.2.2,e,he,hc⟩
      · exact .inr (.inr ⟨⟨rfl,hf,hg,parent,name,hp⟩,parent,name,hp,hc⟩)
    · rw [if_neg hf]
      exact .inl ⟨fun h => hf h.2.1,-enoent,by decide,rfl⟩

theorem vfsOpen_failed_iff (v : State) (grant : Bool) (path : Bytes) (flags : UInt32) :
    ((vfsOpen v grant path flags).1 < 0 → (vfsOpen v grant path flags).2 = v) ↔
      ¬ (Makes v grant path flags ∧ FdsFull v) := by
  have hnonneg : ∀ fd : Nat, ¬ ((fd : Int) < 0) := fun fd => by omega
  unfold vfsOpen
  rcases openNode_cases v grant path flags with ⟨hno,e,he,ho⟩ | ⟨hno,node,_,ho⟩ | ⟨hmake,parent,name,_,ho⟩
  · simp [ho,hno]
  · rw [ho]
    dsimp only
    cases hfd : allocFd v with
    | none => simp [hno]
    | some fd => simp [hno,hnonneg]
  rw [ho]
  dsimp only
  rw [allocFd_addNode]
  cases hfd : allocFd v with
  | none =>
    simp only [hmake,allocFd_none.mp hfd,and_self,not_true_eq_false,iff_false]
    intro h
    have hnext := congrArg State.next (h (by decide))
    simp [addNode] at hnext
  | some fd =>
    have hfull : ¬ FdsFull v := fun h => by
      rw [allocFd_none.mpr h] at hfd
      cases hfd
    simp [hfull,hnonneg]

def fullTable : State := { vfsInit with fdTable := fun _ => ⟨some root,1,0,true⟩ }

theorem vfsOpen_leaves_node : (vfsOpen fullTable true [slash,97] oCreate).1 = -enomem ∧
    vfsWalkPath fullTable [slash,97] = none ∧
    vfsWalkPath (vfsOpen fullTable true [slash,97] oCreate).2 [slash,97] = some 1 ∧
    (vfsOpen fullTable true [slash,97] oCreate).2 ≠ fullTable := by
  refine ⟨by decide +kernel,by decide +kernel,by decide +kernel,fun h => ?_⟩
  have hfound := congrArg (vfsWalkPath · [slash,97]) h
  revert hfound
  decide +kernel

/-! Creation in the VFS tree. `vfs_mkdir` and `vfs_open` split a copy of 511 bytes at its last slash, while
`vfs_walk_path` reads components of at most 127 bytes. -/

open Runs List
open NamedTree (Move)

variable {s name : Bytes} {v u : State} {parent : Nat}

theorem splitLast_none (h : splitLast s = none) : slash ∉ s := by
  induction s with
  | nil => simp
  | cons c s ih =>
    unfold splitLast at h
    cases hs : splitLast s with
    | some split => simp [hs] at h
    | none =>
      have hc : c ≠ slash := by simpa [hs] using h
      simpa [ih hs] using hc.symm

theorem splitLast_some {before behind : Bytes} (h : splitLast s = some (before,behind)) :
    s = before ++ slash :: behind ∧ slash ∉ behind := by
  induction s generalizing before with
  | nil => simp [splitLast] at h
  | cons c s ih =>
    unfold splitLast at h
    cases hs : splitLast s with
    | some split =>
      obtain ⟨b,a⟩ := split
      obtain ⟨rfl,rfl⟩ : c :: b = before ∧ a = behind := by simpa [hs] using h
      obtain ⟨he,hno⟩ := ih hs
      exact ⟨by rw [he]; rfl,hno⟩
    | none =>
      obtain ⟨rfl,rfl,rfl⟩ : c = slash ∧ [] = before ∧ s = behind := by simpa [hs] using h
      exact ⟨rfl,splitLast_none hs⟩

theorem components_append_slash (cur before behind : Bytes) :
    components cur (before ++ slash :: behind) = components cur before ++ components [] behind := by
  induction before generalizing cur with
  | nil => simp [components]
  | cons c before ih =>
    simp only [cons_append,components,ih]
    split
    · rw [append_assoc]
    · split <;> rfl

theorem components_pieces (cur s : Bytes) (hcur : cur.length ≤ nameMax-1) (hs : slash ∉ s) (hne : cur ++ s ≠ []) :
    components cur s = (cur ++ s).take (nameMax-1) :: components [] ((cur ++ s).drop (nameMax-1)) := by
  induction s generalizing cur with
  | nil =>
    have hnil : cur ≠ [] := by simpa using hne
    simp [components,hnil,take_of_length_le hcur,drop_eq_nil_of_le hcur]
  | cons c s ih =>
    have hc : c ≠ slash := fun h => hs (by simp [h])
    have hs' : slash ∉ s := fun h => hs (mem_cons_of_mem _ h)
    rw [components,if_neg hc]
    by_cases hf : cur.length = nameMax-1
    · have hst : components [] (c :: s) = components [c] s := by
        rw [components,if_neg hc,if_neg (by decide),nil_append]
      rw [if_pos hf,← hf,take_left,drop_left,hst]
    have hlen : (cur ++ [c]).length ≤ nameMax-1 := by
      simp only [length_append,length_cons,length_nil]
      omega
    have happ : cur ++ c :: s = (cur ++ [c]) ++ s := by simp
    rw [if_neg hf,happ,ih _ hlen hs' (by simp)]

def lastComponent (path : Bytes) : Bytes :=
  match splitLast path with
  | some (_,behind) => behind
  | none => path

def Fits (path : Bytes) : Prop :=
  path.length < pathMax ∧
    ((lastComponent path).length < nameMax ∨ (lastComponent path).drop (nameMax-1) = dot)

theorem Place.lookup {path : Bytes} (h : Place v path parent name) (hlen : path.length < pathMax) :
    name = (lastComponent path).take (nameMax-1) ∧ slash ∉ lastComponent path ∧
      ∃ lead, walk v root lead = some parent ∧
        ∀ u : State, vfsWalkPath u path = walk u root (lead ++ components [] (lastComponent path)) := by
  obtain ⟨before,behind,hs,hp⟩ := h
  rw [take_of_length_le (by omega)] at hs
  have hl : lastComponent path = behind := by simp [lastComponent,hs]
  obtain ⟨rfl,hno⟩ := splitLast_some hs
  rw [hl]
  rcases hp with ⟨rfl,rfl,rfl⟩ | ⟨hne,hw,_,rfl⟩
  · exact ⟨rfl,hno,[],rfl,fun u => by simp [vfsWalkPath]⟩
  cases before with
  | nil => exact absurd rfl hne
  | cons c before =>
    have hc : c = slash := by
      by_contra hc
      simp [vfsWalkPath,hc] at hw
    subst hc
    refine ⟨rfl,hno,components [] before,by simpa [vfsWalkPath] using hw,fun u => ?_⟩
    simp [vfsWalkPath,components_append_slash]

def State.tree (v : State) : NamedTree.Tree Bytes where
  name i := (v.nodes i).name
  up i := (v.nodes i).parent
  kids i := (v.nodes i).children
  next := v.next

def move (comp : Bytes) : Move Bytes :=
  if comp = dot then .stay else if comp = dotDot then .up else .down comp

theorem walk_tree (v : State) (cur : Nat) (comps : List Bytes) :
    walk v cur comps = NamedTree.walk v.tree cur (comps.map move) := by
  induction comps generalizing cur with
  | nil => rfl
  | cons comp comps ih =>
    rw [walk,map_cons,move]
    split
    · exact ih cur
    split
    · exact ih _
    have hc : NamedTree.child v.tree cur comp = findChild v cur comp := rfl
    rw [NamedTree.walk,hc]
    cases findChild v cur comp with
    | none => rfl
    | some child => exact ih child

theorem walk_append (v : State) (cur : Nat) (comps comps' : List Bytes) :
    walk v cur (comps ++ comps') = (walk v cur comps).bind fun k => walk v k comps' := by
  simp only [walk_tree,map_append,NamedTree.walk_append]

theorem tree_addNode (v : State) (name : Bytes) (type : NodeType) (hp : parent < v.next) :
    (addNode v name type parent).tree = NamedTree.insert v.tree parent (name.take (nameMax-1)) := by
  have hne : parent ≠ v.next := ne_of_lt hp
  -- field by field, at the parent, at the new node and elsewhere
  have hf : ∀ i, (addNode v name type parent).tree.name i =
        (NamedTree.insert v.tree parent (name.take (nameMax-1))).name i ∧
      (addNode v name type parent).tree.up i = (NamedTree.insert v.tree parent (name.take (nameMax-1))).up i ∧
      (addNode v name type parent).tree.kids i = (NamedTree.insert v.tree parent (name.take (nameMax-1))).kids i := by
    intro i
    by_cases hip : i = parent
    · subst hip
      simp [State.tree,addNode,NamedTree.insert,setAt_ne _ _ hne]
    by_cases hin : i = v.next
    · subst hin
      simp [State.tree,addNode,NamedTree.insert,setAt_ne _ _ hip]
    · simp [State.tree,addNode,NamedTree.insert,setAt_ne _ _ hip,setAt_ne _ _ hin]
  exact NamedTree.Tree.ext (funext fun i => (hf i).1) (funext fun i => (hf i).2.1)
    (funext fun i => (hf i).2.2) rfl

theorem tree_bindFd (v : State) (fd node : Nat) (flags : UInt32) : (bindFd v fd node flags).tree = v.tree := by
  unfold bindFd
  split
  · have hn := setAt_field Node.name v.nodes node { v.nodes node with size := 0 } rfl
    have hup := setAt_field Node.parent v.nodes node { v.nodes node with size := 0 } rfl
    have hk := setAt_field Node.children v.nodes node { v.nodes node with size := 0 } rfl
    exact NamedTree.Tree.ext (funext hn) (funext hup) (funext hk) rfl
  · rfl

structure Standing (v : State) : Prop where
  sound : NamedTree.Sound v.tree
  root_lt : root < v.next

theorem standing_init : Standing vfsInit where
  sound := by constructor <;> simp [State.tree,vfsInit,rootNode]
  root_lt := by decide

theorem Standing.place_lt (h : Standing v) {path : Bytes} (hp : Place v path parent name) :
    parent < v.next := by
  obtain ⟨before,behind,_,⟨_,rfl,_⟩ | ⟨_,hw,_,_⟩⟩ := hp
  · exact h.root_lt
  cases before with
  | nil => simp [vfsWalkPath] at hw
  | cons c before =>
    rw [vfsWalkPath] at hw
    split at hw
    · rw [walk_tree] at hw
      exact h.sound.walk_lt h.root_lt hw
    · simp at hw

inductive Call where
  | mkdir (grant : Bool) (path : Bytes)
  | openPath (grant : Bool) (path : Bytes) (flags : UInt32)

def Call.path : Call → Bytes
  | .mkdir _ path => path
  | .openPath _ path _ => path

def call (v : State) : Call → Int × State
  | .mkdir grant path => vfsMkdir v grant path
  | .openPath grant path flags => vfsOpen v grant path flags

def code (v : State) (c : Call) : Int := (call v c).1
def step (v : State) (c : Call) : State := (call v c).2

def Call.Makes (v : State) : Call → Prop
  | .mkdir grant path => Vfs.Makes v grant path oCreate
  | .openPath grant path flags => Vfs.Makes v grant path flags

def Effect (v : State) (path : Bytes) (makes : Prop) (r : Int × State) : Prop :=
  (r.2.tree = v.tree ∧ (vfsWalkPath v path = none → r.1 < 0)) ∨
    (makes ∧ vfsWalkPath v path = none ∧ ∃ parent name type, Place v path parent name ∧
      r.2.tree = (addNode v name type parent).tree)

theorem vfsMkdir_effect (v : State) (grant : Bool) (path : Bytes) :
    Effect v path (Makes v grant path oCreate) (vfsMkdir v grant path) := by
  have hf : ∀ e : Int, e < 0 → Effect v path (Makes v grant path oCreate) (e,v) :=
    fun e he => .inl ⟨rfl,fun _ => he⟩
  unfold vfsMkdir
  split
  · exact hf _ (by decide)
  cases hw : vfsWalkPath v path with
  | some node => exact hf _ (by decide)
  | none =>
    dsimp only
    cases hs : splitLast (path.take (pathMax-1)) with
    | none => exact hf _ (by decide)
    | some split =>
      obtain ⟨before,behind⟩ := split
      dsimp only
      split
      · exact hf _ (by decide)
      rename_i parent hp
      split
      · exact hf _ (by decide)
      rename_i ht
      split
      · exact hf _ (by decide)
      rename_i hg
      have hpl : Place v path parent (if before = [] then (path.drop 1).take (nameMax-1)
          else behind.take (nameMax-1)) := by
        refine ⟨before,behind,hs,?_⟩
        by_cases hb : before = []
        · rw [if_pos hb] at hp ⊢
          exact .inl ⟨hb,(Option.some.inj hp).symm,rfl⟩
        · rw [if_neg hb] at hp ⊢
          exact .inr ⟨hb,hp,not_not.mp ht,rfl⟩
      have hm : Makes v grant path oCreate :=
        ⟨hw,by decide,Bool.eq_true_of_not_eq_false hg,parent,_,hpl⟩
      exact .inr ⟨hm,hw,parent,_,.dir,hpl,rfl⟩

theorem vfsOpen_effect (v : State) (grant : Bool) (path : Bytes) (flags : UInt32) :
    Effect v path (Makes v grant path flags) (vfsOpen v grant path flags) := by
  unfold vfsOpen
  rcases openNode_cases v grant path flags with ⟨_,e,he,ho⟩ | ⟨_,node,hw,ho⟩ | ⟨hm,parent,name,hp,ho⟩
  · rw [ho]
    exact .inl ⟨rfl,fun _ => he⟩
  · rw [ho]
    have hf : vfsWalkPath v path ≠ none := by simp [hw]
    dsimp only
    cases allocFd v with
    | none => exact .inl ⟨rfl,fun h => absurd h hf⟩
    | some fd => exact .inl ⟨tree_bindFd v fd node flags,fun h => absurd h hf⟩
  rw [ho]
  refine .inr ⟨hm,hm.1,parent,name,.file,hp,?_⟩
  dsimp only
  cases allocFd (addNode v name .file parent) with
  | none => rfl
  | some fd => exact tree_bindFd _ fd v.next flags

theorem call_effect (v : State) (c : Call) : Effect v c.path (c.Makes v) (call v c) := by
  cases c with
  | mkdir grant path => exact vfsMkdir_effect v grant path
  | openPath grant path flags => exact vfsOpen_effect v grant path flags

def UniqueNames (v : State) : Prop := ∀ i < v.next, ((v.nodes i).children.map fun k => (v.nodes k).name).Nodup

/-- Names stay unique; a new path is found, and the others stay where they were. -/
def Created (v : State) (c : Call) : Prop :=
  UniqueNames (step v c) ∧ (vfsWalkPath v c.path = none → 0 ≤ code v c →
      vfsWalkPath (step v c) c.path = some v.next ∧
        ∀ path node, vfsWalkPath v path = some node → vfsWalkPath (step v c) path = some node)

theorem piece_short {d : Bytes} (h : s.take (nameMax-1) = d) (hd : d.length < nameMax-1) : s = d := by
  have hlen := congrArg List.length h
  rw [length_take] at hlen
  rw [← h,take_of_length_le (by omega)]

theorem missing_down {last : Bytes} (hl : slash ∉ last) (hm : walk v parent (components [] last) = none) :
    components [] last = last.take (nameMax-1) :: components [] (last.drop (nameMax-1)) ∧
      move (last.take (nameMax-1)) = .down (last.take (nameMax-1)) := by
  have hne : last ≠ [] := by
    rintro rfl
    simp [components,walk] at hm
  refine ⟨components_pieces [] last (by decide) hl hne,?_⟩
  unfold move
  -- `.` and `..` are no missing paths
  split
  · rename_i h
    obtain rfl := piece_short h (by decide)
    cases hm
  split
  · rename_i _ h
    obtain rfl := piece_short h (by decide)
    cases hm
  · rfl

theorem tail_stays {t : NamedTree.Tree Bytes} (hp : parent < t.next) (name : Bytes) {tail : Bytes}
    (ht : slash ∉ tail) :
    NamedTree.walk (NamedTree.insert t parent name) t.next ((components [] tail).map move) = some t.next ↔
      tail = [] ∨ tail = dot := by
  constructor
  · intro h
    by_cases hnil : tail = []
    · exact .inl hnil
    have hpc : components [] tail = _ := components_pieces [] tail (by decide) ht hnil
    rw [hpc,map_cons,move] at h
    split at h
    · rename_i hdot
      exact .inr (piece_short hdot (by decide))
    split at h
    · rename_i _ hup
      obtain rfl := piece_short hup (by decide)
      have hw : NamedTree.walk (NamedTree.insert t parent name) t.next [.up] = some t.next := h
      rw [NamedTree.walk,NamedTree.up_insert_new] at hw
      have hs : parent = t.next := Option.some.inj hw
      omega
    · rw [NamedTree.walk,NamedTree.child_insert_new parent hp] at h
      cases h
  · rintro (rfl | rfl) <;> rfl

section
variable (h : Standing v)
include h

theorem Standing.free (hp : parent < v.next)
    (ht : u.tree = NamedTree.insert v.tree parent name) (hu : UniqueNames u) :
    NamedTree.child v.tree parent name = none := by
  have hd : ∀ i < u.tree.next, ((u.tree.kids i).map u.tree.name).Nodup := hu
  rw [ht] at hd
  exact h.sound.free_of_unique hp (hd parent (Nat.lt_succ_of_lt hp))

theorem Standing.put (hp : parent < v.next) (ht : u.tree = NamedTree.insert v.tree parent name)
    (hf : NamedTree.child v.tree parent name = none) : Standing u := by
  refine ⟨by rw [ht]; exact h.sound.insert hp hf,?_⟩
  have hn : u.next = v.next+1 := congrArg NamedTree.Tree.next ht
  have := h.root_lt
  omega

theorem Standing.walkPath_put (ht : u.tree = NamedTree.insert v.tree parent name)
    (hf : NamedTree.child v.tree parent name = none) {path : Bytes} {node : Nat}
    (hn : vfsWalkPath v path = some node) : vfsWalkPath u path = some node := by
  cases path with
  | nil => cases hn
  | cons c path =>
    rw [vfsWalkPath] at hn ⊢
    split at hn
    · rename_i hc
      rw [walk_tree] at hn
      rw [if_pos hc,walk_tree,ht]
      exact h.sound.walk_insert hf h.root_lt hn
    · cases hn

theorem Standing.uniqueNames : UniqueNames v := h.sound.unique

theorem Standing.created_iff {path : Bytes} (hlen : path.length < pathMax)
    (hm : vfsWalkPath v path = none) (hpl : Place v path parent name) {type : NodeType}
    (hu : u.tree = (addNode v name type parent).tree) : (UniqueNames u ∧ vfsWalkPath u path = some v.next ∧
        ∀ path node, vfsWalkPath v path = some node → vfsWalkPath u path = some node) ↔
      (lastComponent path).length < nameMax ∨ (lastComponent path).drop (nameMax-1) = dot := by
  have hp := h.place_lt hpl
  obtain ⟨hn,hs,lead,hl,hpt⟩ := hpl.lookup hlen
  have htr : u.tree = NamedTree.insert v.tree parent name := by
    rw [hu,tree_addNode v name type hp,hn,take_take,min_self]
  rw [hpt v,walk_append,hl,Option.bind_some] at hm
  obtain ⟨hc,hd⟩ := missing_down hs hm
  rw [← hn] at hc hd
  have hend : ∀ s : Bytes, s.length < nameMax ↔ s.drop (nameMax-1) = [] := fun s => by
    rw [drop_eq_nil_iff]
    exact Nat.lt_succ_iff
  have ht : slash ∉ (lastComponent path).drop (nameMax-1) := fun hmem => hs (mem_of_mem_drop hmem)
  -- under a free name the path leads to the new node, and from there on
  have hfn : NamedTree.child v.tree parent name = none → (vfsWalkPath u path = some v.next ↔
      (lastComponent path).drop (nameMax-1) = [] ∨ (lastComponent path).drop (nameMax-1) = dot) := by
    intro hf
    rw [walk_tree] at hl
    rw [hpt u,walk_tree,map_append,NamedTree.walk_append,htr,h.sound.walk_insert hf h.root_lt hl,
      Option.bind_some,hc,map_cons,hd,NamedTree.walk,NamedTree.child_insert_self,Option.bind_some]
    exact tail_stays hp name ht
  rw [hend]
  constructor
  · rintro ⟨hun,hnew,-⟩
    exact (hfn (h.free hp htr hun)).mp hnew
  intro hft
  have hf : NamedTree.child v.tree parent name = none := by
    rw [hc,walk_tree,map_cons,hd,NamedTree.walk] at hm
    cases hch : NamedTree.child v.tree parent name with
    | none => rfl
    | some k =>
      rw [hch] at hm
      rcases hft with ht | ht
      · rw [ht] at hm
        cases hm
      · rw [ht] at hm
        cases hm
  exact ⟨(h.put hp htr hf).uniqueNames,(hfn hf).mpr hft,fun _ _ hnd => h.walkPath_put htr hf hnd⟩

end

def Careful (v : State) (c : Call) : Prop := c.Makes v → Fits c.path

theorem Standing.of_tree (h : Standing v) (ht : u.tree = v.tree) : Standing u := by
  have hn : u.next = v.next := congrArg NamedTree.Tree.next ht
  exact ⟨by rw [ht]; exact h.sound,by rw [hn]; exact h.root_lt⟩

theorem Standing.step (h : Standing v) {c : Call} (hc : Careful v c) : Standing (step v c) ∧ Created v c := by
  rcases call_effect v c with ⟨ht,hf⟩ | ⟨hmk,hm,parent,name,type,hp,ht⟩
  · have hs : Standing (Vfs.step v c) := h.of_tree ht
    refine ⟨hs,hs.uniqueNames,fun hm hok => ?_⟩
    exact absurd (hf hm) (not_lt.mpr hok)
  obtain ⟨hlen,hft⟩ := hc hmk
  obtain ⟨hu,hnew,hk⟩ := (h.created_iff hlen hm hp ht).mpr hft
  have hi := ht.trans (tree_addNode v name type (h.place_lt hp))
  refine ⟨h.put (h.place_lt hp) hi (h.free (h.place_lt hp) hi hu),hu,fun _ _ => ?_⟩
  exact ⟨hnew,hk⟩

theorem vfs_creation_iff (calls : List Call) (hcalls : Along step Careful vfsInit calls) :
    (∀ done c rest, calls = done ++ c :: rest → Created (run step vfsInit done) c) ∧
    ∀ c : Call, c.path.length < pathMax → vfsWalkPath (run step vfsInit calls) c.path = none →
      0 ≤ code (run step vfsInit calls) c → (Created (run step vfsInit calls) c ↔ Fits c.path) := by
  have hkeep : ∀ v c, Standing v → Careful v c → Standing (step v c) := fun v c h hc => (h.step hc).1
  refine ⟨along_steps step hkeep (fun v c h hc => (h.step hc).2) standing_init hcalls,?_⟩
  intro c hlen hmiss hok
  have hstand := along_invariant step hkeep standing_init hcalls calls [] (append_nil calls).symm
  rcases call_effect (run step vfsInit calls) c with ⟨_,hfail⟩ | ⟨_,_,parent,name,type,hplace,htree⟩
  · exact absurd (hfail hmiss) (not_lt.mpr hok)
  have hiff := hstand.created_iff hlen hmiss hplace htree
  constructor
  · rintro ⟨hunique,hnew⟩
    exact ⟨hlen,hiff.mp ⟨hunique,hnew hmiss hok⟩⟩
  · rintro ⟨_,hfits⟩
    obtain ⟨hunique,hnew⟩ := hiff.mpr hfits
    exact ⟨hunique,fun _ _ => hnew⟩

def longPath : Bytes := slash :: List.replicate nameMax 97
def smallRun : List Call := [.mkdir true [slash,97],.openPath true [slash,97,slash,98] oCreate]

theorem vfs_creation_small : Created vfsInit (.mkdir true [slash,97]) ∧
    Created (run step vfsInit [.mkdir true [slash,97]]) (.openPath true [slash,97,slash,98] oCreate) ∧
    code (run step vfsInit [.mkdir true [slash,97]]) (.openPath true [slash,97,slash,98] oCreate) = 0 ∧
    (Created (run step vfsInit smallRun) (.mkdir true longPath) ↔ Fits longPath) := by
  have hcareful : Along step Careful vfsInit smallRun :=
    ⟨fun _ => ⟨by decide,.inl (by decide)⟩,fun _ => ⟨by decide,.inl (by decide)⟩,trivial⟩
  have hrun := vfs_creation_iff smallRun hcareful
  exact ⟨hrun.1 [] _ _ rfl,hrun.1 [_] _ _ rfl,by decide +kernel,
    hrun.2 _ (by decide +kernel) (by decide +kernel) (by decide +kernel)⟩

theorem longPath_made_twice : code vfsInit (.mkdir true longPath) = 0 ∧
    vfsWalkPath (step vfsInit (.mkdir true longPath)) longPath = none ∧
    code (step vfsInit (.mkdir true longPath)) (.mkdir true longPath) = 0 ∧
    ¬ UniqueNames (run step vfsInit [.mkdir true longPath,.mkdir true longPath]) :=
  ⟨by decide +kernel,by decide +kernel,by decide +kernel,
    fun h => absurd (h root (by decide +kernel)) (by decide +kernel)⟩

end AevOS.Vfs
