import AevOS.ArrayPrefix
import AevOS.BoundedHeap
import AevOS.Common

/-! The search graph of `agent/memory.c` (HNSW). Embeddings and their distance are arbitrary; the
neighbours of a node at a level are a list. -/

namespace AevOS.Hnsw
open ArrayPrefix BoundedHeap List

def hnswM : Nat := 16
def hnswM0 : Nat := 32
def hnswEfConstruct : Nat := 200
def hnswEfSearch : Nat := 50
abbrev hnswMaxLevel : Nat := 6

def maxConn (level : Nat) : Nat := if level = 0 then hnswM0 else hnswM

structure Node where
  id : Nat
  level : Nat
  neighbors : Nat → List Nat

structure Graph where
  nodes : Nat → Node
  count : Nat
  capacity : Nat
  maxLevel : Nat
  entryPoint : Nat

def hnswInit (capacity : Nat) : Graph := ⟨fun _ => ⟨0,0,fun _ => []⟩,0,capacity,0,0⟩

section
variable {D : Type} [LinearOrder D]

def improve (count : Nat) (dq : Nat → D) : List Nat → Nat × D × Bool → Nat × D × Bool
  | [], cur => cur
  | nid :: ns, cur =>
    if count ≤ nid then improve count dq ns cur
    else if dq nid < cur.2.1 then improve count dq ns (nid,dq nid,true)
    else improve count dq ns cur

theorem improve_cases (count : Nat) (dq : Nat → D) (ns : List Nat) (cur : Nat × D × Bool) :
    improve count dq ns cur = cur ∨
      ∃ nid ∈ ns, nid < count ∧ dq nid < cur.2.1 ∧ improve count dq ns cur = (nid,dq nid,true) := by
  induction ns generalizing cur with
  | nil => exact .inl rfl
  | cons nid ns ih =>
    rw [improve]
    split
    · rcases ih cur with hs | ⟨x,hx,hr⟩
      · exact .inl hs
      · exact .inr ⟨x,mem_cons_of_mem nid hx,hr⟩
    split
    · rename_i hd
      rcases ih (nid,dq nid,true) with hs | ⟨x,hx,hxlt,hxd,hr⟩
      · exact .inr ⟨nid,mem_cons_self,by omega,hd,hs⟩
      · exact .inr ⟨x,mem_cons_of_mem nid hx,hxlt,hxd.trans hd,hr⟩
    · rcases ih cur with hs | ⟨x,hx,hr⟩
      · exact .inl hs
      · exact .inr ⟨x,mem_cons_of_mem nid hx,hr⟩

def closer (count : Nat) (dq : Nat → D) (cur : Nat) : Finset Nat :=
  (Finset.range count).filter (fun x => dq x < dq cur)

theorem closer_card_lt {count : Nat} {dq : Nat → D} {cur x : Nat} (hx : x < count)
    (hd : dq x < dq cur) : (closer count dq x).card < (closer count dq cur).card := by
  apply Finset.card_lt_card
  refine ⟨?_,?_⟩
  · intro y hy
    rw [closer,Finset.mem_filter] at hy ⊢
    exact ⟨hy.1,hy.2.trans hd⟩
  intro hsub
  have hmem : x ∈ closer count dq cur := by
    rw [closer,Finset.mem_filter,Finset.mem_range]
    exact ⟨hx,hd⟩
  have hs := hsub hmem
  rw [closer,Finset.mem_filter] at hs
  exact lt_irrefl _ hs.2

def greedyLevel (g : Graph) (dq : Nat → D) (level cur : Nat) : Nat :=
  if _h : (improve g.count dq ((g.nodes cur).neighbors level) (cur,dq cur,false)).2.2 = true then
    greedyLevel g dq level (improve g.count dq ((g.nodes cur).neighbors level) (cur,dq cur,false)).1
  else cur
termination_by (closer g.count dq cur).card
decreasing_by
  rcases improve_cases g.count dq ((g.nodes cur).neighbors level) (cur,dq cur,false) with
    hsame | ⟨x,-,hx,hd,heq⟩
  · rw [hsame] at _h
    exact absurd _h Bool.false_ne_true
  · rw [heq]
    exact closer_card_lt hx hd

def descend (g : Graph) (dq : Nat → D) (low : Nat) : Nat → Nat → Nat
  | 0, cur => cur
  | l+1, cur => if low < l+1 then descend g dq low l (greedyLevel g dq (l+1) cur) else cur

structure Search (D : Type) where
  visited : Nat → Bool
  todo : List (Nat × D)
  candCount : Nat
  res : List (Nat × D)

def closerThanWorst (res : List (Nat × D)) (d : D) : Bool :=
  match res with
  | [] => false
  | w :: _ => decide (d < w.2)

def visit (count ef : Nat) (dq : Nat → D) (st : Search D) (nid : Nat) : Search D :=
  if count ≤ nid ∨ st.visited nid = true then st
  else
    let st := { st with visited := setAt st.visited nid true }
    if st.res.length < ef ∨ closerThanWorst st.res (dq nid) = true then
      let st := { st with res := pushMax ef st.res (nid,dq nid) }
      if st.candCount < ef*4 then
        { st with todo := st.todo ++ [(nid,dq nid)], candCount := st.candCount+1 }
      else st
    else st

theorem visit_slots (count ef : Nat) (dq : Nat → D) (st : Search D) (nid : Nat) :
    (visit count ef dq st nid).todo.length+(ef*4-(visit count ef dq st nid).candCount) =
      st.todo.length+(ef*4-st.candCount) := by
  rw [visit]
  split
  · rfl
  dsimp only
  split
  · split
    · rename_i hlt
      dsimp only at hlt ⊢
      rw [length_append,length_singleton]
      omega
    · rfl
  · rfl

theorem visits_slots (count ef : Nat) (dq : Nat → D) (ns : List Nat) (st : Search D) :
    (ns.foldl (visit count ef dq) st).todo.length + (ef*4-(ns.foldl (visit count ef dq) st).candCount) =
      st.todo.length+(ef*4-st.candCount) := by
  induction ns generalizing st with
  | nil => rfl
  | cons nid ns ih => rw [foldl_cons,ih,visit_slots]

def tooFar (ef : Nat) (res : List (Nat × D)) (d : D) : Bool :=
  decide (ef ≤ res.length) && match res with
    | [] => false
    | w :: _ => decide (w.2 < d)

def searchLoop (g : Graph) (dq : Nat → D) (level ef : Nat) (st : Search D) : List (Nat × D) :=
  match _h : pickMin st.todo with
  | none => st.res
  | some (cur,rest) =>
    if tooFar ef st.res cur.2 = true then st.res
    else
      searchLoop g dq level ef
        ((((g.nodes cur.1).neighbors level).take (maxConn level)).foldl (visit g.count ef dq)
          { st with todo := rest })
termination_by st.todo.length+(ef*4-st.candCount)
decreasing_by
  rw [visits_slots]
  have hlen := (pickMin_spec _h).1
  dsimp only
  omega

def hnswSearchLevel (g : Graph) (dq : Nat → D) (entry level ef : Nat) (granted : Bool) :
    List (Nat × D) :=
  if granted = true then
    searchLoop g dq level ef
      ⟨setAt (fun _ => false) entry true,[(entry,dq entry)],1,pushMax ef [] (entry,dq entry)⟩
  else []

section
variable {g : Graph} {dq : Nat → D} {level ef : Nat} {Q : Nat → Prop}

def Search.All (Q : Nat → Prop) (dq : Nat → D) (st : Search D) : Prop :=
  (∀ x ∈ st.todo, Q x.1 ∧ x.2 = dq x.1) ∧ ∀ x ∈ st.res, Q x.1 ∧ x.2 = dq x.1

theorem visit_all {st : Search D} (h : st.All Q dq) {nid : Nat} (hn : nid < g.count → Q nid) :
    (visit g.count ef dq st nid).All Q dq := by
  rw [visit]
  split
  · exact h
  have hQ : Q nid := hn (by omega)
  have hres : ∀ x ∈ pushMax ef st.res (nid,dq nid), Q x.1 ∧ x.2 = dq x.1 :=
    pushMax_forall h.2 ⟨hQ,rfl⟩
  dsimp only
  split
  · split
    · refine ⟨?_,hres⟩
      intro x hx
      rcases mem_append.mp hx with hx | hx
      · exact h.1 x hx
      · rw [mem_singleton.mp hx]
        exact ⟨hQ,rfl⟩
    · exact ⟨h.1,hres⟩
  · exact h

theorem visits_all {ns : List Nat} {st : Search D} (h : st.All Q dq)
    (hn : ∀ nid ∈ ns, nid < g.count → Q nid) : (ns.foldl (visit g.count ef dq) st).All Q dq := by
  induction ns generalizing st with
  | nil => exact h
  | cons nid ns ih =>
    rw [forall_mem_cons] at hn
    exact ih (visit_all h hn.1) hn.2

theorem searchLoop_all (hsp : ∀ u, Q u → ∀ nid ∈ (g.nodes u).neighbors level, nid < g.count → Q nid)
    {st : Search D} (h : st.All Q dq) : ∀ x ∈ searchLoop g dq level ef st, Q x.1 ∧ x.2 = dq x.1 := by
  induction st using searchLoop.induct g dq level ef with
  | case1 st hp =>
    rw [searchLoop]
    split
    · exact h.2
    · rename_i hs
      exact absurd (hp.symm.trans hs) (by simp)
  | case2 st cur rest hp hfar =>
    rw [searchLoop]
    split
    · exact h.2
    rename_i cur' rest' hs
    obtain ⟨rfl,rfl⟩ := Prod.mk.inj (Option.some.inj (hp.symm.trans hs))
    rw [if_pos hfar]
    exact h.2
  | case3 st cur rest hp hfar ih =>
    rw [searchLoop]
    split
    · exact h.2
    rename_i cur' rest' hs
    obtain ⟨rfl,rfl⟩ := Prod.mk.inj (Option.some.inj (hp.symm.trans hs))
    rw [if_neg hfar]
    obtain ⟨hcur,hr⟩ := (pickMin_spec hp).2 _ h.1
    have hst : Search.All Q dq { st with todo := rest } := ⟨hr,h.2⟩
    refine ih (visits_all hst ?_)
    exact fun nid hnid => hsp cur.1 hcur.1 nid (mem_of_mem_take hnid)

theorem hnswSearchLevel_all (dq : Nat → D) (ef : Nat) (granted : Bool)
    (hs : ∀ u, Q u → ∀ nid ∈ (g.nodes u).neighbors level, nid < g.count → Q nid) {entry : Nat}
    (he : Q entry) : ∀ x ∈ hnswSearchLevel g dq entry level ef granted, Q x.1 ∧ x.2 = dq x.1 := by
  rw [hnswSearchLevel]
  split
  · refine searchLoop_all hs ⟨?_,?_⟩
    · intro x hx
      rw [mem_singleton.mp hx]
      exact ⟨he,rfl⟩
    · exact pushMax_forall (fun x hx => absurd hx not_mem_nil) ⟨he,rfl⟩
  · exact fun x hx => absurd hx not_mem_nil

theorem greedyLevel_all (dq : Nat → D)
    (hs : ∀ u, Q u → ∀ nid ∈ (g.nodes u).neighbors level, nid < g.count → Q nid) {cur : Nat}
    (hcur : Q cur) : Q (greedyLevel g dq level cur) := by
  induction cur using greedyLevel.induct g dq level with
  | case1 cur himp ih =>
    rw [greedyLevel,dif_pos himp]
    refine ih ?_
    rcases improve_cases g.count dq ((g.nodes cur).neighbors level) (cur,dq cur,false) with
      hsm | ⟨x,hx,hlt,-,heq⟩
    · rw [hsm]
      exact hcur
    · rw [heq]
      exact hs cur hcur x hx hlt
  | case2 cur himp =>
    rw [greedyLevel,dif_neg himp]
    exact hcur

end

section
variable {E : Type} (dist : E → E → D)

def worstFrom (dn : Nat → D) (wi : Nat) (wd : D) (i : Nat) : List Nat → Nat × D
  | [] => (wi,wd)
  | n :: ns => if wd < dn n then worstFrom dn i (dn n) (i+1) ns else worstFrom dn wi wd (i+1) ns

def addTo (dn : Nat → D) (level neighborId : Nat) (ns : List Nat) : List Nat :=
  if neighborId ∈ ns then ns
  else if ns.length < maxConn level then ns ++ [neighborId]
  else
    match ns with
    | [] => []
    | n :: rest =>
      let w := worstFrom dn 0 (dn n) 1 rest
      if dn neighborId < w.2 then (n :: rest).set w.1 neighborId else n :: rest

def setNeighbors (g : Graph) (node level : Nat) (ns : List Nat) : Graph :=
  { g with
    nodes := setAt g.nodes node { g.nodes node with neighbors := setAt (g.nodes node).neighbors level ns } }

def hnswAddNeighbor (emb : Nat → E) (g : Graph) (nodeId neighborId level : Nat) : Graph :=
  setNeighbors g nodeId level
    (addTo (fun n => dist (emb nodeId) (emb n)) level neighborId ((g.nodes nodeId).neighbors level))

def link (emb : Nat → E) (nodeId level : Nat) (g : Graph) (p : Nat × D) : Graph :=
  hnswAddNeighbor dist emb (hnswAddNeighbor dist emb g nodeId p.1 level) p.1 nodeId level

structure Grants where
  neighbors : Bool
  level : Nat → Bool

def connectLevel (emb : Nat → E) (dq : Nat → D) (granted : Bool) (nodeId l : Nat) (g : Graph)
    (cur : Nat) : Graph × Nat :=
  let found := hnswSearchLevel g dq cur l hnswEfConstruct granted
  let toConnect := min found.length (maxConn l)
  let sorted := selectSort toConnect found
  ((sorted.take toConnect).foldl (link dist emb nodeId l) g, match sorted with
    | [] => cur
    | p :: _ => p.1)

def connectLevels (emb : Nat → E) (dq : Nat → D) (granted : Nat → Bool) (nodeId : Nat) :
    Nat → Graph → Nat → Graph
  | 0, g, cur => (connectLevel dist emb dq (granted 0) nodeId 0 g cur).1
  | l+1, g, cur =>
    let r := connectLevel dist emb dq (granted (l+1)) nodeId (l+1) g cur
    connectLevels emb dq granted nodeId l r.1 r.2

def writeNode (g : Graph) (nodeId nodeLevel : Nat) : Graph :=
  { g with nodes := setAt g.nodes nodeId ⟨nodeId,nodeLevel,fun _ => []⟩ }

def finishInsert (nodeId nodeLevel : Nat) (g : Graph) : Graph :=
  let g := if g.maxLevel < nodeLevel then
    { g with maxLevel := nodeLevel, entryPoint := nodeId } else g
  if g.count ≤ nodeId then { g with count := nodeId+1 } else g

def hnswInsert (emb : Nat → E) (grants : Grants) (g : Graph) (nodeId : Nat) (embedding : E)
    (nodeLevel : Nat) : Int × Graph :=
  if g.capacity ≤ nodeId then (-einval,g)
  else
    let g := writeNode g nodeId nodeLevel
    if g.count = 0 then
      (0,{ g with entryPoint := nodeId, maxLevel := nodeLevel, count := 1 })
    else
      let dq := fun x => dist embedding (emb x)
      let cur := descend g dq nodeLevel g.maxLevel g.entryPoint
      if grants.neighbors = true then
        (0,finishInsert nodeId nodeLevel
          (connectLevels dist emb dq grants.level nodeId (min nodeLevel g.maxLevel) g cur))
      else (-enomem,g)

def hnswSearch (g : Graph) (dq : Nat → D) (topK : Nat) (grantResults grantLevel : Bool) :
    List (Nat × D) :=
  if g.count = 0 then []
  else
    let cur := descend g dq 0 g.maxLevel g.entryPoint
    if grantResults = true then
      let found := hnswSearchLevel g dq cur 0 (max topK hnswEfSearch) grantLevel
      (selectSort found.length found).take (min found.length topK)
    else []

end

end

structure Linked (g : Graph) (n : Nat) : Prop where
  links : ∀ x, x < n → ∀ l, ∀ y ∈ (g.nodes x).neighbors l, y < n ∧ y ≠ x ∧ l ≤ (g.nodes y).level
  nodup : ∀ x, x < n → ∀ l, ((g.nodes x).neighbors l).Nodup
  bound : ∀ x, x < n → ∀ l, ((g.nodes x).neighbors l).length ≤ maxConn l

structure SameNodes (g g' : Graph) : Prop where
  count : g'.count = g.count
  capacity : g'.capacity = g.capacity
  maxLevel : g'.maxLevel = g.maxLevel
  entryPoint : g'.entryPoint = g.entryPoint
  level : ∀ x, (g'.nodes x).level = (g.nodes x).level

theorem SameNodes.refl (g : Graph) : SameNodes g g := ⟨rfl,rfl,rfl,rfl,fun _ => rfl⟩

variable {g g' : Graph} {l x cur nodeLevel capacity : Nat}

theorem SameNodes.trans {g1 g2 : Graph} (h1 : SameNodes g g1) (h2 : SameNodes g1 g2) : SameNodes g g2 :=
  ⟨h2.count.trans h1.count,h2.capacity.trans h1.capacity,h2.maxLevel.trans h1.maxLevel,
    h2.entryPoint.trans h1.entryPoint,fun x => (h2.level x).trans (h1.level x)⟩

section
variable {D : Type} [LinearOrder D]

variable {dn : Nat → D} {level nb : Nat} {ns : List Nat}

theorem addTo_mem {y : Nat} (h : y ∈ addTo dn level nb ns) : y ∈ ns ∨ y = nb := by
  unfold addTo at h
  split at h
  · exact .inl h
  split at h
  · rcases mem_append.mp h with hy | hy
    · exact .inl hy
    · exact .inr (mem_singleton.mp hy)
  cases ns with
  | nil => exact absurd h not_mem_nil
  | cons n rest =>
    dsimp only at h
    split at h
    · exact mem_or_eq_of_mem_set h
    · exact .inl h

theorem addTo_nodup (h : ns.Nodup) : (addTo dn level nb ns).Nodup := by
  unfold addTo
  split
  · exact h
  rename_i hnot
  split
  · rw [nodup_append]
    refine ⟨h,nodup_singleton nb,?_⟩
    intro x hx y hy hxy
    rw [mem_singleton.mp hy] at hxy
    exact hnot (hxy ▸ hx)
  cases ns with
  | nil => exact h
  | cons n rest =>
    dsimp only
    split
    · exact h.set hnot
    · exact h

theorem addTo_length (h : ns.length ≤ maxConn level) : (addTo dn level nb ns).length ≤ maxConn level := by
  unfold addTo
  split
  · exact h
  split
  · rw [length_append,length_singleton]
    omega
  cases ns with
  | nil => exact h
  | cons n rest =>
    dsimp only
    split
    · rw [length_set]
      exact h
    · exact h

variable {E : Type} {g : Graph} {n node : Nat}

section
variable (dist : E → E → D) (emb : Nat → E) (g : Graph) (node level : Nat) (ns : List Nat) (x : Nat)

theorem setNeighbors_level : ((setNeighbors g node level ns).nodes x).level = (g.nodes x).level := by
  rw [setNeighbors]
  refine setAt_field Node.level g.nodes node _ ?_ x
  rfl

theorem setNeighbors_list (l : Nat) : ((setNeighbors g node level ns).nodes x).neighbors l =
    if x = node ∧ l = level then ns else (g.nodes x).neighbors l := by
  rw [setNeighbors]
  dsimp only
  by_cases hx : x = node
  · rw [hx,setAt_self]
    dsimp only
    by_cases hl : l = level
    · rw [hl,setAt_self,if_pos ⟨rfl,rfl⟩]
    · rw [setAt_ne _ _ hl,if_neg (fun h => hl h.2)]
  · rw [setAt_ne _ _ hx,if_neg (fun h => hx h.1)]

theorem hnswAddNeighbor_same (nb level : Nat) : SameNodes g (hnswAddNeighbor dist emb g node nb level) :=
  ⟨rfl,rfl,rfl,rfl,setNeighbors_level g node level _⟩

theorem link_same (g : Graph) (p : Nat × D) : SameNodes g (link dist emb node level g p) :=
  (hnswAddNeighbor_same dist emb g node p.1 level).trans
    (hnswAddNeighbor_same dist emb _ p.1 node level)

end

section
variable (dist : E → E → D) (emb : Nat → E) (dq : Nat → D) (granted : Nat → Bool)

theorem links_same (node level : Nat) (ps : List (Nat × D)) (g : Graph) :
    SameNodes g (ps.foldl (link dist emb node level) g) := by
  induction ps generalizing g with
  | nil => exact SameNodes.refl g
  | cons p ps ih => exact (link_same dist emb node level g p).trans (ih _)

theorem connectLevels_same (node l : Nat) (g : Graph) (cur : Nat) :
    SameNodes g (connectLevels dist emb dq granted node l g cur) := by
  induction l generalizing g cur with
  | zero => exact links_same dist emb node 0 _ g
  | succ l ih => exact (links_same dist emb node (l+1) _ g).trans (ih _ _)

theorem Linked.addNeighbor (h : Linked g n) (hn : node < n) (hnb : nb < n) (hne : nb ≠ node)
    (hlv : level ≤ (g.nodes nb).level) : Linked (hnswAddNeighbor dist emb g node nb level) n := by
  have hl := setNeighbors_list g node level
    (addTo (fun m => dist (emb node) (emb m)) level nb ((g.nodes node).neighbors level))
  refine ⟨?_,?_,?_⟩
  · intro x hx l y hy
    rw [(hnswAddNeighbor_same dist emb g node nb level).level y]
    rw [hnswAddNeighbor,hl] at hy
    split at hy
    · rename_i heq
      obtain ⟨rfl,rfl⟩ := heq
      rcases addTo_mem hy with hold | rfl
      · exact h.links x hx l y hold
      · exact ⟨hnb,hne,hlv⟩
    · exact h.links x hx l y hy
  · intro x hx l
    rw [hnswAddNeighbor,hl]
    split
    · exact addTo_nodup (h.nodup node hn level)
    · exact h.nodup x hx l
  intro x hx l
  rw [hnswAddNeighbor,hl]
  split
  · rename_i heq
    rw [heq.2]
    exact addTo_length (h.bound node hn level)
  · exact h.bound x hx l

theorem Linked.link (h : Linked g n) (hn : node < n) {p : Nat × D} (hp : p.1 < n) (hne : p.1 ≠ node)
    (hl : level ≤ (g.nodes p.1).level) (hs : level ≤ (g.nodes node).level) :
    Linked (link dist emb node level g p) n := by
  refine (h.addNeighbor dist emb hn hp hne hl).addNeighbor dist emb hp hn (Ne.symm hne) ?_
  rw [(hnswAddNeighbor_same dist emb g node p.1 level).level]
  exact hs

theorem Linked.links_all (h : Linked g n) (hn : node < n) (hs : level ≤ (g.nodes node).level)
    (ps : List (Nat × D)) (hps : ∀ p ∈ ps, p.1 < n ∧ p.1 ≠ node ∧ level ≤ (g.nodes p.1).level) :
    Linked (ps.foldl (Hnsw.link dist emb node level) g) n := by
  induction ps generalizing g with
  | nil => exact h
  | cons p ps ih =>
    rw [forall_mem_cons] at hps
    obtain ⟨⟨hp,hne,hl⟩,hr⟩ := hps
    have hsm := link_same dist emb node level g p
    refine ih (h.link dist emb hn hp hne hl hs) ?_ ?_
    · rw [hsm.level]
      exact hs
    · intro q hq
      rw [hsm.level]
      exact hr q hq

def Reaches (g : Graph) (l x : Nat) : Prop := x < g.count ∧ l ≤ (g.nodes x).level

theorem Reaches.down {l x : Nat} (h : Reaches g (l+1) x) : Reaches g l x :=
  ⟨h.1,Nat.le_of_succ_le h.2⟩

theorem Reaches.same (h : Reaches g l x) (hs : SameNodes g g') : Reaches g' l x := by
  rw [Reaches,hs.count,hs.level]
  exact h

theorem Linked.reaches_step (h : Linked g n) (hc : g.count ≤ n) :
    ∀ u, Reaches g l u → ∀ nid ∈ (g.nodes u).neighbors l, nid < g.count → Reaches g l nid := by
  intro u hu nid hnid hlt
  exact ⟨hlt,(h.links u (hu.1.trans_le hc) l nid hnid).2.2⟩

theorem descend_reaches (low : Nat) (h : Linked g n) (hc : g.count ≤ n) (l : Nat)
    (hcur : Reaches g l cur) : Reaches g (min low l) (descend g dq low l cur) := by
  induction l generalizing cur with
  | zero =>
    rw [descend,Nat.min_zero]
    exact hcur
  | succ l ih =>
    rw [descend]
    split
    · have hr := ih (greedyLevel_all dq (h.reaches_step hc) hcur).down
      rw [min_eq_left (by omega)] at hr ⊢
      exact hr
    · exact ⟨hcur.1,(min_le_right _ _).trans hcur.2⟩

theorem connectLevel_linked (granted : Bool) (h : Linked g (g.count+1))
    (hsl : l ≤ (g.nodes g.count).level) (hcur : Reaches g l cur) :
    Linked (connectLevel dist emb dq granted g.count l g cur).1 (g.count+1) ∧
      Reaches g l (connectLevel dist emb dq granted g.count l g cur).2 := by
  have hf := hnswSearchLevel_all dq hnswEfConstruct granted (h.reaches_step (Nat.le_succ _)) hcur
  rw [connectLevel]
  dsimp only
  generalize hnswSearchLevel g dq cur l hnswEfConstruct granted = found at hf
  have hs := selectSort_forall (min found.length (maxConn l)) hf
  generalize selectSort (min found.length (maxConn l)) found = sorted at hs
  refine ⟨?_,?_⟩
  · refine h.links_all dist emb (Nat.lt_succ_self _) hsl _ ?_
    intro p hp
    have hr := (hs p (mem_of_mem_take hp)).1
    exact ⟨Nat.lt_succ_of_lt hr.1,ne_of_lt hr.1,hr.2⟩
  · cases sorted with
    | nil => exact hcur
    | cons p ps => exact (hs p mem_cons_self).1

theorem connectLevels_linked (l : Nat) (h : Linked g (g.count+1))
    (hs : l ≤ (g.nodes g.count).level) (hcur : Reaches g l cur) :
    Linked (connectLevels dist emb dq granted g.count l g cur) (g.count+1) := by
  induction l generalizing g cur with
  | zero => exact (connectLevel_linked dist emb dq (granted 0) h hs hcur).1
  | succ l ih =>
    obtain ⟨hl,hn⟩ := connectLevel_linked dist emb dq (granted (l+1)) h hs hcur
    have hsm : SameNodes g (connectLevel dist emb dq (granted (l+1)) g.count (l+1) g cur).1 :=
      links_same dist emb g.count (l+1) _ g
    rw [connectLevels]
    generalize connectLevel dist emb dq (granted (l+1)) g.count (l+1) g cur = r at *
    have hc := hsm.count
    rw [← hc] at hl hs ⊢
    refine ih hl ?_ (hn.down.same hsm)
    rw [hsm.level]
    exact Nat.le_of_succ_le hs

/-- Every link stays in the graph, and the entry point is on the highest level. -/
structure WellFormed (g : Graph) : Prop where
  linked : Linked g g.count
  entry : g.count ≠ 0 → g.entryPoint < g.count ∧ g.maxLevel = (g.nodes g.entryPoint).level ∧
    ∀ x, x < g.count → (g.nodes x).level ≤ (g.nodes g.entryPoint).level

theorem wellFormed_hnswInit (capacity : Nat) : WellFormed (hnswInit capacity) := by
  refine ⟨⟨?_,?_,?_⟩,fun h => absurd rfl h⟩
  · exact fun x hx => absurd hx (Nat.not_lt_zero x)
  · exact fun x hx => absurd hx (Nat.not_lt_zero x)
  · exact fun x hx => absurd hx (Nat.not_lt_zero x)

theorem writeNode_old (g : Graph) (nodeLevel : Nat) (hx : x < g.count) :
    (writeNode g g.count nodeLevel).nodes x = g.nodes x := setAt_ne _ _ (ne_of_lt hx)

theorem writeNode_new (g : Graph) (nodeLevel : Nat) :
    (writeNode g g.count nodeLevel).nodes g.count = ⟨g.count,nodeLevel,fun _ => []⟩ :=
  setAt_self _ _ _

theorem Linked.writeNode (h : Linked g g.count) (nodeLevel : Nat) :
    Linked (Hnsw.writeNode g g.count nodeLevel) (g.count+1) := by
  have hc : ∀ x, x < g.count+1 → x < g.count ∨ x = g.count := fun x hx => by omega
  refine ⟨?_,?_,?_⟩
  · intro x hx l y hy
    rcases hc x hx with hlt | rfl
    · rw [writeNode_old g nodeLevel hlt] at hy
      obtain ⟨hyc,hne,hl⟩ := h.links x hlt l y hy
      rw [writeNode_old g nodeLevel hyc]
      exact ⟨by omega,hne,hl⟩
    · rw [writeNode_new] at hy
      exact absurd hy not_mem_nil
  · intro x hx l
    rcases hc x hx with hlt | rfl
    · rw [writeNode_old g nodeLevel hlt]
      exact h.nodup x hlt l
    · rw [writeNode_new]
      exact nodup_nil
  intro x hx l
  rcases hc x hx with hlt | rfl
  · rw [writeNode_old g nodeLevel hlt]
    exact h.bound x hlt l
  · rw [writeNode_new]
    exact Nat.zero_le _

theorem entry_after {g' : Graph} {nodeLevel : Nat} (hw : WellFormed g) (hpos : g.count ≠ 0)
    (hc : g'.count = g.count+1)
    (hl : ∀ x, (g'.nodes x).level = ((writeNode g g.count nodeLevel).nodes x).level)
    (hbig : g.maxLevel < nodeLevel → g'.maxLevel = nodeLevel ∧ g'.entryPoint = g.count)
    (hs : ¬ g.maxLevel < nodeLevel → g'.maxLevel = g.maxLevel ∧ g'.entryPoint = g.entryPoint) :
    g'.entryPoint < g'.count ∧ g'.maxLevel = (g'.nodes g'.entryPoint).level ∧
      ∀ x, x < g'.count → (g'.nodes x).level ≤ (g'.nodes g'.entryPoint).level := by
  obtain ⟨hen,hmax,hall⟩ := hw.entry hpos
  have hnew : (g'.nodes g.count).level = nodeLevel := by rw [hl,writeNode_new]
  have hold : ∀ x, x < g.count → (g'.nodes x).level = (g.nodes x).level := by
    intro x hx
    rw [hl,writeNode_old g nodeLevel hx]
  have hcs : ∀ x, x < g'.count → x < g.count ∨ x = g.count := fun x hx => by omega
  by_cases hlt : g.maxLevel < nodeLevel
  · obtain ⟨hm,he⟩ := hbig hlt
    rw [he,hm,hnew,hc]
    refine ⟨Nat.lt_succ_self _,rfl,?_⟩
    intro x hx
    rcases hcs x (hc ▸ hx) with hxlt | rfl
    · rw [hold x hxlt]
      exact (hall x hxlt).trans (by omega)
    · exact hnew.le
  obtain ⟨hm,he⟩ := hs hlt
  rw [he,hm,hold _ hen,hc]
  refine ⟨by omega,hmax,?_⟩
  intro x hx
  rcases hcs x (hc ▸ hx) with hxlt | rfl
  · rw [hold x hxlt]
    exact hall x hxlt
  · rw [hnew]
    omega

theorem finishInsert_spec (g : Graph) (nodeLevel : Nat) :
    (finishInsert g.count nodeLevel g).count = g.count+1 ∧
      (finishInsert g.count nodeLevel g).capacity = g.capacity ∧
      (finishInsert g.count nodeLevel g).nodes = g.nodes ∧
      (g.maxLevel < nodeLevel → (finishInsert g.count nodeLevel g).maxLevel = nodeLevel ∧
        (finishInsert g.count nodeLevel g).entryPoint = g.count) ∧
      (¬ g.maxLevel < nodeLevel → (finishInsert g.count nodeLevel g).maxLevel = g.maxLevel ∧
        (finishInsert g.count nodeLevel g).entryPoint = g.entryPoint) := by
  rw [finishInsert]
  by_cases hlt : g.maxLevel < nodeLevel
  · simp [hlt]
  · simp [hlt]

theorem Linked.nodes_eq (h : Linked g n) (heq : g'.nodes = g.nodes) : Linked g' n := by
  refine ⟨?_,?_,?_⟩
  · rw [heq]
    exact h.links
  · rw [heq]
    exact h.nodup
  · rw [heq]
    exact h.bound

theorem WellFormed.finish (hw : WellFormed g) (hpos : g.count ≠ 0)
    (hl : Linked g' (g.count+1)) (hs : SameNodes (writeNode g g.count nodeLevel) g') :
    WellFormed (finishInsert g.count nodeLevel g') ∧
      (finishInsert g.count nodeLevel g').capacity = g.capacity ∧
      (finishInsert g.count nodeLevel g').count = g.count+1 := by
  have hc : g'.count = g.count := hs.count
  have hm : g'.maxLevel = g.maxLevel := hs.maxLevel
  have he : g'.entryPoint = g.entryPoint := hs.entryPoint
  have hcap : g'.capacity = g.capacity := hs.capacity
  have hsp := finishInsert_spec g' nodeLevel
  rw [hc,hm,he,hcap] at hsp
  obtain ⟨hcn,hcp,hn,hbig,hsm⟩ := hsp
  refine ⟨⟨?_,fun _ => ?_⟩,hcp,hcn⟩
  · rw [hcn]
    exact hl.nodes_eq hn
  · refine entry_after hw hpos hcn (fun x => ?_) hbig hsm
    rw [hn]
    exact hs.level x

theorem hnswInsert_next (hw : WellFormed g) (hcap : g.count < g.capacity) (embedding : E)
    (nodeLevel : Nat) : WellFormed (hnswInsert dist emb ⟨true,granted⟩ g g.count embedding nodeLevel).2 ∧
      (hnswInsert dist emb ⟨true,granted⟩ g g.count embedding nodeLevel).2.capacity = g.capacity ∧
      (hnswInsert dist emb ⟨true,granted⟩ g g.count embedding nodeLevel).2.count = g.count+1 := by
  have hn := hw.linked.writeNode nodeLevel
  have hnew := writeNode_new g nodeLevel
  have hc : (writeNode g g.count nodeLevel).count = g.count := rfl
  rw [hnswInsert,if_neg (Nat.not_le.mpr hcap)]
  dsimp only
  by_cases hz : g.count = 0
  · rw [if_pos (hc.trans hz)]
    dsimp only
    rw [hz] at hn hnew
    rw [hz]
    refine ⟨⟨⟨hn.links,hn.nodup,hn.bound⟩,?_⟩,rfl,rfl⟩
    intro _
    refine ⟨Nat.one_pos,(congrArg Node.level hnew).symm,?_⟩
    intro x hx
    obtain rfl : x = 0 := Nat.lt_one_iff.mp hx
    exact le_refl _
  rw [if_neg (fun h => hz (hc.symm.trans h)),if_pos rfl]
  obtain ⟨he,hmax,-⟩ := hw.entry hz
  have hs : Reaches (writeNode g g.count nodeLevel) g.maxLevel g.entryPoint := by
    refine ⟨he,?_⟩
    rw [writeNode_old g nodeLevel he,hmax]
  have hcur := descend_reaches (fun x => dist embedding (emb x)) nodeLevel hn
    (Nat.le_succ _) g.maxLevel hs
  have hl := connectLevels_linked dist emb (fun x => dist embedding (emb x)) granted
    (min nodeLevel g.maxLevel) hn (by rw [hc,hnew]; exact min_le_left _ _) hcur
  exact hw.finish hz hl (connectLevels_same dist emb _ granted _ _ _ _)

structure Fits (g : Graph) (capacity n : Nat) : Prop where
  capacity : g.capacity = capacity
  entry : g.count ≠ 0 → g.entryPoint < g.count
  started : g.count = 0 → n = 0

theorem fits_hnswInit (capacity : Nat) : Fits (hnswInit capacity) capacity 0 :=
  ⟨rfl,fun h => absurd rfl h,fun _ => rfl⟩

theorem finishInsert_entry (node nodeLevel : Nat) (h : g.entryPoint < g.count) :
    (finishInsert node nodeLevel g).capacity = g.capacity ∧
      (finishInsert node nodeLevel g).count = max g.count (node+1) ∧
      (finishInsert node nodeLevel g).entryPoint < max g.count (node+1) := by
  rw [finishInsert]
  split_ifs with h1 h2 h3
  · exact ⟨rfl,by dsimp only at h2 ⊢; omega,by dsimp only; omega⟩
  · exact ⟨rfl,by dsimp only at h2 ⊢; omega,by dsimp only; omega⟩
  · exact ⟨rfl,by dsimp only; omega,by dsimp only; omega⟩
  · exact ⟨rfl,by omega,by omega⟩

theorem Fits.insert (grants : Grants) (h : Fits g capacity n) (hn : n < capacity) (embedding : E)
    (nodeLevel : Nat) : Fits (hnswInsert dist emb grants g n embedding nodeLevel).2 capacity (n+1) ∧
      (hnswInsert dist emb grants g n embedding nodeLevel).2.count ≤ max g.count (n+1) := by
  have hcap := h.capacity
  have hcn : (writeNode g n nodeLevel).count = g.count := rfl
  rw [hnswInsert,if_neg (by omega)]
  dsimp only
  by_cases hz : g.count = 0
  · rw [if_pos (hcn.trans hz)]
    refine ⟨⟨hcap,fun _ => ?_,fun h1 => absurd h1 one_ne_zero⟩,?_⟩
    · show n < 1
      have hfr := h.started hz
      omega
    · show 1 ≤ max g.count (n+1)
      omega
  rw [if_neg (fun h0 => hz (hcn.symm.trans h0))]
  split
  · have hs := connectLevels_same dist emb (fun x => dist embedding (emb x)) grants.level n
      (min nodeLevel g.maxLevel) (writeNode g n nodeLevel)
      (descend (writeNode g n nodeLevel) (fun x => dist embedding (emb x)) nodeLevel g.maxLevel
        g.entryPoint)
    have hc' := hs.count.trans hcn
    obtain ⟨hc,hf,he⟩ := finishInsert_entry n nodeLevel
      (by rw [hs.entryPoint,hc']; exact h.entry hz)
    rw [hc'] at hf he
    refine ⟨⟨(hc.trans hs.capacity).trans hcap,fun _ => hf.symm ▸ he,?_⟩,hf.le⟩
    intro h0
    have hpos := hf.symm.trans h0
    omega
  · exact ⟨⟨hcap,h.entry,fun h0 => absurd h0 hz⟩,le_max_left _ _⟩

theorem descend_lt (low l : Nat) (hcur : cur < g.count) : descend g dq low l cur < g.count := by
  induction l generalizing cur with
  | zero => exact hcur
  | succ l ih =>
    rw [descend]
    split
    · exact ih (greedyLevel_all dq (fun _ _ _ _ hlt => hlt) hcur)
    · exact hcur

end

theorem Fits.search (h : Fits g capacity n) (dq : Nat → D) (topK : Nat) (grantResults grantLevel : Bool) :
    ∀ x ∈ hnswSearch g dq topK grantResults grantLevel, x.1 < g.count ∧ x.2 = dq x.1 := by
  intro x hx
  rw [hnswSearch] at hx
  split at hx
  · exact absurd hx not_mem_nil
  rename_i hpos
  have hcur := descend_lt dq 0 g.maxLevel (h.entry hpos)
  split at hx
  · have hf : ∀ y ∈ hnswSearchLevel g dq (descend g dq 0 g.maxLevel g.entryPoint) 0
        (max topK hnswEfSearch) grantLevel, y.1 < g.count ∧ y.2 = dq y.1 :=
      hnswSearchLevel_all dq _ grantLevel (fun _ _ _ _ hlt => hlt) hcur
    exact selectSort_forall _ hf x (mem_of_mem_take hx)
  · exact absurd hx not_mem_nil

end

structure Insertion (E : Type) where
  embedding : E
  emb : Nat → E
  level : Fin hnswMaxLevel

def insertAll {E D : Type} [LinearOrder D] (dist : E → E → D) :
    Nat → Graph → List (Insertion E) → Graph
  | _, g, [] => g
  | n, g, s :: ss =>
    insertAll dist (n+1) (hnswInsert dist s.emb ⟨true,fun _ => true⟩ g n s.embedding s.level).2 ss

section
variable {E D : Type} [LinearOrder D]

theorem WellFormed.insertAll {n : Nat} (hw : WellFormed g) (dist : E → E → D)
    (hn : g.count = min n g.capacity) (ss : List (Insertion E)) : WellFormed (insertAll dist n g ss) ∧
      (Hnsw.insertAll dist n g ss).count = min (n+ss.length) g.capacity := by
  induction ss generalizing g n with
  | nil => exact ⟨hw,hn⟩
  | cons s ss ih =>
    rw [Hnsw.insertAll,length_cons,show n+(ss.length+1) = n+1+ss.length by omega]
    rcases lt_or_ge n g.capacity with hlt | hge
    · obtain rfl : g.count = n := by omega
      obtain ⟨hnx,hcap,hc⟩ := hnswInsert_next dist s.emb (fun _ => true) hw hlt s.embedding s.level
      rw [← hcap]
      exact ih hnx (by omega)
    · rw [hnswInsert,if_pos hge]
      exact ih hw (show g.count = min (n+1) g.capacity by omega)

/-- Any insertions into a fresh graph keep it well formed, and fill it up to its capacity. -/
theorem insertAll_wellFormed (dist : E → E → D) (capacity : Nat) (ss : List (Insertion E)) :
    WellFormed (insertAll dist 0 (hnswInit capacity) ss) ∧
      (insertAll dist 0 (hnswInit capacity) ss).count = min ss.length capacity := by
  have h := (wellFormed_hnswInit capacity).insertAll dist (Nat.zero_min _).symm ss
  rwa [Nat.zero_add] at h

end

end AevOS.Hnsw
