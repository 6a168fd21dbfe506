import AevOS.ArrayPrefix
import AevOS.OrderedAssoc
import AevOS.Common

/-! The B+ tree of `agent/hist_bptree.c`: nodes in a store, linked by names that are never handed out
twice. Every store into a node array is logged; the arrays have room for one transient key. -/

namespace AevOS.BpTree
open ArrayPrefix

def bpMax : Nat := 3

structure HistBpNode where
  isLeaf : Bool
  nkeys : Nat
  keys : Nat → Nat
  vals : Nat → Nat
  parent : Nat
  children : Nat → Nat
  next : Nat

inductive Field where
  | keys | vals | children
  deriving DecidableEq

structure Write where
  field : Field
  index : Nat
  deriving DecidableEq

structure NodeStore where
  node : Nat → HistBpNode
  fresh : Nat
  attempts : Nat
  writes : List Write

def NodeStore.modify (s : NodeStore) (p : Nat) (f : HistBpNode → HistBpNode) : NodeStore :=
  { s with node := setAt s.node p (f (s.node p)) }

def NodeStore.log (s : NodeStore) (w : Write) : NodeStore :=
  { s with writes := w :: s.writes }

def NodeStore.setKey (s : NodeStore) (p i k : Nat) : NodeStore :=
  (s.modify p (fun n => { n with keys := setAt n.keys i k })).log ⟨.keys,i⟩

def NodeStore.setVal (s : NodeStore) (p i v : Nat) : NodeStore :=
  (s.modify p (fun n => { n with vals := setAt n.vals i v })).log ⟨.vals,i⟩

def NodeStore.setChild (s : NodeStore) (p i c : Nat) : NodeStore :=
  (s.modify p (fun n => { n with children := setAt n.children i c })).log ⟨.children,i⟩

def NodeStore.setNkeys (s : NodeStore) (p m : Nat) : NodeStore :=
  s.modify p (fun n => { n with nkeys := m%256 })

def NodeStore.setParent (s : NodeStore) (p q : Nat) : NodeStore :=
  s.modify p (fun n => { n with parent := q })

def NodeStore.setNext (s : NodeStore) (p q : Nat) : NodeStore :=
  s.modify p (fun n => { n with next := q })

def zeroedNode (leaf : Bool) : HistBpNode :=
  ⟨leaf,0,fun _ => 0,fun _ => 0,0,fun _ => 0,0⟩

def nodeAlloc (grant : Nat → Bool) (leaf : Bool) (s : NodeStore) : Nat × NodeStore :=
  if grant s.attempts then
    (s.fresh,
      { s with
        node := setAt s.node s.fresh (zeroedNode leaf)
        fresh := s.fresh+1
        attempts := s.attempts+1 })
  else (0,{ s with attempts := s.attempts+1 })

structure HistBptree where
  root : Nat
  height : Nat
  store : NodeStore

def emptyStore : NodeStore := ⟨fun _ => zeroedNode false,1,0,[]⟩
def histBptInit : HistBptree := ⟨0,0,emptyStore⟩
def histBptDestroy (t : HistBptree) : HistBptree := { t with root := 0, height := 0 }
def histBptClear (t : HistBptree) : HistBptree := histBptDestroy t

def upperIndex (n : HistBpNode) (key i : Nat) : Nat :=
  if i < n.nkeys ∧ n.keys i ≤ key then upperIndex n key (i+1) else i
termination_by n.nkeys-i
decreasing_by omega

def leafSearch (s : NodeStore) (key : Nat) : Nat → Nat → Nat
  | 0, _ => 0
  | fuel+1, x =>
    if x = 0 ∨ (s.node x).isLeaf then x
    else leafSearch s key fuel ((s.node x).children (upperIndex (s.node x) key 0))

def leafShift (leaf key : Nat) : Nat → NodeStore → Nat × NodeStore
  | 0, s => (0,s)
  | i+1, s =>
    if key < (s.node leaf).keys i then
      leafShift leaf key i ((s.setKey leaf (i+1) ((s.node leaf).keys i)).setVal leaf (i+1)
        ((s.node leaf).vals i))
    else (i+1,s)

def leafInsertSorted (s : NodeStore) (leaf key val : Nat) : NodeStore :=
  let r := leafShift leaf key (s.node leaf).nkeys s
  (((r.2.setKey leaf r.1 key).setVal leaf r.1 val).setNkeys leaf ((s.node leaf).nkeys+1))

def internalShift (p pos : Nat) : Nat → NodeStore → NodeStore
  | 0, s => s
  | i+1, s =>
    if pos < i+1 then
      internalShift p pos i ((s.setKey p (i+1) ((s.node p).keys i)).setChild p (i+2)
        ((s.node p).children (i+1)))
    else s

def internalInsert (s : NodeStore) (p pos key newChild : Nat) : NodeStore :=
  let r := internalShift p pos (s.node p).nkeys s
  ((((r.setKey p pos key).setChild p (pos+1) newChild).setParent newChild p).setNkeys p
    ((s.node p).nkeys+1))

def copyEntry (leaf right mid : Nat) (s : NodeStore) (i : Nat) : NodeStore :=
  (s.setKey right i ((s.node leaf).keys (mid+i))).setVal right i ((s.node leaf).vals (mid+i))

def splitLeafNode (grant : Nat → Bool) (s : NodeStore) (leaf : Nat) : Nat × NodeStore :=
  let a := nodeAlloc grant true s
  if a.1 = 0 then a
  else
    let total := (s.node leaf).nkeys
    let mid := total/2
    let s := a.2.setNkeys a.1 (total-mid)
    let s := (List.range (total-mid)).foldl (copyEntry leaf a.1 mid) s
    let s := s.setNkeys leaf mid
    let s := s.setNext a.1 (s.node leaf).next
    let s := s.setNext leaf a.1
    (a.1,s.setParent a.1 (s.node leaf).parent)

def adoptChild (p right j i : Nat) (s : NodeStore) : NodeStore :=
  (s.setChild right j ((s.node p).children i)).setParent ((s.node p).children i) right

def moveSeparator (p right midk : Nat) (s : NodeStore) (j : Nat) : NodeStore :=
  adoptChild p right j (midk+1+j) (s.setKey right j ((s.node p).keys (midk+1+j)))

def splitInternalNode (grant : Nat → Bool) (s : NodeStore) (p : Nat) : Nat × Nat × NodeStore :=
  let nk := (s.node p).nkeys
  let midk := nk/2
  let promo := (s.node p).keys midk
  let a := nodeAlloc grant false s
  if a.1 = 0 then (promo,a)
  else
    let rn := nk-midk-1
    let s := a.2.setNkeys a.1 rn
    let s := (List.range rn).foldl (moveSeparator p a.1 midk) s
    let s := adoptChild p a.1 rn nk s
    let s := s.setParent a.1 (s.node p).parent
    (promo,a.1,s.setNkeys p midk)

def growRoot (grant : Nat → Bool) (t : HistBptree) (s : NodeStore)
    (left sep newR : Nat) : Int × HistBptree :=
  let a := nodeAlloc grant false s
  if a.1 = 0 then (-enomem,{ t with store := a.2 })
  else
    let s := (a.2.setKey a.1 0 sep).setChild a.1 0 left
    let s := (s.setChild a.1 1 newR).setNkeys a.1 1
    let s := (s.setParent left a.1).setParent newR a.1
    (0,⟨a.1,(t.height+1)%2^32,s⟩)

def insertUp (grant : Nat → Bool) (t : HistBptree) :
    Nat → NodeStore → Nat → Nat → Nat → Nat → Int × HistBptree
  | 0, s, _, _, _, _ => (-einval,{ t with store := s })
  | fuel+1, s, left, sep, newR, parent =>
    if parent = 0 then growRoot grant t s left sep newR
    else
      let pos := upperIndex (s.node parent) sep 0
      if (s.node parent).nkeys < bpMax then
        (0,{ t with store := internalInsert s parent pos sep newR })
      else
        let r := splitInternalNode grant (internalInsert s parent pos sep newR) parent
        if r.2.1 = 0 then (-enomem,{ t with store := r.2.2 })
        else insertUp grant t fuel r.2.2 parent r.1 r.2.1 (r.2.2.node parent).parent

def findKey (n : HistBpNode) (key : Nat) : Option Nat :=
  (List.range n.nkeys).find? (fun i => n.keys i = key)

def histBptInsert (grant : Nat → Bool) (t : HistBptree) (seq ringIdx : Nat) : Int × HistBptree :=
  if t.root = 0 then
    let a := nodeAlloc grant true t.store
    if a.1 = 0 then (-enomem,{ t with store := a.2 })
    else
      let s := ((a.2.setKey a.1 0 seq).setVal a.1 0 ringIdx).setNkeys a.1 1
      (0,⟨a.1,1,s⟩)
  else
    let leaf := leafSearch t.store seq t.store.fresh t.root
    if leaf = 0 then (-einval,t)
    else
      match findKey (t.store.node leaf) seq with
      | some i => (0,{ t with store := t.store.setVal leaf i ringIdx })
      | none =>
        let s := leafInsertSorted t.store leaf seq ringIdx
        if (t.store.node leaf).nkeys < bpMax then (0,{ t with store := s })
        else
          let r := splitLeafNode grant s leaf
          if r.1 = 0 then (-enomem,{ t with store := r.2 })
          else
            insertUp grant t r.2.fresh r.2 leaf ((r.2.node r.1).keys 0) r.1 (r.2.node leaf).parent

def leftmostLeaf (s : NodeStore) : Nat → Nat → Nat
  | 0, _ => 0
  | fuel+1, r =>
    if r = 0 ∨ (s.node r).isLeaf then r else leftmostLeaf s fuel ((s.node r).children 0)

def scanLeaf (n : HistBpNode) (minSeq maxOut : Nat) (out : List Nat) : List Nat :=
  (List.range n.nkeys).foldl (fun out i =>
    if minSeq ≤ n.keys i ∧ out.length < maxOut then out ++ [n.vals i] else out) out

def scanChain (s : NodeStore) (minSeq maxOut : Nat) : Nat → Nat → List Nat → List Nat
  | 0, _, out => out
  | fuel+1, l, out =>
    if l = 0 then out
    else scanChain s minSeq maxOut fuel (s.node l).next
      (scanLeaf (s.node l) minSeq maxOut out)

def histBptRangeFromSeq (t : HistBptree) (minSeq maxOut : Nat) : List Nat :=
  if t.root = 0 ∨ maxOut = 0 then []
  else scanChain t.store minSeq maxOut t.store.fresh
    (leftmostLeaf t.store t.store.fresh t.root) []

open OrderedAssoc List

section
variable (s : NodeStore) (p i m q k v c : Nat)

@[simp] theorem setKey_node : (s.setKey p i k).node =
      setAt s.node p { s.node p with keys := setAt (s.node p).keys i k } := rfl

@[simp] theorem setVal_node : (s.setVal p i v).node =
      setAt s.node p { s.node p with vals := setAt (s.node p).vals i v } := rfl

@[simp] theorem setChild_node : (s.setChild p i c).node =
      setAt s.node p { s.node p with children := setAt (s.node p).children i c } := rfl

@[simp] theorem setNkeys_node :
    (s.setNkeys p m).node = setAt s.node p { s.node p with nkeys := m%256 } := rfl

@[simp] theorem setParent_node :
    (s.setParent p q).node = setAt s.node p { s.node p with parent := q } := rfl

@[simp] theorem setNext_node : (s.setNext p q).node = setAt s.node p { s.node p with next := q } := rfl

@[simp] theorem setKey_fresh : (s.setKey p i k).fresh = s.fresh := rfl
@[simp] theorem setVal_fresh : (s.setVal p i v).fresh = s.fresh := rfl
@[simp] theorem setChild_fresh : (s.setChild p i c).fresh = s.fresh := rfl
@[simp] theorem setNkeys_fresh : (s.setNkeys p m).fresh = s.fresh := rfl
@[simp] theorem setParent_fresh : (s.setParent p q).fresh = s.fresh := rfl
@[simp] theorem setNext_fresh : (s.setNext p q).fresh = s.fresh := rfl

end

def HistBpNode.entries (n : HistBpNode) : List (Nat × Nat) :=
  firsts (fun i => (n.keys i,n.vals i)) n.nkeys

def HistBpNode.low (n : HistBpNode) (lo : Nat) : Nat → Nat
  | 0 => lo
  | i+1 => n.keys i

def HistBpNode.kids (n : HistBpNode) (lo : Nat) : List (Nat × Nat) :=
  firsts (fun i => (n.low lo i,n.children i)) (n.nkeys+1)

theorem upperIndex_spec (n : HistBpNode) (key i : Nat) (hi : i ≤ n.nkeys) (hb : ∀ j, j < i → n.keys j ≤ key) :
    upperIndex n key i ≤ n.nkeys ∧ (∀ j, j < upperIndex n key i → n.keys j ≤ key) ∧
      (upperIndex n key i < n.nkeys → key < n.keys (upperIndex n key i)) := by
  fun_induction upperIndex n key i with
  | case1 i hc ih =>
    apply ih (by omega)
    intro j hj
    by_cases he : j = i
    · rw [he]
      exact hc.2
    · exact hb j (by omega)
  | case2 i hc =>
    refine ⟨hi,hb,fun hlt => ?_⟩
    by_contra hle
    exact hc ⟨hlt,by omega⟩

def shifted {α : Type} (f : Nat → α) (pos i : Nat) : Nat → α :=
  fun j => if pos < j ∧ j ≤ i then f (j-1) else f j

variable {pos i p midk : Nat} {grant : Nat → Bool} {s s0 : NodeStore}

theorem shifted_below {α : Type} (f : Nat → α) {j : Nat} (h : j ≤ pos) :
    shifted f pos i j = f j := if_neg (by omega)

theorem shifted_above {α : Type} (f : Nat → α) {j : Nat} (h1 : pos ≤ j) (h2 : j < i) :
    shifted f pos i (j+1) = f j := if_pos (by omega)

theorem shifted_setAt {α : Type} (f : Nat → α) (h : pos ≤ i) :
    shifted (setAt f (i+1) (f i)) pos i = shifted f pos (i+1) := by
  funext j
  simp only [shifted,setAt]
  grind

section
variable (leaf key i : Nat) (s : NodeStore)

theorem shifted_self {α : Type} (f : Nat → α) (i : Nat) : shifted f i i = f :=
  funext fun _ => if_neg (by omega)

theorem leafShift_le : (leafShift leaf key i s).1 ≤ i := by
  induction i generalizing s with
  | zero => exact le_refl 0
  | succ i ih =>
    unfold leafShift
    split
    · exact Nat.le_succ_of_le (ih _)
    · exact le_refl _

@[simp] theorem leafShift_fresh : (leafShift leaf key i s).2.fresh = s.fresh := by
  induction i generalizing s with
  | zero => rfl
  | succ i ih =>
    unfold leafShift
    split
    · rw [ih]
      rfl
    · rfl

theorem leafShift_node : (leafShift leaf key i s).2.node = setAt s.node leaf
      { s.node leaf with
        keys := shifted (s.node leaf).keys (leafShift leaf key i s).1 i
        vals := shifted (s.node leaf).vals (leafShift leaf key i s).1 i } := by
  induction i generalizing s with
  | zero => simp [leafShift,shifted_self]
  | succ i ih =>
    unfold leafShift
    split
    · rw [ih]
      simp [shifted_setAt,leafShift_le]
    · simp [shifted_self]

theorem leafShift_bounds : (∀ j, (leafShift leaf key i s).1 ≤ j → j < i → key < (s.node leaf).keys j) ∧
    (0 < (leafShift leaf key i s).1 → (s.node leaf).keys ((leafShift leaf key i s).1-1) ≤ key) := by
  induction i generalizing s with
  | zero => simp [leafShift]
  | succ i ih =>
    unfold leafShift
    split
    · have hle := leafShift_le leaf key i
        ((s.setKey leaf (i+1) ((s.node leaf).keys i)).setVal leaf (i+1) ((s.node leaf).vals i))
      generalize hs : NodeStore.setVal _ _ _ _ = s' at hle ⊢
      have hk : ∀ j, j ≤ i → (s'.node leaf).keys j = (s.node leaf).keys j := by
        intro j hj
        have hne : j ≠ i+1 := by omega
        simp [← hs,hne]
      obtain ⟨h1,h2⟩ := ih s'
      constructor
      · intro j hj hji
        by_cases he : j = i
        · rwa [he]
        · rw [← hk j (by omega)]
          exact h1 j hj (by omega)
      · intro hpos
        rw [← hk _ (by omega)]
        exact h2 hpos
    · rename_i hge
      exact ⟨fun j h1 h2 => by omega,fun _ => by simpa using hge⟩

end

section
variable (s : NodeStore) (p leaf key val : Nat)

theorem leafInsertSorted_node (hn : (s.node leaf).nkeys < 255) :
    (leafInsertSorted s leaf key val).node = setAt s.node leaf { s.node leaf with
      nkeys := (s.node leaf).nkeys+1
      keys := setAt (shifted (s.node leaf).keys (leafShift leaf key (s.node leaf).nkeys s).1
        (s.node leaf).nkeys) (leafShift leaf key (s.node leaf).nkeys s).1 key
      vals := setAt (shifted (s.node leaf).vals (leafShift leaf key (s.node leaf).nkeys s).1
        (s.node leaf).nkeys) (leafShift leaf key (s.node leaf).nkeys s).1 val } := by
  have hm : ((s.node leaf).nkeys+1)%256 = (s.node leaf).nkeys+1 := by omega
  simp [leafInsertSorted,leafShift_node,hm]

theorem leafInsertSorted_other {q : Nat} (hq : q ≠ leaf) :
    (leafInsertSorted s leaf key val).node q = s.node q := by
  simp [leafInsertSorted,leafShift_node,hq]

@[simp] theorem leafInsertSorted_fresh : (leafInsertSorted s leaf key val).fresh = s.fresh := by
  simp [leafInsertSorted]

theorem leafInsertSorted_leaf (hn : (s.node leaf).nkeys < 255) :
    ((leafInsertSorted s leaf key val).node leaf).isLeaf = (s.node leaf).isLeaf ∧
      ((leafInsertSorted s leaf key val).node leaf).nkeys = (s.node leaf).nkeys+1 ∧
      ((leafInsertSorted s leaf key val).node leaf).parent = (s.node leaf).parent ∧
      ((leafInsertSorted s leaf key val).node leaf).next = (s.node leaf).next := by
  simp [leafInsertSorted_node s leaf key val hn]

theorem leafInsertSorted_entries (hn : (s.node leaf).nkeys < 255)
    (hasc : Ascending (s.node leaf).entries) (hnew : ∀ e ∈ (s.node leaf).entries, e.1 ≠ key) :
    ((leafInsertSorted s leaf key val).node leaf).entries = insertPair key val (s.node leaf).entries := by
  have hle := leafShift_le leaf key (s.node leaf).nkeys s
  obtain ⟨hh,hlow⟩ := leafShift_bounds leaf key (s.node leaf).nkeys s
  rw [leafInsertSorted_node s leaf key val hn,setAt_self]
  generalize (leafShift leaf key (s.node leaf).nkeys s).1 = pos at *
  generalize s.node leaf = n at *
  have hb : ∀ j, j < pos → n.keys j < key := by
    intro j hj
    have hl := hlow (by omega)
    have hne : n.keys j ≠ key := hnew _ (mem_firsts.mpr ⟨j,by omega,rfl⟩)
    by_cases he : j = pos-1
    · rw [← he] at hl
      omega
    have hlt : n.keys j < n.keys (pos-1) := pairwise_firsts.mp hasc j _ (by omega) (by omega)
    omega
  have hs : n.entries = firsts (fun i => (n.keys i,n.vals i)) pos ++
      ([] ++ firsts (fun i => (n.keys (pos+i),n.vals (pos+i))) (n.nkeys-pos)) := by
    rw [nil_append,← firsts_add,Nat.add_sub_cancel' hle]
    rfl
  rw [hs,insertPair_append]
  · apply firsts_insert (key,val) hle
    · intro i hi
      have hne : i ≠ pos := by omega
      simp [hne,shifted_below _ hi.le]
    · simp
    · intro i hi hin
      have hne : i+1 ≠ pos := by omega
      simp [hne,shifted_above _ hi hin]
  · intro a ha
    obtain ⟨j,hj,rfl⟩ := mem_firsts.mp ha
    exact hb j hj
  · intro c hc
    obtain ⟨j,hj,rfl⟩ := mem_firsts.mp hc
    exact hh _ (by omega) (by omega)

@[simp] theorem internalShift_fresh (pos i : Nat) (s : NodeStore) :
    (internalShift p pos i s).fresh = s.fresh := by
  induction i generalizing s with
  | zero => rfl
  | succ i ih =>
    unfold internalShift
    split
    · rw [ih]
      rfl
    · rfl

theorem internalShift_node (pos i : Nat) (s : NodeStore) (h : pos ≤ i) :
    (internalShift p pos i s).node = setAt s.node p
      { s.node p with
        keys := shifted (s.node p).keys pos i
        children := shifted (s.node p).children (pos+1) (i+1) } := by
  induction i generalizing s with
  | zero =>
    obtain rfl : pos = 0 := by omega
    simp [internalShift,shifted_self]
  | succ i ih =>
    unfold internalShift
    split
    · have hi : pos ≤ i := by omega
      simp [ih _ hi,shifted_setAt,hi]
    · obtain rfl : pos = i+1 := by omega
      simp [shifted_self]

@[simp] theorem internalInsert_fresh (pos key newChild : Nat) :
    (internalInsert s p pos key newChild).fresh = s.fresh := by
  simp [internalInsert]

theorem internalInsert_node (pos key newChild : Nat) (hpos : pos ≤ (s.node p).nkeys)
    (hn : (s.node p).nkeys < 255) (hne : newChild ≠ p) :
    (internalInsert s p pos key newChild).node =
      setAt (setAt s.node newChild { s.node newChild with parent := p }) p
        { s.node p with
          nkeys := (s.node p).nkeys+1
          keys := setAt (shifted (s.node p).keys pos (s.node p).nkeys) pos key
          children := setAt (shifted (s.node p).children (pos+1) ((s.node p).nkeys+1))
            (pos+1) newChild } := by
  have hm : ((s.node p).nkeys+1)%256 = (s.node p).nkeys+1 := by omega
  funext q
  by_cases hq : q = p
  · simp [internalInsert,internalShift_node,hpos,hm,hq,hne.symm]
  by_cases hc : q = newChild <;>
    simp [internalInsert,internalShift_node,hpos,hq,hc,hne]

theorem internalInsert_kids (pos key newChild lo : Nat) (hpos : pos ≤ (s.node p).nkeys)
    (hn : (s.node p).nkeys < 255) (hne : newChild ≠ p) :
    ((internalInsert s p pos key newChild).node p).kids lo =
      firsts (fun i => ((s.node p).low lo i,(s.node p).children i)) (pos+1) ++ (key,newChild) ::
        firsts (fun i => ((s.node p).low lo (pos+1+i),(s.node p).children (pos+1+i)))
          ((s.node p).nkeys+1-(pos+1)) := by
  rw [internalInsert_node s p pos key newChild hpos hn hne,setAt_self]
  refine firsts_insert (n := (s.node p).nkeys+1) (key,newChild) (by omega) ?_ ?_ ?_
  · intro i hi
    cases i with
    | zero => simp [HistBpNode.low,shifted_below]
    | succ i =>
      have h2 : i ≠ pos := by omega
      simp [HistBpNode.low,h2,shifted_below _ hi.le,shifted_below _ (show i ≤ pos by omega)]
  · simp [HistBpNode.low]
  · intro i hi hin
    obtain ⟨i,rfl⟩ : ∃ k, i = k+1 := ⟨i-1,by omega⟩
    have h2 : i+1 ≠ pos := by omega
    simp [HistBpNode.low,h2,shifted_above _ hi hin,
      shifted_above _ (show pos ≤ i by omega) (show i < (s.node p).nkeys by omega)]

end

theorem nodeAlloc_granted (leaf : Bool) (h : grant s.attempts = true) : nodeAlloc grant leaf s =
    (s.fresh,⟨setAt s.node s.fresh (zeroedNode leaf),s.fresh+1,s.attempts+1,s.writes⟩) := by
  simp [nodeAlloc,h]

theorem copyEntry_fold (leaf right mid n : Nat) (s : NodeStore) (hne : right ≠ leaf) :
    ((List.range n).foldl (copyEntry leaf right mid) s).node =
        setAt s.node right { s.node right with
          keys := fun j => if j < n then (s.node leaf).keys (mid+j) else (s.node right).keys j
          vals := fun j => if j < n then (s.node leaf).vals (mid+j)
            else (s.node right).vals j } ∧
      ((List.range n).foldl (copyEntry leaf right mid) s).fresh = s.fresh := by
  induction n with
  | zero => simp
  | succ n ih =>
    obtain ⟨hn,hf⟩ := ih
    simp only [range_succ,List.foldl_append,foldl_cons,foldl_nil]
    refine ⟨?_,hf⟩
    simp only [copyEntry,setVal_node,setKey_node,setAt_self,setAt_setAt,hn,setAt_ne _ _ hne.symm]
    congr 2 <;> funext j <;> simp only [setAt] <;> grind

structure LeafSplit (s s' : NodeStore) (leaf right : Nat) : Prop where
  fresh : s'.fresh = s.fresh+1
  other : ∀ q, q ≠ leaf → q ≠ right → s'.node q = s.node q
  left : s'.node leaf = { s.node leaf with nkeys := (s.node leaf).nkeys/2, next := right }
  isLeaf : (s'.node right).isLeaf = true
  nkeys : (s'.node right).nkeys = (s.node leaf).nkeys-(s.node leaf).nkeys/2
  next : (s'.node right).next = (s.node leaf).next
  entries : (s'.node right).entries = (s.node leaf).entries.drop ((s.node leaf).nkeys/2)

theorem splitLeafNode_spec {leaf : Nat} (hg : grant s.attempts = true) (hpos : 0 < s.fresh)
    (hlt : leaf < s.fresh) (hn : (s.node leaf).nkeys < 256) : (splitLeafNode grant s leaf).1 = s.fresh ∧
      LeafSplit s (splitLeafNode grant s leaf).2 leaf s.fresh := by
  obtain ⟨mid,hmid⟩ : ∃ k, k = (s.node leaf).nkeys/2 := ⟨_,rfl⟩
  obtain ⟨rn,hrn⟩ : ∃ k, k = (s.node leaf).nkeys-mid := ⟨_,rfl⟩
  have hne : s.fresh ≠ leaf := by omega
  have h1 : rn%256 = rn := by omega
  have h2 : mid%256 = mid := by omega
  unfold splitLeafNode
  simp only [nodeAlloc_granted true hg]
  rw [if_neg (by omega),← hmid,← hrn]
  generalize hs : NodeStore.setNkeys _ _ rn = s0
  obtain ⟨hnd,hf⟩ := copyEntry_fold leaf s.fresh mid rn s0 hne
  generalize (List.range rn).foldl (copyEntry leaf s.fresh mid) s0 = s1 at hnd hf
  subst hs
  refine ⟨rfl,by simp [hf],?_,?_,?_,?_,?_,?_⟩
  · intro q hl hr
    simp [hnd,hl,hr]
  · simp [hnd,hne.symm,h2,← hmid]
  · simp [hnd,hne,zeroedNode]
  · simp [hnd,hne,h1,← hmid,← hrn]
  · simp [hnd,hne,hne.symm]
  · rw [HistBpNode.entries,HistBpNode.entries,firsts_drop _ (by omega),← hmid,← hrn]
    simp only [setParent_node,setNext_node,setNkeys_node,hnd,setAt_self,setAt_ne _ _ hne,h1]
    apply firsts_congr
    intro i hi
    simp [hi,hne.symm]

def MovedBy (n : HistBpNode) (midk m q : Nat) : Prop :=
  ∃ j, j < m ∧ n.children (midk+1+j) = q

structure Adopted (s0 s : NodeStore) (p right midk m : Nat) : Prop where
  fresh : s.fresh = s0.fresh
  source : s.node p = s0.node p
  target : s.node right = { s0.node right with
    keys := (s.node right).keys
    children := fun j => if j < m then (s0.node p).children (midk+1+j)
      else (s0.node right).children j }
  moved : ∀ q, q ≠ right → MovedBy (s0.node p) midk m q →
    s.node q = { s0.node q with parent := right }
  other : ∀ q, q ≠ right → ¬ MovedBy (s0.node p) midk m q → s.node q = s0.node q

theorem Adopted.next {right m : Nat} (h : Adopted s0 s p right midk m) (hpr : p ≠ right)
    (hcp : (s0.node p).children (midk+1+m) ≠ p) (hcr : (s0.node p).children (midk+1+m) ≠ right) :
    Adopted s0 (adoptChild p right m (midk+1+m) s) p right midk (m+1) := by
  constructor
  · exact h.fresh
  · simp [adoptChild,h.source,hpr,hcp.symm]
  · simp only [adoptChild,setParent_node,setChild_node,setAt_self,h.source,setAt_ne _ _ hcr.symm]
    rw [h.target]
    congr 1
    funext j
    simp only [setAt]
    grind
  · intro q hq hm
    by_cases hc : q = (s0.node p).children (midk+1+m)
    · have hq2 : s.node q = { s0.node q with parent := (s.node q).parent } := by
        by_cases hold : MovedBy (s0.node p) midk m q
        · rw [h.moved _ hq hold]
        · rw [h.other _ hq hold]
      simp only [adoptChild,setParent_node,setChild_node,h.source,← hc,setAt_self,setAt_ne _ _ hq]
      rw [hq2]
    obtain ⟨j,hj,hjq⟩ := hm
    simp only [adoptChild,setParent_node,setChild_node,h.source,setAt_ne _ _ hc,setAt_ne _ _ hq]
    refine h.moved q hq ⟨j,?_,hjq⟩
    by_contra hge
    exact hc (by rw [← hjq,show j = m by omega])
  · intro q hq hm
    have hc : q ≠ (s0.node p).children (midk+1+m) :=
      fun he => hm ⟨m,by omega,he.symm⟩
    simp only [adoptChild,setParent_node,setChild_node,h.source,setAt_ne _ _ hc,setAt_ne _ _ hq]
    refine h.other q hq ?_
    rintro ⟨j,hj,hjq⟩
    exact hm ⟨j,by omega,hjq⟩

theorem Adopted.setKey {right m : Nat} (h : Adopted s0 s p right midk m) (hpr : p ≠ right)
    (i k : Nat) : Adopted s0 (s.setKey right i k) p right midk m := by
  constructor
  · exact h.fresh
  · simp [hpr,h.source]
  · simp only [setKey_node,setAt_self]
    rw [h.target]
  · intro q hq hm
    simp [hq,h.moved q hq hm]
  · intro q hq hm
    simp [hq,h.other q hq hm]

theorem moveSeparator_fold (p right midk m : Nat) (s0 : NodeStore) (hpr : p ≠ right)
    (hc : ∀ j, j < m → (s0.node p).children (midk+1+j) ≠ p ∧ (s0.node p).children (midk+1+j) ≠ right) :
    Adopted s0 ((List.range m).foldl (moveSeparator p right midk) s0) p right midk m ∧
      ∀ j, j < m → (((List.range m).foldl (moveSeparator p right midk) s0).node right).keys j =
        (s0.node p).keys (midk+1+j) := by
  induction m with
  | zero =>
    refine ⟨⟨rfl,rfl,by simp,?_,fun _ _ _ => rfl⟩,fun j hj => by omega⟩
    rintro q - ⟨j,hj,-⟩
    omega
  | succ m ih =>
    obtain ⟨had,hk⟩ := ih (fun j hj => hc j (by omega))
    obtain ⟨hcp,hcr⟩ := hc m (by omega)
    simp only [range_succ,List.foldl_append,foldl_cons,foldl_nil]
    generalize (List.range m).foldl (moveSeparator p right midk) s0 = s at had hk
    refine ⟨(had.setKey hpr m _).next hpr hcp hcr,?_⟩
    intro j hj
    by_cases he : j = m
    · simp [moveSeparator,adoptChild,hpr,had.source,hcr.symm,he]
    · simp [moveSeparator,adoptChild,hpr,had.source,hcr.symm,he,hk j (by omega)]

structure InnerSplit (s s' : NodeStore) (p right promo : Nat) : Prop where
  promoted : promo = (s.node p).keys ((s.node p).nkeys/2)
  fresh : s'.fresh = s.fresh+1
  left : s'.node p = { s.node p with nkeys := (s.node p).nkeys/2 }
  isLeaf : (s'.node right).isLeaf = false
  nkeys : (s'.node right).nkeys = (s.node p).nkeys-(s.node p).nkeys/2-1
  parent : (s'.node right).parent = (s.node p).parent
  kids : ∀ lo, (s'.node right).kids promo = ((s.node p).kids lo).drop ((s.node p).nkeys/2+1)
  moved : ∀ i, (s.node p).nkeys/2 < i → i ≤ (s.node p).nkeys →
    s'.node ((s.node p).children i) = { s.node ((s.node p).children i) with parent := right }
  other : ∀ q, q ≠ p → q ≠ right →
    (∀ i, (s.node p).nkeys/2 < i → i ≤ (s.node p).nkeys → (s.node p).children i ≠ q) →
    s'.node q = s.node q

theorem splitInternalNode_adopted {grant : Nat → Bool} {s : NodeStore} {p midk rn : Nat}
    (hg : grant s.attempts = true) (hpos : 0 < s.fresh) (hlt : p < s.fresh)
    (hn : (s.node p).nkeys < 256) (hmid : (s.node p).nkeys/2 = midk)
    (hnk : (s.node p).nkeys = midk+1+rn)
    (hc : ∀ i, i ≤ (s.node p).nkeys → (s.node p).children i ≠ p ∧ (s.node p).children i < s.fresh) :
    ∃ s0 s1, splitInternalNode grant s p = ((s.node p).keys midk,s.fresh,
        (s1.setParent s.fresh (s.node p).parent).setNkeys p midk) ∧
      Adopted s0 s1 p s.fresh midk (rn+1) ∧ s0.fresh = s.fresh+1 ∧
      s0.node s.fresh = { zeroedNode false with nkeys := rn } ∧
      (∀ q, q ≠ s.fresh → s0.node q = s.node q) ∧
      ∀ j, j < rn → (s1.node s.fresh).keys j = (s.node p).keys (midk+1+j) := by
  have hpr : p ≠ s.fresh := by omega
  have hr : rn%256 = rn := by omega
  obtain ⟨s0,hs0⟩ : ∃ s0, s0 = NodeStore.setNkeys
    ⟨setAt s.node s.fresh (zeroedNode false),s.fresh+1,s.attempts+1,s.writes⟩ s.fresh rn :=
    ⟨_,rfl⟩
  have hn0 : ∀ q, q ≠ s.fresh → s0.node q = s.node q := by
    intro q hq
    simp [hs0,hq]
  have hp0 := hn0 p hpr
  have hch : ∀ j, j < rn+1 → (s0.node p).children (midk+1+j) ≠ p ∧
      (s0.node p).children (midk+1+j) ≠ s.fresh := by
    intro j hj
    have h := hc (midk+1+j) (by omega)
    rw [hp0]
    exact ⟨h.1,by omega⟩
  obtain ⟨had,hky⟩ := moveSeparator_fold p s.fresh midk rn s0 hpr (fun j hj => hch j (by omega))
  obtain ⟨hlp,hlr⟩ := hch rn (by omega)
  have ha := had.next hpr hlp hlr
  rw [← hnk] at ha
  refine ⟨s0,_,?_,ha,by simp [hs0],by simp [hs0,hr],hn0,?_⟩
  · unfold splitInternalNode
    simp only [nodeAlloc_granted false hg]
    rw [if_neg (by omega),hmid,show (s.node p).nkeys-midk-1 = rn by omega,← hs0,ha.source,hp0]
  · intro j hj
    rw [hnk,← hp0,← hky j hj]
    simp [adoptChild,had.source,hlr.symm]

theorem splitInternalNode_spec {grant : Nat → Bool} {s : NodeStore} {p : Nat}
    (hg : grant s.attempts = true) (hpos : 0 < s.fresh) (hlt : p < s.fresh)
    (hn : (s.node p).nkeys < 256) (hone : 0 < (s.node p).nkeys)
    (hc : ∀ i, i ≤ (s.node p).nkeys → (s.node p).children i ≠ p ∧ (s.node p).children i < s.fresh) :
    (splitInternalNode grant s p).2.1 = s.fresh ∧
      InnerSplit s (splitInternalNode grant s p).2.2 p s.fresh (splitInternalNode grant s p).1 := by
  obtain ⟨midk,hmid⟩ : ∃ k, (s.node p).nkeys/2 = k := ⟨_,rfl⟩
  obtain ⟨rn,hnk⟩ : ∃ k, (s.node p).nkeys = midk+1+k := ⟨(s.node p).nkeys-midk-1,by omega⟩
  have hpr : p ≠ s.fresh := by omega
  have hm : midk%256 = midk := by omega
  obtain ⟨s0,s1,hs,ha,hf0,hr0,hn0,hk⟩ :=
    splitInternalNode_adopted hg hpos hlt hn hmid hnk hc
  have hp0 := hn0 p hpr
  have hr := ha.target
  rw [hr0,hp0] at hr
  generalize (s1.node s.fresh).keys = ks at hr hk
  rw [hs]
  refine ⟨rfl,by rw [hmid],by simp [ha.fresh,hf0],?_,?_,?_,?_,?_,?_,?_⟩
  · simp [hpr,ha.source,hp0,hm,hmid]
  · simp [hpr.symm,hr,zeroedNode]
  · simp [hpr.symm,hr]
    omega
  · simp [hpr.symm]
  · intro lo
    rw [HistBpNode.kids,HistBpNode.kids,hmid,firsts_drop _ (by omega),
      show (s.node p).nkeys+1-(midk+1) = rn+1 by omega]
    simp only [setNkeys_node,setParent_node,setAt_self,setAt_ne _ _ hpr.symm]
    rw [hr]
    apply firsts_congr
    intro i hi
    simp only at hi
    cases i with
    | zero => simp [HistBpNode.low]
    | succ i => simp [HistBpNode.low,hi,hk i (by omega)]
  · intro i h1 h2
    obtain ⟨hcp,hcf⟩ := hc i h2
    have hne : (s.node p).children i ≠ s.fresh := by omega
    simp only [setNkeys_node,setParent_node,setAt_ne _ _ hcp,setAt_ne _ _ hne]
    rw [ha.moved _ hne ⟨i-midk-1,by omega,by rw [hp0,show midk+1+(i-midk-1) = i by omega]⟩,
      hn0 _ hne]
  · intro q h1 h2 hno
    simp only [setNkeys_node,setParent_node,setAt_ne _ _ h1,setAt_ne _ _ h2]
    rw [ha.other q h2,hn0 q h2]
    rintro ⟨j,hj,hjq⟩
    rw [hp0] at hjq
    exact hno (midk+1+j) (by omega) (by omega) hjq

end AevOS.BpTree
