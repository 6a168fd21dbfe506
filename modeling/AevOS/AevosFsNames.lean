import AevOS.AevosFsEntries

/-! The names of a directory are distinct, and a path that was created resolves to its inode. -/

namespace AevOS.AevosFs
open Wire Buffer List Function
open Option (some.inj bind_eq_some_iff bind_some)

structure NamesOk (s : Fs) : Prop where
  owned : Owned s
  packed : ∀ d, (s.inodeTable d).packed
  ids : ∀ i j, (s.inodeTable i).id ≠ 0 → (s.inodeTable i).id = (s.inodeTable j).id → i = j
  live : ∀ d, ∀ e ∈ s.entries d, ∃ j, (s.inodeTable j).id = e.1
  names : ∀ d, ((s.entries d).map Prod.snd).Nodup
  next : s.nextInodeId < 2^64

def Fs.still (s : Fs) : Prop := s.reads = [] ∧ s.writes = []

variable {d i cur dir : Fin maxInodes} {cs : List Bytes} {child : Nat} {name : Bytes}
    {type : InodeType} {s s' : Fs}

section
variable {s s' : Fs}

theorem NamesOk.congr (h : NamesOk s) (hsb : s'.sb = s.sb) (ht : s'.inodeTable = s.inodeTable)
    (hb : s'.blocks = s.blocks) (hh : s'.handed = s.handed)
    (hl : s'.logBlocks = s.logBlocks) (hn : s'.nextInodeId = s.nextInodeId) : NamesOk s' := by
  have he : ∀ d, s'.entries d = s.entries d := by
    intro d
    rw [Fs.entries,Fs.entries,ht,hb]
  refine ⟨h.owned.congr hsb ht hh hl,?_,?_,?_,?_,?_⟩
  · rw [ht]
    exact h.packed
  · rw [ht]
    exact h.ids
  · intro d
    rw [ht,he]
    exact h.live d
  · intro d
    rw [he]
    exact h.names d
  · rw [hn]
    exact h.next

theorem entries_id_ne_zero {e : Nat × Bytes} (h : e ∈ s.entries d) : e.1 ≠ 0 := by
  rw [Fs.entries,mem_flatMap] at h
  obtain ⟨blk,-,he⟩ := h
  rw [blockEntries,mem_filterMap] at he
  obtain ⟨i,-,hi⟩ := he
  rw [slotEntry] at hi
  split at hi
  · cases hi
  · next hne =>
    obtain rfl := some.inj hi
    exact hne

theorem findInode_of_id (hids : ∀ i j, (s.inodeTable i).id ≠ 0 →
    (s.inodeTable i).id = (s.inodeTable j).id → i = j) {i : Fin maxInodes}
    (hi : (s.inodeTable i).id ≠ 0) : findInode (s.inodeTable i).id s = some i := by
  cases hf : findInode (s.inodeTable i).id s with
  | none =>
    unfold findInode at hf
    have hne := find?_eq_none.mp hf i (mem_finRange i)
    simp at hne
  | some j => rw [hids i j hi (findInode_id hf).symm]

structure Extends (s s' : Fs) : Prop where
  id : ∀ j, (s.inodeTable j).id ≠ 0 → (s'.inodeTable j).id = (s.inodeTable j).id
  type : ∀ j, (s.inodeTable j).id ≠ 0 → (s'.inodeTable j).type = (s.inodeTable j).type
  found : ∀ d, (s.inodeTable d).id ≠ 0 → ∀ c e, (s.entries d).find? (fun e => e.2 = c) = some e →
    (s'.entries d).find? (fun e => e.2 = c) = some e

theorem walk_extends (hext : Extends s s') (hids : ∀ i j, (s'.inodeTable i).id ≠ 0 →
    (s'.inodeTable i).id = (s'.inodeTable j).id → i = j) {cs : List Bytes} {cur i : Fin maxInodes}
    (hcur : (s.inodeTable cur).id ≠ 0) (h : s.walk cs cur = some i) : s'.walk cs cur = some i := by
  induction cs generalizing cur with
  | nil => exact h
  | cons c cs ih =>
    rw [Fs.walk] at h ⊢
    split at h
    · cases h
    · next hdir =>
      rw [hext.type cur hcur,if_neg hdir]
      obtain ⟨next,hn,hw⟩ := bind_eq_some_iff.mp h
      obtain ⟨e,he,hf⟩ := bind_eq_some_iff.mp hn
      have hid := findInode_id hf
      have hne : (s.inodeTable next).id ≠ 0 :=
        hid ▸ entries_id_ne_zero (mem_of_find?_eq_some he)
      have hid' : (s'.inodeTable next).id = e.1 := (hext.id next hne).trans hid
      have hf' : findInode e.1 s' = some next :=
        hid' ▸ findInode_of_id hids (by rw [hid',← hid]; exact hne)
      rw [hext.found cur hcur c e he,bind_some,hf',bind_some]
      exact ih hne hw

theorem walk_live (hcur : (s.inodeTable cur).id ≠ 0) (h : s.walk cs cur = some i) :
    (s.inodeTable i).id ≠ 0 := by
  induction cs generalizing cur with
  | nil => exact some.inj h ▸ hcur
  | cons c cs ih =>
    rw [Fs.walk] at h
    split at h
    · cases h
    · obtain ⟨next,hn,hw⟩ := bind_eq_some_iff.mp h
      obtain ⟨e,he,hf⟩ := bind_eq_some_iff.mp hn
      exact ih (findInode_id hf ▸ entries_id_ne_zero (mem_of_find?_eq_some he)) hw

structure Added (dir : Fin maxInodes) (child : Nat) (name : Bytes) (s s' : Fs) : Prop where
  owned : Owned s'
  still : s'.still
  root : s'.sb.rootInode = s.sb.rootInode
  next : s'.nextInodeId = s.nextInodeId
  packed : ∀ d, (s'.inodeTable d).packed
  id : ∀ j, (s'.inodeTable j).id = (s.inodeTable j).id
  type : ∀ j, (s'.inodeTable j).type = (s.inodeTable j).type
  here : ∃ l m, s.entries dir = l ++ m ∧ s'.entries dir = l ++ (child,name) :: m
  others : ∀ d, d ≠ dir → s'.entries d = s.entries d

section
variable {child : Nat} {name : Bytes} {parent : Fin maxInodes} {type : InodeType}

theorem scanBlocks_full (hr : s.reads = []) (hf : (s.inodeTable parent).scanned.findSome?
      (fun blk => (freeEntry (s.blocks blk)).map fun i => (blk,i)) = none) :
    scanBlocks (fun b => (freeEntry b).map fun i => (i,b)) (s.inodeTable parent).scanned s = (none,s) := by
  rw [findSome?_eq_none_iff] at hf
  have hn : (s.inodeTable parent).scanned.findSome? (fun blk =>
      ((freeEntry (s.blocks blk)).map fun i => (i,s.blocks blk)).map fun a => (blk,a)) = none := by
    rw [findSome?_eq_none_iff]
    intro blk hblk
    rw [Option.map_eq_none_iff.mp (hf blk hblk)]
    rfl
  rw [scanBlocks_nil _ _ hr,hn]

theorem addDirEntry_spec (h : NamesOk s) (hst : s.still) (hid : child < 2^64) (hpos : child ≠ 0)
    (hn : 0 ∉ name) (hlen : name.length < maxName) (parent : Fin maxInodes) (type : InodeType) :
    (∃ e, addDirEntry parent name child type s = (.error e,s)) ∨
      ∃ s', addDirEntry parent name child type s = (.ok (),s') ∧ Added parent child name s s' := by
  obtain ⟨hr,hw⟩ := hst
  cases hf : (s.inodeTable parent).scanned.findSome?
      (fun blk => (freeEntry (s.blocks blk)).map fun i => (blk,i)) with
  | some r =>
    obtain ⟨blk,k⟩ := r
    obtain ⟨c,hc,hsl⟩ := exists_of_findSome?_eq_some hf
    obtain ⟨i,hi,heq⟩ := Option.map_eq_some_iff.mp hsl
    obtain ⟨rfl,rfl⟩ := Prod.mk.inj heq
    obtain ⟨hk,hfr⟩ := freeEntry_some hi
    obtain ⟨hdir,ho⟩ := entries_slot type h.owned hc hk hfr hid hpos hn hlen
      { s with
        blocks := update s.blocks c
          (put (s.blocks c) (dirEntrySize*i) (dirEntryBytes child name type)) } rfl rfl
    exact .inr ⟨_,addDirEntry_slot hr hw hf name child type,
      h.owned.congr rfl rfl rfl rfl,⟨hr,hw⟩,rfl,rfl,h.packed,fun _ => rfl,fun _ => rfl,hdir,ho⟩
  | none =>
    rw [addDirEntry,scanBlocks_full hr hf]
    dsimp only
    cases hz : (finRange directBlocks).find? fun k => (s.inodeTable parent).blockList k = 0 with
    | none => exact .inl ⟨_,rfl⟩
    | some k =>
      dsimp only
      rcases allocBlock_owned h.owned with ⟨-,heq⟩ | ⟨-,heq,h1,hs⟩
      · rw [heq]
        exact .inl ⟨_,rfl⟩
      rw [heq]
      dsimp only
      rw [if_neg hs.pos,writeBlock_nil (s := s.advance.setBlock parent k s.sb.logHead) hw]
      obtain ⟨hdir,ho⟩ := entries_block type (h.packed parent) hz hid hpos hn hlen hs.pos hs.lists
        { s.advance.setBlock parent k s.sb.logHead with
          blocks := update s.blocks s.sb.logHead
            (put zeros 0 (dirEntryBytes child name type)) } rfl rfl
      refine .inr ⟨_,rfl,(h1.setBlock hs parent k).congr rfl rfl rfl rfl,⟨hr,hw⟩,rfl,rfl,
        fun d => ?_,fun j => ?_,fun j => ?_,hdir,ho⟩
      · by_cases hd : d = parent
        · subst hd
          have hp := packed_update (h.packed d) hz hs.pos
          simpa [Fs.setBlock,Fs.setInode,Fs.advance] using hp
        · simpa [Fs.setBlock,Fs.setInode,Fs.advance,hd] using h.packed d
      · by_cases hj : j = parent
        · simp [Fs.setBlock,Fs.setInode,Fs.advance,hj]
        · simp [Fs.setBlock,Fs.setInode,Fs.advance,hj]
      · by_cases hj : j = parent
        · simp [Fs.setBlock,Fs.setInode,Fs.advance,hj]
        · simp [Fs.setBlock,Fs.setInode,Fs.advance,hj]

end

theorem Added.namesOk (h : NamesOk s) (hadd : Added dir child name s s')
    (hc : ∃ j, (s.inodeTable j).id = child) (hnm : ∀ e ∈ s.entries dir, e.2 ≠ name) : NamesOk s' := by
  obtain ⟨l,m,hold,hnew⟩ := hadd.here
  refine ⟨hadd.owned,hadd.packed,?_,fun d e he => ?_,fun d => ?_,hadd.next ▸ h.next⟩
  · intro i j
    rw [hadd.id,hadd.id]
    exact h.ids i j
  · by_cases hd : d = dir
    · subst hd
      rw [hnew,mem_append,mem_cons] at he
      have hcs : e = (child,name) ∨ e ∈ s.entries d := by
        rw [hold,mem_append]
        tauto
      rcases hcs with rfl | he
      · obtain ⟨j,hj⟩ := hc
        exact ⟨j,(hadd.id j).trans hj⟩
      · obtain ⟨j,hj⟩ := h.live d e he
        exact ⟨j,(hadd.id j).trans hj⟩
    · rw [hadd.others d hd] at he
      obtain ⟨j,hj⟩ := h.live d e he
      exact ⟨j,(hadd.id j).trans hj⟩
  by_cases hd : d = dir
  · subst hd
    have hn := h.names d
    rw [hold,map_append] at hn
    rw [hnew,map_append,map_cons,nodup_middle,nodup_cons]
    refine ⟨?_,hn⟩
    rw [← map_append,← hold,mem_map]
    rintro ⟨e,he,hen⟩
    exact hnm e he hen
  · rw [hadd.others d hd]
    exact h.names d

theorem Added.find (hadd : Added dir child name s s') (hn : ∀ e ∈ s.entries dir, e.2 ≠ name)
    (c : Bytes) : (s'.entries dir).find? (fun e => e.2 = c) =
      if c = name then some (child,name) else (s.entries dir).find? (fun e => e.2 = c) := by
  obtain ⟨l,m,hold,hnew⟩ := hadd.here
  rw [hold] at hn
  rw [hnew,hold,find?_append,find?_append]
  split
  · next hc =>
    subst hc
    have hnn : l.find? (fun e => e.2 = c) = none := by
      rw [find?_eq_none]
      intro e he
      simpa using hn e (mem_append_left m he)
    rw [hnn]
    simp
  · next hc => simp [Ne.symm hc]

structure Taken (i : Fin maxInodes) (type : InodeType) (s s1 : Fs) : Prop where
  names : NamesOk s1
  free : (s.inodeTable i).id = 0
  inode : s1.inodeTable i = ⟨s.nextInodeId,type,0,fun _ => 0,0o755,1⟩
  table : ∀ j, j ≠ i → s1.inodeTable j = s.inodeTable j
  entries : ∀ d, d ≠ i → s1.entries d = s.entries d
  sb : s1.sb = s.sb
  still : s.still → s1.still

theorem entries_noBlocks (h : ∀ k, (s.inodeTable d).blockList k = 0) : s.entries d = [] := by
  rw [Fs.entries,Inode.scanned,takeWhile_ofFn (m := 0) (fun k hk => absurd hk (Nat.not_lt_zero _))
    (fun k _ => h k)]
  rfl

theorem allocInode_taken (h : NamesOk s) (hf : ∀ j, (s.inodeTable j).id ≠ s.nextInodeId)
    (ha : allocInode type s = some (i,s')) : Taken i type s s' := by
  have hown := allocInode_owned h.owned ha
  simp only [allocInode,Option.map_eq_some_iff] at ha
  obtain ⟨j,hfn,heq⟩ := ha
  obtain ⟨rfl,hs'⟩ := Prod.mk.inj heq
  have hfr := findInode_id hfn
  have hs : s'.inodeTable j = ⟨s.nextInodeId,type,0,fun _ => 0,0o755,1⟩ := by
    rw [← hs']
    exact update_self ..
  have ht : ∀ l, l ≠ j → s'.inodeTable l = s.inodeTable l := by
    intro l hl
    rw [← hs']
    exact update_of_ne hl _ _
  have hen : ∀ d, d ≠ j → s'.entries d = s.entries d := by
    intro d hd
    apply entries_congr
    · rw [ht d hd]
    · intro blk _
      rw [← hs']
      rfl
  have hn : s'.entries j = [] := entries_noBlocks (fun k => by rw [hs])
  refine ⟨⟨hown,fun d => ?_,fun k l hk heq => ?_,fun d e he => ?_,fun d => ?_,?_⟩,hfr,hs,ht,
    hen,by rw [← hs']; rfl,fun hst => by rw [← hs']; exact hst⟩
  · by_cases hd : d = j
    · subst hd
      rw [hs]
      exact fun _ _ _ hne => absurd rfl hne
    · rw [ht d hd]
      exact h.packed d
  · -- the new number is nobody else's
    by_cases hkj : k = j
    · by_cases hlj : l = j
      · exact hkj.trans hlj.symm
      · rw [hkj,hs,ht l hlj] at heq
        exact absurd heq.symm (hf l)
    by_cases hlj : l = j
    · rw [hlj,hs,ht k hkj] at heq
      exact absurd heq (hf k)
    · rw [ht k hkj] at hk heq
      rw [ht l hlj] at heq
      exact h.ids k l hk heq
  · by_cases hd : d = j
    · rw [hd,hn] at he
      cases he
    rw [hen d hd] at he
    obtain ⟨k,hk⟩ := h.live d e he
    have hkj : k ≠ j := by
      rintro rfl
      exact entries_id_ne_zero he (hk.symm.trans hfr)
    exact ⟨k,by rw [ht k hkj,hk]⟩
  · by_cases hd : d = j
    · rw [hd,hn]
      exact nodup_nil
    · rw [hen d hd]
      exact h.names d
  · rw [← hs']
    exact Nat.mod_lt _ (by decide)

theorem Taken.freed {s1 : Fs} (h : NamesOk s) (ht : Taken i type s s1) :
    NamesOk (s1.setInode i { s1.inodeTable i with id := 0 }) := by
  have htb : ∀ j, j ≠ i →
      (s1.setInode i { s1.inodeTable i with id := 0 }).inodeTable j = s1.inodeTable j :=
    fun j hj => update_of_ne hj _ _
  have hs : (s1.setInode i { s1.inodeTable i with id := 0 }).inodeTable i =
      { s1.inodeTable i with id := 0 } := update_self ..
  have hen : ∀ d, (s1.setInode i { s1.inodeTable i with id := 0 }).entries d = s1.entries d := by
    intro d
    apply entries_congr
    · by_cases hd : d = i
      · rw [hd,hs]
        rfl
      · rw [htb d hd]
    · exact fun _ _ => rfl
  refine ⟨ht.names.owned.setInode (fun _ => .inl rfl),fun d => ?_,fun k l hk heq => ?_,fun d e he => ?_,
    fun d => ?_,ht.names.next⟩
  · by_cases hd : d = i
    · rw [hd,hs]
      exact ht.names.packed i
    · rw [htb d hd]
      exact ht.names.packed d
  · have hki : k ≠ i := by
      rintro rfl
      rw [hs] at hk
      exact hk rfl
    by_cases hli : l = i
    · rw [hli,hs] at heq
      exact absurd heq hk
    · rw [htb k hki] at hk heq
      rw [htb l hli] at heq
      exact ht.names.ids k l hk heq
  · rw [hen] at he
    by_cases hd : d = i
    · rw [hd,entries_noBlocks (s := s1) (fun k => by rw [ht.inode])] at he
      cases he
    rw [ht.entries d hd] at he
    obtain ⟨k,hk⟩ := h.live d e he
    have hki : k ≠ i := by
      rintro rfl
      exact entries_id_ne_zero he (hk.symm.trans ht.free)
    exact ⟨k,by rw [htb k hki,ht.table k hki,hk]⟩
  · rw [hen]
    exact ht.names.names d

end

structure Creation where
  path : CStr
  type : InodeType
  reads : List Bool
  writes : List (Option Buf)

def Creation.run (c : Creation) (s : Fs) : Except Errno Unit × Fs :=
  aevosfsCreate c.path c.type { s with reads := c.reads, writes := c.writes }

def lookupPath (path : CStr) (s : Fs) : Option (Fin maxInodes) :=
  (resolvePathInternal path.bytes { s with reads := [] }).1

def CreateOk (s : Fs) (c : Creation) : Prop :=
  c.reads = [] ∧ c.writes = [] ∧ (c.path.bytes.head? = some slash →
      c.path.bytes.length < vfsPathMax ∧ lastName c.path.bytes ≠ [] ∧
        (lastName c.path.bytes).length < maxName ∧ lookupPath c.path s = none ∧
        s.nextInodeId ≠ 0 ∧ ∀ i, (s.inodeTable i).id ≠ s.nextInodeId)

def DistinctNames (s : Fs) : Prop :=
  ∀ d max l, (aevosfsListDir d max { s with reads := [] }).1 = .ok l → (l.map Prod.snd).Nodup

def Resolves (s : Fs) (c : Creation) : Prop :=
  (c.run s).1 = .ok () → ∃ i, lookupPath c.path (c.run s).2 = some i ∧ (s.inodeTable i).id = 0 ∧
    ((c.run s).2.inodeTable i).id = s.nextInodeId ∧ ((c.run s).2.inodeTable i).type = c.type

def CreationsOk : Fs → List Creation → Prop
  | _, [] => True
  | s, c :: cs => CreateOk s c ∧ CreationsOk (c.run s).2 cs

def NamesLaw : Fs → List Creation → Prop
  | s, [] => DistinctNames s
  | s, c :: cs => DistinctNames s ∧ Resolves s c ∧ NamesLaw (c.run s).2 cs

section
variable {s : Fs}

theorem findInode_congr (h : s'.inodeTable = s.inodeTable) (id : Nat) : findInode id s' = findInode id s := by
  unfold findInode
  rw [h]

theorem walk_congr (ht : s'.inodeTable = s.inodeTable) (hb : s'.blocks = s.blocks)
    (cs : List Bytes) (cur : Fin maxInodes) : s'.walk cs cur = s.walk cs cur := by
  induction cs generalizing cur with
  | nil => rfl
  | cons c cs ih =>
    have he : s'.entries cur = s.entries cur := by rw [Fs.entries,Fs.entries,ht,hb]
    have hn : s'.walk cs = s.walk cs := funext ih
    simp only [Fs.walk,ht,he,findInode_congr ht,hn]

theorem resolve_congr (hsb : s'.sb = s.sb) (ht : s'.inodeTable = s.inodeTable)
    (hb : s'.blocks = s.blocks) (path : Bytes) : s'.resolve path = s.resolve path := by
  have hw : s'.walk (components path) = s.walk (components path) :=
    funext (walk_congr ht hb _)
  rw [Fs.resolve,Fs.resolve,hsb,findInode_congr ht,hw]

theorem lookupPath_eq (path : CStr) (s : Fs) : lookupPath path s = s.resolve path.bytes := by
  rw [lookupPath,resolvePathInternal_eq rfl path.noNul]
  apply resolve_congr <;> rfl

theorem NamesOk.distinct (h : NamesOk s) : DistinctNames s := by
  intro d max l hl
  by_cases hdir : (s.inodeTable d).type = .dir
  · rw [aevosfsListDir_eq (s := { s with reads := [] }) rfl hdir] at hl
    obtain rfl := Except.ok.inj hl
    rw [map_take]
    exact (h.names d).sublist (take_sublist _ _)
  · rw [aevosfsListDir,if_pos hdir] at hl
    cases hl

section
variable {p n : Bytes} {parent i : Fin maxInodes} {type : InodeType} {s1 s2 : Fs}

theorem resolve_name (hc : components n = [n]) :
    s.resolve (p ++ slash :: n) = (s.resolve p).bind (s.walk [n]) := by
  rw [Fs.resolve,Fs.resolve,components_append,hc,Option.bind_assoc]
  exact congrArg _ (funext (walk_append _ _))

theorem NamesOk.new_name (h : NamesOk s) (hc : components n = [n]) (hp : s.resolve p = some parent)
    (hdir : (s.inodeTable parent).type = .dir) (hn : s.resolve (p ++ slash :: n) = none) :
    ∀ e ∈ s.entries parent, e.2 ≠ n := by
  intro e he hen
  rw [resolve_name hc,hp,bind_some,Fs.walk,if_neg (not_not.mpr hdir)] at hn
  cases hf : (s.entries parent).find? fun e => e.2 = n with
  | none => exact find?_eq_none.mp hf e he (decide_eq_true hen)
  | some e' =>
    have hmem := mem_of_find?_eq_some hf
    obtain ⟨j,hj⟩ := h.live parent e' hmem
    have hi := findInode_of_id h.ids (i := j) (hj ▸ entries_id_ne_zero hmem)
    rw [hf,bind_some,← hj,hi] at hn
    cases hn

theorem NamesOk.parent_live (h : NamesOk s) (hp : s.resolve p = some parent) :
    (s.inodeTable parent).id ≠ 0 := by
  obtain ⟨root,hr,hw⟩ := bind_eq_some_iff.mp hp
  have hid : (s.inodeTable root).id = 1 := (findInode_id hr).trans h.owned.root
  exact walk_live (by rw [hid]; exact one_ne_zero) hw

theorem Taken.extends (ht : Taken i type s s1) (hadd : Added parent s.nextInodeId n s1 s2)
    (hne : parent ≠ i) (hnew : ∀ e ∈ s.entries parent, e.2 ≠ n) : Extends s s2 := by
  have hl : ∀ j, (s.inodeTable j).id ≠ 0 → j ≠ i := by
    rintro j hj rfl
    exact hj ht.free
  refine ⟨fun j hj => ?_,fun j hj => ?_,fun d hd c e hf => ?_⟩
  · rw [hadd.id,ht.table j (hl j hj)]
  · rw [hadd.type,ht.table j (hl j hj)]
  by_cases hdp : d = parent
  · subst hdp
    have hc : c ≠ n := by
      rintro rfl
      exact hnew e (mem_of_find?_eq_some hf) (by simpa using find?_some hf)
    rw [hadd.find (by rw [ht.entries d hne]; exact hnew),if_neg hc,ht.entries d hne,hf]
  · rw [hadd.others d hdp,ht.entries d (hl d hd),hf]

theorem Taken.resolve (h : NamesOk s) (ht : Taken i type s s1) (hn : s.nextInodeId ≠ 0)
    (hc : components n = [n]) (hp : s.resolve p = some parent)
    (hdir : (s.inodeTable parent).type = .dir) (hnew : ∀ e ∈ s.entries parent, e.2 ≠ n)
    (hadd : Added parent s.nextInodeId n s1 s2) (h2 : NamesOk s2) :
    s2.resolve (p ++ slash :: n) = some i := by
  have hl := h.parent_live hp
  have hne : parent ≠ i := by
    rintro rfl
    exact hl ht.free
  have hext := ht.extends hadd hne hnew
  obtain ⟨root,hr,hw⟩ := bind_eq_some_iff.mp hp
  have hid : (s.inodeTable root).id = s.sb.rootInode := findInode_id hr
  have hpos : (s.inodeTable root).id ≠ 0 := by rw [hid,h.owned.root]; exact one_ne_zero
  have hr2 : findInode s2.sb.rootInode s2 = some root := by
    have hid2 : (s2.inodeTable root).id = s2.sb.rootInode := by
      rw [hext.id root hpos,hid,hadd.root,ht.sb]
    exact hid2 ▸ findInode_of_id h2.ids (by rw [hext.id root hpos]; exact hpos)
  have hp2 : s2.resolve p = some parent := by
    rw [Fs.resolve,hr2,bind_some]
    exact walk_extends hext h2.ids hpos hw
  have hid2 : (s2.inodeTable i).id = s.nextInodeId := by rw [hadd.id,ht.inode]
  have hi : findInode s.nextInodeId s2 = some i :=
    hid2 ▸ findInode_of_id h2.ids (by rw [hid2]; exact hn)
  have hd2 : ¬ (s2.inodeTable parent).type ≠ .dir := by
    rw [hext.type parent hl]
    exact not_not.mpr hdir
  rw [resolve_name hc,hp2,bind_some,Fs.walk,if_neg hd2,
    hadd.find (by rw [ht.entries parent hne]; exact hnew),if_pos rfl,bind_some,hi]
  rfl

end

theorem aevosfsCreate_names (h : NamesOk s) (hst : s.still) (path : CStr) (type : InodeType)
    (hpt : path.bytes.head? = some slash → path.bytes.length < vfsPathMax ∧ lastName path.bytes ≠ [] ∧
      (lastName path.bytes).length < maxName ∧ s.resolve path.bytes = none ∧
      s.nextInodeId ≠ 0 ∧ ∀ i, (s.inodeTable i).id ≠ s.nextInodeId) :
    NamesOk (aevosfsCreate path type s).2 ∧ ((aevosfsCreate path type s).1 = .ok () → ∃ i,
      (aevosfsCreate path type s).2.resolve path.bytes = some i ∧ (s.inodeTable i).id = 0 ∧
      ((aevosfsCreate path type s).2.inodeTable i).id = s.nextInodeId ∧
      ((aevosfsCreate path type s).2.inodeTable i).type = type) := by
  have hf : ∀ {r : Except Errno Unit × Fs} {e : Errno}, r = (.error e,s) → NamesOk r.2 ∧
      (r.1 = .ok () → ∃ i, r.2.resolve path.bytes = some i ∧ (s.inodeTable i).id = 0 ∧
        (r.2.inodeTable i).id = s.nextInodeId ∧ (r.2.inodeTable i).type = type) := by
    rintro r e rfl
    exact ⟨h,fun hok => by cases hok⟩
  unfold aevosfsCreate
  split
  · exact hf rfl
  next hh =>
  have hh := not_not.mp hh
  obtain ⟨hlen,hne,hn,hnn,hnx,hfr⟩ := hpt hh
  obtain ⟨p,hs,hsl⟩ := lastName_split (mem_of_mem_head? hh)
  have hc := components_name hsl hne hn
  have hr : s.resolve (if p = [] then [slash] else p) = s.resolve p := by
    split
    · next hp => rw [Fs.resolve,Fs.resolve,components_slash,hp,components_nil]
    · rfl
  have hnul : 0 ∉ if p = [] then [slash] else p := by
    split
    · decide
    · intro h0
      exact path.noNul (hs ▸ mem_append_left _ h0)
  have hn' : 0 ∉ lastName path.bytes := fun h0 =>
    path.noNul (hs ▸ mem_append_right _ (mem_cons_of_mem _ h0))
  rw [splitPath_eq hs hsl hlen hn]
  dsimp only
  rw [resolvePathInternal_eq hst.1 hnul,hr]
  cases hpr : s.resolve p with
  | none => exact hf rfl
  | some parent =>
    dsimp only
    split
    · exact hf rfl
    next hdir =>
    have hdir := not_not.mp hdir
    cases ha : allocInode type s with
    | none => exact hf rfl
    | some r =>
      obtain ⟨i,s1⟩ := r
      have ht := allocInode_taken h hfr ha
      have hi : parent ≠ i := by
        rintro rfl
        exact h.parent_live hpr ht.free
      have hnew := h.new_name hc hpr hdir (hs ▸ hnn)
      have hid : (s1.inodeTable i).id = s.nextInodeId := by rw [ht.inode]
      dsimp only
      rw [hid]
      rcases addDirEntry_spec ht.names (ht.still hst) h.next hnx hn' hn parent type with
        ⟨e,heq⟩ | ⟨s2,heq,hadd⟩
      · rw [heq]
        exact ⟨ht.freed h,fun hok => by cases hok⟩
      have h2 := hadd.namesOk ht.names ⟨i,hid⟩ (by rw [ht.entries parent hi]; exact hnew)
      have hnp := ht.resolve h hnx hc hpr hdir hnew hadd h2
      rw [heq]
      refine ⟨h2,fun _ => ⟨i,?_,ht.free,?_,?_⟩⟩
      · dsimp only
        rw [hs]
        exact hnp
      · rw [hadd.id,hid]
      · rw [hadd.type,ht.inode]

theorem create_names (h : NamesOk s) {c : Creation} (hok : CreateOk s c) :
    NamesOk (c.run s).2 ∧ Resolves s c := by
  obtain ⟨hr,hw,hp⟩ := hok
  have h0 : NamesOk { s with reads := [], writes := [] } := h.congr rfl rfl rfl rfl rfl rfl
  have hl : Fs.resolve { s with reads := [], writes := [] } c.path.bytes = lookupPath c.path s := by
    rw [lookupPath_eq]
    apply resolve_congr <;> rfl
  have hc := aevosfsCreate_names h0 ⟨rfl,rfl⟩ c.path c.type (by rw [hl]; exact hp)
  rw [Resolves,lookupPath_eq,Creation.run,hr,hw]
  exact hc

theorem mounted_root (hb : Blank s) : (mounted s).inodeTable 0 = rootInode := by
  simp [mounted_blank hb]

theorem mounted_free (hb : Blank s) (hd : d ≠ 0) : (mounted s).inodeTable d = Inode.zero := by
  simp [mounted_blank hb,hd]

theorem mounted_entries (hb : Blank s) (hw : s.writes = []) (d : Fin maxInodes) :
    (mounted s).entries d = [] := by
  by_cases hd : d = 0
  · have hs : rootInode.scanned = [1] := by decide
    have hbl : (mounted s).blocks 1 = zeros := by
      rw [mounted_blank hb,hw]
      rfl
    rw [Fs.entries,hd,mounted_root hb,hs,flatMap_cons,hbl,blockEntries_zeros]
    rfl
  · exact entries_noBlocks (fun k => by rw [mounted_free hb hd]; rfl)

theorem mounted_names (hb : Blank s) (hw : s.writes = []) : NamesOk (mounted s) := by
  have hown := mounted_owned hb
  refine ⟨hown,fun d k l hkl hl => ?_,fun k l hk heq => ?_,fun d e he => ?_,fun d => ?_,?_⟩
  · obtain ⟨rfl,rfl,-⟩ := mounted_list hb hl
    obtain rfl : k = 0 := Fin.le_zero_iff.mp hkl
    exact hl
  · have hz : ∀ d, ((mounted s).inodeTable d).id ≠ 0 → d = 0 := by
      intro d hd
      by_contra hne
      rw [mounted_free hb hne] at hd
      exact hd rfl
    rw [hz k hk,hz l (heq ▸ hk)]
  · rw [mounted_entries hb hw] at he
    cases he
  · rw [mounted_entries hb hw]
    exact nodup_nil
  · rw [mounted_blank hb]
    show 2 < 2^64
    decide

end

theorem creations_names (h : NamesOk s) (cs : List Creation) (hok : CreationsOk s cs) : NamesLaw s cs := by
  induction cs generalizing s with
  | nil => exact h.distinct
  | cons c cs ih =>
    obtain ⟨hn,hres⟩ := create_names h hok.1
    exact ⟨h.distinct,hres,ih hn hok.2⟩

theorem run_namesLaw (s : Fs) (hblank : Blank s) (hwrites : s.writes = []) (cs : List Creation)
    (hok : CreationsOk (mounted s) cs) : NamesLaw (mounted s) cs :=
  creations_names (mounted_names hblank hwrites) cs hok

theorem run_namesLaw_pathA : CreationsOk (mounted bootFs) [⟨pathA,.file,[],[]⟩] ∧
    NamesLaw (mounted bootFs) [⟨pathA,.file,[],[]⟩] := by
  have hok : CreationsOk (mounted bootFs) [⟨pathA,.file,[],[]⟩] := by
    refine ⟨⟨rfl,rfl,fun _ => ⟨by decide,by decide,by decide,by decide +kernel,?_,fun i => ?_⟩⟩,trivial⟩
    · simp [mounted_blank bootFs_blank]
    · by_cases hi : i = 0
      · simp [mounted_blank bootFs_blank,hi,rootInode]
      · simp [mounted_blank bootFs_blank,hi,Inode.zero]
  exact ⟨hok,run_namesLaw bootFs bootFs_blank rfl _ hok⟩

theorem create_twice : ¬ NamesLaw (mounted bootFs) [⟨pathA,.file,[],[]⟩,⟨pathA,.file,[],[]⟩] := by
  rintro ⟨-,-,-,-,hnames⟩
  exact absurd (hnames 0 2 [(2,[97]),(3,[97])] (by decide +kernel)) (by decide)

/-! A checkpoint and a restart: what `aevosfs_mount` finds of the files. -/

variable {i : Fin maxInodes} {s : Fs}

theorem readSuperblock_put (sb : Superblock) (hm : sb.magic < 2^32) (hr : sb.rootInode < 2^64) :
    (readSuperblock (put zeros 0 sb.bytes)).magic = sb.magic ∧
      (readSuperblock (put zeros 0 sb.bytes)).rootInode = sb.rootInode := by
  have hlen : sb.bytes.length = 52 := by simp [Superblock.bytes]
  have h0 : get (put zeros 0 sb.bytes) 0 4 = leBytes 4 sb.magic := by
    have h := @get_put_inside zeros 0 0 4 sb.bytes (by omega)
    exact h.trans (slice_front _ (leBytes_length 4 _))
  have h28 : get (put zeros 0 sb.bytes) 28 8 = leBytes 8 sb.rootInode := by
    have h := @get_put_inside zeros 0 28 8 sb.bytes (by omega)
    refine h.trans ?_
    simp (disch := simp) only [Superblock.bytes,slice_append_right,slice_front,leBytes_length,
      Nat.reduceSub]
  exact ⟨by rw [readSuperblock,h0,leValue_leBytes 4 _ hm],
    by rw [readSuperblock,h28,leValue_leBytes 8 _ hr]⟩

theorem aevosfsCheckpoint_super (hok : (aevosfsCheckpoint s).1 = .ok ()) :
    (aevosfsCheckpoint s).2.blocks 0 = put zeros 0 (aevosfsCheckpoint s).2.sb.bytes := by
  unfold aevosfsCheckpoint at hok ⊢
  split at hok
  · cases hok
  · next s1 hc =>
    dsimp only at hok ⊢
    split at hok
    · next hw => exact writeBlock_block _ _ hw
    · cases hok

def rebuiltRoot : Inode := ⟨1,.dir,0,fun _ => 0,0o755,1⟩

theorem rebuildRoot_empty (ht : s.inodeTable = fun _ => Inode.zero) (hn : s.nextInodeId = 1)
    (hr : s.sb.rootInode = 1) : (rebuildRoot s).sb = s.sb ∧
      (rebuildRoot s).inodeTable = update (fun _ => Inode.zero) 0 rebuiltRoot := by
  have hnn : findInode 1 s = none := by
    cases hf : findInode 1 s with
    | none => rfl
    | some j =>
      have hid := findInode_id hf
      rw [ht] at hid
      cases hid
  have hfr : findInode 0 s = some 0 := findInode_first (by rw [ht]; rfl)
  rw [rebuildRoot,hr,hnn]
  simp [allocInode,hfr,Fs.setInode,ht,hn,hr,rebuiltRoot]

theorem mounted_super {sb : Superblock} (hrd : s.reads = [])
    (hb : s.blocks 0 = put zeros 0 sb.bytes) (hmg : sb.magic = aevosfsMagic)
    (hrt : sb.rootInode = 1) : (mounted s).sb.rootInode = 1 ∧
      (mounted s).inodeTable = update (fun _ => Inode.zero) 0 rebuiltRoot := by
  obtain ⟨hm,hr⟩ := readSuperblock_put sb (by rw [hmg]; decide) (by rw [hrt]; decide)
  have hl : (loadSuperblock (aevosfsInit s)).sb = readSuperblock (put zeros 0 sb.bytes) := by
    rw [loadSuperblock,readBlock_nil (s := aevosfsInit s) hrd]
    exact congrArg readSuperblock hb
  have hv : ¬ (loadSuperblock (aevosfsInit s)).sb.magic ≠ aevosfsMagic := by
    rw [hl,hm,hmg]
    exact not_not.mpr rfl
  rw [mounted,aevosfsMount,if_neg hv]
  obtain ⟨hsb,ht⟩ := rebuildRoot_empty (s := loadSuperblock (aevosfsInit s)) rfl rfl
    (by rw [hl,hr,hrt])
  exact ⟨by rw [hsb,hl,hr,hrt],ht⟩

theorem resolve_rebuilt (hr : s.sb.rootInode = 1)
    (ht : s.inodeTable = update (fun _ => Inode.zero) 0 rebuiltRoot) (path : Bytes) :
    s.resolve path = if components path = [] then some 0 else none := by
  have hs : s.inodeTable 0 = rebuiltRoot := by simp [ht]
  have he : s.entries 0 = [] := entries_noBlocks (fun k => by rw [hs]; rfl)
  rw [Fs.resolve,hr,findInode_first (by rw [hs]; rfl),bind_some]
  cases components path with
  | nil => rfl
  | cons c cs => simp [Fs.walk,he]

def checkpointed (s : Fs) : Except Errno Unit × Fs := aevosfsCheckpoint { s with reads := [], writes := [] }

theorem checkpointed_super (hok : (checkpointed s).1 = .ok ()) :
    (checkpointed s).2.blocks 0 = put zeros 0 (checkpointed s).2.sb.bytes := by
  unfold checkpointed at hok ⊢
  exact aevosfsCheckpoint_super hok

def restarted (s : Fs) : Fs := mounted { (checkpointed s).2 with reads := [], writes := [] }

theorem restarted_root (hok : (checkpointed s).1 = .ok ())
    (hm : (checkpointed s).2.sb.magic = aevosfsMagic) (hr : (checkpointed s).2.sb.rootInode = 1) :
    (restarted s).sb.rootInode = 1 ∧
      (restarted s).inodeTable = update (fun _ => Inode.zero) 0 rebuiltRoot := by
  have hb := checkpointed_super hok
  rw [restarted]
  generalize (checkpointed s).2 = t at *
  exact mounted_super rfl hb hm hr

/-- Every path found in `s` is found in `s'`, and a file there reads the same. -/
def Persisted (s s' : Fs) : Prop :=
  ∀ path i, lookupPath path s = some i → ∃ j, lookupPath path s' = some j ∧
    ((s.inodeTable i).type = .file → (s'.inodeTable j).type = .file ∧
      (s'.inodeTable j).size = (s.inodeTable i).size ∧
      ∀ offset n, readBack j offset n s' = readBack i offset n s)

def RootEmpty (s : Fs) : Prop :=
  ∀ name : CStr, name.bytes ≠ [] → slash ∉ name.bytes → name.bytes.length < maxName →
    lookupPath name s = none

theorem persisted_rootEmpty {s' : Fs} (hr : s'.sb.rootInode = 1)
    (ht : s'.inodeTable = update (fun _ => Inode.zero) 0 rebuiltRoot) (h : Persisted s s') : RootEmpty s := by
  intro name hne hs hlen
  by_contra hsm
  obtain ⟨i,hi⟩ := Option.ne_none_iff_exists'.mp hsm
  obtain ⟨j,hj,-⟩ := h name i hi
  rw [lookupPath_eq,resolve_rebuilt hr ht,components_name hs hne hlen] at hj
  cases hj

theorem rootEmpty_persisted {s' : Fs} (hrt : s.sb.rootInode = 1) (hid : (s.inodeTable 0).id = 1)
    (hdir : (s.inodeTable 0).type = .dir) (hr' : s'.sb.rootInode = 1)
    (ht : s'.inodeTable = update (fun _ => Inode.zero) 0 rebuiltRoot) (h : RootEmpty s) : Persisted s s' := by
  have hr : ∀ path, s.resolve path = s.walk (components path) 0 := by
    intro path
    rw [Fs.resolve,hrt,findInode_first hid,bind_some]
  intro path i hi
  rw [lookupPath_eq,hr] at hi
  rw [lookupPath_eq,resolve_rebuilt hr' ht]
  cases hc : components path.bytes with
  | nil =>
    rw [hc] at hi
    obtain rfl : 0 = i := some.inj hi
    refine ⟨0,rfl,fun hf => ?_⟩
    rw [hdir] at hf
    cases hf
  | cons c cs =>
    -- the first component alone would resolve
    have hmem : c ∈ components path.bytes := by simp [hc]
    obtain ⟨hlen,hsub⟩ := components_mem hmem
    obtain ⟨hs,hne⟩ := components_proper hmem
    have hn := h ⟨c,fun h0 => path.noNul (hsub 0 h0)⟩ hne hs hlen
    rw [lookupPath_eq,hr,components_name hs hne hlen] at hn
    rw [hc,← List.singleton_append,walk_append,hn] at hi
    cases hi

theorem restart_persisted_iff (s : Fs) (hblank : Blank s) (cs : List Call)
    (hok : (checkpointed (run (mounted s) cs)).1 = .ok ()) :
    Persisted (run (mounted s) cs) (restarted (run (mounted s) cs)) ↔ RootEmpty (run (mounted s) cs) := by
  have hkept := run_steady (mounted_owned hblank) cs
  have hid : ((mounted s).inodeTable 0).id = 1 := by rw [mounted_root hblank]; rfl
  have hpos : ((mounted s).inodeTable 0).id ≠ 0 := by rw [hid]; exact one_ne_zero
  have hdir : ((mounted s).inodeTable 0).type = .dir := by rw [mounted_root hblank]; rfl
  have hmagic : (mounted s).sb.magic = aevosfsMagic := by rw [mounted_blank hblank]; rfl
  have hafter : Steady (mounted s) (checkpointed (run (mounted s) cs)).2 :=
    aevosfsCheckpoint_steady (hkept.congr rfl rfl rfl rfl)
  obtain ⟨hroot',htable⟩ := restarted_root hok (hafter.magic.trans hmagic) hafter.root
  exact ⟨persisted_rootEmpty hroot' htable,
    rootEmpty_persisted hkept.root ((hkept.id 0 hpos).trans hid) ((hkept.type 0 hpos).trans hdir)
      hroot' htable⟩

/-- A directory with a file in it. -/
def nested : Fs :=
  run (mounted bootFs) [⟨.create pathA .dir,[],[]⟩,⟨.create (.of [47,97,47,98]) .file,[],[]⟩]

theorem restart_persisted_nested : lookupPath (.of [47,97,47,98]) nested = some 2 ∧
    (checkpointed nested).1 = .ok () ∧ ¬ Persisted nested (restarted nested) := by
  have hok : (checkpointed nested).1 = .ok () := by decide +kernel
  refine ⟨by decide +kernel,hok,fun hp => ?_⟩
  have hempty : RootEmpty nested := (restart_persisted_iff bootFs bootFs_blank _ hok).mp hp
  have hfound : lookupPath (.of [97]) nested = some 1 := by decide +kernel
  rw [hempty (.of [97]) (by decide) (by decide) (by decide)] at hfound
  cases hfound

theorem restart_loses_file :
    (checkpointed (run (mounted bootFs) [⟨.create pathA .file,[],[]⟩])).1 = .ok () ∧
      ¬ Persisted (run (mounted bootFs) [⟨.create pathA .file,[],[]⟩])
        (restarted (run (mounted bootFs) [⟨.create pathA .file,[],[]⟩])) := by
  refine ⟨by decide +kernel,fun hpersist => ?_⟩
  obtain ⟨j,hj,-⟩ := hpersist pathA 1 (by decide +kernel)
  have hnone : lookupPath pathA
      (restarted (run (mounted bootFs) [⟨.create pathA .file,[],[]⟩])) = none := by decide +kernel
  rw [hnone] at hj
  cases hj

end AevOS.AevosFs
