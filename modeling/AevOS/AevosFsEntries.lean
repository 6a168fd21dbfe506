import AevOS.AevosFsWriteRead

/-! Paths as lists of components, and directories as lists of entries. -/

namespace AevOS.AevosFs
open Wire Buffer ArrayPrefix Function
open List hiding beq_eq_decide

variable {p c path : Bytes} {n : Inode} {d : Fin maxInodes} {k : Fin directBlocks} {b : Nat}

theorem components_of_dropWhile {q : Bytes} (h : p.dropWhile (· = slash) = q) :
    components p = if q = [] then [] else (q.takeWhile (· ≠ slash)).take (maxName-1) ::
      components (q.drop ((q.takeWhile (· ≠ slash)).take (maxName-1)).length) := by
  rw [components]
  simp only [h]
  split
  · rfl
  · rfl

@[simp] theorem components_nil : components [] = [] := by rw [components]; rfl

theorem takeWhile_append_slash (q n : Bytes) :
    (q ++ slash :: n).takeWhile (· ≠ slash) = q.takeWhile (· ≠ slash) := by
  induction q with
  | nil => simp
  | cons c q ih =>
    by_cases hc : c = slash
    · simp [hc]
    · simpa [hc] using ih

theorem components_append (p n : Bytes) : components (p ++ slash :: n) = components p ++ components n := by
  fun_induction components p with
  | case1 p q hq =>
    have hq : p.dropWhile (· = slash) = [] := hq
    have hall : (p ++ slash :: n).dropWhile (· = slash) = n.dropWhile (· = slash) := by
      rw [dropWhile_append,hq]
      simp
    rw [components_of_dropWhile hall,nil_append,← components_of_dropWhile rfl]
  | case2 p q hq c ih =>
    have hd : (p ++ slash :: n).dropWhile (· = slash) = q ++ slash :: n := by
      rw [dropWhile_append]
      simp [show p.dropWhile (· = slash) = q from rfl,hq]
    have hle : c.length ≤ q.length := by
      have ht := ( takeWhile_prefix (l := q) (· ≠ slash)).length_le
      have hc : c.length ≤ (q.takeWhile (· ≠ slash)).length := length_take_le' _ _
      omega
    rw [components_of_dropWhile hd,if_neg (by simp),takeWhile_append_slash,
      drop_append_of_le_length hle,ih,cons_append]

theorem components_name {n : Bytes} (hs : slash ∉ n) (hpos : n ≠ []) (hlen : n.length < maxName) :
    components n = [n] := by
  have hd : n.dropWhile (· = slash) = n := by
    obtain ⟨c,l,rfl⟩ := exists_cons_of_ne_nil hpos
    have hc : c ≠ slash := fun e => hs (e ▸ mem_cons_self)
    simp [hc]
  have ht : n.takeWhile (· ≠ slash) = n := by
    rw [takeWhile_eq_self_iff]
    intro c hc
    simpa using fun e : c = slash => hs (e ▸ hc)
  have hsh : n.take (maxName-1) = n := take_of_length_le (by omega)
  rw [components_of_dropWhile hd,if_neg hpos,ht,hsh]
  simp

theorem components_mem (h : c ∈ components p) : c.length < maxName ∧ ∀ x ∈ c, x ∈ p := by
  fun_induction components p with
  | case1 p q hq => cases h
  | case2 p q hq d ih =>
    have hsub : ∀ x ∈ q, x ∈ p := fun x hx => (dropWhile_suffix _).subset hx
    rcases mem_cons.mp h with rfl | h
    · refine ⟨?_,fun x hx => hsub x ?_⟩
      · have hlen : (take (maxName-1) (q.takeWhile (· ≠ slash))).length ≤ maxName-1 :=
          length_take_le _ _
        exact lt_of_le_of_lt hlen (by decide)
      · exact ( takeWhile_prefix _).subset (mem_of_mem_take hx)
    · obtain ⟨hlen,hmem⟩ := ih h
      exact ⟨hlen,fun x hx => hsub x (mem_of_mem_drop (hmem x hx))⟩

theorem components_proper (h : c ∈ components p) : slash ∉ c ∧ c ≠ [] := by
  fun_induction components p with
  | case1 p q hq => cases h
  | case2 p q hq d ih =>
    rcases mem_cons.mp h with rfl | h
    · refine ⟨fun hmem => ?_,fun hnil => ?_⟩
      · have ht := mem_takeWhile_imp (mem_of_mem_take hmem)
        simp at ht
      have hh := head_dropWhile_not (· = slash) (l := p) hq
      obtain ⟨x,l,hx⟩ := exists_cons_of_ne_nil hq
      have hx : p.dropWhile (· = slash) = x :: l := hx
      have hne : x ≠ slash := by simpa [hx] using hh
      have hnil : ((p.dropWhile (· = slash)).takeWhile (· ≠ slash)).take (maxName-1) = [] := hnil
      simp [hx,hne,maxName] at hnil
    · exact ih h

def lastName (path : Bytes) : Bytes := (path.reverse.takeWhile (· ≠ slash)).reverse

theorem lastName_split (h : slash ∈ path) :
    ∃ p, path = p ++ slash :: lastName path ∧ slash ∉ lastName path := by
  have hs := takeWhile_append_dropWhile (p := (· ≠ slash)) (l := path.reverse)
  have hne : path.reverse.dropWhile (· ≠ slash) ≠ [] := by
    intro hnil
    rw [hnil,append_nil] at hs
    have hall := takeWhile_eq_self_iff.mp hs slash (mem_reverse.mpr h)
    simp at hall
  obtain ⟨c,l,hl⟩ := exists_cons_of_ne_nil hne
  have hc : c = slash := by
    have hh := head_dropWhile_not (· ≠ slash) (l := path.reverse) hne
    simp only [hl,head_cons] at hh
    simpa using hh
  subst hc
  rw [hl] at hs
  refine ⟨l.reverse,?_,?_⟩
  · have hrev := congrArg reverse hs
    rw [reverse_append,reverse_cons,reverse_reverse,append_assoc] at hrev
    exact hrev.symm
  · intro hmem
    have hin := mem_takeWhile_imp (mem_reverse.mp hmem)
    simp at hin

theorem splitPath_eq {n : Bytes} (hpt : path = p ++ slash :: n) (hsl : slash ∉ n)
    (hlen : path.length < vfsPathMax) (hnm : n.length < maxName) :
    splitPath path = (if p = [] then [slash] else p,n) := by
  have ht : path.take (vfsPathMax-1) = path := take_of_length_le (by omega)
  have hidx : path.reverse.idxOf slash = n.length := by
    have hn : slash ∉ n.reverse := fun h => hsl (mem_reverse.mp h)
    rw [hpt,reverse_append,reverse_cons,append_assoc,idxOf_append_of_notMem hn]
    simp
  have hl : path.length-1-n.length = p.length := by
    rw [hpt]
    simp
  have hs : n.take (maxName-1) = n := take_of_length_le (by omega)
  unfold splitPath
  simp only [ht,hidx,hl]
  by_cases hp : p = []
  · subst hp
    simp [hpt,hs]
  · have hpos : p.length ≠ 0 := fun e => hp (length_eq_zero_iff.mp e)
    simp [hpos,hp,hpt,hs]

theorem take_terminated {l : Bytes} (hc : 0 ∉ c) (hlen : c.length < l.length) :
    l.take (c.length+1) = c ++ [0] ↔ l.takeWhile (· ≠ 0) = c := by
  induction c generalizing l with
  | nil =>
    cases l with
    | nil => simp at hlen
    | cons x l =>
      by_cases hx : x = 0
      · simp [hx]
      · simp [hx]
  | cons d c ih =>
    cases l with
    | nil => simp at hlen
    | cons x l =>
      rw [mem_cons,not_or] at hc
      have hd : d ≠ 0 := fun e => hc.1 e.symm
      have hih := ih (l := l) hc.2 (by simpa using hlen)
      by_cases hx : x = d
      · subst hx
        simpa [hd] using hih
      · by_cases hx0 : x = 0
        · simp [hx0,Ne.symm hd]
        · simp [hx,hx0]

theorem findEntry_eq (hc : 0 ∉ c) (hlen : c.length < maxName) (b : Buf) :
    findEntry c b = ((blockEntries b).find? fun e => e.2 = c).map Prod.fst := by
  have hn : ∀ i, entryNamed b c i =
      decide ((get b (dirEntrySize*i+8) maxName).takeWhile (· ≠ 0) = c) := by
    intro i
    have ht : get b (dirEntrySize*i+8) (c.length+1) =
        (get b (dirEntrySize*i+8) maxName).take (c.length+1) := (firsts_take _ hlen).symm
    rw [entryNamed,ht,beq_eq_decide,decide_eq_decide]
    exact take_terminated hc (by simpa using hlen)
  have hs : ∀ i, (slotEntry b i).any (fun e => e.2 = c) = decide (entryId b i ≠ 0 ∧ entryNamed b c i = true) := by
    intro i
    by_cases hi : entryId b i = 0
    · simp [slotEntry,hi]
    · simp [slotEntry,hi,hn]
  rw [findEntry,blockEntries,find?_filterMap]
  simp only [hs]
  cases hf : (List.range entriesPerBlock).find?
      (fun i => decide (entryId b i ≠ 0 ∧ entryNamed b c i = true)) with
  | none => rfl
  | some i =>
    have hi := find?_some hf
    simp only [decide_eq_true_eq] at hi
    simp [slotEntry,hi.1]

theorem dirEntryBytes_length (id : Nat) (name : Bytes) (type : InodeType) :
    (dirEntryBytes id name type).length = dirEntrySize := by
  have hle : (name.take (maxName-1)).length ≤ maxName := by
    have ht := length_take_le (maxName-1) name
    have hmax : maxName = 128 := rfl
    omega
  simp only [dirEntryBytes,length_append,leBytes_length,length_replicate,dirEntrySize]
  have hmax : maxName = 128 := rfl
  omega

section
variable {b : Buf} {id k : Nat} {name : Bytes} {type : InodeType}

theorem entryId_put (hid : id < 2^64) (i : Nat) :
    entryId (put b (dirEntrySize*k) (dirEntryBytes id name type)) i = if i = k then id else entryId b i := by
  rw [entryId]
  split
  · next hi =>
    subst hi
    have hget : get (put b (dirEntrySize*i) (dirEntryBytes id name type)) (dirEntrySize*i+0) 8 =
        slice (dirEntryBytes id name type) 0 8 :=
      get_put_inside (by rw [dirEntryBytes_length]; decide)
    rw [add_zero] at hget
    rw [hget,dirEntryBytes,slice_front _ (leBytes_length 8 id),leValue_leBytes 8 id hid]
  · next hi =>
    rw [get_put_outside (by
      rw [dirEntryBytes_length]
      simp only [dirEntrySize]
      omega)]
    rfl

theorem entryName_put (hn : 0 ∉ name) (hlen : name.length < maxName) (i : Nat) :
    (get (put b (dirEntrySize*k) (dirEntryBytes id name type)) (dirEntrySize*i+8) maxName).takeWhile (· ≠ 0) =
      if i = k then name else (get b (dirEntrySize*i+8) maxName).takeWhile (· ≠ 0) := by
  split
  · next hi =>
    subst hi
    have hs : name.take (maxName-1) = name := take_of_length_le (by omega)
    rw [get_put_inside (by rw [dirEntryBytes_length]; decide),dirEntryBytes,hs,
      slice_append_right _ _ (by simp),leBytes_length,Nat.sub_self,slice_front _ (by simp; omega)]
    obtain ⟨m,hm⟩ : ∃ m, maxName-name.length = m+1 := ⟨maxName-name.length-1,by omega⟩
    rw [hm,replicate_succ,takeWhile_append_of_pos,takeWhile_cons_of_neg (by simp),append_nil]
    intro x hx
    simpa using fun e : x = 0 => hn (e ▸ hx)
  · next hi =>
    rw [get_put_outside (by
      rw [dirEntryBytes_length]
      simp only [dirEntrySize,maxName]
      omega)]

theorem slotEntry_put (hid : id < 2^64) (hpos : id ≠ 0) (hn : 0 ∉ name)
    (hlen : name.length < maxName) (i : Nat) :
    slotEntry (put b (dirEntrySize*k) (dirEntryBytes id name type)) i =
      if i = k then some (id,name) else slotEntry b i := by
  rw [slotEntry,entryId_put hid,entryName_put hn hlen]
  by_cases hi : i = k
  · simp only [if_pos hi,if_neg hpos]
  · simp only [if_neg hi,slotEntry]

theorem blockEntries_put (hk : k < entriesPerBlock) (hf : entryId b k = 0) (hid : id < 2^64)
    (hpos : id ≠ 0) (hnm : 0 ∉ name) (hlen : name.length < maxName) : ∃ l m, blockEntries b = l ++ m ∧
      blockEntries (put b (dirEntrySize*k) (dirEntryBytes id name type)) = l ++ (id,name) :: m := by
  obtain ⟨l,m,hlm⟩ := append_of_mem (mem_range.mpr hk)
  have hn := nodup_range (n := entriesPerBlock)
  rw [hlm] at hn
  have hkl : k ∉ l := fun hm => (nodup_append.mp hn).2.2 k hm k mem_cons_self rfl
  have hkm : k ∉ m := (nodup_cons.mp (nodup_append.mp hn).2.1).1
  have hput := @slotEntry_put b id k name type hid hpos hnm hlen
  -- the other slots read as before
  have hs : ∀ is : List Nat, k ∉ is →
      is.filterMap (slotEntry (put b (dirEntrySize*k) (dirEntryBytes id name type))) =
        is.filterMap (slotEntry b) := by
    intro is hk
    apply filterMap_congr
    intro i hi
    rw [hput,if_neg (fun e : i = k => hk (e ▸ hi))]
  have hsl : slotEntry b k = none := if_pos hf
  refine ⟨l.filterMap (slotEntry b),m.filterMap (slotEntry b),?_,?_⟩
  · rw [blockEntries,hlm,filterMap_append,filterMap_cons_none hsl]
  · rw [blockEntries,hlm,filterMap_append,hs l hkl,
      filterMap_cons_some ((hput k).trans (if_pos rfl)),hs m hkm]

theorem freeEntry_some {i : Nat} (h : freeEntry b = some i) : i < entriesPerBlock ∧ entryId b i = 0 := by
  rw [freeEntry] at h
  exact ⟨mem_range.mp (mem_of_find?_eq_some h),by simpa using find?_some h⟩

theorem blockEntries_zeros : blockEntries zeros = [] := by
  rw [blockEntries,filterMap_eq_nil_iff]
  intro i _
  have hz : entryId zeros i = 0 := by
    simp [entryId,Buffer.get,firsts,zeros,leValue,range_succ]
  rw [slotEntry,if_pos hz]

end

def Fs.entries (s : Fs) (d : Fin maxInodes) : List (Nat × Bytes) :=
  (s.inodeTable d).scanned.flatMap fun blk => blockEntries (s.blocks blk)

def Fs.walk (s : Fs) : List Bytes → Fin maxInodes → Option (Fin maxInodes)
  | [], cur => some cur
  | c :: cs, cur =>
    if (s.inodeTable cur).type ≠ .dir then none
    else
      (((s.entries cur).find? fun e => e.2 = c).bind fun e => findInode e.1 s).bind (s.walk cs)

def Fs.resolve (s : Fs) (path : Bytes) : Option (Fin maxInodes) :=
  (findInode s.sb.rootInode s).bind (s.walk (components path))

section
variable {s : Fs}

theorem scanBlocks_entries (hr : s.reads = []) (hc : 0 ∉ c) (hlen : c.length < maxName)
    (d : Fin maxInodes) : ∃ r, scanBlocks (findEntry c) (s.inodeTable d).scanned s = (r,s) ∧
      r.map Prod.snd = ((s.entries d).find? fun e => e.2 = c).map Prod.fst := by
  refine ⟨_,scanBlocks_nil _ _ hr,?_⟩
  rw [Fs.entries,find?_flatMap]
  induction (s.inodeTable d).scanned with
  | nil => rfl
  | cons blk l ih =>
    rw [findSome?_cons,findSome?_cons,findEntry_eq hc hlen]
    cases hf : (blockEntries (s.blocks blk)).find? fun e => e.2 = c with
    | none => exact ih
    | some e => rfl

theorem walkPath_eq (hrd : s.reads = []) {cs : List Bytes}
    (hcs : ∀ c ∈ cs, 0 ∉ c ∧ c.length < maxName) (cur : Fin maxInodes) :
    walkPath cs cur s = (s.walk cs cur,s) := by
  induction cs generalizing cur with
  | nil => rw [walkPath,Fs.walk]
  | cons c cs ih =>
    obtain ⟨hc,hlen⟩ := hcs c mem_cons_self
    obtain ⟨r,hs,hr⟩ := scanBlocks_entries hrd hc hlen cur
    rw [walkPath,Fs.walk]
    split
    · rfl
    rw [hs]
    cases hf : (s.entries cur).find? fun e => e.2 = c with
    | none =>
      rw [hf] at hr
      obtain rfl := Option.map_eq_none_iff.mp hr
      rfl
    | some e =>
      rw [hf] at hr
      obtain ⟨⟨blk,id⟩,rfl,hid⟩ := Option.map_eq_some_iff.mp hr
      obtain rfl : id = e.1 := hid
      rw [Option.bind_some]
      dsimp only
      cases findInode e.1 s with
      | none => rfl
      | some next => exact ih (fun c hc => hcs c (mem_cons_of_mem _ hc)) next

theorem resolvePathInternal_eq (hr : s.reads = []) (hp : 0 ∉ path) :
    resolvePathInternal path s = (s.resolve path,s) := by
  rw [resolvePathInternal,Fs.resolve]
  cases findInode s.sb.rootInode s with
  | none => rfl
  | some cur =>
    refine walkPath_eq hr (fun c hc => ?_) cur
    obtain ⟨hlen,hmem⟩ := components_mem hc
    exact ⟨fun h0 => hp (hmem 0 h0),hlen⟩

theorem walk_append (cs ds : List Bytes) (cur : Fin maxInodes) :
    s.walk (cs ++ ds) cur = (s.walk cs cur).bind (s.walk ds) := by
  induction cs generalizing cur with
  | nil => rfl
  | cons c cs ih =>
    rw [cons_append,Fs.walk,Fs.walk]
    split
    · rfl
    · cases ((s.entries cur).find? fun e => e.2 = c).bind fun e => findInode e.1 s with
      | none => rfl
      | some next => exact ih next

theorem take_take_append {α : Type} (l m : List α) (n : Nat) : (l.take n ++ m).take n = (l ++ m).take n := by
  by_cases h : l.length ≤ n
  · rw [take_of_length_le h]
  have hlen : (l.take n).length = n := by
    rw [length_take]
    omega
  rw [take_append_of_le_length (by omega),take_append_of_le_length (by omega),take_take,min_self]

theorem listBlocks_eq (hr : s.reads = []) (max : Nat) (l : List Nat) (out : List (Nat × Bytes))
    (hout : out.length ≤ max) :
    listBlocks max l out s = ((out ++ l.flatMap fun blk => blockEntries (s.blocks blk)).take max,s) := by
  induction l generalizing out with
  | nil => simp [listBlocks,take_of_length_le hout]
  | cons blk l ih =>
    rw [listBlocks,readBlock_nil hr]
    simp only [Option.map_some,Option.getD_some]
    rw [ih _ (length_take_le _ _),flatMap_cons,← append_assoc,take_take_append]

theorem aevosfsListDir_eq (hr : s.reads = []) (hdir : (s.inodeTable d).type = .dir) (max : Nat) :
    aevosfsListDir d max s = (.ok ((s.entries d).take max),s) := by
  rw [aevosfsListDir,if_neg (not_not.mpr hdir),listBlocks_eq hr _ _ _ (Nat.zero_le _)]
  rfl

theorem takeWhile_ofFn {n m : Nat} {f : Fin n → Nat} (hlow : ∀ k, k.val < m → f k ≠ 0)
    (hh : ∀ k, m ≤ k.val → f k = 0) : (List.ofFn f).takeWhile (· ≠ 0) = (List.ofFn f).take m := by
  have hs := take_append_drop m (List.ofFn f)
  have hdr : ((List.ofFn f).drop m).takeWhile (· ≠ 0) = [] := by
    cases hd : (List.ofFn f).drop m with
    | nil => rfl
    | cons x l =>
      have hx : x = 0 := by
        have hget : (List.ofFn f)[m]? = some x := by
          rw [← head?_drop,hd]
          rfl
        obtain ⟨hm,hget⟩ := List.getElem?_eq_some_iff.mp hget
        rw [← hget,List.getElem_ofFn]
        exact hh _ (le_refl _)
      simp [hx]
  nth_rewrite 1 [← hs]
  rw [takeWhile_append_of_pos,hdr,append_nil]
  intro x hx
  obtain ⟨k,hk,rfl⟩ := mem_iff_getElem.mp hx
  rw [length_take] at hk
  simpa using hlow _ (by simp; omega)

def Inode.packed (n : Inode) : Prop := ∀ k l, k ≤ l → n.blockList l ≠ 0 → n.blockList k ≠ 0

theorem firstZero_spec (hk : (finRange directBlocks).find? (fun k => n.blockList k = 0) = some k) :
    n.blockList k = 0 ∧ ∀ j, j.val < k.val → n.blockList j ≠ 0 := by
  refine ⟨by simpa using find?_some hk,fun j hj => ?_⟩
  obtain ⟨-,i,hi,hik,hb⟩ := find?_eq_some_iff_getElem.mp hk
  rw [getElem_finRange] at hik
  have hne := hb j.val (by rw [← hik] at hj; exact hj)
  simpa using hne

theorem packed_update (h : n.packed)
    (hk : (finRange directBlocks).find? (fun k => n.blockList k = 0) = some k) (hb : b ≠ 0) :
    ({ n with blockList := update n.blockList k b } : Inode).packed := by
  obtain ⟨hz,hlow⟩ := firstZero_spec hk
  intro j l hjl hne
  dsimp only at hne ⊢
  by_cases hjk : j = k
  · subst hjk
    rwa [update_self]
  rw [update_of_ne hjk]
  by_cases hlt : j.val < k.val
  · exact hlow j hlt
  have hkj : k.val < j.val := by
    have hval : j.val ≠ k.val := fun e => hjk (Fin.ext e)
    omega
  have hkl : k < l := lt_of_lt_of_le hkj hjl
  rw [update_of_ne (ne_of_gt hkl)] at hne
  exact absurd hz (h k l (le_of_lt hkl) hne)

theorem scanned_update (hp : n.packed) (hb : b ≠ 0)
    (hk : (List.finRange directBlocks).find? (fun k => n.blockList k = 0) = some k) :
    ({ n with blockList := update n.blockList k b } : Inode).scanned = n.scanned ++ [b] := by
  obtain ⟨hz,hlow⟩ := firstZero_spec hk
  have hh : ∀ j, k.val ≤ j.val → n.blockList j = 0 := by
    intro j hj
    by_contra hne
    exact hp k j hj hne hz
  have hnew : (List.ofFn (update n.blockList k b)).takeWhile (· ≠ 0) =
      (List.ofFn (update n.blockList k b)).take (k.val+1) := by
    apply takeWhile_ofFn
    · intro j hj
      by_cases hjk : j = k
      · subst hjk
        simpa using hb
      · have hne : j.val ≠ k.val := fun e => hjk (Fin.ext e)
        rw [update_of_ne hjk]
        exact hlow j (by omega)
    intro j hj
    have hjk : j ≠ k := by
      rintro rfl
      omega
    rw [update_of_ne hjk]
    exact hh j (by omega)
  have hold : (List.ofFn n.blockList).takeWhile (· ≠ 0) = (List.ofFn n.blockList).take k.val :=
    takeWhile_ofFn hlow hh
  have hlen : k.val < (List.ofFn (update n.blockList k b)).length := by simp
  rw [Inode.scanned,Inode.scanned,hnew,hold,take_add_one,getElem?_eq_getElem hlen,List.getElem_ofFn]
  congr 1
  · apply ext_getElem
    · simp
    intro i hi _
    have hik : i < k.val := by
      rw [length_take] at hi
      omega
    have hne : (⟨i,by omega⟩ : Fin directBlocks) ≠ k := by
      intro e
      exact Nat.ne_of_lt hik (congrArg Fin.val e)
    rw [getElem_take,getElem_take,List.getElem_ofFn,List.getElem_ofFn,update_of_ne hne]
  · simp

theorem scanned_nodup (h : Owned s) (d : Fin maxInodes) : (s.inodeTable d).scanned.Nodup := by
  have hap : (ofFn (s.inodeTable d).blockList).Pairwise (fun a b => a ≠ 0 → a ≠ b) := by
    rw [pairwise_ofFn]
    intro k l hkl hne heq
    exact absurd (h.apart d k d l hne heq).2 (ne_of_lt hkl)
  have hsub := hap.sublist ( takeWhile_prefix (· ≠ 0)).sublist
  exact hsub.imp_of_mem fun ha _ hne => hne (scanned_mem ha).1

theorem scanned_apart (h : Owned s) {d' : Fin maxInodes} (hd : d' ≠ d) {blk : Nat}
    (hblk : blk ∈ (s.inodeTable d).scanned) : blk ∉ (s.inodeTable d').scanned := by
  intro hb'
  obtain ⟨hne,k,hk⟩ := scanned_mem hblk
  obtain ⟨-,l,hl⟩ := scanned_mem hb'
  exact hd (h.apart d' l d k (by rw [Fs.list,hl]; exact hne) (hl.trans hk.symm)).1

theorem entries_congr {s' : Fs} (ht : (s'.inodeTable d).scanned = (s.inodeTable d).scanned)
    (hb : ∀ blk ∈ (s.inodeTable d).scanned, s'.blocks blk = s.blocks blk) : s'.entries d = s.entries d := by
  rw [Fs.entries,Fs.entries,ht]
  apply flatMap_congr
  intro blk hblk
  rw [hb blk hblk]

section
variable {d : Fin maxInodes} {id blk k : Nat} {name : Bytes} {type : InodeType}

theorem entries_slot (type : InodeType) (h : Owned s) (hblk : blk ∈ (s.inodeTable d).scanned) (hk : k < entriesPerBlock)
    (hf : entryId (s.blocks blk) k = 0) (hid : id < 2^64) (hpos : id ≠ 0) (hnm : 0 ∉ name)
    (hlen : name.length < maxName) (s' : Fs) (ht : s'.inodeTable = s.inodeTable)
    (hbl : s'.blocks = update s.blocks blk
      (put (s.blocks blk) (dirEntrySize*k) (dirEntryBytes id name type))) :
    (∃ l m, s.entries d = l ++ m ∧ s'.entries d = l ++ (id,name) :: m) ∧
      ∀ d', d' ≠ d → s'.entries d' = s.entries d' := by
  constructor
  · obtain ⟨l,m,hlm⟩ := append_of_mem hblk
    have hn := scanned_nodup h d
    rw [hlm] at hn
    have hl : blk ∉ l := fun hm => (nodup_append.mp hn).2.2 blk hm blk mem_cons_self rfl
    have hm : blk ∉ m := (nodup_cons.mp (nodup_append.mp hn).2.1).1
    have hs : ∀ l : List Nat, blk ∉ l →
        l.flatMap (fun b => blockEntries (s'.blocks b)) = l.flatMap fun b => blockEntries (s.blocks b) := by
      intro l hl
      apply flatMap_congr
      intro b hb
      rw [hbl,update_of_ne (fun e : b = blk => hl (e ▸ hb))]
    obtain ⟨l1,m1,hold,hnew⟩ := @blockEntries_put _ id k name type hk hf hid hpos hnm hlen
    refine ⟨l.flatMap (fun b => blockEntries (s.blocks b)) ++ l1,
      m1 ++ m.flatMap fun b => blockEntries (s.blocks b),?_,?_⟩
    · rw [Fs.entries,hlm,flatMap_append,flatMap_cons,hold]
      simp only [append_assoc]
    · rw [Fs.entries,ht,hlm,flatMap_append,flatMap_cons,hs l hl,hs m hm,hbl,update_self,hnew]
      simp only [append_assoc,cons_append]
  intro d' hd'
  apply entries_congr
  · rw [ht]
  intro b hb
  rw [hbl,update_of_ne]
  rintro rfl
  exact scanned_apart h hd' hblk hb

theorem blockEntries_first (hid : id < 2^64) (hpos : id ≠ 0) (hn : 0 ∉ name) (hlen : name.length < maxName) :
    blockEntries (put zeros 0 (dirEntryBytes id name type)) = [(id,name)] := by
  obtain ⟨l,m,hold,hnew⟩ := @blockEntries_put zeros id 0 name type (by decide)
    (by decide) hid hpos hn hlen
  rw [blockEntries_zeros] at hold
  obtain ⟨rfl,rfl⟩ := append_eq_nil_iff.mp hold.symm
  exact hnew

theorem entries_block (type : InodeType) (hp : (s.inodeTable d).packed) {k : Fin directBlocks}
    (hk : (finRange directBlocks).find? (fun k => (s.inodeTable d).blockList k = 0) = some k)
    (hid : id < 2^64) (hpos : id ≠ 0) (hn : 0 ∉ name) (hlen : name.length < maxName)
    (hb : blk ≠ 0) (hls : ∀ d l, s.list d l ≠ blk) (s' : Fs)
    (ht : s'.inodeTable = (s.setBlock d k blk).inodeTable)
    (hbl : s'.blocks = update s.blocks blk (put zeros 0 (dirEntryBytes id name type))) :
    (∃ l m, s.entries d = l ++ m ∧ s'.entries d = l ++ (id,name) :: m) ∧
      ∀ d', d' ≠ d → s'.entries d' = s.entries d' := by
  have hold : ∀ d', ∀ b ∈ (s.inodeTable d').scanned, s'.blocks b = s.blocks b := by
    intro d' b hmem
    obtain ⟨-,l,hl⟩ := scanned_mem hmem
    rw [hbl,update_of_ne (fun e => hls d' l (hl.trans e))]
  constructor
  · have hs : (s'.inodeTable d).scanned = (s.inodeTable d).scanned ++ [blk] := by
      rw [ht,← scanned_update hp hb hk]
      simp [Fs.setBlock,Fs.setInode]
    have hf : (s.inodeTable d).scanned.flatMap (fun b => blockEntries (s'.blocks b)) = s.entries d := by
      apply flatMap_congr
      intro b hb
      rw [hold d b hb]
    have hnew : s'.blocks blk = put zeros 0 (dirEntryBytes id name type) := by
      rw [hbl,update_self]
    refine ⟨s.entries d,[],(append_nil _).symm,?_⟩
    rw [Fs.entries,hs,flatMap_append,hf,flatMap_singleton,hnew,blockEntries_first hid hpos hn hlen]
  intro d' hd'
  apply entries_congr
  · rw [ht]
    simp [Fs.setBlock,Fs.setInode,hd']
  · exact hold d'

end

end

end AevOS.AevosFs
