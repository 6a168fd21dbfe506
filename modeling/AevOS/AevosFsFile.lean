import AevOS.AevosFs

/-! What `aevosfs_write` does to the bytes of a file and `aevosfs_read` returns of them. -/

namespace AevOS.AevosFs
open Wire Buffer ArrayPrefix List Function

def Fs.phys (s : Fs) (i : Fin maxInodes) (p : Nat) : Nat :=
  if h : p/blockSize < directBlocks then s.list i ⟨p/blockSize,h⟩ else 0

def Fs.cell (s : Fs) (i : Fin maxInodes) (p : Nat) : Option UInt8 :=
  if s.phys i p = 0 then none else some (s.blocks (s.phys i p) (p%blockSize))

structure Clean (s : Fs) : Prop extends Owned s where
  blank : ∀ b, s.sb.logHead ≤ b → s.blocks b = zeros

def Fs.quiet (s : Fs) : Prop := ∀ f ∈ s.reads, f = false

theorem blockSize_pos : 0 < blockSize := by decide

variable {p n blk b pos : Nat} {k : Fin directBlocks} {c c' : Option UInt8} {part : Bytes}

section
variable {s s' : Fs} {i : Fin maxInodes}

theorem phys_eq (h : p/blockSize = k.val) : s.phys i p = s.list i k := by
  have hk : p/blockSize < directBlocks := h ▸ k.isLt
  rw [Fs.phys,dif_pos hk]
  congr 1
  exact Fin.ext h

theorem cell_isSome : s.cell i p ≠ none ↔ s.phys i p ≠ 0 := by
  simp [Fs.cell]

theorem cell_congr (hl : ∀ k, s'.list i k = s.list i k)
    (hb : ∀ k, s.list i k ≠ 0 → s'.blocks (s.list i k) = s.blocks (s.list i k)) (p : Nat) :
    s'.cell i p = s.cell i p := by
  by_cases hk : p/blockSize < directBlocks
  · have h1 := phys_eq (s := s) (i := i) (p := p) (k := ⟨_,hk⟩) rfl
    have h2 := phys_eq (s := s') (i := i) (p := p) (k := ⟨_,hk⟩) rfl
    by_cases hz : s.list i ⟨_,hk⟩ = 0
    · simp [Fs.cell,h1,h2,hl,hz]
    · simp [Fs.cell,h1,h2,hl,hz,hb _ hz]
  · simp [Fs.cell,Fs.phys,hk]

theorem quiet_tail (h : s.quiet) : ∀ f ∈ s.reads.tail, f = false :=
  fun f hf => h f (mem_of_mem_tail hf)

theorem readBlock_quiet (h : s.quiet) (blk : Nat) :
    readBlock blk s = (some (s.blocks blk),{ s with reads := s.reads.tail }) := by
  rw [readBlock]
  cases hr : s.reads with
  | nil => rfl
  | cons f l =>
    have hf : f = false := h f (by simp [hr])
    simp [hf]

theorem div_of_range (hn : n ≤ blockSize-pos%blockSize) (hlow : pos ≤ p) (hh : p < pos+n) :
    p/blockSize = pos/blockSize ∧ p%blockSize = pos%blockSize+(p-pos) := by
  simp only [blockSize] at hn ⊢
  omega

theorem get_cells (hn : n ≤ blockSize-p%blockSize) (hp : s.phys i p ≠ 0) :
    get (s.blocks (s.phys i p)) (p%blockSize) n = firsts (fun k => (s.cell i (p+k)).getD 0) n := by
  refine firsts_congr fun k hk => ?_
  obtain ⟨hdiv,hmod⟩ := div_of_range (p := p+k) hn (Nat.le_add_right p k) (by omega)
  have hph : s.phys i (p+k) = s.phys i p := by simp [Fs.phys,hdiv]
  simp [Fs.cell,hph,hp,hmod]

theorem readLoop_cells {offset size : Nat} {out : Bytes} (hq : s.quiet) (hle : out.length ≤ size)
    (hcl : ∀ k, k < size → s.cell i (offset+k) ≠ none)
    (hout : out = firsts (fun k => (s.cell i (offset+k)).getD 0) out.length) :
    (readLoop i offset size out s).1 = .ok (firsts (fun k => (s.cell i (offset+k)).getD 0) size) := by
  fun_induction readLoop i offset size out s with
  | case1 out s h pos hk phys hp =>
    have hc := hcl out.length h
    rw [cell_isSome,phys_eq (k := ⟨pos/blockSize,hk⟩) rfl] at hc
    exact absurd hp hc
  | case2 out s h pos hk phys hp s1 hr =>
    rw [readBlock_quiet hq] at hr
    cases hr
  | case3 out s h pos hk phys hp b s1 hr ih =>
    rw [readBlock_quiet hq] at hr
    obtain ⟨hb,rfl⟩ := Prod.mk.inj hr
    obtain rfl := Option.some.inj hb
    have hoff : pos%blockSize < blockSize := Nat.mod_lt _ blockSize_pos
    have hp : s.phys i pos ≠ 0 := by rwa [phys_eq (k := ⟨pos/blockSize,hk⟩) rfl]
    have hget := get_cells (s := s) (i := i) (p := pos)
      (n := min (blockSize-pos%blockSize) (size-out.length)) (min_le_left _ _) hp
    rw [phys_eq (k := ⟨pos/blockSize,hk⟩) rfl] at hget
    refine ih (quiet_tail hq) ?_ hcl ?_
    · simp only [length_append,get_length]
      omega
    · rw [length_append,get_length,firsts_add]
      simp only [pos,add_assoc] at hget
      exact congrArg₂ (· ++ ·) hout hget
  | case4 out s h pos hk =>
    have hc := hcl out.length h
    rw [cell_isSome,Fs.phys,dif_neg hk] at hc
    exact absurd rfl hc
  | case5 out s h =>
    have heq : out.length = size := by omega
    rw [hout,← heq]

theorem aevosfsRead_cells (s : Fs) (i : Fin maxInodes) (offset n : Nat) (hq : s.quiet)
    (hs : offset+n ≤ (s.inodeTable i).size) (hn : 0 < n)
    (hc : ∀ p, offset ≤ p → p < offset+n → s.cell i p ≠ none) :
    (aevosfsRead i offset n s).1 = .ok (firsts (fun k => (s.cell i (offset+k)).getD 0) n) := by
  rw [aevosfsRead,if_neg (by omega),Nat.min_eq_left (by omega)]
  exact readLoop_cells hq (Nat.zero_le n) (fun k hk => hc _ (Nat.le_add_right _ _) (by omega)) rfl

structure Only (i : Fin maxInodes) (s s' : Fs) : Prop where
  table : ∀ j, j ≠ i → s'.inodeTable j = s.inodeTable j
  cells : ∀ j, j ≠ i → ∀ p, s'.cell j p = s.cell j p
  id : (s'.inodeTable i).id = (s.inodeTable i).id
  type : (s'.inodeTable i).type = (s.inodeTable i).type

theorem Only.refl (i : Fin maxInodes) (s : Fs) : Only i s s :=
  ⟨fun _ _ => rfl,fun _ _ _ => rfl,rfl,rfl⟩

theorem Only.trans {s'' : Fs} (h : Only i s s') (h' : Only i s' s'') : Only i s s'' :=
  ⟨fun j hj => (h'.table j hj).trans (h.table j hj),
    fun j hj p => (h'.cells j hj p).trans (h.cells j hj p),h'.id.trans h.id,h'.type.trans h.type⟩

theorem Clean.congr (h : Clean s) (hsb : s'.sb = s.sb) (ht : s'.inodeTable = s.inodeTable)
    (hb : s'.blocks = s.blocks) (hh : s'.handed = s.handed) (hl : s'.logBlocks = s.logBlocks) : Clean s' :=
  ⟨h.toOwned.congr hsb ht hh hl,by
    rw [hsb,hb]
    exact h.blank⟩

theorem allocBlock_clean (h : Clean s) : (s.sb.freeBlocks = 0 ∧ allocBlock s = (0,s)) ∨
    (s.sb.freeBlocks ≠ 0 ∧ allocBlock s = (s.sb.logHead,s.advance) ∧ Clean s.advance ∧
      Spare s.advance s.sb.logHead) := by
  rcases allocBlock_owned h.toOwned with hn | ⟨hf,heq,hown,hs⟩
  · exact .inl hn
  · exact .inr ⟨hf,heq,⟨hown,fun b hb => h.blank b (Nat.le_of_succ_le hb)⟩,hs⟩

theorem writeBlock_clean (h : Clean s) (hlt : blk < s.sb.logHead) (b : Buf) :
    Clean (writeBlock blk b s).2 := by
  refine ⟨h.toOwned.congr rfl rfl rfl rfl,fun c hc => ?_⟩
  have hne : c ≠ blk := by
    have hc : s.sb.logHead ≤ c := hc
    omega
  exact (update_of_ne hne _ _).trans (h.blank c hc)

theorem writeBlock_cell (hl : ∀ k, s.list i k ≠ blk) (b : Buf) (p : Nat) :
    (writeBlock blk b s).2.cell i p = s.cell i p := by
  apply cell_congr
  · exact fun _ => rfl
  · exact fun k _ => update_of_ne (hl k) _ _

theorem setBlock_cell (s : Fs) (i : Fin maxInodes) (k : Fin directBlocks) (hb : b ≠ 0) (p : Nat) :
    (s.setBlock i k b).cell i p =
      if p/blockSize = k.val then some (s.blocks b (p%blockSize)) else s.cell i p := by
  split
  · next hk =>
    have hp : (s.setBlock i k b).phys i p = b := by simp [phys_eq hk,setBlock_list]
    rw [Fs.cell,hp,if_neg hb]
    rfl
  · next hk =>
    have hp : (s.setBlock i k b).phys i p = s.phys i p := by
      by_cases hlt : p/blockSize < directBlocks
      · have hne : (⟨p/blockSize,hlt⟩ : Fin directBlocks) ≠ k := fun e => hk (congrArg Fin.val e)
        simp [Fs.phys,hlt,setBlock_list,hne]
      · simp [Fs.phys,hlt]
    rw [Fs.cell,Fs.cell,hp]
    rfl

theorem setBlock_only (s : Fs) (i : Fin maxInodes) (k : Fin directBlocks) (b : Nat) :
    Only i s (s.setBlock i k b) := by
  have ht : ∀ j, j ≠ i → (s.setBlock i k b).inodeTable j = s.inodeTable j :=
    fun j hj => update_of_ne hj _ _
  refine ⟨ht,fun j hj p => ?_,?_,?_⟩
  · apply cell_congr
    · simp [Fs.list,ht j hj]
    · exact fun _ _ => rfl
  · simp [Fs.setBlock,Fs.setInode]
  · simp [Fs.setBlock,Fs.setInode]

theorem Only.of_lists (ht : s'.inodeTable = s.inodeTable)
    (hb : ∀ j k, s.list j k ≠ 0 → s'.blocks (s.list j k) = s.blocks (s.list j k)) : Only i s s' :=
  ⟨fun _ _ => by rw [ht],fun j _ p => cell_congr (fun k => by rw [Fs.list,ht]; rfl) (hb j) p,
    by rw [ht],by rw [ht]⟩

theorem advance_only (s : Fs) (i : Fin maxInodes) : Only i s s.advance :=
  Only.of_lists rfl (fun _ _ _ => rfl)

theorem setBlock_size (s : Fs) (i : Fin maxInodes) (k : Fin directBlocks) (b : Nat) :
    ((s.setBlock i k b).inodeTable i).size = (s.inodeTable i).size := by
  simp [Fs.setBlock,Fs.setInode]

theorem ensureBlock_spec (h : Clean s) (k : Fin directBlocks) :
    (s.sb.freeBlocks = 0 ∧ ensureBlock i k s = (false,s)) ∨
      ∃ s', ensureBlock i k s = (true,s') ∧ Clean s' ∧ Only i s s' ∧
        (s'.inodeTable i).size = (s.inodeTable i).size ∧ s'.reads = s.reads ∧ s'.list i k ≠ 0 ∧
        s.sb.freeBlocks ≤ s'.sb.freeBlocks+1 ∧
        ∀ p, s'.cell i p = if p/blockSize = k.val then some ((s.cell i p).getD 0) else s.cell i p := by
  rw [ensureBlock]
  split
  · next hz =>
    rcases allocBlock_clean h with ⟨hf,heq⟩ | ⟨hf,heq,h1,hs⟩
    · rw [heq]
      exact .inl ⟨hf,rfl⟩
    rw [heq]
    dsimp only
    rw [if_neg hs.pos]
    refine .inr ⟨_,rfl,⟨h1.toOwned.setBlock hs i k,h1.blank⟩,
      (advance_only s i).trans (setBlock_only _ i k _),setBlock_size _ i k _,rfl,?_,?_,fun p => ?_⟩
    · simpa [setBlock_list] using hs.pos
    · exact Nat.le_succ_of_pred_le (le_refl _)
    rw [setBlock_cell _ i k hs.pos]
    split
    · next hk =>
      have hc : s.cell i p = none := by
        rw [Fs.cell,if_pos (by rw [phys_eq hk]; exact hz)]
      rw [hc,show s.advance.blocks s.sb.logHead = zeros from h.blank _ (le_refl _)]
      rfl
    · rfl
  · next hne =>
    refine .inr ⟨s,rfl,h,Only.refl i s,rfl,rfl,hne,Nat.le_succ _,fun p => ?_⟩
    split
    · next hk =>
      have hp : s.phys i p ≠ 0 := by rwa [phys_eq hk]
      simp [Fs.cell,hp]
    · rfl

theorem logAppendWrite_spec (h : Clean s) (offset length dataBlk : Nat) :
    Clean (logAppendWrite i offset length dataBlk s) ∧ Only i s (logAppendWrite i offset length dataBlk s) ∧
      ((logAppendWrite i offset length dataBlk s).inodeTable i).size = (s.inodeTable i).size ∧
      (logAppendWrite i offset length dataBlk s).reads = s.reads ∧
      s.sb.freeBlocks ≤ (logAppendWrite i offset length dataBlk s).sb.freeBlocks+1 ∧
      ∀ p, (logAppendWrite i offset length dataBlk s).cell i p = s.cell i p := by
  unfold logAppendWrite
  rcases allocBlock_clean h with ⟨-,heq⟩ | ⟨-,heq,h1,hs⟩
  · rw [heq]
    exact ⟨h,Only.refl i s,rfl,rfl,Nat.le_succ _,fun _ => rfl⟩
  rw [heq]
  dsimp only
  rw [if_neg hs.pos]
  have hb : ∀ (b : Buf) j k, s.list j k ≠ 0 →
      (writeBlock s.sb.logHead b { s.advance with
        logBlocks := s.sb.logHead :: s.advance.logBlocks }).2.blocks (s.list j k) =
          s.blocks (s.list j k) :=
    fun b j k _ => update_of_ne (hs.lists j k) _ _
  refine ⟨writeBlock_clean ⟨h1.toOwned.addLog hs,h1.blank⟩ hs.lt _,
    Only.of_lists rfl (hb _),rfl,rfl,Nat.le_succ_of_pred_le (le_refl _),
    cell_congr (s := s) (fun _ => rfl) (hb _ i)⟩

def Kept (c c' : Option UInt8) : Prop := c' = c ∨ c' = some (c.getD 0)

theorem Kept.trans {c'' : Option UInt8} (h : Kept c c') (h' : Kept c' c'') : Kept c c'' := by
  rcases h with rfl | rfl
  · exact h'
  · rcases h' with rfl | rfl <;> exact .inr rfl

theorem Kept.ne_none (h : Kept c c') (hc : c ≠ none) : c' ≠ none := by
  rcases h with rfl | rfl
  · exact hc
  · exact Option.some_ne_none _

structure ChunkSpec (i : Fin maxInodes) (k : Fin directBlocks) (pos : Nat) (part : Bytes) (s : Fs)
    (r : Chunk × Fs) : Prop where
  clean : Clean r.2
  only : Only i s r.2
  size : (r.2.inodeTable i).size = (s.inodeTable i).size
  free : s.sb.freeBlocks ≤ r.2.sb.freeBlocks+3
  space : r.1 = .noSpace → s.sb.freeBlocks < 2
  quiet : s.quiet → r.2.quiet
  far : ∀ p, p/blockSize ≠ k.val → r.2.cell i p = s.cell i p
  filled : r.1 = .written → ∀ p, p/blockSize = k.val → r.2.cell i p ≠ none
  put : r.1 = .written → ∀ p, pos ≤ p → p < pos+part.length →
    r.2.cell i p = some (byteAt part (p-pos))
  kept : s.quiet → ∀ p, (r.1 = .written → p < pos ∨ pos+part.length ≤ p) →
    Kept (s.cell i p) (r.2.cell i p)

theorem loadBlock_reads (whole : Bool) (blk : Nat) (s : Fs) :
    ∃ r, (loadBlock whole blk s).2 = { s with reads := r } ∧ (s.quiet → ∀ f ∈ r, f = false) := by
  rw [loadBlock]
  split
  · exact ⟨s.reads,rfl,id⟩
  · exact ⟨s.reads.tail,rfl,quiet_tail⟩

theorem loadBlock_quiet (hq : s.quiet) (whole : Bool) (blk : Nat) :
    (loadBlock whole blk s).1 = if whole then zeros else s.blocks blk := by
  rw [loadBlock]
  split
  · rfl
  · rw [readBlock_quiet hq]
    rfl

theorem ChunkSpec.unwritten {e : Chunk} (he : e ≠ .written) (hc : Clean s')
    (ho : Only i s s') (hs : (s'.inodeTable i).size = (s.inodeTable i).size)
    (hf : s.sb.freeBlocks ≤ s'.sb.freeBlocks+3) (hsp : e = .noSpace → s.sb.freeBlocks < 2)
    (hq : s.quiet → s'.quiet) (hfar : ∀ p, p/blockSize ≠ k.val → s'.cell i p = s.cell i p)
    (hk : ∀ p, Kept (s.cell i p) (s'.cell i p)) : ChunkSpec i k pos part s (e,s') where
  clean := hc
  only := ho
  size := hs
  free := hf
  space := hsp
  quiet := hq
  far := hfar
  filled := fun hw => absurd hw he
  put := fun hw => absurd hw he
  kept := fun _ p _ => hk p

theorem writeBlock_block (blk : Nat) (b : Buf) (hok : (writeBlock blk b s).1 = true) :
    (writeBlock blk b s).2.blocks blk = b := by
  have hn : s.writes.headD none = none := Option.isNone_iff_eq_none.mp hok
  simp only [writeBlock,update_self,hn,Option.getD_none]

theorem linkBlock_spec (h : Clean s) (hs : Spare s b) (k : Fin directBlocks) (pos length : Nat)
    (s' : Fs) (hs' : s' = logAppendWrite i pos length b (s.setBlock i k b)) :
    Clean s' ∧ Only i s s' ∧ (s'.inodeTable i).size = (s.inodeTable i).size ∧ s'.reads = s.reads ∧
      s.sb.freeBlocks ≤ s'.sb.freeBlocks+1 ∧
      ∀ p, s'.cell i p = if p/blockSize = k.val then some (s.blocks b (p%blockSize)) else s.cell i p := by
  have h1 : Clean (s.setBlock i k b) := ⟨h.toOwned.setBlock hs i k,h.blank⟩
  obtain ⟨hc,ho,hsz,hr,hf,hcl⟩ := logAppendWrite_spec (i := i) h1 pos length b
  rw [← hs'] at hc ho hsz hr hf hcl
  exact ⟨hc,(setBlock_only s i k b).trans ho,hsz.trans (setBlock_size s i k b),hr,hf,
    fun p => (hcl p).trans (setBlock_cell s i k hs.pos p)⟩

theorem put_block {l : Buf} (hdiv : p/blockSize = pos/blockSize) : put l (pos%blockSize) part (p%blockSize) =
    if pos ≤ p ∧ p < pos+part.length then byteAt part (p-pos) else l (p%blockSize) := by
  have hp := Nat.div_add_mod p blockSize
  have hpos := Nat.div_add_mod pos blockSize
  rw [hdiv] at hp
  split
  · rw [put_inside (by omega) (by omega)]
    congr 1
    omega
  · exact put_outside (by omega)

theorem writeChunk_spec (h : Clean s) {whole : Bool} (hk : pos/blockSize = k.val)
    (hpr : part.length ≤ blockSize-pos%blockSize)
    (hwh : whole = true → pos%blockSize = 0 ∧ part.length = blockSize) :
    ChunkSpec i k pos part s (writeChunk i k pos part whole s) := by
  unfold writeChunk
  rcases ensureBlock_spec (i := i) h k with ⟨hf,heq⟩ | ⟨s1,heq,h1,ho1,hs1,hr1,hl1,hfr1,hc1⟩
  · rw [heq]
    exact .unwritten (by decide) h (Only.refl i s) rfl (Nat.le_add_right _ _)
      (fun _ => by rw [hf]; decide) id (fun _ _ => rfl) (fun _ => .inl rfl)
  rw [heq]
  dsimp only
  rw [if_neg (by decide)]
  have hk1 : ∀ p, Kept (s.cell i p) (s1.cell i p) := by
    intro p
    rw [hc1]
    split
    · exact .inr rfl
    · exact .inl rfl
  have hf1 : ∀ p, p/blockSize ≠ k.val → s1.cell i p = s.cell i p := by
    intro p hp
    rw [hc1,if_neg hp]
  obtain ⟨r,hr,hqt1⟩ := loadBlock_reads whole ((s1.inodeTable i).blockList k) s1
  have hq1 : s.quiet → s1.quiet := by
    intro hq
    rw [Fs.quiet,hr1]
    exact hq
  have hqt : s.quiet → ∀ f ∈ r, f = false := fun hq => hqt1 (hq1 hq)
  rw [hr]
  have h2 : Clean { s1 with reads := r } := h1.congr rfl rfl rfl rfl rfl
  rcases allocBlock_clean h2 with ⟨hf2,heq2⟩ | ⟨hf2,heq2,h3,hs⟩
  · rw [heq2]
    have hf2 : s1.sb.freeBlocks = 0 := hf2
    exact .unwritten (by decide) h2 (ho1.trans (Only.of_lists rfl fun _ _ _ => rfl)) hs1
      (by change _ ≤ s1.sb.freeBlocks+3; omega) (fun _ => by omega) hqt hf1 hk1
  rw [heq2]
  dsimp only
  rw [if_neg hs.pos]
  -- the new block is written before any list names it
  generalize hbuf : put (loadBlock whole ((s1.inodeTable i).blockList k) s1).1 (pos%blockSize) part = buf
  have h4 := writeBlock_clean h3 hs.lt buf
  set w := writeBlock s1.sb.logHead buf ({ s1 with reads := r } : Fs).advance with hw
  have hb4 : ∀ j l, s1.list j l ≠ 0 → w.2.blocks (s1.list j l) = s1.blocks (s1.list j l) :=
    fun j l _ => update_of_ne (hs.lists j l) _ _
  have ho4 : Only i s w.2 := ho1.trans (Only.of_lists rfl hb4)
  have hc4 : ∀ p, w.2.cell i p = s1.cell i p := cell_congr (fun _ => rfl) (hb4 i)
  have hf4 : s.sb.freeBlocks ≤ s1.sb.freeBlocks-1+2 := by omega
  split
  · exact .unwritten (by decide) h4 ho4 hs1 (Nat.le_succ_of_le hf4) (by simp) hqt
      (fun p hp => (hc4 p).trans (hf1 p hp)) (fun p => hc4 p ▸ hk1 p)
  · next hok =>
    have hnew := writeBlock_block _ buf (Bool.not_eq_false _ ▸ hok)
    have hs4 : Spare w.2 s1.sb.logHead := hs.congr rfl rfl rfl
    obtain ⟨h5,ho5,hs5,hr5,hf5,hc5⟩ :=
      linkBlock_spec (i := i) h4 hs4 k pos part.length _ rfl
    have hin : ∀ p, p/blockSize = k.val → (logAppendWrite i pos part.length s1.sb.logHead
        (w.2.setBlock i k s1.sb.logHead)).cell i p = some (buf (p%blockSize)) := by
      intro p hp
      rw [hc5,if_pos hp]
      exact congrArg some (congrFun hnew _)
    refine ⟨h5,ho4.trans ho5,hs5.trans hs1,?_,by simp,?_,?_,?_,?_,?_⟩
    · exact le_trans hf4 (Nat.add_le_add_right hf5 2)
    · intro hq
      rw [Fs.quiet,hr5]
      exact hqt hq
    · intro p hp
      rw [hc5,if_neg hp]
      exact (hc4 p).trans (hf1 p hp)
    · intro _ p hp
      rw [hin p hp]
      exact Option.some_ne_none _
    · intro _ p hlow hh
      obtain ⟨hdiv,-⟩ := div_of_range hpr hlow hh
      rw [hin p (hdiv.trans hk),← hbuf,put_block hdiv,if_pos ⟨hlow,hh⟩]
    intro hq p hout
    have hout := hout rfl
    by_cases hp : p/blockSize = k.val
    · have hpd : p/blockSize = pos/blockSize := hp.trans hk.symm
      rw [hin p hp,← hbuf,put_block hpd,if_neg (by omega),loadBlock_quiet (hq1 hq)]
      -- a whole block has no byte outside the part
      have hp' : whole ≠ true := by
        intro hw
        obtain ⟨hoff,hlen⟩ := hwh hw
        simp only [blockSize] at hoff hlen hpd
        omega
      rw [if_neg hp']
      have hph : s1.phys i p ≠ 0 := by rwa [phys_eq hp]
      have hc : s1.cell i p = some (s1.blocks (s1.list i k) (p%blockSize)) := by
        rw [Fs.cell,if_neg hph,phys_eq hp]
      exact hc ▸ hk1 p
    · rw [hc5,if_neg hp]
      exact hc4 p ▸ hk1 p

variable {offset total : Nat} {data : Bytes}

def chunkOf (offset : Nat) (data : Bytes) (total : Nat) : Nat :=
  min (blockSize-(offset+total)%blockSize) (data.length-total)

theorem chunkOf_le (h : total ≤ data.length) : total+chunkOf offset data total ≤ data.length := by
  rw [chunkOf]
  omega

theorem chunkOf_next (h : total < data.length) : total+chunkOf offset data total = data.length ∨
    (offset+(total+chunkOf offset data total))/blockSize = (offset+total)/blockSize+1 := by
  simp only [chunkOf,blockSize]
  omega

theorem chunkOf_div_le (offset : Nat) (data : Bytes) (total : Nat) :
    (offset+(total+chunkOf offset data total))/blockSize ≤ (offset+total)/blockSize+1 := by
  simp only [chunkOf,blockSize]
  omega

theorem loopChunk_spec (h : Clean s) (hlt : total < data.length)
    (hk : (offset+total)/blockSize < directBlocks) : ChunkSpec i ⟨(offset+total)/blockSize,hk⟩ (offset+total)
      (slice data total (chunkOf offset data total)) s
      (writeChunk i ⟨(offset+total)/blockSize,hk⟩ (offset+total)
        (slice data total (chunkOf offset data total))
        ((offset+total)%blockSize = 0 ∧ blockSize ≤ data.length-total) s) := by
  have hlen : (slice data total (chunkOf offset data total)).length = chunkOf offset data total :=
    slice_length (chunkOf_le (le_of_lt hlt))
  apply writeChunk_spec h rfl
  · rw [hlen]
    exact min_le_left _ _
  intro hw
  obtain ⟨hoff,hle⟩ := of_decide_eq_true hw
  refine ⟨hoff,?_⟩
  rw [hlen,chunkOf,hoff]
  omega

theorem loopChunk_eq {e : Chunk} (h : Clean s) (hlt : total < data.length)
    (hk : (offset+total)/blockSize < directBlocks)
    (he : writeChunk i ⟨(offset+total)/blockSize,hk⟩ (offset+total)
      (slice data total (chunkOf offset data total))
      ((offset+total)%blockSize = 0 ∧ blockSize ≤ data.length-total) s = (e,s')) :
    ChunkSpec i ⟨(offset+total)/blockSize,hk⟩ (offset+total)
      (slice data total (chunkOf offset data total)) s (e,s') :=
  he ▸ loopChunk_spec h hlt hk

structure LoopSpec (i : Fin maxInodes) (offset : Nat) (data : Bytes) (total : Nat) (s : Fs) (n : Nat)
    (r : Except Errno Nat × Fs) : Prop where
  clean : Clean r.2
  only : Only i s r.2
  low : total ≤ n
  high : n ≤ data.length
  ok : ∀ m, r.1 = .ok m → m = n
  size : (r.1 = .ok data.length ∧ n = data.length ∧
      (r.2.inodeTable i).size = max (s.inodeTable i).size (offset+n)) ∨
    ((r.2.inodeTable i).size = (s.inodeTable i).size ∧ r.1 ≠ .ok data.length)
  put : ∀ p, offset+total ≤ p → p < offset+n → r.2.cell i p = some (byteAt data (p-offset))
  kept : ∀ p, p < offset+total ∨ offset+n ≤ p → Kept (s.cell i p) (r.2.cell i p)

theorem LoopSpec.stop {r : Except Errno Nat} (h : Clean s') (ho : Only i s s')
    (hs : (s'.inodeTable i).size = (s.inodeTable i).size) (hlt : total < data.length)
    (hr : ∀ m, r = .ok m → m = total) (hk : ∀ p, Kept (s.cell i p) (s'.cell i p)) :
    LoopSpec i offset data total s total (r,s') where
  clean := h
  only := ho
  low := le_refl _
  high := le_of_lt hlt
  ok := hr
  size := .inr ⟨hs,fun heq => ne_of_gt hlt (hr _ heq)⟩
  put := fun _ hlow hh => absurd (lt_of_le_of_lt hlow hh) (lt_irrefl _)
  kept := fun p _ => hk p

theorem LoopSpec.next {chunk : Nat} {r : Except Errno Nat × Fs} (hq : s.quiet)
    (hch : total+chunk ≤ data.length)
    (hc : ChunkSpec i k (offset+total) (slice data total chunk) s (.written,s'))
    (h : LoopSpec i offset data (total+chunk) s' n r) : LoopSpec i offset data total s n r := by
  have hlen : (slice data total chunk).length = chunk := slice_length hch
  have hlow := h.low
  refine ⟨h.clean,hc.only.trans h.only,by omega,h.high,h.ok,?_,?_,?_⟩
  · rw [← hc.size]
    exact h.size
  · intro p hp hpn
    by_cases hin : p < offset+(total+chunk)
    · have hput := hc.put rfl p hp (by omega)
      have hb : byteAt (slice data total chunk) (p-(offset+total)) = byteAt data (p-offset) := by
        rw [byteAt_of_lt (by omega),byteAt_of_lt (by omega)]
        simp only [slice,getElem_take,getElem_drop]
        congr 1
        omega
      rw [hb] at hput
      have hk := h.kept p (.inl hin)
      rw [show s'.cell i p = _ from hput] at hk
      exact hk.elim id id
    · exact h.put p (by omega) hpn
  · intro p hp
    exact (hc.kept hq p (fun _ => by omega)).trans (h.kept p (by omega))

theorem setSize_cell (s : Fs) (i j : Fin maxInodes) (size p : Nat) :
    (s.setInode i { s.inodeTable i with size := size }).cell j p = s.cell j p := by
  apply cell_congr
  · intro k
    by_cases hj : j = i
    · subst hj
      simp [Fs.list,Fs.setInode]
    · simp [Fs.list,Fs.setInode,hj]
  · exact fun _ _ => rfl

theorem setSize_clean (h : Clean s) (i : Fin maxInodes) (size : Nat) :
    Clean (s.setInode i { s.inodeTable i with size := size }) :=
  ⟨h.toOwned.setInode (fun _ => .inl rfl),h.blank⟩

theorem setSize_only (s : Fs) (i : Fin maxInodes) (size : Nat) :
    Only i s (s.setInode i { s.inodeTable i with size := size }) where
  table := fun j hj => update_of_ne hj _ _
  cells := fun j _ p => setSize_cell s i j size p
  id := by simp [Fs.setInode]
  type := by simp [Fs.setInode]

theorem writeLoop_spec (i : Fin maxInodes) (offset : Nat) (h : Clean s) (hq : s.quiet)
    (ht : total ≤ data.length) : ∃ n, LoopSpec i offset data total s n (writeLoop i offset data total s) := by
  fun_induction writeLoop i offset data total s with
  | case1 total s hlt pos chunk hk s1 hch =>
    have hc := loopChunk_eq h hlt hk hch
    refine ⟨total,.stop hc.clean hc.only hc.size hlt ?_ (fun p => hc.kept hq p (by simp))⟩
    intro m hm
    split at hm
    · exact (Except.ok.inj hm).symm
    · cases hm
  | case2 total s hlt pos chunk hk s1 hch =>
    have hc := loopChunk_eq h hlt hk hch
    refine ⟨total,.stop hc.clean hc.only hc.size hlt ?_ (fun p => hc.kept hq p (by simp))⟩
    intro m hm
    cases hm
  | case3 total s hlt pos chunk hk s1 hch ih =>
    have hc := loopChunk_eq h hlt hk hch
    have hle : total+chunk ≤ data.length := chunkOf_le ht
    obtain ⟨n,hn⟩ := ih hc.clean (hc.quiet hq) hle
    exact ⟨n,hn.next hq hle hc⟩
  | case4 total s hlt pos hk =>
    exact ⟨total,.stop h (Only.refl i s) rfl hlt (fun m hm => (Except.ok.inj hm).symm) (fun _ => .inl rfl)⟩
  | case5 total s hlt =>
    obtain rfl : total = data.length := by omega
    refine ⟨data.length,setSize_clean h i _,setSize_only s i _,le_refl _,le_refl _,
      fun m hm => (Except.ok.inj hm).symm,.inl ⟨rfl,rfl,?_⟩,fun p hlow hh => ?_,fun p _ => ?_⟩
    · simp [Fs.setInode]
    · omega
    · exact .inl (setSize_cell s i i _ p)

theorem writeLoop_only (i : Fin maxInodes) (offset : Nat) (data : Bytes) (total : Nat) (h : Clean s) :
    Clean (writeLoop i offset data total s).2 ∧ Only i s (writeLoop i offset data total s).2 := by
  refine @writeLoop_keeps s (fun s' => Clean s' ∧ Only i s s') i offset data ?_ ?_ total ⟨h,Only.refl i s⟩
  · intro s' total hk hlt hs
    have hc := @loopChunk_spec s' i offset total data hs.1 hlt hk
    exact ⟨hc.clean,hs.2.trans hc.only⟩
  · exact fun s' size hs => ⟨setSize_clean hs.1 i size,hs.2.trans (setSize_only s' i size)⟩

theorem writeLoop_complete (h : Clean s) (hr : offset+data.length ≤ directBlocks*blockSize)
    (hf : total < data.length →
      3*((offset+data.length-1)/blockSize+1-(offset+total)/blockSize) ≤ s.sb.freeBlocks)
    {m : Nat} (ht : total ≤ data.length)
    (hm : (writeLoop i offset data total s).1 = .ok m) : m = data.length := by
  fun_induction writeLoop i offset data total s with
  | case1 total s hlt pos chunk hk s1 hch =>
    have hc := loopChunk_eq h hlt hk hch
    have hs := hc.space rfl
    have hf := hf hlt
    have hdiv : (offset+total)/blockSize ≤ (offset+data.length-1)/blockSize :=
      Nat.div_le_div_right (by omega)
    omega
  | case2 total s hlt pos chunk hk s1 hch => cases hm
  | case3 total s hlt pos chunk hk s1 hch ih =>
    have hc := loopChunk_eq h hlt hk hch
    have hle : total+chunk ≤ data.length := chunkOf_le ht
    refine ih hc.clean (fun hlt' => ?_) hle hm
    have hf := hf hlt
    have hf1 : s.sb.freeBlocks ≤ s1.sb.freeBlocks+3 := hc.free
    have hn : (offset+(total+chunk))/blockSize = (offset+total)/blockSize+1 :=
      (chunkOf_next hlt).resolve_left (Nat.ne_of_lt hlt')
    rw [hn]
    omega
  | case4 total s hlt pos hk =>
    have hlt' : offset+total < directBlocks*blockSize := by omega
    exact absurd (Nat.div_lt_of_lt_mul (Nat.mul_comm _ _ ▸ hlt')) hk
  | case5 total s hlt =>
    have heq := Except.ok.inj hm
    omega

def NoHole (s : Fs) (i : Fin maxInodes) : Prop :=
  ∀ p q, p/blockSize ≤ q/blockSize → s.cell i q ≠ none → s.cell i p ≠ none

theorem cell_block {q : Nat} (h : p/blockSize = q/blockSize) (hq : s.cell i q ≠ none) :
    s.cell i p ≠ none := by
  rw [cell_isSome] at hq ⊢
  simpa [Fs.phys,h] using hq

theorem ChunkSpec.noHole {r : Chunk × Fs} (hc : ChunkSpec i k pos part s r) (hq : s.quiet)
    (hh : NoHole s i) (hb : ∀ p, p/blockSize < k.val → s.cell i p ≠ none) : NoHole r.2 i := by
  intro p q hpq hcl
  by_cases hp : p/blockSize = k.val
  · by_cases hqk : q/blockSize = k.val
    · exact cell_block (hp.trans hqk.symm) hcl
    rw [hc.far q hqk] at hcl
    by_cases hw : r.1 = .written
    · exact hc.filled hw p hp
    · exact (hc.kept hq p (fun h => absurd h hw)).ne_none (hh p q hpq hcl)
  rw [hc.far p hp]
  by_cases hqk : q/blockSize = k.val
  · exact hb p (by omega)
  · rw [hc.far q hqk] at hcl
    exact hh p q hpq hcl

theorem writeLoop_noHole (h : Clean s) (hq : s.quiet) (hh : NoHole s i)
    (hb : ∀ p, p/blockSize < (offset+total)/blockSize → s.cell i p ≠ none) :
    NoHole (writeLoop i offset data total s).2 i := by
  fun_induction writeLoop i offset data total s with
  | case1 total s hlt pos chunk hk s1 hch | case2 total s hlt pos chunk hk s1 hch =>
    have hc := loopChunk_eq h hlt hk hch
    exact hc.noHole hq hh hb
  | case3 total s hlt pos chunk hk s1 hch ih =>
    have hc := loopChunk_eq h hlt hk hch
    refine ih hc.clean (hc.quiet hq) (hc.noHole hq hh hb) (fun p hp => ?_)
    have hle : (offset+(total+chunk))/blockSize ≤ pos/blockSize+1 :=
      chunkOf_div_le offset data total
    by_cases heq : p/blockSize = pos/blockSize
    · exact hc.filled rfl p heq
    · have hlt' : p/blockSize < pos/blockSize := by omega
      rw [show s1.cell i p = s.cell i p from hc.far p heq]
      exact hb p hlt'
  | case4 total s hlt pos hk => exact hh
  | case5 total s hlt =>
    intro p q hpq hcl
    rw [setSize_cell] at hcl ⊢
    exact hh p q hpq hcl

end

end AevOS.AevosFs
