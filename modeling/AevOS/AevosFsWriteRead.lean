import AevOS.AevosFsFile

/-! Files over whole runs: what is read back after a write, and what was never written. -/

namespace AevOS.AevosFs
open Wire Buffer ArrayPrefix List Function

def Fs.isFile (s : Fs) (i : Fin maxInodes) : Prop :=
  (s.inodeTable i).id ≠ 0 ∧ (s.inodeTable i).type = .file

variable {id blk n k : Nat} {i : Fin maxInodes} {l : List Nat} {type : InodeType}
    {c c' : Option UInt8} {s : Fs}

section
variable {s s' : Fs}

theorem scanBlocks_mem {α : Type} {f : Buf → Option α} {a : α}
    (h : scanBlocks f l s = (some (blk,a),s')) : blk ∈ l ∧ ∃ b, f b = some a := by
  induction l generalizing s with
  | nil => simp [scanBlocks] at h
  | cons c l ih =>
    simp only [scanBlocks] at h
    split at h
    · next a' ha =>
      obtain ⟨hblk,-⟩ := Prod.mk.inj h
      obtain ⟨rfl,rfl⟩ := Prod.mk.inj (Option.some.inj hblk)
      obtain ⟨b,-,hb⟩ := Option.bind_eq_some_iff.mp ha
      exact ⟨mem_cons_self,b,hb⟩
    · obtain ⟨hmem,hb⟩ := ih h
      exact ⟨mem_cons_of_mem c hmem,hb⟩

theorem findEntry_ne_zero {c : Bytes} {b : Buf} (h : findEntry c b = some id) : id ≠ 0 := by
  simp only [findEntry,Option.map_eq_some_iff] at h
  obtain ⟨k,hk,rfl⟩ := h
  have hf := find?_some hk
  simp only [decide_eq_true_eq] at hf
  exact hf.1

theorem walkPath_live {cs : List Bytes} {cur : Fin maxInodes} (hcur : (s.inodeTable cur).id ≠ 0)
    (h : walkPath cs cur s = (some i,s')) : (s.inodeTable i).id ≠ 0 := by
  induction cs generalizing cur s with
  | nil =>
    rw [walkPath] at h
    obtain ⟨hi,-⟩ := Prod.mk.inj h
    exact Option.some.inj hi ▸ hcur
  | cons c cs ih =>
    simp only [walkPath] at h
    split at h
    · simp at h
    obtain ⟨r,hr⟩ := scanBlocks_state (findEntry c) (s.inodeTable cur).scanned s
    split at h
    · simp at h
    · next blk id s1 hs =>
      rw [hs] at hr
      subst hr
      split at h
      · simp at h
      · next cur' hf =>
        obtain ⟨-,b,hb⟩ := scanBlocks_mem hs
        have hid : (s.inodeTable cur').id = id := findInode_id (s := { s with reads := r }) hf
        exact ih (s := { s with reads := r }) (hid ▸ findEntry_ne_zero hb) h

theorem resolvePathInternal_live (hr : s.sb.rootInode ≠ 0) {path : Bytes}
    (h : resolvePathInternal path s = (some i,s')) : (s.inodeTable i).id ≠ 0 := by
  unfold resolvePathInternal at h
  cases hf : findInode s.sb.rootInode s with
  | none => simp [hf] at h
  | some cur =>
    simp only [hf] at h
    exact walkPath_live (findInode_id hf ▸ hr) h

theorem scanned_mem {n : Inode} (h : blk ∈ n.scanned) : blk ≠ 0 ∧ ∃ k, n.blockList k = blk := by
  refine ⟨by simpa using mem_takeWhile_imp h,?_⟩
  exact mem_ofFn.mp (( takeWhile_prefix _).subset h)

theorem addDirEntry_only (h : Clean s) (parent : Fin maxInodes) (name : Bytes) (childId : Nat)
    (type : InodeType) : Clean (addDirEntry parent name childId type s).2 ∧
      Only parent s (addDirEntry parent name childId type s).2 := by
  unfold addDirEntry
  obtain ⟨r,hr⟩ := scanBlocks_state (fun b => (freeEntry b).map fun i => (i,b))
    (s.inodeTable parent).scanned s
  have h0 : Clean { s with reads := r } := h.congr rfl rfl rfl rfl rfl
  have ho0 : Only parent s { s with reads := r } := Only.of_lists rfl (fun _ _ _ => rfl)
  split
  · next blk k b s1 hs =>
    rw [hs] at hr
    subst hr
    obtain ⟨hmem,-⟩ := scanBlocks_mem hs
    obtain ⟨hne,l,hl⟩ := scanned_mem hmem
    have hl : s.list parent l = blk := hl
    refine ⟨writeBlock_clean h0 (hl ▸ h.lists parent l) _,fun j _ => rfl,fun j hj p => ?_,rfl,rfl⟩
    refine writeBlock_cell (s := { s with reads := r }) (fun k' hk' => hj ?_) _ p
    exact (h.apart parent l j k' (hl ▸ hne) (hl.trans hk'.symm)).1.symm
  · next s1 hs =>
    rw [hs] at hr
    subst hr
    split
    · exact ⟨h0,ho0⟩
    · next k _ =>
      rcases allocBlock_clean h0 with ⟨-,heq⟩ | ⟨-,heq,h1,hsp⟩
      · rw [heq]
        exact ⟨h0,ho0⟩
      rw [heq]
      dsimp only
      rw [if_neg hsp.pos]
      have h2 : Clean (({ s with reads := r } : Fs).advance.setBlock parent k s.sb.logHead) :=
        ⟨h1.toOwned.setBlock hsp parent k,h1.blank⟩
      have ho2 : Only parent s
          (({ s with reads := r } : Fs).advance.setBlock parent k s.sb.logHead) :=
        (ho0.trans (advance_only _ parent)).trans (setBlock_only _ parent k _)
      refine ⟨writeBlock_clean h2 hsp.lt _,fun j hj => ho2.table j hj,fun j hj p => ?_,
        ho2.id,ho2.type⟩
      refine (writeBlock_cell (fun l => ?_) _ p).trans (ho2.cells j hj p)
      rw [setBlock_list,if_neg (fun e => hj e.1)]
      exact hsp.lists j l

theorem allocInode_spec (h : Clean s) (ha : allocInode type s = some (i,s')) :
    Clean s' ∧ (s.inodeTable i).id = 0 ∧ s'.inodeTable i = ⟨s.nextInodeId,type,0,fun _ => 0,0o755,1⟩ ∧
      s'.sb = s.sb ∧ s'.blocks = s.blocks ∧ (∀ j, j ≠ i → s'.inodeTable j = s.inodeTable j) ∧
      (∀ j, j ≠ i → ∀ p, s'.cell j p = s.cell j p) ∧ ∀ p, s'.cell i p = none := by
  have hown := allocInode_owned h.toOwned ha
  simp only [allocInode,Option.map_eq_some_iff] at ha
  obtain ⟨j,hf,heq⟩ := ha
  obtain ⟨rfl,rfl⟩ := Prod.mk.inj heq
  have htb : ∀ l, l ≠ j → update s.inodeTable j
      ⟨s.nextInodeId,type,0,fun _ => 0,0o755,1⟩ l = s.inodeTable l :=
    fun l hl => update_of_ne hl _ _
  refine ⟨⟨hown,h.blank⟩,findInode_id hf,update_self ..,rfl,rfl,htb,fun l hl => ?_,fun p => ?_⟩
  · apply cell_congr
    · intro k
      exact congrArg (fun n => n.blockList k) (htb l hl)
    · exact fun _ _ => rfl
  have hp : ∀ (t : Fs), t.inodeTable j = ⟨s.nextInodeId,type,0,fun _ => 0,0o755,1⟩ →
      t.cell j p = none := by
    intro t ht
    simp [Fs.cell,Fs.phys,Fs.list,ht]
  exact hp _ (update_self ..)

structure FilesKept (s s' : Fs) : Prop where
  clean : Clean s'
  files : ∀ i, s'.isFile i →
    (s.isFile i ∧ s'.inodeTable i = s.inodeTable i ∧ ∀ p, s'.cell i p = s.cell i p) ∨
      ((s.inodeTable i).id = 0 ∧ (s'.inodeTable i).size = 0 ∧ ∀ p, s'.cell i p = none)

theorem FilesKept.same (h : Clean s') (ht : s'.inodeTable = s.inodeTable)
    (hc : ∀ i p, s'.cell i p = s.cell i p) : FilesKept s s' :=
  ⟨h,fun i hi => .inl ⟨by rwa [Fs.isFile,ht] at hi,by rw [ht],hc i⟩⟩

theorem aevosfsCreate_kept (h : Clean s) (path : CStr) (type : InodeType) :
    FilesKept s (aevosfsCreate path type s).2 := by
  unfold aevosfsCreate
  split
  · exact .same h rfl (fun _ _ => rfl)
  obtain ⟨r,hr⟩ := resolvePathInternal_state (splitPath path.bytes).1 s
  have h0 : Clean { s with reads := r } := h.congr rfl rfl rfl rfl rfl
  have hs : FilesKept s { s with reads := r } := .same h0 rfl (fun _ _ => rfl)
  dsimp only
  split
  · next hres =>
    rw [hres] at hr
    exact hr ▸ hs
  · next parent s1 hres =>
    rw [hres] at hr
    subst hr
    have hl := resolvePathInternal_live (by rw [h.root]; decide) hres
    split
    · exact hs
    · next hdir =>
      have hdir : (s.inodeTable parent).type = .dir := not_not.mp hdir
      split
      · exact hs
      · next i s2 ha =>
        obtain ⟨h2,hf,hnew,-,-,ht,hc,hn⟩ := allocInode_spec h0 ha
        have hne : parent ≠ i := by
          rintro rfl
          exact hl hf
        obtain ⟨h3,ho⟩ := addDirEntry_only h2 parent (splitPath path.bytes).2
          (s2.inodeTable i).id type
        have hp : (s2.inodeTable parent).type = .dir := by rw [ht parent hne]; exact hdir
        have hk : ∀ {s3 : Fs}, Only parent s2 s3 → ∀ j, j ≠ i → s3.isFile j →
            s.isFile j ∧ s3.inodeTable j = s.inodeTable j ∧ ∀ p, s3.cell j p = s.cell j p := by
          intro s3 ho j hji hj
          have hjp : j ≠ parent := by
            rintro rfl
            have hty := hj.2
            rw [ho.type,hp] at hty
            cases hty
          have heq : s3.inodeTable j = s.inodeTable j := (ho.table j hjp).trans (ht j hji)
          refine ⟨by rwa [Fs.isFile,heq] at hj,heq,fun p => ?_⟩
          exact (ho.cells j hjp p).trans (hc j hji p)
        split
        · next hadd =>
          rw [hadd] at h3 ho
          refine ⟨h3,fun j hj => ?_⟩
          by_cases hji : j = i
          · subst hji
            refine .inr ⟨hf,?_,fun p => (ho.cells j (Ne.symm hne) p).trans (hn p)⟩
            rw [ho.table j (Ne.symm hne),hnew]
          · exact .inl (hk ho j hji hj)
        · next e s3 hadd =>
          rw [hadd] at h3 ho
          have h4 : Clean (s3.setInode i { s3.inodeTable i with id := 0 }) :=
            ⟨h3.toOwned.setInode (fun _ => .inl rfl),h3.blank⟩
          have ht4 : ∀ j, j ≠ i →
              (s3.setInode i { s3.inodeTable i with id := 0 }).inodeTable j = s3.inodeTable j :=
            fun j hj => update_of_ne hj _ _
          refine ⟨h4,fun j hj => ?_⟩
          have hji : j ≠ i := by
            rintro rfl
            exact hj.1 (by simp [Fs.setInode])
          obtain ⟨hfl,heq,hcl⟩ := hk ho j hji (by rwa [Fs.isFile,ht4 j hji] at hj)
          refine .inl ⟨hfl,(ht4 j hji).trans heq,fun p => ?_⟩
          rw [← hcl p]
          apply cell_congr
          · exact fun k => congrArg (fun n => n.blockList k) (ht4 j hji)
          · exact fun _ _ => rfl

theorem writeSuperblock_kept (h : Clean s) :
    Clean (writeSuperblock s).2 ∧ ∀ i p, (writeSuperblock s).2.cell i p = s.cell i p := by
  refine ⟨writeBlock_clean h (lt_of_lt_of_le (by decide) h.low) _,fun i p => ?_⟩
  apply cell_congr
  · exact fun _ => rfl
  · exact fun k hk => update_of_ne hk _ _

theorem checkpointInodes_kept (l : List (Fin maxInodes)) (h : Clean s) :
    Clean (checkpointInodes l s).2 ∧ (checkpointInodes l s).2.inodeTable = s.inodeTable ∧
      ∀ i p, (checkpointInodes l s).2.cell i p = s.cell i p := by
  induction l generalizing s with
  | nil => exact ⟨h,rfl,fun _ _ => rfl⟩
  | cons i l ih =>
    unfold checkpointInodes
    split
    · exact ih h
    rcases allocBlock_clean h with ⟨-,heq⟩ | ⟨-,heq,h1,hs⟩
    · rw [heq]
      exact ⟨h,rfl,fun _ _ => rfl⟩
    rw [heq]
    dsimp only
    rw [if_neg hs.pos]
    have h2 := writeBlock_clean h1 hs.lt (put zeros 0 (s.inodeTable i).bytes)
    have hc : ∀ j p, (writeBlock s.sb.logHead (put zeros 0 (s.inodeTable i).bytes)
        s.advance).2.cell j p = s.cell j p := by
      intro j p
      apply cell_congr
      · exact fun _ => rfl
      · exact fun k _ => update_of_ne (hs.lists j k) _ _
    split
    · obtain ⟨h3,ht,hc3⟩ := ih h2
      exact ⟨h3,ht,fun j p => (hc3 j p).trans (hc j p)⟩
    · exact ⟨h2,rfl,hc⟩

theorem aevosfsCheckpoint_kept (h : Clean s) : FilesKept s (aevosfsCheckpoint s).2 := by
  unfold aevosfsCheckpoint
  obtain ⟨h1,ht,hcl⟩ := checkpointInodes_kept (finRange maxInodes) h
  split
  · next hc =>
    rw [hc] at h1 ht hcl
    exact .same h1 ht hcl
  · next s1 hc =>
    rw [hc] at h1 ht hcl
    have h2 : Clean { s1 with sb := { s1.sb with checkpointBlock := s1.sb.logHead } } :=
      ⟨h1.toOwned.setCheckpoint _,h1.blank⟩
    obtain ⟨h3,hc3⟩ := writeSuperblock_kept h2
    exact .same h3 ht (fun i p => (hc3 i p).trans (hcl i p))

end

abbrev Touched := Fin maxInodes → Nat → Prop

def writtenBytes (data : Bytes) : Except Errno Nat → Nat
  | .ok n => n
  | .error _ => data.length

def touch (t : Touched) (s : Fs) (c : Call) : Touched :=
  match c.op with
  | .create _ _ => fun i p => (s.inodeTable i).id ≠ 0 ∧ t i p
  | .write i offset data => fun j p => t j p ∨
      (j = i ∧ offset ≤ p ∧ p < offset+writtenBytes data (aevosfsWrite i offset data (c.begin s)).1)
  | .checkpoint => t

def WriteOk (s : Fs) (reads : List Bool) (i : Fin maxInodes) (offset : Nat) (data : Bytes) : Prop :=
  (∀ f ∈ reads, f = false) ∧ (data = [] → offset ≤ (s.inodeTable i).size) ∧
    (data ≠ [] → directBlocks*blockSize ≤ offset ∨
      ((∀ k : Fin directBlocks, k.val < offset/blockSize → s.list i k ≠ 0) ∧
        (min (offset+data.length) (directBlocks*blockSize) ≤ (s.inodeTable i).size ∨
          (offset+data.length ≤ directBlocks*blockSize ∧
            3*((offset+data.length-1)/blockSize+1-offset/blockSize) ≤ s.sb.freeBlocks))))

def CallOk (s : Fs) (c : Call) : Prop :=
  match c.op with
  | .write i offset data => s.isFile i → WriteOk s c.reads i offset data
  | _ => True

def CallsOk : Fs → List Call → Prop
  | _, [] => True
  | s, c :: cs => CallOk s c ∧ CallsOk (step s c) cs

def readBack (i : Fin maxInodes) (offset n : Nat) (s : Fs) : Except Errno Bytes :=
  (aevosfsRead i offset n { s with reads := [] }).1

structure WriteLaw (i : Fin maxInodes) (offset : Nat) (data : Bytes) (n : Nat) (s s' : Fs)
    (t : Touched) : Prop where
  size : offset+n ≤ (s'.inodeTable i).size
  back : readBack i offset n s' = .ok (data.take n)
  rest : ∀ p, p < (s.inodeTable i).size → p < offset ∨ offset+n ≤ p →
    readBack i p 1 s' = readBack i p 1 s
  zero : ∀ p, p < (s'.inodeTable i).size → ¬ t i p → readBack i p 1 s' = .ok [0]

/-- Along the run every write can be read back and disturbs nothing else. -/
def WriteLaws : Fs → Touched → List Call → Prop
  | _, _, [] => True
  | s, t, c :: cs =>
    (∀ i offset data n, c.op = .write i offset data → s.isFile i →
      (aevosfsWrite i offset data (c.begin s)).1 = .ok n → 0 < n →
        WriteLaw i offset data n s (step s c) (touch t s c)) ∧
      WriteLaws (step s c) (touch t s c) cs

structure FileOk (s : Fs) (i : Fin maxInodes) (t : Nat → Prop) : Prop where
  noHole : NoHole s i
  covered : ∀ p, p < (s.inodeTable i).size → s.cell i p ≠ none
  zero : ∀ p, ¬ t p → s.cell i p = none ∨ s.cell i p = some 0

structure FilesOk (s : Fs) (t : Touched) : Prop where
  clean : Clean s
  files : ∀ i, s.isFile i → FileOk s i (t i)

section
variable {s s' : Fs} {i : Fin maxInodes} {t : Nat → Prop}

theorem FileOk.congr (h : FileOk s i t) (hs : (s'.inodeTable i).size = (s.inodeTable i).size)
    (hc : ∀ p, s'.cell i p = s.cell i p) : FileOk s' i t where
  noHole p q hpq := by simpa [hc] using h.noHole p q hpq
  covered p hp := by simpa [hc] using h.covered p (hs ▸ hp)
  zero p hp := by simpa [hc] using h.zero p hp

theorem FileOk.mono {t' : Nat → Prop} (h : FileOk s i t) (ht : ∀ p, t p → t' p) : FileOk s i t' :=
  ⟨h.noHole,h.covered,fun p hp => h.zero p (fun htp => hp (ht p htp))⟩

theorem FileOk.fresh (hs : (s.inodeTable i).size = 0) (hn : ∀ p, s.cell i p = none) :
    FileOk s i t where
  noHole := fun _ q _ hq => absurd (hn q) hq
  covered := fun p hp => absurd (hs ▸ hp) (Nat.not_lt_zero p)
  zero := fun p _ => .inl (hn p)

theorem FileOk.readBack_byte (h : FileOk s i t) {p : Nat} (hp : p < (s.inodeTable i).size) :
    readBack i p 1 s = .ok [(s.cell i p).getD 0] := by
  have hr := aevosfsRead_cells { s with reads := [] } i p 1 (by simp [Fs.quiet]) hp (by decide) (by
      intro q hlow hh
      obtain rfl : q = p := by omega
      exact h.covered q hp)
  rw [readBack,hr]
  rfl

theorem Kept.zero (h : Kept c c') (hc : c = none ∨ c = some 0) : c' = none ∨ c' = some 0 := by
  rcases h with rfl | rfl
  · exact hc
  · rcases hc with rfl | rfl <;> exact .inr rfl

theorem Kept.eq_of_some (h : Kept c c') (hc : c ≠ none) : c' = c := by
  obtain ⟨b,rfl⟩ := Option.ne_none_iff_exists'.mp hc
  exact h.elim id id

variable {offset : Nat} {data : Bytes}

theorem aevosfsWrite_past (hd : data ≠ []) (hp : directBlocks*blockSize ≤ offset) :
    aevosfsWrite i offset data s = (.ok 0,s) := by
  have hlt : 0 < data.length := length_pos_iff.mpr hd
  have hk : ¬ (offset+0)/blockSize < directBlocks :=
    Nat.not_lt.mpr ((Nat.le_div_iff_mul_le blockSize_pos).mpr hp)
  rw [aevosfsWrite,writeLoop,dif_pos hlt,dif_neg hk]

theorem aevosfsWrite_nil (s : Fs) (i : Fin maxInodes) (offset : Nat) : aevosfsWrite i offset [] s =
    (.ok 0,s.setInode i { s.inodeTable i with size := max (s.inodeTable i).size (offset+0) }) := by
  rw [aevosfsWrite,writeLoop,dif_neg (by simp)]

structure Reaches (s : Fs) (i : Fin maxInodes) (offset : Nat) (data : Bytes) : Prop where
  quiet : s.quiet
  nonempty : data ≠ []
  before : ∀ p, p/blockSize < offset/blockSize → s.cell i p ≠ none
  room : min (offset+data.length) (directBlocks*blockSize) ≤ (s.inodeTable i).size ∨
    (offset+data.length ≤ directBlocks*blockSize ∧
      3*((offset+data.length-1)/blockSize+1-offset/blockSize) ≤ s.sb.freeBlocks)

theorem WriteOk.cases (hok : WriteOk s s.reads i offset data) : (data = [] ∧ offset ≤ (s.inodeTable i).size) ∨
    (data ≠ [] ∧ directBlocks*blockSize ≤ offset) ∨ Reaches s i offset data := by
  obtain ⟨hq,hnil,hc⟩ := hok
  by_cases hd : data = []
  · exact .inl ⟨hd,hnil hd⟩
  right
  by_cases hps : directBlocks*blockSize ≤ offset
  · exact .inl ⟨hd,hps⟩
  obtain ⟨hl,hr⟩ := (hc hd).resolve_left hps
  refine .inr ⟨hq,hd,fun p hp => ?_,hr⟩
  have hlt : p/blockSize < directBlocks := by
    have hoff := Nat.div_lt_of_lt_mul (Nat.mul_comm _ _ ▸ Nat.lt_of_not_le hps)
    omega
  rw [cell_isSome,phys_eq (k := ⟨p/blockSize,hlt⟩) rfl]
  exact hl _ hp

theorem Reaches.fileOk (hw : Reaches s i offset data) (hc : Clean s) (h : FileOk s i t) :
    FileOk (aevosfsWrite i offset data s).2 i (fun p => t p ∨
      (offset ≤ p ∧ p < offset+writtenBytes data (aevosfsWrite i offset data s).1)) := by
  obtain ⟨n,hn⟩ := writeLoop_spec i offset hc hw.quiet (Nat.zero_le data.length)
  have hput : ∀ p, offset ≤ p → p < offset+n → (aevosfsWrite i offset data s).2.cell i p ≠ none :=
    fun p hlow hh => hn.put p hlow hh ▸ Option.some_ne_none _
  have hk : ∀ p, s.cell i p ≠ none → (aevosfsWrite i offset data s).2.cell i p ≠ none := by
    intro p hp
    by_cases hin : offset ≤ p ∧ p < offset+n
    · exact hput p hin.1 hin.2
    · exact (hn.kept p (by omega)).ne_none hp
  refine ⟨writeLoop_noHole hc hw.quiet h.noHole hw.before,fun p hp => ?_,fun p hp => ?_⟩
  · by_cases hold : p < (s.inodeTable i).size
    · exact hk p (h.covered p hold)
    · -- the size has grown, so all of the data is there
      rcases hn.size with ⟨-,hlen,hs⟩ | ⟨hs,-⟩
      · have hd : 0 < data.length := length_pos_iff.mpr hw.nonempty
        have hp : p < max (s.inodeTable i).size (offset+n) := hs ▸ hp
        by_cases hlow : offset ≤ p
        · exact hput p hlow (by omega)
        by_cases hb : p/blockSize = offset/blockSize
        · exact cell_block hb (hput offset (le_refl _) (by omega))
        · have hle : p/blockSize ≤ offset/blockSize := Nat.div_le_div_right (by omega)
          exact hk p (hw.before p (by omega))
      · exact absurd (hs ▸ hp) hold
  rw [not_or] at hp
  have hwr : n ≤ writtenBytes data (aevosfsWrite i offset data s).1 := by
    cases hr : (aevosfsWrite i offset data s).1 with
    | ok m => exact (hn.ok m hr).ge
    | error e => exact hn.high
  exact (hn.kept p (by omega)).zero (h.zero p hp.1)

theorem write_fileOk (hc : Clean s) (h : FileOk s i t) (hok : WriteOk s s.reads i offset data) :
    FileOk (aevosfsWrite i offset data s).2 i (fun p => t p ∨
      (offset ≤ p ∧ p < offset+writtenBytes data (aevosfsWrite i offset data s).1)) := by
  rcases hok.cases with ⟨rfl,hle⟩ | ⟨hd,hps⟩ | hw
  · rw [aevosfsWrite_nil]
    have hs : FileOk (s.setInode i { s.inodeTable i with
        size := max (s.inodeTable i).size (offset+0) }) i t := by
      refine h.congr ?_ (fun p => setSize_cell s i i _ p)
      simpa [Fs.setInode] using hle
    exact hs.mono fun _ => .inl
  · rw [aevosfsWrite_past hd hps]
    exact h.mono fun _ => .inl
  · exact hw.fileOk hc h

theorem Reaches.law (hw : Reaches s i offset data) (hcl : Clean s) (h : FileOk s i t)
    (hr : (aevosfsWrite i offset data s).1 = .ok n) (hn : 0 < n) :
    offset+n ≤ ((aevosfsWrite i offset data s).2.inodeTable i).size ∧
      (s.inodeTable i).size ≤ ((aevosfsWrite i offset data s).2.inodeTable i).size ∧ n ≤ data.length ∧
      (∀ p, offset ≤ p → p < offset+n →
        (aevosfsWrite i offset data s).2.cell i p = some (byteAt data (p-offset))) ∧
      ∀ p, p < (s.inodeTable i).size → p < offset ∨ offset+n ≤ p →
        (aevosfsWrite i offset data s).2.cell i p = s.cell i p := by
  obtain ⟨m,hm⟩ := writeLoop_spec i offset hcl hw.quiet (Nat.zero_le data.length)
  obtain rfl : n = m := hm.ok n hr
  have hmn : (s.inodeTable i).size ≤ ((aevosfsWrite i offset data s).2.inodeTable i).size := by
    rcases hm.size with ⟨-,-,hs⟩ | ⟨hs,-⟩
    · exact hs ▸ Nat.le_max_left _ _
    · exact hs.ge
  refine ⟨?_,hmn,hm.high,hm.put,fun p hp hout => (hm.kept p hout).eq_of_some (h.covered p hp)⟩
  rcases hm.size with ⟨-,-,hs⟩ | ⟨hs,hsh⟩
  · exact hs ▸ Nat.le_max_right _ _
  · -- the loop stopped early, so the range is within the file
    have hlt : n < data.length := Nat.lt_of_le_of_ne hm.high (fun e => hsh (e ▸ hr))
    have hin : offset+n ≤ directBlocks*blockSize := by
      have hc : (aevosfsWrite i offset data s).2.cell i (offset+n-1) ≠ none :=
        hm.put (offset+n-1) (by omega) (by omega) ▸ Option.some_ne_none _
      rw [cell_isSome,Fs.phys] at hc
      by_cases hk : (offset+n-1)/blockSize < directBlocks
      · have hlt' := (Nat.div_lt_iff_lt_mul blockSize_pos).mp hk
        omega
      · rw [dif_neg hk] at hc
        exact absurd rfl hc
    rcases hw.room with hrm | ⟨hrm,hf⟩
    · have hs : ((aevosfsWrite i offset data s).2.inodeTable i).size = (s.inodeTable i).size := hs
      rw [hs]
      omega
    · exact absurd (writeLoop_complete hcl hrm (fun _ => hf) (Nat.zero_le _) hr) (Nat.ne_of_lt hlt)

end

variable {t : Touched}

theorem FilesKept.filesOk {s' : Fs} {t' : Touched} (h : FilesOk s t) (hk : FilesKept s s')
    (ht : ∀ i, (s.inodeTable i).id ≠ 0 → ∀ p, t i p → t' i p) : FilesOk s' t' := by
  refine ⟨hk.clean,fun i hi => ?_⟩
  rcases hk.files i hi with ⟨hold,htb,hc⟩ | ⟨-,hsz,hn⟩
  · exact ((h.files i hold).congr (congrArg Inode.size htb) hc).mono (ht i hold.1)
  · exact .fresh hsz hn

theorem FilesOk.begin (h : FilesOk s t) (c : Call) : FilesOk (c.begin s) t :=
  ⟨h.clean.congr rfl rfl rfl rfl rfl,fun i hi => (h.files i hi).congr rfl (fun _ => rfl)⟩

theorem step_filesOk (h : FilesOk s t) {c : Call} (hok : CallOk s c) : FilesOk (step s c) (touch t s c) := by
  have h0 := h.begin c
  obtain ⟨op,reads,writes⟩ := c
  cases op with
  | create path type =>
    exact (aevosfsCreate_kept h0.clean path type).filesOk h0 (fun i hi p hp => ⟨hi,hp⟩)
  | checkpoint => exact (aevosfsCheckpoint_kept h0.clean).filesOk h0 (fun _ _ _ hp => hp)
  | write i offset data =>
    obtain ⟨hc,ho⟩ := writeLoop_only i offset data 0 h0.clean
    refine ⟨hc,fun j hj => ?_⟩
    by_cases hji : j = i
    · subst hji
      have hf : s.isFile j := ⟨ho.id ▸ hj.1,ho.type ▸ hj.2⟩
      exact (write_fileOk h0.clean (h0.files j hf) (hok hf)).mono fun p hor => hor.imp id (⟨rfl,·⟩)
    have ht := ho.table j hji
    have hf : s.isFile j := by
      have hj : ((writeLoop i offset data 0 _).2.inodeTable j).id ≠ 0 ∧
        ((writeLoop i offset data 0 _).2.inodeTable j).type = .file := hj
      rwa [ht] at hj
    exact ((h0.files j hf).congr (congrArg Inode.size ht) (ho.cells j hji)).mono fun _ => .inl

theorem step_writeLaw (h : FilesOk s t) {c : Call} (hok : CallOk s c) {offset : Nat} {data : Bytes}
    (hop : c.op = .write i offset data) (hf : s.isFile i)
    (hr : (aevosfsWrite i offset data (c.begin s)).1 = .ok n) (hn : 0 < n) :
    WriteLaw i offset data n s (step s c) (touch t s c) := by
  have ha := step_filesOk h hok
  have h0 := h.begin c
  obtain ⟨op,reads,writes⟩ := c
  obtain rfl : op = .write i offset data := hop
  have hw : Reaches (Call.begin ⟨.write i offset data,reads,writes⟩ s) i offset data := by
    rcases (hok hf).cases (s := Call.begin ⟨.write i offset data,reads,writes⟩ s)
      with ⟨rfl,-⟩ | ⟨hd,hps⟩ | hw
    · rw [aevosfsWrite_nil] at hr
      exact absurd (Except.ok.inj hr) (ne_of_lt hn)
    · rw [aevosfsWrite_past hd hps] at hr
      exact absurd (Except.ok.inj hr) (ne_of_lt hn)
    · exact hw
  obtain ⟨hs,hm,hlen,hput,hrs⟩ := hw.law h0.clean (h0.files i hf) hr hn
  obtain ⟨-,ho⟩ := writeLoop_only i offset data 0 h0.clean
  have hf' : (step s ⟨.write i offset data,reads,writes⟩).isFile i :=
    ⟨ho.id ▸ hf.1,ho.type ▸ hf.2⟩
  have hok' := ha.files i hf'
  refine ⟨hs,?_,fun p hp hout => ?_,fun p hp ht => ?_⟩
  · have hrd := aevosfsRead_cells
      { step s ⟨.write i offset data,reads,writes⟩ with reads := [] } i offset n (by simp [Fs.quiet]) hs hn
      (fun p hlow hh => hput p hlow hh ▸ Option.some_ne_none _)
    rw [readBack,hrd]
    congr 1
    apply ext_getElem
    · simp [hlen]
    intro k hk _
    have hk : k < n := by simpa using hk
    have hc := hput (offset+k) (Nat.le_add_right _ _) (by omega)
    rw [Nat.add_sub_cancel_left] at hc
    simp only [firsts,getElem_map,getElem_range,getElem_take]
    exact (congrArg (fun c => c.getD 0) hc).trans (byteAt_of_lt (by omega))
  · rw [hok'.readBack_byte (lt_of_lt_of_le hp hm),(h.files i hf).readBack_byte hp]
    exact congrArg (fun c => Except.ok [c.getD 0]) (hrs p hp hout)
  rw [hok'.readBack_byte hp]
  rcases hok'.zero p ht with hnn | hz
  · exact absurd hnn (hok'.covered p hp)
  · rw [hz]
    rfl

theorem mounted_filesOk (hbl : Blank s) (hdev : ∀ b, 2 ≤ b → s.blocks b = zeros) :
    FilesOk (mounted s) (fun _ _ => False) := by
  refine ⟨⟨mounted_owned hbl,fun b hb => ?_⟩,fun i hi => ?_⟩
  · rw [mounted_blank hbl] at hb ⊢
    have hb : 2 ≤ b := hb
    have h0 : b ≠ 0 := by omega
    have h1 : b ≠ 1 := by omega
    simp [h0,h1,hdev b hb]
  rw [Fs.isFile,mounted_blank hbl] at hi
  by_cases h0 : i = 0
  · simp [h0,rootInode] at hi
  · simp [h0,Inode.zero] at hi

theorem filesOk_writeLaws (h : FilesOk s t) (cs : List Call) (hok : CallsOk s cs) : WriteLaws s t cs := by
  induction cs generalizing s t with
  | nil => trivial
  | cons c cs ih =>
    exact ⟨fun i offset data n hop hf hr hn => step_writeLaw h hok.1 hop hf hr hn,
      ih (step_filesOk h hok.1) hok.2⟩

theorem run_writeLaws (s : Fs) (hblank : Blank s) (hdev : ∀ b, 2 ≤ b → s.blocks b = zeros)
    (cs : List Call) (hok : CallsOk (mounted s) cs) : WriteLaws (mounted s) (fun _ _ => False) cs :=
  filesOk_writeLaws (mounted_filesOk hblank hdev) cs hok

theorem readBlock_nil (h : s.reads = []) (blk : Nat) : readBlock blk s = (some (s.blocks blk),s) := by
  obtain ⟨sb,inodeTable,nextInodeId,blocks,reads,writes,handed,logBlocks⟩ := s
  obtain rfl : reads = [] := h
  rfl

theorem scanBlocks_nil {α : Type} (f : Buf → Option α) (l : List Nat) (h : s.reads = []) :
    scanBlocks f l s = (l.findSome? fun blk => (f (s.blocks blk)).map fun a => (blk,a),s) := by
  induction l with
  | nil => rfl
  | cons blk l ih =>
    rw [scanBlocks,readBlock_nil h,findSome?_cons]
    cases hf : f (s.blocks blk) with
    | none => simpa [hf] using ih
    | some a => simp [hf]

theorem writeBlock_nil (h : s.writes = []) (blk : Nat) (b : Buf) :
    writeBlock blk b s = (true,{ s with blocks := update s.blocks blk b }) := by
  obtain ⟨sb,inodeTable,nextInodeId,blocks,reads,writes,handed,logBlocks⟩ := s
  obtain rfl : writes = [] := h
  rfl

theorem findSome_tagged {α : Type} (f : Nat → Option Nat) (g : Nat → α) {c : Nat}
    (h : l.findSome? (fun c => (f c).map fun i => (c,i)) = some (c,k)) :
    l.findSome? (fun c => ((f c).map fun i => (i,g c)).map fun a => (c,a)) = some (c,k,g c) := by
  induction l with
  | nil => cases h
  | cons d l ih =>
    rw [findSome?_cons] at h ⊢
    cases hd : f d with
    | none => exact ih (by simpa [hd] using h)
    | some i =>
      rw [hd] at h
      obtain ⟨rfl,rfl⟩ := Prod.mk.inj (Option.some.inj h)
      rfl

theorem addDirEntry_slot {s : Fs} (hr : s.reads = []) (hw : s.writes = [])
    {parent : Fin maxInodes} {blk k : Nat}
    (hf : (s.inodeTable parent).scanned.findSome?
      (fun blk => (freeEntry (s.blocks blk)).map fun i => (blk,i)) = some (blk,k))
    (name : Bytes) (childId : Nat) (type : InodeType) :
    addDirEntry parent name childId type s = (.ok (),
      { s with
        blocks := update s.blocks blk
          (put (s.blocks blk) (dirEntrySize*k) (dirEntryBytes childId name type)) }) := by
  have hs : scanBlocks (fun b => (freeEntry b).map fun i => (i,b)) (s.inodeTable parent).scanned s =
      (some (blk,k,s.blocks blk),s) := by
    rw [scanBlocks_nil _ _ hr,findSome_tagged (fun blk => freeEntry (s.blocks blk)) s.blocks hf]
  rw [addDirEntry,hs]
  dsimp only
  rw [writeBlock_nil hw]
  rfl

theorem components_slash : components [slash] = [] := by
  rw [components]
  rfl

def pathA : CStr := .of [47,97]

theorem run_writeLaws_pathA : WriteLaws (mounted bootFs) (fun _ _ => False)
    [⟨.create pathA .file,[],[]⟩,⟨.write 1 0 [7],[],[]⟩] := by
  refine run_writeLaws bootFs bootFs_blank (fun _ _ => rfl) _ ⟨trivial,fun _ => ?_,trivial⟩
  exact ⟨by simp,by simp,fun _ => .inr ⟨by simp,.inr ⟨by decide,by decide +kernel⟩⟩⟩

theorem write_over_end : ¬ WriteLaws (mounted bootFs) (fun _ _ => False)
    [⟨.create pathA .file,[],[]⟩,⟨.write 1 65535 [1,2],[],[]⟩] := by
  rintro ⟨-,hlaw,-⟩
  have hsize := (hlaw 1 65535 [1,2] 1 rfl ⟨by decide +kernel,by decide +kernel⟩
    (by decide +kernel) (by decide)).size
  exact absurd hsize (by decide +kernel)

end AevOS.AevosFs
