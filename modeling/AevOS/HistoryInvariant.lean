import AevOS.HistoryRing
import AevOS.HistBptreeInsert

/-! The ring invariant over whole runs of fewer than `2^32` pushes: sizes, token
window, sequence numbers and the index agree. -/

namespace AevOS.Hist
open ArrayPrefix RingWindow Slab BpTree Wire OrderedAssoc List
open UInt32 (toNat_inj toNat_add toNat_one lt_irrefl toNat_sub)

def liveIndex (h : History) : List (Nat × Nat) :=
  window histRingSize (fun j => ((h.ring j).seq.toNat,j)) h.tail.toNat (historyCount h).toNat

theorem liveIndex_keys (h : History) : (liveIndex h).map Prod.fst = (live h).map (fun e => e.seq.toNat) := by
  simp only [liveIndex,live,window,map_firsts]

structure Tidy (h : History) (k : Nat) : Prop where
  order : h.tail.toNat ≤ h.head.toNat
  head : h.head.toNat ≤ k
  seqs : (live h).Pairwise (fun a b => a.seq < b.seq)
  fresh : ∀ e ∈ live h, e.seq < h.nextSeq
  nextSeq : h.nextSeq.toNat ≤ k

def WithinBudget (h : History) : Prop :=
  h.windowTokens ≤ h.maxTokens ∨ (live h).length ≤ 1

variable {h : History} {k : Nat} {w : World} {e : HistEntry}

theorem Tidy.ascending (ht : Tidy h k) : Ascending (liveIndex h) := by
  have hs : ((liveIndex h).map Prod.fst).Pairwise (· < ·) := by
    rw [liveIndex_keys,pairwise_map]
    exact ht.seqs.imp (fun hab => UInt64.lt_iff_toNat_lt.mp hab)
  exact pairwise_map.mp hs

theorem Tidy.mono {k' : Nat} (ht : Tidy h k) (hk : k ≤ k') : Tidy h k' :=
  ⟨ht.order,le_trans ht.head hk,ht.seqs,ht.fresh,le_trans ht.nextSeq hk⟩

theorem Tidy.evictOldest (ht : Tidy w.hist k) (hs : Sound w.hist) : Tidy (evictOldest w).hist k := by
  have hl := live_evictOldest hs.count
  have hsub : (live (Hist.evictOldest w).hist).Sublist (live w.hist) := by
    rw [hl]
    exact tail_sublist _
  refine ⟨?_,?_,ht.seqs.sublist hsub,?_,?_⟩
  · have ho := ht.order
    unfold Hist.evictOldest
    split
    · exact ho
    rename_i hne
    have hne' : w.hist.head.toNat ≠ w.hist.tail.toNat := fun he => hne (toNat_inj.mp he)
    simp only [toNat_add,toNat_one]
    omega
  · rw [evictOldest_head]
    exact ht.head
  · intro e he
    rw [evictOldest_nextSeq]
    exact ht.fresh e (hsub.subset he)
  · rw [evictOldest_nextSeq]
    exact ht.nextSeq

theorem Tidy.dropNewest (ht : Tidy w.hist k) (hs : Sound w.hist) (hlt : w.hist.tail < w.hist.head) :
    Tidy (dropNewest w).hist k := by
  have hne : w.hist.head ≠ w.hist.tail := fun he => by
    rw [he] at hlt
    exact lt_irrefl _ hlt
  have hl := live_dropNewest hne hs.count
  have hsub : (live (Hist.dropNewest w).hist).Sublist (live w.hist) := by
    rw [hl]
    exact dropLast_sublist _
  have hk := ht.head
  have h1 := w.hist.head.toNat_lt
  rw [UInt32.lt_iff_toNat_lt] at hlt
  refine ⟨?_,?_,ht.seqs.sublist hsub,fun e he => ht.fresh e (hsub.subset he),ht.nextSeq⟩
  · simp only [Hist.dropNewest,toNat_sub,toNat_one]
    omega
  · simp only [Hist.dropNewest,toNat_sub,toNat_one]
    omega

theorem histBptRebuild_represents {grant : Nat → Bool} (hg : ∀ i, grant i = true)
    {m : List (Nat × Nat)} (hr : Represents h.bpt m) (hd : ∀ e ∈ live h, e.data ≠ 0)
    (hasc : Ascending (liveIndex h)) : Represents (histBptRebuild grant h) (liveIndex h) := by
  have hf : ∀ n, n ≤ (historyCount h).toNat →
      Represents ((List.range n).foldl (rebuildEntry grant h) (histBptClear h.bpt))
        (insertAll ((liveIndex h).take n)) := by
    intro n
    induction n with
    | zero =>
      intro _
      exact histBptClear_represents hr
    | succ n ih =>
      intro hn
      have hi : n < (historyCount h).toNat := by omega
      have he := hd _ (mem_of_getElem? (live_getElem? h hi))
      rw [range_succ,List.foldl_append,take_add_one,liveIndex,window_getElem? _ _ hi,← slotOf_add]
      simp only [Option.toList_some,insertAll_append_singleton,foldl_cons,foldl_nil,rebuildEntry]
      rw [if_neg he]
      exact (histBptInsert_spec hg (ih (by omega)) _ _).2
  have hall := hf (historyCount h).toNat (le_refl _)
  rw [take_of_length_le (by simp [liveIndex]),insertAll_of_ascending hasc] at hall
  exact hall

structure Steady (h : History) (k : Nat) : Prop where
  sound : Sound h
  tidy : Tidy h k
  budget : WithinBudget h
  index : Represents h.bpt (liveIndex h)

section
variable {grant : Nat → Bool} {w : World} {k : Nat}

theorem evictIter_keeps (w : World) (n : Nat) : (evictOldest^[n] w).hist.bpt = w.hist.bpt ∧
    (evictOldest^[n] w).hist.maxTokens = w.hist.maxTokens ∧
    (evictOldest^[n] w).hist.nextSeq = w.hist.nextSeq := by
  induction n with
  | zero => exact ⟨rfl,rfl,rfl⟩
  | succ n ih =>
    rw [Function.iterate_succ_apply',evictOldest_bpt,evictOldest_maxTokens,evictOldest_nextSeq]
    exact ih

theorem Tidy.evictIter (ht : Tidy w.hist k) (hs : Sound w.hist) (n : Nat) :
    Tidy (Hist.evictOldest^[n] w).hist k := by
  induction n with
  | zero => exact ht
  | succ n ih =>
    rw [Function.iterate_succ_apply']
    exact ih.evictOldest (hs.evictIter n)

theorem Steady.makeRoom (hst : Steady w.hist k) (hg : ∀ i, grant i = true) (tok : UInt32) :
    Sound (makeRoom grant tok w).hist ∧ Tidy (makeRoom grant tok w).hist k ∧
      (historyCount (makeRoom grant tok w).hist).toNat < histRingSize ∧
      ¬ OverBudget tok (makeRoom grant tok w).hist ∧
      Represents (makeRoom grant tok w).hist.bpt (liveIndex (makeRoom grant tok w).hist) := by
  obtain ⟨n,-,hr,ho,-,hmk⟩ := makeRoom_spec grant tok w
  have hs := hst.sound.evictIter n
  have ht := hst.tidy.evictIter hst.sound n
  obtain ⟨hbpt,-,-⟩ := evictIter_keeps w n
  rw [hmk]
  split
  · rename_i hn
    subst hn
    exact ⟨hs,ht,hr,ho,hst.index⟩
  · refine ⟨hs.setBpt _,⟨ht.order,ht.head,ht.seqs,ht.fresh,ht.nextSeq⟩,hr,ho,?_⟩
    exact histBptRebuild_represents hg (hbpt ▸ hst.index) (fun e he => (hs.entries e he).data)
      ht.ascending

theorem liveIndex_placeEntry (e : HistEntry) (hn : (historyCount h).toNat < histRingSize) :
    liveIndex (placeEntry grant h e) = liveIndex h ++ [(e.seq.toNat,slotOf h.head)] := by
  have hf : (fun j => ((setAt h.ring (slotOf h.head) e j).seq.toNat,j)) =
      setAt (fun j => ((h.ring j).seq.toNat,j)) (slotOf h.head) (e.seq.toNat,slotOf h.head) := by
    funext j
    simp only [setAt]
    split
    · rename_i hj
      rw [hj]
    · rfl
  rw [liveIndex,placeEntry_count grant e hn,liveIndex,← window_pushBack _ hn,← slotOf_head,← hf]
  rfl

theorem Tidy.placeEntry (ht : Tidy h k) (hn : (historyCount h).toNat < histRingSize)
    (hseq : e.seq = h.nextSeq) (hk : k+1 < 2^32) :
    Tidy (Hist.placeEntry grant { h with nextSeq := h.nextSeq+1 } e) (k+1) := by
  have hl : live (Hist.placeEntry grant { h with nextSeq := h.nextSeq+1 } e) =
      live h ++ [e] := live_placeEntry grant e hn
  have hbn := ht.nextSeq
  have hhd := ht.head
  have hnx : (h.nextSeq+1).toNat = h.nextSeq.toNat+1 := by
    simp only [UInt64.toNat_add,UInt64.toNat_one]
    omega
  have hh : (h.head+1).toNat = h.head.toNat+1 := by
    simp only [toNat_add,toNat_one]
    omega
  constructor
  · have ho := ht.order
    simp only [Hist.placeEntry,hh]
    omega
  · simp only [Hist.placeEntry,hh]
    omega
  · rw [hl]
    refine pairwise_append.mpr ⟨ht.seqs,pairwise_singleton _ _,?_⟩
    intro a ha b hb
    rw [mem_singleton.mp hb,hseq]
    exact ht.fresh a ha
  · intro a ha
    rw [hl] at ha
    show a.seq < h.nextSeq+1
    rw [UInt64.lt_iff_toNat_lt,hnx]
    rcases mem_append.mp ha with ha | ha
    · have hlt := UInt64.lt_iff_toNat_lt.mp (ht.fresh a ha)
      omega
    · rw [mem_singleton.mp ha,hseq]
      omega
  · show (h.nextSeq+1).toNat ≤ k+1
    omega

theorem Tidy.withinBudget (ht : Tidy h k) (hn : (historyCount h).toNat < histRingSize)
    (ho : ¬ OverBudget e.tokenCount h) :
    WithinBudget (Hist.placeEntry grant { h with nextSeq := h.nextSeq+1 } e) := by
  have hl : live (Hist.placeEntry grant { h with nextSeq := h.nextSeq+1 } e) =
      live h ++ [e] := live_placeEntry grant e hn
  rw [WithinBudget,hl]
  by_cases hb : h.maxTokens < h.windowTokens+e.tokenCount
  · have hle := ht.order
    have hge : ¬ h.tail < h.head := fun hlt => ho ⟨hb,hlt⟩
    rw [UInt32.lt_iff_toNat_lt] at hge
    have hz : h.head = h.tail := toNat_inj.mp (by omega)
    right
    rw [length_append,live_length,count_eq_zero.mpr hz]
    exact le_refl _
  · left
    exact UInt32.not_lt.mp hb

theorem Tidy.index (ht : Tidy h k) (hg : ∀ i, grant i = true)
    (hn : (historyCount h).toNat < histRingSize) (hr : Represents h.bpt (liveIndex h))
    (hseq : e.seq = h.nextSeq) :
    Represents (Hist.placeEntry grant { h with nextSeq := h.nextSeq+1 } e).bpt
      (liveIndex (Hist.placeEntry grant { h with nextSeq := h.nextSeq+1 } e)) := by
  have hidx : liveIndex (Hist.placeEntry grant { h with nextSeq := h.nextSeq+1 } e) =
      liveIndex h ++ [(e.seq.toNat,slotOf h.head)] :=
    liveIndex_placeEntry (h := { h with nextSeq := h.nextSeq+1 }) e hn
  rw [hidx,← insertPair_last]
  · exact (histBptInsert_spec hg hr e.seq.toNat (slotOf h.head)).2
  intro a ha
  have hkey : a.1 ∈ (live h).map (fun e => e.seq.toNat) := by
    rw [← liveIndex_keys]
    exact mem_map_of_mem ha
  obtain ⟨f,hf,hfa⟩ := mem_map.mp hkey
  rw [← hfa,hseq]
  exact UInt64.lt_iff_toNat_lt.mp (ht.fresh f hf)

theorem steady_placeEntry (hg : ∀ i, grant i = true) (hs : Sound h) (ht : Tidy h k)
    (hn : (historyCount h).toNat < histRingSize) (ho : ¬ OverBudget e.tokenCount h)
    (hr : Represents h.bpt (liveIndex h)) (he : EntryOk e) (hseq : e.seq = h.nextSeq)
    (hk : k+1 < 2^32) : Steady (placeEntry grant { h with nextSeq := h.nextSeq+1 } e) (k+1) := by
  have hsn : Sound (placeEntry grant { h with nextSeq := h.nextSeq+1 } e) :=
    Sound.placeEntry (h := { h with nextSeq := h.nextSeq+1 }) ⟨hs.count,hs.entries,hs.window⟩
      grant he hn
  exact ⟨hsn,ht.placeEntry hn hseq hk,ht.withinBudget hn ho,ht.index hg hn hr hseq⟩

theorem Steady.push (hst : Steady w.hist k) (hg : ∀ i, grant i = true) (hk : k+1 < 2^32)
    (env : PushEnv) (role : UInt8) (text : Bytes) :
    Steady (historyPush grant env role text w).2.hist (k+1) := by
  unfold historyPush
  simp only
  split
  · exact ⟨hst.sound,hst.tidy.mono (Nat.le_succ k),hst.budget,hst.index⟩
  rename_i ha
  have hmax := allocText_some ha
  obtain ⟨hs,ht,hn,ho,hr⟩ := Steady.makeRoom
    (w := { w with heap := (allocText env text w.heap).2 }) hst hg (estimateTokens text)
  refine steady_placeEntry hg hs ht hn ho hr ⟨estimateTokens_le hmax,ha,?_⟩ rfl hk
  have hle := packText_le hmax
  simp only [UInt32.toNat_ofNat']
  omega

theorem tokens_dropLast_le (l : List HistEntry) : tokens l.dropLast ≤ tokens l := by
  rcases eq_nil_or_concat l with rfl | ⟨l,e,rfl⟩
  · exact le_refl _
  · simp

theorem WithinBudget.dropNewest (hb : WithinBudget w.hist) (hs : Sound w.hist)
    (hne : w.hist.head ≠ w.hist.tail) : WithinBudget (dropNewest w).hist := by
  have hs' := hs.dropNewest hne
  have hl := live_dropNewest hne hs.count
  have hle : (Hist.dropNewest w).hist.windowTokens.toNat ≤ w.hist.windowTokens.toNat := by
    rw [hs'.window,hs.window,hl]
    exact tokens_dropLast_le _
  rcases hb with hb | hb
  · left
    exact le_trans hle hb
  · right
    rw [hl,length_dropLast]
    omega

theorem truncateLoop_steady (hs : Sound w.hist) (ht : Tidy w.hist k) (hb : WithinBudget w.hist) (drop : Nat) :
    Sound (truncateLoop drop w).hist ∧ Tidy (truncateLoop drop w).hist k ∧
      WithinBudget (truncateLoop drop w).hist ∧ (truncateLoop drop w).hist.bpt = w.hist.bpt := by
  induction drop generalizing w with
  | zero => exact ⟨hs,ht,hb,rfl⟩
  | succ drop ih =>
    unfold truncateLoop
    split
    · exact ⟨hs,ht,hb,rfl⟩
    rename_i hle
    have hlt := UInt32.not_le.mp hle
    have hne : w.hist.head ≠ w.hist.tail := fun he => by
      rw [he] at hlt
      exact lt_irrefl _ hlt
    exact ih (hs.dropNewest hne) (ht.dropNewest hs hlt) (hb.dropNewest hs hne)

theorem Steady.truncate (hst : Steady w.hist k) (hg : ∀ i, grant i = true)
    (keepCount : UInt32) : Steady (historyTruncateKeep grant keepCount w).2.hist k := by
  unfold historyTruncateKeep
  split
  · exact hst
  obtain ⟨hs,ht,hb,hbpt⟩ := truncateLoop_steady hst.sound hst.tidy hst.budget
    (historyCount w.hist-keepCount).toNat
  refine ⟨hs.setBpt _,⟨ht.order,ht.head,ht.seqs,ht.fresh,ht.nextSeq⟩,hb,?_⟩
  exact histBptRebuild_represents hg (hbpt ▸ hst.index) (fun e he => (hs.entries e he).data)
    ht.ascending

theorem steady_empty (hh : h.head = 0) (ht : h.tail = 0) (hw : h.windowTokens = 0)
    (hn : h.nextSeq = 0) (hr : Represents h.bpt []) (k : Nat) : Steady h k := by
  have hz : (historyCount h).toNat = 0 := count_eq_zero.mpr (hh.trans ht.symm)
  have hl := live_eq_nil (hh.trans ht.symm)
  have hi : liveIndex h = [] := by
    rw [liveIndex,hz]
    rfl
  refine ⟨sound_empty (hh.trans ht.symm) hw,⟨?_,?_,?_,?_,?_⟩,.inr ?_,?_⟩
  · rw [hh,ht]
  · rw [hh]
    exact Nat.zero_le _
  · rw [hl]
    exact List.Pairwise.nil
  · rw [hl]
    exact fun e he => absurd he not_mem_nil
  · rw [hn]
    exact Nat.zero_le _
  · rw [hl]
    exact Nat.zero_le _
  · rw [hi]
    exact hr

theorem Steady.clear (hst : Steady w.hist k) : Steady (historyClear w).hist k := by
  obtain ⟨n,hn⟩ := evictAll_spec w
  refine steady_empty rfl rfl rfl rfl ?_ k
  simp only [historyClear,hn]
  rw [(evictIter_keeps w n).1]
  exact histBptClear_represents hst.index

def Op.isPush : Op → Bool
  | .push _ _ _ => true
  | _ => false

def pushes (ops : List Op) : Nat := ops.countP Op.isPush

theorem Steady.step (hst : Steady w.hist k) (hg : ∀ i, grant i = true) (o : Op)
    (hk : k+pushes [o] < 2^32) : Steady (step grant w o).hist (k+pushes [o]) := by
  cases o with
  | init maxTokens => exact steady_empty rfl rfl rfl rfl histBptInit_represents k
  | push env role text => exact hst.push hg hk env role text
  | truncateKeep keepCount => exact hst.truncate hg keepCount
  | clear => exact hst.clear

theorem Steady.run (hst : Steady w.hist k) (hg : ∀ i, grant i = true) (ops : List Op)
    (hk : k+pushes ops < 2^32) : Steady (run grant ops w).hist (k+pushes ops) := by
  induction ops generalizing w k with
  | nil => exact hst
  | cons o ops ih =>
    have hs : pushes (o :: ops) = pushes [o]+pushes ops := by
      simp only [pushes,countP_cons,countP_nil]
      omega
    rw [hs,← add_assoc] at hk ⊢
    exact ih (hst.step hg o (by omega)) hk

end

structure RingInvariant (h : History) : Prop where
  count : (live h).length ≤ histRingSize
  window : h.windowTokens.toNat = ((live h).map (fun e => e.tokenCount.toNat)).sum
  budget : h.windowTokens ≤ h.maxTokens ∨ (live h).length ≤ 1
  seqs : (live h).Pairwise (fun a b => a.seq < b.seq)
  index : Represents h.bpt (liveIndex h)
  query : ∀ minSeq maxOut, histBptRangeFromSeq h.bpt minSeq maxOut =
    (((liveIndex h).filter (fun a => minSeq ≤ a.1)).take maxOut).map Prod.snd

theorem run_ringInvariant (grant : Nat → Bool) (hg : ∀ i, grant i = true) (heap : Heap)
    (maxTokens : UInt32) (ops : List Op) (hk : pushes ops < 2^32) :
    RingInvariant (run grant ops ⟨heap,historyInit maxTokens⟩).hist := by
  have hinit : Steady (⟨heap,historyInit maxTokens⟩ : World).hist 0 :=
    steady_empty rfl rfl rfl rfl histBptInit_represents 0
  have hst := hinit.run hg ops (by omega)
  refine ⟨?_,hst.sound.window,hst.budget,hst.tidy.seqs,hst.index,histBptRangeFromSeq_spec hst.index⟩
  rw [live_length]
  exact hst.sound.count

theorem run_ringInvariant_four : RingInvariant (run (fun _ => true)
    [.push ⟨1,0,0⟩ 0 [104,101,108,108,111],.push ⟨2,0,1⟩ 1 [104,105],
      .push ⟨0,0,2⟩ 0 [121,111],.push ⟨3,0,3⟩ 0 [98,121,101,32,98,121,101,33],
      .truncateKeep 2]
    ⟨⟨fun _ => false,fun _ => 0,fun _ _ => 0⟩,historyInit 4⟩).hist :=
  run_ringInvariant _ (fun _ => rfl) _ _ _ (by decide)

end AevOS.Hist
