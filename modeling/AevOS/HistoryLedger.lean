import AevOS.BlockLedger
import AevOS.HistoryOwner

/-! The calls of the history on the allocator, in order. Without empty texts every release is of a
block in use. -/

namespace AevOS.Hist
open ArrayPrefix RingWindow Slab BpTree Wire Lz4 List
open Ledger
open UInt32 (ofNat)

def kmallocEvents (m : Heap) (size : Nat) (pick : Addr) : List Event :=
  if (kmalloc m size pick).1 = 0 then [] else [.alloc (kmalloc m size pick).1]

def kfreeEvents (p : Addr) : List Event := if p = 0 then [] else [.free p]

def kreallocEvents (m : Heap) (p : Addr) (newSize : Nat) (pick : Addr) : List Event :=
  if p = 0 then kmallocEvents m newSize pick
  else if newSize = 0 then kfreeEvents p
  else if newSize ≤ m.objSize p then []
  else if (kmalloc m newSize pick).1 = 0 then []
  else kmallocEvents m newSize pick ++ kfreeEvents p

def allocTextEvents (env : PushEnv) (text : Bytes) (m : Heap) : List Event :=
  let a := kmalloc m (compMax text) env.buffer
  kmallocEvents m (compMax text) env.buffer ++ if a.1 = 0 then []
    else kreallocEvents (store a.2 a.1 (packText text).2) a.1 (packText text).1 env.rebuffer

def evictOldestEvents (w : World) : List Event :=
  if w.hist.head = w.hist.tail then []
  else kfreeEvents (w.hist.ring (slotOf w.hist.tail)).data

def evictEvents : Nat → World → List Event
  | 0, _ => []
  | k+1, w => evictOldestEvents w ++ evictEvents k (evictOldest w)

def takenOut (w w' : World) : Nat := (historyCount w.hist).toNat-(historyCount w'.hist).toNat

def pushEvents (grant : Nat → Bool) (env : PushEnv) (text : Bytes) (w : World) : List Event :=
  let a := allocText env text w.heap
  allocTextEvents env text w.heap ++ if a.1 = 0 then []
    else
      let w := { w with heap := a.2 }
      let v := makeRoom grant (estimateTokens text) w
      evictEvents (takenOut w v) w ++ kfreeEvents (v.hist.ring (slotOf v.hist.head)).data

def truncateEvents : Nat → World → List Event
  | 0, _ => []
  | drop+1, w =>
    if w.hist.head ≤ w.hist.tail then []
    else kfreeEvents (w.hist.ring (slotOf (w.hist.head-1))).data ++
      truncateEvents drop (dropNewest w)

def stepEvents (grant : Nat → Bool) (w : World) : Op → List Event
  | .init _ => []
  | .push env _ text => pushEvents grant env text w
  | .truncateKeep keepCount =>
    if historyCount w.hist ≤ keepCount then []
    else truncateEvents (historyCount w.hist-keepCount).toNat w
  | .clear => evictEvents (takenOut w (evictAll w)) w

def runEvents (grant : Nat → Bool) : List Op → World → List Event
  | [], _ => []
  | o :: ops, w => stepEvents grant w o ++ runEvents grant ops (step grant w o)

theorem kfree_after (m : Heap) (p : Addr) : (kfree m p).allocated = after m.allocated (kfreeEvents p) := by
  unfold kfree kfreeEvents
  split <;> rfl

theorem evictOldest_after (w : World) :
    (evictOldest w).heap.allocated = after w.heap.allocated (evictOldestEvents w) := by
  unfold evictOldest evictOldestEvents
  split
  · rfl
  · simp only [entryFree_heap,kfree_after]

theorem evictIter_after (k : Nat) (w : World) :
    (evictOldest^[k] w).heap.allocated = after w.heap.allocated (evictEvents k w) := by
  induction k generalizing w with
  | zero => rfl
  | succ k ih => rw [Function.iterate_succ_apply,ih,evictEvents,after_append,evictOldest_after]

theorem truncateLoop_after (drop : Nat) (w : World) :
    (truncateLoop drop w).heap.allocated = after w.heap.allocated (truncateEvents drop w) := by
  induction drop generalizing w with
  | zero => rfl
  | succ drop ih =>
    rw [truncateLoop,truncateEvents]
    split
    · rfl
    · rw [ih,after_append]
      simp only [dropNewest,entryFree_heap,kfree_after]

variable {w : World} {env : PushEnv} {text : Bytes} {m : Heap}

section
variable (grant : Nat → Bool)

theorem takenOut_iter {k : Nat} (hk : k ≤ (historyCount w.hist).toNat) :
    takenOut w (evictOldest^[k] w) = k := by
  rw [takenOut,evictIter_count]
  omega

theorem evictAll_iter (w : World) :
    ∃ k, k ≤ (historyCount w.hist).toNat ∧ evictAll w = evictOldest^[k] w := by
  fun_induction evictAll w with
  | case1 w hc ih =>
    obtain ⟨k,hk,heq⟩ := ih
    have hne : w.hist.head ≠ w.hist.tail := by
      intro he
      rw [he] at hc
      exact absurd hc (UInt32.lt_irrefl _)
    have hlt := evictOldest_count_lt hne
    exact ⟨k+1,by omega,heq⟩
  | case2 w hc => exact ⟨0,Nat.zero_le _,rfl⟩

theorem allocText_granted (hf : compMax text ≤ 65536) (hne : env.buffer ≠ 0)
    (hfr : m.allocated env.buffer = false) : (allocText env text m).1 ≠ 0 := by
  have hpos : 0 < compMax text := by
    unfold compMax
    omega
  have hgot := kmalloc_granted hpos hf hne hfr
  rw [allocText]
  simp only [hgot,if_neg hne]
  split
  · exact hne
  · assumption

theorem allocTextEvents_cases (env : PushEnv) (text : Bytes) (m : Heap) :
    (allocText env text m = (0,m) ∧ allocTextEvents env text m = []) ∨
      ∃ m', allocText env text m = (env.buffer,m') ∧ Buffered env text m m' ∧ allocTextEvents env text m =
          .alloc env.buffer :: (if text = [] then [.free env.buffer] else []) ∧
        m'.allocated = after m.allocated (allocTextEvents env text m) := by
  rcases kmalloc_cases m (compMax text) env.buffer with hn | ⟨c,hc,hmax,hne,hfr,-,ha⟩
  · exact .inl ⟨by simp [allocText,hn],by simp [allocTextEvents,kmallocEvents,hn]⟩
  rcases allocText_cases env text m with hz | ⟨m',hs,hbuf⟩
  · exact absurd (congrArg Prod.fst hz) (allocText_granted (by omega) hne hfr)
  have hlz : text.length ≤ lz4MaxInputSize := by
    have hf := hbuf.fits
    unfold compMax at hf
    unfold lz4MaxInputSize
    omega
  refine .inr ⟨m',hs,hbuf,?_⟩
  rw [allocTextEvents,kmallocEvents,ha]
  simp only [if_neg hne,singleton_append]
  rw [allocText,ha] at hs
  simp only [if_neg hne] at hs
  have hh := congrArg Prod.snd hs
  simp only at hh
  rcases packText_cases text hlz with ⟨hnil,hp⟩ | ⟨hnil,hlen,hpos,hle,-⟩
  · rw [hp] at hh ⊢
    rw [krealloc_zero _ hne] at hh
    simp only [kreallocEvents,if_neg hne,if_true,hnil]
    refine ⟨by rw [kfreeEvents,if_neg hne],?_⟩
    rw [← hh,kfree_after]
    rfl
  have hf : (packText text).1 ≤ c := by omega
  rw [krealloc_fits hne (by omega) (by simp only [store,setAt_self]; exact hf)] at hh
  have he : kreallocEvents (store { m with
        allocated := setAt m.allocated env.buffer true
        objSize := setAt m.objSize env.buffer c } env.buffer (packText text).2)
      env.buffer (packText text).1 env.rebuffer = [] := by
    rw [kreallocEvents,if_neg hne,if_neg (by omega),if_pos]
    simp only [store,setAt_self]
    exact hf
  rw [he,if_neg hnil]
  refine ⟨rfl,?_⟩
  rw [← hh]
  rfl

structure SameBuffers (v u : World) : Prop where
  heap : v.heap = u.heap
  ring : v.hist.ring = u.hist.ring
  head : v.hist.head = u.hist.head
  tail : v.hist.tail = u.hist.tail

theorem makeRoom_iter (tok : UInt32) (w : World) : ∃ k, k ≤ (historyCount w.hist).toNat ∧
    SameBuffers (makeRoom grant tok w) (evictOldest^[k] w) := by
  obtain ⟨k,hk,-,-,-,hmk⟩ := makeRoom_spec grant tok w
  refine ⟨k,hk,?_⟩
  rw [hmk]
  split
  · rename_i hz
    rw [hz]
    exact ⟨rfl,rfl,rfl,rfl⟩
  · exact ⟨rfl,rfl,rfl,rfl⟩

theorem pushEvents_some {m' : Heap} (hs : allocText env text w.heap = (env.buffer,m'))
    (hne : env.buffer ≠ 0) :
    ∃ k, k ≤ (historyCount w.hist).toNat ∧
      pushEvents grant env text w = allocTextEvents env text w.heap ++
        (evictEvents k { w with heap := m' } ++
          kfreeEvents ((evictOldest^[k] { w with heap := m' }).hist.ring
            (slotOf (evictOldest^[k] { w with heap := m' }).hist.head)).data) ∧
      ∀ role, (historyPush grant env role text w).2.heap =
        kfree (evictOldest^[k] { w with heap := m' }).heap
          ((evictOldest^[k] { w with heap := m' }).hist.ring
            (slotOf (evictOldest^[k] { w with heap := m' }).hist.head)).data := by
  obtain ⟨k,hk,hv⟩ := makeRoom_iter grant (estimateTokens text) { w with heap := m' }
  have hev : takenOut { w with heap := m' }
      (makeRoom grant (estimateTokens text) { w with heap := m' }) = k := by
    have hc : historyCount (makeRoom grant (estimateTokens text) { w with heap := m' }).hist =
        historyCount (evictOldest^[k] { w with heap := m' }).hist := by
      rw [historyCount,hv.head,hv.tail,historyCount]
    rw [takenOut,hc]
    exact takenOut_iter hk
  refine ⟨k,hk,?_,fun role => ?_⟩
  · rw [pushEvents,hs]
    simp only [if_neg hne,hev,hv.ring,hv.head]
  · rw [historyPush,hs]
    simp only [if_neg hne,entryFree_heap,hv.heap,hv.ring,hv.head]

theorem step_after (w : World) (o : Op) :
    (step grant w o).heap.allocated = after w.heap.allocated (stepEvents grant w o) := by
  cases o with
  | init maxTokens => rfl
  | push env role text =>
    rw [step,stepEvents]
    rcases allocTextEvents_cases env text w.heap with ⟨hn,hev⟩ | ⟨m',hs,hbuf,-,ha⟩
    · rw [historyPush,pushEvents,hn,hev]
      rfl
    · obtain ⟨k,-,he,hh⟩ := pushEvents_some grant hs hbuf.nonnull
      rw [hh role,he,kfree_after,evictIter_after,after_append,after_append,← ha]
  | truncateKeep keepCount =>
    rw [step,stepEvents,historyTruncateKeep]
    split
    · rfl
    · exact truncateLoop_after _ w
  | clear =>
    obtain ⟨k,hk,hall⟩ := evictAll_iter w
    rw [stepEvents,hall,takenOut_iter hk,← evictIter_after,← hall]
    rfl

theorem Owned.kfree_sound {ring : Nat → HistEntry} (h : Owned m ring) {j : Nat}
    (hj : j < histRingSize) : Ledger.Sound m.allocated (kfreeEvents (ring j).data) := by
  rw [kfreeEvents]
  split
  · exact trivial
  · exact ⟨h.allocated j hj ‹_›,trivial⟩

theorem evictEvents_sound (k : Nat) (h : Owned w.heap w.hist.ring) :
    Ledger.Sound w.heap.allocated (evictEvents k w) := by
  induction k generalizing w with
  | zero => exact trivial
  | succ k ih =>
    rw [evictEvents,sound_append,← evictOldest_after]
    refine ⟨?_,ih (evictOldest_owned w h)⟩
    rw [evictOldestEvents]
    split
    · exact trivial
    · exact h.kfree_sound (slotOf_lt _)

theorem truncateEvents_sound (drop : Nat) (h : Owned w.heap w.hist.ring) :
    Ledger.Sound w.heap.allocated (truncateEvents drop w) := by
  induction drop generalizing w with
  | zero => exact trivial
  | succ drop ih =>
    rw [truncateEvents]
    split
    · exact trivial
    have hh : (dropNewest w).heap = kfree w.heap (w.hist.ring (slotOf (w.hist.head-1))).data :=
      entryFree_heap _ _
    rw [sound_append,← kfree_after,← hh]
    exact ⟨h.kfree_sound (slotOf_lt _),ih (dropNewest_owned h)⟩

def Op.Refused (w : World) : Op → Prop
  | .push env _ text => text = [] → env.buffer = 0 ∨ w.heap.allocated env.buffer = true
  | _ => True

theorem allocText_refused (h : env.buffer = 0 ∨ m.allocated env.buffer = true) :
    allocText env [] m = (0,m) := by
  rcases kmalloc_cases m (compMax []) env.buffer with hn | ⟨c,-,-,hne,hf,-⟩
  · simp [allocText,hn]
  rcases h with hz | hall
  · exact absurd hz hne
  · rw [hf] at hall
    exact Bool.noConfusion hall

theorem push_refused (role : UInt8) (h : env.buffer = 0 ∨ w.heap.allocated env.buffer = true) :
    step grant w (.push env role []) = w ∧ stepEvents grant w (.push env role []) = [] := by
  have hn := allocText_refused h
  constructor
  · simp [step,historyPush,hn]
  rw [stepEvents,pushEvents,hn]
  rcases allocTextEvents_cases env [] w.heap with ⟨-,hev⟩ | ⟨m',hs,hbuf,-⟩
  · rw [hev]
    rfl
  · rw [hn] at hs
    exact absurd (congrArg Prod.fst hs).symm hbuf.nonnull

theorem step_refused_owned {o : Op} (ho : o.Refused w) (h : Owned w.heap w.hist.ring) :
    Owned (step grant w o).heap (step grant w o).hist.ring ∧
      Ledger.Sound w.heap.allocated (stepEvents grant w o) := by
  cases o with
  | init maxTokens => exact ⟨historyInit_owned _ _,trivial⟩
  | push env role text =>
    by_cases hnil : text = []
    · subst hnil
      obtain ⟨hs,hev⟩ := push_refused grant role (ho rfl)
      rw [hs,hev]
      exact ⟨h,trivial⟩
    refine ⟨step_owned grant (o := .push env role text) hnil h,?_⟩
    rw [stepEvents]
    rcases allocTextEvents_cases env text w.heap with ⟨hn,hev⟩ | ⟨m',hsm,hbuf,hev,ha⟩
    · rw [pushEvents,hn,hev]
      exact trivial
    obtain ⟨k,-,he,-⟩ := pushEvents_some grant hsm hbuf.nonnull
    have hm : Owned m' w.hist.ring := h.buffered hbuf
    rw [he,sound_append,sound_append,← ha]
    refine ⟨by rw [hev,if_neg hnil]; exact trivial,?_,?_⟩
    · exact evictEvents_sound k (w := { w with heap := m' }) hm
    have hv := evictIter_owned (w := { w with heap := m' }) hm k
    have hf := hv.kfree_sound (slotOf_lt (evictOldest^[k] { w with heap := m' }).hist.head)
    rw [evictIter_after] at hf
    exact hf
  | truncateKeep keepCount =>
    refine ⟨step_owned grant (o := .truncateKeep keepCount) trivial h,?_⟩
    rw [stepEvents]
    split
    · exact trivial
    · exact truncateEvents_sound _ h
  | clear =>
    exact ⟨step_owned grant (o := .clear) trivial h,evictEvents_sound _ h⟩

theorem run_refused_owned {ops : List Op}
    (hops : ∀ (k : Nat) (o : Op), ops[k]? = some o → o.Refused (run grant (ops.take k) w))
    (h : Owned w.heap w.hist.ring) : Owned (run grant ops w).heap (run grant ops w).hist.ring ∧
      Ledger.Sound w.heap.allocated (runEvents grant ops w) := by
  induction ops generalizing w with
  | nil => exact ⟨h,trivial⟩
  | cons o ops ih =>
    obtain ⟨hown,hs⟩ := step_refused_owned grant (hops 0 o rfl) h
    obtain ⟨hrun,he⟩ := ih (fun k o' hk => hops (k+1) o' hk) hown
    rw [step_after] at he
    exact ⟨hrun,sound_append.mpr ⟨hs,he⟩⟩

def LiveOwned (w : World) : Prop :=
  ∀ i, i < (historyCount w.hist).toNat → (w.hist.ring (slotOf (w.hist.tail+ofNat i))).data ≠ 0 →
      w.heap.allocated (w.hist.ring (slotOf (w.hist.tail+ofNat i))).data = true ∧
      ∀ j, j < histRingSize → j ≠ slotOf (w.hist.tail+ofNat i) →
        (w.hist.ring j).data ≠ (w.hist.ring (slotOf (w.hist.tail+ofNat i))).data

theorem Owned.live (h : Owned w.heap w.hist.ring) : LiveOwned w := by
  intro i _ hd
  refine ⟨h.allocated _ (slotOf_lt _) hd,?_⟩
  intro j hj hne heq
  exact h.apart _ j (slotOf_lt _) hj (Ne.symm hne) hd heq.symm

theorem alloc_notMem_kfreeEvents (p q : Addr) : .alloc q ∉ kfreeEvents p := by
  rw [kfreeEvents]
  split <;> simp

theorem alloc_notMem_evictEvents (k : Nat) (w : World) (q : Addr) : .alloc q ∉ evictEvents k w := by
  induction k generalizing w with
  | zero => exact not_mem_nil
  | succ k ih =>
    rw [evictEvents,mem_append,not_or]
    refine ⟨?_,ih _⟩
    rw [evictOldestEvents]
    split
    · exact not_mem_nil
    · exact alloc_notMem_kfreeEvents _ q

theorem historyPush_granted (role : UInt8) (h : (allocText env text w.heap).1 ≠ 0) :
    (historyPush grant env role text w).1 = 0 := by
  simp [historyPush,h]

theorem push_empty_unused (role : UInt8) (hok : (allocText env [] w.heap).1 ≠ 0) :
    (step grant w (.push env role [])).heap.allocated env.buffer = false := by
  rcases allocTextEvents_cases env [] w.heap with ⟨hn,-⟩ | ⟨m',hs,hbuf,hev,-⟩
  · exact absurd (congrArg Prod.fst hn) hok
  obtain ⟨k,-,he,-⟩ := pushEvents_some grant hs hbuf.nonnull
  rw [step_after,stepEvents,he,hev,if_pos rfl,after_append]
  refine after_unused (setAt_self _ _ _) ?_
  rw [mem_append,not_or]
  exact ⟨alloc_notMem_evictEvents _ _ _,alloc_notMem_kfreeEvents _ _⟩

theorem push_empty_dangling {role : UInt8} (hne : env.buffer ≠ 0)
    (hf : w.heap.allocated env.buffer = false) : ¬ LiveOwned (step grant w (.push env role [])) := by
  have hok : (allocText env [] w.heap).1 ≠ 0 := allocText_granted (by decide) hne hf
  have hu := push_empty_unused grant role hok
  rw [step] at hu ⊢
  intro hl
  rcases historyPush_cases grant env role [] w with hfl | ⟨-,m',k,v,hp⟩
  · have hrc := historyPush_granted grant role hok
    rw [hfl] at hrc
    exact absurd (show -enomem = 0 from hrc) (by decide)
  obtain ⟨t,hpl⟩ := hp.placed
  generalize (historyPush grant env role [] w).2 = w' at *
  -- the entry is the newest one, behind the `v` ones that were kept
  have ht : w'.hist.tail = v.hist.tail := by
    rw [hpl]
    rfl
  have hc : (historyCount w'.hist).toNat = (historyCount v.hist).toNat+1 := by
    rw [hpl]
    exact placeEntry_count grant (pushedEntry env role [] w.hist.nextSeq) hp.room
  have hs : slotOf (w'.hist.tail+ofNat (historyCount v.hist).toNat) = slotOf v.hist.head := by
    rw [slotOf_add,slotOf_head,ht]
  have hd : (w'.hist.ring (slotOf v.hist.head)).data = env.buffer := by
    rw [hp.ring,setAt_self]
    rfl
  have hnew := hl (historyCount v.hist).toNat (by omega)
  rw [hs,hd] at hnew
  rw [(hnew hne).1] at hu
  exact Bool.noConfusion hu

end

theorem run_ownsBuffers_iff (grant : Nat → Bool) (m : Heap) (maxTokens : UInt32) (ops : List Op) :
    (∀ k, k ≤ ops.length → LiveOwned (run grant (ops.take k) ⟨m,historyInit maxTokens⟩) ∧
          FreedOnce (runEvents grant (ops.take k) ⟨m,historyInit maxTokens⟩)) ↔
      ∀ (k : Nat) (o : Op), ops[k]? = some o →
        o.Refused (run grant (ops.take k) ⟨m,historyInit maxTokens⟩) := by
  constructor
  · intro hall k o hk
    obtain ⟨hlt,rfl⟩ := List.getElem?_eq_some_iff.mp hk
    have hstep : run grant (ops.take (k+1)) ⟨m,historyInit maxTokens⟩ =
        step grant (run grant (ops.take k) ⟨m,historyInit maxTokens⟩) ops[k] := by
      rw [run,take_add_one,hk,List.foldl_append]
      rfl
    have hlive := (hall (k+1) hlt).1
    rw [hstep] at hlive
    cases ho : ops[k] with
    | push env role text =>
      intro hnil
      rw [ho,hnil] at hlive
      by_contra hno
      rw [not_or,Bool.not_eq_true] at hno
      exact push_empty_dangling grant hno.1 hno.2 hlive
    | init maxTokens | truncateKeep keepCount | clear => exact trivial
  intro hops k hk
  have htake : ∀ (j : Nat) (o : Op), (ops.take k)[j]? = some o →
      o.Refused (run grant ((ops.take k).take j) ⟨m,historyInit maxTokens⟩) := by
    intro j o hj
    obtain ⟨hlt,-⟩ := List.getElem?_eq_some_iff.mp hj
    rw [length_take] at hlt
    rw [getElem?_take_of_lt (by omega)] at hj
    rw [take_take,Nat.min_eq_left (by omega)]
    exact hops j o hj
  obtain ⟨hown,hsound⟩ := run_refused_owned grant htake (historyInit_owned m maxTokens)
  exact ⟨hown.live,hsound.freedOnce⟩

theorem run_ownsBuffers_empty : ¬ LiveOwned (run (fun _ => true) [.push ⟨1,0,0⟩ 0 []]
      ⟨⟨fun _ => false,fun _ => 0,fun _ _ => 0⟩,historyInit 100⟩) ∧
    ¬ FreedOnce (runEvents (fun _ => true) [.push ⟨1,0,0⟩ 0 [],.clear]
      ⟨⟨fun _ => false,fun _ => 0,fun _ _ => 0⟩,historyInit 100⟩) := by
  refine ⟨push_empty_dangling _ (by decide) rfl,?_⟩
  have hlog : runEvents (fun _ => true) [.push ⟨1,0,0⟩ 0 [],.clear]
      ⟨⟨fun _ => false,fun _ => 0,fun _ _ => 0⟩,historyInit 100⟩ = [.alloc 1,.free 1,.free 1] := by
    decide +kernel
  rw [hlog]
  intro honce
  exact absurd (honce 1 [.alloc 1] [] [] rfl) not_mem_nil

end AevOS.Hist
