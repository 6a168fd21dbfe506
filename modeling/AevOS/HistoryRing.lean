import AevOS.HistBptree
import AevOS.KernelHeap
import AevOS.RingWindow
import AevOS.Lz4RoundTrip

/-! The conversation history of `agent/history.c`: a ring of entries with their compressed texts on the
kernel heap. The counters and the token counts are `uint32_t` and wrap. -/

namespace AevOS.Hist
open ArrayPrefix Wire Slab BpTree Lz4
open UInt32 (ofNat toNat_inj toNat_sub toNat_add toNat_one sub_self lt_irrefl toNat_ofNat')

def histRingSize : Nat := 4096

structure HistEntry where
  timestamp : UInt64
  seq : UInt64
  role : UInt8
  tokenCount : UInt32
  data : Addr
  dataLen : UInt32
  rawLen : UInt32
  deriving DecidableEq

def zeroEntry : HistEntry := ⟨0,0,0,0,0,0,0⟩

structure History where
  ring : Nat → HistEntry
  head : UInt32
  tail : UInt32
  windowTokens : UInt32
  maxTokens : UInt32
  nextSeq : UInt64
  bpt : HistBptree

structure World where
  heap : Heap
  hist : History

def slotOf (i : UInt32) : Nat := i.toNat%histRingSize
def estimateTokens (text : Bytes) : UInt32 := (ofNat text.length+3)/4

def historyInit (maxTokens : UInt32) : History :=
  ⟨fun _ => zeroEntry,0,0,0,maxTokens,0,histBptInit⟩

def historyCount (h : History) : UInt32 := h.head-h.tail

def entryFree (m : Heap) (e : HistEntry) : Heap × HistEntry :=
  (if e.data = 0 then m else kfree m e.data,
    { e with data := 0, dataLen := 0, rawLen := 0, tokenCount := 0 })

def evictOldest (w : World) : World :=
  if w.hist.head = w.hist.tail then w
  else
    let e := w.hist.ring (slotOf w.hist.tail)
    let f := entryFree w.heap e
    ⟨f.1,
      { w.hist with
        ring := setAt w.hist.ring (slotOf w.hist.tail) f.2
        windowTokens := w.hist.windowTokens-e.tokenCount
        tail := w.hist.tail+1 }⟩

theorem evictOldest_count_lt {w : World} (h : w.hist.head ≠ w.hist.tail) :
    (historyCount (evictOldest w).hist).toNat < (historyCount w.hist).toNat := by
  have hne : w.hist.head.toNat ≠ w.hist.tail.toNat := fun he => h (toNat_inj.mp he)
  have h1 := w.hist.head.toNat_lt
  have h2 := w.hist.tail.toNat_lt
  simp only [evictOldest,if_neg h,historyCount,toNat_sub,toNat_add,toNat_one]
  omega

def evictFull (w : World) (dirty : Bool) : World × Bool :=
  if histRingSize ≤ (historyCount w.hist).toNat then evictFull (evictOldest w) true
  else (w,dirty)
termination_by (historyCount w.hist).toNat
decreasing_by
  rename_i h
  apply evictOldest_count_lt
  intro he
  rw [historyCount,he,sub_self] at h
  exact absurd h (by decide)

def evictTokens (tok : UInt32) (w : World) (dirty : Bool) : World × Bool :=
  if w.hist.maxTokens < w.hist.windowTokens+tok ∧ w.hist.tail < w.hist.head then
    evictTokens tok (evictOldest w) true
  else (w,dirty)
termination_by (historyCount w.hist).toNat
decreasing_by
  rename_i h
  apply evictOldest_count_lt
  intro he
  rw [he] at h
  exact absurd h.2 (lt_irrefl _)

def rebuildEntry (grant : Nat → Bool) (h : History) (t : HistBptree) (i : Nat) : HistBptree :=
  let absIdx := slotOf (h.tail+ofNat i)
  if (h.ring absIdx).data = 0 then t
  else (histBptInsert grant t (h.ring absIdx).seq.toNat absIdx).2

def histBptRebuild (grant : Nat → Bool) (h : History) : HistBptree :=
  (List.range (historyCount h).toNat).foldl (rebuildEntry grant h) (histBptClear h.bpt)

def placeEntry (grant : Nat → Bool) (h : History) (e : HistEntry) : History :=
  { h with
    ring := setAt h.ring (slotOf h.head) e
    head := h.head+1
    windowTokens := h.windowTokens+e.tokenCount
    bpt := (histBptInsert grant h.bpt e.seq.toNat (slotOf h.head)).2 }

def compMax (text : Bytes) : Nat := text.length+text.length/255+16

def packText (text : Bytes) : Nat × Bytes :=
  let c := lz4Compress text (compMax text)
  if c.1 ≤ 0 then (text.length,text) else (c.1.toNat,c.2)

structure PushEnv where
  buffer : Addr
  rebuffer : Addr
  now : UInt64

def allocText (env : PushEnv) (text : Bytes) (m : Heap) : Addr × Heap :=
  let a := kmalloc m (compMax text) env.buffer
  if a.1 = 0 then (0,a.2)
  else
    let r := krealloc (store a.2 a.1 (packText text).2) a.1 (packText text).1 env.rebuffer
    (if r.1 = 0 then a.1 else r.1,r.2)

def makeRoom (grant : Nat → Bool) (tok : UInt32) (w : World) : World :=
  let f := evictFull w false
  let t := evictTokens tok f.1 f.2
  if t.2 then { t.1 with hist := { t.1.hist with bpt := histBptRebuild grant t.1.hist } }
  else t.1

def historyPush (grant : Nat → Bool) (env : PushEnv) (role : UInt8) (text : Bytes)
    (w : World) : Int × World :=
  let a := allocText env text w.heap
  if a.1 = 0 then (-enomem,{ w with heap := a.2 })
  else
    let tok := estimateTokens text
    let w := makeRoom grant tok { w with heap := a.2 }
    let e : HistEntry :=
      ⟨env.now,w.hist.nextSeq,role,tok,a.1,ofNat (packText text).1,ofNat text.length⟩
    (0, ⟨(entryFree w.heap (w.hist.ring (slotOf w.hist.head))).1,
        placeEntry grant { w.hist with nextSeq := w.hist.nextSeq+1 } e⟩)

def historyGet (w : World) (index : UInt32) (bufSize : Nat) : Int × Bytes :=
  if bufSize = 0 then (-einval,[])
  else if historyCount w.hist ≤ index then (-enoent,[])
  else
    let e := w.hist.ring (slotOf (w.hist.tail+index))
    if e.data = 0 ∨ e.dataLen = 0 then (-enoent,[])
    else
      let data := load w.heap e.data e.dataLen.toNat
      let d := lz4Decompress data (min (bufSize-1) e.rawLen.toNat)
      if d.1 ≤ 0 then
        let copyLen := min e.dataLen.toNat ((bufSize-1)%2^32)
        (copyLen,data.take copyLen)
      else d

def dropNewest (w : World) : World :=
  let idx := slotOf (w.hist.head-1)
  let e := w.hist.ring idx
  ⟨(entryFree w.heap e).1,
    { w.hist with
      ring := setAt w.hist.ring idx zeroEntry
      windowTokens := w.hist.windowTokens-e.tokenCount
      head := w.hist.head-1 }⟩

def truncateLoop : Nat → World → World
  | 0, w => w
  | drop+1, w => if w.hist.head ≤ w.hist.tail then w else truncateLoop drop (dropNewest w)

def historyTruncateKeep (grant : Nat → Bool) (keepCount : UInt32) (w : World) : Int × World :=
  if historyCount w.hist ≤ keepCount then (0,w)
  else
    let w := truncateLoop (historyCount w.hist-keepCount).toNat w
    (0,{ w with hist := { w.hist with bpt := histBptRebuild grant w.hist } })

def evictAll (w : World) : World :=
  if w.hist.tail < w.hist.head then evictAll (evictOldest w) else w
termination_by (historyCount w.hist).toNat
decreasing_by
  rename_i h
  apply evictOldest_count_lt
  intro he
  rw [he] at h
  exact absurd h (lt_irrefl _)

def historyClear (w : World) : World :=
  let w := evictAll w
  { w with
    hist :=
      { w.hist with
        head := 0
        tail := 0
        windowTokens := 0
        nextSeq := 0
        bpt := histBptClear w.hist.bpt } }

inductive Op where
  | init (maxTokens : UInt32)
  | push (env : PushEnv) (role : UInt8) (text : Bytes)
  | truncateKeep (keepCount : UInt32)
  | clear

def step (grant : Nat → Bool) (w : World) : Op → World
  | .init maxTokens => { w with hist := historyInit maxTokens }
  | .push env role text => (historyPush grant env role text w).2
  | .truncateKeep keepCount => (historyTruncateKeep grant keepCount w).2
  | .clear => historyClear w

def run (grant : Nat → Bool) (ops : List Op) (w : World) : World := ops.foldl (step grant) w

/-! The live entries, oldest first, and what each operation does to that list. -/

open RingWindow

def live (h : History) : List HistEntry :=
  window histRingSize h.ring h.tail.toNat (historyCount h).toNat

@[simp] theorem live_length (h : History) : (live h).length = (historyCount h).toNat :=
  window_length _ _ _

theorem slotOf_lt (i : UInt32) : slotOf i < histRingSize := Nat.mod_lt _ (by decide)

theorem slotOf_add (t : UInt32) (i : Nat) : slotOf (t+ofNat i) = (t.toNat+i)%histRingSize := by
  simp only [slotOf,histRingSize,toNat_add,toNat_ofNat']
  omega

theorem slotOf_head (h : History) : slotOf h.head = (h.tail.toNat+(historyCount h).toNat)%histRingSize := by
  have h2 := h.tail.toNat_lt
  simp only [slotOf,histRingSize,historyCount,toNat_sub]
  omega

variable {h : History} {w : World} {e : HistEntry} {l : List HistEntry}

theorem count_eq_zero : (historyCount h).toNat = 0 ↔ h.head = h.tail := by
  constructor
  · intro hz
    have h1 := h.head.toNat_lt
    have h2 := h.tail.toNat_lt
    apply toNat_inj.mp
    simp only [historyCount,toNat_sub] at hz
    omega
  · intro he
    rw [historyCount,he,sub_self]
    rfl

theorem slotOf_newest (hne : h.head ≠ h.tail) :
    slotOf (h.head-1) = (h.tail.toNat+((historyCount h).toNat-1))%histRingSize := by
  have h0 := mt count_eq_zero.mp hne
  have h2 := h.tail.toNat_lt
  simp only [historyCount,toNat_sub] at h0 ⊢
  simp only [slotOf,histRingSize,toNat_sub,toNat_one]
  omega

theorem live_eq_nil (hh : h.head = h.tail) : live h = [] := by
  rw [← List.length_eq_zero_iff,live_length,count_eq_zero.mpr hh]

theorem live_getElem? (h : History) {i : Nat} (hi : i < (historyCount h).toNat) :
    (live h)[i]? = some (h.ring (slotOf (h.tail+ofNat i))) := by
  rw [live,window_getElem? _ _ hi,slotOf_add]

@[simp] theorem evictOldest_head (w : World) : (evictOldest w).hist.head = w.hist.head := by
  unfold evictOldest
  split <;> rfl

@[simp] theorem evictOldest_maxTokens (w : World) : (evictOldest w).hist.maxTokens = w.hist.maxTokens := by
  unfold evictOldest
  split <;> rfl

@[simp] theorem evictOldest_nextSeq (w : World) : (evictOldest w).hist.nextSeq = w.hist.nextSeq := by
  unfold evictOldest
  split <;> rfl

@[simp] theorem evictOldest_bpt (w : World) : (evictOldest w).hist.bpt = w.hist.bpt := by
  unfold evictOldest
  split <;> rfl

theorem evictOldest_count (w : World) :
    (historyCount (evictOldest w).hist).toNat = (historyCount w.hist).toNat-1 := by
  unfold evictOldest
  split
  · rename_i he
    rw [count_eq_zero.mpr he]
  rename_i hne
  have h0 : (historyCount w.hist).toNat ≠ 0 := fun hz => hne (count_eq_zero.mp hz)
  have h2 := w.hist.tail.toNat_lt
  simp only [historyCount,toNat_sub,toNat_add,toNat_one] at h0 ⊢
  omega

theorem live_evictOldest (hn : (historyCount w.hist).toNat ≤ histRingSize) :
    live (evictOldest w).hist = (live w.hist).tail := by
  have hc := evictOldest_count w
  by_cases he : w.hist.head = w.hist.tail
  · rw [evictOldest,if_pos he,live,count_eq_zero.mpr he]
    rfl
  obtain ⟨n,hk⟩ : ∃ n, (historyCount w.hist).toNat = n+1 :=
    ⟨(historyCount w.hist).toNat-1,by have := mt count_eq_zero.mp he; omega⟩
  rw [live,hc,hk,live,hk,Nat.add_sub_cancel]
  rw [hk] at hn
  rw [← window_popFront (entryFree w.heap (w.hist.ring (slotOf w.hist.tail))).2 hn]
  simp only [evictOldest,if_neg he]
  apply window_congr_tail
  simp only [toNat_add,toNat_one,histRingSize]
  omega

theorem evictOldest_windowTokens (h : live w.hist = e :: l) :
    (evictOldest w).hist.windowTokens = w.hist.windowTokens-e.tokenCount := by
  have hpos : 0 < (historyCount w.hist).toNat := by
    rw [← live_length,h]
    exact Nat.succ_pos _
  have hne : w.hist.head ≠ w.hist.tail := fun he => by
    rw [count_eq_zero.mpr he] at hpos
    omega
  have he := live_getElem? w.hist hpos
  rw [h] at he
  simp only [List.getElem?_cons_zero,Option.some.injEq,slotOf_add,add_zero] at he
  rw [evictOldest,if_neg hne,he]
  rfl

section
variable (grant : Nat → Bool)

theorem placeEntry_count (e : HistEntry) (hn : (historyCount h).toNat < histRingSize) :
    (historyCount (placeEntry grant h e)).toNat = (historyCount h).toNat+1 := by
  simp only [placeEntry,historyCount,histRingSize,toNat_sub,toNat_add,toNat_one] at hn ⊢
  omega

theorem live_placeEntry (e : HistEntry) (hn : (historyCount h).toNat < histRingSize) :
    live (placeEntry grant h e) = live h ++ [e] := by
  rw [live,placeEntry_count grant e hn,live,← window_pushBack e hn,← slotOf_head]
  rfl

end

theorem dropNewest_count (hne : w.hist.head ≠ w.hist.tail) :
    (historyCount (dropNewest w).hist).toNat = (historyCount w.hist).toNat-1 := by
  have h0 : (historyCount w.hist).toNat ≠ 0 := fun hz => hne (count_eq_zero.mp hz)
  have h2 := w.hist.tail.toNat_lt
  simp only [dropNewest,historyCount,toNat_sub,toNat_one] at h0 ⊢
  omega

theorem live_dropNewest (hne : w.hist.head ≠ w.hist.tail) (hn : (historyCount w.hist).toNat ≤ histRingSize) :
    live (dropNewest w).hist = (live w.hist).dropLast := by
  obtain ⟨n,hk⟩ : ∃ n, (historyCount w.hist).toNat = n+1 :=
    ⟨(historyCount w.hist).toNat-1,by have := mt count_eq_zero.mp hne; omega⟩
  have hs := slotOf_newest hne
  rw [hk,Nat.add_sub_cancel] at hs
  rw [hk] at hn
  rw [live,dropNewest_count hne,hk,live,hk,Nat.add_sub_cancel,← window_popBack zeroEntry hn,← hs]
  rfl

theorem dropNewest_windowTokens (h : live w.hist = l ++ [e]) :
    (dropNewest w).hist.windowTokens = w.hist.windowTokens-e.tokenCount := by
  have hlen : (historyCount w.hist).toNat = l.length+1 := by
    rw [← live_length,h]
    simp
  have he := live_getElem? w.hist (show l.length < (historyCount w.hist).toNat by omega)
  rw [h,List.getElem?_append_right (le_refl _),Nat.sub_self] at he
  simp only [List.getElem?_cons_zero,Option.some.injEq] at he
  have hs : w.hist.tail+ofNat l.length = w.hist.head-1 := by
    have h2 := w.hist.tail.toNat_lt
    apply toNat_inj.mp
    simp only [historyCount,toNat_sub] at hlen
    simp only [toNat_add,toNat_sub,toNat_ofNat',toNat_one]
    omega
  rw [dropNewest,← hs,he]

theorem evictFull_spec (w : World) (dirty : Bool) :
    ∃ k, evictFull w dirty = (evictOldest^[k] w,dirty || decide (0 < k)) ∧
      (∀ j, j < k → histRingSize ≤ (historyCount (evictOldest^[j] w).hist).toNat) ∧
      (historyCount (evictOldest^[k] w).hist).toNat < histRingSize := by
  fun_induction evictFull w dirty with
  | case1 w dirty hc ih =>
    obtain ⟨k,hk,hall,hend⟩ := ih
    refine ⟨k+1,?_,?_,hend⟩
    · rw [hk]
      simp
    intro j hj
    cases j with
    | zero => exact hc
    | succ j => exact hall j (by omega)
  | case2 w dirty hc => exact ⟨0,by simp,fun j hj => by omega,Nat.lt_of_not_le hc⟩

theorem evictTokens_spec (tok : UInt32) (w : World) (dirty : Bool) :
    ∃ k, evictTokens tok w dirty = (evictOldest^[k] w,dirty || decide (0 < k)) ∧ (∀ j, j < k →
        (evictOldest^[j] w).hist.maxTokens < (evictOldest^[j] w).hist.windowTokens+tok ∧
          (evictOldest^[j] w).hist.tail < (evictOldest^[j] w).hist.head) ∧
      ¬ ((evictOldest^[k] w).hist.maxTokens < (evictOldest^[k] w).hist.windowTokens+tok ∧
        (evictOldest^[k] w).hist.tail < (evictOldest^[k] w).hist.head) := by
  fun_induction evictTokens tok w dirty with
  | case1 w dirty hc ih =>
    obtain ⟨k,hk,hall,hend⟩ := ih
    refine ⟨k+1,?_,?_,hend⟩
    · rw [hk]
      simp
    intro j hj
    cases j with
    | zero => exact hc
    | succ j => exact hall j (by omega)
  | case2 w dirty hc => exact ⟨0,by simp,fun j hj => by omega,hc⟩

theorem evictAll_spec (w : World) : ∃ k, evictAll w = evictOldest^[k] w := by
  fun_induction evictAll w with
  | case1 w hc ih =>
    obtain ⟨k,hk⟩ := ih
    exact ⟨k+1,hk⟩
  | case2 w hc => exact ⟨0,rfl⟩

theorem evictIter_count (w : World) (k : Nat) :
    (historyCount (evictOldest^[k] w).hist).toNat = (historyCount w.hist).toNat-k := by
  induction k with
  | zero => rfl
  | succ k ih =>
    rw [Function.iterate_succ_apply',evictOldest_count,ih]
    omega

@[simp] theorem evictIter_nextSeq (w : World) (k : Nat) :
    (evictOldest^[k] w).hist.nextSeq = w.hist.nextSeq := by
  induction k with
  | zero => rfl
  | succ k ih => rw [Function.iterate_succ_apply',evictOldest_nextSeq,ih]

/-! What holds of a history after any run, also once the counters have wrapped. -/

open RingWindow List

theorem packText_cases (text : Bytes) (h : text.length ≤ lz4MaxInputSize) :
    (text = [] ∧ packText text = (0,[])) ∨ (text ≠ [] ∧ (packText text).1 = (packText text).2.length ∧
      0 < (packText text).2.length ∧ (packText text).2.length ≤ compMax text ∧
      Outcome text (packText text).2) := by
  by_cases hne : text = []
  · subst hne
    exact .inl ⟨rfl,rfl⟩
  obtain ⟨hpos,hlen⟩ := lz4Compress_room hne h
    (show text.length+text.length/255+1 ≤ compMax text by unfold compMax; omega)
  rcases lz4Compress_ends text (compMax text) with hf | ⟨heq,hout⟩
  · omega
  have hp : packText text =
      ((lz4Compress text (compMax text)).2.length,(lz4Compress text (compMax text)).2) := by
    rw [packText,if_neg (by omega),heq,Int.toNat_natCast]
  refine .inr ⟨hne,?_⟩
  rw [hp]
  refine ⟨rfl,?_,?_,hout⟩
  · rw [heq] at hpos
    exact Int.natCast_pos.mp hpos
  · simp only
    unfold compMax at hlen ⊢
    omega

variable {text : Bytes} {m : Heap} {h : History} {w : World}

theorem packText_le (h : compMax text ≤ 65536) : (packText text).1 ≤ 65536 := by
  have hmax : text.length ≤ lz4MaxInputSize := by
    unfold compMax at h
    unfold lz4MaxInputSize
    omega
  rcases packText_cases text hmax with ⟨-,hp⟩ | ⟨-,hlen,-,hle,-⟩
  · rw [hp]
    exact Nat.zero_le _
  · omega

theorem kmalloc_some {size : Nat} {pick : Addr} (h : (kmalloc m size pick).1 ≠ 0) : size ≤ 65536 := by
  rcases kmalloc_cases m size pick with hn | ⟨c,h1,h2,-⟩
  · rw [hn] at h
    exact absurd rfl h
  · omega

theorem allocText_some {env : PushEnv} (h : (allocText env text m).1 ≠ 0) : compMax text ≤ 65536 := by
  unfold allocText at h
  simp only at h
  split at h
  · exact absurd rfl h
  · rename_i ha
    exact kmalloc_some ha

def tokens (l : List HistEntry) : Nat := (l.map (fun e => e.tokenCount.toNat)).sum

@[simp] theorem tokens_nil : tokens [] = 0 := rfl

@[simp] theorem tokens_cons (e : HistEntry) (l : List HistEntry) :
    tokens (e :: l) = e.tokenCount.toNat+tokens l := by simp [tokens]

@[simp] theorem tokens_append (l l' : List HistEntry) :
    tokens (l ++ l') = tokens l+tokens l' := by simp [tokens]

structure EntryOk (e : HistEntry) : Prop where
  tokens : e.tokenCount.toNat ≤ 16384
  data : e.data ≠ 0
  dataLen : e.dataLen.toNat ≤ 65536

theorem tokens_le {l : List HistEntry} (h : ∀ e ∈ l, EntryOk e) : tokens l ≤ 16384*l.length := by
  induction l with
  | nil => exact le_refl _
  | cons e l ih =>
    have he := (h e mem_cons_self).tokens
    have hl := ih (fun f hf => h f (mem_cons_of_mem _ hf))
    rw [tokens_cons,length_cons]
    omega

structure Sound (h : History) : Prop where
  count : (historyCount h).toNat ≤ histRingSize
  entries : ∀ e ∈ live h, EntryOk e
  window : h.windowTokens.toNat = tokens (live h)

theorem Sound.tokens_lt (hs : Sound h) : tokens (live h) ≤ 2^26 := by
  have hle := tokens_le hs.entries
  have hc := hs.count
  rw [live_length] at hle
  unfold histRingSize at hc
  omega

theorem Sound.evictOldest (hs : Sound w.hist) : Sound (evictOldest w).hist := by
  have hlv := live_evictOldest hs.count
  have hcn := evictOldest_count w
  have hc := hs.count
  cases hl : live w.hist with
  | nil =>
    have hz : w.hist.head = w.hist.tail := by
      rw [← count_eq_zero,← live_length,hl]
      rfl
    rw [Hist.evictOldest,if_pos hz]
    exact hs
  | cons e l =>
    have hwin := evictOldest_windowTokens hl
    have htok := hs.window
    rw [hl] at hlv htok
    rw [tail_cons] at hlv
    rw [tokens_cons] at htok
    refine ⟨by omega,?_,?_⟩
    · intro f hf
      rw [hlv] at hf
      exact hs.entries f (by rw [hl]; exact mem_cons_of_mem _ hf)
    rw [hlv,hwin]
    have h1 := w.hist.windowTokens.toNat_lt
    simp only [toNat_sub]
    omega

theorem Sound.evictIter (hs : Sound w.hist) (k : Nat) : Sound (Hist.evictOldest^[k] w).hist := by
  induction k with
  | zero => exact hs
  | succ k ih =>
    rw [Function.iterate_succ_apply']
    exact ih.evictOldest

theorem Sound.placeEntry (hs : Sound h) (grant : Nat → Bool) {e : HistEntry} (he : EntryOk e)
    (hn : (historyCount h).toNat < histRingSize) : Sound (placeEntry grant h e) := by
  have hl := live_placeEntry grant e hn
  have hc := placeEntry_count grant e hn
  have hlt := hs.tokens_lt
  refine ⟨by omega,?_,?_⟩
  · intro f hf
    rw [hl] at hf
    rcases mem_append.mp hf with hf | hf
    · exact hs.entries f hf
    · rw [mem_singleton.mp hf]
      exact he
  have htok := he.tokens
  have hwin := hs.window
  rw [hl,tokens_append]
  simp only [Hist.placeEntry,toNat_add,tokens_cons,tokens_nil]
  omega

theorem Sound.dropNewest (hs : Sound w.hist) (hne : w.hist.head ≠ w.hist.tail) :
    Sound (dropNewest w).hist := by
  have hlv := live_dropNewest hne hs.count
  have hcn := dropNewest_count hne
  have hc := hs.count
  have hnil : live w.hist ≠ [] := by
    intro hl
    apply hne
    rw [← count_eq_zero,← live_length,hl]
    rfl
  obtain ⟨l,e,hl⟩ : ∃ l e, live w.hist = l ++ [e] :=
    ⟨_,_,(dropLast_append_getLast hnil).symm⟩
  have hwin := dropNewest_windowTokens hl
  have htok := hs.window
  rw [hl] at hlv htok
  rw [dropLast_concat] at hlv
  simp only [tokens_append,tokens_cons,tokens_nil] at htok
  refine ⟨by omega,?_,?_⟩
  · intro f hf
    rw [hlv] at hf
    exact hs.entries f (by rw [hl]; exact mem_append_left _ hf)
  rw [hlv,hwin]
  have h1 := w.hist.windowTokens.toNat_lt
  simp only [toNat_sub]
  omega

theorem Sound.setBpt (hs : Sound h) (t : HistBptree) :
    Sound { h with bpt := t } := ⟨hs.count,hs.entries,hs.window⟩

theorem sound_empty (hh : h.head = h.tail) (hw : h.windowTokens = 0) : Sound h := by
  have hz := count_eq_zero.mpr hh
  have hl := live_eq_nil hh
  refine ⟨by rw [hz]; exact Nat.zero_le _,?_,?_⟩
  · rw [hl]
    exact fun e he => absurd he not_mem_nil
  · rw [hl,hw]
    rfl

theorem Sound.truncateLoop (hs : Sound w.hist) (drop : Nat) : Sound (truncateLoop drop w).hist := by
  induction drop generalizing w with
  | zero => exact hs
  | succ drop ih =>
    unfold Hist.truncateLoop
    split
    · exact hs
    rename_i hlt
    apply ih
    apply hs.dropNewest
    intro he
    rw [he] at hlt
    exact hlt (UInt32.le_refl _)

def OverBudget (tok : UInt32) (h : History) : Prop :=
  h.maxTokens < h.windowTokens+tok ∧ h.tail < h.head

theorem makeRoom_spec (grant : Nat → Bool) (tok : UInt32) (w : World) :
    ∃ k, k ≤ (historyCount w.hist).toNat ∧
      (historyCount (evictOldest^[k] w).hist).toNat < histRingSize ∧
      ¬ OverBudget tok (evictOldest^[k] w).hist ∧
      (0 < k → histRingSize ≤ (historyCount w.hist).toNat ∨ OverBudget tok w.hist) ∧
      makeRoom grant tok w = if k = 0 then w
        else { evictOldest^[k] w with
          hist := { (evictOldest^[k] w).hist with
            bpt := histBptRebuild grant (evictOldest^[k] w).hist } } := by
  obtain ⟨k1,h1,hf,hr⟩ := evictFull_spec w false
  obtain ⟨k2,h2,ho,hend⟩ := evictTokens_spec tok (evictOldest^[k1] w) (decide (0 < k1))
  have hiter : evictOldest^[k2] (evictOldest^[k1] w) = evictOldest^[k2+k1] w :=
    (Function.iterate_add_apply evictOldest k2 k1 w).symm
  rw [hiter] at h2 hend
  refine ⟨k2+k1,?_,?_,hend,?_,?_⟩
  · have hk1 : k1 ≤ (historyCount w.hist).toNat := by
      rcases Nat.eq_zero_or_pos k1 with h0 | hpos
      · omega
      have hl := hf (k1-1) (by omega)
      rw [evictIter_count] at hl
      unfold histRingSize at hl
      omega
    rcases Nat.eq_zero_or_pos k2 with h0 | hpos
    · omega
    have hl := (ho (k2-1) (by omega)).2
    have hne : (historyCount (evictOldest^[k2-1] (evictOldest^[k1] w)).hist).toNat ≠ 0 := by
      intro hz
      rw [count_eq_zero.mp hz] at hl
      exact lt_irrefl _ hl
    rw [evictIter_count,evictIter_count] at hne
    omega
  · rw [evictIter_count] at hr ⊢
    omega
  · intro hpos
    rcases Nat.eq_zero_or_pos k1 with rfl | hk1
    · exact .inr (ho 0 (by omega))
    · exact .inl (hf 0 hk1)
  unfold makeRoom
  simp only [h1,Bool.false_or,h2]
  by_cases hz : k2+k1 = 0
  · obtain ⟨rfl,rfl⟩ : k2 = 0 ∧ k1 = 0 := by omega
    simp
  have hd : (decide (0 < k1) || decide (0 < k2)) = true := by
    simp only [Bool.or_eq_true,decide_eq_true_eq]
    omega
  rw [if_pos hd,if_neg hz]

theorem estimateTokens_le (h : compMax text ≤ 65536) : (estimateTokens text).toNat ≤ 16384 := by
  unfold compMax at h
  simp only [estimateTokens,UInt32.toNat_div,toNat_add,toNat_ofNat']
  have h3 : (3 : UInt32).toNat = 3 := rfl
  have h4 : (4 : UInt32).toNat = 4 := rfl
  rw [h3,h4]
  omega

section
variable (hs : Sound w.hist)
include hs

theorem Sound.makeRoom (grant : Nat → Bool) (tok : UInt32) :
    Sound (makeRoom grant tok w).hist ∧
      (historyCount (Hist.makeRoom grant tok w).hist).toNat < histRingSize := by
  obtain ⟨k,-,hr,-,-,hmk⟩ := makeRoom_spec grant tok w
  rw [hmk]
  split
  · rename_i hk
    subst hk
    exact ⟨hs,hr⟩
  · exact ⟨(hs.evictIter k).setBpt _,hr⟩

theorem Sound.push (grant : Nat → Bool) (env : PushEnv) (role : UInt8)
    (text : Bytes) : Sound (historyPush grant env role text w).2.hist := by
  unfold historyPush
  simp only
  split
  · exact hs
  rename_i ha
  have hmax := allocText_some ha
  obtain ⟨hr,hlt⟩ := Sound.makeRoom (w := { w with heap := (allocText env text w.heap).2 })
    hs grant (estimateTokens text)
  have hseq : Sound { (Hist.makeRoom grant (estimateTokens text)
      { w with heap := (allocText env text w.heap).2 }).hist with
      nextSeq := (Hist.makeRoom grant (estimateTokens text)
        { w with heap := (allocText env text w.heap).2 }).hist.nextSeq+1 } :=
    ⟨hr.count,hr.entries,hr.window⟩
  refine hseq.placeEntry grant ⟨estimateTokens_le hmax,ha,?_⟩ hlt
  have hle := packText_le hmax
  simp only [toNat_ofNat']
  omega

theorem Sound.step (grant : Nat → Bool) (o : Op) : Sound (step grant w o).hist := by
  cases o with
  | init maxTokens => exact sound_empty rfl rfl
  | push env role text => exact hs.push grant env role text
  | truncateKeep keepCount =>
    unfold Hist.step historyTruncateKeep
    simp only
    split
    · exact hs
    · exact (hs.truncateLoop _).setBpt _
  | clear => exact sound_empty rfl rfl

theorem Sound.run (grant : Nat → Bool) (ops : List Op) :
    Sound (run grant ops w).hist := by
  induction ops generalizing w with
  | nil => exact hs
  | cons o ops ih => exact ih (hs.step grant o)

end

end AevOS.Hist
