import AevOS.MemoryEngine

/-! `memory_serialize` of `agent/memory.c`, and that an image it writes gives the same entries back. -/

namespace AevOS.Memory
open ArrayPrefix Wire Slab Hnsw
open List hiding foldl_append
open Hist (fetch fetch_of_le foldl_append load_if_pos toNat_of_not_pos)

structure FloatBits {F : Type} (fl : Floats F) where
  toBits : F → Nat
  toBits_lt : ∀ x, toBits x < 256^4
  ofBits_toBits : ∀ x, fl.ofBits (toBits x) = x

variable {size i : Nat} {m : Heap} {p : Addr} {r : Record}

section
variable {F : Type} {fl : Floats F} (bits : FloatBits fl)

def contentBytes (m : Heap) (x : Entry F) : Bytes := load m x.content x.contentLen.toNat

def embeddingBytes (embedding : Embedding) : Bytes :=
  List.ofFn (fun k => (embedding k).toUInt8)

def serializeHeader (e : Engine F) : Bytes :=
  leBytes 4 memSerialMagic ++ leBytes 4 e.count ++ leBytes 8 e.nextId.toNat

def serializeEntry (m : Heap) (x : Entry F) : Bytes :=
  leBytes 8 x.id.toNat ++ embeddingBytes x.embedding ++ leBytes 4 (bits.toBits x.importance) ++
    leBytes 8 x.lastAccess.toNat ++ leBytes 4 x.accessCount.toNat ++ leBytes 4 x.contentLen.toNat ++
    if x.content ≠ 0 ∧ 0 < x.contentLen then contentBytes m x else []

def serializeNeeded (e : Engine F) : Nat :=
  (live e).foldl (fun needed x => needed+(8+embedDim+4+8+4+4+x.contentLen.toNat)) 16

def memorySerialize (w : World F) (buf : Addr) (size : Nat) : Int × Bytes :=
  if buf = 0 then (-einval,[])
  else if size < serializeNeeded w.engine then (serializeNeeded w.engine,[])
  else
    let out := (live w.engine).foldl (fun out x => out ++ serializeEntry bits w.heap x)
      (serializeHeader w.engine)
    (out.length,out)

def imageOf (w : World F) : Bytes :=
  serializeHeader w.engine ++ (live w.engine).flatMap (serializeEntry bits w.heap)

theorem memorySerialize_eq {w : World F} {buf : Addr} (hbuf : buf ≠ 0) (h : serializeNeeded w.engine ≤ size) :
    memorySerialize bits w buf size = (((imageOf bits w).length : Int),imageOf bits w) := by
  rw [memorySerialize,if_neg hbuf,if_neg (by omega)]
  simp only [foldl_append,imageOf]

theorem serializeNeeded_eq (e : Engine F) :
    serializeNeeded e = 16+((live e).map (fun x => 540+x.contentLen.toNat)).sum := by
  have hf : ∀ (l : List (Entry F)) (n : Nat),
      l.foldl (fun needed x => needed+(8+embedDim+4+8+4+4+x.contentLen.toNat)) n =
        n+(l.map (fun x => 540+x.contentLen.toNat)).sum := by
    intro l
    induction l with
    | nil => simp
    | cons x l ih =>
      intro n
      rw [foldl_cons,ih]
      simp [embedDim]
      omega
  exact hf _ 16

@[simp] theorem embeddingBytes_length (embedding : Embedding) :
    (embeddingBytes embedding).length = 512 := length_ofFn

theorem byteAt_embeddingBytes (embedding : Embedding) (k : Fin embedDim) :
    (byteAt (embeddingBytes embedding) k).toInt8 = embedding k := by
  have hk : (k : Nat) < (embeddingBytes embedding).length :=
    k.isLt.trans_eq (embeddingBytes_length embedding).symm
  rw [byteAt_of_lt hk]
  simp only [embeddingBytes,List.getElem_ofFn,Int8.toInt8_toUInt8]

def Stored (w : World F) : Prop := ∀ x ∈ live w.engine, 0 < x.contentLen → x.content ≠ 0

end

def recordLen (buf : Bytes) (p : Nat) : Nat := leValue (slice buf (p+536) 4)

def ContentFits (buf : Bytes) (p : Nat) : Prop :=
  0 < recordLen buf p ∧ p+540+recordLen buf p ≤ buf.length
  deriving Decidable

def recordAt (buf : Bytes) (p : Nat) : Record :=
  ⟨UInt64.ofNat (leValue (slice buf p 8)),fun k => (byteAt (slice buf (p+8) 512) k).toInt8,
    leValue (slice buf (p+520) 4),
    UInt64.ofNat (leValue (slice buf (p+524) 8)),
    UInt32.ofNat (leValue (slice buf (p+532) 4)),
    UInt32.ofNat (recordLen buf p),
    if ContentFits buf p then some (slice buf (p+540) (recordLen buf p)) else none⟩

def recordEnd (buf : Bytes) (p : Nat) : Nat :=
  p+540+if ContentFits buf p then recordLen buf p else 0

theorem readRecord_eq (buf : Bytes) (p : Nat) : readRecord buf p =
    some (if p+540 ≤ buf.length then some (recordAt buf p,recordEnd buf p) else none) := by
  have hdim : embedDim = 512 := rfl
  unfold readRecord
  by_cases hlen : p+540 ≤ buf.length
  · rw [if_neg (by omega),if_pos hlen,fetch_of_le (by omega),fetch_of_le (by omega)]
    simp only [Option.bind_eq_bind,Option.bind_some]
    rw [fetch_of_le (by omega),fetch_of_le (by omega),fetch_of_le (by omega),fetch_of_le (by omega)]
    simp only [Option.bind_some]
    have hc : (0 < leValue (slice buf (p+8+embedDim+16) 4) ∧
        p+8+embedDim+20+leValue (slice buf (p+8+embedDim+16) 4) ≤ buf.length) ↔
        ContentFits buf p := Iff.rfl
    by_cases hf : ContentFits buf p
    · rw [if_pos (hc.mpr hf),fetch_of_le (hc.mpr hf).2,recordAt,recordEnd,if_pos hf,if_pos hf]
      rfl
    · rw [if_neg (mt hc.mp hf),recordAt,recordEnd,if_neg hf,if_neg hf]
      rfl
  · rw [if_pos (by omega),if_neg hlen]

theorem recordAt_append (pre buf : Bytes) : recordAt (pre ++ buf) pre.length = recordAt buf 0 ∧
    recordEnd (pre ++ buf) pre.length = pre.length+recordEnd buf 0 := by
  have hs := slice_append_add pre buf
  have h0 := hs 0 8
  rw [add_zero] at h0
  have hlen : recordLen (pre ++ buf) pre.length = recordLen buf 0 := by
    simp only [recordLen,zero_add,hs]
  have hf : ContentFits (pre ++ buf) pre.length ↔ ContentFits buf 0 := by
    simp only [ContentFits,hlen,length_append]
    omega
  constructor
  · simp only [recordAt,zero_add,h0,hs,hlen,hf]
  · simp only [recordEnd,hlen,hf]
    omega

section
variable {F : Type} {fl : Floats F} (bits : FloatBits fl)

def toRecord (m : Heap) (x : Entry F) : Record :=
  ⟨x.id,x.embedding,bits.toBits x.importance,x.lastAccess,x.accessCount,x.contentLen,
    if 0 < x.contentLen then some (contentBytes m x) else none⟩

theorem serializeEntry_eq {x : Entry F} (h : 0 < x.contentLen → x.content ≠ 0) :
    serializeEntry bits m x = leBytes 8 x.id.toNat ++ (embeddingBytes x.embedding ++
      (leBytes 4 (bits.toBits x.importance) ++ (leBytes 8 x.lastAccess.toNat ++
        (leBytes 4 x.accessCount.toNat ++ (leBytes 4 x.contentLen.toNat ++ contentBytes m x))))) := by
  rw [serializeEntry,contentBytes,load_if_pos h]
  simp only [append_assoc]

theorem serializeEntry_length {x : Entry F} (h : 0 < x.contentLen → x.content ≠ 0) :
    (serializeEntry bits m x).length = 540+x.contentLen.toNat := by
  rw [serializeEntry_eq bits h]
  simp [contentBytes]
  omega

theorem recordAt_serializeEntry {x : Entry F} (h : 0 < x.contentLen → x.content ≠ 0) (rest : Bytes) :
    recordAt (serializeEntry bits m x ++ rest) 0 = toRecord bits m x ∧
      recordEnd (serializeEntry bits m x ++ rest) 0 = (serializeEntry bits m x).length := by
  have hb : (contentBytes m x).length = x.contentLen.toNat := load_length _ _ _
  have ht := serializeEntry_length bits (m := m) h
  have hlen : recordLen (serializeEntry bits m x ++ rest) 0 = x.contentLen.toNat := by
    rw [serializeEntry_eq bits h]
    simp (disch := simp) only [recordLen,zero_add,append_assoc,slice_append_right,
      slice_front,leBytes_length,embeddingBytes_length,Nat.reduceSub,leValue_word32]
  have hf : ContentFits (serializeEntry bits m x ++ rest) 0 ↔ 0 < x.contentLen := by
    rw [ContentFits,hlen,length_append,ht,UInt32.lt_iff_toNat_lt]
    simp only [UInt32.toNat_zero]
    omega
  constructor
  · -- every field is the front of what is left behind the fields before it
    simp only [recordAt,hlen,hf]
    rw [serializeEntry_eq bits h]
    simp (disch := simp) only [zero_add,append_assoc,slice_append_right,slice_front,
      leBytes_length,embeddingBytes_length,Nat.reduceSub,leValue_word32,leValue_word64,
      byteAt_embeddingBytes]
    simp only [slice_front rest hb,leValue_leBytes 4 _ (bits.toBits_lt _),UInt32.ofNat_toNat,
      UInt64.ofNat_toNat]
    rfl
  rw [recordEnd,hlen,ht]
  by_cases hpos : 0 < x.contentLen
  · rw [if_pos (hf.mpr hpos),zero_add]
  · rw [if_neg (fun hc => hpos (hf.mp hc)),toNat_of_not_pos hpos]

theorem records_serializeEntry (xs : List (Entry F)) (pre rest : Bytes)
    (h : ∀ x ∈ xs, 0 < x.contentLen → x.content ≠ 0) :
    records (pre ++ (xs.flatMap (serializeEntry bits m) ++ rest)) xs.length pre.length =
      xs.map (toRecord bits m) := by
  induction xs generalizing pre with
  | nil => rfl
  | cons x xs ih =>
    have hx := h x mem_cons_self
    obtain ⟨hat,hend⟩ := recordAt_append pre
      (serializeEntry bits m x ++ (xs.flatMap (serializeEntry bits m) ++ rest))
    obtain ⟨hrec,hlen⟩ := recordAt_serializeEntry bits (m := m) hx
      (xs.flatMap (serializeEntry bits m) ++ rest)
    rw [hrec] at hat
    rw [hlen] at hend
    have ht := serializeEntry_length bits (m := m) hx
    rw [flatMap_cons,append_assoc,length_cons,records,readRecord_eq,if_pos]
    · simp only [hat,hend,map_cons,cons.injEq,true_and]
      have hs := ih (pre ++ serializeEntry bits m x) (fun y hy => h y (mem_cons_of_mem _ hy))
      rw [append_assoc,length_append] at hs
      exact hs
    · simp only [length_append]
      omega

theorem serializeHeader_length (e : Engine F) : (serializeHeader e).length = 16 := by
  simp [serializeHeader]

theorem imageOf_read {w : World F} (hc : w.engine.count ≤ memMaxEntries) (h : Stored w) (rest : Bytes) :
    isImage (imageOf bits w ++ rest) ∧ imageCount (imageOf bits w ++ rest) = w.engine.count ∧
      UInt64.ofNat (leValue (slice (imageOf bits w ++ rest) 8 8)) = w.engine.nextId ∧
      imageRecords (imageOf bits w ++ rest) = (live w.engine).map (toRecord bits w.heap) := by
  have hm : slice (imageOf bits w ++ rest) 0 4 = leBytes 4 memSerialMagic := by
    simp (disch := simp) only [imageOf,serializeHeader,append_assoc,slice_front]
  have hnum : slice (imageOf bits w ++ rest) 4 4 = leBytes 4 w.engine.count := by
    simp (disch := simp) only [imageOf,serializeHeader,append_assoc,slice_append_right,
      slice_front,leBytes_length,Nat.reduceSub]
  have hn : slice (imageOf bits w ++ rest) 8 8 = leBytes 8 w.engine.nextId.toNat := by
    simp (disch := simp) only [imageOf,serializeHeader,append_assoc,slice_append_right,
      slice_front,leBytes_length,Nat.reduceSub]
  have hs : imageCount (imageOf bits w ++ rest) = w.engine.count := by
    rw [imageCount,hnum]
    exact leValue_leBytes 4 _ (hc.trans_lt (by decide))
  refine ⟨⟨?_,?_⟩,hs,?_,?_⟩
  · rw [imageOf,length_append,length_append,serializeHeader_length]
    omega
  · rw [hm]
    decide
  · rw [hn,leValue_word64,UInt64.ofNat_toNat]
  have hrec := records_serializeEntry bits (m := w.heap) (live w.engine)
    (serializeHeader w.engine) rest h
  rw [serializeHeader_length,live,firsts_length] at hrec
  rw [imageRecords,hs,imageOf,append_assoc]
  exact hrec

end

structure Copied (m m' : Heap) (p : Addr) (size : Nat) (content : Bytes) : Prop where
  nonnull : p ≠ 0
  free : m.allocated p = false
  held : m'.allocated p = true
  pos : 0 < size
  size_le : size ≤ m'.objSize p
  load_eq : load m' p content.length = content
  others : ∀ a, a ≠ p →
    m'.allocated a = m.allocated a ∧ m'.objSize a = m.objSize a ∧ m'.bytes a = m.bytes a

theorem load_store_append (m : Heap) (p : Addr) (bs cs : Bytes) :
    load (store m p (bs ++ cs)) p bs.length = bs := by
  have hall := congrArg (take bs.length) (load_store m p (bs ++ cs))
  rw [load,firsts_take _ (by simp),take_left] at hall
  exact hall

theorem copyContent_cases (m : Heap) (size : Nat) (content : Bytes) (p : Addr) :
    copyContent m size content p = (0,m) ∨
      ∃ m', copyContent m size content p = (p,m') ∧ Copied m m' p size content := by
  rcases kmalloc_cases m size p with hn | ⟨c,hc,-,hne,hf,hpos,hs⟩
  · left
    rw [copyContent,hn]
    rfl
  right
  rw [copyContent,hs]
  rw [if_neg hne]
  refine ⟨_,rfl,hne,hf,?_,hpos,?_,load_store_append _ _ _ _,?_⟩
  · simp [store]
  · simpa [store] using hc
  · intro a ha
    simp [store,setAt_ne _ _ ha]

theorem copyContent_granted (content : Bytes) (hpos : 0 < size) (hmax : size ≤ 65536) (hp : p ≠ 0)
    (hf : m.allocated p = false) :
    ∃ m', copyContent m size content p = (p,m') ∧ Copied m m' p size content := by
  have hgot : (copyContent m size content p).1 = p := kmalloc_granted hpos hmax hp hf
  rcases copyContent_cases m size content p with hn | hs
  · rw [hn] at hgot
    exact absurd hgot.symm hp
  · exact hs

section
variable {m m' : Heap} {p a : Addr} {size : Nat} {content : Bytes}

section
variable (h : Copied m m' p size content)
include h

theorem Copied.ne (ha : m.allocated a = true) : a ≠ p := by
  rintro rfl
  rw [h.free] at ha
  exact absurd ha (by decide)

theorem Copied.keeps (ha : m.allocated a = true) :
    m'.allocated a = true ∧ m'.objSize a = m.objSize a ∧ m'.bytes a = m.bytes a := by
  obtain ⟨h1,h2,h3⟩ := h.others a (h.ne ha)
  exact ⟨h1.trans ha,h2,h3⟩

theorem Copied.taken (ha : m'.allocated a = true) : m.allocated a = true ∨ a = p := by
  by_cases heq : a = p
  · exact .inr heq
  · exact .inl ((h.others a heq).1.symm.trans ha)

end

end

structure Content (F : Type) where
  id : UInt64
  embedding : Embedding
  importance : F
  lastAccess : UInt64
  accessCount : UInt32
  bytes : Bytes

section
variable {F D : Type} [LinearOrder D] (fl : Floats F) (dist : Embedding → Embedding → D)

def content (m : Heap) (x : Entry F) : Content F :=
  ⟨x.id,x.embedding,x.importance,x.lastAccess,x.accessCount,contentBytes m x⟩

def recordContent (r : Record) : Content F :=
  ⟨r.id,r.embedding,fl.ofBits r.importance,r.lastAccess,r.accessCount,r.content.getD []⟩

def Whole (r : Record) : Prop := (r.content.getD []).length = r.contentLen.toNat

structure Loading (m0 : Heap) (pick : Nat → Addr) (w : World F) (i : Nat) : Prop where
  count : w.engine.count = i
  held : ∀ x ∈ live w.engine, x.contentLen = 0 ∨ w.heap.allocated x.content = true
  taken : ∀ a, w.heap.allocated a = true → m0.allocated a = true ∨ ∃ j, j < i ∧ a = pick j

theorem content_of_bytes {m' : Heap} {x : Entry F}
    (h : x.contentLen = 0 ∨ m'.bytes x.content = m.bytes x.content) : content m' x = content m x := by
  have hb : contentBytes m' x = contentBytes m x := by
    rcases h with h | h
    · rw [contentBytes,contentBytes,h]
      rfl
    · rw [contentBytes,contentBytes,load,load,h]
  rw [content,content,hb]

def acceptedEntry (env : LoadEnv) (i : Nat) (w : World F) (r : Record) : Entry F :=
  ⟨r.embedding,fl.ofBits r.importance,r.lastAccess,r.accessCount,
    (loadContent w.heap r (w.engine.entries i).content (env.pick i)).1,r.contentLen,r.id⟩

theorem acceptRecord_heap (env : LoadEnv) (i : Nat) (w : World F) (r : Record) :
    (acceptRecord fl dist env i w r).heap =
      (loadContent w.heap r (w.engine.entries i).content (env.pick i)).2 := rfl

theorem acceptRecord_live (env : LoadEnv) {w : World F} (h : w.engine.count = i) (r : Record) :
    live (acceptRecord fl dist env i w r).engine = live w.engine ++ [acceptedEntry fl env i w r] := by
  have hb : firsts (setAt w.engine.entries i (acceptedEntry fl env i w r)) i =
      firsts w.engine.entries i := firsts_congr fun k hk => setAt_ne _ _ (ne_of_lt hk)
  have hnew : live (acceptRecord fl dist env i w r).engine =
      firsts (setAt w.engine.entries i (acceptedEntry fl env i w r)) (w.engine.count+1) := rfl
  rw [hnew,h,firsts_succ,hb,setAt_self,live,h]

theorem loadContent_granted (old : Addr) (hw : Whole r) (hlen : r.contentLen.toNat < 65536)
    (hp : p ≠ 0) (hf : m.allocated p = false) :
    (r.contentLen = 0 ∧ r.content.getD [] = [] ∧ loadContent m r old p = (old,m)) ∨
      ∃ m', loadContent m r old p = (p,m') ∧ Copied m m' p (r.contentLen+1).toNat (r.content.getD []) := by
  cases hc : r.content with
  | none =>
    left
    rw [Whole,hc] at hw
    refine ⟨UInt32.toNat_inj.mp hw.symm,rfl,?_⟩
    rw [loadContent,hc]
  | some bs =>
    right
    have hs : (r.contentLen+1).toNat = r.contentLen.toNat+1 := by
      rw [UInt32.toNat_add,UInt32.toNat_one]
      omega
    rw [loadContent,hc]
    exact copyContent_granted bs (by omega) (by omega) hp hf

section
variable {fl} {m0 : Heap} {w : World F} {i : Nat} {env : LoadEnv}

theorem Loading.free (h : Loading m0 env.pick w i) (hf : m0.allocated (env.pick i) = false)
    (hinj : ∀ j, j < i → env.pick j ≠ env.pick i) : w.heap.allocated (env.pick i) = false :=
  free_of_taken h.taken hf hinj

theorem Loading.accept (h : Loading m0 env.pick w i) (hp : env.pick i ≠ 0)
    (hf : m0.allocated (env.pick i) = false) (hinj : ∀ j, j < i → env.pick j ≠ env.pick i)
    (hw : Whole r) (hlen : r.contentLen.toNat < 65536) :
    Loading m0 env.pick (acceptRecord fl dist env i w r) (i+1) ∧
      (live (acceptRecord fl dist env i w r).engine).map (content (acceptRecord fl dist env i w r).heap) =
        (live w.engine).map (content w.heap) ++ [recordContent fl r] := by
  have hl := acceptRecord_live fl dist env h.count r
  have hcn : (acceptRecord fl dist env i w r).engine.count = i+1 := congrArg Nat.succ h.count
  have hh := acceptRecord_heap fl dist env i w r
  rcases loadContent_granted (w.engine.entries i).content hw hlen hp (h.free hf hinj) with
    ⟨hz,hnil,hld⟩ | ⟨m',hld,hc⟩
  · rw [hld] at hh
    refine ⟨⟨hcn,?_,?_⟩,?_⟩
    · intro x hx
      rw [hl] at hx
      rcases mem_append.mp hx with hx | hx
      · rw [hh]
        exact h.held x hx
      · rw [mem_singleton.mp hx]
        exact .inl hz
    · rw [hh]
      exact taken_succ h.taken (fun a ha => .inl ha)
    · rw [hl,map_append,hh,map_singleton,content,contentBytes,recordContent,hnil]
      simp only [acceptedEntry,hz]
      rfl
  rw [hld] at hh
  have hat : (acceptedEntry fl env i w r).content = env.pick i := congrArg Prod.fst hld
  refine ⟨⟨hcn,?_,?_⟩,?_⟩
  · intro x hx
    rw [hl] at hx
    rw [hh]
    rcases mem_append.mp hx with hx | hx
    · exact (h.held x hx).imp id (fun ha => (hc.keeps ha).1)
    · rw [mem_singleton.mp hx,hat]
      exact .inr hc.held
  · rw [hh]
    exact taken_succ h.taken (fun a ha => hc.taken ha)
  rw [hl,map_append,hh,map_singleton]
  congr 1
  · refine map_congr_left (fun x hx => content_of_bytes ?_)
    exact (h.held x hx).imp id (fun ha => (hc.keeps ha).2.2)
  have hb : load m' (env.pick i) r.contentLen.toNat = r.content.getD [] := by
    rw [← hw]
    exact hc.load_eq
  rw [content,contentBytes,hat,recordContent,← hb]
  rfl

end

theorem Loading.acceptAll {m0 : Heap} {w : World F} {env : LoadEnv} (h : Loading m0 env.pick w i)
    (rs : List Record) (hp : ∀ j, j < i+rs.length → env.pick j ≠ 0 ∧ m0.allocated (env.pick j) = false)
    (hinj : ∀ j k, j < k → k < i+rs.length → env.pick j ≠ env.pick k)
    (hrs : ∀ r ∈ rs, Whole r ∧ r.contentLen.toNat < 65536) :
    (live (acceptAll fl dist env i w rs).engine).map (content (acceptAll fl dist env i w rs).heap) =
      (live w.engine).map (content w.heap) ++ rs.map (recordContent fl) := by
  induction rs generalizing i w with
  | nil => simp [Memory.acceptAll]
  | cons r rs ih =>
    rw [length_cons] at hp hinj
    obtain ⟨hw,hlen⟩ := hrs r mem_cons_self
    obtain ⟨hn,hone⟩ := h.accept dist (r := r) (hp i (by omega)).1 (hp i (by omega)).2
      (fun j hj => hinj j i hj (by omega)) hw hlen
    rw [Memory.acceptAll,ih hn (fun j hj => hp j (by omega))
      (fun j k hjk hk => hinj j k hjk (by omega))
      (fun r hr => hrs r (mem_cons_of_mem _ hr)),hone,append_assoc]
    rfl

theorem acceptAll_nextId (env : LoadEnv) (i : Nat) (w : World F) (rs : List Record) :
    (acceptAll fl dist env i w rs).engine.nextId = w.engine.nextId := by
  induction rs generalizing i w with
  | nil => rfl
  | cons r rs ih => exact ih (i+1) (acceptRecord fl dist env i w r)

structure GrowGranted (env : GrowEnv) : Prop where
  entries : env.entries = true
  graph : env.graph = true
  nodes : env.nodes = true

theorem memoryGrow_granted {env : GrowEnv} (henv : GrowGranted env) {e : Engine F}
    (hpos : 0 < e.capacity) (hlt : e.capacity < memMaxEntries) : (memoryGrow fl dist env e).1 = 0 := by
  have hnew : ¬ min (e.capacity*2) memMaxEntries ≤ e.capacity := by omega
  unfold memoryGrow
  rw [if_neg hnew,if_neg (by simp [henv.entries]),if_neg (by simp [henv.graph,henv.nodes])]

theorem growTo_granted {env : Nat → GrowEnv} (henv : ∀ k, GrowGranted (env k)) {count : Nat}
    (hc : count ≤ memMaxEntries) (k : Nat) {e : Engine F} (hpos : 0 < e.capacity) :
    (growTo fl dist env count k e).1 = 0 := by
  induction k, e using growTo.induct fl dist env count with
  | case1 k e hlt hneg =>
    have hg := memoryGrow_granted fl dist (henv k) hpos (hlt.trans_le hc)
    omega
  | case2 k e hlt hneg ih =>
    rw [growTo,if_pos hlt,dif_neg hneg]
    exact ih (hpos.trans (memoryGrow_capacity fl dist hneg))
  | case3 k e hlt => rw [growTo,if_neg hlt]

variable {fl} (bits : FloatBits fl)

theorem recordContent_toRecord (x : Entry F) :
    recordContent fl (toRecord bits m x) = content m x ∧ Whole (toRecord bits m x) := by
  have hb : (toRecord bits m x).content.getD [] = contentBytes m x := by
    by_cases hpos : 0 < x.contentLen
    · simp [toRecord,hpos]
    · rw [contentBytes,toNat_of_not_pos hpos]
      simp [toRecord,hpos]
      rfl
  constructor
  · rw [recordContent,hb]
    simp only [toRecord,bits.ofBits_toBits]
    rfl
  · rw [Whole,hb]
    exact load_length _ _ _

theorem memoryDeserialize_memorySerialize (w : World F) (hcount : w.engine.count ≤ memMaxEntries)
    (hstored : ∀ x ∈ live w.engine, 0 < x.contentLen → x.content ≠ 0 ∧ x.contentLen.toNat+1 ≤ 65536)
    (buf : Addr) (hbuf : buf ≠ 0) (size : Nat)
    (hsize : (memorySerialize bits w buf 0).1 ≤ size) (n : Int) (out : Bytes)
    (hout : memorySerialize bits w buf size = (n,out)) (rest : Bytes) (heap : Heap) (env : LoadEnv)
    (hgrow : ∀ k, GrowGranted (env.grow k))
    (hpick : ∀ i, i < w.engine.count → env.pick i ≠ 0 ∧ heap.allocated (env.pick i) = false)
    (hinj : ∀ i j, i < j → j < w.engine.count → env.pick i ≠ env.pick j) :
    (out.length : Int) = n ∧
      ∃ w', memoryDeserialize fl dist env (out ++ rest) ⟨memoryInit fl,heap⟩ = some (0,w') ∧
        (live w'.engine).map (content w'.heap) = (live w.engine).map (content w.heap) ∧
        w'.engine.nextId = w.engine.nextId := by
  have hneeded : serializeNeeded w.engine ≤ size := by
    rw [memorySerialize,if_neg hbuf,if_pos (by rw [serializeNeeded_eq]; omega)] at hsize
    simpa using hsize
  rw [memorySerialize_eq bits hbuf hneeded] at hout
  obtain ⟨rfl,rfl⟩ := Prod.mk.inj hout
  obtain ⟨himage,hnum,hnext,hrecords⟩ := imageOf_read bits hcount
    (fun x hx hpos => (hstored x hx hpos).1) rest
  have hgrown := growTo_granted fl dist hgrow hcount 0 (e := memoryInit fl)
    (show 0 < memInitialCap by decide)
  refine ⟨rfl,?_⟩
  rcases memoryDeserialize_cases fl dist env (imageOf bits w ++ rest) ⟨memoryInit fl,heap⟩ with
    ⟨hno,-⟩ | ⟨-,⟨hneg,-⟩ | ⟨-,heq⟩⟩
  · exact absurd himage hno
  · rw [hnum,hgrown] at hneg
    exact absurd hneg (lt_irrefl 0)
  refine ⟨_,heq,?_,?_⟩
  · rw [hrecords]
    generalize (growTo fl dist env.grow _ 0 (memoryInit fl)).2 = e
    have hstart : Loading heap env.pick ⟨openImage (imageOf bits w ++ rest) e,heap⟩ 0 :=
      ⟨rfl,fun x hx => absurd hx not_mem_nil,fun a ha => .inl ha⟩
    have hlen : 0+((live w.engine).map (toRecord bits w.heap)).length = w.engine.count := by
      simp [live]
    have hall := hstart.acceptAll fl dist ((live w.engine).map (toRecord bits w.heap))
      (fun j hj => hpick j (by omega)) (fun j k hjk hk => hinj j k hjk (by omega)) ?_
    · rw [hall,map_map]
      refine map_congr_left (fun x _ => ?_)
      exact (recordContent_toRecord bits x).1
    intro r hr
    obtain ⟨x,hx,rfl⟩ := mem_map.mp hr
    refine ⟨(recordContent_toRecord bits x).2,?_⟩
    show x.contentLen.toNat < 65536
    by_cases hpos : 0 < x.contentLen
    · exact (hstored x hx hpos).2
    · rw [toNat_of_not_pos hpos]
      decide
  · rw [acceptAll_nextId]
    exact hnext

end

def wordFloats : Floats UInt32 :=
  ⟨0,1,1,0,UInt32.ofNat,UInt32.ofNat,fun x => x,fun x _ => x,fun x _ => x,
    fun x y => decide (x < y),fun x => x⟩

theorem wordFloats_ofBits (x : UInt32) : wordFloats.ofBits x.toNat = x := UInt32.ofNat_toNat

def wordBits : FloatBits wordFloats := ⟨UInt32.toNat,UInt32.toNat_lt,wordFloats_ofBits⟩

def twoStored : World UInt32 :=
  run wordFloats firstDistance (fun d => d) ⟨memoryInit wordFloats,emptyHeap⟩
    [.store ⟨growGranted,5,1,allGranted,growGranted.level 0⟩ [104,105] (fun _ => 3) 7,
      .store ⟨growGranted,6,2,allGranted,growGranted.level 1⟩ [] (fun _ => -4) 9]

def loadGranted : LoadEnv :=
  ⟨fun _ => growGranted,fun i => i+10,fun _ => allGranted,growGranted.level⟩

theorem memoryDeserialize_memorySerialize_two :
    ∃ w', memoryDeserialize wordFloats firstDistance loadGranted
        ((memorySerialize wordBits twoStored 1 2000).2 ++ [255]) ⟨memoryInit wordFloats,emptyHeap⟩ =
          some (0,w') ∧
      (live w'.engine).map (content w'.heap) = (live twoStored.engine).map (content twoStored.heap) ∧
      (live twoStored.engine).map (fun x => (x.id,contentBytes twoStored.heap x)) =
        [(1,[104,105]),(2,[])] := by
  have hcount : twoStored.engine.count = 2 := by decide +kernel
  obtain ⟨-,w',hload,hsame,-⟩ := memoryDeserialize_memorySerialize firstDistance wordBits twoStored
    (by rw [hcount]; decide) (by decide +kernel) 1 (by decide) 2000 (by decide +kernel) _ _ rfl
    [255] emptyHeap loadGranted (fun _ => ⟨rfl,rfl,rfl⟩)
    (fun i _ => ⟨Nat.succ_ne_zero (i+9),rfl⟩)
    (fun i j hij _ => ne_of_lt (Nat.add_lt_add_right hij 10))
  exact ⟨w',hload,hsame,by decide +kernel⟩

end AevOS.Memory
