import AevOS.Gguf

/-! `gguf_load_into_ctx` of `llm/gguf_loader.c`: which configurations it accepts, and which of them
`llm_decode` can run with. -/

namespace AevOS.Llm
open Wire Gguf List
open UInt32 (ofNat toNat_mul toNat_div toNat_inj)

def valueU32 : Value → UInt32
  | .bits n => ofNat n
  | _ => 0

def kvU32 (kvs : List Kv) (key : Bytes) (default : UInt32) : UInt32 :=
  match ggufGetKv kvs key with
  | none => default
  | some kv =>
    if kv.type = KvType.uint32.code then valueU32 kv.value
    else if kv.type = KvType.int32.code then valueU32 kv.value
    else default

def llmDefaultCtx : UInt32 := 32768

def loadConfig (kvs : List Kv) : Config :=
  let nHead := kvU32 kvs (ascii "llama.attention.head_count") 32
  { nVocab := kvU32 kvs (ascii "llama.vocab_size") 32000
    nCtx := kvU32 kvs (ascii "llama.context_length") llmDefaultCtx
    nEmbd := kvU32 kvs (ascii "llama.embedding_length") 4096
    nLayer := kvU32 kvs (ascii "llama.block_count") 32
    nHead := nHead
    nHeadKv := kvU32 kvs (ascii "llama.attention.head_count_kv") nHead
    nFf := kvU32 kvs (ascii "llama.feed_forward_length") 11008 }

structure Loaded where
  config : Config
  cacheBytes : Nat
  workBytes : Nat
  logitsBytes : Nat
  embdBytes : Nat

inductive LoadOutcome
  | divisionByZero
  | failed (rc : Int)
  | loaded (ctx : Loaded)

def ggufLoadIntoCtx (kvs : List Kv) : LoadOutcome :=
  let c := loadConfig kvs
  let ctx : Loaded := ⟨c,c.cacheSize,c.workBufSize,c.nVocab.toNat*4,c.nEmbd.toNat*4⟩
  if c.nHead = 0 then .divisionByZero
  else if ctx.cacheBytes = 0 then .failed (-enomem)
  else if ctx.workBytes = 0 ∨ ctx.logitsBytes = 0 ∨ ctx.embdBytes = 0 then .failed (-enomem)
  else .loaded ctx

/-- No division by zero and no access outside of a buffer in `llm_decode`. -/
structure Loaded.Runnable (ctx : Loaded) : Prop where
  divisors : ∀ n ∈ ctx.config.divisors, n ≠ 0
  work : ∀ r ∈ ctx.config.workRegions, r.Inside ctx.workBytes
  caches : ∀ pos, pos < ctx.config.nCtx.toNat → ∀ r ∈ ctx.config.cacheRanges pos, r.Inside ctx.cacheBytes

variable {head : Nat}

namespace Config

def workFloats (c : Config) : Nat :=
  2*c.nEmbd.toNat+2*c.kvDim.toNat+c.nHead.toNat*c.nCtx.toNat%2^32+2*c.nFf.toNat

structure Sized (c : Config) : Prop where
  heads : c.nHeadKv.toNat ∣ c.nHead.toNat
  cache : c.cacheNeed < 2^64
  work : c.workFloats ≤
    (c.nEmbd.toNat*5+c.nHead.toNat*c.nCtx.toNat+c.nFf.toNat*2+c.nVocab.toNat)%2^62

section
variable (c : Config)

theorem carve_inside {size : Nat} (cur : Nat) (ns : List UInt32) (hne : ns ≠ [])
    (h : 4*(cur+(ns.map UInt32.toNat).sum) < 2^64) :
    (∀ r ∈ carve cur ns, r.Inside size) ↔ 4*(cur+(ns.map UInt32.toNat).sum) ≤ size := by
  induction ns generalizing cur with
  | nil => exact absurd rfl hne
  | cons n ns ih =>
    have hf : (floats cur n.toNat).Inside size ↔ 4*(cur+n.toNat) ≤ size := by
      show 4*cur%2^64+4*n.toNat ≤ size ↔ _
      omega
    rw [carve,forall_mem_cons,hf]
    cases ns with
    | nil => simp [carve]
    | cons m ns =>
      rw [ih (cur+n.toNat) (cons_ne_nil _ _) (by rwa [add_assoc]),add_assoc]
      exact and_iff_right_of_imp fun hall => by omega

theorem workRegions_inside (size : Nat) : (∀ r ∈ c.workRegions, r.Inside size) ↔ 4*c.workFloats ≤ size := by
  have hsum : (c.carved.map UInt32.toNat).sum = c.workFloats := by
    simp only [carved,map_cons,map_nil,sum_cons,sum_nil,toNat_mul,workFloats]
    omega
  have he := c.nEmbd.toNat_lt
  have hkv := c.kvDim.toNat_lt
  have hff := c.nFf.toNat_lt
  have hb : 4*(0+(c.carved.map UInt32.toNat).sum) < 2^64 := by
    rw [hsum]
    unfold workFloats
    omega
  rw [workRegions,carve_inside 0 c.carved (cons_ne_nil _ _) hb,hsum,zero_add]

theorem workBufSize_eq : c.workBufSize =
    4*((c.nEmbd.toNat*5+c.nHead.toNat*c.nCtx.toNat+c.nFf.toNat*2+c.nVocab.toNat)%2^62) := by
  unfold workBufSize
  omega

theorem kvRow_start (layer pos : Nat) :
    (c.kvRow layer pos).start = (layer*c.nCtx.toNat+pos)*(4*c.kvDim.toNat)%2^64 := by
  show 4*(layer*c.nCtx.toNat*c.kvDim.toNat%2^64+pos*c.kvDim.toNat)%2^64 = _
  have hmul : (layer*c.nCtx.toNat+pos)*(4*c.kvDim.toNat) =
      4*(layer*c.nCtx.toNat*c.kvDim.toNat+pos*c.kvDim.toNat) := by ring
  omega

theorem cacheNeed_lt_of_rows (hkv : 0 < c.kvDim.toNat) (hctx : 0 < c.nCtx.toNat)
    (h : ∀ layer pos, layer < c.nLayer.toNat → pos < c.nCtx.toNat → (c.kvRow layer pos).Inside c.cacheSize) :
    c.cacheNeed < 2^64 := by
  by_contra hw
  have hsz : c.cacheSize < 2^64 := Nat.mod_lt _ (by decide)
  obtain ⟨k,hk⟩ : ∃ k, k = (2^64-1)/(4*c.kvDim.toNat) := ⟨_,rfl⟩
  have hlow : k*(4*c.kvDim.toNat) ≤ 2^64-1 := hk ▸ Nat.div_mul_le_self _ _
  have hh : 2^64-1 < 4*c.kvDim.toNat*(k+1) := hk ▸ Nat.lt_mul_div_succ _ (by omega)
  have hn : c.nLayer.toNat*c.nCtx.toNat*(4*c.kvDim.toNat) = c.cacheNeed := by
    rw [cacheNeed]
    ring
  have hr : k < c.nLayer.toNat*c.nCtx.toNat :=
    Nat.lt_of_mul_lt_mul_right (a := 4*c.kvDim.toNat) (by omega)
  have hl : k/c.nCtx.toNat < c.nLayer.toNat := Nat.div_lt_of_lt_mul (by rwa [mul_comm])
  have hpos : k%c.nCtx.toNat < c.nCtx.toNat := Nat.mod_lt _ hctx
  have hs := c.kvRow_start (k/c.nCtx.toNat) (k%c.nCtx.toNat)
  have hi : (k/c.nCtx.toNat*c.nCtx.toNat+k%c.nCtx.toNat) = k := Nat.div_add_mod' _ _
  have hmod : k*(4*c.kvDim.toNat)%2^64 = k*(4*c.kvDim.toNat) := Nat.mod_eq_of_lt (by omega)
  rw [hi,hmod] at hs
  have hin : (c.kvRow (k/c.nCtx.toNat) (k%c.nCtx.toNat)).start+4*c.kvDim.toNat ≤ c.cacheSize :=
    h _ _ hl hpos
  have hnx : k*(4*c.kvDim.toNat)+4*c.kvDim.toNat = 4*c.kvDim.toNat*(k+1) := by ring
  omega

theorem kvPart_start (layer head t : Nat) : (c.kvPart layer head t).start =
    4*((layer*c.nCtx.toNat+t)*c.kvDim.toNat+(c.kvHead head*c.headDim).toNat)%2^64 := by
  show 4*(layer*c.nCtx.toNat*c.kvDim.toNat%2^64+t*c.kvDim.toNat+_)%2^64 = _
  rw [add_mul]
  omega

theorem kvPart_inside {layer t : Nat} (hl : layer < c.nLayer.toNat) (ht : t < c.nCtx.toNat)
    (hh : (c.kvHead head*c.headDim).toNat+c.headDim.toNat ≤ c.kvDim.toNat) :
    (c.kvPart layer head t).Inside c.cacheNeed := by
  have hr : layer*c.nCtx.toNat+t+1 ≤ c.nLayer.toNat*c.nCtx.toNat := by
    have hmul := Nat.mul_le_mul_right c.nCtx.toNat (Nat.succ_le_of_lt hl)
    rw [Nat.succ_mul] at hmul
    omega
  have hs : (c.kvPart layer head t).start ≤
      4*((layer*c.nCtx.toNat+t)*c.kvDim.toNat+(c.kvHead head*c.headDim).toNat) := by
    rw [kvPart_start]
    exact Nat.mod_le _ _
  calc (c.kvPart layer head t).start+4*c.headDim.toNat
      ≤ 4*((layer*c.nCtx.toNat+t)*c.kvDim.toNat+c.kvDim.toNat) := by omega
    _ = (layer*c.nCtx.toNat+t+1)*c.kvDim.toNat*4 := by ring
    _ ≤ c.nLayer.toNat*c.nCtx.toNat*c.kvDim.toNat*4 :=
      Nat.mul_le_mul_right 4 (Nat.mul_le_mul_right _ hr)

theorem kvGroups_toNat : c.kvGroups.toNat = c.nHead.toNat/c.nHeadKv.toNat := toNat_div _ _

theorem kvDim_toNat (h : c.nHeadKv.toNat ≤ c.nHead.toNat) :
    c.kvDim.toNat = c.headDim.toNat*c.nHeadKv.toNat := by
  have hle : c.headDim.toNat*c.nHeadKv.toNat ≤ c.nEmbd.toNat := by
    exact le_trans (Nat.mul_le_mul_left _ h) (Nat.div_mul_le_self _ _)
  have hlt := c.nEmbd.toNat_lt
  rw [kvDim,toNat_mul,Nat.mod_eq_of_lt (by omega)]

theorem kvHead_toNat (h : head < c.nHead.toNat) :
    (c.kvHead head).toNat = head/(c.nHead.toNat/c.nHeadKv.toNat) := by
  have hlt := c.nHead.toNat_lt
  rw [kvHead,toNat_div,kvGroups_toNat,UInt32.toNat_ofNat',Nat.mod_eq_of_lt (by omega)]

theorem kvHead_offset (h : head < c.nHead.toNat) :
    (c.kvHead head*c.headDim).toNat = head/(c.nHead.toNat/c.nHeadKv.toNat)*c.headDim.toNat := by
  have hle : head/(c.nHead.toNat/c.nHeadKv.toNat)*c.headDim.toNat ≤ c.nEmbd.toNat := by
    have hh : head/(c.nHead.toNat/c.nHeadKv.toNat) ≤ c.nHead.toNat :=
      le_trans (Nat.div_le_self _ _) (le_of_lt h)
    exact le_trans (Nat.mul_le_mul_right _ hh) (Nat.mul_div_le _ _)
  have hlt := c.nEmbd.toNat_lt
  rw [toNat_mul,kvHead_toNat c h,Nat.mod_eq_of_lt (by omega)]

theorem head_inside (hdvd : c.nHeadKv.toNat ∣ c.nHead.toNat) (h : head < c.nHead.toNat) :
    (c.kvHead head*c.headDim).toNat+c.headDim.toNat ≤ c.kvDim.toNat := by
  obtain ⟨g,hg⟩ := hdvd
  have hkv : 0 < c.nHeadKv.toNat := by
    rcases Nat.eq_zero_or_pos c.nHeadKv.toNat with hz | hpos
    · rw [hz,zero_mul] at hg
      omega
    · exact hpos
  have hle : c.nHeadKv.toNat ≤ c.nHead.toNat := Nat.le_of_dvd (by omega) ⟨g,hg⟩
  have hgr : c.nHead.toNat/c.nHeadKv.toNat = g := by rw [hg,Nat.mul_div_cancel_left _ hkv]
  have hh : head/g+1 ≤ c.nHeadKv.toNat := Nat.div_lt_of_lt_mul (by rwa [mul_comm,← hg])
  rw [kvHead_offset c h,hgr,kvDim_toNat c hle]
  calc head/g*c.headDim.toNat+c.headDim.toNat
      = (head/g+1)*c.headDim.toNat := by ring
    _ ≤ c.nHeadKv.toNat*c.headDim.toNat := Nat.mul_le_mul_right _ hh
    _ = c.headDim.toNat*c.nHeadKv.toNat := mul_comm _ _

theorem extra_head (hkv : 0 < c.nHeadKv.toNat) (hle : c.nHeadKv.toNat ≤ c.nHead.toNat)
    (hdvd : ¬ c.nHeadKv.toNat ∣ c.nHead.toNat) :
    ∃ head, head < c.nHead.toNat ∧ (c.kvHead head*c.headDim).toNat = c.kvDim.toNat := by
  have hg : 0 < c.nHead.toNat/c.nHeadKv.toNat := Nat.div_pos hle hkv
  have hm : c.nHeadKv.toNat*(c.nHead.toNat/c.nHeadKv.toNat) < c.nHead.toNat :=
    lt_of_le_of_ne (Nat.mul_div_le _ _) fun heq => hdvd ⟨_,heq.symm⟩
  refine ⟨_,hm,?_⟩
  rw [kvHead_offset c hm,kvDim_toNat c hle,Nat.mul_div_cancel _ hg,mul_comm]

theorem mem_cacheRanges (pos : Nat) (w : Range) :
    w ∈ c.cacheRanges pos ↔ ∃ layer, layer < c.nLayer.toNat ∧ (w = c.kvRow layer pos ∨
      ∃ head, head < c.nHead.toNat ∧ ∃ t, t ≤ pos ∧ w = c.kvPart layer head t) := by
  simp only [cacheRanges,mem_flatMap,mem_range,mem_cons,mem_map,Nat.lt_succ_iff,eq_comm]

theorem mem_divisors (n : UInt32) :
    n ∈ c.divisors ↔ n = c.nHead ∨ c.nLayer.toNat ≠ 0 ∧ (n = c.nHeadKv ∨ c.nHead.toNat ≠ 0 ∧ n = c.kvGroups) := by
  simp only [divisors,mem_cons,mem_flatten,mem_replicate]
  constructor
  · rintro (h | ⟨l,⟨hl,rfl⟩,h⟩)
    · exact .inl h
    · exact .inr ⟨hl,by simpa using h⟩
  · rintro (h | ⟨hl,h⟩)
    · exact .inl h
    · exact .inr ⟨_,⟨hl,rfl⟩,by simpa using h⟩

theorem cacheSize_pos (h : c.cacheSize ≠ 0) :
    0 < c.nLayer.toNat ∧ 0 < c.nCtx.toNat ∧ 0 < c.kvDim.toNat ∧ 0 < c.nHeadKv.toNat ∧ 0 < c.headDim.toNat := by
  have hn : c.cacheNeed ≠ 0 := by
    intro hz
    exact h (by rw [cacheSize,hz,Nat.zero_mod])
  have hkv : c.kvDim.toNat ≠ 0 := by
    intro hz
    exact hn (by rw [cacheNeed,hz,Nat.mul_zero,Nat.zero_mul])
  have hf : c.headDim.toNat*c.nHeadKv.toNat ≠ 0 := by
    intro hz
    exact hkv (by rw [kvDim,toNat_mul,hz])
  have hl : c.nLayer.toNat*c.nCtx.toNat ≠ 0 := by
    intro hz
    exact hn (by rw [cacheNeed,hz,Nat.zero_mul])
  rw [Nat.mul_ne_zero_iff] at hf hl
  omega

theorem sized_of_runnable (hs : c.cacheSize ≠ 0) (hd : ∀ n ∈ c.divisors, n ≠ 0)
    (hw : ∀ r ∈ c.workRegions, r.Inside c.workBufSize)
    (hc : ∀ pos, pos < c.nCtx.toNat → ∀ r ∈ c.cacheRanges pos, r.Inside c.cacheSize) : c.Sized := by
  obtain ⟨hly,hctx,hk,hkv,hdim⟩ := c.cacheSize_pos hs
  have hh : 0 < c.nHead.toNat := by
    have hne := hd c.nHead ((c.mem_divisors _).mpr (.inl rfl))
    rw [pos_iff_ne_zero]
    exact fun hz => hne (toNat_inj.mp hz)
  have hn : c.cacheNeed < 2^64 := by
    apply c.cacheNeed_lt_of_rows hk hctx
    intro layer pos hl hp
    exact hc pos hp _ ((c.mem_cacheRanges _ _).mpr ⟨layer,hl,.inl rfl⟩)
  have hle : c.nHeadKv.toNat ≤ c.nHead.toNat := by
    by_contra hlt
    have hne := hd c.kvGroups ((c.mem_divisors _).mpr (.inr ⟨by omega,.inr ⟨by omega,rfl⟩⟩))
    apply hne
    rw [← toNat_inj,kvGroups_toNat]
    exact Nat.div_eq_of_lt (Nat.lt_of_not_le hlt)
  refine ⟨?_,hn,?_⟩
  · -- the extra head at the last position of the last layer
    by_contra hdvd
    obtain ⟨head,hlt,hoff⟩ := c.extra_head hkv hle hdvd
    have hi : (c.kvPart (c.nLayer.toNat-1) head (c.nCtx.toNat-1)).start+4*c.headDim.toNat ≤ c.cacheSize :=
      hc (c.nCtx.toNat-1) (by omega) _ ((c.mem_cacheRanges _ _).mpr
        ⟨c.nLayer.toNat-1,by omega,.inr ⟨head,hlt,c.nCtx.toNat-1,le_refl _,rfl⟩⟩)
    have hrow : (c.nLayer.toNat-1)*c.nCtx.toNat+(c.nCtx.toNat-1)+1 = c.nLayer.toNat*c.nCtx.toNat := by
      obtain ⟨l,hl⟩ : ∃ l, c.nLayer.toNat = l+1 := ⟨c.nLayer.toNat-1,by omega⟩
      rw [hl,Nat.add_sub_cancel,Nat.succ_mul]
      omega
    have hend : 4*(((c.nLayer.toNat-1)*c.nCtx.toNat+(c.nCtx.toNat-1))*c.kvDim.toNat+c.kvDim.toNat) =
        c.cacheNeed := by
      rw [← Nat.succ_mul,Nat.succ_eq_add_one,hrow,cacheNeed]
      ring
    have hall : c.cacheSize = c.cacheNeed := Nat.mod_eq_of_lt hn
    rw [kvPart_start,hoff,hend,Nat.mod_eq_of_lt hn,hall] at hi
    omega
  · rw [workRegions_inside,workBufSize_eq] at hw
    omega

theorem runnable_of_sized (hs : c.cacheSize ≠ 0) (hhd : c.nHead ≠ 0) (h : c.Sized) :
    (∀ n ∈ c.divisors, n ≠ 0) ∧ (∀ r ∈ c.workRegions, r.Inside c.workBufSize) ∧
      ∀ pos, pos < c.nCtx.toNat → ∀ r ∈ c.cacheRanges pos, r.Inside c.cacheSize := by
  obtain ⟨hly,hctx,hk,hkv,hdim⟩ := c.cacheSize_pos hs
  have hhp : 0 < c.nHead.toNat := by
    rw [pos_iff_ne_zero]
    exact fun hz => hhd (toNat_inj.mp hz)
  have hle : c.nHeadKv.toNat ≤ c.nHead.toNat := Nat.le_of_dvd hhp h.heads
  refine ⟨?_,?_,?_⟩
  · intro n hn
    rcases (c.mem_divisors n).mp hn with rfl | ⟨_,rfl | ⟨_,rfl⟩⟩
    · exact hhd
    · intro hz
      rw [hz] at hkv
      exact absurd hkv (by decide)
    intro hz
    have hpos := Nat.div_pos hle hkv
    rw [← kvGroups_toNat,hz] at hpos
    exact absurd hpos (by decide)
  · rw [workRegions_inside,workBufSize_eq]
    exact Nat.mul_le_mul_left 4 h.work
  intro pos hpos w hw
  have hnd : c.cacheSize = c.cacheNeed := Nat.mod_eq_of_lt h.cache
  rw [hnd]
  obtain ⟨layer,hl,rfl | ⟨head,hh,t,ht,rfl⟩⟩ := (c.mem_cacheRanges pos w).mp hw
  · exact c.kvRow_inside hl hpos
  · exact c.kvPart_inside hl (by omega) (c.head_inside h.heads hh)

end

end Config

theorem loaded_runnable_iff {kvs : List Kv} {ctx : Loaded} (h : ggufLoadIntoCtx kvs = .loaded ctx) :
    ctx.Runnable ↔ ctx.config.Sized := by
  unfold ggufLoadIntoCtx at h
  dsimp only at h
  split at h
  · cases h
  rename_i hhead
  split at h
  · cases h
  rename_i hcache
  split at h
  · cases h
  cases h
  constructor
  · intro hrun
    exact (loadConfig kvs).sized_of_runnable hcache hrun.divisors hrun.work hrun.caches
  · intro hsized
    obtain ⟨hdivisors,hwork,hcaches⟩ := (loadConfig kvs).runnable_of_sized hcache hhead hsized
    exact ⟨hdivisors,hwork,hcaches⟩

/-- Metadata with the numbers of heads and of heads of the caches. -/
def headCounts (heads kvHeads : Nat) : List Kv :=
  [⟨ascii "llama.attention.head_count",KvType.uint32.code,.bits heads⟩,
    ⟨ascii "llama.attention.head_count_kv",KvType.uint32.code,.bits kvHeads⟩]

theorem groupedHeads_runnable : ∃ ctx, ggufLoadIntoCtx (headCounts 32 8) = .loaded ctx ∧ ctx.Runnable := by
  refine ⟨_,rfl,?_⟩
  exact (@loaded_runnable_iff (headCounts 32 8) _ rfl).mpr ⟨by decide +kernel,by decide +kernel,by decide +kernel⟩

def twoKvHeads : List Kv := headCounts 1 2

theorem twoKvHeads_divide_by_zero : ∃ ctx, ggufLoadIntoCtx twoKvHeads = .loaded ctx ∧ 0 ∈ ctx.config.divisors :=
  ⟨_,rfl,by decide +kernel⟩

end AevOS.Llm
