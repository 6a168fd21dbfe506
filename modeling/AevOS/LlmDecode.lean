import Mathlib

/-! Where `llm_decode` of `llm/llm_runtime.c` reads and writes in the work buffer and the caches. -/

namespace AevOS.Llm
open UInt32 (ofNat)

structure Config where
  nVocab : UInt32
  nCtx : UInt32
  nEmbd : UInt32
  nLayer : UInt32
  nHead : UInt32
  nHeadKv : UInt32
  nFf : UInt32
  deriving DecidableEq

structure Range where
  start : Nat
  len : Nat
  deriving DecidableEq

def Range.Inside (r : Range) (size : Nat) : Prop := r.start+r.len ≤ size
  deriving Decidable

def Range.Within (r : Range) (size : Nat) : Prop := r.len = 0 ∨ r.Inside size
  deriving Decidable

def floats (index count : Nat) : Range := ⟨4*index%2^64,4*count⟩

namespace Config

def headDim (c : Config) : UInt32 := c.nEmbd/c.nHead
def kvDim (c : Config) : UInt32 := c.headDim*c.nHeadKv
def kvGroups (c : Config) : UInt32 := c.nHead/c.nHeadKv
def cacheNeed (c : Config) : Nat := c.nLayer.toNat*c.nCtx.toNat*c.kvDim.toNat*4
def cacheSize (c : Config) : Nat := c.cacheNeed%2^64

def workBufSize (c : Config) : Nat :=
  (c.nEmbd.toNat*5+c.nHead.toNat*c.nCtx.toNat+c.nFf.toNat*2+c.nVocab.toNat)%2^64*4%2^64

def divisors (c : Config) : List UInt32 :=
  c.nHead :: (List.replicate c.nLayer.toNat (c.nHeadKv :: List.replicate c.nHead.toNat c.kvGroups)).flatten

def carved (c : Config) : List UInt32 :=
  [c.nEmbd,c.kvDim,c.kvDim,c.nHead*c.nCtx,c.nFf,c.nFf,c.nEmbd]

end Config

def carve : Nat → List UInt32 → List Range
  | _, [] => []
  | cur, n :: ns => floats cur n.toNat :: carve (cur+n.toNat) ns

namespace Config

def workRegions (c : Config) : List Range := carve 0 c.carved
def kvOff (c : Config) (layer : Nat) : Nat := layer*c.nCtx.toNat*c.kvDim.toNat%2^64
def kvRow (c : Config) (layer pos : Nat) : Range := floats (c.kvOff layer+pos*c.kvDim.toNat) c.kvDim.toNat
def kvHead (c : Config) (head : Nat) : UInt32 := ofNat head/c.kvGroups

def kvPart (c : Config) (layer head t : Nat) : Range :=
  floats (c.kvOff layer+t*c.kvDim.toNat+(c.kvHead head*c.headDim).toNat) c.headDim.toNat

def cacheRanges (c : Config) (pos : Nat) : List Range :=
  (List.range c.nLayer.toNat).flatMap fun layer => c.kvRow layer pos ::
    (List.range c.nHead.toNat).flatMap fun head => (List.range (pos+1)).map fun t => c.kvPart layer head t

def attStart (c : Config) : Nat := c.nEmbd.toNat+c.kvDim.toNat+c.kvDim.toNat

def attWrites (c : Config) (head pos : Nat) : List Range :=
  floats (c.attStart+(ofNat head*c.nCtx).toNat) (pos+1) :: (List.range (pos+1)).map fun t =>
    floats (c.attStart+(ofNat head*c.nCtx+ofNat t).toNat) 1

def WritesInside (c : Config) (pos : Nat) : Prop :=
  (∀ layer, layer < c.nLayer.toNat → (c.kvRow layer pos).Inside c.cacheNeed) ∧
    ∀ head, head < c.nHead.toNat → ∀ w ∈ c.attWrites head pos,
      4*c.attStart ≤ w.start ∧ w.Inside (4*(c.attStart+c.nHead.toNat*c.nCtx.toNat))

theorem attStart_lt (c : Config) : c.attStart < 3*2^32 := by
  have h1 := c.nEmbd.toNat_lt
  have h2 := c.kvDim.toNat_lt
  unfold attStart
  omega

theorem kvRow_inside (c : Config) {layer pos : Nat} (hl : layer < c.nLayer.toNat) (hpos : pos < c.nCtx.toNat) :
    (c.kvRow layer pos).Inside c.cacheNeed := by
  have hr : layer*c.nCtx.toNat+pos+1 ≤ c.nLayer.toNat*c.nCtx.toNat := by
    have hmul := Nat.mul_le_mul_right c.nCtx.toNat (Nat.succ_le_of_lt hl)
    rw [Nat.succ_mul] at hmul
    omega
  have hoff : c.kvOff layer ≤ layer*c.nCtx.toNat*c.kvDim.toNat := Nat.mod_le _ _
  have hs : (c.kvRow layer pos).start ≤ 4*(c.kvOff layer+pos*c.kvDim.toNat) := Nat.mod_le _ _
  calc (c.kvRow layer pos).start+4*c.kvDim.toNat
      ≤ 4*(layer*c.nCtx.toNat*c.kvDim.toNat+pos*c.kvDim.toNat)+4*c.kvDim.toNat := by omega
    _ = (layer*c.nCtx.toNat+pos+1)*c.kvDim.toNat*4 := by ring
    _ ≤ c.nLayer.toNat*c.nCtx.toNat*c.kvDim.toNat*4 :=
      Nat.mul_le_mul_right 4 (Nat.mul_le_mul_right _ hr)

theorem scores_inside (c : Config) {index : UInt32} {bound len : Nat} (hi : index.toNat ≤ bound)
    (hlen : bound+len ≤ c.nHead.toNat*c.nCtx.toNat) :
    4*c.attStart ≤ (floats (c.attStart+index.toNat) len).start ∧
      (floats (c.attStart+index.toNat) len).Inside (4*(c.attStart+c.nHead.toNat*c.nCtx.toNat)) := by
  have hatt := c.attStart_lt
  have hlt := index.toNat_lt
  have hs : (floats (c.attStart+index.toNat) len).start = 4*(c.attStart+index.toNat) :=
    Nat.mod_eq_of_lt (by omega)
  refine ⟨by omega,?_⟩
  show (floats (c.attStart+index.toNat) len).start+4*len ≤ _
  omega

theorem attWrites_inside (c : Config) {head pos : Nat} (hh : head < c.nHead.toNat) (hpos : pos < c.nCtx.toNat)
    {w : Range} (hw : w ∈ c.attWrites head pos) :
    4*c.attStart ≤ w.start ∧ w.Inside (4*(c.attStart+c.nHead.toNat*c.nCtx.toNat)) := by
  have hr : head*c.nCtx.toNat+c.nCtx.toNat ≤ c.nHead.toNat*c.nCtx.toNat := by
    have hmul := Nat.mul_le_mul_right c.nCtx.toNat (Nat.succ_le_of_lt hh)
    rwa [Nat.succ_mul] at hmul
  have hrow : (ofNat head*c.nCtx).toNat ≤ head*c.nCtx.toNat := by
    rw [UInt32.toNat_mul]
    refine le_trans (Nat.mod_le _ _) (Nat.mul_le_mul_right _ ?_)
    exact Nat.mod_le _ _
  rw [attWrites,List.mem_cons] at hw
  rcases hw with rfl | hw
  · exact scores_inside c hrow (by omega)
  obtain ⟨t,ht,rfl⟩ := List.mem_map.mp hw
  have ht' := List.mem_range.mp ht
  have hi : (ofNat head*c.nCtx+ofNat t).toNat ≤ head*c.nCtx.toNat+t := by
    rw [UInt32.toNat_add]
    refine le_trans (Nat.mod_le _ _) (Nat.add_le_add hrow ?_)
    exact Nat.mod_le _ _
  exact scores_inside c hi (by omega)

theorem writesInside (c : Config) {pos : Nat} (hpos : pos < c.nCtx.toNat) : c.WritesInside pos :=
  ⟨fun _ hl => c.kvRow_inside hl hpos,fun _ hh _ hw => c.attWrites_inside hh hpos hw⟩

end Config

end AevOS.Llm
