import AevOS.ByteWire

/-! What every part of the kernel shares: the error numbers of `aevos/types.h`, the constants of
`aevos/config.h` and strings as C has them. -/

namespace AevOS
open Wire

/-- The error of a call that is modelled with `Except`; the numbers below are what the others return,
negated. -/
inductive Errno where
  | enomem | einval | eio | enoent | enospc
  deriving DecidableEq

def enomem : Int := 2
def einval : Int := 3
def enoent : Int := 5
def enospc : Int := 7
def eperm : Int := 8
def eexist : Int := 9
def enotsup : Int := 10
def eagain : Int := 17

def pageSize : UInt64 := 4096

/-- The object sizes of the slab caches. -/
def cacheSizes : List Nat := [32,64,128,256,512,1024,2048,4096,8192,16384,32768,65536]

/-- Where the direct map of physical memory begins. -/
def physMapBase : UInt64 := 0xFFFF800000000000

/-- The bytes of a string before its NUL. -/
structure CStr where
  bytes : Bytes
  noNul : (0 : UInt8) ∉ bytes

def CStr.of (bytes : Bytes) (h : (0 : UInt8) ∉ bytes := by decide) : CStr := ⟨bytes,h⟩
/-- The string that begins a buffer. -/
def cstr (bs : Bytes) : Bytes := bs.takeWhile (· != 0)

def slash : UInt8 := 47
def u32 (n : Nat) : Nat := n%2^32
def ascii (s : String) : Bytes := s.toList.map fun c => UInt8.ofNat c.toNat

end AevOS
