/-
Numbers as little-endian bytes, and reading them off the front of a list of bytes.
-/
import Mathlib

namespace ZiqaKernel

/-- The `k` low bytes of a number, the lowest first. -/
def leBytes : Nat → Nat → List UInt8
  | 0, _ => []
  | k + 1, n => UInt8.ofNat n :: leBytes k (n / 256)

def leValue (bytes : List UInt8) : Nat := bytes.foldr (fun x n => x.toNat + 256 * n) 0

/-- Take `k` bytes off the front. -/
def splitBytes (k : Nat) (data : List UInt8) : Option (List UInt8 × List UInt8) :=
  if data.length < k then none else some (data.take k, data.drop k)

/-- Take a number of `k` bytes off the front. -/
def readLe (k : Nat) (data : List UInt8) : Option (Nat × List UInt8) :=
  (splitBytes k data).map fun r => (leValue r.1, r.2)

end ZiqaKernel
