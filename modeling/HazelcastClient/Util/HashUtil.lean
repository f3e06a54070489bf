import Mathlib.Algebra.Group.Int.Defs
import Mathlib.Data.Int.Basic

/-!
# Hashes and indices

`MurmurHash3` over a byte string, the hash of a key's bytes, and `HashUtil`, which
sends a hash to one of `length` places.
-/

namespace HazelcastClient.Util

def rotl32 (x r : UInt32) : UInt32 := (x <<< r) ||| (x >>> (32 - r))

def fmix32 (h : UInt32) : UInt32 :=
  let h := h ^^^ (h >>> 16)
  let h := h * 0x85ebca6b
  let h := h ^^^ (h >>> 13)
  let h := h * 0xc2b2ae35
  h ^^^ (h >>> 16)

def mixBlock (k1 : UInt32) : UInt32 := rotl32 (k1 * 0xcc9e2d51) 15 * 0x1b873593

/-- The loop over the blocks and the `switch` over the tail. A block is read in
the order of the machine, least significant byte first. -/
def murmurBody : UInt32 → List UInt8 → UInt32
  | h1, b0 :: b1 :: b2 :: b3 :: rest =>
    let k1 := b0.toUInt32 ||| (b1.toUInt32 <<< 8) ||| (b2.toUInt32 <<< 16) |||
      (b3.toUInt32 <<< 24)
    murmurBody (rotl32 (h1 ^^^ mixBlock k1) 13 * 5 + 0xe6546b64) rest
  | h1, [b0, b1, b2] =>
    h1 ^^^ mixBlock ((b2.toUInt32 <<< 16) ^^^ (b1.toUInt32 <<< 8) ^^^ b0.toUInt32)
  | h1, [b0, b1] => h1 ^^^ mixBlock ((b1.toUInt32 <<< 8) ^^^ b0.toUInt32)
  | h1, [b0] => h1 ^^^ mixBlock b0.toUInt32
  | h1, [] => h1

/-- `murmur_hash3_x86_32` with the default seed. -/
def murmurHash3 (key : List UInt8) : Int32 :=
  (fmix32 (murmurBody 0x01000193 key ^^^ UInt32.ofNat key.length)).toInt32

/-- `HashUtil::hash_to_index`, for a 32-bit hash and a positive length. -/
def hashToIndex (hash : ℤ) (length : ℕ) : ℕ :=
  (if hash = -2 ^ 31 then 0 else hash.natAbs) % length

end HazelcastClient.Util
