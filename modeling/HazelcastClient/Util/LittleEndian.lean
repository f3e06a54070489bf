import Mathlib.Data.List.Basic
import Mathlib.Tactic.Ring

/-!
# Little-endian byte strings

`leNat bs` is the unsigned number whose little-endian digits are the bytes `bs`;
`leBytes w n` lists the `w` low bytes of `n`. The two are inverse to each other
on the numbers below `256 ^ w`. `toSigned w n` reads the same digits as a two's
complement number of `w` bytes.
-/

namespace LittleEndian

/-- The number with the little-endian digits `bs`. -/
def leNat : List UInt8 → ℕ
  | [] => 0
  | b :: bs => b.toNat + 256 * leNat bs

/-- The `w` low bytes of `n`, the least significant one first. -/
def leBytes : ℕ → ℕ → List UInt8
  | 0, _ => []
  | w + 1, n => UInt8.ofNat n :: leBytes w (n / 256)

/-- The `w`-byte pattern `n` read as a two's complement number. -/
def toSigned (w n : ℕ) : ℤ :=
  if 2 * n < 256 ^ w then n else (n : ℤ) - 256 ^ w

@[simp] theorem leNat_nil : leNat [] = 0 := rfl

theorem leNat_cons (b : UInt8) (bs : List UInt8) :
    leNat (b :: bs) = b.toNat + 256 * leNat bs := rfl

@[simp] theorem leBytes_length (w n : ℕ) : (leBytes w n).length = w := by
  induction w generalizing n with
  | zero => rfl
  | succ w ih => simp [leBytes, ih]

theorem leNat_lt (bs : List UInt8) : leNat bs < 256 ^ bs.length := by
  induction bs with
  | nil => simp
  | cons b bs ih =>
    have hb : b.toNat < 256 := b.toNat_lt
    rw [leNat_cons, List.length_cons, pow_succ]
    omega

theorem leNat_leBytes (w n : ℕ) (h : n < 256 ^ w) : leNat (leBytes w n) = n := by
  induction w generalizing n with
  | zero =>
    have hn : n = 0 := by simpa using h
    rw [hn]
    rfl
  | succ w ih =>
    have hdiv : n / 256 < 256 ^ w := by
      rw [pow_succ] at h
      omega
    rw [leBytes, leNat_cons, ih _ hdiv, UInt8.toNat_ofNat']
    omega

end LittleEndian
