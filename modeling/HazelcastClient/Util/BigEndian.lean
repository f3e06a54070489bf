import Mathlib.Data.Nat.Digits.Lemmas
import HazelcastClient.Util.LittleEndian

/-!
# Big-endian byte strings

The digits of `LittleEndian` in the opposite order. `beNat bs` is the unsigned
number of a big-endian string, `beBytes w n` its string of `w` bytes, and
`minimalBytes n` the shortest one. `signedValue bs` reads the string as a two's
complement number: the first bit is the sign. `ByteOrder` names the two orders.
-/

namespace LittleEndian

open List

theorem leNat_append (xs ys : List UInt8) :
    leNat (xs ++ ys) = leNat xs + 256 ^ xs.length * leNat ys := by
  induction xs with
  | nil => simp
  | cons b xs ih =>
    rw [cons_append, leNat_cons, leNat_cons, ih, length_cons, pow_succ]
    ring

theorem leNat_eq_zero_iff (bs : List UInt8) : leNat bs = 0 ↔ ∀ b ∈ bs, b = 0 := by
  induction bs with
  | nil => simp
  | cons b bs ih =>
    have hb : b.toNat = 0 ↔ b = 0 := UInt8.toNat_inj (b := 0)
    rw [leNat_cons, Nat.add_eq_zero_iff, hb, Nat.mul_eq_zero, or_iff_right (by decide), ih,
      forall_mem_cons]

theorem leNat_map_ofNat (ds : List ℕ) (h : ∀ d ∈ ds, d < 256) :
    leNat (ds.map UInt8.ofNat) = Nat.ofDigits 256 ds := by
  induction ds with
  | nil => rfl
  | cons d ds ih =>
    have hd : d < 256 := h d (by simp)
    rw [map_cons, leNat_cons, Nat.ofDigits_cons, ih fun e he => h e (by simp [he]),
      UInt8.toNat_ofNat', Nat.mod_eq_of_lt hd]

end LittleEndian

namespace BigEndian

open LittleEndian

/-- The number with the big-endian digits `bs`. -/
def beNat (bs : List UInt8) : ℕ := leNat bs.reverse

/-- The `w` low bytes of `n`, the most significant one first. -/
def beBytes (w n : ℕ) : List UInt8 := (leBytes w n).reverse

/-- The digits of `n` without leading zeros; the empty string for zero. -/
def minimalBytes (n : ℕ) : List UInt8 := ((Nat.digits 256 n).map UInt8.ofNat).reverse

/-- A big-endian string as a two's complement number. -/
def signedValue : List UInt8 → ℤ
  | [] => 0
  | b :: bs =>
    if b.toNat < 128 then beNat (b :: bs) else (beNat (b :: bs) : ℤ) - 256 ^ (bs.length + 1)

theorem beNat_cons (b : UInt8) (bs : List UInt8) :
    beNat (b :: bs) = b.toNat * 256 ^ bs.length + beNat bs := by
  rw [beNat, List.reverse_cons, leNat_append, List.length_reverse, leNat_cons, beNat]
  simp only [leNat_nil]
  ring

theorem beNat_lt (bs : List UInt8) : beNat bs < 256 ^ bs.length := by
  simpa [beNat] using leNat_lt bs.reverse

@[simp] theorem beBytes_length (w n : ℕ) : (beBytes w n).length = w := by
  simp [beBytes]

theorem beNat_beBytes (w n : ℕ) (h : n < 256 ^ w) : beNat (beBytes w n) = n := by
  rw [beNat, beBytes, List.reverse_reverse, leNat_leBytes w n h]

theorem beNat_minimalBytes (n : ℕ) : beNat (minimalBytes n) = n := by
  rw [beNat, minimalBytes, List.reverse_reverse,
    leNat_map_ofNat _ fun d hd => Nat.digits_lt_base (by decide) hd, Nat.ofDigits_digits]

theorem minimalBytes_head (n : ℕ) (b : UInt8) (bs : List UInt8)
    (h : minimalBytes n = b :: bs) : 0 < b.toNat := by
  have hn : n ≠ 0 := by
    rintro rfl
    simp [minimalBytes] at h
  have hnil : Nat.digits 256 n ≠ [] := Nat.digits_ne_nil_iff_ne_zero.mpr hn
  have hlast : (Nat.digits 256 n).getLast hnil ≠ 0 := Nat.getLast_digit_ne_zero 256 hn
  have hb : b = UInt8.ofNat ((Nat.digits 256 n).getLast hnil) := by
    have hhead : (minimalBytes n).head? = some b := by rw [h]; rfl
    rw [minimalBytes, List.head?_reverse, List.getLast?_map,
      List.getLast?_eq_some_getLast hnil] at hhead
    exact (Option.some.inj hhead).symm
  have hlt : (Nat.digits 256 n).getLast hnil < 256 :=
    Nat.digits_lt_base (by decide) (List.getLast_mem _)
  rw [hb, UInt8.toNat_ofNat', Nat.mod_eq_of_lt hlt]
  exact Nat.pos_of_ne_zero hlast

theorem minimalBytes_ne_nil (n : ℕ) (h : n ≠ 0) : minimalBytes n ≠ [] := by
  simp [minimalBytes, Nat.digits_ne_nil_iff_ne_zero, h]

theorem signedValue_cons (b : UInt8) (bs : List UInt8) :
    signedValue (b :: bs) = if b.toNat < 128 then (beNat (b :: bs) : ℤ)
      else (beNat (b :: bs) : ℤ) - 256 ^ (bs.length + 1) := rfl

/-- The sign of a two's complement number is its first bit. -/
theorem signedValue_neg_iff (b : UInt8) (bs : List UInt8) :
    signedValue (b :: bs) < 0 ↔ 128 ≤ b.toNat := by
  have hlt : (beNat (b :: bs) : ℤ) < 256 ^ (bs.length + 1) := by
    exact_mod_cast beNat_lt (b :: bs)
  rw [signedValue_cons]
  split_ifs with hb
  · omega
  · exact iff_of_true (by linarith) (by omega)

end BigEndian

/-- The order in which a stream lists the bytes of a number. -/
inductive ByteOrder
  | big
  | little
  deriving DecidableEq

namespace ByteOrder

open LittleEndian BigEndian

/-- The `w` low bytes of `n` in the given order. -/
def bytes : ByteOrder → ℕ → ℕ → List UInt8
  | big, w, n => beBytes w n
  | little, w, n => leBytes w n

/-- The number whose bytes in the given order are `bs`. -/
def nat : ByteOrder → List UInt8 → ℕ
  | big, bs => beNat bs
  | little, bs => leNat bs

@[simp] theorem bytes_length (order : ByteOrder) (w n : ℕ) : (order.bytes w n).length = w := by
  cases order with
  | big => exact beBytes_length w n
  | little => exact leBytes_length w n

variable (order : ByteOrder) (bs : List UInt8)

theorem nat_lt : order.nat bs < 256 ^ bs.length := by
  cases order with
  | big => exact beNat_lt bs
  | little => exact leNat_lt bs

theorem nat_bytes (w n : ℕ) (h : n < 256 ^ w) : order.nat (order.bytes w n) = n := by
  cases order with
  | big => exact beNat_beBytes w n h
  | little => exact leNat_leBytes w n h

theorem nat_eq_zero_iff : order.nat bs = 0 ↔ ∀ b ∈ bs, b = 0 := by
  cases order with
  | big => simpa [nat, beNat] using leNat_eq_zero_iff bs.reverse
  | little => exact leNat_eq_zero_iff bs

end ByteOrder
