import ThreeXhaust.Lib.Bytes
import Mathlib.Algebra.Group.Nat.Defs

/-!
# Unsigned LEB128

A natural number in groups of seven bits, the lowest first, every group but the last marked by
its high bit. `Varint bytes n` holds of every form of `n`, padded ones included; `varintBytes`
is the shortest form and `paddedBytes` the one of a fixed length.
-/

def varintMore (group : Nat) : UInt8 := UInt8.ofNat (group ||| 0x80)

inductive Varint : Bytes → Nat → Prop where
  | last {group : Nat} (h : group < 128) : Varint [UInt8.ofNat group] group
  | more {group n : Nat} {bytes : Bytes} (h : group < 128) (hrest : Varint bytes n) :
    Varint (varintMore group :: bytes) (group + 128 * n)

@[grind =] def varintBytes (n : Nat) : Bytes :=
  if n < 128 then [UInt8.ofNat n] else varintMore (n % 128) :: varintBytes (n / 128)

/-- The form of exactly `k + 1` bytes, for a number below `128 ^ (k + 1)`. -/
@[grind =] def paddedBytes : Nat → Nat → Bytes
  | 0, n => [UInt8.ofNat n]
  | k + 1, n => varintMore (n % 128) :: paddedBytes k (n / 128)

theorem varint_varintBytes (n : Nat) : Varint (varintBytes n) n := by
  induction n using varintBytes.induct with
  | case1 n h =>
    rw [varintBytes, if_pos h]
    exact .last h
  | case2 n h ih =>
    rw [varintBytes, if_neg h]
    have hmore := Varint.more (Nat.mod_lt n (by omega)) ih
    rwa [Nat.mod_add_div] at hmore

theorem varint_paddedBytes (k n : Nat) (h : n < 128 ^ (k + 1)) : Varint (paddedBytes k n) n := by
  induction k generalizing n with
  | zero => exact .last (by simpa using h)
  | succ k ih =>
    have hdiv : n / 128 < 128 ^ (k + 1) := by
      apply Nat.div_lt_of_lt_mul
      rwa [← Nat.pow_succ']
    have hmore := Varint.more (Nat.mod_lt n (by omega)) (ih (n / 128) hdiv)
    rwa [Nat.mod_add_div] at hmore

theorem varintBytes_length_le (k n : Nat) (h : n < 128 ^ (k + 1)) :
    (varintBytes n).length ≤ k + 1 := by
  induction k generalizing n with
  | zero =>
    rw [varintBytes, if_pos (by simpa using h)]
    simp
  | succ k ih =>
    rw [varintBytes]
    split
    · simp
    · have hdiv : n / 128 < 128 ^ (k + 1) := by
        apply Nat.div_lt_of_lt_mul
        rwa [← Nat.pow_succ']
      have htail := ih (n / 128) hdiv
      rw [List.length_cons]
      omega

@[simp] theorem paddedBytes_length (k n : Nat) : (paddedBytes k n).length = k + 1 := by
  induction k generalizing n with
  | zero => rfl
  | succ k ih => rw [paddedBytes, List.length_cons, ih]

/-! ## The two kinds of bytes -/

theorem toNat_varintMore {group : Nat} (h : group < 128) :
    (varintMore group).toNat = group + 128 := by
  have hor : group ||| 0x80 = group + 128 := by
    have h7 := Nat.two_pow_add_eq_or_of_lt (show group < 2 ^ 7 from h) 1
    rw [show 2 ^ 7 * 1 = 0x80 from rfl] at h7
    rw [Nat.or_comm, ← h7, Nat.add_comm]
  rw [varintMore, hor, UInt8.toNat_ofNat']
  omega
