import ThreeXhaust.Lib.Bytes
import Mathlib.Algebra.Group.Nat.Defs

/-!
# Big-endian integers

`be32 n` is `n` in four bytes, most significant first, and `ofBe` the number some bytes are.
-/

def be32 (n : Nat) : Bytes :=
  [UInt8.ofNat (n / 2 ^ 24), UInt8.ofNat (n / 2 ^ 16), UInt8.ofNat (n / 2 ^ 8), UInt8.ofNat n]

def ofBe (bytes : Bytes) : Nat := bytes.foldl (fun n byte => n * 256 + byte.toNat) 0

@[simp] theorem be32_length (n : Nat) : (be32 n).length = 4 := rfl

@[simp] theorem be32_take (n : Nat) (rest : Bytes) : (be32 n ++ rest).take 4 = be32 n := rfl

@[simp] theorem be32_drop (n : Nat) (rest : Bytes) : (be32 n ++ rest).drop 4 = rest := rfl

theorem ofBe_be32 {n : Nat} (h : n < 2 ^ 32) : ofBe (be32 n) = n := by
  simp only [ofBe, be32, List.foldl_cons, List.foldl_nil, UInt8.toNat_ofNat']
  omega

theorem be32_mod (n : Nat) : be32 (n % 2 ^ 32) = be32 n := by
  have hbyte : ∀ a b : Nat, a % 256 = b % 256 → UInt8.ofNat a = UInt8.ofNat b := by
    intro a b h
    apply UInt8.toNat_inj.mp
    simpa only [UInt8.toNat_ofNat'] using h
  simp only [be32]
  rw [hbyte (n % 2 ^ 32 / 2 ^ 24) (n / 2 ^ 24) (by omega),
    hbyte (n % 2 ^ 32 / 2 ^ 16) (n / 2 ^ 16) (by omega),
    hbyte (n % 2 ^ 32 / 2 ^ 8) (n / 2 ^ 8) (by omega), hbyte (n % 2 ^ 32) n (by omega)]
