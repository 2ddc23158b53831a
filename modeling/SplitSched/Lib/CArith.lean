import Mathlib

/-!
# SplitSched.Lib.CArith

Integer arithmetic as a C program sees it. Values are `Int`; a conversion to a C type is a function
on `Int`, and the functions a platform uses are bundled with the laws proofs rely on (`CInts`).

* `CInts.exact`: no conversion loses anything. This is "arithmetic is exact".
* `CInts.lp64`: two's complement, `int` of 32 bits, `long` and `unsigned long` of 64 bits.

A theorem over an arbitrary `C : CInts` therefore covers both readings of a program. `safeDiv` is
truncating division that returns the dividend when the divisor is zero.
-/

namespace SplitSched
namespace CArith

/-- The C conversions a program uses, each the identity on what its type can represent. -/
structure CInts where
  int : Int → Int
  long : Int → Int
  ulong : Int → Int
  int_fits : ∀ x, -2 ^ 31 ≤ x → x < 2 ^ 31 → int x = x
  long_fits : ∀ x, -2 ^ 63 ≤ x → x < 2 ^ 63 → long x = x
  ulong_fits : ∀ x, 0 ≤ x → x < 2 ^ 64 → ulong x = x
  long_add : ∀ x y, long (long x + y) = long (x + y)
  long_near : ∀ x d, long (x + d) = long x → -2 ^ 63 < d → d < 2 ^ 63 → d = 0

namespace CInts

/-- Exact integers: every conversion is the identity. -/
def exact : CInts where
  int := id
  long := id
  ulong := id
  int_fits _ _ _ := rfl
  long_fits _ _ _ := rfl
  ulong_fits _ _ _ := rfl
  long_add _ _ := rfl
  long_near _ _ h _ _ := by simp only [id] at h; omega

/-- Two's complement with the LP64 widths. -/
def lp64 : CInts where
  int x := x.bmod (2 ^ 32)
  long x := x.bmod (2 ^ 64)
  ulong x := x % (2 ^ 64 : Nat)
  int_fits x h₁ h₂ := Int.bmod_eq_of_le (by norm_num; omega) (by norm_num; omega)
  long_fits x h₁ h₂ := Int.bmod_eq_of_le (by norm_num; omega) (by norm_num; omega)
  ulong_fits x h₁ h₂ := Int.emod_eq_of_lt h₁ (by norm_num; omega)
  long_add x y := Int.bmod_add_bmod
  long_near x d h h₁ h₂ := by
    -- equal residues differ by a multiple of `2 ^ 64`, and only `0` is that close
    have hd : ((2 ^ 64 : Nat) : Int) ∣ d := by
      have he : (x + d) % ((2 ^ 64 : Nat) : Int) = x % ((2 ^ 64 : Nat) : Int) := by
        have hb := congrArg (· % ((2 ^ 64 : Nat) : Int)) h
        simpa only [Int.bmod_emod] using hb
      have hs := Int.emod_eq_emod_iff_emod_sub_eq_zero.mp he
      rw [add_sub_cancel_left] at hs
      exact Int.dvd_of_emod_eq_zero hs
    obtain ⟨k, rfl⟩ := hd
    norm_num at h₁ h₂ ⊢
    omega

end CInts

/-- A 64-bit amount `b` is added to `d` and taken back through a 32-bit parameter. This gives `d` again
exactly when `-b` is a 32-bit integer. -/
theorem bmod_refund_iff {d b : Int} (hd : 0 ≤ d) (hd' : d < 2 ^ 63) (hb : 0 ≤ b)
    (hb' : b < 2 ^ 63 + 2 ^ 32) :
    (d + b + ((-b) % (2 ^ 64 : Nat)).bmod (2 ^ 32)).bmod (2 ^ 64) = d ↔ b ≤ 2 ^ 31 := by
  simp only [Int.bmod_def]
  norm_num only
  split_ifs <;> omega

/-- Division that truncates towards zero and returns the dividend when the divisor is zero. -/
def safeDiv (a b : Int) : Int := if b = 0 then a else a.tdiv b

theorem safeDiv_one (a : Int) : safeDiv a 1 = a := by simp [safeDiv]

theorem safeDiv_nonneg {a b : Int} (ha : 0 ≤ a) (hb : 0 ≤ b) : 0 ≤ safeDiv a b := by
  unfold safeDiv
  split
  · exact ha
  · exact Int.tdiv_nonneg ha hb

theorem safeDiv_le {a : Int} (b : Int) (ha : 0 ≤ a) : safeDiv a b ≤ a := by
  unfold safeDiv
  split
  · exact le_refl a
  · rw [Int.tdiv_eq_ediv_of_nonneg ha]
    exact Int.ediv_le_self b ha

end CArith
end SplitSched
