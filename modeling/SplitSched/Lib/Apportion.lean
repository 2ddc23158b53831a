import Mathlib

/-!
# SplitSched.Lib.Apportion

An amount is split in proportion to weights, and each share is rounded down.

* `share`: the part of `total` that goes to a weight.
* `sum_share_le`: the shares do not exceed the total.
* `sub_sum_share_lt`: what rounding loses is less than the number of weights that are not zero.
-/

namespace SplitSched
namespace Apportion

variable {ι : Type} {total : ℤ} {w : ι → ℤ} {xs : List ι}

def share (total sum weight : ℤ) : ℤ := total * weight / sum

@[simp] theorem share_zero (total sum : ℤ) : share total sum 0 = 0 := by simp [share]

theorem share_nonneg {sum weight : ℤ} (ht : 0 ≤ total) (hs : 0 ≤ sum) (hw : 0 ≤ weight) :
    0 ≤ share total sum weight :=
  Int.ediv_nonneg (mul_nonneg ht hw) hs

theorem share_mono {sum a b : ℤ} (ht : 0 ≤ total) (hs : 0 < sum) (hab : a ≤ b) :
    share total sum a ≤ share total sum b :=
  Int.ediv_le_ediv hs (mul_le_mul_of_nonneg_left hab ht)

theorem share_le {sum weight : ℤ} (ht : 0 ≤ total) (hs : 0 < sum) (hw : weight ≤ sum) :
    share total sum weight ≤ total := by
  calc share total sum weight ≤ share total sum sum := share_mono ht hs hw
    _ = total := Int.mul_ediv_cancel total hs.ne'

/-- Where the total is no more than the sum of the weights, no share is more than its weight. -/
theorem share_le_weight {sum weight : ℤ} (hs : 0 < sum) (hw : 0 ≤ weight) (hle : total ≤ sum) :
    share total sum weight ≤ weight := by
  refine Int.ediv_le_of_le_mul hs ?_
  rw [mul_comm weight]
  exact mul_le_mul_of_nonneg_right hle hw

/-- A share and its remainder, summed over the weights. -/
theorem sum_share_add_sum_mod (total sum : ℤ) (w : ι → ℤ) (xs : List ι) :
    sum * (xs.map fun x => share total sum (w x)).sum + (xs.map fun x => total * w x % sum).sum =
      total * (xs.map w).sum := by
  induction xs with
  | nil => simp
  | cons x xs ih =>
    have hx := Int.mul_ediv_add_emod (total * w x) sum
    simp only [List.map_cons, List.sum_cons, share] at ih ⊢
    linear_combination ih + hx

theorem sum_mod_nonneg {sum : ℤ} (hs : 0 < sum) (total : ℤ) (w : ι → ℤ) (xs : List ι) :
    0 ≤ (xs.map fun x => total * w x % sum).sum := by
  refine List.sum_nonneg fun r hr => ?_
  obtain ⟨x, -, rfl⟩ := List.mem_map.mp hr
  exact Int.emod_nonneg _ hs.ne'

/-- A remainder is below the sum of the weights, and zero where the weight is. -/
theorem sum_mod_le {sum : ℤ} (hs : 0 < sum) (total : ℤ) (w : ι → ℤ) (xs : List ι) :
    (xs.map fun x => total * w x % sum).sum ≤ (sum - 1) * (xs.filter fun x => w x ≠ 0).length := by
  induction xs with
  | nil => simp
  | cons x xs ih =>
    have hlt := Int.emod_lt_of_pos (total * w x) hs
    by_cases hx : w x = 0
    · simpa [hx] using ih
    · rw [List.filter_cons_of_pos (by simpa using hx)]
      simp only [List.map_cons, List.sum_cons, List.length_cons]
      push_cast
      linarith

theorem sum_share_le (hpos : 0 < (xs.map w).sum) :
    (xs.map fun x => share total (xs.map w).sum (w x)).sum ≤ total := by
  have hsum := sum_share_add_sum_mod total (xs.map w).sum w xs
  have hmod := sum_mod_nonneg hpos total w xs
  refine le_of_mul_le_mul_left ?_ hpos
  linarith

theorem sub_sum_share_lt (hpos : 0 < (xs.map w).sum) :
    total - (xs.map fun x => share total (xs.map w).sum (w x)).sum <
      (xs.filter fun x => w x ≠ 0).length := by
  have hsum := sum_share_add_sum_mod total (xs.map w).sum w xs
  have hmod := sum_mod_le hpos total w xs
  -- some weight is not zero, as their sum is not
  have hcount : 0 < ((xs.filter fun x => w x ≠ 0).length : ℤ) := by
    rw [Int.natCast_pos, List.length_pos_iff_exists_mem]
    by_contra hnone
    refine hpos.ne' (List.sum_eq_zero fun a ha => ?_)
    obtain ⟨x, hx, rfl⟩ := List.mem_map.mp ha
    by_contra hne
    exact hnone ⟨x, List.mem_filter.mpr ⟨hx, by simpa using hne⟩⟩
  refine lt_of_mul_lt_mul_left ?_ hpos.le
  linarith

end Apportion
end SplitSched
