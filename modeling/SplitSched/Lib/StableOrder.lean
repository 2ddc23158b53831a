import Mathlib

/-!
# SplitSched.Lib.StableOrder

What a priority queue that is stable hands out. Elements arrive one after the other; they are to leave by
their keys, and those with one key in the order in which they arrived.

* `StableOrder key arrived xs`: `xs` is that order of the elements in `arrived`.
* `StableOrder.insert`, `StableOrder.erase`: an element arrives, and an element leaves.
* `StableOrder.head?_eq`: the first is the earliest of those with the least key.
* `ahead key arrived y`: the elements that leave before `y`. `ahead_erase_perm`: when one of them has left, the
  others are ahead.
-/

namespace SplitSched

variable {α κ : Type} [LinearOrder κ]

structure StableOrder (key : α → κ) (arrived xs : List α) : Prop where
  sorted : xs.Pairwise fun x y => key x ≤ key y
  equal : ∀ k, xs.filter (fun x => key x = k) = arrived.filter (fun x => key x = k)

namespace StableOrder

variable {key : α → κ} {arrived xs : List α} {x : α}

theorem nil (key : α → κ) : StableOrder key [] [] := ⟨.nil, fun _ => rfl⟩

theorem mem_iff (h : StableOrder key arrived xs) (x : α) : x ∈ xs ↔ x ∈ arrived := by
  have hmem : ∀ ys : List α, x ∈ ys ↔ x ∈ ys.filter (fun y => key y = key x) := by
    intro ys
    simp
  rw [hmem xs, hmem arrived, h.equal]

theorem perm [DecidableEq α] (h : StableOrder key arrived xs) : xs.Perm arrived := by
  rw [List.perm_iff_count]
  intro x
  have hcount : ∀ ys : List α, ys.count x = (ys.filter (fun y => key y = key x)).count x := by
    intro ys
    rw [List.count_filter (by simp)]
  rw [hcount xs, hcount arrived, h.equal]

/-- The new element goes behind those with keys up to its own. -/
theorem insert {as bs : List α} (h : StableOrder key arrived (as ++ bs)) (has : ∀ y ∈ as, key y ≤ key x)
    (hbs : ∀ y ∈ bs, key x < key y) : StableOrder key (arrived ++ [x]) (as ++ x :: bs) := by
  obtain ⟨hleft, hright, hcross⟩ := List.pairwise_append.mp h.sorted
  refine ⟨List.pairwise_append.mpr ⟨hleft, List.pairwise_cons.mpr ⟨fun y hy => (hbs y hy).le, hright⟩, ?_⟩,
    fun k => ?_⟩
  · intro y hy z hz
    rcases List.mem_cons.mp hz with rfl | hz
    · exact has y hy
    · exact hcross y hy z hz
  · have hequal := h.equal k
    rw [List.filter_append] at hequal
    rw [List.filter_append, List.filter_append, ← hequal]
    by_cases hk : key x = k
    · -- nothing behind it has its key
      have hnone : bs.filter (fun y => key y = k) = [] := by
        rw [List.filter_eq_nil_iff]
        intro y hy
        have hlt := hbs y hy
        simp only [decide_eq_true_eq]
        rintro rfl
        exact hlt.ne hk
      simp [hk, hnone]
    · simp [hk]

theorem erase [DecidableEq α] (h : StableOrder key arrived xs) (x : α) :
    StableOrder key (arrived.erase x) (xs.erase x) := by
  refine ⟨h.sorted.sublist List.erase_sublist, fun k => ?_⟩
  rw [← List.erase_filter, ← List.erase_filter, h.equal]

/-- Only the keys of the elements that are there count. -/
theorem congr {key' : α → κ} (h : StableOrder key arrived xs) (hkey : ∀ x ∈ arrived, key' x = key x) :
    StableOrder key' arrived xs := by
  have hkey' : ∀ x ∈ xs, key' x = key x := fun x hx => hkey x ((h.mem_iff x).mp hx)
  refine ⟨h.sorted.imp_of_mem fun {x y} hx hy hle => ?_, fun k => ?_⟩
  · rw [hkey' x hx, hkey' y hy]
    exact hle
  · calc xs.filter (fun x => key' x = k)
        = xs.filter (fun x => key x = k) := List.filter_congr fun x hx => by rw [hkey' x hx]
      _ = arrived.filter (fun x => key x = k) := h.equal k
      _ = arrived.filter (fun x => key' x = k) := List.filter_congr fun x hx => by rw [hkey x hx]

theorem head?_eq (h : StableOrder key arrived xs) :
    xs.head? = arrived.find? fun x => ∀ y ∈ arrived, key x ≤ key y := by
  cases xs with
  | nil =>
    have hnil : arrived = [] := by
      rw [List.eq_nil_iff_forall_not_mem]
      intro x hx
      exact List.not_mem_nil ((h.mem_iff x).mpr hx)
    rw [hnil]
    rfl
  | cons x xs =>
    have hleast : ∀ y ∈ arrived, key x ≤ key y := by
      intro y hy
      rcases List.mem_cons.mp ((h.mem_iff y).mpr hy) with rfl | hy
      · exact le_rfl
      · exact (List.pairwise_cons.mp h.sorted).1 y hy
    -- the least key is that of `x`
    have hkey : ∀ y ∈ arrived, (∀ z ∈ arrived, key y ≤ key z) ↔ key y = key x := by
      intro y hy
      constructor
      · intro hall
        exact le_antisymm (hall x ((h.mem_iff x).mp List.mem_cons_self)) (hleast y hy)
      · intro heq z hz
        rw [heq]
        exact hleast z hz
    have hfilter := h.equal (key x)
    rw [List.filter_cons_of_pos (by simp)] at hfilter
    rw [← List.head?_filter, List.filter_congr (fun y hy => decide_eq_decide.mpr (hkey y hy)), ← hfilter]
    rfl

end StableOrder

/-! ## Who is ahead -/

section Ahead

variable [DecidableEq α] {key : α → κ} {arrived : List α} {x y z : α}

def Precedes (key : α → κ) (arrived : List α) (x y : α) : Prop :=
  key x < key y ∨ key x = key y ∧ arrived.idxOf x < arrived.idxOf y

instance (key : α → κ) (arrived : List α) (x y : α) : Decidable (Precedes key arrived x y) :=
  inferInstanceAs (Decidable (_ ∨ _))

def ahead (key : α → κ) (arrived : List α) (y : α) : List α :=
  arrived.filter fun x => Precedes key arrived x y

theorem mem_ahead : x ∈ ahead key arrived y ↔ x ∈ arrived ∧ Precedes key arrived x y := by
  simp [ahead]

/-- An element with a larger key has arrived before all of them. -/
theorem precedes_cons (hlt : key x < key z) (h : ∀ y ∈ arrived, y ≠ x → Precedes key arrived x y) :
    ∀ y ∈ z :: arrived, y ≠ x → Precedes key (z :: arrived) x y := by
  intro y hy hne
  by_cases hzy : z = y
  · exact .inl (hzy ▸ hlt)
  · have hzx : z ≠ x := by
      rintro rfl
      exact lt_irrefl _ hlt
    rcases h y ((List.mem_cons.mp hy).resolve_left (Ne.symm hzy)) hne with hkey | ⟨heq, hidx⟩
    · exact .inl hkey
    · refine .inr ⟨heq, ?_⟩
      rw [List.idxOf_cons_ne _ hzx, List.idxOf_cons_ne _ hzy]
      omega

theorem idxOf_erase_lt_iff (arrived : List α) (hx : x ≠ z) (hy : y ≠ z) :
    (arrived.erase z).idxOf x < (arrived.erase z).idxOf y ↔ arrived.idxOf x < arrived.idxOf y := by
  induction arrived with
  | nil => simp
  | cons a arrived ih =>
    by_cases haz : a = z
    · subst haz
      rw [List.erase_cons_head, List.idxOf_cons_ne _ hx.symm, List.idxOf_cons_ne _ hy.symm]
      omega
    · rw [List.erase_cons_tail (by simpa using haz)]
      by_cases hax : a = x
      · subst hax
        by_cases hay : a = y
        · simp [hay]
        · simp [List.idxOf_cons_ne _ hay]
      · by_cases hay : a = y
        · subst hay
          simp
        · simp only [List.idxOf_cons_ne _ hax, List.idxOf_cons_ne _ hay]
          omega

theorem precedes_erase_iff (hx : x ≠ z) (hy : y ≠ z) :
    Precedes key (arrived.erase z) x y ↔ Precedes key arrived x y := by
  simp only [Precedes, idxOf_erase_lt_iff arrived hx hy]

theorem ahead_erase_perm (hnd : arrived.Nodup) (hz : z ∈ arrived) (hzy : Precedes key arrived z y) (hne : y ≠ z) :
    (ahead key arrived y).Perm (z :: ahead key (arrived.erase z) y) := by
  have hsplit : (ahead key arrived y).Perm ((z :: arrived.erase z).filter fun x => Precedes key arrived x y) :=
    (List.perm_cons_erase hz).filter _
  rw [List.filter_cons_of_pos (by simpa using hzy)] at hsplit
  refine hsplit.trans (.of_eq (congrArg _ (List.filter_congr fun x hx => ?_)))
  have hxz : x ≠ z := by
    rintro rfl
    exact hnd.not_mem_erase hx
  simp only [precedes_erase_iff hxz hne]

end Ahead

end SplitSched
