import Mathlib

/-!
# SplitSched.Lib.Placement

Items spread over a family of lists. `Placed A f` says that the lists `f i` together hold the items
of `A`, each of them on one list, once.

* `Placed.push`: a new item joins the end of a list.
* `Placed.erase`: an item leaves its list.
* `Placed.move`: a leading part of one list moves to the end of another.
* `Placed.count_eq_one`, `Placed.not_mem`: an item that is on a list is there once, and nowhere
  else.

The changed family is given pointwise, so a program that changes its lists in several steps, or
changes other things besides, needs no rewriting to use these rules.
-/

namespace SplitSched

variable {ι α : Type} {A B : α → Prop} {f g : ι → List α} {x : α} {i j : ι}

structure Placed (A : α → Prop) (f : ι → List α) : Prop where
  nodup : ∀ i, (f i).Nodup
  once : ∀ {i j x}, x ∈ f i → x ∈ f j → i = j
  all : ∀ x, A x ↔ ∃ i, x ∈ f i

namespace Placed

theorem nil (hf : ∀ i, f i = []) : Placed (fun _ => False) f where
  nodup i := by simp [hf]
  once h := by simp [hf] at h
  all x := by simp [hf]

theorem not_mem (h : Placed A f) (hx : x ∈ f i) (hj : j ≠ i) : x ∉ f j :=
  fun hx' => hj (h.once hx' hx)

theorem count_eq_one [DecidableEq α] (h : Placed A f) (hx : x ∈ f i) : (f i).count x = 1 :=
  List.count_eq_one_of_mem (h.nodup i) hx

variable [DecidableEq ι]

theorem push (h : Placed A f) (hx : ¬ A x)
    (hg : ∀ k, g k = if k = i then f i ++ [x] else f k) (hB : ∀ y, B y ↔ A y ∨ y = x) :
    Placed B g := by
  have hnew : ∀ k, x ∉ f k := fun k hk => hx ((h.all x).mpr ⟨k, hk⟩)
  have hmem : ∀ k y, y ∈ g k ↔ y ∈ f k ∨ (k = i ∧ y = x) := by
    intro k y
    rw [hg]
    split
    · rename_i e
      simp [e]
    · rename_i e
      simp [e]
  constructor
  · intro k
    rw [hg]
    split
    · exact List.nodup_append.mpr ⟨h.nodup i, List.nodup_singleton x, fun a ha b hb e =>
        hnew i (List.mem_singleton.mp hb ▸ e ▸ ha)⟩
    · exact h.nodup k
  · intro k k' y hy hy'
    rcases (hmem k y).mp hy with hk | ⟨rfl, rfl⟩
    · rcases (hmem k' y).mp hy' with hk' | ⟨rfl, rfl⟩
      · exact h.once hk hk'
      · exact absurd hk (hnew k)
    · rcases (hmem k' y).mp hy' with hk' | ⟨rfl, -⟩
      · exact absurd hk' (hnew k')
      · rfl
  · intro y
    rw [hB, h.all]
    constructor
    · rintro (⟨k, hk⟩ | rfl)
      · exact ⟨k, (hmem k y).mpr (.inl hk)⟩
      · exact ⟨i, (hmem i y).mpr (.inr ⟨rfl, rfl⟩)⟩
    · rintro ⟨k, hk⟩
      rcases (hmem k y).mp hk with hk | ⟨-, rfl⟩
      · exact .inl ⟨k, hk⟩
      · exact .inr rfl

theorem erase [DecidableEq α] (h : Placed A f) (hx : x ∈ f i)
    (hg : ∀ k, g k = if k = i then (f i).erase x else f k) (hB : ∀ y, B y ↔ A y ∧ y ≠ x) :
    Placed B g := by
  have hmem : ∀ k y, y ∈ g k ↔ y ∈ f k ∧ y ≠ x := by
    intro k y
    rw [hg]
    split
    · rename_i e
      rw [e, (h.nodup i).mem_erase_iff, and_comm]
    · rename_i e
      exact ⟨fun hy => ⟨hy, fun hyx => h.not_mem hx e (hyx ▸ hy)⟩, fun hy => hy.1⟩
  constructor
  · intro k
    rw [hg]
    split
    · exact (h.nodup i).erase x
    · exact h.nodup k
  · intro k k' y hy hy'
    exact h.once ((hmem k y).mp hy).1 ((hmem k' y).mp hy').1
  · intro y
    rw [hB, h.all]
    constructor
    · rintro ⟨⟨k, hk⟩, hne⟩
      exact ⟨k, (hmem k y).mpr ⟨hk, hne⟩⟩
    · rintro ⟨k, hk⟩
      exact ⟨⟨k, ((hmem k y).mp hk).1⟩, ((hmem k y).mp hk).2⟩

theorem move (h : Placed A f) (xs rest : List α) (hij : i ≠ j) (hf : f i = xs ++ rest)
    (hg : ∀ k, g k = if k = i then rest else if k = j then f j ++ xs else f k) : Placed A g := by
  have hnd := h.nodup i
  rw [hf, List.nodup_append] at hnd
  obtain ⟨hxs, hrest, hdis⟩ := hnd
  have hmem : ∀ k y, y ∈ g k ↔ (y ∈ f k ∧ ¬ (k = i ∧ y ∈ xs)) ∨ (k = j ∧ y ∈ xs) := by
    intro k y
    rw [hg]
    split
    · rename_i e
      subst e
      have : y ∈ rest → y ∉ xs := fun hy hy' => hdis y hy' y hy rfl
      simp only [hf, List.mem_append, true_and, hij, false_and, or_false]
      tauto
    · rename_i e
      split
      · rename_i e'
        simp [e', hij.symm]
      · rename_i e'
        simp [e, e']
  have hin : ∀ y ∈ xs, y ∈ f i := fun y hy => hf ▸ List.mem_append_left rest hy
  constructor
  · intro k
    rw [hg]
    split
    · exact hrest
    · split
      · exact List.nodup_append.mpr ⟨h.nodup j, hxs, fun a ha b hb e =>
          hij (h.once (hin b hb) (e ▸ ha))⟩
      · exact h.nodup k
  · intro k k' y hy hy'
    rcases (hmem k y).mp hy with ⟨hk, hn⟩ | ⟨rfl, hk⟩
    · rcases (hmem k' y).mp hy' with ⟨hk', -⟩ | ⟨rfl, hk'⟩
      · exact h.once hk hk'
      · exact absurd ⟨h.once hk (hin y hk'), hk'⟩ hn
    · rcases (hmem k' y).mp hy' with ⟨hk', hn'⟩ | ⟨rfl, -⟩
      · exact absurd ⟨h.once hk' (hin y hk), hk⟩ hn'
      · rfl
  · intro y
    rw [h.all]
    constructor
    · rintro ⟨k, hk⟩
      by_cases hy : k = i ∧ y ∈ xs
      · exact ⟨j, (hmem j y).mpr (.inr ⟨rfl, hy.2⟩)⟩
      · exact ⟨k, (hmem k y).mpr (.inl ⟨hk, hy⟩)⟩
    · rintro ⟨k, hk⟩
      rcases (hmem k y).mp hk with ⟨hk, -⟩ | ⟨-, hy⟩
      · exact ⟨k, hk⟩
      · exact ⟨i, hin y hy⟩

end Placed
end SplitSched
