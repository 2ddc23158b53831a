import Mathlib

/-!
# SplitSched.Lib.Outstanding

Items that were handed out and have not come back: `outstanding items back` lists the `items` that
are not in `back`. Items are handed out by `outstanding_append` and come back, one at a time, by
`length_outstanding_back`. For amounts outstanding on the elements of a set, `sum_change` says how
their sum changes.
-/

namespace SplitSched

variable {α : Type} [DecidableEq α] {items back new : List α} {x : α}

def outstanding (items back : List α) : List α := items.filter (· ∉ back)

theorem mem_outstanding : x ∈ outstanding items back ↔ x ∈ items ∧ x ∉ back := by
  simp [outstanding]

@[simp] theorem outstanding_nil (back : List α) : outstanding [] back = [] := rfl

theorem outstanding_eq_nil : outstanding items back = [] ↔ ∀ x ∈ items, x ∈ back := by
  simp [outstanding]

theorem outstanding_eq_self (h : ∀ x ∈ items, x ∉ back) : outstanding items back = items :=
  List.filter_eq_self.mpr fun x hx => by simpa using h x hx

/-- New items are handed out. -/
theorem outstanding_append (h : ∀ x ∈ new, x ∉ back) :
    outstanding (items ++ new) back = outstanding items back ++ new := by
  rw [outstanding, List.filter_append, ← outstanding, ← outstanding, outstanding_eq_self h]

/-- An item comes back that was not handed out here. -/
theorem outstanding_back_of_not_mem (h : x ∉ items) :
    outstanding items (back ++ [x]) = outstanding items back := by
  refine List.filter_congr fun y hy => ?_
  have hne : y ≠ x := fun e => h (e ▸ hy)
  simp [hne]

theorem outstanding_back : outstanding items (back ++ [x]) = (outstanding items back).filter (· ≠ x) := by
  rw [outstanding, outstanding, List.filter_filter]
  refine List.filter_congr fun y _ => ?_
  by_cases hy : y = x <;> simp [hy]

/-- An item comes back. -/
theorem length_outstanding_back (hn : items.Nodup) (hx : x ∈ items) (hb : x ∉ back) :
    (outstanding items (back ++ [x])).length + 1 = (outstanding items back).length := by
  have hmem : x ∈ outstanding items back := mem_outstanding.mpr ⟨hx, hb⟩
  have herase : outstanding items (back ++ [x]) = (outstanding items back).erase x := by
    have hnd : (outstanding items back).Nodup := hn.filter _
    rw [outstanding_back, hnd.erase_eq_filter]
    refine List.filter_congr fun y _ => ?_
    by_cases hy : y = x <;> simp [hy]
  rw [herase, List.length_erase_of_mem hmem]
  have := List.length_pos_of_mem hmem
  omega

/-- A sum over a set changes by what happens at one element. -/
theorem sum_change {D D' : Finset Nat} {f g : Nat → Int} {l : Nat}
    (hD : ∀ l', l' ≠ l → (l' ∈ D' ↔ l' ∈ D)) (hfg : ∀ l', l' ≠ l → g l' = f l') :
    ∑ l' ∈ D', g l' =
      ∑ l' ∈ D, f l' + ((if l ∈ D' then g l else 0) - if l ∈ D then f l else 0) := by
  have split_off : ∀ (E : Finset Nat) (h : Nat → Int),
      ∑ l' ∈ E, h l' = ∑ l' ∈ E.erase l, h l' + if l ∈ E then h l else 0 := by
    intro E h
    by_cases hl : l ∈ E
    · rw [if_pos hl, Finset.sum_erase_add E h hl]
    · rw [if_neg hl, Finset.erase_eq_of_notMem hl, add_zero]
  have herase : D'.erase l = D.erase l := by
    ext l'
    simp only [Finset.mem_erase]
    exact and_congr_right fun hl => hD l' hl
  have hrest : ∑ l' ∈ D.erase l, g l' = ∑ l' ∈ D.erase l, f l' :=
    Finset.sum_congr rfl fun l' hl => hfg l' (Finset.ne_of_mem_erase hl)
  rw [split_off D' g, split_off D f, herase, hrest]
  ring

end SplitSched
