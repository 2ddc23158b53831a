import Mathlib

/-!
# SplitSched.Lib.Registry

A registry: records found by key and created on demand, with the keys in the order in which a walk
over the records visits them. The two indexes agree by construction: a `Registry` carries the proof
that its keys are pairwise distinct and are exactly the keys that are found.

* `insert`: add a record under a new key, at the place a `Placing` puts it.
* `modify`, `map`: change one record, or all of them.
* `All p`: every record has `p`.
* `val g d k`: what `g` reads off the record of `k`, with `d` where there is none. A record that is
  created with the value `d` does not change `val` (`val_insert`), so a proof about `val` never has
  to know which records exist.
-/

namespace SplitSched

/-- Where a new key goes in the walk order. -/
structure Placing (κ : Type) where
  place : κ → List κ → List κ
  perm : ∀ k l, (place k l).Perm (k :: l)

namespace Placing

variable {κ : Type}

/-- At the tail of the list. -/
def tail : Placing κ where
  place k l := l ++ [k]
  perm k l := List.perm_append_singleton k l

/-- Before the first key of the same or a higher rank. -/
def byRank (rank : κ → Nat) : Placing κ where
  place k l := l.orderedInsert (fun x y => rank x ≤ rank y) k
  perm k l := List.perm_orderedInsert _ k l

end Placing

structure Registry (κ α : Type) where
  keys : List κ
  find : κ → Option α
  nodup : keys.Nodup
  dom : ∀ k, (find k).isSome = true ↔ k ∈ keys

namespace Registry

variable {κ α β : Type}

def empty : Registry κ α where
  keys := []
  find _ := none
  nodup := List.nodup_nil
  dom k := by simp

/-- What `g` reads off the record of `k`, or `d` where there is no record. -/
def val (R : Registry κ α) (g : α → β) (d : β) (k : κ) : β := ((R.find k).map g).getD d

theorem find_eq_none {R : Registry κ α} {k : κ} (h : k ∉ R.keys) : R.find k = none := by
  rw [← R.dom k] at h
  simpa using h

theorem find_eq_some {R : Registry κ α} {k : κ} (h : k ∈ R.keys) : ∃ a, R.find k = some a :=
  Option.isSome_iff_exists.mp ((R.dom k).mpr h)

theorem val_of_not_mem {R : Registry κ α} {g : α → β} {d : β} {k : κ} (h : k ∉ R.keys) :
    R.val g d k = d := by
  simp [val, find_eq_none h]

@[simp] theorem val_empty (g : α → β) (d : β) (k : κ) : (empty : Registry κ α).val g d k = d := rfl

/-- Change every record. -/
def map (R : Registry κ α) (f : α → α) : Registry κ α where
  keys := R.keys
  find k := (R.find k).map f
  nodup := R.nodup
  dom j := by simp [R.dom j]

@[simp] theorem keys_map (R : Registry κ α) (f : α → α) : (R.map f).keys = R.keys := rfl

theorem val_map {R : Registry κ α} {f : α → α} {g : α → β} {d : β} {φ : β → β}
    (hf : ∀ a, g (f a) = φ (g a)) (hd : φ d = d) (k : κ) :
    (R.map f).val g d k = φ (R.val g d k) := by
  cases h : R.find k <;> simp [map, val, h, hf, hd]

theorem val_map_keep {R : Registry κ α} {f : α → α} {g : α → β} {d : β}
    (hf : ∀ a, g (f a) = g a) : (R.map f).val g d = R.val g d := by
  funext k
  exact val_map (φ := id) hf rfl k

theorem val_comp {γ : Type} (R : Registry κ α) (h : β → γ) (g : α → β) (d : β) (k : κ) :
    R.val (fun a => h (g a)) (h d) k = h (R.val g d k) := by
  cases hk : R.find k <;> simp [val, hk]

theorem val_map_rel {R : Registry κ α} {f : α → α} {g : α → β} {r : β → β → Prop}
    (hr : ∀ x, r x x) (hf : ∀ a, r (g a) (g (f a))) (d : β) (k : κ) :
    r (R.val g d k) ((R.map f).val g d k) := by
  cases h : R.find k with
  | none => simpa [map, val, h] using hr d
  | some a => simpa [map, val, h] using hf a

/-- Every record has `p`. -/
def All (R : Registry κ α) (p : α → Prop) : Prop := ∀ k a, R.find k = some a → p a

theorem All.map {R : Registry κ α} {p q : α → Prop} {f : α → α} (h : R.All p)
    (hf : ∀ a, p a → q (f a)) : (R.map f).All q := by
  intro k a ha
  obtain ⟨b, hb, rfl⟩ := Option.map_eq_some_iff.mp ha
  exact hf b (h k b hb)

section Ops

variable [DecidableEq κ]

/-- Add record `a` under the key `k`; a key that is already there keeps its record. -/
def insert (p : Placing κ) (R : Registry κ α) (k : κ) (a : α) : Registry κ α :=
  if h : k ∈ R.keys then R
  else
    { keys := p.place k R.keys
      find := Function.update R.find k (some a)
      nodup := (p.perm k R.keys).nodup_iff.mpr (List.nodup_cons.mpr ⟨h, R.nodup⟩)
      dom := fun j => by
        rw [(p.perm k R.keys).mem_iff, List.mem_cons]
        by_cases hj : j = k
        · subst hj; simp
        · simp [hj, R.dom j] }

/-- Change the record of `k`, if there is one. -/
def modify (R : Registry κ α) (k : κ) (f : α → α) : Registry κ α where
  keys := R.keys
  find := Function.update R.find k ((R.find k).map f)
  nodup := R.nodup
  dom j := by
    by_cases hj : j = k
    · subst hj; simp [R.dom j]
    · simp [hj, R.dom j]

@[simp] theorem keys_modify (R : Registry κ α) (k : κ) (f : α → α) :
    (R.modify k f).keys = R.keys := rfl

theorem keys_insert {p : Placing κ} {R : Registry κ α} {k : κ} (h : k ∉ R.keys) (a : α) :
    (R.insert p k a).keys = p.place k R.keys := by
  simp [insert, h]

theorem mem_keys_insert (p : Placing κ) (R : Registry κ α) (k : κ) (a : α) (j : κ) :
    j ∈ (R.insert p k a).keys ↔ j = k ∨ j ∈ R.keys := by
  by_cases h : k ∈ R.keys
  · simp only [insert, h, dite_true]
    exact ⟨Or.inr, fun hj => hj.elim (fun e => e ▸ h) id⟩
  · rw [keys_insert h, (p.perm k R.keys).mem_iff, List.mem_cons]

/-- Creating a record that reads as the default changes nothing that is read. -/
theorem val_insert {p : Placing κ} {R : Registry κ α} {k : κ} {a : α} {g : α → β} {d : β}
    (h : g a = d) : (R.insert p k a).val g d = R.val g d := by
  funext j
  by_cases hk : k ∈ R.keys
  · simp [insert, hk]
  · by_cases hj : j = k
    · subst hj
      simp [insert, hk, val, find_eq_none hk, h]
    · simp [insert, hk, val, hj]

theorem All.insert {pl : Placing κ} {R : Registry κ α} {k : κ} {a : α} {p : α → Prop} (h : R.All p)
    (ha : p a) : (R.insert pl k a).All p := by
  intro j b hb
  by_cases hk : k ∈ R.keys
  · simp only [Registry.insert, hk, dite_true] at hb
    exact h j b hb
  · simp only [Registry.insert, hk, dite_false] at hb
    by_cases hj : j = k
    · subst hj
      simp only [Function.update_self, Option.some.injEq] at hb
      exact hb ▸ ha
    · rw [Function.update_of_ne hj] at hb
      exact h j b hb

theorem All.modify {R : Registry κ α} {k : κ} {f : α → α} {p : α → Prop} (h : R.All p)
    (hf : ∀ a, R.find k = some a → p (f a)) : (R.modify k f).All p := by
  intro j b hb
  by_cases hj : j = k
  · subst hj
    simp only [Registry.modify, Function.update_self] at hb
    obtain ⟨a, ha, rfl⟩ := Option.map_eq_some_iff.mp hb
    exact hf a ha
  · simp only [Registry.modify, Function.update_of_ne hj] at hb
    exact h j b hb

@[simp] theorem val_modify_self (R : Registry κ α) (k : κ) (f : α → α) (g : α → β) (d : β) :
    (R.modify k f).val g d k = R.val (fun a => g (f a)) d k := by
  simp [modify, val, Function.comp_def]

theorem val_modify_of_ne (R : Registry κ α) {j k : κ} (h : j ≠ k) (f : α → α) (g : α → β) (d : β) :
    (R.modify k f).val g d j = R.val g d j := by
  simp [modify, val, h]

theorem val_modify_of_find {R : Registry κ α} {k : κ} {a : α} (ha : R.find k = some a) (f : α → α)
    (g : α → β) (d : β) : (R.modify k f).val g d = Function.update (R.val g d) k (g (f a)) := by
  funext j
  by_cases hj : j = k
  · subst hj
    rw [val_modify_self, Function.update_self]
    simp [val, ha]
  · simp [val_modify_of_ne, hj]

theorem val_modify_rel {R : Registry κ α} {k : κ} {f : α → α} {g : α → β} {r : β → β → Prop}
    (hr : ∀ x, r x x) (hf : ∀ a, r (g a) (g (f a))) (d : β) (j : κ) :
    r (R.val g d j) ((R.modify k f).val g d j) := by
  by_cases hj : j = k
  · subst hj
    cases h : R.find j with
    | none => simpa [modify, val, h] using hr d
    | some a => simpa [modify, val, h] using hf a
  · simpa [modify, val, hj] using hr _

/-- Changing a record changes what is read at its key only. -/
theorem val_modify {R : Registry κ α} {k : κ} {f : α → α} {g : α → β} {d : β} {φ : β → β}
    (hk : k ∈ R.keys) (hf : ∀ a, g (f a) = φ (g a)) :
    (R.modify k f).val g d = Function.update (R.val g d) k (φ (R.val g d k)) := by
  obtain ⟨a, ha⟩ := find_eq_some hk
  rw [val_modify_of_find ha, hf]
  simp [val, ha]

/-- What every value satisfies, every value satisfies after a change that keeps it. -/
theorem forall_val_modify {R : Registry κ α} {k : κ} {f : α → α} {g : α → β} {d : β} {p : β → Prop}
    (h : ∀ j, p (R.val g d j)) (hf : ∀ a, p (g a) → p (g (f a))) (j : κ) :
    p ((R.modify k f).val g d j) := by
  have hj := h j
  by_cases hjk : j = k
  · subst hjk
    rw [val_modify_self]
    cases hfind : R.find j with
    | none => simpa [val, hfind] using hj
    | some a => simpa [val, hfind] using hf a (by simpa [val, hfind] using hj)
  · rwa [val_modify_of_ne R hjk]

/-- A change that `g` does not see. -/
theorem val_modify_keep {R : Registry κ α} {k : κ} {f : α → α} {g : α → β} {d : β}
    (hf : ∀ a, g (f a) = g a) : (R.modify k f).val g d = R.val g d := by
  funext j
  by_cases hj : j = k
  · subst hj; simp [hf]
  · simp [val_modify_of_ne, hj]

end Ops

end Registry
end SplitSched
