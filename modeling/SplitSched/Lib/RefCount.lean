import Mathlib.Data.List.AList
import Mathlib.Data.Multiset.AddSub
import Mathlib.Algebra.BigOperators.Group.Multiset.Defs
import Mathlib.Algebra.Order.Group.Multiset
import Mathlib.Tactic.Abel

/-!
# SplitSched.Lib.RefCount

Reference counting. Objects are named in the order of their allocation, so no name is used twice. A
reference is a pointer that its holder may give back; the references that exist are a multiset of
objects.

* `Krefs`: the count of every object, whether it exists, and how often it was released.
* `Krefs.Balanced c refs`: the count of every object is the number of references to it, and an object
  exists as long as there is one. The rules say how the two change together: `alloc`, `get`, `put`,
  `putAll`, `discard`.
* `contents`: all references in a finite table of holders, and what an update does to them.
-/

namespace SplitSched

structure Krefs where
  /-- Objects below `next` have been allocated. -/
  next : Nat
  count : Nat → Int
  live : Nat → Bool
  /-- How often the release function was called. -/
  releases : Nat → Nat

namespace Krefs

def empty : Krefs := ⟨0, fun _ => 0, fun _ => false, fun _ => 0⟩

/-- The next object comes to exist, with a count of 1. -/
def alloc (c : Krefs) : Krefs :=
  { c with
    next := c.next + 1
    count := Function.update c.count c.next 1
    live := Function.update c.live c.next true }

def get (c : Krefs) (k : Nat) : Krefs := { c with count := Function.update c.count k (c.count k + 1) }

def drop (c : Krefs) (k : Nat) : Krefs := { c with count := Function.update c.count k (c.count k - 1) }

/-- The object goes away without a call of the release function. -/
def discard (c : Krefs) (k : Nat) : Krefs := { c with live := Function.update c.live k false }

def release (c : Krefs) (k : Nat) : Krefs :=
  { c.discard k with releases := Function.update c.releases k (c.releases k + 1) }

/-- Give one reference back; the last one releases the object. -/
def put (c : Krefs) (k : Nat) : Krefs :=
  if (c.drop k).count k = 0 then (c.drop k).release k else c.drop k

structure Balanced (c : Krefs) (refs : Multiset Nat) : Prop where
  count : ∀ k, c.live k = true → c.count k = refs.count k
  live_iff : ∀ k, c.live k = true ↔ k ∈ refs
  fresh : ∀ k, c.next ≤ k → c.live k = false ∧ c.releases k = 0
  once : ∀ k, c.releases k = 0 ∨ c.releases k = 1 ∧ c.live k = false

variable {c : Krefs} {refs : Multiset Nat} {k : Nat}

theorem empty_balanced : empty.Balanced 0 :=
  ⟨fun _ h => (by cases h), fun _ => by simp [empty], fun _ _ => ⟨rfl, rfl⟩, fun _ => .inl rfl⟩

namespace Balanced

theorem releases_le_one (h : c.Balanced refs) (k : Nat) : c.releases k ≤ 1 := by
  rcases h.once k with h0 | h1
  · omega
  · omega

theorem releases_of_live (h : c.Balanced refs) (hk : c.live k = true) : c.releases k = 0 := by
  rcases h.once k with h0 | ⟨-, hdead⟩
  · exact h0
  · rw [hk] at hdead
    cases hdead

theorem next_notMem (h : c.Balanced refs) : c.next ∉ refs := by
  rw [← h.live_iff, (h.fresh _ le_rfl).1]
  simp

theorem lt_next (h : c.Balanced refs) (hk : k ∈ refs) : k < c.next := by
  have hlive := (h.live_iff k).mpr hk
  by_contra hge
  rw [(h.fresh k (not_lt.mp hge)).1] at hlive
  cases hlive

theorem alloc (h : c.Balanced refs) : c.alloc.Balanced (c.next ::ₘ refs) := by
  have hnew := h.next_notMem
  refine ⟨fun k hk => ?_, fun k => ?_, fun k hk => ?_, fun k => ?_⟩
  · by_cases hkn : k = c.next
    · subst hkn
      simp [Krefs.alloc, Multiset.count_eq_zero_of_notMem hnew]
    · simp only [Krefs.alloc, Function.update_of_ne hkn, Multiset.count_cons_of_ne hkn] at hk ⊢
      exact h.count k hk
  · by_cases hkn : k = c.next
    · simp [Krefs.alloc, hkn]
    · simp [Krefs.alloc, hkn, h.live_iff]
  · have hkn : k ≠ c.next := by
      simp only [Krefs.alloc] at hk
      omega
    simp only [Krefs.alloc, Function.update_of_ne hkn] at hk ⊢
    exact h.fresh k (by omega)
  · by_cases hkn : k = c.next
    · exact .inl (hkn ▸ (h.fresh _ le_rfl).2)
    · simp only [Krefs.alloc, Function.update_of_ne hkn]
      exact h.once k

theorem get (h : c.Balanced refs) (hk : k ∈ refs) : (c.get k).Balanced (k ::ₘ refs) := by
  refine ⟨fun j hj => ?_, fun j => ?_, h.fresh, h.once⟩
  · have hc := h.count j hj
    by_cases hjk : j = k
    · subst hjk
      simp [Krefs.get, hc]
    · simp [Krefs.get, hjk, hc]
  · rw [Multiset.mem_cons]
    constructor
    · intro hj
      exact .inr ((h.live_iff j).mp hj)
    · rintro (rfl | hj)
      · exact (h.live_iff j).mpr hk
      · exact (h.live_iff j).mpr hj

/-- An object with a single reference goes away with it; whatever happens to its count. -/
theorem remove {c' : Krefs} (h : c.Balanced (k ::ₘ refs)) (hk : k ∉ refs) (hnext : c'.next = c.next)
    (hlive : c'.live = Function.update c.live k false)
    (hother : ∀ j, j ≠ k → c'.count j = c.count j ∧ c'.releases j = c.releases j)
    (hself : c'.releases k ≤ 1) : c'.Balanced refs := by
  have hdead : c'.live k = false := by simp [hlive]
  have hsame : ∀ j, j ≠ k → c'.live j = c.live j := by
    intro j hj
    simp [hlive, hj]
  have hold : k < c.next := h.lt_next (Multiset.mem_cons_self k refs)
  refine ⟨fun j hj => ?_, fun j => ?_, fun j hj => ?_, fun j => ?_⟩
  · have hjk : j ≠ k := by
      rintro rfl
      rw [hdead] at hj
      cases hj
    rw [hsame j hjk] at hj
    rw [(hother j hjk).1, h.count j hj, Multiset.count_cons_of_ne hjk]
  · by_cases hjk : j = k
    · simp [hjk, hdead, hk]
    · rw [hsame j hjk, h.live_iff, Multiset.mem_cons, or_iff_right hjk]
  · have hjk : j ≠ k := by omega
    rw [hsame j hjk, (hother j hjk).2]
    exact h.fresh j (hnext ▸ hj)
  · by_cases hjk : j = k
    · subst hjk
      rcases Nat.le_one_iff_eq_zero_or_eq_one.mp hself with h0 | h1
      · exact .inl h0
      · exact .inr ⟨h1, hdead⟩
    · rw [hsame j hjk, (hother j hjk).2]
      exact h.once j

theorem discard (h : c.Balanced (k ::ₘ refs)) (hk : k ∉ refs) : (c.discard k).Balanced refs :=
  h.remove hk rfl rfl (fun _ _ => ⟨rfl, rfl⟩) (h.releases_le_one k)

theorem put (h : c.Balanced (k ::ₘ refs)) : (c.put k).Balanced refs := by
  have hlive : c.live k = true := (h.live_iff k).mpr (Multiset.mem_cons_self k refs)
  have hcount : (c.drop k).count k = refs.count k := by
    simp [Krefs.drop, h.count k hlive]
  have hother : ∀ j, j ≠ k → (c.drop k).count j = c.count j := by
    intro j hj
    simp [Krefs.drop, hj]
  unfold Krefs.put
  by_cases hk : k ∈ refs
  · have hpos := Multiset.count_pos.mpr hk
    rw [if_neg (by omega)]
    refine ⟨fun j hj => ?_, fun j => ?_, h.fresh, h.once⟩
    · by_cases hjk : j = k
      · rw [hjk, hcount]
      · rw [hother j hjk, h.count j hj, Multiset.count_cons_of_ne hjk]
    · refine (h.live_iff j).trans (Multiset.mem_cons.trans ⟨?_, .inr⟩)
      rintro (rfl | hj)
      · exact hk
      · exact hj
  · -- the last reference
    have hzero := Multiset.count_eq_zero_of_notMem hk
    rw [if_pos (by omega)]
    refine h.remove hk rfl rfl (fun j hj => ⟨hother j hj, ?_⟩) ?_
    · simp [Krefs.release, Krefs.discard, Krefs.drop, hj]
    · simp [Krefs.release, Krefs.discard, Krefs.drop, h.releases_of_live hlive]

theorem putAll (ks : List Nat) : ∀ {c : Krefs}, c.Balanced (ks + refs) →
    (ks.foldl Krefs.put c).Balanced refs := by
  induction ks with
  | nil =>
    intro c h
    simpa using h
  | cons k ks ih =>
    intro c h
    rw [List.foldl_cons]
    rw [← Multiset.cons_coe, Multiset.cons_add] at h
    exact ih h.put

end Balanced

end Krefs

/-! ## Tables of holders -/

section

variable {κ α : Type} [DecidableEq κ] {β : Type}

/-- The references of all holders in a table. -/
def contents (f : α → List β) (t : AList fun _ : κ => α) : Multiset β :=
  (t.entries.flatMap fun e => f e.2 : List β)

variable {f : α → List β}

theorem contents_insert {t : AList fun _ : κ => α} {a : κ} {b : α} :
    contents f (t.insert a b) = f b + contents f (t.erase a) := rfl

theorem contents_erase (t : AList fun _ : κ => α) (a : κ) :
    contents f t = ((t.lookup a).elim [] f : List β) + contents f (t.erase a) := by
  cases h : t.lookup a with
  | none =>
    have hrest : (t.erase a).entries = t.entries :=
      List.kerase_of_notMem_keys (AList.lookup_eq_none.mp h)
    unfold contents
    rw [hrest]
    simp
  | some b =>
    have hmem : ⟨a, b⟩ ∈ t.entries := AList.mem_lookup_iff.mp h
    obtain ⟨b', l₁, l₂, -, hsplit, herase⟩ :=
      List.exists_of_kerase (List.mem_keys_of_mem hmem)
    have hb : b' = b := by
      have hb' : t.lookup a = some b' := AList.mem_lookup_iff.mpr (by simp [hsplit])
      rw [h] at hb'
      exact (Option.some.inj hb').symm
    subst hb
    have hrest : (t.erase a).entries = l₁ ++ l₂ := herase
    unfold contents
    rw [hrest, hsplit]
    simp only [Option.elim_some, List.flatMap_append, List.flatMap_cons, ← Multiset.coe_add]
    abel

end

end SplitSched
