import Mathlib

/-!
# SplitSched.Lib.Sweep

A head that visits segments of a line. A segment costs its length and the distance from where the head is
to where the segment starts, up to a cap.

* `Sweep.cost`: the cost of visiting a list of segments in its order.
* `cost_le`, `abs_cost_sub_le`: bounds that hold for any order.
* `Ordered`: each segment ends before the next one starts. Then the cost is the sum of the lengths and of
  the capped gaps (`cost_eq_gaps`).
* `paid`, `cost_eq_ncard`: the cost of an ordered list counts the points that are covered, or follow a
  covered point closely. So it depends on the covered points only, not on how they are cut into segments.
* `ncard_paid_le_add`: to visit the points of two lists costs no more than one visit for each of them, and one
  move from the one to the other.
-/

namespace SplitSched

/-- Segments, and the largest distance that is paid for. -/
structure Sweep (α : Type) where
  start : α → ℤ
  len : α → ℤ
  cap : ℤ
  cap_nonneg : 0 ≤ cap

namespace Sweep

variable {α : Type} (S : Sweep α)

def stop (x : α) : ℤ := S.start x + S.len x

/-- What it costs to move the head. -/
def move (head pos : ℤ) : ℤ := min |head - pos| S.cap

def cost : ℤ → List α → ℤ
  | _, [] => 0
  | head, x :: xs => S.len x + S.move head (S.start x) + cost (S.stop x) xs

/-- Where the head is after the visit. -/
def final : ℤ → List α → ℤ
  | head, [] => head
  | _, x :: xs => final (S.stop x) xs

variable {S} {x y : α} {xs ys : List α} {head head' p : ℤ}

theorem move_nonneg (head p : ℤ) : 0 ≤ S.move head p := le_min (abs_nonneg _) S.cap_nonneg

theorem move_le (head p : ℤ) : S.move head p ≤ S.cap := min_le_right _ _

@[simp] theorem move_self (p : ℤ) : S.move p p = 0 := by
  simp [move, S.cap_nonneg]

theorem cost_append (xs ys : List α) : ∀ head,
    S.cost head (xs ++ ys) = S.cost head xs + S.cost (S.final head xs) ys := by
  induction xs with
  | nil => exact fun head => (zero_add _).symm
  | cons x xs ih =>
    intro head
    simp only [List.cons_append, cost, final, ih]
    ring

theorem cost_nonneg (h : ∀ x ∈ xs, 0 ≤ S.len x) (head : ℤ) : 0 ≤ S.cost head xs := by
  induction xs generalizing head with
  | nil => exact le_rfl
  | cons x xs ih =>
    obtain ⟨hx, hxs⟩ := List.forall_mem_cons.mp h
    have hmove := S.move_nonneg head (S.start x)
    have hrest := ih hxs (S.stop x)
    simp only [cost]
    omega

theorem cost_le (head : ℤ) (xs : List α) :
    S.cost head xs ≤ (xs.map S.len).sum + xs.length * S.cap := by
  induction xs generalizing head with
  | nil => simp [cost]
  | cons x xs ih =>
    have hmove := S.move_le head (S.start x)
    have hrest := ih (S.stop x)
    simp only [cost, List.map_cons, List.sum_cons, List.length_cons]
    push_cast
    linarith

/-- The head's first position matters for one move. -/
theorem abs_cost_sub_le (head head' : ℤ) (xs : List α) :
    |S.cost head xs - S.cost head' xs| ≤ S.cap := by
  cases xs with
  | nil => simpa [cost] using S.cap_nonneg
  | cons x xs =>
    have h := S.move_nonneg head (S.start x)
    have h' := S.move_nonneg head' (S.start x)
    have hle := S.move_le head (S.start x)
    have hle' := S.move_le head' (S.start x)
    simp only [cost]
    rw [abs_le]
    constructor <;> linarith

/-- What a change of one length does to the cost. -/
theorem abs_cost_resize_le (hstart : S.start x = S.start y) (head : ℤ) (xs ys : List α) :
    |S.cost head (xs ++ x :: ys) - S.cost head (xs ++ y :: ys) - (S.len x - S.len y)| ≤ S.cap := by
  refine le_of_eq_of_le (congrArg _ ?_) (abs_cost_sub_le (S.stop x) (S.stop y) ys)
  simp only [cost_append, cost, hstart]
  ring

/-! ## Segments that do not overlap -/

variable (S)

/-- One of two segments ends before the other starts. -/
def Apart (x y : α) : Prop := S.stop x ≤ S.start y ∨ S.stop y ≤ S.start x

instance (x y : α) : Decidable (S.Apart x y) :=
  inferInstanceAs (Decidable (S.stop x ≤ S.start y ∨ S.stop y ≤ S.start x))

structure Ordered (xs : List α) : Prop where
  pos : ∀ x ∈ xs, 0 < S.len x
  order : xs.Pairwise fun x y => S.stop x ≤ S.start y

/-- The distances between neighbours. -/
def gaps : List α → List ℤ
  | x :: y :: xs => (S.start y - S.stop x) :: gaps (y :: xs)
  | _ => []

variable {S}

theorem Apart.symm (h : S.Apart x y) : S.Apart y x := Or.symm h

/-- Sorting by the start brings segments that lie apart into order. -/
theorem Ordered.of_sorted (hpos : ∀ x ∈ xs, 0 < S.len x) (hapart : xs.Pairwise S.Apart)
    (hsorted : xs.Pairwise fun x y => S.start x ≤ S.start y) : S.Ordered xs := by
  refine ⟨hpos, (hapart.and hsorted).imp_of_mem ?_⟩
  rintro x y hx hy ⟨hxy | hyx, hle⟩
  · exact hxy
  · have hlen := hpos y hy
    unfold stop at hyx
    omega

theorem Ordered.tail (h : S.Ordered (x :: xs)) : S.Ordered xs :=
  ⟨fun y hy => h.pos y (List.mem_cons_of_mem x hy), h.order.of_cons⟩

theorem Ordered.stop_le (h : S.Ordered (x :: xs)) (hy : y ∈ xs) : S.stop x ≤ S.start y :=
  List.rel_of_pairwise_cons h.order hy

theorem cost_eq_gaps (h : S.Ordered (x :: xs)) : S.cost (S.start x) (x :: xs) =
    ((x :: xs).map S.len).sum + ((S.gaps (x :: xs)).map (min · S.cap)).sum := by
  induction xs generalizing x with
  | nil => simp [cost, gaps]
  | cons y xs ih =>
    have hrest := ih h.tail
    have hgap : S.move (S.stop x) (S.start y) = min (S.start y - S.stop x) S.cap := by
      have hle := h.stop_le List.mem_cons_self
      unfold move
      rw [abs_sub_comm, abs_of_nonneg (by omega)]
    simp only [cost, move_self, gaps, List.map_cons, List.sum_cons, hgap] at hrest ⊢
    linarith

/-! ## The points that are paid for -/

variable (S)

def covered (xs : List α) : Set ℤ := {p | ∃ x ∈ xs, S.start x ≤ p ∧ p < S.stop x}

/-- The covered points, and those that follow one closely and precede another. -/
def paid (xs : List α) : Set ℤ :=
  {p | (∃ q ∈ S.covered xs, q ≤ p ∧ p ≤ q + S.cap) ∧ ∃ q ∈ S.covered xs, p ≤ q}

variable {S}

theorem paid_congr (h : S.covered xs = S.covered ys) : S.paid xs = S.paid ys := by
  unfold paid
  rw [h]

theorem start_mem_covered (hx : x ∈ xs) (hpos : 0 < S.len x) : S.start x ∈ S.covered xs := by
  refine ⟨x, hx, le_rfl, ?_⟩
  unfold stop
  omega

theorem mem_covered_cons :
    p ∈ S.covered (x :: xs) ↔ S.start x ≤ p ∧ p < S.stop x ∨ p ∈ S.covered xs := by
  simp only [covered, Set.mem_ofPred_eq, List.mem_cons, exists_eq_or_imp]

theorem mem_covered_concat :
    p ∈ S.covered (xs ++ [x]) ↔ p ∈ S.covered xs ∨ S.start x ≤ p ∧ p < S.stop x := by
  simp only [covered, Set.mem_ofPred_eq, List.mem_append, List.mem_singleton, or_and_right, exists_or,
    exists_eq_left]

theorem covered_perm (h : xs.Perm ys) : S.covered xs = S.covered ys := by
  unfold covered
  simp only [h.mem_iff]

/-- A segment lies apart from all others when none of its points is covered. -/
theorem forall_apart_iff (hpos : ∀ y ∈ xs, 0 < S.len y) (hx : 0 < S.len x) :
    (∀ y ∈ xs, S.Apart x y) ↔ ∀ p ∈ S.covered xs, ¬ (S.start x ≤ p ∧ p < S.stop x) := by
  constructor
  · rintro h p ⟨y, hy, hle, hlt⟩ ⟨hle', hlt'⟩
    rcases h y hy with hxy | hyx <;> omega
  · intro h y hy
    have hlen := hpos y hy
    -- the greater of the two starts lies in both, unless they are apart
    have hmax : ¬ (max (S.start x) (S.start y) < S.stop x ∧ max (S.start x) (S.start y) < S.stop y) :=
      fun hlt => h _ ⟨y, hy, le_max_right _ _, hlt.2⟩ ⟨le_max_left _ _, hlt.1⟩
    unfold Apart
    unfold stop at hmax ⊢
    omega

theorem Ordered.le_of_covered (h : S.Ordered (x :: xs)) (hp : p ∈ S.covered xs) : S.stop x ≤ p := by
  obtain ⟨y, hy, hle, -⟩ := hp
  exact (h.stop_le hy).trans hle

theorem paid_singleton (x : α) : S.paid [x] = Set.Ico (S.start x) (S.stop x) := by
  ext p
  constructor
  · rintro ⟨⟨q, ⟨y, hy, hle, -⟩, hqp, -⟩, q', ⟨y', hy', -, hlt⟩, hpq'⟩
    cases List.mem_singleton.mp hy
    cases List.mem_singleton.mp hy'
    exact ⟨hle.trans hqp, hpq'.trans_lt hlt⟩
  · intro hp
    have hcov : p ∈ S.covered [x] := ⟨x, List.mem_singleton_self x, hp⟩
    have hcap := S.cap_nonneg
    exact ⟨⟨p, hcov, le_rfl, by omega⟩, p, hcov, le_rfl⟩

/-- The first segment and the start of the gap behind it. -/
theorem paid_cons (h : S.Ordered (x :: y :: xs)) : S.paid (x :: y :: xs) =
    Set.Ico (S.start x) (min (S.start y) (S.stop x + S.cap)) ∪ S.paid (y :: xs) := by
  have hcap := S.cap_nonneg
  have hx := h.pos x List.mem_cons_self
  have hxy := h.stop_le List.mem_cons_self
  have hstart : S.start y ∈ S.covered (y :: xs) :=
    start_mem_covered List.mem_cons_self (h.tail.pos y List.mem_cons_self)
  have hrest : ∀ q ∈ S.covered (y :: xs), S.start y ≤ q := by
    intro q hq
    rcases mem_covered_cons.mp hq with hq | hq
    · exact hq.1
    · have hle := h.tail.le_of_covered hq
      have hy := h.tail.pos y List.mem_cons_self
      unfold stop at hle
      omega
  ext p
  constructor
  · rintro ⟨⟨q, hq, hqp, hpq⟩, q', hq', hpq'⟩
    by_cases hp : S.start y ≤ p
    · -- what is paid behind the start of `y` is paid for the rest alone
      right
      have hq'' : q' ∈ S.covered (y :: xs) := by
        rcases mem_covered_cons.mp hq' with hq' | hq'
        · omega
        · exact hq'
      refine ⟨?_, q', hq'', hpq'⟩
      rcases mem_covered_cons.mp hq with hq | hq
      · exact ⟨S.start y, hstart, hp, by omega⟩
      · exact ⟨q, hq, hqp, hpq⟩
    · left
      rcases mem_covered_cons.mp hq with hq | hq
      · exact ⟨hq.1.trans hqp, lt_min (not_le.mp hp) (by omega)⟩
      · have := hrest q hq
        omega
  · rintro (⟨hp, hlt⟩ | ⟨⟨q, hq, hqp⟩, q', hq', hpq'⟩)
    · obtain ⟨hlt, hnear⟩ := lt_min_iff.mp hlt
      refine ⟨?_, S.start y, mem_covered_cons.mpr (.inr hstart), hlt.le⟩
      by_cases hin : p < S.stop x
      · exact ⟨p, mem_covered_cons.mpr (.inl ⟨hp, hin⟩), le_rfl, by omega⟩
      · refine ⟨S.stop x - 1, mem_covered_cons.mpr (.inl ⟨?_, by omega⟩), by omega, by omega⟩
        unfold stop
        omega
    · exact ⟨⟨q, mem_covered_cons.mpr (.inr hq), hqp⟩, q', mem_covered_cons.mpr (.inr hq'), hpq'⟩

theorem ncard_Ico {a b : ℤ} (h : a ≤ b) : ((Set.Ico a b).ncard : ℤ) = b - a := by
  rw [← Finset.coe_Ico, Set.ncard_coe_finset, Int.card_Ico, Int.toNat_of_nonneg (by omega)]

theorem paid_finite (h : S.Ordered (x :: xs)) : (S.paid (x :: xs)).Finite := by
  induction xs generalizing x with
  | nil =>
    rw [paid_singleton]
    exact Set.finite_Ico _ _
  | cons y xs ih =>
    rw [paid_cons h]
    exact (Set.finite_Ico _ _).union (ih h.tail)

theorem cost_eq_ncard (h : S.Ordered (x :: xs)) :
    S.cost (S.start x) (x :: xs) = (S.paid (x :: xs)).ncard := by
  induction xs generalizing x with
  | nil =>
    have hpos := h.pos x List.mem_cons_self
    rw [paid_singleton, ncard_Ico (by unfold stop; omega)]
    simp [cost, stop]
  | cons y xs ih =>
    have hcap := S.cap_nonneg
    have hx := h.pos x List.mem_cons_self
    have hxy := h.stop_le List.mem_cons_self
    have hdisj : Disjoint (Set.Ico (S.start x) (min (S.start y) (S.stop x + S.cap)))
        (S.paid (y :: xs)) := by
      refine Set.disjoint_left.mpr fun p hp hpaid => ?_
      obtain ⟨⟨q, hq, hqp, -⟩, -⟩ := hpaid
      have hlt := hp.2.trans_le (min_le_left _ _)
      rcases mem_covered_cons.mp hq with hq | hq
      · omega
      · have hle := h.tail.le_of_covered hq
        have hy := h.tail.pos y List.mem_cons_self
        unfold stop at hle
        omega
    have hlen : S.start x ≤ min (S.start y) (S.stop x + S.cap) := by
      unfold stop at hxy ⊢
      omega
    have hgap : S.move (S.stop x) (S.start y) = min (S.start y - S.stop x) S.cap := by
      unfold move
      rw [abs_sub_comm, abs_of_nonneg (by omega)]
    rw [paid_cons h, Set.ncard_union_eq hdisj (Set.finite_Ico _ _) (paid_finite h.tail)]
    push_cast
    rw [ncard_Ico hlen, ← ih h.tail]
    simp only [cost, move_self, hgap]
    unfold stop
    omega

/-! ## Two lists visited together -/

variable (S) in
theorem covered_finite (xs : List α) : (S.covered xs).Finite := by
  induction xs with
  | nil => simp [covered]
  | cons x xs ih =>
    refine ((Set.finite_Ico (S.start x) (S.stop x)).union ih).subset ?_
    intro p hp
    exact mem_covered_cons.mp hp

variable (S) in
theorem paid_finite_of_covered (xs : List α) : (S.paid xs).Finite := by
  refine ((covered_finite S xs).biUnion fun q _ => Set.finite_Icc q (q + S.cap)).subset ?_
  rintro p ⟨⟨q, hq, hp⟩, -⟩
  exact Set.mem_biUnion hq hp

/-- Behind the last point of `xs`, the points of both lists are paid for as those of `ys`, or they are close. -/
theorem paid_subset {zs : List α} {a b : ℤ} (hz : S.covered zs = S.covered xs ∪ S.covered ys)
    (ha : IsGreatest (S.covered xs) a) (hb : IsGreatest (S.covered ys) b) (hab : a ≤ b) :
    S.paid zs ⊆ S.paid xs ∪ S.paid ys ∪ Set.Ioc a (a + S.cap) := by
  rintro p ⟨⟨q, hq, hqp, hpq⟩, r, hr, hpr⟩
  rw [hz] at hq hr
  have hpb : p ≤ b := by
    rcases hr with hr | hr
    · exact hpr.trans ((ha.2 hr).trans hab)
    · exact hpr.trans (hb.2 hr)
  rcases hq with hq | hq
  · by_cases hpa : p ≤ a
    · exact .inl (.inl ⟨⟨q, hq, hqp, hpq⟩, a, ha.1, hpa⟩)
    · have hqa := ha.2 hq
      exact .inr ⟨not_le.mp hpa, by omega⟩
  · exact .inl (.inr ⟨⟨q, hq, hqp, hpq⟩, b, hb.1, hpb⟩)

theorem ncard_paid_le_add {zs : List α} (hz : S.covered zs = S.covered xs ∪ S.covered ys)
    (hx : (S.covered xs).Nonempty) (hy : (S.covered ys).Nonempty) :
    ((S.paid zs).ncard : ℤ) ≤ (S.paid xs).ncard + (S.paid ys).ncard + S.cap := by
  have key : ∀ {xs ys : List α} {a b : ℤ}, S.covered zs = S.covered xs ∪ S.covered ys →
      IsGreatest (S.covered xs) a → IsGreatest (S.covered ys) b → a ≤ b →
      ((S.paid zs).ncard : ℤ) ≤ (S.paid xs).ncard + (S.paid ys).ncard + S.cap := by
    intro xs ys a b hz ha hb hab
    have hfin := ((paid_finite_of_covered S xs).union (paid_finite_of_covered S ys)).union
      (Set.finite_Ioc a (a + S.cap))
    have hle := Set.ncard_le_ncard (paid_subset hz ha hb hab) hfin
    have hunion := Set.ncard_union_le (S.paid xs ∪ S.paid ys) (Set.Ioc a (a + S.cap))
    have hunion' := Set.ncard_union_le (S.paid xs) (S.paid ys)
    have htail : ((Set.Ioc a (a + S.cap)).ncard : ℤ) = S.cap := by
      rw [← Finset.coe_Ioc, Set.ncard_coe_finset, Int.card_Ioc, add_sub_cancel_left,
        Int.toNat_of_nonneg S.cap_nonneg]
    omega
  obtain ⟨a, ha, hamax⟩ := Set.exists_max_image _ id (covered_finite S xs) hx
  obtain ⟨b, hb, hbmax⟩ := Set.exists_max_image _ id (covered_finite S ys) hy
  rcases le_total a b with hab | hba
  · exact key hz ⟨ha, hamax⟩ ⟨hb, hbmax⟩ hab
  · have hle := key (hz.trans (Set.union_comm _ _)) ⟨hb, hbmax⟩ ⟨ha, hamax⟩ hba
    omega

end Sweep
end SplitSched
