import SplitSched.Block.BatchSet
import SplitSched.Lib.Run
import SplitSched.Lib.Sweep

/-!
# SplitSched.Block.BatchCost

What `iobatch_get_cost` returns. Extents are coalesced only with the entry that happens to be last, and
pricing a batch sorts it in place, so the entries depend on the order of all calls. The cost does not.

* `priceOf`, `priceOf_eq`: the cost of the entries, modulo the width of `size_t`.
* `uncoalescedCost`: the cost of the extents themselves, in elevator order.
* `Tiles`: the entries cover the points that the extents cover. `Tiles.append` and `Tiles.extend` are the two
  branches of `iobatch_add_request`.
* `Filling`, `step`: extents are added to a batch, and it is priced in between.
* `batch_cost_iff`: the cost is that of the extents, exactly when no entry outgrows its `int`.
-/

namespace SplitSched

/-! ## The simulated disk -/

/-- A seek costs its distance, up to `SEEK_CAP`. -/
def diskSweep : Sweep IORequest := ⟨(·.offset), (·.size), seekCap, by decide⟩

theorem offsetDiff_eq (o₁ o₂ : Int) : offsetDiff o₁ o₂ = |o₁ - o₂| := by
  unfold offsetDiff
  split
  · rw [abs_of_pos (by omega)]
  · rw [abs_sub_comm, abs_of_nonneg (by omega)]

theorem diskPositionTime_eq (head : Int) (r : IORequest) :
    diskPositionTime head r = diskSweep.move head r.offset := by
  unfold diskPositionTime seekTime Sweep.move
  rw [min_assoc, min_self, offsetDiff_eq]
  rfl

section

variable {P : Platform} {b : IoBatch} {r : IORequest} {rs xs ys : List IORequest}

theorem simulateAll_eq (hP : P.IsLp64) (xs : List IORequest) : ∀ {c head : Int}, 0 ≤ c → c < 2 ^ 64 →
    (simulateAll P xs (c, head)).1 = (c + diskSweep.cost head xs) % 2 ^ 64 := by
  induction xs with
  | nil =>
    intro c head h0 hlt
    simp only [simulateAll, Sweep.cost, add_zero]
    exact (Int.emod_eq_of_lt h0 hlt).symm
  | cons x xs ih =>
    intro c head h0 hlt
    have hcost : diskSweep.cost head (x :: xs) =
        x.size + diskSweep.move head x.offset + diskSweep.cost (x.offset + x.size) xs := rfl
    simp only [simulateAll, diskSimulateRequest, diskPositionTime_eq]
    rw [ih (hP.ulong_nonneg _) (hP.ulong_lt _), hP.ulong_emod, hP.ulong_emod, hcost]
    omega

/-- What `iobatch_get_cost` computes for the entries of a batch. -/
def priceOf (P : Platform) (reqs : List IORequest) : Int :=
  match P.sort reqs with
  | [] => 0
  | r :: rs => (simulateAll P (r :: rs) (seekCap, r.offset)).1

theorem iobatchGetCost_cached (h : b.cost ≠ costUnset P) : iobatchGetCost P b = (b.cost, b) := by
  unfold iobatchGetCost
  rw [if_pos h]

theorem iobatchGetCost_unset (h : b.cost = costUnset P) :
    (iobatchGetCost P b).1 = priceOf P b.reqs ∧ (iobatchGetCost P b).2.cost = priceOf P b.reqs := by
  unfold iobatchGetCost priceOf
  rw [if_neg (not_not_intro h)]
  cases P.sort b.reqs with
  | nil => exact ⟨rfl, rfl⟩
  | cons r rs => exact ⟨rfl, rfl⟩

/-- Pricing a batch caches the cost. -/
theorem iobatchGetCost_cost (P : Platform) (b : IoBatch) :
    (iobatchGetCost P b).2.cost = (iobatchGetCost P b).1 := by
  by_cases h : b.cost = costUnset P
  · obtain ⟨hfst, hsnd⟩ := iobatchGetCost_unset h
    rw [hfst, hsnd]
  · rw [iobatchGetCost_cached h]

theorem priceOf_nil (P : Platform) : priceOf P [] = 0 := by
  unfold priceOf
  rw [List.perm_nil.mp (P.sort_perm [])]

theorem priceOf_of_sort (hP : P.IsLp64) (h : P.sort ys = r :: rs) :
    priceOf P ys = (seekCap + diskSweep.cost r.offset (r :: rs)) % 2 ^ 64 := by
  unfold priceOf
  rw [h]
  exact simulateAll_eq hP (r :: rs) (by decide) (by decide)

/-! ## The cost of the extents -/

/-- `SEEK_CAP`, the sizes, and the gaps between neighbours up to `SEEK_CAP` each. -/
def uncoalescedCost (xs : List IORequest) : Int :=
  if xs = [] then 0
  else seekCap + (xs.map (·.size)).sum + ((diskSweep.gaps (sortByOffset xs)).map (min · seekCap)).sum

/-- Extents with content that do not overlap. -/
structure Distinct (xs : List IORequest) : Prop where
  pos : ∀ x ∈ xs, 0 < x.size
  apart : xs.Pairwise diskSweep.Apart

theorem Distinct.perm (h : Distinct xs) (hp : ys.Perm xs) : Distinct ys :=
  ⟨fun y hy => h.pos y (hp.mem_iff.mp hy), (hp.pairwise_iff fun ha => ha.symm).mpr h.apart⟩

/-- A sorted list of extents costs what their points cost. -/
theorem cost_of_sorted (h : Distinct xs) (hp : (r :: rs).Perm xs)
    (hs : (r :: rs).Pairwise fun a b => a.offset ≤ b.offset) :
    diskSweep.Ordered (r :: rs) ∧ diskSweep.cost r.offset (r :: rs) = (diskSweep.paid xs).ncard := by
  have hd := h.perm hp
  have ho : diskSweep.Ordered (r :: rs) := .of_sorted hd.pos hd.apart hs
  refine ⟨ho, (Sweep.cost_eq_ncard ho).trans ?_⟩
  rw [Sweep.paid_congr (Sweep.covered_perm hp)]

theorem exists_cons_of_perm (hne : xs ≠ []) (hp : ys.Perm xs) : ∃ r rs, ys = r :: rs := by
  cases ys with
  | nil => exact absurd (List.nil_perm.mp hp) hne
  | cons r rs => exact ⟨r, rs, rfl⟩

theorem sortByOffset_perm (xs : List IORequest) : (sortByOffset xs).Perm xs := List.perm_insertionSort _ xs

theorem uncoalescedCost_eq (h : Distinct xs) (hne : xs ≠ []) :
    uncoalescedCost xs = seekCap + (diskSweep.paid xs).ncard := by
  have hp := sortByOffset_perm xs
  have hs := sortByOffset_sorted xs
  obtain ⟨r, rs, hsort⟩ := exists_cons_of_perm hne hp
  rw [hsort] at hp hs
  obtain ⟨ho, hcost⟩ := cost_of_sorted h hp hs
  have hgaps := Sweep.cost_eq_gaps ho
  have hsum : ((r :: rs).map diskSweep.len).sum = (xs.map (·.size)).sum := (hp.map _).sum_eq
  unfold uncoalescedCost
  rw [if_neg hne, hsort, ← hcost, ← hsum, add_assoc]
  exact congrArg (seekCap + ·) hgaps.symm

theorem priceOf_eq (hP : P.IsLp64) (h : Distinct xs) (hne : xs ≠ []) :
    priceOf P xs = (seekCap + (diskSweep.paid xs).ncard) % 2 ^ 64 := by
  have hp := P.sort_perm xs
  obtain ⟨r, rs, hsort⟩ := exists_cons_of_perm hne hp
  have hs := P.sort_sorted xs
  rw [hsort] at hp hs
  rw [priceOf_of_sort hP hsort, (cost_of_sorted h hp hs).2]

/-- The cost of a batch is far from the limits of a `size_t`, even with an entry that outgrows its `int`. -/
theorem ncard_paid_lt (h : Distinct xs) (hne : xs ≠ []) (hsize : ∀ x ∈ xs, x.size < 2 ^ 32)
    (hlen : xs.length < 2 ^ 31) : seekCap + (diskSweep.paid xs).ncard < 2 ^ 64 - 1 := by
  have hp := sortByOffset_perm xs
  have hs := sortByOffset_sorted xs
  obtain ⟨r, rs, hsort⟩ := exists_cons_of_perm hne hp
  rw [hsort] at hp hs
  have hcost := (cost_of_sorted h hp hs).2
  have hsum : ((r :: rs).map diskSweep.len).sum ≤ xs.length * 2 ^ 32 := by
    have hle := List.sum_le_card_nsmul ((r :: rs).map diskSweep.len) (2 ^ 32) fun n hn => by
      obtain ⟨x, hx, rfl⟩ := List.mem_map.mp hn
      exact (hsize x (hp.mem_iff.mp hx)).le
    rwa [List.length_map, hp.length_eq, nsmul_eq_mul] at hle
  have hle := Sweep.cost_le r.offset (r :: rs) (S := diskSweep)
  have hcap : diskSweep.cap = 2 ^ 21 := rfl
  rw [hcost, hp.length_eq, hcap] at hle
  have hseek : seekCap = 2 ^ 21 := rfl
  rw [hseek]
  omega

/-! ## Entries and extents -/

/-- The entries `reqs` cover what the extents `xs` cover. -/
structure Tiles (reqs xs : List IORequest) : Prop where
  entries : Distinct reqs
  extents : Distinct xs
  covered : diskSweep.covered reqs = diskSweep.covered xs

theorem Distinct.concat (h : Distinct xs) (hpos : 0 < r.size) (hapart : ∀ x ∈ xs, diskSweep.Apart r x) :
    Distinct (xs ++ [r]) := by
  have hcons : Distinct (r :: xs) :=
    ⟨List.forall_mem_cons.mpr ⟨hpos, h.pos⟩, List.pairwise_cons.mpr ⟨hapart, h.apart⟩⟩
  exact hcons.perm (List.perm_append_singleton r xs)

theorem Distinct.covered_eq_empty (h : Distinct xs) : diskSweep.covered xs = ∅ ↔ xs = [] := by
  constructor
  · intro he
    refine List.eq_nil_iff_forall_not_mem.mpr fun x hx => ?_
    have hmem : x.offset ∈ diskSweep.covered xs := Sweep.start_mem_covered hx (h.pos x hx)
    rw [he] at hmem
    exact hmem
  · rintro rfl
    simp [Sweep.covered]

theorem Tiles.nil_iff (h : Tiles xs ys) : xs = [] ↔ ys = [] := by
  rw [← h.entries.covered_eq_empty, h.covered, h.extents.covered_eq_empty]

/-- What lies apart from the extents lies apart from the entries. -/
theorem Tiles.apart (h : Tiles xs ys) (hpos : 0 < r.size) (hapart : ∀ y ∈ ys, diskSweep.Apart r y) :
    ∀ x ∈ xs, diskSweep.Apart r x := by
  rw [Sweep.forall_apart_iff h.extents.pos hpos, ← h.covered] at hapart
  exact (Sweep.forall_apart_iff h.entries.pos hpos).mpr hapart

theorem Tiles.append (h : Tiles xs ys) (hpos : 0 < r.size) (hapart : ∀ y ∈ ys, diskSweep.Apart r y) :
    Tiles (xs ++ [r]) (ys ++ [r]) := by
  refine ⟨h.entries.concat hpos (h.apart hpos hapart), h.extents.concat hpos hapart, ?_⟩
  ext p
  rw [Sweep.mem_covered_concat, Sweep.mem_covered_concat, h.covered]

theorem Tiles.extend {init : List IORequest} {prev : IORequest} (h : Tiles (init ++ [prev]) ys)
    (hpos : 0 < r.size) (hapart : ∀ y ∈ ys, diskSweep.Apart r y) (hnext : r.offset = prev.offset + prev.size) :
    Tiles (init ++ [⟨prev.offset, prev.size + r.size⟩]) (ys ++ [r]) := by
  have hprev : 0 < prev.size := h.entries.pos prev (by simp)
  have hr := h.apart hpos hapart
  obtain ⟨hinit, -, hlast⟩ := List.pairwise_append.mp h.entries.apart
  refine ⟨Distinct.concat ⟨fun x hx => h.entries.pos x (by simp [hx]), hinit⟩ (add_pos hprev hpos) ?_,
    h.extents.concat hpos hapart, ?_⟩
  · -- an entry that lies apart from both parts does not lie between them
    intro x hx
    have hxpos := h.entries.pos x (by simp [hx])
    have hxprev := hlast x hx prev (by simp)
    have hxr := hr x (by simp [hx])
    simp only [Sweep.Apart, Sweep.stop, diskSweep] at hxprev hxr ⊢
    omega
  · ext p
    rw [Sweep.mem_covered_concat, Sweep.mem_covered_concat, ← h.covered, Sweep.mem_covered_concat, or_assoc]
    simp only [Sweep.stop, diskSweep]
    refine or_congr_right ?_
    omega

theorem Tiles.priceOf_eq (hP : P.IsLp64) (h : Tiles xs ys) (hsize : ∀ x ∈ xs, x.size < 2 ^ 32)
    (hlen : xs.length < 2 ^ 31) : priceOf P xs = uncoalescedCost ys := by
  by_cases hne : xs = []
  · have hys := h.nil_iff.mp hne
    subst hne hys
    exact priceOf_nil P
  · have hlt := ncard_paid_lt h.entries hne hsize hlen
    have hseek : 0 ≤ seekCap := by decide
    rw [SplitSched.priceOf_eq hP h.entries hne, uncoalescedCost_eq h.extents (h.nil_iff.not.mp hne),
      ← Sweep.paid_congr h.covered]
    exact Int.emod_eq_of_lt (by omega) (by omega)

/-! ## An entry with another size -/

theorem Distinct.nodup_offset (h : Distinct xs) : (xs.map (·.offset)).Nodup := by
  refine List.pairwise_map.mpr (h.apart.imp_of_mem ?_)
  intro x y hx hy hxy he
  have hxpos := h.pos x hx
  have hypos := h.pos y hy
  simp only [Sweep.Apart, Sweep.stop, diskSweep] at hxy
  omega

/-- A list with distinct offsets has one sorted permutation. -/
theorem eq_sort (hp : ys.Perm xs) (hs : (ys.map (·.offset)).Pairwise (· ≤ ·))
    (hnd : (ys.map (·.offset)).Nodup) : P.sort xs = ys := by
  have hperm := (P.sort_perm xs).trans hp.symm
  refine hperm.eq_of_pairwise ?_ (P.sort_sorted xs) (List.pairwise_map.mp hs)
  intro a b ha hb hab hba
  exact List.inj_on_of_nodup_map hnd (hperm.mem_iff.mp ha) hb (le_antisymm hab hba)

/-- Sizes do not matter for the order. -/
theorem sort_resize {init : List IORequest} {o n : Int} (h : Distinct (init ++ [⟨o, n⟩])) (n' : Int) :
    ∃ as bs, P.sort (init ++ [⟨o, n⟩]) = as ++ ⟨o, n⟩ :: bs ∧
      P.sort (init ++ [⟨o, n'⟩]) = as ++ ⟨o, n'⟩ :: bs := by
  have hp := P.sort_perm (init ++ [⟨o, n⟩])
  obtain ⟨as, bs, hsort⟩ := List.append_of_mem (hp.mem_iff.mpr (List.mem_append_right init List.mem_cons_self))
  have hs : ((P.sort (init ++ [⟨o, n⟩])).map (·.offset)).Pairwise (· ≤ ·) :=
    List.pairwise_map.mpr (P.sort_sorted _)
  have hnd := (h.perm hp).nodup_offset
  have hoffsets : (as ++ (⟨o, n'⟩ : IORequest) :: bs).map (·.offset) =
      (as ++ (⟨o, n⟩ : IORequest) :: bs).map (·.offset) := by simp
  rw [hsort] at hp hs hnd
  refine ⟨as, bs, hsort, eq_sort ?_ (hoffsets ▸ hs) (hoffsets ▸ hnd)⟩
  have hrest : (as ++ bs).Perm init := by
    have hcons := (List.perm_middle.symm.trans hp).trans (List.perm_append_singleton _ init)
    exact hcons.cons_inv
  exact (List.perm_middle.trans (hrest.cons _)).trans (List.perm_append_singleton _ init).symm

/-- The cost follows the size of an entry, up to one seek. -/
theorem priceOf_resize (hP : P.IsLp64) {init : List IORequest} {o n n' : Int}
    (h : Distinct (init ++ [⟨o, n⟩])) (hlt : seekCap < n - n') (hlt' : n - n' < 2 ^ 64 - seekCap) :
    priceOf P (init ++ [⟨o, n'⟩]) ≠ priceOf P (init ++ [⟨o, n⟩]) := by
  obtain ⟨as, bs, hgood, hbad⟩ := sort_resize (P := P) h n'
  have hdiff : ∀ head, ∃ δ, |δ| ≤ seekCap ∧ diskSweep.cost head (as ++ ⟨o, n'⟩ :: bs) =
      diskSweep.cost head (as ++ ⟨o, n⟩ :: bs) - (n - n') + δ := by
    intro head
    have hle := Sweep.abs_cost_resize_le (S := diskSweep) (x := ⟨o, n'⟩) (y := ⟨o, n⟩) rfl head as bs
    refine ⟨_, hle, ?_⟩
    simp only [diskSweep]
    ring
  -- the first entry is where it was, so both sweeps start at one place
  obtain ⟨head, hg, hb⟩ : ∃ head,
      priceOf P (init ++ [⟨o, n⟩]) = (seekCap + diskSweep.cost head (as ++ ⟨o, n⟩ :: bs)) % 2 ^ 64 ∧
      priceOf P (init ++ [⟨o, n'⟩]) = (seekCap + diskSweep.cost head (as ++ ⟨o, n'⟩ :: bs)) % 2 ^ 64 := by
    cases as with
    | nil => exact ⟨o, priceOf_of_sort hP hgood, priceOf_of_sort hP hbad⟩
    | cons a as => exact ⟨a.offset, priceOf_of_sort hP hgood, priceOf_of_sort hP hbad⟩
  obtain ⟨δ, hδ, hcost⟩ := hdiff head
  have hbounds := abs_le.mp hδ
  rw [hg, hb, hcost]
  omega

end

/-! ## Filling a batch -/

/-- The two ways in which a batch that is not full takes an extent. -/
theorem IoBatch.add_cases (P : Platform) (b : IoBatch) {offset size : Int} (hfull : iobatchFull b = false) :
    (iobatchAddRequest P b offset size).2 = b.append P offset size ∧
        (∀ prev ∈ b.reqs.getLast?, offset ≠ prev.offset + prev.size) ∨
      ∃ init prev, b.reqs = init ++ [prev] ∧ offset = prev.offset + prev.size ∧
        (iobatchAddRequest P b offset size).2 =
          { b with
            reqs := init ++ [⟨prev.offset, P.int (prev.size + size)⟩]
            cost := costUnset P
            bytes := P.ulong (b.bytes + size) } := by
  simp only [iobatchAddRequest, hfull, Bool.false_eq_true, if_false]
  cases hlast : b.reqs.getLast? with
  | none => exact .inl ⟨rfl, by simp⟩
  | some prev =>
    obtain ⟨init, hreqs⟩ := List.getLast?_eq_some_iff.mp hlast
    by_cases hnext : offset = prev.offset + prev.size
    · refine .inr ⟨init, prev, hreqs, hnext, ?_⟩
      simp only [if_pos hnext, hreqs, List.dropLast_concat]
    · refine .inl ⟨?_, ?_⟩
      · simp only [if_neg hnext]
      · rintro prev' hprev'
        cases hprev'
        exact hnext

/-- A batch and the extents that were added to it. -/
structure Filling where
  batch : IoBatch
  extents : List IORequest
  deriving DecidableEq

namespace Filling

inductive Event where
  | add (offset size : Int)
  | getCost
  deriving DecidableEq

/-- An extent with an `off_t` offset and end and a positive `int` size, apart from those in `xs`. -/
def Legal (xs : List IORequest) (offset size : Int) : Prop :=
  -2 ^ 63 ≤ offset ∧ 0 < size ∧ size < 2 ^ 31 ∧ offset + size < 2 ^ 63 ∧
    ∀ x ∈ xs, diskSweep.Apart ⟨offset, size⟩ x

instance (xs : List IORequest) (offset size : Int) : Decidable (Legal xs offset size) :=
  inferInstanceAs (Decidable (_ ∧ _ ∧ _ ∧ _ ∧ _))

def step (P : Platform) (w : Filling) : Event → Option Filling
  | .add offset size =>
    if iobatchFull w.batch = false ∧ Legal w.extents offset size then
      some ⟨(iobatchAddRequest P w.batch offset size).2, w.extents ++ [⟨offset, size⟩]⟩
    else none
  | .getCost => some { w with batch := (iobatchGetCost P w.batch).2 }

/-- No extents yet. The capacity is an `int`. -/
structure Fresh (P : Platform) (w : Filling) : Prop where
  reqs : w.batch.reqs = []
  bytes : w.batch.bytes = 0
  cost : w.batch.cost = costUnset P ∨ w.batch.cost = 0
  capacity : w.batch.reqsCapacity < 2 ^ 31
  extents : w.extents = []

/-- `iobatch_get_cost` returns the cost of the extents. -/
def Priced (P : Platform) (w : Filling) : Prop :=
  (iobatchGetCost P w.batch).1 = uncoalescedCost w.extents

/-- An extent that is coalesced with the last entry leaves its size an `int`. -/
def KeepsInt (w : Filling) : Event → Prop
  | .add offset size => ∀ prev ∈ w.batch.reqs.getLast?,
      offset = prev.offset + prev.size → prev.size + size < 2 ^ 31
  | .getCost => True

instance (w : Filling) : ∀ e, Decidable (KeepsInt w e)
  | .add offset size => inferInstanceAs (Decidable (∀ prev ∈ w.batch.reqs.getLast?,
      offset = prev.offset + prev.size → prev.size + size < 2 ^ 31))
  | .getCost => isTrue trivial

/-- The entries tile the extents, and the cached cost is right. -/
structure Inv (P : Platform) (w : Filling) : Prop where
  tiles : Tiles w.batch.reqs w.extents
  sizes : ∀ r ∈ w.batch.reqs, r.size < 2 ^ 31
  length : w.batch.reqs.length ≤ w.batch.reqsCapacity
  capacity : w.batch.reqsCapacity < 2 ^ 31
  cache : w.batch.cost = costUnset P ∨ w.batch.cost = uncoalescedCost w.extents

variable {P : Platform} {w w' : Filling} {e : Event} {offset size : Int}

theorem step_add (h : step P w (.add offset size) = some w') :
    iobatchFull w.batch = false ∧ Legal w.extents offset size ∧
      w' = ⟨(iobatchAddRequest P w.batch offset size).2, w.extents ++ [⟨offset, size⟩]⟩ := by
  simp only [step] at h
  split at h
  · rename_i hok
    exact ⟨hok.1, hok.2, (Option.some.inj h).symm⟩
  · cases h

theorem Inv.priced (hP : P.IsLp64) (h : Inv P w) : Priced P w := by
  unfold Priced
  by_cases hu : w.batch.cost = costUnset P
  · have hlen := h.length.trans_lt h.capacity
    rw [(iobatchGetCost_unset hu).1]
    exact h.tiles.priceOf_eq hP (fun r hr => (h.sizes r hr).trans (by norm_num)) hlen
  · rw [iobatchGetCost_cached hu]
    exact h.cache.resolve_left hu

theorem Inv.getCost (hP : P.IsLp64) (h : Inv P w) :
    Inv P { w with batch := (iobatchGetCost P w.batch).2 } := by
  obtain ⟨hperm, -, hcap, -⟩ := IoBatch.iobatchGetCost_perm P w.batch
  refine ⟨⟨h.tiles.entries.perm hperm, h.tiles.extents, ?_⟩, ?_, ?_, ?_, .inr ?_⟩
  · exact (Sweep.covered_perm hperm).trans h.tiles.covered
  · exact fun r hr => h.sizes r (hperm.mem_iff.mp hr)
  · rw [hperm.length_eq, hcap]
    exact h.length
  · rw [hcap]
    exact h.capacity
  · rw [iobatchGetCost_cost]
    exact h.priced hP

theorem Inv.add (h : Inv P w) (hfull : iobatchFull w.batch = false) (hlegal : Legal w.extents offset size)
    (hc : KeepsInt w (.add offset size)) :
    Inv P ⟨(iobatchAddRequest P w.batch offset size).2, w.extents ++ [⟨offset, size⟩]⟩ := by
  obtain ⟨-, hpos, hint, -, hapart⟩ := hlegal
  have hroom := (IoBatch.full_eq_false.mp hfull).1
  rcases IoBatch.add_cases P w.batch hfull with ⟨hb, -⟩ | ⟨init, prev, hreqs, hnext, hb⟩
  · rw [hb]
    refine ⟨h.tiles.append hpos hapart, ?_, ?_, h.capacity, .inl rfl⟩
    · intro r hr
      rcases List.mem_append.mp hr with hr | hr
      · exact h.sizes r hr
      · cases List.mem_singleton.mp hr
        exact hint
    · simp only [IoBatch.append, List.length_append, List.length_singleton]
      omega
  · have hsum := hc prev (by simp [hreqs]) hnext
    have htiles := h.tiles
    have hsizes := h.sizes
    have hlen := h.length
    rw [hreqs] at htiles hsizes hlen
    have hprev := htiles.entries.pos prev (by simp)
    rw [hb, P.int_fits _ (by omega) (by omega)]
    refine ⟨htiles.extend hpos hapart hnext, ?_, ?_, h.capacity, .inl rfl⟩
    · intro r hr
      rcases List.mem_append.mp hr with hr | hr
      · exact hsizes r (List.mem_append_left _ hr)
      · cases List.mem_singleton.mp hr
        exact hsum
    · simpa using hlen

theorem step_inv (hP : P.IsLp64) (h : step P w e = some w') (hc : KeepsInt w e) (hw : Inv P w) :
    Inv P w' := by
  cases e with
  | add offset size =>
    obtain ⟨hfull, hlegal, rfl⟩ := step_add h
    exact hw.add hfull hlegal hc
  | getCost =>
    cases h
    exact hw.getCost hP

/-- An entry that outgrows its `int` is priced `2 ^ 32` too low, up to one seek. -/
theorem step_broken (hP : P.IsLp64) (h : step P w e = some w') (hc : ¬ KeepsInt w e) (hw : Inv P w) :
    ¬ Priced P w' := by
  cases e with
  | getCost => exact absurd trivial hc
  | add offset size =>
    obtain ⟨hfull, ⟨-, hpos, hint, -, hapart⟩, rfl⟩ := step_add h
    rcases IoBatch.add_cases P w.batch hfull with ⟨-, hnot⟩ | ⟨init, prev, hreqs, hnext, hb⟩
    · exact absurd (fun prev hprev he => absurd he (hnot prev hprev)) hc
    · have hover : 2 ^ 31 ≤ prev.size + size := by
        by_contra hlt
        refine hc fun prev' hprev' _ => ?_
        simp only [hreqs, List.getLast?_concat, Option.mem_some_iff] at hprev'
        subst hprev'
        omega
      have htiles := hw.tiles
      have hsizes := hw.sizes
      have hlen := hw.length
      have hcap := hw.capacity
      rw [hreqs] at htiles hsizes hlen
      have hprev := hsizes prev (by simp)
      have hwrap : P.int (prev.size + size) = prev.size + size - 2 ^ 32 := by
        rw [hP.int, Int.bmod_def]
        split <;> omega
      have hgood := htiles.extend hpos hapart hnext
      unfold Priced
      rw [(iobatchGetCost_unset (by rw [hb])).1, hb, ← hgood.priceOf_eq hP ?_ (by simp at hlen ⊢; omega), hwrap]
      · exact priceOf_resize hP hgood.entries (by simp [seekCap]) (by simp [seekCap])
      · intro r hr
        rcases List.mem_append.mp hr with hr | hr
        · have hsmall := hsizes r (List.mem_append_left _ hr)
          omega
        · cases List.mem_singleton.mp hr
          simp only
          omega

theorem Fresh.inv (h : Fresh P w) : Inv P w := by
  have hnil : Distinct [] := ⟨by simp, .nil⟩
  refine ⟨by rw [h.reqs, h.extents]; exact ⟨hnil, hnil, rfl⟩, by simp [h.reqs], by simp [h.reqs],
    h.capacity, ?_⟩
  rw [h.extents]
  exact h.cost

theorem uncoalescedCost_perm {xs ys : List IORequest} (h : Distinct xs) (hp : ys.Perm xs) :
    uncoalescedCost ys = uncoalescedCost xs := by
  by_cases hne : xs = []
  · subst hne
    rw [List.perm_nil.mp hp]
  · have hne' : ys ≠ [] := fun he => hne (List.nil_perm.mp (he ▸ hp))
    rw [uncoalescedCost_eq h hne, uncoalescedCost_eq (h.perm hp) hne',
      Sweep.paid_congr (Sweep.covered_perm hp)]

/-- The cost is that of the extents all along a run, exactly when no coalesced entry outgrows its `int`.
In such runs it does not depend on the order of the extents. -/
theorem batch_cost_iff (hP : P.IsLp64) {es : List Event} (h0 : Fresh P w)
    (h : run (step P) w es = some w') :
    (Always (step P) (Priced P) w es ↔ Meets (step P) KeepsInt w es) ∧
      (Meets (step P) KeepsInt w es → ∀ v v' es', Fresh P v → run (step P) v es' = some v' →
        Meets (step P) KeepsInt v es' → v'.extents.Perm w'.extents →
        (iobatchGetCost P v'.batch).1 = (iobatchGetCost P w'.batch).1) := by
  have hstep : ∀ s e s', step P s e = some s' → KeepsInt s e → Inv P s → Inv P s' :=
    fun s e s' hs hc hI => step_inv hP hs hc hI
  refine ⟨always_iff_meets hstep (fun s hs => hs.priced hP)
    (fun s e s' hs hc hI => step_broken hP hs hc hI) h h0.inv, ?_⟩
  intro hm v v' es' hv hr hm' hperm
  have hw' := run_invariant_of_meets hstep h hm h0.inv
  have hv' := run_invariant_of_meets hstep hr hm' hv.inv
  calc (iobatchGetCost P v'.batch).1 = uncoalescedCost v'.extents := hv'.priced hP
    _ = uncoalescedCost w'.extents := uncoalescedCost_perm hw'.tiles.extents hperm
    _ = (iobatchGetCost P w'.batch).1 := (hw'.priced hP).symm

/-- An empty batch, with tb's limits. -/
def start : Filling := ⟨iobatchNew .lp64 64 (32 * 1024 * 1024), []⟩

theorem start_fresh : Fresh .lp64 start := ⟨rfl, rfl, .inl rfl, by decide, rfl⟩

/-- The batch is sorted between the second and the third extent, which is then coalesced. -/
def sampleEvents : List Event := [.add 4096 4096, .add 0 512, .getCost, .add 8192 512, .getCost]

theorem batch_cost_sample : ∃ w', run (step .lp64) start sampleEvents = some w' ∧
    Meets (step .lp64) KeepsInt start sampleEvents ∧ Always (step .lp64) (Priced .lp64) start sampleEvents := by
  have h : (run (step .lp64) start sampleEvents).isSome := by decide +kernel
  have hm : Meets (step .lp64) KeepsInt start sampleEvents := by decide +kernel
  obtain ⟨w', hw'⟩ := Option.isSome_iff_exists.mp h
  exact ⟨w', hw', hm, (batch_cost_iff Platform.isLp64_lp64 start_fresh hw').1.mpr hm⟩

/-- The second extent continues the first, and the entry's size becomes `-2 ^ 31`. -/
theorem batch_cost_wraps : ∃ w', run (step .lp64) start [.add 0 1, .add 1 (2 ^ 31 - 1)] = some w' ∧
    uncoalescedCost w'.extents = seekCap + 2 ^ 31 ∧
    (iobatchGetCost .lp64 w'.batch).1 = 2 ^ 64 + seekCap - 2 ^ 31 := by
  have h : (run (step .lp64) start [.add 0 1, .add 1 (2 ^ 31 - 1)]).any fun w =>
      decide (uncoalescedCost w.extents = seekCap + 2 ^ 31 ∧
        (iobatchGetCost .lp64 w.batch).1 = 2 ^ 64 + seekCap - 2 ^ 31) := by decide +kernel
  obtain ⟨w', hw', hcost⟩ := (Option.any_eq_true _ _).mp h
  exact ⟨w', hw', of_decide_eq_true hcost⟩

end Filling

end SplitSched
