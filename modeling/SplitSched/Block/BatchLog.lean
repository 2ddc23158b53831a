import SplitSched.Block.BatchCost

/-!
# SplitSched.Block.BatchLog

The representation invariant of a batch (io_batch.c). Extents are added, the batch is priced and cleared, in
any order. Beside the batch stands what was accepted since it was cleared.

* `multiplicity x rs`: how many of the extents `rs` have the byte `x`. Coalescing and sorting do not change
  it.
* `Represents`: the bytes, the ranges and the cached cost of the batch are those of what was accepted.
* `batch_represents`: this holds in every run whose sizes are `int`s.
-/

namespace SplitSched

structure BatchLog where
  batch : IoBatch
  /-- What was accepted since the batch was last cleared. -/
  accepted : List IORequest
  deriving DecidableEq

namespace BatchLog

inductive Event where
  | add (offset size : Int)
  | getCost
  | clear
  deriving DecidableEq

def init (P : Platform) (capacity : Nat) (bytesCap : Int) : BatchLog := ⟨iobatchNew P capacity bytesCap, []⟩

def step (P : Platform) (w : BatchLog) : Event → Option BatchLog
  | .add offset size =>
    -- a full batch drops the extent
    let accepted := if iobatchFull w.batch then w.accepted else w.accepted ++ [⟨offset, size⟩]
    some ⟨(iobatchAddRequest P w.batch offset size).2, accepted⟩
  | .getCost => some { w with batch := (iobatchGetCost P w.batch).2 }
  | .clear => some ⟨iobatchClear P w.batch, []⟩

/-- The size is an `int` that is not negative, and so is that of the entry it is added to. -/
def SizeFits (w : BatchLog) : Event → Prop
  | .add offset size => 0 ≤ size ∧ size < 2 ^ 31 ∧ (iobatchFull w.batch = false →
      ∀ prev ∈ w.batch.reqs.getLast?, offset = prev.offset + prev.size → prev.size + size < 2 ^ 31)
  | .getCost => True
  | .clear => True

instance (w : BatchLog) : ∀ e, Decidable (SizeFits w e)
  | .add offset size => inferInstanceAs (Decidable (0 ≤ size ∧ size < 2 ^ 31 ∧ (iobatchFull w.batch = false →
      ∀ prev ∈ w.batch.reqs.getLast?, offset = prev.offset + prev.size → prev.size + size < 2 ^ 31)))
  | .getCost => isTrue trivial
  | .clear => isTrue trivial

/-! ## What a batch stands for -/

/-- How many of the extents have the byte `x`. -/
def multiplicity (x : Int) (rs : List IORequest) : Nat :=
  rs.countP fun r => decide (r.offset ≤ x ∧ x < r.offset + r.size)

/-- What the disk simulator charges for the entries, in the order in which they are. -/
def simulatedCost (P : Platform) : List IORequest → Int
  | [] => 0
  | r :: rs => (simulateAll P (r :: rs) (seekCap, r.offset)).1

structure Represents (P : Platform) (capacity : Nat) (w : BatchLog) : Prop where
  room : w.batch.reqsCapacity = capacity
  length : w.batch.reqs.length ≤ w.batch.reqsCapacity
  bytes : w.batch.bytes = (w.batch.reqs.map (·.size)).sum
  empty : w.batch.reqs = [] → w.batch.bytes = 0
  ranges : ∀ x, multiplicity x w.batch.reqs = multiplicity x w.accepted
  cost : w.batch.cost = costUnset P ∨ w.batch.cost = simulatedCost P w.batch.reqs
  /-- What is returned is never stale. -/
  price : (iobatchGetCost P w.batch).1 = simulatedCost P (iobatchGetCost P w.batch).2.reqs

/-- What the steps keep. -/
structure Inv (P : Platform) (capacity : Nat) (w : BatchLog) : Prop where
  room : w.batch.reqsCapacity = capacity
  length : w.batch.reqs.length ≤ w.batch.reqsCapacity
  sizes : ∀ r ∈ w.batch.reqs, 0 ≤ r.size ∧ r.size < 2 ^ 31
  bytes : w.batch.bytes = (w.batch.reqs.map (·.size)).sum
  ranges : ∀ x, multiplicity x w.batch.reqs = multiplicity x w.accepted
  cost : w.batch.cost = costUnset P ∨ w.batch.cost = simulatedCost P w.batch.reqs

variable {P : Platform} {capacity : Nat} {w w' : BatchLog}

/-! ## The cost -/

theorem iobatchGetCost_simulated (P : Platform) (b : IoBatch)
    (h : b.cost = costUnset P ∨ b.cost = simulatedCost P b.reqs) :
    (iobatchGetCost P b).1 = simulatedCost P (iobatchGetCost P b).2.reqs := by
  by_cases hu : b.cost = costUnset P
  · have hperm := P.sort_perm b.reqs
    unfold iobatchGetCost
    rw [if_neg (not_not_intro hu)]
    cases hsort : P.sort b.reqs with
    | nil =>
      rw [hsort] at hperm
      rw [List.nil_perm.mp hperm]
      rfl
    | cons r rs => rfl
  · rw [iobatchGetCost_cached hu]
    exact h.resolve_left hu

theorem Inv.represents (h : Inv P capacity w) : Represents P capacity w where
  room := h.room
  length := h.length
  bytes := h.bytes
  empty hnil := by
    rw [h.bytes, hnil]
    rfl
  ranges := h.ranges
  cost := h.cost
  price := iobatchGetCost_simulated P w.batch h.cost

/-! ## One call -/

/-- Neighbours count as one extent. -/
theorem multiplicity_join (x : Int) {r : IORequest} {size : Int} (hr : 0 ≤ r.size) (hs : 0 ≤ size) :
    multiplicity x [⟨r.offset, r.size + size⟩] =
      multiplicity x [r] + multiplicity x [⟨r.offset + r.size, size⟩] := by
  unfold multiplicity
  simp only [List.countP_singleton, decide_eq_true_eq]
  split_ifs <;> omega

theorem multiplicity_append (x : Int) (rs rs' : List IORequest) :
    multiplicity x (rs ++ rs') = multiplicity x rs + multiplicity x rs' := List.countP_append

theorem Inv.bytes_bounds (h : Inv P capacity w) (hcap : capacity < 2 ^ 31) :
    0 ≤ w.batch.bytes ∧ w.batch.bytes ≤ 2 ^ 31 * 2 ^ 31 := by
  have hnonneg : 0 ≤ (w.batch.reqs.map (·.size)).sum := by
    refine List.sum_nonneg fun n hn => ?_
    obtain ⟨r, hr, rfl⟩ := List.mem_map.mp hn
    exact (h.sizes r hr).1
  have hsum : (w.batch.reqs.map (·.size)).sum ≤ (w.batch.reqs.map (·.size)).length • (2 ^ 31 : Int) := by
    refine List.sum_le_card_nsmul _ _ fun n hn => ?_
    obtain ⟨r, hr, rfl⟩ := List.mem_map.mp hn
    exact (h.sizes r hr).2.le
  rw [List.length_map, nsmul_eq_mul] at hsum
  have hlength : (w.batch.reqs.length : Int) * 2 ^ 31 ≤ 2 ^ 31 * 2 ^ 31 := by
    have hle := h.length
    have hc := h.room
    omega
  rw [h.bytes]
  exact ⟨hnonneg, hsum.trans hlength⟩

theorem Inv.add {offset size : Int} (h : Inv P capacity w) (hcap : capacity < 2 ^ 31) (hs : 0 ≤ size)
    (hs' : size < 2 ^ 31) (hfull : iobatchFull w.batch = false)
    (hlast : ∀ prev ∈ w.batch.reqs.getLast?, offset = prev.offset + prev.size → prev.size + size < 2 ^ 31) :
    Inv P capacity ⟨(iobatchAddRequest P w.batch offset size).2, w.accepted ++ [⟨offset, size⟩]⟩ := by
  obtain ⟨hlow, hhigh⟩ := h.bytes_bounds hcap
  have hbytes : P.ulong (w.batch.bytes + size) = w.batch.bytes + size :=
    P.ulong_fits _ (by omega) (by omega)
  obtain ⟨hroom, -⟩ := IoBatch.full_eq_false.mp hfull
  rcases @IoBatch.add_cases P w.batch offset size hfull with
    ⟨heq, -⟩ | ⟨init, prev, hreqs, hnext, heq⟩
  · -- a new entry
    rw [heq]
    refine ⟨h.room, ?_, fun r hr => ?_, ?_, fun x => ?_, .inl rfl⟩
    · simp only [IoBatch.append, List.length_append, List.length_singleton]
      omega
    · rcases List.mem_append.mp hr with hr | hr
      · exact h.sizes r hr
      · cases List.mem_singleton.mp hr
        exact ⟨hs, hs'⟩
    · simp only [IoBatch.append]
      rw [hbytes, h.bytes]
      simp
    · simp only [IoBatch.append, multiplicity_append, h.ranges x]
  · -- the last entry grows
    have hprev := h.sizes prev (by rw [hreqs]; simp)
    have hgrown := hlast prev (by rw [hreqs]; simp) hnext
    have hint : P.int (prev.size + size) = prev.size + size := P.int_fits _ (by omega) (by omega)
    rw [heq]
    refine ⟨h.room, ?_, fun r hr => ?_, ?_, fun x => ?_, .inl rfl⟩
    · have hle := h.length
      rw [hreqs] at hle
      simpa using hle
    · rcases List.mem_append.mp hr with hr | hr
      · exact h.sizes r (by rw [hreqs]; exact List.mem_append_left _ hr)
      · cases List.mem_singleton.mp hr
        simp only [hint]
        exact ⟨by omega, hgrown⟩
    · simp only [hint]
      rw [hbytes, h.bytes, hreqs]
      simp [add_assoc]
    · have hx := h.ranges x
      rw [hreqs, multiplicity_append] at hx
      simp only [hint, multiplicity_append, multiplicity_join x hprev.1 hs, ← hnext]
      omega

theorem Inv.getCost (h : Inv P capacity w) :
    Inv P capacity { w with batch := (iobatchGetCost P w.batch).2 } := by
  obtain ⟨hperm, hbytes, hcap, -⟩ := IoBatch.iobatchGetCost_perm P w.batch
  refine ⟨hcap.trans h.room, ?_, fun r hr => h.sizes r (hperm.mem_iff.mp hr), ?_, fun x => ?_, .inr ?_⟩
  · rw [hperm.length_eq, hcap]
    exact h.length
  · rw [hbytes, h.bytes, (hperm.map _).sum_eq]
  · rw [← h.ranges x]
    exact hperm.countP_eq _
  · rw [iobatchGetCost_cost]
    exact iobatchGetCost_simulated P w.batch h.cost

theorem Inv.clear (h : Inv P capacity w) : Inv P capacity ⟨iobatchClear P w.batch, []⟩ := by
  unfold iobatchClear
  split
  · exact ⟨h.room, Nat.zero_le _, fun r hr => (List.not_mem_nil hr).elim, rfl, fun _ => rfl, .inl rfl⟩
  · rename_i hlen
    have hnil : w.batch.reqs = [] := List.length_eq_zero_iff.mp (by omega)
    refine ⟨h.room, h.length, h.sizes, h.bytes, fun x => ?_, h.cost⟩
    simp only [hnil]

theorem step_inv (hcap : capacity < 2 ^ 31) {e : Event} (hstep : step P w e = some w') (hfits : SizeFits w e)
    (h : Inv P capacity w) : Inv P capacity w' := by
  cases e with
  | add offset size =>
    obtain ⟨hs, hs', hlast⟩ := hfits
    cases hfull : iobatchFull w.batch with
    | true =>
      simp only [step, iobatchAddRequest, hfull, if_true] at hstep
      cases hstep
      exact h
    | false =>
      simp only [step, hfull, if_false, Bool.false_eq_true] at hstep
      cases hstep
      exact h.add hcap hs hs' hfull (hlast hfull)
  | getCost =>
    cases hstep
    exact h.getCost
  | clear =>
    cases hstep
    exact h.clear

theorem init_inv (P : Platform) (capacity : Nat) (bytesCap : Int) : Inv P capacity (init P capacity bytesCap) :=
  ⟨rfl, Nat.zero_le _, fun _ hr => (List.not_mem_nil hr).elim, rfl, fun _ => rfl, .inl rfl⟩

/-- In every run the batch has at most as many entries as it has room for; its bytes and its ranges are those
of what was accepted since it was cleared; and the cost that it remembers, if any, is that of its entries in
their order. -/
theorem batch_represents (P : Platform) (capacity : Nat) (hcap : capacity < 2 ^ 31) (bytesCap : Int)
    (es : List Event) (w : BatchLog) (hrun : run (step P) (init P capacity bytesCap) es = some w)
    (hfits : Meets (step P) SizeFits (init P capacity bytesCap) es) : Represents P capacity w := by
  have hinv := run_invariant_of_meets (I := Inv P capacity)
    (fun _ _ _ hstep hfits h => step_inv hcap hstep hfits h) hrun hfits (init_inv P capacity bytesCap)
  exact hinv.represents

/-- Extents out of order, one of them next to another, priced twice and cleared. -/
def mixedRun : List Event :=
  [.add 4096 512, .add 4608 512, .add 0 512, .getCost, .add 512 512, .getCost, .clear, .getCost, .clear, .add 0 1]

theorem batch_represents_mixed :
    ∃ w, run (step .lp64) (init .lp64 64 4096) mixedRun = some w ∧ w.accepted = [⟨0, 1⟩] ∧
      Represents .lp64 64 w := by
  have hany : (run (step .lp64) (init .lp64 64 4096) mixedRun).any
      (fun w => decide (w.accepted = [⟨0, 1⟩])) = true := by decide +kernel
  obtain ⟨w, hrun, haccepted⟩ := (Option.any_eq_true _ _).mp hany
  exact ⟨w, hrun, of_decide_eq_true haccepted,
    batch_represents .lp64 64 (by decide) 4096 mixedRun w hrun (by decide +kernel)⟩

end BatchLog
end SplitSched
