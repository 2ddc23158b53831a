import SplitSched.Deadline.Queues

/-!
# SplitSched.Deadline.WriteStarvation

How long reads go first while a write waits. A batch of reads that is selected while a write waits is counted in
`starved`, and at `writes_starved` the turn of the writes comes.

* `State.credit`: how many reads may still be dispatched before a write. A read that is dispatched while a
  write waits costs at least one (`Choice.credit`), and nothing but the dispatch of a write gives any back.
* `write_starvation_bounded`: the bound along any stretch of a run in which a write waits and none is dispatched.
-/

namespace SplitSched
namespace Deadline

variable {P : Platform} {s t : State} {r : Nat}

/-! ## What a dispatch costs -/

def goesOn (s : State) : Bool :=
  ((s.nextRq .write).or (s.nextRq .read)).isSome && decide (s.batching < uint s.fifoBatch)

def selectsReads (s : State) : Bool :=
  !goesOn s && decide (s.fifoList .read ≠ []) &&
    (decide (s.fifoList .write = []) || decide (s.starved < uint s.writesStarved))

def State.batchMax (s : State) : Nat := max 1 s.fifoBatch.toNat

/-- How many batches of reads may still pass the writes. -/
def State.batchCredit (s : State) : Nat := s.writesStarved.toNat - s.starved

/-- How many reads may still pass the writes: those of whole batches, and those left in the current one. -/
def State.credit (s : State) : Nat := s.batchCredit * s.batchMax + (s.fifoBatch.toNat - s.batching)

/-- The tunables, as a user can set them in an `int`, are not negative. -/
structure State.Tuned (s : State) : Prop where
  fifoBatch : 0 ≤ s.fifoBatch
  fifoBatch_lt : s.fifoBatch < 2 ^ 31
  writesStarved : 0 ≤ s.writesStarved
  writesStarved_lt : s.writesStarved < 2 ^ 31

theorem lt_uint_iff {x : Int} (h : 0 ≤ x) (h' : x < 2 ^ 31) (n : Nat) : (n : Int) < uint x ↔ n < x.toNat := by
  rw [uint]
  omega

theorem credit_le (s : State) : s.credit ≤ (s.writesStarved.toNat + 1) * s.batchMax := by
  have hbatches : s.batchCredit ≤ s.writesStarved.toNat := Nat.sub_le ..
  have hrest : s.fifoBatch.toNat - s.batching ≤ s.batchMax :=
    (Nat.sub_le ..).trans (le_max_right 1 s.fifoBatch.toNat)
  calc s.credit ≤ s.writesStarved.toNat * s.batchMax + s.batchMax :=
        Nat.add_le_add (Nat.mul_le_mul_right _ hbatches) hrest
    _ = (s.writesStarved.toNat + 1) * s.batchMax := by ring

theorem credit_congr (h : s.pace.2 = t.pace.2) : s.credit = t.credit ∧ s.batchCredit = t.batchCredit := by
  simp only [State.pace, Prod.mk.injEq] at h
  obtain ⟨hbatching, hstarved, hfifo, hwrites⟩ := h
  simp only [State.credit, State.batchCredit, State.batchMax, hbatching, hstarved, hfifo, hwrites,
    and_self]

/-- A read that passes a write costs one, and a batch of reads costs a batch. -/
theorem Choice.credit (h : Choice s t r) (hs : QueueOk s) (htuned : s.Tuned)
    (hwait : s.fifoList .write ≠ []) (hread : s.dir r = .read) :
    1 + ({ t with batching := t.batching + 1 } : State).credit ≤ s.credit ∧
      (selectsReads s).toNat + t.batchCredit ≤ s.batchCredit := by
  cases h with
  | goOn hr hbatch =>
    have hno : selectsReads s = false := by simp [selectsReads, goesOn, hr, hbatch]
    rw [lt_uint_iff htuned.fifoBatch htuned.fifoBatch_lt] at hbatch
    refine ⟨?_, by simp [hno]⟩
    simp only [State.credit, State.batchCredit, State.batchMax]
    omega
  | reads hr hwrite => exact absurd hwrite hwait
  | starve hr _ hstarved =>
    rw [lt_uint_iff htuned.writesStarved htuned.writesStarved_lt] at hstarved
    have hone : (selectsReads s).toNat ≤ 1 := Bool.toNat_le _
    have hcost : s.batchCredit = (s.writesStarved.toNat - (s.starved + 1)) + 1 := by
      rw [State.batchCredit]
      omega
    -- what is left of the batch that has just begun
    have hrest : 1 + (s.fifoBatch.toNat - 1) ≤ s.batchMax := by
      rw [State.batchMax]
      omega
    refine ⟨?_, by rw [hcost]; exact (Nat.add_comm ..).trans_le (Nat.add_le_add_left hone _)⟩
    calc 1 + ((s.writesStarved.toNat - (s.starved + 1)) * s.batchMax + (s.fifoBatch.toNat - (0 + 1)))
        ≤ (s.writesStarved.toNat - (s.starved + 1)) * s.batchMax + s.batchMax := by omega
      _ = s.batchCredit * s.batchMax := by rw [hcost, Nat.succ_mul]
      _ ≤ s.credit := Nat.le_add_right ..
  | writes hr =>
    rw [hs.dir _ r hr] at hread
    cases hread

/-! ## What a step costs -/

namespace Ledger

variable {w w' : Ledger} {e : Event}

def newReadBatch (w : Ledger) : Event → Nat
  | .dispatch => (selectsReads w.dd).toNat
  | _ => 0

def readBatches (P : Platform) : Ledger → List Event → Nat
  | _, [] => 0
  | w, e :: es =>
    match step P w e with
    | none => 0
    | some w' => w.newReadBatch e + readBatches P w' es

theorem deadlineMoveRequest_rqs (P : Platform) (s : State) (r : Nat) :
    (deadlineMoveRequest P s r).mem.rqs = s.mem.rqs := by
  unfold deadlineMoveRequest deadlineMoveToDispatch
  refine Eq.trans (inodeDecDirtyForSubmittedRq_keeps (g := fun s => s.mem.rqs)
    (fun _ _ _ _ hrqs _ => hrqs) P _ r) ?_
  rw [deadlineRemoveRequest_eq]

theorem deadlineMergedRequests_keeps (P : Platform) (s : State) (r next : Nat) :
    (deadlineMergedRequests P s r next).pace.2 = s.pace.2 ∧
      (deadlineMergedRequests P s r next).dispatched = s.dispatched ∧
      (deadlineMergedRequests P s r next).mem = s.mem := by
  unfold deadlineMergedRequests
  rw [deadlineRemoveRequest_eq]
  split_ifs <;> exact ⟨rfl, rfl, rfl⟩

/-- Only a dispatch hands over a request, or changes the turn. -/
theorem step_keeps (hs : step P w e = some w') (he : e ≠ .dispatch) :
    w'.dd.pace.2 = w.dd.pace.2 ∧ w'.dd.dispatched = w.dd.dispatched ∧ ∀ x, w'.dd.dir x = w.dd.dir x := by
  cases e with
  | add r =>
    simp only [step, Option.ite_none_right_eq_some, Option.some.injEq] at hs
    obtain ⟨-, rfl⟩ := hs
    exact ⟨rfl, rfl, fun _ => rfl⟩
  | merged r type bio =>
    simp only [step, Option.ite_none_right_eq_some, Option.some.injEq] at hs
    obtain ⟨-, rfl⟩ := hs
    cases type with
    | front => exact ⟨rfl, rfl, setRq_dir rfl⟩
    | back => exact ⟨rfl, rfl, setRq_dir rfl⟩
  | mergedRequests r next =>
    simp only [step, Option.ite_none_right_eq_some, Option.some.injEq] at hs
    obtain ⟨-, rfl⟩ := hs
    obtain ⟨hpace, hdisp, hmem⟩ := deadlineMergedRequests_keeps P (setRq w.dd r { w.dd.rq r with
      bios := (w.dd.rq r).bios ++ (w.dd.rq next).bios
      bytes := (w.dd.rq r).bytes + (w.dd.rq next).bytes }) r next
    refine ⟨hpace, hdisp, fun x => ?_⟩
    rw [State.dir, State.rq, hmem]
    refine setRq_dir (s := w.dd) (r := r) ?_ x
    rfl
  | dispatch => exact absurd rfl he
  | tick jiffies =>
    cases hs
    exact ⟨rfl, rfl, fun _ => rfl⟩

theorem step_tunables (h : QueueOk w.dd) (hs : step P w e = some w') :
    w'.dd.fifoBatch = w.dd.fifoBatch ∧ w'.dd.writesStarved = w.dd.writesStarved ∧
      ∀ x, w'.dd.dir x = w.dd.dir x := by
  by_cases he : e = .dispatch
  · subst he
    obtain ⟨o, ho, rfl⟩ := Option.map_eq_some_iff.mp hs
    rcases deadlineDispatchRequests_choice P h with ⟨-, -, hnone⟩ | ⟨t, r, hc, heq⟩
    · cases hnone.symm.trans ho
      exact ⟨rfl, rfl, fun _ => rfl⟩
    · cases heq.symm.trans ho
      have hpace := deadlineMoveRequest_pace P { t with batching := t.batching + 1 } r
      have hrqs := deadlineMoveRequest_rqs P { t with batching := t.batching + 1 } r
      simp only [State.pace, Prod.mk.injEq] at hpace
      obtain ⟨-, -, -, hfifo, hwrites⟩ := hpace
      refine ⟨hfifo.trans ?_, hwrites.trans ?_, fun x => ?_⟩
      · cases hc <;> rfl
      · cases hc <;> rfl
      · show rqDataDir ((deadlineMoveRequest P { t with batching := t.batching + 1 } r).mem.rqs x) = _
        rw [hrqs]
        cases hc <;> rfl
  · obtain ⟨hpace, -, hdir⟩ := step_keeps hs he
    simp only [State.pace, Prod.mk.injEq] at hpace
    exact ⟨hpace.2.2.1, hpace.2.2.2, hdir⟩

theorem step_credit (h : QueueOk w.dd) (htuned : w.dd.Tuned) (hwait : w.dd.fifoList .write ≠ [])
    (hs : step P w e = some w') :
    ∃ rs, w'.dd.dispatched = w.dd.dispatched ++ rs ∧ ((∀ r ∈ rs, w.dd.dir r = .read) →
      rs.length + w'.dd.credit ≤ w.dd.credit ∧
      w.newReadBatch e + w'.dd.batchCredit ≤ w.dd.batchCredit) := by
  by_cases he : e = .dispatch
  · subst he
    obtain ⟨o, ho, rfl⟩ := Option.map_eq_some_iff.mp hs
    rcases deadlineDispatchRequests_choice P h with ⟨-, hnone, -⟩ | ⟨t, r, hc, heq⟩
    · exact absurd hnone hwait
    · cases heq.symm.trans ho
      have ht : QueueOk { t with batching := t.batching + 1 } := h.of_queues hc.queues
      obtain ⟨-, -, -, hdisp, -⟩ := State.queues_eq_iff.mp hc.queues
      have hmoved := (deadlineMoveRequest_ok P ht r).2.2
      obtain ⟨hcredit, hbatches⟩ := credit_congr
        (congrArg Prod.snd (deadlineMoveRequest_pace P { t with batching := t.batching + 1 } r))
      refine ⟨[r], hmoved.trans (by rw [hdisp]), fun hread => ?_⟩
      obtain ⟨hcost, hcost'⟩ := hc.credit h htuned hwait (hread r (List.mem_singleton_self r))
      exact ⟨(Nat.add_le_add_left hcredit.le 1).trans hcost,
        (Nat.add_le_add_left hbatches.le _).trans hcost'⟩
  · obtain ⟨hpace, hdisp, -⟩ := step_keeps hs he
    obtain ⟨hcredit, hbatches⟩ := credit_congr hpace
    refine ⟨[], by simp [hdisp], fun _ => ⟨by simp [hcredit], ?_⟩⟩
    cases e with
    | dispatch => exact absurd rfl he
    | _ => exact (Nat.zero_add _).trans_le hbatches.le

/-! ## Stretches of a run -/

theorem step_tuned (h : QueueOk w.dd) (hs : step P w e = some w') (htuned : w.dd.Tuned) : w'.dd.Tuned := by
  obtain ⟨hfifo, hwrites, -⟩ := step_tunables h hs
  exact ⟨hfifo ▸ htuned.fifoBatch, hfifo ▸ htuned.fifoBatch_lt, hwrites ▸ htuned.writesStarved,
    hwrites ▸ htuned.writesStarved_lt⟩

def WriteWaits (w : Ledger) : Prop := w.dd.fifoList .write ≠ []

instance (w : Ledger) : Decidable w.WriteWaits := inferInstanceAs (Decidable (¬ _))

theorem run_credit (es : List Event) : ∀ {w w' : Ledger}, Accounted w → w.dd.Tuned →
    run (step P) w es = some w' → Always (step P) WriteWaits w es →
    (∀ x, w'.dd.dir x = w.dd.dir x) ∧
    ∃ rs, w'.dd.dispatched = w.dd.dispatched ++ rs ∧ ((∀ r ∈ rs, w'.dd.dir r = .read) →
      rs.length + w'.dd.credit ≤ w.dd.credit ∧
      readBatches P w es + w'.dd.batchCredit ≤ w.dd.batchCredit) := by
  induction es with
  | nil =>
    intro w w' _ _ hr _
    cases hr
    exact ⟨fun _ => rfl, [], by simp, fun _ => by simp [readBatches]⟩
  | cons e es ih =>
    intro w w' hacc htuned hr hwait
    obtain ⟨t, ht, hr⟩ := run_cons_some hr
    have hw : w.WriteWaits := hwait [] w (List.nil_prefix ..) rfl
    have hq := hacc.queues
    obtain ⟨-, -, hdir⟩ := step_tunables hq ht
    obtain ⟨rs₁, hrs₁, hcost₁⟩ := step_credit hq htuned hw ht
    obtain ⟨hdir', rs₂, hrs₂, hcost₂⟩ := ih (step_accounted hacc ht) (step_tuned hq ht htuned) hr
      (hwait.tail ht)
    refine ⟨fun x => (hdir' x).trans (hdir x), rs₁ ++ rs₂, ?_, fun hread => ?_⟩
    · rw [hrs₂, hrs₁, List.append_assoc]
    · obtain ⟨hreads₁, hbatches₁⟩ := hcost₁ fun r hr => by
        rw [← hdir r, ← hdir' r]
        exact hread r (List.mem_append_left _ hr)
      obtain ⟨hreads₂, hbatches₂⟩ := hcost₂ fun r hr => hread r (List.mem_append_right _ hr)
      simp only [readBatches, ht, List.length_append]
      omega

/-- Over any stretch of a run in which a write waits and no write is dispatched, at most `writes_starved`
batches of reads are newly selected, and the reads that are dispatched fill at most one batch more. -/
theorem write_starvation_bounded (P : Platform) (s : State) (h0 : Idle s) (htuned : s.Tuned)
    {es es' : List Event} {w w' : Ledger} (hr : run (step P) (init s) es = some w)
    (hr' : run (step P) w es' = some w') (hwait : Always (step P) WriteWaits w es') :
    ∃ rs, w'.dd.dispatched = w.dd.dispatched ++ rs ∧ ((∀ r ∈ rs, w'.dd.dir r = .read) →
      (readBatches P w es' : Int) ≤ s.writesStarved ∧
      (rs.length : Int) ≤ (s.writesStarved + 1) * max 1 s.fifoBatch) := by
  obtain ⟨hacc, htuned', hfifo, hwrites⟩ := run_invariant
    (I := fun w => Accounted w ∧ w.dd.Tuned ∧ w.dd.fifoBatch = s.fifoBatch ∧
      w.dd.writesStarved = s.writesStarved)
    (fun v e v' hs ⟨hacc, ht, hf, hw⟩ => by
      obtain ⟨hfifo, hwrites, -⟩ := step_tunables hacc.queues hs
      exact ⟨step_accounted hacc hs, step_tuned hacc.queues hs ht, hfifo.trans hf, hwrites.trans hw⟩)
    hr ⟨init_accounted h0, htuned, rfl, rfl⟩
  obtain ⟨-, rs, hrs, hcost⟩ := run_credit es' hacc htuned' hr' hwait
  refine ⟨rs, hrs, fun hread => ?_⟩
  obtain ⟨hreads, hbatches⟩ := hcost hread
  have hpos := htuned.fifoBatch
  have hpos' := htuned.writesStarved
  constructor
  · rw [State.batchCredit, State.batchCredit, hwrites] at hbatches
    omega
  · have hle : rs.length ≤ (s.writesStarved.toNat + 1) * max 1 s.fifoBatch.toNat := by
      have hbound := credit_le w.dd
      rw [State.batchMax, hwrites, hfifo] at hbound
      omega
    have hcast : (((s.writesStarved.toNat + 1) * max 1 s.fifoBatch.toNat : Nat) : Int) =
        (s.writesStarved + 1) * max 1 s.fifoBatch := by
      push_cast
      rw [Int.toNat_of_nonneg hpos, Int.toNat_of_nonneg hpos']
    rw [← hcast]
    exact_mod_cast hle

def oneWriteMem : Mem where
  __ := sampleMem
  rqs r := { sampleMem.rqs r with write := decide (r = 0) }

def tunedQueue : State := { deadlineInitQueue .lp64 oneWriteMem sampleEnv 7 with fifoBatch := 1 }

/-- A read is dispatched, then two more while a write waits. -/
theorem write_starvation_bounded_two_reads :
    ∃ w w', run (step .lp64) (init tunedQueue) [.add 1, .add 2, .add 3, .dispatch, .add 0] = some w ∧
      run (step .lp64) w [.dispatch, .dispatch] = some w' ∧ w'.dd.dispatched = [1, 2, 3] ∧
      readBatches .lp64 w [.dispatch, .dispatch] = 2 ∧
      ∃ rs, w'.dd.dispatched = w.dd.dispatched ++ rs ∧ ((∀ r ∈ rs, w'.dd.dir r = .read) →
        (readBatches .lp64 w [.dispatch, .dispatch] : Int) ≤ tunedQueue.writesStarved ∧
        (rs.length : Int) ≤ (tunedQueue.writesStarved + 1) * max 1 tunedQueue.fifoBatch) := by
  have h : (run (step .lp64) (init tunedQueue) [.add 1, .add 2, .add 3, .dispatch, .add 0]).any
      (fun w => (run (step .lp64) w [.dispatch, .dispatch]).any (fun w' =>
        decide (w'.dd.dispatched = [1, 2, 3] ∧ readBatches .lp64 w [.dispatch, .dispatch] = 2 ∧
          Meets (step .lp64) (fun w _ => w.WriteWaits) w [.dispatch, .dispatch] ∧ w'.WriteWaits))) =
      true := by
    decide +kernel
  obtain ⟨w, hw, hok⟩ := (Option.any_eq_true _ _).mp h
  obtain ⟨w', hw', hok⟩ := (Option.any_eq_true _ _).mp hok
  obtain ⟨hdisp, hbatches, hmeets, hlast⟩ := of_decide_eq_true hok
  have hidle : Idle tunedQueue := ⟨fun _ => rfl, fun _ => rfl, fun _ => rfl, rfl⟩
  exact ⟨w, w', hw, hw', hdisp, hbatches, write_starvation_bounded .lp64 tunedQueue hidle
    ⟨by decide, by decide, by decide, by decide⟩ hw hw'
    ((always_iff_meets_last hw').mpr ⟨hmeets, hlast⟩)⟩

end Ledger

end Deadline
end SplitSched
