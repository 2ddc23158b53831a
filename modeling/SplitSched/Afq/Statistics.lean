import SplitSched.Afq.HookTouches

/-!
# SplitSched.Afq.Statistics

The statistics of the AFQ scheduler: what `afq_accout_pos_seq_update` notes about an account, and the cells
of the arrays it and `cause_list_size_stat2` count in.

`last_sector` is an `int`, and a start sector has 64 bits. The comparisons widen the `int` again, so they go
wrong for the sectors that `int` does not hold (`pos_seq_update_once_iff`).

The index into `prio_served_rqs` is a C remainder, negative for most priorities above 8, and the priority
comes from the control device. `indices_in_bounds` says which priorities are harmless.
-/

namespace SplitSched
namespace Afq

variable {P : Platform} {s s' : State} {acct : Int}

/-! ## Start sectors -/

/-- A start sector that is the same 64-bit number after it was stored in an `int`. -/
def SectorFits (pos : Nat) : Prop := pos < 2 ^ 31 ∨ 2 ^ 64 - 2 ^ 31 ≤ pos

instance (pos : Nat) : Decidable (SectorFits pos) := inferInstanceAs (Decidable (_ ∨ _))

/-- `last_sector` and the sector differ by a multiple of `2 ^ 32`. -/
theorem lastSector_cases (hP : P.IsLp64) {pos : Nat} (h : pos < 2 ^ 64) :
    ∃ k : Int, (pos : Int) = P.int pos + k * 2 ^ 32 ∧ 0 ≤ k ∧ k ≤ 2 ^ 32 ∧
      (SectorFits pos ↔ k = 0 ∨ k = 2 ^ 32) := by
  have hsplit := Int.bmod_add_bdiv (pos : Int) (2 ^ 32)
  have hlt := Int.bmod_lt (x := (pos : Int)) (m := 2 ^ 32) (by norm_num)
  have hle := Int.le_bmod (x := (pos : Int)) (m := 2 ^ 32) (by norm_num)
  rw [hP.int]
  refine ⟨Int.bdiv pos (2 ^ 32), by omega, by omega, by omega, ?_⟩
  rw [SectorFits]
  omega

/-- Whether the early return of `afq_accout_pos_seq_update` recognises the sector it stored. -/
theorem ulong_int_eq_iff (hP : P.IsLp64) {pos : Nat} (h : pos < 2 ^ 64) :
    P.ulong (P.int pos) = pos ↔ SectorFits pos := by
  obtain ⟨k, hk, h0, h1, hiff⟩ := lastSector_cases hP h
  rw [hP.ulong_emod, hiff]
  omega

/-- Whether a sector close to the one that was stored is found to be close. -/
theorem kernelAbs_lt_iff (hP : P.IsLp64) {pos pos' : Nat} (h : pos < 2 ^ 64) (hne : pos ≠ pos')
    (hd : |(pos : Int) - pos'| < seqDist) :
    kernelAbs P (P.long (P.int pos - pos')) < seqDist ↔ SectorFits pos := by
  obtain ⟨k, hk, h0, h1, hiff⟩ := lastSector_cases hP h
  have hsplit := Int.bmod_add_bdiv (P.int pos - pos') (2 ^ 64)
  have hlt := hP.long_lt (P.int pos - pos')
  have hle := hP.le_long (P.int pos - pos')
  rw [← hP.long] at hsplit
  simp only [seqDist, abs_lt] at hd ⊢
  rw [hiff, kernelAbs]
  split
  · -- the difference is not `LONG_MIN`, which is a multiple of `2 ^ 32`
    rw [P.long_fits _ (by omega) (by omega)]
    omega
  · omega

/-! ## Twice for one request -/

def State.lastSector (s : State) (id : Int) : Int := s.accounts.val (·.lastSector) 0 id

/-- What `afq_accout_pos_seq_update` keeps for an account and for the scheduler. -/
def State.noted (s : State) (id : Int) : Int × Int × (Int → Int) :=
  (s.seqCounter id, s.lastSector id, s.prioServedRqs)

/-- `seq_counter` after a request at `pos`. -/
def seqCounterAfter (P : Platform) (lastSector seqCounter : Int) (pos : Nat) : Int :=
  if kernelAbs P (P.long (lastSector - pos)) < seqDist then
    if seqCounter < seqThreshold then seqCounter + 1 else seqCounter
  else if 0 < seqCounter then seqCounter - 2 else seqCounter

theorem seqCounterAfter_ge_iff (P : Platform) (lastSector seqCounter : Int) (pos : Nat) :
    seqCounter ≤ seqCounterAfter P lastSector seqCounter pos ↔
      kernelAbs P (P.long (lastSector - pos)) < seqDist ∨ seqCounter ≤ 0 := by
  simp only [seqCounterAfter]
  split_ifs <;> omega

/-- Everything `afq_accout_pos_seq_update` can do for an account there is. -/
theorem afqAccoutPosSeqUpdate_noted (hk : acct ∈ s.accounts.keys) (rq : Nat) :
    (P.ulong (s.lastSector acct) = (s.mem.rqs rq).pos ∧ afqAccoutPosSeqUpdate P s acct rq = s) ∨
    (P.ulong (s.lastSector acct) ≠ (s.mem.rqs rq).pos ∧
      (afqAccoutPosSeqUpdate P s acct rq).seqCounter acct =
        seqCounterAfter P (s.lastSector acct) (s.seqCounter acct) (s.mem.rqs rq).pos ∧
      (afqAccoutPosSeqUpdate P s acct rq).lastSector acct = P.int (s.mem.rqs rq).pos ∧
      ∃ idx, (afqAccoutPosSeqUpdate P s acct rq).prioServedRqs =
        Function.update s.prioServedRqs idx (s.prioServedRqs idx + 1)) := by
  obtain ⟨a, ha⟩ := Registry.find_eq_some hk
  have hlast : s.lastSector acct = a.lastSector := by simp [State.lastSector, Registry.val, ha]
  have hseq : s.seqCounter acct = a.seqCounter := by simp [State.seqCounter, Registry.val, ha]
  rw [hlast, hseq]
  simp only [afqAccoutPosSeqUpdate, ha]
  by_cases hsame : P.ulong a.lastSector = (s.mem.rqs rq).pos
  · exact .inl ⟨hsame, if_pos hsame⟩
  · rw [if_neg hsame]
    refine .inr ⟨hsame, ?_, ?_, _, rfl⟩
    · simp [State.seqCounter, State.modifyAccount, Registry.val, Registry.modify, ha, posSeqUpdate,
        seqCounterAfter]
    · simp [State.lastSector, State.modifyAccount, Registry.val, Registry.modify, ha, posSeqUpdate]

theorem afqAccoutPosSeqUpdate_mem (P : Platform) (s : State) (acct : Int) (rq : Nat) :
    (afqAccoutPosSeqUpdate P s acct rq).mem = s.mem := by
  simp only [afqAccoutPosSeqUpdate]
  split
  · rfl
  · split <;> rfl

/-- After the update, `last_sector` holds the sector as far as an `int` can. -/
theorem afqAccoutPosSeqUpdate_lastSector (hP : P.IsLp64) (hk : acct ∈ s.accounts.keys)
    (hlast : -2 ^ 31 ≤ s.lastSector acct ∧ s.lastSector acct < 2 ^ 31) (rq : Nat) :
    (afqAccoutPosSeqUpdate P s acct rq).lastSector acct = P.int (s.mem.rqs rq).pos := by
  rcases afqAccoutPosSeqUpdate_noted (P := P) hk rq with ⟨hsame, heq⟩ | ⟨-, -, h, -⟩
  · have hsplit := Int.bmod_add_bdiv (P.ulong (s.lastSector acct)) (2 ^ 32)
    have hlt := Int.bmod_lt (x := P.ulong (s.lastSector acct)) (m := 2 ^ 32) (by norm_num)
    have hle := Int.le_bmod (x := P.ulong (s.lastSector acct)) (m := 2 ^ 32) (by norm_num)
    rw [heq, ← hsame, hP.int]
    rw [hP.ulong_emod] at hsplit hlt hle ⊢
    omega
  · exact h

/-- A close sector is never taken for the one that was stored. -/
theorem ulong_int_ne (hP : P.IsLp64) {pos pos' : Nat} (h : pos < 2 ^ 64) (hne : pos ≠ pos')
    (hd : |(pos : Int) - pos'| < seqDist) : P.ulong (P.int pos) ≠ pos' := by
  obtain ⟨k, hk, h0, h1, -⟩ := lastSector_cases hP h
  simp only [seqDist, abs_lt] at hd
  rw [hP.ulong_emod]
  omega

/-- For a request whose start sector fits an `int`, and for no other, the second update does nothing. A
second request close to such a sector counts as sequential; close to another sector it does not, which
shows unless `seq_counter` is at its floor. -/
theorem pos_seq_update_once_iff (hP : P.IsLp64) (s : State) {acct : Int} (hk : acct ∈ s.accounts.keys)
    (hlast : -2 ^ 31 ≤ s.lastSector acct ∧ s.lastSector acct < 2 ^ 31) (rq : Nat)
    (hpos : (s.mem.rqs rq).pos < 2 ^ 64) :
    let t := afqAccoutPosSeqUpdate P s acct rq
    ((afqAccoutPosSeqUpdate P t acct rq).noted acct = t.noted acct ↔ SectorFits (s.mem.rqs rq).pos) ∧
    ∀ rq', (s.mem.rqs rq).pos ≠ (s.mem.rqs rq').pos →
      |((s.mem.rqs rq).pos : Int) - (s.mem.rqs rq').pos| < seqDist →
      (t.seqCounter acct ≤ (afqAccoutPosSeqUpdate P t acct rq').seqCounter acct ↔
        SectorFits (s.mem.rqs rq).pos ∨ t.seqCounter acct ≤ 0) := by
  intro t
  have hmem : t.mem = s.mem := afqAccoutPosSeqUpdate_mem P s acct rq
  have hkt : acct ∈ t.accounts.keys := (afqAccoutPosSeqUpdate_charges P s acct rq).keys acct hk
  have hstored : t.lastSector acct = P.int (s.mem.rqs rq).pos :=
    afqAccoutPosSeqUpdate_lastSector hP hk hlast rq
  constructor
  · rcases afqAccoutPosSeqUpdate_noted (P := P) hkt rq with ⟨hsame, heq⟩ | ⟨hdiff, -, -, idx, hidx⟩
    · rw [hstored, hmem, ulong_int_eq_iff hP hpos] at hsame
      exact ⟨fun _ => hsame, fun _ => by rw [heq]⟩
    · rw [hstored, hmem, Ne, ulong_int_eq_iff hP hpos] at hdiff
      refine ⟨fun h => ?_, fun hfits => absurd hfits hdiff⟩
      -- the request is counted once more
      have hcell := congrFun (congrArg (fun n => n.2.2) h) idx
      simp only [State.noted, hidx, Function.update_self] at hcell
      omega
  · intro rq' hne hd
    rcases afqAccoutPosSeqUpdate_noted (P := P) hkt rq' with ⟨hsame, -⟩ | ⟨-, hseq, -, -⟩
    · rw [hstored, hmem] at hsame
      exact absurd hsame (ulong_int_ne hP hpos hne hd)
    · rw [hseq, seqCounterAfter_ge_iff, hstored, hmem, kernelAbs_lt_iff hP hpos hne hd]

/-- Requests of sectors 16 and 24, for an account that read before. -/
theorem pos_seq_update_once_near : ∃ s w, basicSchedInitData .lp64 sampleMem sampleEnv = some s ∧
    run (step .lp64) (World.init s) [.add 1 7] = some w ∧
    let t := afqAccoutPosSeqUpdate .lp64 w.afq 7 2
    (afqAccoutPosSeqUpdate .lp64 t 7 2).noted 7 = t.noted 7 ∧
      t.seqCounter 7 ≤ (afqAccoutPosSeqUpdate .lp64 t 7 3).seqCounter 7 := by
  have h : ((basicSchedInitData .lp64 sampleMem sampleEnv).bind fun s =>
      run (step .lp64) (World.init s) [.add 1 7]).any (fun w =>
        decide (7 ∈ w.afq.accounts.keys ∧ w.afq.lastSector 7 = 0 ∧ (w.afq.mem.rqs 2).pos = 16 ∧
          (w.afq.mem.rqs 3).pos = 24)) = true := by
    decide +kernel
  obtain ⟨w, hw, hok⟩ := (Option.any_eq_true _ _).mp h
  obtain ⟨s, h0, hr⟩ := Option.bind_eq_some_iff.mp hw
  obtain ⟨hk, hlast, h2, h3⟩ := of_decide_eq_true hok
  have hfits : SectorFits (w.afq.mem.rqs 2).pos := by rw [h2]; decide
  obtain ⟨honce, hclose⟩ := pos_seq_update_once_iff Platform.isLp64_lp64 w.afq hk
    (by rw [hlast]; decide) 2 (by rw [h2]; decide)
  refine ⟨s, w, h0, hr, honce.mpr hfits, (hclose 3 ?_ ?_).mpr (.inl hfits)⟩
  · rw [h2, h3]
    decide
  · rw [h2, h3]
    decide

/-- An account reads in sequence, then at sector `2 ^ 31`, which is 1 TiB into the disk. -/
def farRead (s : State) : State :=
  [1, 2, 3, 2 ^ 28].foldl (fun s rq => afqAccoutPosSeqUpdate .lp64 s 7 rq) s

/-- The request is counted again when it is updated again, and the next one, 8 sectors on, does not count
as sequential. -/
theorem far_read_noted_twice : ∃ s w, basicSchedInitData .lp64 sampleMem sampleEnv = some s ∧
    run (step .lp64) (World.init s) [.add 1 7] = some w ∧
    ((farRead w.afq).mem.rqs (2 ^ 28)).pos = 2 ^ 31 ∧
    ((farRead w.afq).mem.rqs (2 ^ 28 + 1)).pos = 2 ^ 31 + 8 ∧
    (afqAccoutPosSeqUpdate .lp64 (farRead w.afq) 7 (2 ^ 28)).prioServedRqs 0 =
      (farRead w.afq).prioServedRqs 0 + 1 ∧
    (afqAccoutPosSeqUpdate .lp64 (farRead w.afq) 7 (2 ^ 28 + 1)).seqCounter 7 <
      (farRead w.afq).seqCounter 7 := by
  have h : ((basicSchedInitData .lp64 sampleMem sampleEnv).bind fun s =>
      run (step .lp64) (World.init s) [.add 1 7]).any (fun w =>
        decide (((farRead w.afq).mem.rqs (2 ^ 28)).pos = 2 ^ 31 ∧
          ((farRead w.afq).mem.rqs (2 ^ 28 + 1)).pos = 2 ^ 31 + 8 ∧
          (afqAccoutPosSeqUpdate .lp64 (farRead w.afq) 7 (2 ^ 28)).prioServedRqs 0 =
            (farRead w.afq).prioServedRqs 0 + 1 ∧
          (afqAccoutPosSeqUpdate .lp64 (farRead w.afq) 7 (2 ^ 28 + 1)).seqCounter 7 <
            (farRead w.afq).seqCounter 7)) = true := by
    decide +kernel
  obtain ⟨w, hw, hok⟩ := (Option.any_eq_true _ _).mp h
  obtain ⟨s, h0, hr⟩ := Option.bind_eq_some_iff.mp hw
  exact ⟨s, w, h0, hr, of_decide_eq_true hok⟩

/-! ## Indices -/

/-- No cell outside the arrays was counted in: a cell starts at 0, and every use of its index adds 1. -/
structure State.InBounds (s : State) : Prop where
  prioServedRqs : ∀ i, ¬ (0 ≤ i ∧ i < ioprioBeNr) → s.prioServedRqs i = 0
  caustCountDist : ∀ i, ¬ (0 ≤ i ∧ i < maxCauseCount) → s.caustCountDist i = 0
  journalCct : ∀ i, ¬ (0 ≤ i ∧ i < maxCauseCount) → s.journalCct i = 0

/-- The priorities, as an `int`, whose index is in bounds. The subtraction overflows for the lowest. -/
def IndexFits (prio : Int) : Prop := 8 ∣ prio ∨ (-2 ^ 31 + 8 < prio ∧ prio ≤ 8)

instance (prio : Int) : Decidable (IndexFits prio) := inferInstanceAs (Decidable (_ ∨ _))

theorem index_fits_iff (hP : P.IsLp64) {prio : Int} (h : -2 ^ 31 ≤ prio) (h' : prio < 2 ^ 31) :
    0 ≤ (P.int (ioprioBeNr - prio)).tmod ioprioBeNr ↔ IndexFits prio := by
  have hsplit := Int.bmod_add_bdiv (8 - prio) (2 ^ 32)
  have hlt := Int.bmod_lt (x := 8 - prio) (m := 2 ^ 32) (by norm_num)
  have hle := Int.le_bmod (x := 8 - prio) (m := 2 ^ 32) (by norm_num)
  simp only [hP.int, ioprioBeNr, IndexFits, Int.tmod_eq_emod]
  split <;> omega

/-- A priority that came through an `int`, with an index in bounds. -/
def PrioFits (prio : Int) : Prop := -2 ^ 31 ≤ prio ∧ prio < 2 ^ 31 ∧ IndexFits prio

theorem PrioFits.of_int (hP : P.IsLp64) {val : Int} (h : IndexFits (P.int val)) : PrioFits (P.int val) := by
  refine ⟨?_, ?_, h⟩
  · rw [hP.int]
    exact Int.le_bmod (by norm_num)
  · rw [hP.int]
    exact Int.bmod_lt (by norm_num)

theorem PrioFits.index (hP : P.IsLp64) {prio : Int} (h : PrioFits prio) :
    0 ≤ (P.int (ioprioBeNr - prio)).tmod ioprioBeNr ∧
      (P.int (ioprioBeNr - prio)).tmod ioprioBeNr < ioprioBeNr :=
  ⟨(index_fits_iff hP h.1 h.2.1).mpr h.2.2, Int.tmod_lt_of_pos _ (by decide)⟩

/-- Counting in a cell of the array leaves the cells outside alone. -/
theorem update_outside {f : Int → Int} {i n v : Int} (h : ∀ j, ¬ (0 ≤ j ∧ j < n) → f j = 0) (h0 : 0 ≤ i)
    (hn : i < n) (j : Int) (hj : ¬ (0 ≤ j ∧ j < n)) : Function.update f i v j = 0 := by
  have hne : j ≠ i := by
    rintro rfl
    exact hj ⟨h0, hn⟩
  rw [Function.update_of_ne hne]
  exact h j hj

/-! ### One touch -/

theorem State.InBounds.of_stats (h : s.InBounds) (hs : s'.stats = s.stats) : s'.InBounds := by
  obtain ⟨hserved, hdist, hjournal⟩ : s'.prioServedRqs = s.prioServedRqs ∧
      s'.caustCountDist = s.caustCountDist ∧ s'.journalCct = s.journalCct := by
    simpa [State.stats] using hs
  exact ⟨hserved ▸ h.prioServedRqs, hdist ▸ h.caustCountDist, hjournal ▸ h.journalCct⟩

theorem updateActiveMin_stats (P : Platform) (s : State) : (updateActiveMin P s).stats = s.stats := by
  simp only [updateActiveMin]
  split <;> rfl

theorem addVioCounter_stats (P : Platform) (s : State) (acct : Int) :
    (addVioCounter P s acct).stats = s.stats := by
  simp only [addVioCounter]
  split_ifs
  · exact updateActiveMin_stats P _
  · exact updateActiveMin_stats P _
  · rfl
  · rfl

theorem sizeStatItem_inBounds (h : s.InBounds) (l : Nat) : (sizeStatItem s l).InBounds := by
  have hcount : 0 ≤ (s.mem.lists l).itemCount := by
    rw [(s.mem.lists l).count_eq]
    exact Int.natCast_nonneg _
  simp only [sizeStatItem]
  split_ifs with hmax
  · exact h
  · exact ⟨h.prioServedRqs, update_outside h.caustCountDist hcount (not_le.mp hmax), h.journalCct⟩
  · exact ⟨h.prioServedRqs, h.caustCountDist, update_outside h.journalCct hcount (not_le.mp hmax)⟩
  · exact h

theorem afqAccoutPosSeqUpdate_inBounds (hP : P.IsLp64) (h : s.InBounds)
    (hprio : ∀ id, PrioFits (s.ioprio id)) (acct : Int) (rq : Nat) :
    (afqAccoutPosSeqUpdate P s acct rq).InBounds := by
  simp only [afqAccoutPosSeqUpdate]
  split
  · exact h
  · rename_i a ha
    have hfits : PrioFits a.ioprio := by simpa [State.ioprio, Registry.val, ha] using hprio acct
    obtain ⟨h0, hn⟩ := hfits.index hP
    split
    · exact h
    · exact ⟨update_outside h.prioServedRqs h0 hn, h.caustCountDist, h.journalCct⟩

theorem Touch.inBounds {sets : String → Int → Prop} {gates : Bool} (hP : P.IsLp64)
    (h : Touch P sets gates s s') (hs : s.InBounds) (hprio : ∀ id, PrioFits (s.ioprio id)) :
    s'.InBounds := by
  cases h with
  | still h => exact hs.of_stats h.stats
  | charge acct => exact hs.of_stats (addVioCounter_stats P s acct)
  | refresh => exact hs.of_stats (updateActiveMin_stats P s)
  | wake acct => exact hs.of_stats rfl
  | serve acct rq => exact afqAccoutPosSeqUpdate_inBounds hP hs hprio acct rq
  | count l => exact sizeStatItem_inBounds hs l
  | set id h => exact hs.of_stats rfl

/-! ### Runs -/

/-- A priority that is set has an index in bounds. -/
def SetsIndex (P : Platform) : Event → Prop
  | .kvSet _ key val => key = "ioprio" → IndexFits (P.int val)
  | _ => True

instance (e : Event) : Decidable (SetsIndex P e) := by
  unfold SetsIndex
  split <;> infer_instance

theorem step_inBounds (hP : P.IsLp64) {w w' : World} {e : Event} (h : step P w e = some w')
    (he : SetsIndex P e) (hs : w.afq.InBounds ∧ ∀ id, PrioFits (w.afq.ioprio id)) :
    w'.afq.InBounds ∧ ∀ id, PrioFits (w'.afq.ioprio id) := by
  refine (step_touches h).keep (I := fun s => s.InBounds ∧ ∀ id, PrioFits (s.ioprio id))
    (fun s s' ht hs => ⟨ht.inBounds hP hs.1 hs.2, ht.forall_ioprio (fun val hval => ?_) hs.2⟩) hs
  obtain ⟨id, rfl⟩ := Event.eq_kvSet_of_sets hval
  exact .of_int hP (he rfl)

theorem init_inBounds {m : Mem} {env : Env} (h : basicSchedInitData P m env = some s) :
    s.InBounds ∧ ∀ id, PrioFits (s.ioprio id) := by
  simp only [basicSchedInitData] at h
  split at h
  · cases h
    have hprio : PrioFits 0 := by simp [PrioFits, IndexFits]
    exact ⟨⟨fun _ _ => rfl, fun _ _ => rfl, fun _ _ => rfl⟩, fun _ => hprio⟩
  · cases h

/-- Along the runs in which every priority set through the control device has an index in bounds, no index
is out of bounds. -/
theorem indices_in_bounds (hP : P.IsLp64) {m : Mem} {env : Env} {es : List Event} {w : World}
    (h0 : basicSchedInitData P m env = some s) (hr : run (step P) (World.init s) es = some w)
    (hes : ∀ e ∈ es, SetsIndex P e) :
    Always (step P) (fun w => w.afq.InBounds) (World.init s) es := by
  refine always_of_meets (I := fun w => w.afq.InBounds ∧ ∀ id, PrioFits (w.afq.ioprio id))
    (fun _ _ _ => step_inBounds hP) (fun _ h => h.1) ((meets_iff_forall hr).mpr hes) (init_inBounds h0)

/-- A reader with priority 3 is served. -/
def servedReader : List Event := [.kvSet 7 "ioprio" 3, .add 1 7, .dispatch]

theorem indices_in_bounds_served : ∃ s w, basicSchedInitData .lp64 sampleMem sampleEnv = some s ∧
    run (step .lp64) (World.init s) servedReader = some w ∧ w.afq.prioServedRqs 5 = 1 ∧
    Always (step .lp64) (fun w => w.afq.InBounds) (World.init s) servedReader := by
  have h : ((basicSchedInitData .lp64 sampleMem sampleEnv).bind fun s =>
      run (step .lp64) (World.init s) servedReader).any
        (fun w => decide (w.afq.prioServedRqs 5 = 1)) = true := by
    decide +kernel
  obtain ⟨w, hw, hok⟩ := (Option.any_eq_true _ _).mp h
  obtain ⟨s, h0, hr⟩ := Option.bind_eq_some_iff.mp hw
  exact ⟨s, w, h0, hr, of_decide_eq_true hok,
    indices_in_bounds Platform.isLp64_lp64 h0 hr (by decide +kernel)⟩

/-- A reader with priority 9 is served, and cell -1 of `prio_served_rqs` is written. -/
theorem priority_nine_out_of_bounds : ∃ s w, basicSchedInitData .lp64 sampleMem sampleEnv = some s ∧
    run (step .lp64) (World.init s) [.kvSet 7 "ioprio" 9, .add 1 7, .dispatch] = some w ∧
    w.afq.prioServedRqs (-1) = 1 := by
  have h : ((basicSchedInitData .lp64 sampleMem sampleEnv).bind fun s =>
      run (step .lp64) (World.init s) [.kvSet 7 "ioprio" 9, .add 1 7, .dispatch]).any
        (fun w => decide (w.afq.prioServedRqs (-1) = 1)) = true := by
    decide +kernel
  obtain ⟨w, hw, hok⟩ := (Option.any_eq_true _ _).mp h
  obtain ⟨s, h0, hr⟩ := Option.bind_eq_some_iff.mp hw
  exact ⟨s, w, h0, hr, of_decide_eq_true hok⟩

end Afq
end SplitSched
