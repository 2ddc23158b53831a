import SplitSched.Afq.HookTouches
import SplitSched.Afq.Selection

/-!
# SplitSched.Afq.Starvation

Selection looks for a counter below `MAX_VIO_COUNTER_THRESHOLD * 2`, and returns -1 when no active account
has one. The counters are kept in range by `add_vio_counter`, which resets them all when the one it charges
passes the threshold; a counter is also copied from the global minimum, or set through the control device.

* `Touch.inRange`: charges, activations and refreshes of the minimum keep every counter in range.
* `pending_work_found`: in runs that set no counter at or above `MAX_VIO_COUNTER_THRESHOLD * 2`, pending work
  is found, and unless a priority with a negative share is set, no addition overflows.
-/

namespace SplitSched
namespace Afq

variable {P : Platform} {s s' : State}

/-- A `long` that selection finds. -/
def Findable (vio : Int) : Prop := -2 ^ 63 ≤ vio ∧ vio < maxVioCounterThreshold * 2

instance (vio : Int) : Decidable (Findable vio) := inferInstanceAs (Decidable (_ ∧ _))

theorem findable_of_le {vio : Int} (h : -2 ^ 63 ≤ vio) (h' : vio ≤ maxVioCounterThreshold) :
    Findable vio := by
  refine ⟨h, lt_of_le_of_lt h' ?_⟩
  decide

theorem findable_zero : Findable 0 := by decide

/-- Every counter is findable, and so is the one an account is given when it wakes up. -/
structure State.InRange (s : State) : Prop where
  counter : ∀ id, Findable (s.vioCounter id)
  waking : Findable s.globalMinVioCounter2

/-! ## One touch -/

theorem activeMinStep_findable (hlong : ∀ id, -2 ^ 63 ≤ s.vioCounter id) {best : Int × Option Int}
    (h : -2 ^ 63 ≤ best.1 ∧ best.1 ≤ maxVioCounterThreshold) (id : Int) :
    -2 ^ 63 ≤ (activeMinStep P s best id).1 ∧
      (activeMinStep P s best id).1 ≤ maxVioCounterThreshold := by
  simp only [activeMinStep]
  split
  · exact h
  · rename_i a ha
    split
    · rename_i hlt
      have hvio : s.vioCounter id = a.vioCounter := by simp [State.vioCounter, Registry.val, ha]
      exact ⟨hvio ▸ hlong id, (hlt.2.2.trans_le h.2).le⟩
    · exact h

theorem updateActiveMin_findable (hlong : ∀ id, -2 ^ 63 ≤ s.vioCounter id)
    (h : Findable s.globalMinVioCounter2) : Findable (updateActiveMin P s).globalMinVioCounter2 := by
  have hbest : ∀ (ids : List Int) (best : Int × Option Int),
      -2 ^ 63 ≤ best.1 ∧ best.1 ≤ maxVioCounterThreshold →
      -2 ^ 63 ≤ (ids.foldl (activeMinStep P s) best).1 ∧
        (ids.foldl (activeMinStep P s) best).1 ≤ maxVioCounterThreshold := by
    intro ids
    induction ids with
    | nil => exact fun _ hb => hb
    | cons id ids ih => exact fun best hb => ih _ (activeMinStep_findable hlong hb id)
  simp only [updateActiveMin]
  split
  · obtain ⟨hlo, hhi⟩ := hbest s.accounts.keys (maxVioCounterThreshold, none) (by decide)
    exact findable_of_le hlo hhi
  · exact h

theorem resetVioCounters_vioCounter (s : State) (id : Int) : (resetVioCounters s).vioCounter id = 0 := by
  cases h : s.accounts.find id <;>
    simp [State.vioCounter, resetVioCounters, Registry.val, Registry.map, h, resetVio]

/-- The reset looks only at the counter of the account that is charged, but no other has grown. -/
theorem addVioCounter_inRange (hP : P.IsLp64) (h : s.InRange) (acct : Int) :
    (addVioCounter P s acct).InRange := by
  have hlong : ∀ id, -2 ^ 63 ≤ (s.modifyAccount acct (chargeVio P)).vioCounter id :=
    Registry.forall_val_modify (fun id => (h.counter id).1) fun a _ => hP.le_long _
  have hother : ∀ id ≠ acct, (s.modifyAccount acct (chargeVio P)).vioCounter id = s.vioCounter id :=
    fun id hid => Registry.val_modify_of_ne _ hid _ _ _
  simp only [addVioCounter]
  generalize hu : (if (s.modifyAccount acct (chargeVio P)).minAcct = some acct ∨
    (s.modifyAccount acct (chargeVio P)).minAcct = none then
      updateActiveMin P (s.modifyAccount acct (chargeVio P))
    else s.modifyAccount acct (chargeVio P)) = u
  have hvio : u.vioCounter = (s.modifyAccount acct (chargeVio P)).vioCounter := by
    subst hu
    split
    · funext id
      rw [State.vioCounter, updateActiveMin_accounts, State.vioCounter]
    · rfl
  have hwaking : Findable u.globalMinVioCounter2 := by
    subst hu
    split
    · exact updateActiveMin_findable hlong h.waking
    · exact h.waking
  split
  · exact ⟨fun id => resetVioCounters_vioCounter u id ▸ findable_zero, findable_zero⟩
  · rename_i hle
    refine ⟨fun id => ?_, hwaking⟩
    by_cases hid : id = acct
    · subst hid
      exact findable_of_le (hvio ▸ hlong id) (not_lt.mp hle)
    · rw [hvio, hother id hid]
      exact h.counter id

theorem Touch.inRange {sets : String → Int → Prop} {gates : Bool} (hP : P.IsLp64)
    (hset : ∀ val, sets "vio_counter" val → Findable val)
    (h : Touch P sets gates s s') (hs : s.InRange) : s'.InRange := by
  cases h with
  | still h => exact ⟨h.vioCounter ▸ hs.counter, h.globalMinVioCounter2 ▸ hs.waking⟩
  | charge acct => exact addVioCounter_inRange hP hs acct
  | refresh =>
    refine ⟨fun id => ?_, updateActiveMin_findable (fun id => (hs.counter id).1) hs.waking⟩
    rw [State.vioCounter, updateActiveMin_accounts]
    exact hs.counter id
  | wake acct =>
    refine ⟨Registry.forall_val_modify hs.counter fun a ha => ?_, hs.waking⟩
    split
    · exact hs.waking
    · exact ha
  | serve acct rq =>
    have hvio : (afqAccoutPosSeqUpdate P s acct rq).vioCounter = s.vioCounter :=
      funext (val_of_view (afqAccoutPosSeqUpdate_view P s acct rq) fun v => v.2.1)
    refine ⟨hvio ▸ hs.counter, ?_⟩
    simp only [afqAccoutPosSeqUpdate]
    split
    · exact hs.waking
    · split <;> exact hs.waking
  | count l =>
    refine ⟨fun id => ?_, ?_⟩
    · rw [State.vioCounter, sizeStatItem_accounts]
      exact hs.counter id
    · simp only [sizeStatItem]
      split_ifs <;> exact hs.waking
  | @set id key val h =>
    refine ⟨Registry.forall_val_modify hs.counter fun a ha => ?_, hs.waking⟩
    simp only [kvApply]
    split_ifs with hprio hk
    · exact ha
    · exact hset val (hk ▸ h)
    · exact ha

/-! ## Runs -/

namespace Starvation

/-- The hooks, and charges of any account besides those the hooks make. -/
inductive Event where
  | hook (e : Afq.Event)
  | charge (acct quantity : Int)

def step (P : Platform) (w : World) : Event → Option World
  | .hook e => Afq.step P w e
  | .charge acct quantity =>
    if acct ∈ w.afq.accounts.keys then
      some { w with afq := addVioCounterBy P w.afq acct quantity }
    else none

def Event.sets : Event → String → Int → Prop
  | .hook e => e.sets
  | .charge _ _ => fun _ _ => False

def Event.gates : Event → Bool
  | .hook e => e.gates
  | .charge _ _ => false

/-- A counter that is set is a `long` below `MAX_VIO_COUNTER_THRESHOLD * 2`. -/
def SetsFindable : Event → Prop
  | .hook (.kvSet _ key val) => key = "vio_counter" → Findable val
  | _ => True

/-- A priority that is set has no negative share. -/
def SetsShare (P : Platform) : Event → Prop
  | .hook (.kvSet _ key val) => key = "ioprio" → 0 ≤ vioShare (P.int val)
  | _ => True

instance (e : Event) : Decidable (SetsFindable e) := by
  unfold SetsFindable
  split <;> infer_instance

instance (e : Event) : Decidable (SetsShare P e) := by
  unfold SetsShare
  split <;> infer_instance

/-- Selection finds the work that waits: every active account has a counter it looks at, and unless it
idles for the last account or cannot allocate a batch, it returns one. -/
structure Finds (P : Platform) (s : State) : Prop where
  below : ∀ id ∈ s.activeAcctList, s.vioCounter id < maxVioCounterThreshold * 2
  batch : s.activeAcctList ≠ [] → idleForLastAcct P s = none → s.env.kmalloc.1 = true →
    ∃ b, (basicSchedSelectIoWork P s).1 = .batch b

/-- The addition of `add_vio_counter` does not overflow, whichever account is charged next. -/
def AddsExactly (P : Platform) (s : State) : Prop :=
  ∀ id, P.long (s.vioCounter id + vioShare (s.ioprio id)) = s.vioCounter id + vioShare (s.ioprio id)

theorem eq_kvSet_of_sets {e : Event} {key : String} {val : Int} (h : e.sets key val) :
    ∃ id, e = .hook (.kvSet id key val) := by
  cases e with
  | charge acct quantity => exact False.elim h
  | hook e =>
    obtain ⟨id, rfl⟩ := Afq.Event.eq_kvSet_of_sets h
    exact ⟨id, rfl⟩

theorem step_touches {w w' : World} {e : Event} (h : step P w e = some w') :
    Touches P e.sets e.gates w.afq w'.afq := by
  cases e with
  | hook e => exact Afq.step_touches h
  | charge acct quantity =>
    simp only [step] at h
    split at h
    · cases h
      exact .single (.charge w.afq acct)
    · cases h

theorem step_sound {w w' : World} {e : Event} (h : step P w e = some w') (hs : Sound w) : Sound w' := by
  cases e with
  | hook e => exact Changes.keep (fun _ _ => change_sound) (step_changes h) hs
  | charge acct quantity =>
    simp only [step] at h
    split at h
    · cases h
      exact hs.quiet (addVioCounter_charges P w.afq acct).quiet
    · cases h

theorem step_inRange (hP : P.IsLp64) {w w' : World} {e : Event} (h : step P w e = some w')
    (he : SetsFindable e) (hs : w.afq.InRange) : w'.afq.InRange := by
  refine (step_touches h).keep (fun _ _ => Touch.inRange hP fun val hval => ?_) hs
  obtain ⟨id, rfl⟩ := eq_kvSet_of_sets hval
  exact he rfl

theorem step_share {w w' : World} {e : Event} (h : step P w e = some w') (he : SetsShare P e)
    (hs : ∀ id, 0 ≤ vioShare (w.afq.ioprio id)) (id : Int) : 0 ≤ vioShare (w'.afq.ioprio id) := by
  refine (step_touches h).keep (I := fun s => ∀ id, 0 ≤ vioShare (s.ioprio id))
    (fun _ _ => Touch.forall_ioprio (p := fun prio => 0 ≤ vioShare prio) fun val hval => ?_) hs id
  obtain ⟨id, rfl⟩ := eq_kvSet_of_sets hval
  exact he rfl

theorem init_inRange {m : Mem} {env : Env} (h : basicSchedInitData P m env = some s) :
    s.InRange ∧ ∀ id, 0 ≤ vioShare (s.ioprio id) := by
  simp only [basicSchedInitData] at h
  split at h
  · cases h
    have hmax : Findable maxVioCounterThreshold := by decide
    have hshare : 0 ≤ vioShare 0 := by decide
    exact ⟨⟨fun _ => findable_zero, hmax⟩, fun _ => hshare⟩
  · cases h

theorem vioShare_le (prio : Int) : vioShare prio ≤ 840 := Int.tdiv_le_self _ (by decide)

theorem finds_of_inRange (hs : Pending s) (h : s.InRange) : Finds P s where
  below id _ := (h.counter id).2
  batch hactive hidle hmem := by
    obtain ⟨-, hbatch, -⟩ := select_serves hs hactive (fun id _ => (h.counter id).2) hidle hmem
    exact ⟨_, hbatch⟩

theorem addsExactly_of_inRange (h : s.InRange) (hshare : ∀ id, 0 ≤ vioShare (s.ioprio id)) :
    AddsExactly P s := by
  intro id
  obtain ⟨hlong, hbelow⟩ := h.counter id
  have hnonneg := hshare id
  have hle := vioShare_le (s.ioprio id)
  simp only [maxVioCounterThreshold] at hbelow
  exact P.long_fits _ (by omega) (by omega)

/-- Along the runs that set no counter selection would not find, pending work is found; if no priority
with a negative share is set either, no addition overflows. -/
theorem pending_work_found (hP : P.IsLp64) {m : Mem} {env : Env} {es : List Event} {w : World}
    (h0 : basicSchedInitData P m env = some s) (hr : run (step P) (World.init s) es = some w) :
    ((∀ e ∈ es, SetsFindable e) →
      Always (step P) (fun w => Finds P w.afq) (World.init s) es) ∧
    ((∀ e ∈ es, SetsFindable e ∧ SetsShare P e) →
      Always (step P) (fun w => Finds P w.afq ∧ AddsExactly P w.afq) (World.init s) es) := by
  obtain ⟨hrange, hshare⟩ := init_inRange h0
  constructor
  · intro hes
    refine always_of_meets (I := fun w => Sound w ∧ w.afq.InRange) (fun _ e _ ht he h => ?_)
      (fun w h => finds_of_inRange h.1.pending h.2) ((meets_iff_forall hr).mpr hes) ⟨init_sound h0, hrange⟩
    exact ⟨step_sound ht h.1, step_inRange hP ht he h.2⟩
  · intro hes
    refine always_of_meets
      (I := fun w => Sound w ∧ w.afq.InRange ∧ ∀ id, 0 ≤ vioShare (w.afq.ioprio id))
      (fun _ e _ ht he h => ?_)
      (fun w h => ⟨finds_of_inRange h.1.pending h.2.1, addsExactly_of_inRange h.2.1 h.2.2⟩)
      ((meets_iff_forall hr).mpr hes) ⟨init_sound h0, hrange, hshare⟩
    exact ⟨step_sound ht h.1, step_inRange hP ht he.1 h.2.1, step_share ht he.2 h.2.2⟩

/-- Two readers wait, one of them with the largest counter that may be set, and are charged. -/
def chargedReaders : List Event :=
  [.hook (.kvSet 7 "vio_counter" (2 ^ 62 - 3)), .hook (.kvSet 9 "ioprio" 4), .hook (.add 0 7),
    .hook (.add 1 9), .charge 9 1, .charge 7 1]

theorem pending_work_found_charged : ∃ s w, basicSchedInitData .lp64 sampleMem sampleEnv = some s ∧
    run (step .lp64) (World.init s) chargedReaders = some w ∧ w.afq.activeAcctList = [7, 9] ∧
    Always (step .lp64) (fun w => Finds .lp64 w.afq ∧ AddsExactly .lp64 w.afq) (World.init s)
      chargedReaders := by
  have h : ((basicSchedInitData .lp64 sampleMem sampleEnv).bind fun s =>
      run (step .lp64) (World.init s) chargedReaders).any
        (fun w => decide (w.afq.activeAcctList = [7, 9])) = true := by
    decide +kernel
  obtain ⟨w, hw, hok⟩ := (Option.any_eq_true _ _).mp h
  obtain ⟨s, h0, hr⟩ := Option.bind_eq_some_iff.mp hw
  have hes : ∀ e ∈ chargedReaders, SetsFindable e ∧ SetsShare .lp64 e := by decide +kernel
  exact ⟨s, w, h0, hr, of_decide_eq_true hok,
    (pending_work_found Platform.isLp64_lp64 h0 hr).2 hes⟩

/-- The counter of a reader is set to `LONG_MAX`. -/
def maximalReader : List Event := [.hook (.kvSet 7 "vio_counter" (2 ^ 63 - 1)), .hook (.add 0 7)]

/-- The work of the reader is not found, and charging it would overflow. -/
theorem maximal_reader_starves : ∃ s w, basicSchedInitData .lp64 sampleMem sampleEnv = some s ∧
    run (step .lp64) (World.init s) maximalReader = some w ∧ w.afq.activeAcctList = [7] ∧
    idleForLastAcct .lp64 w.afq = none ∧ w.afq.env.kmalloc.1 = true ∧
    (basicSchedSelectIoWork .lp64 w.afq).1 = .noAccount ∧
    Platform.lp64.long (w.afq.vioCounter 7 + vioShare (w.afq.ioprio 7)) < w.afq.vioCounter 7 := by
  have h : ((basicSchedInitData .lp64 sampleMem sampleEnv).bind fun s =>
      run (step .lp64) (World.init s) maximalReader).any (fun w =>
        decide (w.afq.activeAcctList = [7] ∧ idleForLastAcct .lp64 w.afq = none ∧
          w.afq.env.kmalloc.1 = true ∧ (minActive w.afq).2 = none ∧
          Platform.lp64.long (w.afq.vioCounter 7 + vioShare (w.afq.ioprio 7)) < w.afq.vioCounter 7)) =
        true := by
    decide +kernel
  obtain ⟨w, hw, hok⟩ := (Option.any_eq_true _ _).mp h
  obtain ⟨s, h0, hr⟩ := Option.bind_eq_some_iff.mp hw
  obtain ⟨hactive, hidle, hmem, hnone, hover⟩ := of_decide_eq_true hok
  have hsome : w.afq.activeAcctList ≠ [] := by simp [hactive]
  exact ⟨s, w, h0, hr, hactive, hidle, hmem, select_noAccount hsome hidle hmem hnone, hover⟩

end Starvation

end Afq
end SplitSched
