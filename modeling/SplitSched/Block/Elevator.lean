import SplitSched.Block.CauseTags

/-!
# SplitSched.Block.Elevator

The scheduler-independent side of the hooks (4.5 patch set): `sched_uniq`, which is meant to tell
scheduler instances apart (elevator.c), the dirty hook of `__block_commit_write` (buffer.c) and the
callback of `free_cause_list` (cause_tags.c).

`elevator_switch` increments `sched_uniq` once the new elevator is initialised and, when everything
has succeeded, sets it to 1000. The second assignment undoes the first, so after every completed
switch the counter has the same value. `tag_sound_iff` says exactly when a tag captured earlier is
still told apart from the current value.
-/

namespace SplitSched

open CArith

/-! ## Switching elevators -/

inductive SwitchOutcome where
  | initFails
  | registerFails
  | completed
  deriving DecidableEq, Repr

/-- `q->sched_uniq++`, restarting at 1 when the `int` wraps. -/
def bumpUniq (P : Platform) (uniq : Int) : Int :=
  let uniq := P.int (uniq + 1)
  if uniq < 0 then 1 else uniq

def elevatorSwitch (P : Platform) (uniq : Int) : SwitchOutcome → Int
  | .initFails => uniq
  | .registerFails => bumpUniq P uniq
  | .completed =>
    let _uniq := bumpUniq P uniq
    1000

def uniqAfter (sw : List SwitchOutcome) : Int := sw.foldl (elevatorSwitch Platform.lp64) 0

/-- The test of `free_cause_list` and of the return hooks. -/
def isCurrent (tag uniq : Int) : Bool := decide (uniq = tag)

def failedSince (sw : List SwitchOutcome) : Nat :=
  (sw.reverse.takeWhile (· ≠ .completed)).count .registerFails

/-- The counter without wrapping: where it was last set, plus the failures since. -/
def position (sw : List SwitchOutcome) : Nat :=
  (if .completed ∈ sw then 1000 else 0) + failedSince sw

theorem failedSince_concat (sw : List SwitchOutcome) (e : SwitchOutcome) :
    failedSince (sw ++ [e]) =
      match e with
      | .initFails => failedSince sw
      | .registerFails => failedSince sw + 1
      | .completed => 0 := by
  cases e <;> simp [failedSince]

theorem position_concat (sw : List SwitchOutcome) (e : SwitchOutcome) :
    position (sw ++ [e]) =
      match e with
      | .initFails => position sw
      | .registerFails => position sw + 1
      | .completed => 1000 := by
  cases e <;> simp [position, failedSince_concat, Nat.add_assoc]

theorem failedSince_lt (sw : List SwitchOutcome) :
    failedSince sw + (if .completed ∈ sw then 1 else 0) ≤ sw.length := by
  induction sw using List.reverseRecOn with
  | nil => simp [failedSince]
  | append_singleton sw e ih =>
    rw [failedSince_concat]
    cases e <;> simp <;> omega

theorem failedSince_append {sw sw' : List SwitchOutcome} (h : .completed ∈ sw') :
    failedSince (sw ++ sw') = failedSince sw' := by
  induction sw' using List.reverseRecOn with
  | nil => cases h
  | append_singleton sw' e ih =>
    rw [← List.append_assoc, failedSince_concat, failedSince_concat]
    cases e with
    | completed => rfl
    | initFails => simpa using ih (by simpa using h)
    | registerFails => simpa using ih (by simpa using h)

theorem bumpUniq_lp64 {u : Int} (h0 : 0 ≤ u) (h1 : u < 2 ^ 31) :
    bumpUniq Platform.lp64 u = if u = 2 ^ 31 - 1 then 1 else u + 1 := by
  unfold bumpUniq
  split_ifs with he
  · subst he
    decide
  · rw [Platform.lp64.int_fits (u + 1) (by omega) (by omega)]
    simp only []
    rw [if_neg (by omega)]

/-- The counter runs through `1 … 2^31 - 1` cyclically; fewer than `2^31` switches go round once. -/
theorem uniqAfter_eq {sw : List SwitchOutcome} (h : sw.length < 2 ^ 31) :
    uniqAfter sw = if position sw < 2 ^ 31 then (position sw : Int) else position sw - (2 ^ 31 - 1) := by
  induction sw using List.reverseRecOn with
  | nil => rfl
  | append_singleton sw e ih =>
    rw [List.length_append, List.length_singleton] at h
    have ih := ih (by omega)
    have hlt := failedSince_lt sw
    have hpos : position sw ≤ 1000 + sw.length := by
      unfold position; split <;> omega
    have hfold : uniqAfter (sw ++ [e]) = elevatorSwitch Platform.lp64 (uniqAfter sw) e := by
      simp [uniqAfter]
    rw [hfold, position_concat]
    cases e with
    | initFails => simpa [elevatorSwitch] using ih
    | completed => rfl
    | registerFails =>
      simp only [elevatorSwitch]
      by_cases hp : position sw < 2 ^ 31
      · rw [if_pos hp] at ih
        rw [ih, bumpUniq_lp64 (by omega) (by omega)]
        split_ifs <;> push_cast <;> omega
      · rw [if_neg hp] at ih
        rw [ih, bumpUniq_lp64 (by omega) (by omega)]
        split_ifs <;> push_cast <;> omega

/-- A tag taken after `before` is accepted after `before ++ since` only if no switch completed in
between, exactly when the failures since the last completed switch tell the two apart. -/
theorem tag_sound_iff (before since : List SwitchOutcome)
    (h : (before ++ since).length < 2 ^ 31) :
    (isCurrent (uniqAfter before) (uniqAfter (before ++ since)) = true → .completed ∉ since) ↔
      (.completed ∈ since →
        position before ≠ position (before ++ since) ∧
          ¬ (0 < position before ∧ position before + (2 ^ 31 - 1) = position (before ++ since))) := by
  have hb := failedSince_lt before
  have hs := failedSince_lt since
  have hlen : (before ++ since).length = before.length + since.length := List.length_append
  rw [uniqAfter_eq (by omega), uniqAfter_eq h]
  by_cases hc : .completed ∈ since
  · have hall : position (before ++ since) = 1000 + failedSince since := by
      simp [position, failedSince_append hc, hc]
    have hbef : position before = (if .completed ∈ before then 1000 else 0) + failedSince before := rfl
    rw [if_pos hc] at hs
    simp only [isCurrent, decide_eq_true_eq, hc, not_true, imp_false, true_implies, hall]
    split_ifs at hb hbef <;> split_ifs <;> push_cast <;> omega
  · simp [hc]

/-- Two completed switches leave the same tag: what a task captured under the first elevator is
accepted under the second. -/
theorem tag_reused_after_switch :
    ¬ (isCurrent (uniqAfter [.completed]) (uniqAfter ([.completed] ++ [.completed])) = true →
      SwitchOutcome.completed ∉ [SwitchOutcome.completed]) := by
  decide

theorem tag_sound_initial :
    ([] ++ [SwitchOutcome.completed]).length < 2 ^ 31 ∧
      ((isCurrent (uniqAfter []) (uniqAfter ([] ++ [.completed])) = true →
          SwitchOutcome.completed ∉ [SwitchOutcome.completed]) ↔
        (SwitchOutcome.completed ∈ [SwitchOutcome.completed] →
          position [] ≠ position ([] ++ [.completed]) ∧
            ¬ (0 < position [] ∧ position [] + (2 ^ 31 - 1) = position ([] ++ [.completed])))) :=
  ⟨by decide, tag_sound_iff [] [.completed] (by decide)⟩

/-! ## The dirty hook and the free callback -/

/-- The dirty hook of `__block_commit_write` on the cause list `l` of a buffer of `bSize` bytes, up
to the call of the scheduler: whether `causes_dirty_fn` is called, and the memory it then sees. -/
def commitWriteHook (env : Env) (m : Mem) (q l : Nat) (task : Task) (bSize : Nat) :
    Bool × Mem × Env :=
  let r := causeListAdd env m l task
  let c := setCauseListType r.2.1 .data
  if r.1 = 0 then (false, m.setList l c, r.2.2)
  else
    let c :=
      if c.callbackQ = none then
        { c with callbackQ := some q, schedUniq := m.schedUniq, size := bSize }
      else c
    (isCurrent c.schedUniq m.schedUniq, m.setList l c, r.2.2)

theorem commitWriteHook_rqs (env : Env) (m : Mem) (q l : Nat) (task : Task) (bSize : Nat) :
    (commitWriteHook env m q l task bSize).2.1.rqs = m.rqs := by
  simp only [commitWriteHook]
  split <;> rfl

theorem commitWriteHook_joins {env : Env} {m : Mem} (hm : env.Plenty) (q bSize : Nat) {l : Nat}
    {a : Int} (ha : a ∉ (m.lists l).items) :
    ∃ c : CauseList, commitWriteHook env m q l ⟨a, none⟩ bSize =
        (isCurrent c.schedUniq m.schedUniq, m.setList l c, env.kmalloc.2) ∧
      c.items = (m.lists l).items ++ [a] ∧ c.priv = (m.lists l).priv ∧ c.callbackQ ≠ none ∧
      c.schedUniq = (if (m.lists l).callbackQ = none then m.schedUniq else (m.lists l).schedUniq) ∧
      c.size = (if (m.lists l).callbackQ = none then bSize else (m.lists l).size) := by
  have hadd : causeListAdd env m l ⟨a, none⟩ = (1, (m.lists l).push a ha, env.kmalloc.2) := by
    simp [causeListAdd, causeListAddId, ha, hm.kmalloc]
  by_cases hq : (m.lists l).callbackQ = none
  · refine ⟨{ setCauseListType ((m.lists l).push a ha) .data with
      callbackQ := some q, schedUniq := m.schedUniq, size := bSize }, ?_, rfl, rfl, ?_, ?_, ?_⟩
    · simp [commitWriteHook, hadd, setCauseListType, CauseList.push, hq]
    · simp
    · simp [hq]
    · simp [hq]
  · refine ⟨setCauseListType ((m.lists l).push a ha) .data, ?_, rfl, rfl, hq, ?_, ?_⟩
    · simp [commitWriteHook, hadd, setCauseListType, CauseList.push, hq]
    · simp [setCauseListType, CauseList.push, hq]
    · simp [setCauseListType, CauseList.push, hq]

def freeNotifies (m : Mem) (l : Nat) : Bool :=
  match (m.lists l).callbackQ with
  | none => false
  | some _ => isCurrent (m.lists l).schedUniq m.schedUniq

end SplitSched
