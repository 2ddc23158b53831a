import SplitSched.Afq.Pending
import SplitSched.Lib.Run

/-!
# SplitSched.Afq.Machine

The hooks of the AFQ scheduler as a machine: `World` is the scheduler together with the record of
what the rest of the kernel did with it, `step` has one event for each hook. Selection and submission
are events of their own besides `dispatch`, so a run may select several batches before it submits
one.

`step_changes` is the inversion of `step`: whatever the event, the world changes by a sequence of the
changes listed in `Change`. Invariants are proved change by change.
-/

namespace SplitSched
namespace Afq

open Relation

variable {P : Platform} {s s' s₁ : State} {work : WorkId} {acct : Int}

/-! ## Worlds and events -/

structure World where
  afq : State
  /-- Passed to `elevator_add_req_fn`. -/
  added : List Nat
  /-- Batches that were selected and not yet submitted. -/
  selected : List Nat
  /-- System calls that ran their return hook, and requests that completed. -/
  returned : List WorkId
  /-- A hook used a batch descriptor that was not allocated. -/
  fault : Bool

inductive Event where
  | add (rq : Nat) (cur : Int)
  | writeEntry (n : Nat) (cur : Int) (direct : Bool) (schedUniq : Int)
  | mkdirEntry (n : Nat) (cur schedUniq : Int)
  | fsyncEntry (n : Nat) (cur schedUniq : Int)
  | select
  | submit (b : Nat)
  | dispatch
  | complete (rq : Nat)
  | writeReturn (n : Nat) (current : Bool)
  | mkdirReturn (n : Nat) (current : Bool)
  | fsyncReturn (n : Nat) (current : Bool)
  | kvSet (id : Int) (key : String) (val : Int)
  | dirty (q l : Nat) (task : Task) (bSize inode : Nat) (pos : Int)
  | free (l : Nat)
  | waitTimer
  | deadTimer
  | updateMin
  /-- The rest of the kernel: requests are prepared, bios and cause lists change, time passes. -/
  | kernel (m : Mem)

namespace World

/-- A fresh instance. -/
def init (s : State) : World := ⟨s, [], [], [], false⟩

/-- A hook by which a unit of work returns. -/
def finish (w : World) (work : WorkId) : Option State → World
  | none => { w with fault := true }
  | some s => { w with afq := s, returned := w.returned ++ [work] }

/-- An entry hook runs with a new descriptor. -/
def enter (w : World) (work : WorkId) (r : Entry × State) : Option World :=
  if work ∈ w.afq.accepted then none else some { w with afq := r.2 }

/-- A return hook runs once, after the call was woken. -/
def leave (w : World) (work : WorkId) (r : Option State) : Option World :=
  if (w.afq.descs work).woken = true ∧ work ∉ w.returned then some (w.finish work r) else none

def select (w : World) (r : Selected × State) : World :=
  match r.1 with
  | .batch b => { w with afq := r.2, selected := b :: w.selected }
  | _ => { w with afq := r.2 }

end World

/-- The direction of a request in the scheduler's hands does not change. -/
def State.kernel (s : State) (m : Mem) : State :=
  let rqs := fun rq =>
    if .req rq ∈ s.accepted then { m.rqs rq with write := (s.mem.rqs rq).write } else m.rqs rq
  { s with mem := { m with rqs := rqs } }

def step (P : Platform) (w : World) : Event → Option World
  | .add rq cur =>
    if rq ∈ w.added then none
    else (basicSchedAddRequest P w.afq rq cur).map fun s =>
      { w with afq := s, added := w.added ++ [rq] }
  | .writeEntry n cur direct uniq =>
    w.enter (.write n) (basicSchedWriteEntry P w.afq n cur direct uniq)
  | .mkdirEntry n cur uniq => w.enter (.mkdir n) (basicSchedMkdirEntry P w.afq n cur uniq)
  | .fsyncEntry n cur uniq => w.enter (.fsync n) (basicSchedFsyncEntry P w.afq n cur uniq)
  | .select => some (w.select (basicSchedSelectIoWork P w.afq))
  | .submit b =>
    if b ∈ w.selected then
      if w.afq.batches b = none then some { w with fault := true }
      else (basicSchedSubmitIoWork P w.afq b).map fun s =>
        { w with afq := s, selected := w.selected.erase b }
    else none
  | .dispatch => (basicSchedDispatch P w.afq).map fun r => { w with afq := r.2 }
  | .complete rq =>
    if rq ∈ w.afq.sorted ∧ .req rq ∉ w.returned then
      some (w.finish (.req rq) (basicSchedComplteRequest w.afq rq))
    else none
  | .writeReturn n current => w.leave (.write n) (basicSchedWriteReturn w.afq n current)
  | .mkdirReturn n current => w.leave (.mkdir n) (basicSchedMkdirReturn w.afq n current)
  | .fsyncReturn n current => w.leave (.fsync n) (basicSchedFsyncReturn w.afq n current)
  | .kvSet id key val => some { w with afq := basicKvSetCallback P w.afq id key val }
  | .dirty q l task bSize inode pos =>
    (dirtyBuffer P w.afq q l task bSize inode pos).map fun s => { w with afq := s }
  | .free l => (freeCauseList P w.afq l).map fun s => { w with afq := s }
  | .waitTimer => some { w with afq := newBatchWaitTimerFunc w.afq }
  | .deadTimer => some { w with afq := batchDeadTimerFunc w.afq }
  | .updateMin => some { w with afq := updateActiveMin P w.afq }
  | .kernel m => some { w with afq := w.afq.kernel m }

/-! ## What an event does -/

/-- The insertion of a read whose task has account 0, or an account that cannot be created. Such a
read goes straight to the dispatch queue. -/
def straightRead (P : Platform) (w : World) : Event → Bool
  | .add rq cur =>
    !(w.afq.mem.rqs rq).write && (decide (cur = 0) ||
      (getAccount P (tagRequest (causeListSizeStat2 w.afq rq) rq cur) cur).1.isNone)
  | _ => false

/-- The changes events are made of. `straight` says whether reads may bypass the accounts. -/
inductive Change (P : Platform) (straight : Bool) : World → World → Prop where
  | quiet {w : World} {s : State} (h : Quiet w.afq s) : Change P straight w { w with afq := s }
  /-- A system call blocks. -/
  | block {w : World} {work : WorkId} {acct : Int} (hnew : work ∉ w.afq.accepted)
      (hcall : work.request = none) (hk : acct ∈ w.afq.accounts.keys) :
      Change P straight w
        { w with
          afq := addIoWorkToAcct P ((w.afq.setDesc work .fresh).setAcct work (some acct)) work acct }
  /-- A read waits on its account. -/
  | queue {w : World} {rq : Nat} {acct : Int} (hnew : rq ∉ w.added)
      (hread : (w.afq.mem.rqs rq).write = false) (hk : acct ∈ w.afq.accounts.keys) :
      Change P straight w
        { w with
          afq := addIoWorkToAcct P (w.afq.setAcct (.req rq) (some acct)) (.req rq) acct
          added := w.added ++ [rq] }
  /-- A write is accounted for and goes to the dispatch queue. -/
  | issue {w : World} {rq : Nat} {s : State} (hnew : rq ∉ w.added)
      (hwrite : (w.afq.mem.rqs rq).write = true)
      (h : Quiet { w.afq with inflight := w.afq.inflight + 1 } s) :
      Change P straight w { w with afq := elvDispatchSort s rq, added := w.added ++ [rq] }
  /-- A read goes straight to the dispatch queue. -/
  | pass {w : World} {rq : Nat} {acct : Option Int} (hnew : rq ∉ w.added) (hs : straight = true) :
      Change P straight w
        { w with
          afq := elvDispatchSort (w.afq.setAcct (.req rq) acct) rq
          added := w.added ++ [rq] }
  | select (w : World) : Change P straight w (w.select (basicSchedSelectIoWork P w.afq))
  | submit {w : World} {b : Nat} {s : State} (hb : b ∈ w.selected)
      (h : basicSchedSubmitIoWork P w.afq b = some s) :
      Change P straight w { w with afq := s, selected := w.selected.erase b }
  /-- The batch to be submitted is not there. -/
  | dangling {w : World} {b : Nat} (hb : b ∈ w.selected) (h : w.afq.batches b = none) :
      Change P straight w { w with fault := true }
  | complete {w : World} {rq : Nat} (hs : rq ∈ w.afq.sorted) (hr : .req rq ∉ w.returned) :
      Change P straight w (w.finish (.req rq) (basicSchedComplteRequest w.afq rq))
  | wake {w : World} {work : WorkId} {current : Bool} (hcall : work.request = none)
      (hw : (w.afq.descs work).woken = true) (hr : work ∉ w.returned) :
      Change P straight w (w.finish work (schedReturn w.afq work current))

abbrev Changes (P : Platform) (straight : Bool) : World → World → Prop :=
  ReflTransGen (Change P straight)

/-- What every change keeps, a sequence of changes keeps. -/
theorem Changes.keep {straight : Bool} {I : World → Prop} {w w' : World}
    (hI : ∀ w w', Change P straight w w' → I w → I w') (h : Changes P straight w w') (h0 : I w) :
    I w' := by
  induction h with
  | refl => exact h0
  | tail _ hc ih => exact hI _ _ hc ih

/-! ## Insertion -/

theorem sizeStatItem_quiet (s : State) (l : Nat) : Quiet s (sizeStatItem s l) := by
  simp only [sizeStatItem]
  split_ifs <;> exact { Quiet.refl s with }

theorem causeListSizeStat2_quiet (s : State) (rq : Nat) : Quiet s (causeListSizeStat2 s rq) := by
  have hfold : ∀ (ls : List Nat) (s : State), Quiet s (ls.foldl sizeStatItem s) := by
    intro ls
    induction ls with
    | nil => exact .refl
    | cons l ls ih => exact fun s => (sizeStatItem_quiet s l).trans (ih _)
  simp only [causeListSizeStat2]
  split
  · exact hfold _ s
  · exact .refl s

theorem causeListSizeStat2_mem (s : State) (rq : Nat) : (causeListSizeStat2 s rq).mem = s.mem := by
  have hitem : ∀ (s : State) (l : Nat), (sizeStatItem s l).mem = s.mem := by
    intro s l
    simp only [sizeStatItem]
    split_ifs <;> rfl
  have hfold : ∀ (ls : List Nat) (s : State), (ls.foldl sizeStatItem s).mem = s.mem := by
    intro ls
    induction ls with
    | nil => exact fun _ => rfl
    | cons l ls ih => exact fun s => (ih _).trans (hitem s l)
  simp only [causeListSizeStat2]
  split
  · exact hfold _ s
  · rfl

theorem tagRequest_rqs (s : State) (rq : Nat) (cur : Int) :
    (tagRequest s rq cur).mem.rqs = s.mem.rqs := by
  simp only [tagRequest]
  split <;> rfl

theorem tagRequest_quiet (s : State) (rq : Nat) (cur : Int) : Quiet s (tagRequest s rq cur) := by
  simp only [tagRequest]
  split <;> exact { Quiet.refl s with }

theorem add_changes {w : World} {rq : Nat} {cur : Int} (hnew : rq ∉ w.added)
    (h : basicSchedAddRequest P w.afq rq cur = some s') :
    Changes P (straightRead P w (.add rq cur)) w
      { w with afq := s', added := w.added ++ [rq] } := by
  simp only [basicSchedAddRequest] at h
  set t := tagRequest (causeListSizeStat2 w.afq rq) rq cur with ht
  have hq : Quiet w.afq t := (causeListSizeStat2_quiet _ _).trans (tagRequest_quiet _ _ _)
  have hrqs : t.mem.rqs = w.afq.mem.rqs := by
    rw [ht, tagRequest_rqs, causeListSizeStat2_mem]
  split at h
  · rename_i hwrite
    split at h
    · cases h
    · rename_i u hu
      cases h
      exact ReflTransGen.tail (.single (.quiet hq))
        (.issue (w := { w with afq := t }) hnew hwrite (afqAccountRequest2_charges hu).quiet)
  · rename_i hwrite
    have hread : (w.afq.mem.rqs rq).write = false := by simpa [hrqs] using hwrite
    have hg : Charges [] t (getAccount P t cur).2 := getAccount_charges P t cur
    have hqg := hq.trans hg.quiet
    have hfirst : Changes P (straightRead P w (.add rq cur)) w
        { w with afq := (getAccount P t cur).2 } := .single (.quiet hqg)
    cases hacct : (getAccount P t cur).1 with
    | none =>
      simp only [hacct] at h
      cases h
      refine hfirst.tail (.pass (w := { w with afq := (getAccount P t cur).2 }) hnew ?_)
      simp [straightRead, hread, ← ht, hacct]
    | some acct =>
      obtain ⟨rfl, hk⟩ := getAccount_some hacct
      simp only [hacct] at h
      split at h
      · cases h
        refine hfirst.tail
          (.queue (w := { w with afq := (getAccount P t acct).2 }) hnew ?_ hk)
        show ((getAccount P t acct).2.mem.rqs rq).write = false
        rw [hg.rqs, hrqs]
        exact hread
      · rename_i h0
        cases h
        refine hfirst.tail
          (.pass (w := { w with afq := (getAccount P t acct).2 }) hnew ?_)
        simp [straightRead, hread, not_not.mp h0]

/-! ## System calls -/

/-- What an entry hook does: nothing that matters here, or the call blocks. -/
def Enters (P : Platform) (work : WorkId) (s s' : State) : Prop :=
  Quiet s s' ∨ ∃ s₁ acct, Quiet s s₁ ∧ acct ∈ s₁.accounts.keys ∧
    s' = addIoWorkToAcct P ((s₁.setDesc work .fresh).setAcct work (some acct)) work acct

theorem Enters.of_quiet (hq : Quiet s s₁) (h : Enters P work s₁ s') : Enters P work s s' := by
  rcases h with h | ⟨s₂, acct, h, hk, rfl⟩
  · exact .inl (hq.trans h)
  · exact .inr ⟨s₂, acct, hq.trans h, hk, rfl⟩

theorem callerAccount_quiet (P : Platform) (s : State) (cur : Int) :
    Quiet s (callerAccount P s cur).2 := by
  have hg := (getAccount_charges P s cur).quiet
  simp only [callerAccount]
  split
  · exact hg
  · split
    · exact { hg with }
    · exact hg

theorem callerAccount_some {cur : Int} (h : (callerAccount P s cur).1 = some acct) :
    acct ∈ (callerAccount P s cur).2.accounts.keys := by
  simp only [callerAccount] at h ⊢
  split
  · rename_i hn
    simp [hn] at h
  · rename_i a ha
    obtain ⟨rfl, hk⟩ := getAccount_some ha
    simp only [ha] at h
    split at h
    · rename_i hc
      cases h
      rw [if_pos hc]
      exact hk
    · rename_i hc
      rw [if_neg hc]
      cases ha.symm.trans h
      exact hk

theorem blockCaller_enters (hk : acct ∈ s.accounts.keys) :
    Enters P work s (blockCaller P s work acct).2 := by
  have hq : Quiet s { s with env := s.env.kmalloc.2 } := .of_mem fun _ _ => rfl
  simp only [blockCaller]
  split
  · exact .inr ⟨{ s with env := s.env.kmalloc.2 }, acct, hq, hk, rfl⟩
  · exact .inl hq

theorem basicSchedWriteEntry_enters (P : Platform) (s : State) (n : Nat) (cur : Int) (direct : Bool)
    (uniq : Int) : Enters P (.write n) s (basicSchedWriteEntry P s n cur direct uniq).2 := by
  have hq := callerAccount_quiet P s cur
  simp only [basicSchedWriteEntry]
  split
  · exact .inl (.refl s)
  split
  · exact .inl hq
  rename_i acct hacct
  have hk := callerAccount_some hacct
  split
  · exact .inl hq
  · have hcall : Quiet s ((callerAccount P s cur).2.modifyAccount acct fun a =>
        { a with numWriteCall := a.numWriteCall + 1 }) := hq.trans (.of_modify fun _ => rfl)
    split
    · exact .inl (hcall.trans (.of_modify fun _ => rfl))
    · refine .of_quiet (hcall.trans ?_) (blockCaller_enters hk)
      exact .of_modify fun _ => rfl

theorem basicSchedMkdirEntry_enters (P : Platform) (s : State) (n : Nat) (cur uniq : Int) :
    Enters P (.mkdir n) s (basicSchedMkdirEntry P s n cur uniq).2 := by
  have hq := callerAccount_quiet P s cur
  simp only [basicSchedMkdirEntry]
  split
  · exact .inl (.refl s)
  split
  · exact .inl hq
  rename_i acct hacct
  split
  · exact .inl hq
  split
  · exact .inl hq
  · exact .of_quiet hq (blockCaller_enters (callerAccount_some hacct))

theorem basicSchedFsyncEntry_enters (P : Platform) (s : State) (n : Nat) (cur uniq : Int) :
    Enters P (.fsync n) s (basicSchedFsyncEntry P s n cur uniq).2 := by
  have hq : Quiet s { s with env := s.env.kmalloc.2 } := .of_mem fun _ _ => rfl
  simp only [basicSchedFsyncEntry]
  split
  · exact .inl hq
  split
  · exact .inl hq
  have hg := hq.trans (getAccount_charges P { s with env := s.env.kmalloc.2 } cur).quiet
  split
  · exact .inl hg
  rename_i acct hacct
  split
  · exact .inl hg
  · obtain ⟨rfl, hk⟩ := getAccount_some hacct
    exact .inr ⟨_, acct, hg, hk, rfl⟩

theorem enter_changes {straight : Bool} {w w' : World} {r : Entry × State}
    (hcall : work.request = none) (he : Enters P work w.afq r.2) (h : w.enter work r = some w') :
    Changes P straight w w' := by
  simp only [World.enter] at h
  split at h
  · cases h
  · rename_i hnew
    cases h
    rcases he with hq | ⟨s₁, acct, hq, hk, hr⟩
    · exact .single (.quiet hq)
    · rw [hr]
      refine ReflTransGen.tail (.single (.quiet hq)) (.block (w := { w with afq := s₁ }) ?_ hcall hk)
      show work ∉ s₁.accepted
      rw [hq.accepted]
      exact hnew

theorem leave_changes {straight current : Bool} {w w' : World} (hcall : work.request = none)
    (h : w.leave work (schedReturn w.afq work current) = some w') : Changes P straight w w' := by
  simp only [World.leave] at h
  split at h
  · rename_i hw
    cases h
    exact .single (.wake hcall hw.1 hw.2)
  · cases h

/-! ## Dispatch and the rest -/

/-- Dispatching is selecting, and submitting what was selected. -/
theorem dispatch_changes {straight : Bool} {w : World} {r : Int × State}
    (h : basicSchedDispatch P w.afq = some r) : Changes P straight w { w with afq := r.2 } := by
  simp only [basicSchedDispatch] at h
  split at h
  · cases h
    exact .refl
  · have hsel : Change P straight w (w.select (basicSchedSelectIoWork P w.afq)) := .select w
    split at h
    · rename_i b hb
      obtain ⟨t, ht, rfl⟩ := Option.map_eq_some_iff.mp h
      simp only [World.select, hb] at hsel
      have hsub : Change P straight _ _ := .submit
        (w := { w with afq := (basicSchedSelectIoWork P w.afq).2, selected := b :: w.selected })
        (List.mem_cons_self ..) ht
      simp only [List.erase_cons_head] at hsub
      exact ReflTransGen.tail (.single hsel) hsub
    · rename_i hnb
      cases h
      cases hr : (basicSchedSelectIoWork P w.afq).1 with
      | batch b => exact absurd hr (hnb b)
      | nothing => simp only [World.select, hr] at hsel; exact .single hsel
      | noAccount => simp only [World.select, hr] at hsel; exact .single hsel
      | noPending => simp only [World.select, hr] at hsel; exact .single hsel

theorem basicKvSetCallback_quiet (P : Platform) (s : State) (id : Int) (key : String) (val : Int) :
    Quiet s (basicKvSetCallback P s id key val) := by
  have hg := (getAccount_charges P s id).quiet
  simp only [basicKvSetCallback]
  split
  · exact hg
  · refine hg.trans (.of_modify (f := kvApply P key val) fun a => ?_)
    simp only [kvApply]
    split_ifs <;> rfl

theorem dirtyBuffer_quiet {q l bSize inode : Nat} {task : Task} {pos : Int}
    (h : dirtyBuffer P s q l task bSize inode pos = some s') : Quiet s s' := by
  have hrqs := commitWriteHook_rqs s.env s.mem q l task bSize
  simp only [dirtyBuffer] at h
  split at h
  · simp only [basicSchedCausesDirty] at h
    exact .trans (.of_mem fun rq _ => congrArg (fun f => (f rq).write) hrqs)
      (chargeAll_charges h).quiet
  · cases h
    exact .of_mem fun rq _ => congrArg (fun f => (f rq).write) hrqs

theorem freeCauseList_quiet {l : Nat} (h : freeCauseList P s l = some s') : Quiet s s' := by
  simp only [freeCauseList] at h
  split at h
  · exact (basicSchedCausesFree_charges h).quiet
  · cases h
    exact .refl _

/-- A batch is submitted only if it has been selected; one that is no longer there is a fault. -/
theorem step_submit_cases {w w' : World} {b : Nat} (h : step P w (.submit b) = some w') :
    b ∈ w.selected ∧ ((w.afq.batches b = none ∧ w' = { w with fault := true }) ∨
      ∃ t, basicSchedSubmitIoWork P w.afq b = some t ∧
        w' = { w with afq := t, selected := w.selected.erase b }) := by
  simp only [step] at h
  split at h
  · rename_i hb
    split at h
    · rename_i hnone
      cases h
      exact ⟨hb, .inl ⟨hnone, rfl⟩⟩
    · obtain ⟨t, ht, rfl⟩ := Option.map_eq_some_iff.mp h
      exact ⟨hb, .inr ⟨t, ht, rfl⟩⟩
  · cases h

theorem step_add_cases {w w' : World} {rq : Nat} {cur : Int} (h : step P w (.add rq cur) = some w') :
    rq ∉ w.added ∧ ∃ t, basicSchedAddRequest P w.afq rq cur = some t ∧
      w' = { w with afq := t, added := w.added ++ [rq] } := by
  simp only [step] at h
  split at h
  · cases h
  · rename_i hnew
    obtain ⟨t, ht, rfl⟩ := Option.map_eq_some_iff.mp h
    exact ⟨hnew, t, ht, rfl⟩

theorem step_changes {w w' : World} {e : Event} (h : step P w e = some w') :
    Changes P (straightRead P w e) w w' := by
  cases e with
  | add rq cur =>
    obtain ⟨hnew, t, ht, rfl⟩ := step_add_cases h
    exact add_changes hnew ht
  | writeEntry n cur direct uniq =>
    exact enter_changes rfl (basicSchedWriteEntry_enters P _ n cur direct uniq) h
  | mkdirEntry n cur uniq => exact enter_changes rfl (basicSchedMkdirEntry_enters P _ n cur uniq) h
  | fsyncEntry n cur uniq => exact enter_changes rfl (basicSchedFsyncEntry_enters P _ n cur uniq) h
  | select => cases h; exact .single (.select w)
  | submit b =>
    obtain ⟨hb, ⟨hnone, rfl⟩ | ⟨t, ht, rfl⟩⟩ := step_submit_cases h
    · exact .single (.dangling hb hnone)
    · exact .single (.submit hb ht)
  | dispatch =>
    obtain ⟨r, hr, rfl⟩ := Option.map_eq_some_iff.mp h
    exact dispatch_changes hr
  | complete rq =>
    simp only [step] at h
    split at h
    · rename_i hc
      cases h
      exact .single (.complete hc.1 hc.2)
    · cases h
  | writeReturn n current => exact leave_changes rfl h
  | mkdirReturn n current => exact leave_changes rfl h
  | fsyncReturn n current => exact leave_changes rfl h
  | kvSet id key val => cases h; exact .single (.quiet (basicKvSetCallback_quiet P _ id key val))
  | dirty q l task bSize inode pos =>
    obtain ⟨t, ht, rfl⟩ := Option.map_eq_some_iff.mp h
    exact .single (.quiet (dirtyBuffer_quiet ht))
  | free l =>
    obtain ⟨t, ht, rfl⟩ := Option.map_eq_some_iff.mp h
    exact .single (.quiet (freeCauseList_quiet ht))
  | waitTimer =>
    cases h
    refine .single (.quiet ?_)
    simp only [newBatchWaitTimerFunc]
    split <;> exact { Quiet.refl w.afq with }
  | deadTimer => cases h; exact .single (.quiet { Quiet.refl w.afq with })
  | updateMin => cases h; exact .single (.quiet (updateActiveMin_charges P _).quiet)
  | kernel m =>
    cases h
    exact .single (.quiet (.of_mem fun rq hrq => by simp [hrq]))

end Afq
end SplitSched
