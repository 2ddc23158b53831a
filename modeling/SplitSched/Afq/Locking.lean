import SplitSched.Lib.Locks
import SplitSched.Afq.Work

/-!
# SplitSched.Afq.Locking

The locks of the AFQ scheduler: `afq_data->lock`, and the lock of the request queue.

* `hookCode`: the hooks, instruction by instruction where they take and give back locks. `hookCode_exec`
  is their meaning when nothing else runs: the functions of `SplitSched.Afq.Work`.
* `step`: hooks called at any time with any arguments, in any interleaving, while the rest of the kernel
  changes what is in memory, the `sched_uniq` of the queue included.
* `locks_released_iff`: a hook that has returned or waits holds no lock that it took, along exactly the
  runs in which no write hook finds another `sched_uniq` than its own.
-/

namespace SplitSched
namespace Afq
namespace Locking

open Locks

inductive LockId where
  /-- `afq_data->lock` -/
  | afq
  /-- `q->queue_lock` -/
  | queue
  deriving DecidableEq, Repr

/-- The code of a hook, with its return value; 0 for `void`. -/
abbrev HookCode := Code State LockId Int

variable (P : Platform)

/-! ## Dispatch -/

/-- `basic_sched_want_dispatch`. The number in flight is read when the lock has been given back. -/
def wantDispatch (next : Int → HookCode) : HookCode :=
  .lock .afq <| .act some fun s => .unlock .afq <|
    if s.batchDead then next 0
    else if s.keepWait = .allowNewBatch then next 1
    else .act some fun now =>
      if s.keepWait = .keepInFlight ∧ now.inflight < minInFlight then next 2 else next 0

/-- The loop of `basic_sched_submit_io_work`. -/
def submitLoop (b : Nat) (s : State) : Option State :=
  match s.batches b with
  | none => none
  | some d => d.workSelected.foldlM (submitWork P b) s

def setTimers (s : State) : State :=
  { s with
    batchWaitTimer := some (s.mem.jiffies + startInFlightTime P)
    batchDeadTimer := some (s.mem.jiffies + afqBatchDeadIntval P) }

def setKeepWait (keepWait : KeepWait) (s : State) : State := { s with keepWait := keepWait }

def submitIoWork (b : Nat) (next : HookCode) : HookCode :=
  .act (submitLoop P b) fun _ =>
  .lock .afq <| .act (fun s => some (setKeepWait .noNewBatch s)) fun _ => .unlock .afq <|
  .act (fun s => some (setTimers P s)) fun _ => next

def dispatch (next : Int → HookCode) : HookCode :=
  wantDispatch fun ret =>
    if ret = 0 then next 0
    else .act (fun s => some (basicSchedSelectIoWork P s).2) fun s =>
      match (basicSchedSelectIoWork P s).1 with
      | .batch b => submitIoWork P b (next 1)
      | _ => next 0

/-- `__blk_run_queue`, in which the driver asks for requests `runs` times. -/
def blkRunQueue : Nat → HookCode → HookCode
  | 0, next => next
  | runs + 1, next => dispatch P fun _ => blkRunQueue runs next

/-! ## Entry hooks -/

/-- The work of the caller is handed in, and the caller waits. -/
def handIn (work : WorkId) (acct : Int) (runs : Nat) : HookCode :=
  .lock .queue <| .act (fun s => some (addIoWorkToAcct P s work acct)) fun _ =>
  blkRunQueue P runs <| .unlock .queue <|
  .wait (fun s => (s.descs work).woken) <| .ret 0

/-- The descriptor of a system call, and then the same for each of them. -/
def block (work : WorkId) (acct : Int) (runs : Nat) : HookCode :=
  .act (fun s => some { s with env := s.env.kmalloc.2 }) fun s =>
    if s.env.kmalloc.1 then
      .act (fun s => some ((s.setDesc work .fresh).setAcct work (some acct))) fun _ =>
        handIn P work acct runs
    else .ret enomem

def bump (acct : Int) (f : Account → Account) (s : State) : Option State := some (s.modifyAccount acct f)

/-- `basic_sched_write_entry` after it has given back `afq_data->lock`. -/
def writeEntryFor (n : Nat) (direct : Bool) (runs : Nat) : Option Int → HookCode
  | none => .ret 0
  | some acct =>
    if acct = 0 then .ret 0
    else
      .act (bump acct fun a => { a with numWriteCall := a.numWriteCall + 1 }) fun _ =>
      .act some fun s =>
        if !direct && withinAllowance P s acct then
          .act (bump acct fun a => { a with numWritePassed := a.numWritePassed + 1 }) fun _ => .ret 0
        else
          .act (bump acct fun a => { a with numWriteBlocked := a.numWriteBlocked + 1 }) fun _ =>
          block P (.write n) acct runs

/-- `basic_sched_write_entry` when it holds `afq_data->lock`. The early return keeps it. -/
def writeEntryLocked (n : Nat) (cur : Int) (direct : Bool) (uniq : Int) (runs : Nat) : HookCode :=
  .act (fun s => some (if uniq = s.mem.schedUniq then (callerAccount P s cur).2 else s)) fun s =>
    if uniq = s.mem.schedUniq then
      .unlock .afq <| writeEntryFor P n direct runs (callerAccount P s cur).1
    else .ret (-1)

def writeEntry (n : Nat) (cur : Int) (direct : Bool) (uniq : Int) (runs : Nat) : HookCode :=
  .lock .afq <| writeEntryLocked P n cur direct uniq runs

def mkdirEntry (n : Nat) (cur uniq : Int) (runs : Nat) : HookCode :=
  .lock .queue <|
  .act (fun s => some (if uniq = s.mem.schedUniq then (callerAccount P s cur).2 else s)) fun s =>
  .unlock .queue <|
    if uniq = s.mem.schedUniq then
      match (callerAccount P s cur).1 with
      | none => .ret 0
      | some acct =>
        if acct = 0 then .ret 0
        else .act some fun s =>
          if withinAllowance P s acct then .ret 0 else block P (.mkdir n) acct runs
    else .ret (-1)

def fsyncEntry (n : Nat) (cur uniq : Int) (runs : Nat) : HookCode :=
  .act (fun s => some { s with env := s.env.kmalloc.2 }) fun s =>
    if s.env.kmalloc.1 then
      .lock .queue <|
      .act (fun s => some (if uniq = s.mem.schedUniq then (getAccount P s cur).2 else s)) fun s =>
        if uniq = s.mem.schedUniq then
          match (getAccount P s cur).1 with
          | none => .unlock .queue <| .ret 0
          | some acct =>
            if acct = 0 then .unlock .queue <| .ret 0
            else
              .act (fun s => some ((s.setDesc (.fsync n) .fresh).setAcct (.fsync n) (some acct))) fun _ =>
              .act (fun s => some (addIoWorkToAcct P s (.fsync n) acct)) fun _ =>
              blkRunQueue P runs <| .unlock .queue <|
              .wait (fun s => (s.descs (.fsync n)).woken) <| .ret 0
        else .unlock .queue <| .ret (-1)
    else .ret enomem

/-! ## Returns -/

def putWork (b : Nat) (s : State) : Option State :=
  (s.batches b).map fun d => s.setBatch b (some { d with oneLoopWork := d.oneLoopWork - 1 })

/-- `kfree(batch_desc)`. -/
def freeBatch (b : Nat) (next : HookCode) : HookCode := .act (fun s => some (s.setBatch b none)) fun _ => next

/-- `dec_check_cleanup_batch`; `current` says whether there is an `afq_data`. -/
def decCheckCleanup (current : Bool) (b : Nat) (next : HookCode) : HookCode :=
  .act (putWork b) fun s =>
    if (s.batches b).any fun d => d.oneLoopWork - 1 = 0 then
      if current then
        .lock .afq <| .act (fun s => some (setKeepWait .allowNewBatch s)) fun _ => .unlock .afq <|
        freeBatch b next
      else freeBatch b next
    else next

/-- The three return hooks. They return at once when there is no descriptor. A descriptor without a batch
is a fault. -/
def schedReturnCode (work : Option WorkId) (uniq : Int) : HookCode :=
  match work with
  | none => .ret 0
  | some work =>
    .lock .queue <| .act (fun s => if (s.descs work).ownerBatch = none then none else some s) fun s =>
      match (s.descs work).ownerBatch with
      | none => .unlock .queue <| .ret 0
      | some b => decCheckCleanup (decide (s.mem.schedUniq = uniq)) b <| .unlock .queue <| .ret 0

def complteRequest (rq : Nat) : HookCode :=
  .act (fun s => some { s with inflight := s.inflight - 1 }) fun _ =>
  .act some fun s =>
    match (s.descs (.req rq)).ownerBatch with
    | none => .ret 0
    | some b => decCheckCleanup true b <| .ret 0

/-! ## All hooks -/

/-- One act under a lock of its own. -/
def locked (l : LockId) (f : State → State) : HookCode :=
  .lock l <| .act (fun s => some (f s)) fun _ => .unlock l <| .ret 0

/-- The hooks with their arguments. `runs` is how often the driver asks for requests when the hook runs
the queue. -/
inductive Hook where
  | writeEntry (n : Nat) (cur : Int) (direct : Bool) (uniq : Int) (runs : Nat)
  | mkdirEntry (n : Nat) (cur uniq : Int) (runs : Nat)
  | fsyncEntry (n : Nat) (cur uniq : Int) (runs : Nat)
  | writeReturn (n : Option Nat) (uniq : Int)
  | mkdirReturn (n : Option Nat) (uniq : Int)
  | fsyncReturn (n : Option Nat) (uniq : Int)
  | dispatch
  | add (rq : Nat) (cur : Int)
  | complete (rq : Nat)
  | causesDirty (l : Nat) (newId : Int) (inode : Nat) (pos : Int)
  | causesFree (l : Nat)
  | waitTimer
  | deadTimer
  | kvSet (id : Int) (key : String) (val : Int)
  /-- One round of `sched_thread_func`. -/
  | schedThread (runs : Nat)
  /-- One round of `min_thread_func`. -/
  | minThread

def hookCode : Hook → HookCode
  | .writeEntry n cur direct uniq runs => writeEntry P n cur direct uniq runs
  | .mkdirEntry n cur uniq runs => mkdirEntry P n cur uniq runs
  | .fsyncEntry n cur uniq runs => fsyncEntry P n cur uniq runs
  | .writeReturn n uniq => schedReturnCode (n.map .write) uniq
  | .mkdirReturn n uniq => schedReturnCode (n.map .mkdir) uniq
  | .fsyncReturn n uniq => schedReturnCode (n.map .fsync) uniq
  | .dispatch => dispatch P .ret
  | .add rq cur => .act (fun s => basicSchedAddRequest P s rq cur) fun _ => .ret 0
  | .complete rq => complteRequest rq
  | .causesDirty l newId inode pos =>
    .act (fun s => basicSchedCausesDirty P s l newId inode pos) fun _ => .ret 0
  | .causesFree l => .act (fun s => basicSchedCausesFree P s l) fun _ => .ret 0
  | .waitTimer => locked .afq newBatchWaitTimerFunc
  | .deadTimer => locked .afq batchDeadTimerFunc
  | .kvSet id key val => locked .queue fun s => basicKvSetCallback P s id key val
  | .schedThread runs => .lock .queue <| blkRunQueue P runs <| .unlock .queue <| .ret 0
  | .minThread => locked .queue (updateActiveMin P)

/-- The block layer calls some hooks with the queue lock held. -/
def hookBase : Hook → List LockId
  | .dispatch | .add _ _ | .complete _ | .causesDirty _ _ _ _ | .causesFree _ => [.queue]
  | _ => []

/-! ## The meaning of the code -/

section Exec

variable {P} {s : State}

def runQueue (P : Platform) : Nat → State → Option State
  | 0, s => some s
  | runs + 1, s => (basicSchedDispatch P s).bind fun r => runQueue P runs r.2

/-- An entry hook that blocks its caller has run the queue. -/
def entered (P : Platform) (runs : Nat) (r : Entry × State) : Option (Option Int × State) :=
  match r.1 with
  | .passed => some (some 0, r.2)
  | .failed rv => some (some rv, r.2)
  | .blocked => (runQueue P runs r.2).map fun s => (none, s)

def finished (r : Option State) : Option (Option Int × State) := r.map fun s => (some 0, s)

theorem wantDispatch_exec (next : Int → HookCode) :
    (wantDispatch next).exec s = (next (basicSchedWantDispatch s)).exec s := by
  unfold wantDispatch basicSchedWantDispatch
  simp only [Code.exec, Option.bind_some]
  by_cases hdead : s.batchDead = true
  · simp only [hdead, if_true]
  by_cases hallow : s.keepWait = .allowNewBatch
  · rw [if_neg hdead, if_neg hdead, if_pos hallow, if_pos hallow]
  rw [if_neg hdead, if_neg hdead, if_neg hallow, if_neg hallow]
  simp only [Code.exec, Option.bind_some]
  split <;> rfl

theorem submitIoWork_exec (b : Nat) (next : HookCode) :
    (submitIoWork P b next).exec s = (basicSchedSubmitIoWork P s b).bind next.exec := by
  unfold submitIoWork basicSchedSubmitIoWork submitLoop
  simp only [Code.exec, Option.bind_some]
  cases s.batches b with
  | none => rfl
  | some d =>
    rw [Option.bind_map]
    rfl

theorem dispatch_exec (next : Int → HookCode) :
    (dispatch P next).exec s = (basicSchedDispatch P s).bind fun r => (next r.1).exec r.2 := by
  unfold dispatch basicSchedDispatch
  rw [wantDispatch_exec]
  split_ifs with h
  · rfl
  · simp only [Code.exec, Option.bind_some]
    cases (basicSchedSelectIoWork P s).1 with
    | batch b => simp only [submitIoWork_exec, Option.bind_map, Function.comp_def]
    | nothing => rfl
    | noAccount => rfl
    | noPending => rfl

theorem blkRunQueue_exec (runs : Nat) (next : HookCode) : ∀ s,
    (blkRunQueue P runs next).exec s = (runQueue P runs s).bind next.exec := by
  induction runs with
  | zero =>
    intro s
    rfl
  | succ runs ih =>
    intro s
    unfold blkRunQueue runQueue
    rw [dispatch_exec, Option.bind_assoc]
    simp only [ih]

/-- The queue is run, and the caller waits. -/
theorem waits_exec (runs : Nat) (ready : State → Bool) (s : State) :
    (blkRunQueue P runs <| .unlock .queue <| .wait ready <| .ret 0).exec s =
      entered P runs (.blocked, s) := by
  rw [blkRunQueue_exec]
  unfold entered
  simp only [Code.exec]
  cases runQueue P runs s <;> rfl

theorem block_exec (work : WorkId) (acct : Int) (runs : Nat) :
    (block P work acct runs).exec s = entered P runs (blockCaller P s work acct) := by
  unfold block blockCaller
  simp only [Code.exec, Option.bind_some]
  split_ifs
  · exact waits_exec runs _ _
  · rfl

theorem writeEntryFor_exec (n : Nat) (direct : Bool) (runs : Nat) (acct : Option Int) :
    (writeEntryFor P n direct runs acct).exec s = entered P runs
      (match acct with
      | none => (.passed, s)
      | some acct =>
        if acct = 0 then (.passed, s)
        else
          let s := s.modifyAccount acct fun a => { a with numWriteCall := a.numWriteCall + 1 }
          if !direct && withinAllowance P s acct then
            (.passed, s.modifyAccount acct fun a => { a with numWritePassed := a.numWritePassed + 1 })
          else
            blockCaller P (s.modifyAccount acct fun a =>
              { a with numWriteBlocked := a.numWriteBlocked + 1 }) (.write n) acct) := by
  cases acct with
  | none => rfl
  | some acct =>
    unfold writeEntryFor bump
    by_cases h : acct = 0
    · simp only [h, if_true]
      rfl
    · simp only [h, if_false, Code.exec, Option.bind_some]
      split_ifs
      · rfl
      · simp only [Code.exec, Option.bind_some, block_exec]

theorem writeEntry_exec (n : Nat) (cur : Int) (direct : Bool) (uniq : Int) (runs : Nat) :
    (writeEntry P n cur direct uniq runs).exec s =
      entered P runs (basicSchedWriteEntry P s n cur direct uniq) := by
  unfold writeEntry writeEntryLocked basicSchedWriteEntry
  by_cases h : uniq = s.mem.schedUniq
  · simp only [Code.exec, h, if_true, Option.bind_some, ne_eq, not_true_eq_false, if_false]
    refine (writeEntryFor_exec ..).trans ?_
    cases (callerAccount P s cur).1 <;> rfl
  · simp only [Code.exec, h, if_false, Option.bind_some, ne_eq, not_false_eq_true, if_true]
    rfl

theorem mkdirEntry_exec (n : Nat) (cur uniq : Int) (runs : Nat) :
    (mkdirEntry P n cur uniq runs).exec s = entered P runs (basicSchedMkdirEntry P s n cur uniq) := by
  unfold mkdirEntry basicSchedMkdirEntry
  by_cases h : uniq = s.mem.schedUniq
  · simp only [Code.exec, h, if_true, Option.bind_some, ne_eq, not_true_eq_false, if_false]
    cases (callerAccount P s cur).1 with
    | none => rfl
    | some acct =>
      by_cases h0 : acct = 0
      · simp only [h0, if_true]
        rfl
      · simp only [h0, if_false, Code.exec, Option.bind_some]
        split_ifs
        · rfl
        · exact block_exec _ _ _
  · simp only [Code.exec, h, if_false, Option.bind_some, ne_eq, not_false_eq_true, if_true]
    rfl

theorem fsyncEntry_exec (n : Nat) (cur uniq : Int) (runs : Nat) :
    (fsyncEntry P n cur uniq runs).exec s = entered P runs (basicSchedFsyncEntry P s n cur uniq) := by
  unfold fsyncEntry basicSchedFsyncEntry
  cases hk : s.env.kmalloc.1 with
  | false =>
    simp only [Code.exec, hk, Option.bind_some, Bool.false_eq_true, if_false, if_true]
    rfl
  | true =>
    by_cases h : uniq = s.mem.schedUniq
    · simp only [Code.exec, hk, h, if_true, Option.bind_some, ne_eq, not_true_eq_false, if_false,
        Bool.true_eq_false]
      cases (getAccount P { s with env := s.env.kmalloc.2 } cur).1 with
      | none => rfl
      | some acct =>
        by_cases h0 : acct = 0
        · simp only [h0, if_true]
          rfl
        · simp only [h0, if_false, Code.exec, Option.bind_some]
          exact waits_exec runs _ _
    · simp only [Code.exec, hk, h, if_true, Option.bind_some, ne_eq, not_false_eq_true, if_false,
        Bool.true_eq_false]
      rfl

theorem setBatch_setBatch (s : State) (b : Nat) (d d' : Option BatchDesc) :
    (s.setBatch b d).setBatch b d' = s.setBatch b d' := by
  unfold State.setBatch
  simp only [Function.update_idem]

theorem decCheckCleanup_exec (current : Bool) (b : Nat) (next : HookCode) :
    (decCheckCleanup current b next).exec s = (decCheckCleanupBatch s current b).bind next.exec := by
  unfold decCheckCleanup decCheckCleanupBatch putWork
  cases hb : s.batches b with
  | none => simp only [Code.exec, hb, Option.map_none, Option.bind_none]
  | some d =>
    simp only [Code.exec, hb, Option.map_some, Option.bind_some, Option.any_some, decide_eq_true_eq]
    by_cases hd : d.oneLoopWork - 1 = 0
    · cases current with
      | true =>
        simp only [hd, if_true, freeBatch, Code.exec, Option.bind_some]
        congr 1
        exact setBatch_setBatch { s with keepWait := .allowNewBatch } b _ _
      | false => simp only [hd, if_true, Bool.false_eq_true, if_false, freeBatch, Code.exec, Option.bind_some,
          setBatch_setBatch]
    · simp only [hd, if_false, Option.bind_some]

theorem bind_ret (r : Option State) : r.bind (Code.ret 0 : HookCode).exec = finished r := by
  cases r <;> rfl

theorem schedReturnCode_exec (work : WorkId) (uniq : Int) :
    (schedReturnCode (some work) uniq).exec s =
      finished (schedReturn s work (decide (s.mem.schedUniq = uniq))) := by
  unfold schedReturnCode schedReturn
  cases hb : (s.descs work).ownerBatch with
  | none => simp only [Code.exec, hb, if_true, Option.bind_none, finished, Option.map_none]
  | some b =>
    simp only [Code.exec, hb, reduceCtorEq, if_false, Option.bind_some, decCheckCleanup_exec]
    exact bind_ret _

theorem complteRequest_exec (rq : Nat) :
    (complteRequest rq).exec s = finished (basicSchedComplteRequest s rq) := by
  unfold complteRequest basicSchedComplteRequest
  simp only [Code.exec, Option.bind_some]
  cases (s.descs (.req rq)).ownerBatch with
  | none => rfl
  | some b => exact (decCheckCleanup_exec true b _).trans (bind_ret _)

/-- The hooks of `SplitSched.Afq.Work`. -/
def hookEffect (P : Platform) (s : State) : Hook → Option (Option Int × State)
  | .writeEntry n cur direct uniq runs => entered P runs (basicSchedWriteEntry P s n cur direct uniq)
  | .mkdirEntry n cur uniq runs => entered P runs (basicSchedMkdirEntry P s n cur uniq)
  | .fsyncEntry n cur uniq runs => entered P runs (basicSchedFsyncEntry P s n cur uniq)
  | .writeReturn n uniq => finished <|
    n.elim (some s) fun n => basicSchedWriteReturn s n (decide (s.mem.schedUniq = uniq))
  | .mkdirReturn n uniq => finished <|
    n.elim (some s) fun n => basicSchedMkdirReturn s n (decide (s.mem.schedUniq = uniq))
  | .fsyncReturn n uniq => finished <|
    n.elim (some s) fun n => basicSchedFsyncReturn s n (decide (s.mem.schedUniq = uniq))
  | .dispatch => (basicSchedDispatch P s).map fun r => (some r.1, r.2)
  | .add rq cur => finished (basicSchedAddRequest P s rq cur)
  | .complete rq => finished (basicSchedComplteRequest s rq)
  | .causesDirty l newId inode pos => finished (basicSchedCausesDirty P s l newId inode pos)
  | .causesFree l => finished (basicSchedCausesFree P s l)
  | .waitTimer => finished (some (newBatchWaitTimerFunc s))
  | .deadTimer => finished (some (batchDeadTimerFunc s))
  | .kvSet id key val => finished (some (basicKvSetCallback P s id key val))
  | .schedThread runs => finished (runQueue P runs s)
  | .minThread => finished (some (updateActiveMin P s))

/-- The code of a hook does what the hook does, when nothing comes in between. -/
theorem hookCode_exec (P : Platform) (s : State) (h : Hook) : (hookCode P h).exec s = hookEffect P s h := by
  cases h with
  | writeEntry n cur direct uniq runs => exact writeEntry_exec n cur direct uniq runs
  | mkdirEntry n cur uniq runs => exact mkdirEntry_exec n cur uniq runs
  | fsyncEntry n cur uniq runs => exact fsyncEntry_exec n cur uniq runs
  | writeReturn n uniq =>
    cases n with
    | none => rfl
    | some n => exact schedReturnCode_exec (.write n) uniq
  | mkdirReturn n uniq =>
    cases n with
    | none => rfl
    | some n => exact schedReturnCode_exec (.mkdir n) uniq
  | fsyncReturn n uniq =>
    cases n with
    | none => rfl
    | some n => exact schedReturnCode_exec (.fsync n) uniq
  | dispatch =>
    refine (dispatch_exec _).trans ?_
    cases hd : basicSchedDispatch P s <;> simp [hookEffect, hd, Code.exec]
  | add rq cur => exact bind_ret _
  | complete rq => exact complteRequest_exec rq
  | causesDirty l newId inode pos => exact bind_ret _
  | causesFree l => exact bind_ret _
  | waitTimer => rfl
  | deadTimer => rfl
  | kvSet id key val => rfl
  | schedThread runs => exact (blkRunQueue_exec runs _ s).trans (bind_ret _)
  | minThread => rfl

end Exec

/-! ## The discipline -/

section Discipline

variable {P}

/-- What the write hooks do is looked at only while the scheduler is the one they were called for. -/
def UniqGuard (P : Platform) (c : HookCode) (s : State) : Prop :=
  ∀ n cur direct uniq runs, c = writeEntryLocked P n cur direct uniq runs → uniq = s.mem.schedUniq

variable {base held : Set LockId} {next : HookCode}

theorem wantDispatch_releases {next : Int → HookCode} (hl : .afq ∉ held) (hb : .afq ∉ base)
    (h : ∀ r, Code.Releases (UniqGuard P) base (next r) held) :
    Code.Releases (UniqGuard P) base (wantDispatch next) held := by
  refine .bracket hl hb fun s => ?_
  split_ifs
  · exact h 0
  · exact h 1
  · refine .act fun now _ => ?_
    split
    · exact h 2
    · exact h 0

theorem submitIoWork_releases (b : Nat) (hl : .afq ∉ held) (hb : .afq ∉ base)
    (h : Code.Releases (UniqGuard P) base next held) :
    Code.Releases (UniqGuard P) base (submitIoWork P b next) held :=
  .act fun _ _ => .bracket hl hb fun _ => .act fun _ _ => h

theorem dispatch_releases {next : Int → HookCode} (hl : .afq ∉ held) (hb : .afq ∉ base)
    (h : ∀ r, Code.Releases (UniqGuard P) base (next r) held) :
    Code.Releases (UniqGuard P) base (dispatch P next) held := by
  refine wantDispatch_releases hl hb fun ret => ?_
  split
  · exact h 0
  · refine .act fun s _ => ?_
    split
    · exact submitIoWork_releases _ hl hb (h 1)
    · exact h 0

theorem blkRunQueue_releases (runs : Nat) (hl : .afq ∉ held) (hb : .afq ∉ base)
    (h : Code.Releases (UniqGuard P) base next held) :
    Code.Releases (UniqGuard P) base (blkRunQueue P runs next) held := by
  induction runs with
  | zero => exact h
  | succ runs ih => exact dispatch_releases hl hb fun _ => ih

/-- The queue is run with its lock held, which is then given back. -/
theorem blkRunQueue_unlock_releases (runs : Nat) (h : Code.Releases (UniqGuard P) ∅ next ∅) :
    Code.Releases (UniqGuard P) ∅ (blkRunQueue P runs <| .unlock .queue next) {.queue} :=
  blkRunQueue_releases runs (by simp) (by simp) (.unlock h)

theorem block_releases (work : WorkId) (acct : Int) (runs : Nat) :
    Code.Releases (UniqGuard P) ∅ (block P work acct runs) ∅ := by
  refine .act fun s _ => ?_
  split
  · refine .act fun _ _ => ⟨Set.notMem_empty _, .act fun _ _ => ?_⟩
    rw [insert_empty_eq]
    exact blkRunQueue_unlock_releases runs ⟨rfl, rfl⟩
  · rfl

theorem writeEntryFor_releases (n : Nat) (direct : Bool) (runs : Nat) (acct : Option Int) :
    Code.Releases (UniqGuard P) ∅ (writeEntryFor P n direct runs acct) ∅ := by
  unfold writeEntryFor
  cases acct with
  | none => rfl
  | some acct =>
    simp only
    split
    · rfl
    · refine .act fun _ _ => .act fun s _ => ?_
      split
      · exact .act fun _ _ => rfl
      · exact .act fun _ _ => block_releases _ _ _

theorem writeEntry_releases (n : Nat) (cur : Int) (direct : Bool) (uniq : Int) (runs : Nat) :
    Code.Releases (UniqGuard P) ∅ (writeEntry P n cur direct uniq runs) ∅ := by
  refine ⟨Set.notMem_empty _, .act fun s hg => ?_⟩
  rw [if_pos (hg n cur direct uniq runs rfl), insert_empty_eq]
  exact .unlock (writeEntryFor_releases n direct runs _)

theorem mkdirEntry_releases (n : Nat) (cur uniq : Int) (runs : Nat) :
    Code.Releases (UniqGuard P) ∅ (mkdirEntry P n cur uniq runs) ∅ := by
  refine .bracket (Set.notMem_empty _) (Set.notMem_empty _) fun s => ?_
  split
  · split
    · rfl
    · split
      · rfl
      · refine .act fun s _ => ?_
        split
        · rfl
        · exact block_releases _ _ _
  · rfl

theorem fsyncEntry_releases (n : Nat) (cur uniq : Int) (runs : Nat) :
    Code.Releases (UniqGuard P) ∅ (fsyncEntry P n cur uniq runs) ∅ := by
  refine .act fun s _ => ?_
  split
  · refine ⟨Set.notMem_empty _, .act fun s _ => ?_⟩
    rw [insert_empty_eq]
    split
    · split
      · exact .unlock rfl
      · split
        · exact .unlock rfl
        · exact .act fun _ _ => .act fun _ _ => blkRunQueue_unlock_releases runs ⟨rfl, rfl⟩
    · exact .unlock rfl
  · rfl

theorem decCheckCleanup_releases (current : Bool) (b : Nat) (hl : .afq ∉ held) (hb : .afq ∉ base)
    (h : Code.Releases (UniqGuard P) base next held) :
    Code.Releases (UniqGuard P) base (decCheckCleanup current b next) held := by
  refine .act fun s _ => ?_
  split
  · split
    · exact .bracket hl hb fun _ => .act fun _ _ => h
    · exact .act fun _ _ => h
  · exact h

theorem schedReturnCode_releases (work : Option WorkId) (uniq : Int) :
    Code.Releases (UniqGuard P) ∅ (schedReturnCode work uniq) ∅ := by
  cases work with
  | none => rfl
  | some work =>
    refine ⟨Set.notMem_empty _, .act fun s _ => ?_⟩
    rw [insert_empty_eq]
    split
    · exact .unlock rfl
    · exact decCheckCleanup_releases _ _ (by simp) (by simp) (.unlock rfl)

theorem complteRequest_releases (rq : Nat) :
    Code.Releases (UniqGuard P) {.queue} (complteRequest rq) {.queue} := by
  refine .act fun _ _ => .act fun s _ => ?_
  split
  · rfl
  · exact decCheckCleanup_releases _ _ (by simp) (by simp) rfl

theorem locked_releases (l : LockId) (f : State → State) :
    Code.Releases (UniqGuard P) ∅ (locked l f) ∅ :=
  .bracket (Set.notMem_empty _) (Set.notMem_empty _) fun _ => rfl

theorem hookCode_releases (h : Hook) :
    (hookCode P h).Releases (UniqGuard P) {l | l ∈ hookBase h} {l | l ∈ hookBase h} := by
  have hnil : {l : LockId | l ∈ ([] : List LockId)} = ∅ := by simp
  have hqueue : {l : LockId | l ∈ [LockId.queue]} = {.queue} := by simp
  cases h with simp only [hookBase, hnil, hqueue]
  | writeEntry n cur direct uniq runs => exact writeEntry_releases n cur direct uniq runs
  | mkdirEntry n cur uniq runs => exact mkdirEntry_releases n cur uniq runs
  | fsyncEntry n cur uniq runs => exact fsyncEntry_releases n cur uniq runs
  | writeReturn n uniq => exact schedReturnCode_releases _ uniq
  | mkdirReturn n uniq => exact schedReturnCode_releases _ uniq
  | fsyncReturn n uniq => exact schedReturnCode_releases _ uniq
  | dispatch => exact dispatch_releases (by simp) (by simp) fun _ => rfl
  | add rq cur => exact fun _ _ => rfl
  | complete rq => exact complteRequest_releases rq
  | causesDirty l newId inode pos => exact fun _ _ => rfl
  | causesFree l => exact fun _ _ => rfl
  | waitTimer => exact locked_releases _ _
  | deadTimer => exact locked_releases _ _
  | kvSet id key val => exact locked_releases _ _
  | schedThread runs =>
    refine ⟨Set.notMem_empty _, ?_⟩
    rw [insert_empty_eq]
    exact blkRunQueue_unlock_releases runs rfl
  | minThread => exact locked_releases _ _

end Discipline

/-! ## Runs -/

/-- The rest of the kernel has changed the memory. -/
def kernelEffect (m : Mem) (s : State) : State := { s with mem := m }

def step (P : Platform) : Machine State LockId Int → Locks.Event Hook Mem → Option (Machine State LockId Int) :=
  Locks.step (hookCode P) hookBase kernelEffect

section Runs

variable {P} {m m' : Machine State LockId Int} {e : Locks.Event Hook Mem}

theorem writeEntryLocked_uniq {n n' : Nat} {cur cur' : Int} {direct direct' : Bool} {uniq uniq' : Int}
    {runs runs' : Nat} (s : State) (hs : s.mem.schedUniq = uniq)
    (h : writeEntryLocked P n cur direct uniq runs = writeEntryLocked P n' cur' direct' uniq' runs') :
    uniq' = uniq := by
  unfold writeEntryLocked at h
  injection h with _ hnext
  have heq := congrFun hnext s
  by_contra hne
  simp [hs, hne] at heq

/-- The write hook that finds another `sched_uniq` returns with the lock. -/
theorem stale_keeps_lock (h : m.Disciplined (UniqGuard P)) (hs : step P m e = some m')
    (hg : ¬Guarded (UniqGuard P) m e) : ¬m'.Released := by
  cases e with
  | call hook => exact absurd trivial hg
  | other mem => exact absurd trivial hg
  | move t =>
    simp only [Guarded, UniqGuard, not_forall] at hg
    obtain ⟨⟨code, base⟩, ht, n, cur, direct, uniq, runs, hcode, hne⟩ := hg
    subst hcode
    -- with the right number the hook would give back the lock, so it has it
    obtain ⟨now, hnow⟩ : ∃ now : State, now.mem.schedUniq = uniq :=
      ⟨{ m.shared with mem.schedUniq := uniq }, rfl⟩
    have hguard : UniqGuard P (writeEntryLocked P n cur direct uniq runs) now :=
      fun _ _ _ _ _ heq => (writeEntryLocked_uniq now hnow heq).trans hnow.symm
    have hr := h.releases t _ ht now hguard
    simp only [hnow, if_true] at hr
    obtain ⟨hheld, hbase, -⟩ := hr
    simp only [step, Locks.step, ht] at hs
    simp only [Machine.move, writeEntryLocked, hne, if_false, Option.map_some, Option.some.injEq] at hs
    subst hs
    intro hreleased
    have hlt := (List.getElem?_eq_some_iff.mp ht).1
    exact hbase (hreleased t ⟨.ret (-1), base⟩ (List.getElem?_set_self hlt) trivial .afq hheld)

/-- A hook that has returned or waits holds no lock that it took, along exactly the runs in which no
write hook finds another `sched_uniq` when it has the lock. -/
theorem locks_released_iff (P : Platform) (s : State) (es : List (Locks.Event Hook Mem))
    (m : Machine State LockId Int) (h : run (step P) (.init s) es = some m) :
    Always (step P) Machine.Released (.init s) es ↔
      Meets (step P) (Guarded (UniqGuard P)) (.init s) es :=
  always_iff_meets (I := Machine.Disciplined (UniqGuard P)) (step_disciplined hookCode_releases)
    (fun _ hd => hd.released) (fun _ _ _ hs hg hd => stale_keeps_lock hd hs hg) h
    (Machine.init_disciplined s)

end Runs

/-- A direct write that is handed in and waits; the timer runs in between. -/
def directWriteRun : List (Locks.Event Hook Mem) :=
  [.call (.writeEntry 0 7 true 1000 1), .move 0, .call .waitTimer, .move 0, .move 0, .move 1, .move 1,
    .move 1] ++ List.replicate 7 (.move 0)

theorem locks_released_direct_write :
    ∃ s m, basicSchedInitData .lp64 sampleMem sampleEnv = some s ∧
      run (step .lp64) (.init s) directWriteRun = some m ∧
      (Always (step .lp64) Machine.Released (.init s) directWriteRun ↔
        Meets (step .lp64) (Guarded (UniqGuard .lp64)) (.init s) directWriteRun) := by
  have h : ((basicSchedInitData .lp64 sampleMem sampleEnv).bind fun s =>
      run (step .lp64) (.init s) directWriteRun).isSome = true := by
    decide +kernel
  obtain ⟨m, hm⟩ := Option.isSome_iff_exists.mp h
  obtain ⟨s, hs, hr⟩ := Option.bind_eq_some_iff.mp hm
  exact ⟨s, m, hs, hr, locks_released_iff .lp64 s _ m hr⟩

/-- A write hook is called for the scheduler 999, when the queue has the scheduler 1000. -/
theorem stale_write_keeps_lock :
    ∃ s m, basicSchedInitData .lp64 sampleMem sampleEnv = some s ∧
      run (step .lp64) (.init s) [.call (.writeEntry 0 7 false 999 0), .move 0, .move 0] = some m ∧
      m.threads = [⟨.ret (-1), []⟩] ∧ m.owner .afq = some 0 ∧ ¬m.Released := by
  obtain ⟨s, hs⟩ := Option.isSome_iff_exists.mp
    (show (basicSchedInitData .lp64 sampleMem sampleEnv).isSome = true by decide +kernel)
  have huniq : (999 : Int) ≠ s.mem.schedUniq := by
    rw [(basicSchedInitData_fresh hs).1]
    decide
  refine ⟨s, ⟨s, Function.update (fun _ => none) .afq (some 0), [⟨.ret (-1), []⟩]⟩, hs, ?_, rfl, rfl,
    fun hm => ?_⟩
  · simp [run, step, Locks.step, Machine.call, Machine.move, Machine.goOn, Machine.init, hookBase, hookCode,
      writeEntry, writeEntryLocked, huniq]
  · exact absurd (hm 0 _ rfl trivial .afq rfl) List.not_mem_nil

end Locking
end Afq
end SplitSched
