import SplitSched.Afq.Accounting

/-!
# SplitSched.Afq.Work

The work of the AFQ scheduler (acct_afq_sched.c): insertion of requests and system calls, selection
of a batch, its submission, and the hooks by which work returns.

`basic_sched_select_io_work` has five ways out, one for each constructor of `Selected` or for each
early return. Its `goto add_io_work` is the recursion of `addIoWork`, which ends because a round
that asks for more has drained an account and taken it off the active list.
-/

namespace SplitSched
namespace Afq

open CArith

/-! ## Pending work -/

def acctNoPendingIo (s : State) (acct : Int) : Bool := decide (s.workList acct = [])

/-- Link an account that had no work, and bring its counter up to date if it slept for long. -/
def activate (P : Platform) (s : State) (acct : Int) : State :=
  { s.modifyAccount acct fun a =>
      if timeBefore P (a.lastEndRequest + acctMaxSleepTime P) s.mem.jiffies then
        { a with vioCounter := s.globalMinVioCounter2 }
      else a with
    activeAcctList := s.activeAcctList ++ [acct] }

def addIoWorkToAcct (P : Platform) (s : State) (work : WorkId) (acct : Int) : State :=
  let s := if acctNoPendingIo s acct then activate P s acct else s
  { s.modifyAccount acct fun a => { a with ioWorkList := a.ioWorkList ++ [work] } with
    accepted := s.accepted ++ [work] }

/-- A unit of work of the batch has returned; the last one frees the descriptor. `none` is the use of
a descriptor that is not allocated. `current` says whether the scheduler is still installed. -/
def decCheckCleanupBatch (s : State) (current : Bool) (b : Nat) : Option State :=
  match s.batches b with
  | none => none
  | some d =>
    let oneLoopWork := d.oneLoopWork - 1
    if oneLoopWork = 0 then
      let s := if current then { s with keepWait := .allowNewBatch } else s
      some (s.setBatch b none)
    else some (s.setBatch b (some { d with oneLoopWork := oneLoopWork }))

/-! ## Requests -/

/-- The statistics of `cause_list_size_stat2` for one cause list. -/
def sizeStatItem (s : State) (l : Nat) : State :=
  let causes := s.mem.lists l
  let count := causes.itemCount
  if maxCauseCount ≤ count then s
  else if causes.type = .checkpoint then
    { s with caustCountDist := Function.update s.caustCountDist count (s.caustCountDist count + 1) }
  else if causes.type = .journalMeta then
    { s with journalCct := Function.update s.journalCct count (s.journalCct count + 1) }
  else s

def causeListSizeStat2 (s : State) (rq : Nat) : State :=
  if (s.mem.rqs rq).write then
    ((s.mem.rqs rq).bios.flatMap fun bio => (bio.cll.map (·.items)).getD []).foldl sizeStatItem s
  else s

/-- Add the current task to the request's own cause list. -/
def tagRequest (s : State) (rq : Nat) (cur : Int) : State :=
  match (s.mem.rqs rq).causes with
  | none => s
  | some l =>
    let r := causeListAddId s.env (s.mem.lists l) cur
    { s.setList l r.2.1 with env := r.2.2 }

def elvDispatchSort (s : State) (rq : Nat) : State := { s with sorted := s.sorted ++ [rq] }

/-- A task of account `cur` inserts a request. -/
def basicSchedAddRequest (P : Platform) (s : State) (rq : Nat) (cur : Int) : Option State :=
  let s := tagRequest (causeListSizeStat2 s rq) rq cur
  if (s.mem.rqs rq).write then
    match afqAccountRequest2 P { s with inflight := s.inflight + 1 } rq with
    | none => none
    | some s => some (elvDispatchSort s rq)
  else
    let r := getAccount P s cur
    let s := r.2.setAcct (.req rq) r.1
    match r.1 with
    | none => some (elvDispatchSort s rq)
    | some acct =>
      if acct ≠ 0 then some (addIoWorkToAcct P s (.req rq) acct)
      else some (elvDispatchSort s rq)

def basicSchedComplteRequest (s : State) (rq : Nat) : Option State :=
  let s := { s with inflight := s.inflight - 1 }
  match (s.descs (.req rq)).ownerBatch with
  | none => some s
  | some b => decCheckCleanupBatch s true b

/-! ## Selection -/

/-- The outcome of `basic_sched_select_io_work`. -/
inductive Selected where
  /-- Returns 0. -/
  | nothing
  /-- Returns -1: no active account has a counter below the bound. -/
  | noAccount
  /-- Returns -1: the chosen account has no pending work. -/
  | noPending
  /-- Returns 1, with the batch. -/
  | batch (b : Nat)
  deriving DecidableEq, Repr

/-- The account served last, while it is worth waiting for. -/
def idleForLastAcct (P : Platform) (s : State) : Option Int :=
  match s.lastServedAcct with
  | none => none
  | some acct =>
    if s.accounts.val (fun a =>
        timeBefore P s.mem.jiffies (a.lastEndRequest + afqScliceIdle P) &&
          timeBefore P s.mem.jiffies a.sliceEnd && decide (seqThreshold ≤ a.seqCounter)) false acct
    then some acct else none

/-- One step of the loop over the active accounts: the smallest counter so far and its account. -/
def lesserVio (s : State) (best : Int × Option Int) (acct : Int) : Int × Option Int :=
  if s.vioCounter acct < best.1 then (s.vioCounter acct, some acct) else best

def minActive (s : State) : Int × Option Int :=
  s.activeAcctList.foldl (lesserVio s) (maxVioCounterThreshold * 2, none)

/-- The loop that moves work into a batch of `n` units: what is moved, what is left and the size. -/
def takeWork : List WorkId → Nat → List WorkId × List WorkId × Nat
  | [], n => ([], [], n)
  | work :: works, n =>
    if maxBatchSize ≤ n + 1 then ([work], works, n + 1)
    else
      let r := takeWork works (n + 1)
      (work :: r.1, r.2.1, r.2.2)

/-- Move work of an account into the batch `b`, and unlink the account if that drained it. -/
def moveWork (s : State) (b n : Nat) (acct : Int) : Nat × State :=
  let r := takeWork (s.workList acct) n
  let s := s.modifyAccount acct fun a => { a with ioWorkList := r.2.1 }
  let s := s.setBatch b ((s.batches b).map fun d =>
    { d with workSelected := d.workSelected ++ r.1 })
  (r.2.2, if r.2.1 = [] then { s with activeAcctList := s.activeAcctList.erase acct } else s)

/-- Another account is served from now on. -/
def beginSlice (P : Platform) (s : State) (acct vio : Int) : State :=
  { s.modifyAccount acct fun a =>
      { a with sliceBegin := s.mem.jiffies, sliceEnd := s.mem.jiffies + afqMaxSlice P } with
    lastServedAcct := some acct
    globalMinVioCounter := vio }

/-- Whether the batch should take the work of another account too. -/
def wantsMore (s : State) (n : Nat) (acct : Int) : Bool :=
  decide (n < minBatchSize) && s.accounts.val (fun a => decide (a.seqCounter < seqThreshold)) false acct

theorem takeWork_append (works : List WorkId) : ∀ n,
    (takeWork works n).1 ++ (takeWork works n).2.1 = works := by
  induction works with
  | nil => exact fun _ => rfl
  | cons work works ih =>
    intro n
    simp only [takeWork]
    split
    · rfl
    · simp [ih]

theorem takeWork_full (works : List WorkId) : ∀ n, (takeWork works n).2.1 ≠ [] →
    maxBatchSize ≤ (takeWork works n).2.2 := by
  induction works with
  | nil => exact fun _ h => absurd rfl h
  | cons work works ih =>
    intro n h
    simp only [takeWork] at h ⊢
    split
    · assumption
    · rename_i hn
      rw [if_neg hn] at h
      exact ih (n + 1) h

theorem minActive_mem {s : State} {vio acct : Int} (h : minActive s = (vio, some acct)) :
    acct ∈ s.activeAcctList := by
  have hfold : ∀ (l : List Int) (best : Int × Option Int), ∀ x ∈ (l.foldl (lesserVio s) best).2,
      x ∈ l ∨ x ∈ best.2 := by
    intro l
    induction l with
    | nil => exact fun best x hx => .inr hx
    | cons y l ih =>
      intro best x hx
      rcases ih _ x hx with hx | hx
      · exact .inl (List.mem_cons_of_mem y hx)
      · unfold lesserVio at hx
        split at hx
        · cases Option.mem_some_iff.mp hx
          exact .inl (List.mem_cons_self ..)
        · exact .inr hx
  rcases hfold s.activeAcctList (maxVioCounterThreshold * 2, none) acct
    (by rw [← minActive, h]; rfl) with hx | hx
  · exact hx
  · cases hx

/-- A round that leaves the batch small has drained the account. -/
theorem moveWork_drains {s : State} {b n : Nat} {acct : Int}
    (h : (moveWork s b n acct).1 < minBatchSize) :
    (moveWork s b n acct).2.activeAcctList = s.activeAcctList.erase acct := by
  by_cases hr : (takeWork (s.workList acct) n).2.1 = []
  · simp [moveWork, hr, State.setBatch, State.modifyAccount]
  · have hfull := takeWork_full _ n hr
    simp only [moveWork, minBatchSize] at h
    simp only [maxBatchSize] at hfull
    omega

/-- From `add_io_work` on, with `n` units in the batch `b`; `more` is `more_io_work`. -/
def addIoWork (P : Platform) (b n : Nat) (more : Bool) (s : State) : Selected × State :=
  match _hmin : minActive s with
  | (_, none) => if more then (.batch b, s) else (.noAccount, s.setBatch b none)
  | (vio, some acct) =>
    let s₁ := beginSlice P s acct vio
    if acctNoPendingIo s₁ acct then (.noPending, s₁.setBatch b none)
    else
      let r := moveWork s₁ b n acct
      if _hmore : wantsMore r.2 r.1 acct = true then addIoWork P b r.1 true r.2
      else (.batch b, r.2)
termination_by s.activeAcctList.length
decreasing_by
  have hlt : r.1 < minBatchSize := by
    simp only [wantsMore, Bool.and_eq_true, decide_eq_true_eq] at _hmore
    exact _hmore.1
  have hmem := minActive_mem _hmin
  have hpos := List.length_pos_of_mem hmem
  show (moveWork s₁ b n acct).2.activeAcctList.length < s.activeAcctList.length
  rw [moveWork_drains hlt]
  show (s.activeAcctList.erase acct).length < s.activeAcctList.length
  rw [List.length_erase_of_mem hmem]
  omega

def basicSchedSelectIoWork (P : Platform) (s : State) : Selected × State :=
  if s.activeAcctList = [] then (.nothing, s)
  else
    let idle := idleForLastAcct P s
    if idle.any (acctNoPendingIo s) then (.nothing, s)
    else
      let m := s.env.kmalloc
      if m.1 = false then (.nothing, { s with env := m.2 })
      else
        let b := s.nextBatch
        let s := { s.setBatch b (some ⟨[], 0⟩) with nextBatch := b + 1, env := m.2 }
        match idle with
        | none => addIoWork P b 0 false s
        | some acct =>
          if acctNoPendingIo s acct then (.noPending, s.setBatch b none)
          else
            let r := moveWork s b 0 acct
            if wantsMore r.2 r.1 acct then addIoWork P b r.1 true r.2 else (.batch b, r.2)

/-! ## Submission -/

/-- `list_del_init` on a unit of work of the batch, and the change of `one_loop_work`. -/
def unlinkWork (s : State) (b : Nat) (work : WorkId) (counted : Int) : State :=
  { s.setBatch b ((s.batches b).map fun d =>
      { workSelected := d.workSelected.erase work, oneLoopWork := d.oneLoopWork + counted }) with
    submitted := s.submitted ++ [work] }

/-- A blocked system call may go on. -/
def submitCall (b : Nat) (s : State) (work : WorkId) : State :=
  unlinkWork (s.setDesc work { s.descs work with ownerBatch := some b, woken := true }) b work 1

def submitRead (P : Platform) (b : Nat) (s : State) (rq : Nat) : Option State :=
  let s := s.setDesc (.req rq) { s.descs (.req rq) with ownerBatch := some b }
  match afqAccountRequest2 P { s with inflight := s.inflight + 1 } rq with
  | none => none
  | some s => some (elvDispatchSort (unlinkWork s b (.req rq) 1) rq)

/-- One round of the loop of `basic_sched_submit_io_work`. -/
def submitWork (P : Platform) (b : Nat) (s : State) : WorkId → Option State
  | .write n => some (submitCall b s (.write n))
  | .fsync n => some (submitCall b s (.fsync n))
  | .mkdir n => some (submitCall b s (.mkdir n))
  | .req rq =>
    match workType s.mem (.req rq) with
    | .readReq => submitRead P b s rq
    | _ => some (unlinkWork s b (.req rq) 0)

/-- The end of `basic_sched_submit_io_work`: the timers start again. -/
def startTimers (P : Platform) (s : State) : State :=
  { s with
    keepWait := .noNewBatch
    batchWaitTimer := some (s.mem.jiffies + startInFlightTime P)
    batchDeadTimer := some (s.mem.jiffies + afqBatchDeadIntval P) }

def basicSchedSubmitIoWork (P : Platform) (s : State) (b : Nat) : Option State :=
  match s.batches b with
  | none => none
  | some d => (d.workSelected.foldlM (submitWork P b) s).map (startTimers P)

/-! ## Dispatch -/

def basicSchedWantDispatch (s : State) : Int :=
  if s.batchDead then 0
  else if s.keepWait = .allowNewBatch then 1
  else if s.keepWait = .keepInFlight ∧ s.inflight < minInFlight then 2
  else 0

/-- The return value and the state after `basic_sched_dispatch`, which ignores `force`. -/
def basicSchedDispatch (P : Platform) (s : State) : Option (Int × State) :=
  if basicSchedWantDispatch s = 0 then some (0, s)
  else
    let r := basicSchedSelectIoWork P s
    match r.1 with
    | .batch b => (basicSchedSubmitIoWork P r.2 b).map fun s => (1, s)
    | _ => some (0, r.2)

def newBatchWaitTimerFunc (s : State) : State :=
  let s := { s with batchWaitTimer := none }
  if s.keepWait = .noNewBatch then { s with keepWait := .keepInFlight } else s

def batchDeadTimerFunc (s : State) : State :=
  { s with batchDeadTimer := none, batchDead := false }

/-! ## System calls -/

/-- How an entry hook ends. -/
inductive Entry where
  /-- Returns 0 and leaves no descriptor behind. -/
  | passed
  | failed (rv : Int)
  /-- The task waits for the completion of its descriptor. -/
  | blocked
  deriving DecidableEq, Repr

def enomem : Int := -12

/-- The account of the calling task, and the update of `global_min_vio_counter` that goes with it. -/
def callerAccount (P : Platform) (s : State) (cur : Int) : Option Int × State :=
  let r := getAccount P s cur
  match r.1 with
  | none => r
  | some acct =>
    if acct ≠ 0 ∧ r.2.vioCounter acct < r.2.globalMinVioCounter then
      (some acct, { r.2 with globalMinVioCounter := r.2.vioCounter acct })
    else r

/-- `get_wrdesc` and its kin, and the insertion of the work. -/
def blockCaller (P : Platform) (s : State) (work : WorkId) (acct : Int) : Entry × State :=
  let m := s.env.kmalloc
  let s := { s with env := m.2 }
  if m.1 then
    (.blocked, addIoWorkToAcct P ((s.setDesc work .fresh).setAcct work (some acct)) work acct)
  else (.failed enomem, s)

/-- `vio_counter - global_min_vio_counter2 <= WRITE_ALLOWANCE`. -/
def withinAllowance (P : Platform) (s : State) (acct : Int) : Bool :=
  decide (P.long (s.vioCounter acct - s.globalMinVioCounter2) ≤ writeAllowance)

/-- With the wrong `sched_uniq` the source returns without releasing `afq_data->lock`. -/
def basicSchedWriteEntry (P : Platform) (s : State) (n : Nat) (cur : Int) (direct : Bool)
    (schedUniq : Int) : Entry × State :=
  if schedUniq ≠ s.mem.schedUniq then (.failed (-1), s)
  else
    let r := callerAccount P s cur
    match r.1 with
    | none => (.passed, r.2)
    | some acct =>
      if acct = 0 then (.passed, r.2)
      else
        let s := r.2.modifyAccount acct fun a => { a with numWriteCall := a.numWriteCall + 1 }
        if !direct && withinAllowance P s acct then
          (.passed, s.modifyAccount acct fun a =>
            { a with numWritePassed := a.numWritePassed + 1 })
        else
          blockCaller P (s.modifyAccount acct fun a =>
            { a with numWriteBlocked := a.numWriteBlocked + 1 }) (.write n) acct

def basicSchedMkdirEntry (P : Platform) (s : State) (n : Nat) (cur schedUniq : Int) :
    Entry × State :=
  if schedUniq ≠ s.mem.schedUniq then (.failed (-1), s)
  else
    let r := callerAccount P s cur
    match r.1 with
    | none => (.passed, r.2)
    | some acct =>
      if acct = 0 then (.passed, r.2)
      else if withinAllowance P r.2 acct then (.passed, r.2)
      else blockCaller P r.2 (.mkdir n) acct

/-- The descriptor is allocated before anything else, and freed again if it is not needed. -/
def basicSchedFsyncEntry (P : Platform) (s : State) (n : Nat) (cur schedUniq : Int) :
    Entry × State :=
  let m := s.env.kmalloc
  let s := { s with env := m.2 }
  if m.1 = false then (.failed enomem, s)
  else if schedUniq ≠ s.mem.schedUniq then (.failed (-1), s)
  else
    let r := getAccount P s cur
    match r.1 with
    | none => (.passed, r.2)
    | some acct =>
      if acct = 0 then (.passed, r.2)
      else
        let s := (r.2.setDesc (.fsync n) .fresh).setAcct (.fsync n) (some acct)
        (.blocked, addIoWorkToAcct P s (.fsync n) acct)

/-- The return hooks: the owner batch of the descriptor has one unit of work less. -/
def schedReturn (s : State) (work : WorkId) (current : Bool) : Option State :=
  match (s.descs work).ownerBatch with
  | none => none
  | some b => decCheckCleanupBatch s current b

def basicSchedWriteReturn (s : State) (n : Nat) (current : Bool) : Option State :=
  schedReturn s (.write n) current

def basicSchedMkdirReturn (s : State) (n : Nat) (current : Bool) : Option State :=
  schedReturn s (.mkdir n) current

def basicSchedFsyncReturn (s : State) (n : Nat) (current : Bool) : Option State :=
  schedReturn s (.fsync n) current

/-! ## Control messages and set-up -/

def kvApply (P : Platform) (key : String) (val : Int) (a : Account) : Account :=
  if key = "ioprio" then { a with ioprio := P.int val }
  else if key = "vio_counter" then { a with vioCounter := val }
  else a

def basicKvSetCallback (P : Platform) (s : State) (id : Int) (key : String) (val : Int) : State :=
  let r := getAccount P s id
  match r.1 with
  | none => r.2
  | some acct => r.2.modifyAccount acct (kvApply P key val)

/-- `basic_sched_init_data` over the memory `m`; `none` is `-ENOMEM`. -/
def basicSchedInitData (P : Platform) (m : Mem) (env : Env) : Option State :=
  let eq := env.kmalloc
  let data := eq.2.kmalloc
  let batch := data.2.kmalloc
  let schedThread := batch.2.kmalloc
  let minThread := schedThread.2.kmalloc
  if eq.1 && data.1 && batch.1 && schedThread.1 && minThread.1 then
    some
      { accounts := .empty, activeAcctList := [], minAcct := none,
        globalMinVioCounter := maxVioCounterThreshold,
        globalMinVioCounter2 := maxVioCounterThreshold, lastServedAcct := none,
        keepWait := .allowNewBatch, batchDead := false, inflight := 0,
        simBatch := iobatchNew P batchSize batchByteCap, batchWaitTimer := none,
        batchDeadTimer := none, diskFullCount := 0, prioServedRqs := fun _ => 0,
        caustCountDist := fun _ => 0, journalCct := fun _ => 0, descs := fun _ => .fresh,
        batches := fun _ => none, nextBatch := 0, accepted := [], submitted := [], sorted := [],
        adds := [], mem := m, env := minThread.2 }
  else none

theorem basicSchedInitData_fresh {P : Platform} {m : Mem} {env : Env} {s : State}
    (h : basicSchedInitData P m env = some s) :
    s.mem = m ∧ s.env.memory = env.memory ∧ ∀ j, s.estimate j = 0 := by
  simp only [basicSchedInitData] at h
  split at h
  · cases h
    exact ⟨rfl, rfl, fun _ => rfl⟩
  · cases h

end Afq
end SplitSched
