import SplitSched.Tb.Hooks

/-!
# SplitSched.Tb.Dispatch

Requests of the token-bucket scheduler (tbucket.c): insertion, merging and both kinds of dispatch.

`tbucket_dispatch` visits the queue at the head of the queue list (`visit`), and either serves it,
or stops to wait for it (anticipation), or moves it to the tail and goes on (`dispatchLoop`), at most
`queues_count` times. `tbucket_dispatch_force` walks the queue list while charging may append to it
(`forceLoop`); it ends because every round either dispatches a request or moves on along the list,
and charging queues nothing (`Grows.pending`).
-/

namespace SplitSched
namespace Tb

open CArith

/-! ## Queues of the state -/

def State.setQueue (s : State) (ref : QRef) (q : Queue) : State :=
  s.modifyAccount ref.1 (·.setQueue ref.2 q)

/-- `queue_pop`; the clock is read only if there is a request. -/
def popQueue (s : State) (ref : QRef) : Option (Nat × State) :=
  let now := s.env.getnstimeofday
  match queuePop (s.queue ref) now.1 with
  | none => none
  | some (rq, q) => some (rq, { s.setQueue ref q with env := now.2 })

/-- `queue_del` on `RQ_QUEUE(rq)`; a request without a queue is a null dereference. -/
def queueDel (s : State) (rq : Nat) : Option State :=
  match s.rqQueue rq with
  | none => none
  | some ref =>
    let q := s.queue ref
    some (s.setQueue ref { q with reqs := q.reqs.erase rq, count := q.count - 1 })

/-- All requests on the queues of the queue list. -/
def State.pending (s : State) : Nat := (s.queues.map fun ref => (s.queue ref).reqs.length).sum

theorem queue_eq_init {s : State} {ref : QRef} (h : ref.1 ∉ s.accounts.keys) :
    s.queue ref = .init := Registry.val_of_not_mem h

theorem mem_keys_of_queue {s : State} {ref : QRef} (h : (s.queue ref).reqs ≠ []) :
    ref.1 ∈ s.accounts.keys := by
  by_contra hk
  rw [queue_eq_init hk] at h
  exact h rfl

theorem queue_setQueue {s : State} {ref : QRef} (h : ref.1 ∈ s.accounts.keys) (q : Queue)
    (ref' : QRef) : (s.setQueue ref q).queue ref' = if ref' = ref then q else s.queue ref' := by
  have hv := congrFun (Registry.val_modify (R := s.accounts) (k := ref.1)
    (f := (·.setQueue ref.2 q)) (g := (·.queue ref'.2)) (d := Queue.init)
    (φ := fun x => if ref'.2 = ref.2 then q else x) h
    (fun a => Account.queue_setQueue a ref.2 ref'.2 q)) ref'.1
  simp only [State.queue, State.setQueue, State.modifyAccount, hv, Function.update_apply]
  by_cases h1 : ref'.1 = ref.1
  · by_cases h2 : ref'.2 = ref.2
    · simp [Prod.ext_iff, h1, h2]
    · simp [Prod.ext_iff, h1, h2]
  · simp [Prod.ext_iff, h1]

/-- A popped queue loses its first request and nothing else of the queues changes. -/
theorem popQueue_some {s s' : State} {ref : QRef} {rq : Nat} (h : popQueue s ref = some (rq, s')) :
    ∃ rest, (s.queue ref).reqs = rq :: rest ∧ ref.1 ∈ s.accounts.keys ∧
      s' = { s.setQueue ref ⟨rest, (s.queue ref).count - 1, s.env.getnstimeofday.1⟩ with
        env := s.env.getnstimeofday.2 } := by
  simp only [popQueue, queuePop] at h
  cases hr : (s.queue ref).reqs with
  | nil => simp [hr] at h
  | cons r rest =>
    simp only [hr, Option.some.injEq, Prod.mk.injEq] at h
    obtain ⟨rfl, rfl⟩ := h
    exact ⟨rest, rfl, mem_keys_of_queue (by simp [hr]), rfl⟩

theorem popQueue_queue {s s' : State} {ref : QRef} {rq : Nat} (h : popQueue s ref = some (rq, s'))
    (ref' : QRef) :
    s'.queue ref' =
      if ref' = ref then
        ⟨(s.queue ref).reqs.tail, (s.queue ref).count - 1, s.env.getnstimeofday.1⟩
      else s.queue ref' := by
  obtain ⟨rest, hr, hk, rfl⟩ := popQueue_some h
  rw [hr]
  exact queue_setQueue hk ⟨rest, (s.queue ref).count - 1, s.env.getnstimeofday.1⟩ ref'

/-! ## Dispatching one request -/

/-- Both `while` loops of `normalize_timespec`. -/
def normalizeTimespec (ts : Timespec) : Timespec :=
  ⟨ts.sec + ts.nsec / 1000000000, ts.nsec % 1000000000⟩

/-- The statistics at the end of `dispatch_sort`. -/
def dispatchStats (s : State) (ref : QRef) : State :=
  let stats :=
    if s.stats.lastQueue ≠ some ref then
      { s.stats with queueRuns := s.stats.queueRuns + 1, lastQueue := some ref }
    else s.stats
  if stats.startSleep.sec ≠ 0 then
    let now := s.env.getnstimeofday
    { s with
      env := now.2
      stats := { stats with
        sleepTime := normalizeTimespec
          ⟨stats.sleepTime.sec + (now.1.sec - stats.startSleep.sec),
           stats.sleepTime.nsec + (now.1.nsec - stats.startSleep.nsec)⟩
        startSleep := { stats.startSleep with sec := 0 } } }
  else { s with stats := stats }

def dispatchSort (P : Platform) (s : State) (ref : QRef) (rq : Nat) : State :=
  let s := accountForReq P s rq
  dispatchStats
    { s with
      runServeSize := P.long (s.runServeSize + (s.mem.rqs rq).bytes)
      sorted := s.sorted ++ [rq]
      dispatched := s.dispatched + 1 } ref

/-- Everything `dispatch_sort` does besides charging: hand the request over and count it. -/
theorem dispatchSort_frame (P : Platform) (s : State) (ref : QRef) (rq : Nat) :
    ∃ t, Grows s t ∧
      (dispatchSort P s ref rq).accounts = t.accounts ∧
      (dispatchSort P s ref rq).queues = t.queues ∧
      (dispatchSort P s ref rq).queuesCount = t.queuesCount ∧
      (dispatchSort P s ref rq).rqQueue = s.rqQueue ∧
      (dispatchSort P s ref rq).sorted = s.sorted ++ [rq] ∧
      (dispatchSort P s ref rq).nudges = s.nudges ∧
      (dispatchSort P s ref rq).mem = t.mem := by
  have hg := accountForReq_grows P s rq
  refine ⟨accountForReq P s rq, hg, ?_⟩
  simp only [dispatchSort, dispatchStats]
  split_ifs <;>
    exact ⟨rfl, rfl, rfl, hg.rqQueue, by rw [hg.sorted], hg.nudges, rfl⟩

theorem dispatchSort_queue (P : Platform) (s : State) (ref : QRef) (rq : Nat) :
    (dispatchSort P s ref rq).queue = s.queue := by
  obtain ⟨t, hg, ha, -⟩ := dispatchSort_frame P s ref rq
  rw [← hg.queue]
  funext ref'
  simp [State.queue, ha]

/-! ## Forced dispatch -/

/-- Queues that charging appends belong to new accounts and are empty. -/
theorem Grows.appended {s s' : State} (h : Grows s s') :
    ∃ more, s'.queues = s.queues ++ more ∧ ∀ ref ∈ more, (s.queue ref).reqs = [] := by
  obtain ⟨new, hk, hq, -⟩ := h.created
  refine ⟨new.flatMap queuesOf, hq, fun ref hr => ?_⟩
  obtain ⟨id, hid, hr⟩ := List.mem_flatMap.mp hr
  have hnd := s'.accounts.nodup
  rw [hk] at hnd
  have hnew : ref.1 ∉ s.accounts.keys := by
    have : ref.1 = id := by
      simp only [queuesOf, List.mem_cons, List.not_mem_nil, or_false] at hr
      rcases hr with rfl | rfl <;> rfl
    rw [this]
    exact fun hin => (List.disjoint_of_nodup_append hnd) hin hid
  rw [queue_eq_init hnew]
  rfl

theorem Grows.pending {s s' : State} (h : Grows s s') : s'.pending = s.pending := by
  obtain ⟨more, hq, hempty⟩ := h.appended
  simp only [State.pending, h.queue, hq, List.map_append, List.sum_append]
  have : (more.map fun ref => (s.queue ref).reqs.length).sum = 0 :=
    List.sum_eq_zero fun n hn => by
      obtain ⟨ref, hr, rfl⟩ := List.mem_map.mp hn
      rw [hempty ref hr]
      rfl
  omega

theorem popQueue_pending {s s' : State} {ref : QRef} {rq : Nat} (hr : ref ∈ s.queues)
    (h : popQueue s ref = some (rq, s')) : s'.pending < s.pending := by
  have hq := popQueue_queue h
  obtain ⟨rest, hreqs, -, hs'⟩ := popQueue_some h
  have hqueues : s'.queues = s.queues := by rw [hs']; rfl
  unfold State.pending
  rw [hqueues]
  refine List.sum_lt_sum _ _ ?_ ⟨ref, hr, ?_⟩
  · intro ref' _
    rw [hq]
    split
    · rename_i e
      subst e
      simp
    · exact le_refl _
  · simp [hq, hreqs]

theorem dispatchSort_pending (P : Platform) (s : State) (ref : QRef) (rq : Nat) :
    (dispatchSort P s ref rq).pending = s.pending := by
  obtain ⟨t, hg, ha, hq, -⟩ := dispatchSort_frame P s ref rq
  rw [← hg.pending]
  simp [State.pending, State.queue, ha, hq]

/-- The loops of `tbucket_dispatch_force`, at position `k` of the queue list. -/
def forceLoop (P : Platform) (k rv : Nat) (s : State) : Nat × State :=
  if hk : k < s.queues.length then
    match hp : popQueue s s.queues[k] with
    | some (rq, s') => forceLoop P k (rv + 1) (dispatchSort P s' s.queues[k] rq)
    | none => forceLoop P (k + 1) rv s
  else (rv, s)
termination_by (s.pending, s.queues.length - k)
decreasing_by
  · left
    rw [dispatchSort_pending]
    exact popQueue_pending (List.getElem_mem hk) hp
  · right
    omega

def tbucketDispatchForce (P : Platform) (s : State) : Nat × State := forceLoop P 0 0 s

/-! ## Dispatch -/

def dispatchCap : Int := 0

/-- How a visit to the queue at the head of the list ends. -/
inductive Visit where
  /-- A request was dispatched. -/
  | served (s : State)
  /-- The queue may run but is empty: wait for it. -/
  | anticipate (usecs : Int) (s : State)
  /-- Move on, with the time after which the queue will be ready if it has requests. -/
  | moveOn (usecs : Option Int) (s : State)

/-- `queue->rw || account->rate <= 0 || count(account) > 0`. -/
def mayRun (P : Platform) (s : State) (ref : QRef) : Bool :=
  ref.2 || s.accounts.val (fun a => decide (a.rate ≤ 0) || decide (0 < count P a)) false ref.1

/-- How long before the queue will be ready, if it has requests. -/
def readyIn (P : Platform) (s : State) (ref : QRef) : Option Int :=
  if 0 < (s.queue ref).count then some (s.accounts.val (estimateWaitUsecs P) 100 ref.1) else none

/-- One round of the loop of `tbucket_dispatch`, up to the rotation. -/
def visit (P : Platform) (haveSwitched : Bool) (s : State) (ref : QRef) : Option Visit :=
  match refreshAccount P s ref.1 with
  | none => none
  | some s =>
    if runSizeLimit ≤ s.runServeSize then some (.moveOn none s)
    else if mayRun P s ref then
      match popQueue s ref with
      | some (rq, s) => some (.served (dispatchSort P s ref rq))
      | none =>
        if haveSwitched = false then
          let now := s.env.getnstimeofday
          let popElapsedUs := queuePopElapsedUs P (s.queue ref) now.1
          let s := { s with env := now.2 }
          if popElapsedUs < anticipationUs then
            some (.anticipate (anticipationUs - popElapsedUs) s)
          else some (.moveOn (readyIn P s ref) s)
        else some (.moveOn (readyIn P s ref) s)
    else some (.moveOn (readyIn P s ref) s)

/-- The smaller of two waits, where 0 is none yet. -/
def minWait (minUsecs : Int) : Option Int → Int
  | none => minUsecs
  | some usecs => if minUsecs = 0 ∨ usecs < minUsecs then usecs else minUsecs

/-- Move the head of the queue list to its tail. -/
def rotate (s : State) : State :=
  { s with queues := s.queues.tail ++ s.queues.head?.toList, runServeSize := 0 }

/-- The loop of `tbucket_dispatch`, with `n` rounds left: no wait if a request was dispatched, else
the wait with which the loop was left. -/
def dispatchLoop (P : Platform) : Nat → Bool → Int → State → Option (Option Int × State)
  | 0, _, minUsecs, s => some (some minUsecs, s)
  | n + 1, haveSwitched, minUsecs, s =>
    match s.queues with
    | [] => none
    | ref :: _ =>
      match visit P haveSwitched s ref with
      | none => none
      | some (.served s) => some (none, s)
      | some (.anticipate usecs s) => some (some usecs, s)
      | some (.moveOn usecs s) => dispatchLoop P n true (minWait minUsecs usecs) (rotate s)

/-- The end of `tbucket_dispatch` when nothing was dispatched. -/
def decline (P : Platform) (minUsecs : Int) (s : State) : State :=
  let s :=
    if 0 < minUsecs then
      { s with
        nudges := s.nudges ++ [s.mem.jiffies + P.usecsToJiffies (max minUsecs 100)]
        stats := { s.stats with
          dispatchDeclinedThrottle := s.stats.dispatchDeclinedThrottle + 1 } }
    else
      { s with stats := { s.stats with
          dispatchDeclinedNoWork := s.stats.dispatchDeclinedNoWork + 1 } }
  let s := { s with stats := { s.stats with lastQueue := none } }
  if s.stats.startSleep.sec = 0 then
    let now := s.env.getnstimeofday
    { s with env := now.2, stats := { s.stats with startSleep := now.1 } }
  else s

/-- The return value and the state after `tbucket_dispatch`; `none` is a `BUG_ON`. -/
def tbucketDispatch (P : Platform) (s : State) (force : Bool) : Option (Int × State) :=
  if force then
    let r := tbucketDispatchForce P s
    some (r.1, r.2)
  else if 0 < dispatchCap ∧ dispatchCap ≤ s.dispatched then some (0, s)
  else
    match dispatchLoop P s.queuesCount.toNat false 0 s with
    | none => none
    | some (none, s) => some (1, s)
    | some (some minUsecs, s) => some (0, decline P minUsecs s)

/-! ## Insertion, merging and completion -/

/-- The causes of one bio: its own, or those of the request. -/
def bioUniqCauses (r : Request) (bio : Bio) : Option Nat :=
  match bio.cll with
  | some cll => some cll.uniqCauses
  | none => r.causes

/-- The inner loop of `get_one_cause`; `none` is the early return for several causes. -/
def getOneCauseItems : List Int → Int → Option Int
  | [], rv => some rv
  | id :: ids, rv =>
    if rv ≠ defaultAccount ∧ rv ≠ id then none else getOneCauseItems ids id

def getOneCauseBios (m : Mem) (r : Request) : List Bio → Int → Int
  | [], rv => rv
  | bio :: bios, rv =>
    match bioUniqCauses r bio with
    | none => getOneCauseBios m r bios rv
    | some l =>
      match getOneCauseItems (m.lists l).items rv with
      | none => defaultAccount
      | some rv => getOneCauseBios m r bios rv

def getOneCause (m : Mem) (rq : Nat) : Int :=
  getOneCauseBios m (m.rqs rq) (m.rqs rq).bios defaultAccount

/-- `WARN_ON2`, as far as it sets `warn`: the line of the last check that failed. -/
def warnOn (line : Nat) (failed : Bool) (warn : Nat) : Nat := if failed then line else warn

/-- The checks on one cause list of a write. -/
def sanityCheckItem (m : Mem) (warn l : Nat) : Nat :=
  let causes := m.lists l
  if causes.type ≠ .zero then
    let warn := warnOn 668 (decide ((causes.size : Int) ≠ pgSize)) warn
    -- `WARN_ON2` is two statements: the test for `SPLIT_JOURNAL` guards its `WARN_ON`, not the assignment
    warnOn 672 (decide (causes.itemCount = 0)) warn
  else warn

def sanityCheckBio (P : Platform) (m : Mem) (write : Bool) (warn : Nat) (bio : Bio) : Nat :=
  let warn := warnOn 659 (bio.cll.isSome && !write) warn
  match bio.cll with
  | none => warn
  | some cll =>
    if write then
      let warn := cll.items.foldl (sanityCheckItem m) warn
      let clBytes := cll.items.foldl (fun n l => P.int (P.ulong (n + (m.lists l).size))) 0
      let warn := warnOn 677 (decide (cll.size ≠ bio.biSize)) warn
      warnOn 684 (decide (P.ulong clBytes ≠ cll.size)) warn
    else warn

/-- The line of the last failed check, or 0. -/
def requestSanityCheck (P : Platform) (m : Mem) (rq : Nat) : Nat :=
  let r := m.rqs rq
  r.bios.foldl (sanityCheckBio P m r.write) (warnOn 656 (decide (r.bios = [])) 0)

/-- Count how often the causes of an account's requests are reasonable. -/
def noteSanity (warn : Nat) (a : Account) : Account :=
  if warn = 0 then { a with sane := a.sane + 1 }
  else
    let i := if insaneCap ≤ warn then 0 else warn
    { a with insane := Function.update a.insane i (a.insane i + 1) }

/-- Add the current task to the request's own cause list. -/
def tagRequest (s : State) (rq : Nat) (cur : Int) : State :=
  match (s.mem.rqs rq).causes with
  | none => s
  | some l =>
    let r := causeListAddId s.env (s.mem.lists l) cur
    { s.setList l r.2.1 with env := r.2.2 }

def tbucketAddRequest (P : Platform) (s : State) (rq : Nat) (cur : Int) : State :=
  let warn := requestSanityCheck P s.mem rq
  let s := tagRequest s rq cur
  let r := getAccount P s (getOneCause s.mem rq)
  let s := r.2.modifyAccount r.1 (noteSanity warn)
  let ref : QRef := (r.1, (s.mem.rqs rq).write)
  { s.setQueue ref (queuePush (s.queue ref) rq) with
    rqQueue := Function.update s.rqQueue rq (some ref) }

/-- The causes are per bio, so merging requests moves them without extra effort. -/
def tbucketMergeRequest (s : State) (rq _next : Nat) : Option State := queueDel s rq

def tbucketCompletedRequest (s : State) : State := { s with dispatched := s.dispatched - 1 }

/-! ## Set-up -/

/-- `tbucket_init_queue` over the memory `m`; `none` is `-ENOMEM`. -/
def tbucketInitQueue (P : Platform) (m : Mem) (env : Env) : Option State :=
  let eq := env.kmalloc
  if eq.1 = false then none
  else
    let td := eq.2.kmalloc
    let account := newAccount P td.2 defaultAccount
    let batch := account.2.kmalloc
    match td.1, account.1, batch.1 with
    | true, some a, true =>
      some (addAccount
        { accounts := .empty, queues := [], queuesCount := 0, dispatched := 0,
          batch := iobatchNew P batchSize batchByteCap, runServeSize := 0, stats := .zero,
          rqQueue := fun _ => none, sorted := [], nudges := [], adds := [], mem := m,
          env := batch.2 } a)
    | _, _, _ => none

/-- A fresh instance: the default account with its two queues, everything empty. -/
structure Fresh (s : State) : Prop where
  keys : s.accounts.keys = [defaultAccount]
  queues : s.queues = queuesOf defaultAccount
  queuesCount : s.queuesCount = 2
  queue : ∀ ref, s.queue ref = .init
  estimate : ∀ id, s.estimate id = 0
  batchEstimate : ∀ id, s.batchEstimate id = 0
  sorted : s.sorted = []

theorem tbucketInitQueue_fresh {P : Platform} {m : Mem} {env : Env} {s : State}
    (h : tbucketInitQueue P m env = some s) :
    Fresh s ∧ s.mem = m ∧ s.env.memory = env.memory := by
  simp only [tbucketInitQueue] at h
  split at h
  · cases h
  · split at h
    · rename_i a _ ha _
      cases h
      obtain ⟨hid, he, hb, hq⟩ := newAccount_some ha
      have hval : ∀ {β : Type} {g : Account → β} {d : β}, g a = d → ∀ id,
          (Registry.empty.insert .tail a.id a).val g d id = d :=
        fun hg id => congrFun (Registry.val_insert hg) id
      refine ⟨⟨?_, ?_, rfl, fun ref => hval (by rw [hq]) ref.1, hval he, hval hb, rfl⟩, rfl, ?_⟩
      · simp [addAccount, Registry.insert, Registry.empty, Placing.tail, hid]
      · simp [addAccount, queuesOf, hid]
      · exact newAccount_memory P _ _
    · cases h

theorem tbucketInitQueue_rqQueue {P : Platform} {m : Mem} {env : Env} {s : State}
    (h : tbucketInitQueue P m env = some s) (r : Nat) : s.rqQueue r = none := by
  simp only [tbucketInitQueue] at h
  split at h
  · cases h
  · split at h
    · cases h
      rfl
    · cases h

theorem tbucketInitQueue_accounts {P : Platform} {m : Mem} {env : Env} {s : State}
    (h : tbucketInitQueue P m env = some s) :
    s.batch = iobatchNew P batchSize batchByteCap ∧
      ∃ env' a, (newAccount P env' defaultAccount).1 = some a ∧
        s.accounts = Registry.empty.insert .tail a.id a := by
  simp only [tbucketInitQueue] at h
  split at h
  · cases h
  · split at h
    · rename_i a _ ha _
      cases h
      exact ⟨rfl, _, a, ha, rfl⟩
    · cases h

end Tb
end SplitSched
