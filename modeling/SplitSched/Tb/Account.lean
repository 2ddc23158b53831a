import SplitSched.Block.IoBatch

/-!
# SplitSched.Tb.Account

Accounts and queues of the token-bucket scheduler (tbucket.c, queue.h). An account has a read and a
write queue, the four token counters (`credit`, `estimate`, `used`, `lost`) and a batch of extents
priced by the cost model. Everything here is a function on one account or one queue.
-/

namespace SplitSched
namespace Tb

open CArith

def kb : Int := 1024
def pgSize : Int := 4 * kb
def mb : Int := 1024 * kb
def defaultAccount : Int := 0
def batchSize : Nat := 64
def batchByteCap : Int := 32 * mb
def insaneCap : Nat := 1000
def anticipationUs : Int := 10000
def runSizeLimit : Int := 10 * mb

/-! ## queue.h -/

/-- `struct queue`, less its direction (the second component of a `QRef`). -/
structure Queue where
  reqs : List Nat
  count : Int
  lastpop : Timespec
  deriving DecidableEq, Repr

/-- A queue is found by the account that owns it and its direction (`true`: write). -/
abbrev QRef := Int × Bool

def Queue.init : Queue := ⟨[], 0, .zero⟩

def queuePush (q : Queue) (rq : Nat) : Queue :=
  { q with reqs := q.reqs ++ [rq], count := q.count + 1 }

/-- The first request and the queue without it; `now` is read only if there is one. -/
def queuePop (q : Queue) (now : Timespec) : Option (Nat × Queue) :=
  match q.reqs with
  | [] => none
  | rq :: rest => some (rq, { reqs := rest, count := q.count - 1, lastpop := now })

/-- Microseconds since the last pop, as an `unsigned long`; 1 s when more than 2 s have passed. -/
def queuePopElapsedUs (P : Platform) (q : Queue) (ts : Timespec) : Int :=
  if q.lastpop.sec + 2 < ts.sec then 1000000
  else P.ulong ((ts.sec - q.lastpop.sec) * 1000000 + ts.nsec.tdiv 1000 - q.lastpop.nsec.tdiv 1000)

/-! ## struct account -/

structure Account where
  id : Int
  rqueue : Queue
  wqueue : Queue
  rate : Int
  limit : Int
  credit : Int
  estimate : Int
  used : Int
  usedRaw : Int
  lost : Int
  sane : Int
  insane : Nat → Int
  lastUpdate : Timespec
  batch : IoBatch
  batchEstimate : Int

namespace Account

def queue (a : Account) (rw : Bool) : Queue := if rw then a.wqueue else a.rqueue

def setQueue (a : Account) (rw : Bool) (q : Queue) : Account :=
  if rw then { a with wqueue := q } else { a with rqueue := q }

theorem queue_setQueue (a : Account) (rw rw' : Bool) (q : Queue) :
    (a.setQueue rw q).queue rw' = if rw' = rw then q else a.queue rw' := by
  cases rw <;> cases rw' <;> rfl

end Account

/-- `new_account`: the zeroed account, or nothing when an allocation fails. -/
def newAccount (P : Platform) (env : Env) (id : Int) : Option Account × Env :=
  let m := env.kmalloc
  if m.1 then
    let now := m.2.getnstimeofday
    (some
      { id := id, rqueue := .init, wqueue := .init, rate := 0, limit := 0, credit := 0,
        estimate := 0, used := 0, usedRaw := 0, lost := 0, sane := 0, insane := fun _ => 0,
        lastUpdate := now.1, batch := iobatchNew P batchSize batchByteCap, batchEstimate := 0 },
     now.2)
  else (none, m.2)

def count (P : Platform) (a : Account) : Int := P.long (a.credit - (a.estimate + a.used))

/-- At least 100 microseconds. -/
def estimateWaitUsecs (P : Platform) (a : Account) : Int :=
  max (P.ulong (safeDiv (P.long (-count P a * 1000000)) a.rate)) 100

theorem estimateWaitUsecs_pos (P : Platform) (a : Account) : 0 < estimateWaitUsecs P a :=
  lt_of_lt_of_le (by norm_num) (le_max_right _ _)

/-- Move what exceeds the limit from `credit` to `lost`. -/
def saturateCounts (P : Platform) (a : Account) : Account :=
  let diff := P.long (count P a - a.limit)
  if 0 < diff then
    { a with credit := P.long (a.credit - diff), lost := P.long (a.lost + diff) }
  else a

/-- Income since `last_update`; `none` is the `BUG_ON` for a negative increment. -/
def refreshCount (P : Platform) (now : Timespec) (a : Account) : Option Account :=
  let update := now.sub a.lastUpdate
  let usecs := P.ulong (update.sec * 1000000 + update.nsec.tdiv 1000)
  let inc := P.long ((P.ulong (usecs * a.rate)).tdiv 1000000)
  if inc < 0 then none
  else if 0 < inc then
    some { saturateCounts P { a with credit := P.long (a.credit + inc) } with lastUpdate := now }
  else some a

/-! Saturating and refreshing touch the income counters only. -/

section Frame

variable (P : Platform)

/-- `b` is `a` with other income counters. -/
structure SameButIncome (a b : Account) : Prop where
  id : b.id = a.id
  queue : b.queue = a.queue
  rate : b.rate = a.rate
  limit : b.limit = a.limit
  estimate : b.estimate = a.estimate
  used : b.used = a.used
  usedRaw : b.usedRaw = a.usedRaw
  batch : b.batch = a.batch
  batchEstimate : b.batchEstimate = a.batchEstimate

theorem saturateCounts_same (a : Account) : SameButIncome a (saturateCounts P a) := by
  simp only [saturateCounts]
  split <;> constructor <;> rfl

theorem refreshCount_same {now : Timespec} {a b : Account} (h : refreshCount P now a = some b) :
    SameButIncome a b := by
  simp only [refreshCount] at h
  split at h
  · cases h
  · split at h
    · cases h
      obtain ⟨h1, h2, h3, h4, h5, h6, h7, h8, h9⟩ :=
        saturateCounts_same P { a with credit := P.long (a.credit + _) }
      exact ⟨h1, h2, h3, h4, h5, h6, h7, h8, h9⟩
    · cases h
      constructor <;> rfl

@[simp] theorem saturateCounts_estimate (a : Account) :
    (saturateCounts P a).estimate = a.estimate := (saturateCounts_same P a).estimate

@[simp] theorem saturateCounts_batchEstimate (a : Account) :
    (saturateCounts P a).batchEstimate = a.batchEstimate := (saturateCounts_same P a).batchEstimate

@[simp] theorem saturateCounts_queue (a : Account) :
    (saturateCounts P a).queue = a.queue := (saturateCounts_same P a).queue

end Frame

end Tb
end SplitSched
