import SplitSched.Block.Shares
import SplitSched.Lib.Registry

/-!
# SplitSched.Afq.Account

The state of the AFQ scheduler (acct_afq_sched.c) and its accounts (split_account.c): the hash of
accounts, the virtual I/O counter by which the scheduler picks the account to serve next, and the
work that waits for it.

A unit of work (`io_work`) is embedded in the descriptor of a blocked system call or of a request;
`WorkId` names the descriptor. A pointer to an account is its id, a pointer to a batch descriptor is
a number. Fields of `struct account` that acct_afq_sched.c never reads (the expiry times, the dirty
page count and some statistics) are left out.
-/

namespace SplitSched
namespace Afq

open CArith

def kb : Int := 1024
def mb : Int := 1024 * kb
def batchSize : Nat := 64
def batchByteCap : Int := 32 * mb

def writeAllowance : Int := 204800
def totalShare : Int := 840
/-- `LONG_MAX / 4`. -/
def maxVioCounterThreshold : Int := (2 ^ 63 - 1) / 4
def acctMaxSleepTime (P : Platform) : Int := 300 * P.hz
def startInFlightTime (P : Platform) : Int := P.hz.tdiv 5
def afqBatchDeadIntval (P : Platform) : Int := P.hz.tdiv 100
def minInFlight : Int := 2
def afqScliceIdle (P : Platform) : Int := P.hz.tdiv 50
def afqMaxSlice (P : Platform) : Int := P.hz.tdiv 4
def seqThreshold : Int := 12
def seqDist : Int := 1024
def maxBatchSize : Nat := 100
def minBatchSize : Nat := 5
def ioprioBeNr : Int := 8
def maxCauseCount : Int := 32

/-- `time_before`. -/
def timeBefore (P : Platform) (a b : Int) : Bool := decide (P.long (a - b) < 0)

/-! ## Work -/

/-- The descriptor a unit of work is embedded in. -/
inductive WorkId where
  | write (n : Nat)
  | fsync (n : Nat)
  | mkdir (n : Nat)
  | req (rq : Nat)
  deriving DecidableEq, Repr

inductive WorkType where
  | sysWrite
  | sysFsync
  | sysMkdir
  | readReq
  | writeReq
  deriving DecidableEq, Repr

/-- What `get_wrdesc` and its kin put into `io_work->type`. -/
def workType (m : Mem) : WorkId → WorkType
  | .write _ => .sysWrite
  | .fsync _ => .sysFsync
  | .mkdir _ => .sysMkdir
  | .req rq => if (m.rqs rq).write then .writeReq else .readReq

/-- What the scheduler writes into a descriptor. `woken` says that `complete` was called on it. -/
structure Desc where
  acct : Option Int
  ownerBatch : Option Nat
  woken : Bool
  deriving DecidableEq, Repr

/-- A descriptor as `get_wrdesc` and its kin return it. -/
def Desc.fresh : Desc := ⟨none, none, false⟩

/-- `struct io_batch_desc`. -/
structure BatchDesc where
  workSelected : List WorkId
  oneLoopWork : Int
  deriving DecidableEq, Repr

/-! ## State -/

structure Account where
  accountId : Int
  ioprio : Int
  ioWorkList : List WorkId
  vioCounter : Int
  estimate : Int
  batchEstimate : Int
  vioReset : Int
  seqCounter : Int
  lastSector : Int
  lastEndRequest : Int
  sliceBegin : Int
  sliceEnd : Int
  simBatch : IoBatch
  numWriteCall : Int
  numWritePassed : Int
  numWriteBlocked : Int

inductive KeepWait where
  | allowNewBatch
  | noNewBatch
  | keepInFlight
  deriving DecidableEq, Repr

/-- `struct afq_data`, the heap it points into, and the record of its calls: `accepted` lists the work
passed to `add_io_work_to_acct`, `submitted` the work that left a batch, `sorted` the requests handed
to `elv_dispatch_sort` and `adds` the extents added to the global batch. -/
structure State where
  accounts : Registry Int Account
  activeAcctList : List Int
  minAcct : Option Int
  globalMinVioCounter : Int
  globalMinVioCounter2 : Int
  lastServedAcct : Option Int
  keepWait : KeepWait
  batchDead : Bool
  inflight : Int
  simBatch : IoBatch
  batchWaitTimer : Option Int
  batchDeadTimer : Option Int
  diskFullCount : Int
  prioServedRqs : Int → Int
  caustCountDist : Int → Int
  journalCct : Int → Int
  descs : WorkId → Desc
  /-- The batch descriptors that are allocated. -/
  batches : Nat → Option BatchDesc
  /-- The next batch descriptor `kmalloc` returns. -/
  nextBatch : Nat
  accepted : List WorkId
  submitted : List WorkId
  sorted : List Nat
  adds : List IORequest
  mem : Mem
  env : Env

namespace State

def modifyAccount (s : State) (id : Int) (f : Account → Account) : State :=
  { s with accounts := s.accounts.modify id f }

/-- The work that waits on an account. -/
def workList (s : State) (id : Int) : List WorkId := s.accounts.val (·.ioWorkList) [] id

def vioCounter (s : State) (id : Int) : Int := s.accounts.val (·.vioCounter) 0 id

def seqCounter (s : State) (id : Int) : Int := s.accounts.val (·.seqCounter) 0 id

def estimate (s : State) (id : Int) : Int := s.accounts.val (·.estimate) 0 id

def batchEstimate (s : State) (id : Int) : Int := s.accounts.val (·.batchEstimate) 0 id

def setDesc (s : State) (work : WorkId) (d : Desc) : State :=
  { s with descs := Function.update s.descs work d }

/-- Write the account into a descriptor. -/
def setAcct (s : State) (work : WorkId) (acct : Option Int) : State :=
  s.setDesc work { s.descs work with acct := acct }

def setBatch (s : State) (b : Nat) (d : Option BatchDesc) : State :=
  { s with batches := Function.update s.batches b d }

end State

/-! ## Accounts -/

/-- `new_account`. The pages of the account and of its batch are one allocation here. -/
def newAccount (P : Platform) (jiffies : Int) (env : Env) (id : Int) : Option Account × Env :=
  let m := env.kmalloc
  if m.1 then
    (some
      { accountId := id, ioprio := 0, ioWorkList := [], vioCounter := 0, estimate := 0,
        batchEstimate := 0, vioReset := 0, seqCounter := 0, lastSector := 0,
        lastEndRequest := jiffies, sliceBegin := 0, sliceEnd := 0,
        simBatch := iobatchNew P batchSize batchByteCap, numWriteCall := 0, numWritePassed := 0,
        numWriteBlocked := 0 },
     m.2)
  else (none, m.2)

/-- The account of an id, created on demand; nothing if it cannot be created. -/
def getAccount (P : Platform) (s : State) (id : Int) : Option Int × State :=
  if id ∈ s.accounts.keys then (some id, s)
  else
    let r := newAccount P s.mem.jiffies s.env id
    match r.1 with
    | some a =>
      (some a.accountId,
       { s with
         accounts := s.accounts.insert (.byRank P.bucket) id a
         env := r.2 })
    | none => (none, { s with env := r.2 })

/-! ## The virtual I/O counter -/

def prioToStride (prio : Int) : Int := prio

/-- One step of the loop of `update_active_min`: the smallest counter so far and its account. -/
def activeMinStep (P : Platform) (s : State) (best : Int × Option Int) (id : Int) : Int × Option Int :=
  match s.accounts.find id with
  | none => best
  | some a =>
    if a.accountId ≠ 0 ∧
        timeBefore P s.mem.jiffies (a.lastEndRequest + (acctMaxSleepTime P).tdiv 15) = true ∧
        a.vioCounter < best.1 then
      (a.vioCounter, some id)
    else best

def updateActiveMin (P : Platform) (s : State) : State :=
  let best := s.accounts.keys.foldl (activeMinStep P s) (maxVioCounterThreshold, none)
  if best.1 ≠ maxVioCounterThreshold then
    { s with globalMinVioCounter2 := best.1, minAcct := best.2 }
  else s

def resetVio (a : Account) : Account := { a with vioCounter := 0, vioReset := a.vioReset + 1 }

/-- The counters start over once one of them has grown too large. -/
def resetVioCounters (s : State) : State :=
  { s with
    accounts := s.accounts.map resetVio
    globalMinVioCounter := 0
    globalMinVioCounter2 := 0 }

def chargeVio (P : Platform) (a : Account) : Account :=
  let stride := prioToStride a.ioprio
  let stride := if stride = 0 then 1 else stride
  { a with vioCounter := P.long (a.vioCounter + totalShare.tdiv stride) }

/-- `add_vio_counter`; the quantity it is passed does not matter. -/
def addVioCounter (P : Platform) (s : State) (acct : Int) : State :=
  let s := s.modifyAccount acct (chargeVio P)
  let s := if s.minAcct = some acct ∨ s.minAcct = none then updateActiveMin P s else s
  if maxVioCounterThreshold < s.vioCounter acct then resetVioCounters s else s

def bumpEstimate (P : Platform) (quantity : Int) (a : Account) : Account :=
  { a with estimate := P.long (a.estimate + quantity) }

/-- `add_estimate_vio` with the `int` quantity. -/
def addEstimateVio (P : Platform) (s : State) (acct quantity : Int) : State :=
  addVioCounter P (s.modifyAccount acct (bumpEstimate P quantity)) acct

/-! ## Sequentiality -/

/-- The kernel's `abs` of a `long`; that of `LONG_MIN` is itself. -/
def kernelAbs (P : Platform) (x : Int) : Int := if x < 0 then P.long (-x) else x

/-- `afq_accout_pos_seq_update` on the account itself. -/
def posSeqUpdate (P : Platform) (jiffies : Int) (pos : Nat) (a : Account) : Account :=
  let seqCounter :=
    if kernelAbs P (P.long (a.lastSector - pos)) < seqDist then
      if a.seqCounter < seqThreshold then a.seqCounter + 1 else a.seqCounter
    else if 0 < a.seqCounter then a.seqCounter - 2 else a.seqCounter
  { a with seqCounter := seqCounter, lastSector := P.int pos, lastEndRequest := jiffies }

def afqAccoutPosSeqUpdate (P : Platform) (s : State) (acct : Int) (rq : Nat) : State :=
  match s.accounts.find acct with
  | none => s
  | some a =>
    let idx := (P.int (ioprioBeNr - a.ioprio)).tmod ioprioBeNr
    let pos := (s.mem.rqs rq).pos
    if P.ulong a.lastSector = pos then s
    else
      { s.modifyAccount acct (posSeqUpdate P s.mem.jiffies pos) with
        prioServedRqs := Function.update s.prioServedRqs idx (s.prioServedRqs idx + 1) }

end Afq
end SplitSched
