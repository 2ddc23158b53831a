import SplitSched.Tb.Account
import SplitSched.Block.CauseTags
import SplitSched.Lib.Registry

/-!
# SplitSched.Tb.Accounting

The state of the token-bucket scheduler and the functions that charge disk I/O (tbucket.c):
`get_account`, `do_disk_accounting` with its flush, `account_for_causes`, `account_for_bio` and
`account_for_req`.

Calls out of the module are recorded in the state: `sorted` lists the requests handed to
`elv_dispatch_sort`, `nudges` the expiry times given to the `dispatch_nudger` timer, and `adds` the
extents passed to `iobatch_add_request` for the global batch, each in call order.
-/

namespace SplitSched
namespace Tb

open CArith

structure Stats where
  lastQueue : Option QRef
  queueRuns : Int
  diskWrites : Int
  diskReads : Int
  diskNorm : Int
  ioBatches : Int
  ioBatchAddSeq : Int
  ioBatchAddTot : Int
  dispatchDeclinedNoWork : Int
  dispatchDeclinedThrottle : Int
  startSleep : Timespec
  sleepTime : Timespec

def Stats.zero : Stats := ⟨none, 0, 0, 0, 0, 0, 0, 0, 0, 0, .zero, .zero⟩

/-- `struct tbucket_data`, the heap it points into, and the record of its calls. -/
structure State where
  accounts : Registry Int Account
  queues : List QRef
  queuesCount : Int
  dispatched : Int
  batch : IoBatch
  runServeSize : Int
  stats : Stats
  /-- `RQ_QUEUE`. -/
  rqQueue : Nat → Option QRef
  sorted : List Nat
  nudges : List Int
  adds : List IORequest
  mem : Mem
  env : Env

namespace State

def modifyAccount (s : State) (id : Int) (f : Account → Account) : State :=
  { s with accounts := s.accounts.modify id f }

def setList (s : State) (l : Nat) (c : CauseList) : State := { s with mem := s.mem.setList l c }

/-- The queue `ref` stands for. -/
def queue (s : State) (ref : QRef) : Queue := s.accounts.val (·.queue ref.2) .init ref.1

/-- `a->estimate`, or 0 while there is no account `id`. -/
def estimate (s : State) (id : Int) : Int := s.accounts.val (·.estimate) 0 id

def batchEstimate (s : State) (id : Int) : Int := s.accounts.val (·.batchEstimate) 0 id

end State

/-! ## Accounts -/

def addAccount (s : State) (a : Account) : State :=
  { s with
    accounts := s.accounts.insert .tail a.id a
    queues := s.queues ++ [(a.id, false), (a.id, true)]
    queuesCount := s.queuesCount + 2 }

/-- The account of an id, created on demand; the default account if it cannot be created. -/
def getAccount (P : Platform) (s : State) (id : Int) : Int × State :=
  if id ∈ s.accounts.keys then (id, s)
  else
    let r := newAccount P s.env id
    match r.1 with
    | some a => (a.id, addAccount { s with env := r.2 } a)
    | none => (defaultAccount, { s with env := r.2 })

/-- The body of the loops that charge the accounts of a list: get the account, charge it what `amt`
says for its id, saturate it. -/
def chargeEstimate (P : Platform) (amt : Int → Int) (s : State) (id : Int) : State :=
  let r := getAccount P s id
  r.2.modifyAccount r.1 fun a =>
    saturateCounts P { a with estimate := P.long (a.estimate + amt r.1) }

/-! ## Disk accounting -/

/-- Add an extent to the global batch. -/
def addToGlobalBatch (P : Platform) (s : State) (offset size : Int) : State :=
  let ret := iobatchAddRequest P s.batch offset size
  { s with
    batch := ret.2
    adds := s.adds ++ [⟨offset, size⟩]
    stats := { s.stats with
      ioBatchAddSeq := s.stats.ioBatchAddSeq + (if ret.1 then 1 else 0)
      ioBatchAddTot := s.stats.ioBatchAddTot + 1 } }

/-- Add an extent to the batch of one account, and the share charged for it to its
`batch_estimate`. Returns whether that batch is full. -/
def addToAccountBatch (P : Platform) (offset size share : Int) (s : State) (id : Int) :
    Bool × State :=
  let r := getAccount P s id
  let s := r.2.modifyAccount r.1 fun a =>
    { a with
      batch := (iobatchAddRequest P a.batch offset size).2
      batchEstimate := P.ulong (a.batchEstimate + share) }
  (s.accounts.val (fun a => iobatchFull a.batch) false r.1, s)

/-- The loop of `do_disk_accounting` over the accounts of a list: whether a batch is full. -/
def addToBatches (P : Platform) (offset size share : Int) :
    List Int → Bool × State → Bool × State
  | [], r => r
  | id :: ids, (full, s) =>
    let r := addToAccountBatch P offset size share s id
    addToBatches P offset size share ids (full || r.1, r.2)

/-- The flush of one account: charge by the disk model, refund the estimate. -/
def flushAccount (P : Platform) (combinedCost summedCost : Int) (a : Account) : Account :=
  let basicCharge := iobatchGetCost P a.batch
  let adjustedCharge :=
    P.ulong (safeDiv (P.long (P.ulong (combinedCost * basicCharge.1))) (P.long summedCost))
  let a := saturateCounts P
    { a with
      used := P.long (a.used + adjustedCharge)
      usedRaw := P.long (a.usedRaw + a.batchEstimate)
      estimate := P.long (a.estimate - a.batchEstimate) }
  { a with batchEstimate := 0, batch := iobatchClear P basicCharge.2 }

def summedCost (P : Platform) (accounts : Registry Int Account) : Int :=
  accounts.keys.foldl
    (fun sum id => P.ulong (sum + accounts.val (fun a => (iobatchGetCost P a.batch).1) 0 id)) 0

/-- `iobatch_get_cost` sorts a batch and caches its cost. -/
def priceBatch (P : Platform) (a : Account) : Account :=
  { a with batch := (iobatchGetCost P a.batch).2 }

/-- The branch of `do_disk_accounting` taken when a batch is full. -/
def flush (P : Platform) (s : State) : State :=
  let combined := iobatchGetCost P s.batch
  { s with
    batch := iobatchClear P combined.2
    stats := { s.stats with
      diskNorm := s.stats.diskNorm + combined.1
      ioBatches := s.stats.ioBatches + 1 }
    accounts := (s.accounts.map (priceBatch P)).map
      (flushAccount P combined.1 (summedCost P s.accounts)) }

def doDiskAccounting (P : Platform) (s : State) (l : Nat) (offset : Int) : State :=
  let causes := s.mem.lists l
  let size := P.int causes.size
  let causesCost := P.int (causesGetCost causes)
  let s := addToGlobalBatch P s offset size
  let r := addToBatches P offset size (safeDiv causesCost causes.itemCount) causes.items
    (iobatchFull s.batch, s)
  if r.1 then flush P r.2 else r.2

def accountForCauses (P : Platform) (s : State) (l : Nat) (offset size : Int) : State :=
  let causes := s.mem.lists l
  let s :=
    if causes.callbackQ ≠ none then s.setList l { causes with callbackQ := none }
    else if 0 < causes.itemCount then
      let amt := P.int (safeDiv (P.long size) causes.itemCount)
      causes.items.foldl (chargeEstimate P fun _ => amt)
        (s.setList l (causesSetCost causes (P.long size)))
    else s
  doDiskAccounting P s l offset

/-- The loop of `account_for_bio` over the cause lists of a bio. -/
def accountForItems (P : Platform) : List Nat → Int → State → State
  | [], _, s => s
  | l :: ls, offset, s =>
    let s := accountForCauses P s l offset (s.mem.lists l).size
    accountForItems P ls (offset + (s.mem.lists l).size) s

/-- What `account_for_bio` charges when the bio's own cause lists name nobody. -/
def accountForRqCauses (P : Platform) (s : State) (rq : Nat) (offset : Int) (bio : Bio) : State :=
  match (s.mem.rqs rq).causes with
  | some l => accountForCauses P s l offset bio.biSize
  | none => s

def accountForBio (P : Platform) (rq : Nat) (s : State) (bio : Bio) : State :=
  let offset : Int := bio.biSector * 512
  let s :=
    match bio.cll with
    | some cll =>
      if (s.mem.lists cll.uniqCauses).itemCount ≠ 0 then accountForItems P cll.items offset s
      else accountForRqCauses P s rq offset bio
    | none => accountForRqCauses P s rq offset bio
  if (s.mem.rqs rq).write then
    { s with stats := { s.stats with diskWrites := s.stats.diskWrites + bio.biSize } }
  else
    { s with stats := { s.stats with diskReads := s.stats.diskReads + bio.biSize } }

def accountForReq (P : Platform) (s : State) (rq : Nat) : State :=
  (s.mem.rqs rq).bios.foldl (accountForBio P rq) s

end Tb
end SplitSched
