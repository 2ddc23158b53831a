import SplitSched.Block.Elevator
import Mathlib.Data.List.Sort

/-!
# SplitSched.Deadline.Sched

The split-deadline scheduler (split_deadline_sched.c). A request waits on two structures of its
direction: `sort_list`, ordered by start sector, and `fifo_list`, ordered by arrival. A batch goes on
in sector order from `next_rq`; a new batch starts at the head of a fifo.

The red-black tree behind `sort_list` is the list of its requests in order. `BUG_ON`, and the head of
an empty list, are `none`.
-/

namespace SplitSched
namespace Deadline

/-- `READ` or `WRITE`. -/
inductive DataDir where
  | read
  | write
  deriving DecidableEq, Repr

def rqDataDir (r : Request) : DataDir := if r.write then .write else .read

/-- `struct deadline_data`, the requests and cause lists, and the dispatch queue of the block layer. -/
structure State where
  mem : Mem
  env : Env
  /-- The field `inode` of the cause lists. -/
  inode : Nat → Option Nat
  /-- The expiry time of a request, kept in `csd.llist.next`. -/
  expires : Nat → Int
  magic : BitVec 8
  /-- The calls of `inode_inc_dirty_pages` so far. -/
  pageCalls : List (Nat × Int)
  lastAccepted : DataDir → Int
  lastIssued : DataDir → Int
  sortList : DataDir → List Nat
  fifoList : DataDir → List Nat
  nextRq : DataDir → Option Nat
  batching : Nat
  lastSector : Nat
  starved : Nat
  fifoExpire : DataDir → Int
  fifoBatch : Int
  writesStarved : Int
  dispatched : List Nat

/-- `deadline_init_queue`, when its allocations succeed. -/
def deadlineInitQueue (P : Platform) (m : Mem) (env : Env) (magic : BitVec 8) : State where
  mem := m
  env := env
  inode _ := none
  expires _ := 0
  magic := magic
  pageCalls := []
  lastAccepted _ := 0
  lastIssued _ := 0
  sortList _ := []
  fifoList _ := []
  nextRq _ := none
  batching := 0
  lastSector := 0
  starved := 0
  fifoExpire
    | .read => P.hz / 2
    | .write => 5 * P.hz
  fifoBatch := 16
  writesStarved := 2
  dispatched := []

namespace State

def rq (s : State) (r : Nat) : Request := s.mem.rqs r

def dir (s : State) (r : Nat) : DataDir := rqDataDir (s.rq r)

end State

/-! ## Numbers of dirty pages -/

/-- The count is kept above the low byte of `i_private1`, which tells whose it is. -/
def inodeGetDirtyPages (s : State) (inode : Nat) : Int := s.mem.inodePos inode / 256

def checkDirtyNumber (s : State) (inode : Nat) : State :=
  if s.mem.inodePos inode % 256 = s.magic.toNat then s
  else { s with mem := inodeSetPos s.mem inode s.magic.toInt }

def inodeIncDirtyPages (P : Platform) (s : State) (inode : Nat) (num : Int) : State :=
  let s := checkDirtyNumber { s with pageCalls := s.pageCalls ++ [(inode, num)] } inode
  if num < 0 ∧ inodeGetDirtyPages s inode + num < 0 then s
  else
    { s with mem := inodeSetPos s.mem inode (P.long (s.mem.inodePos inode + P.int (num * 256))) }

def inodeDecDirtyPages (P : Platform) (s : State) (inode : Nat) (num : Int) : State :=
  inodeIncDirtyPages P s inode (P.int (-num))

/-- The body of the loop of `inode_dec_dirty_for_submitted_rq`, for one cause list. -/
def decDirtyForCauses (P : Platform) (s : State) (l : Nat) : State :=
  let s :=
    match s.inode l with
    | some inode => inodeDecDirtyPages P s inode 1
    | none => s
  { s with
    inode := Function.update s.inode l none
    mem := s.mem.setList l { s.mem.lists l with callbackQ := none } }

def inodeDecDirtyForSubmittedRq (P : Platform) (s : State) (r : Nat) : State :=
  if s.dir r = .read then s
  else
    (s.rq r).bios.foldl (fun s bio =>
      match bio.cll with
      | some cll => cll.items.foldl (decDirtyForCauses P) s
      | none => s) s

/-! ## Cause lists that are dirtied and freed -/

/-- The first account that dirties the page has it counted. -/
def deadlineCausesDirty (P : Platform) (s : State) (l inode : Nat) : State :=
  match s.inode l with
  | none =>
    inodeIncDirtyPages P { s with inode := Function.update s.inode l (some inode) } inode 1
  | some _ => s

def deadlineCausesFree (P : Platform) (s : State) (l : Nat) : State :=
  match s.inode l with
  | some inode => inodeDecDirtyPages P s inode 1
  | none => s

/-- `__block_commit_write` dirties a buffer with the cause list `l`. -/
def dirtyBuffer (P : Platform) (s : State) (q l : Nat) (task : Task) (bSize inode : Nat) : State :=
  let r := commitWriteHook s.env s.mem q l task bSize
  let s := { s with mem := r.2.1, env := r.2.2 }
  if r.1 then deadlineCausesDirty P s l inode else s

/-- `free_cause_list`, up to the release of the memory. -/
def freeCauseList (P : Platform) (s : State) (l : Nat) : State :=
  if freeNotifies s.mem l then deadlineCausesFree P s l else s

/-! ## The queues -/

/-- `elv_rb_add`: behind the requests with the same start sector. -/
def elvRbAdd (s : State) (r : Nat) (rqs : List Nat) : List Nat :=
  rqs.orderedInsert (fun a b => (s.rq a).pos < (s.rq b).pos) r

/-- `rb_next`. -/
def rbNext : List Nat → Nat → Option Nat
  | [], _ => none
  | x :: xs, r => if x = r then xs.head? else rbNext xs r

def deadlineLatterRequest (s : State) (r : Nat) : Option Nat := rbNext (s.sortList (s.dir r)) r

def deadlineAddRqRb (s : State) (r : Nat) : State :=
  let d := s.dir r
  { s with sortList := Function.update s.sortList d (elvRbAdd s r (s.sortList d)) }

/-- `elv_rb_del`. -/
def elvRbDel (s : State) (r : Nat) : State :=
  { s with sortList := Function.update s.sortList (s.dir r) ((s.sortList (s.dir r)).erase r) }

def deadlineDelRqRb (s : State) (r : Nat) : State :=
  let d := s.dir r
  let s :=
    if s.nextRq d = some r then
      { s with nextRq := Function.update s.nextRq d (deadlineLatterRequest s r) }
    else s
  elvRbDel s r

def deadlineAddRequest (P : Platform) (s : State) (r : Nat) : State :=
  let d := s.dir r
  let s := { s with lastAccepted := Function.update s.lastAccepted d (s.lastAccepted d + 1) }
  let s := deadlineAddRqRb s r
  { s with
    expires := Function.update s.expires r (P.ulong (s.mem.jiffies + s.fifoExpire d))
    fifoList := Function.update s.fifoList d (s.fifoList d ++ [r]) }

/-- `rq_fifo_clear`. -/
def rqFifoClear (s : State) (r : Nat) : State :=
  { s with fifoList := Function.update s.fifoList (s.dir r) ((s.fifoList (s.dir r)).erase r) }

def deadlineRemoveRequest (s : State) (r : Nat) : State := deadlineDelRqRb (rqFifoClear s r) r

inductive MergeType where
  | front
  | back
  deriving DecidableEq, Repr

def deadlineMergedRequest (s : State) (r : Nat) (type : MergeType) : State :=
  match type with
  | .front => deadlineAddRqRb (elvRbDel s r) r
  | .back => s

/-- `time_after`. -/
def timeAfter (P : Platform) (a b : Int) : Bool := decide (P.long (b - a) < 0)

/-- `list_add(&rq->queuelist, &next->queuelist)`: the place behind `next`. -/
def listAdd (r next : Nat) (rqs : List Nat) : List Nat :=
  rqs.flatMap fun x => if x = next then [x, r] else [x]

/-- `list_move(&rq->queuelist, &next->queuelist)`. -/
def listMove (s : State) (r next : Nat) : State :=
  let s := rqFifoClear s r
  let d := s.dir next
  { s with fifoList := Function.update s.fifoList d (listAdd r next (s.fifoList d)) }

def deadlineMergedRequests (P : Platform) (s : State) (r next : Nat) : State :=
  let s :=
    if r ∈ s.fifoList (s.dir r) ∧ next ∈ s.fifoList (s.dir next) then
      -- `time_before`
      if timeAfter P (s.expires r) (s.expires next) then
        { listMove s r next with expires := Function.update s.expires r (s.expires next) }
      else s
    else s
  deadlineRemoveRequest s next

/-! ## Dispatching -/

/-- `elv_dispatch_add_tail`. -/
def elvDispatchAddTail (s : State) (r : Nat) : State := { s with dispatched := s.dispatched ++ [r] }

def deadlineMoveToDispatch (P : Platform) (s : State) (r : Nat) : State :=
  let s := deadlineRemoveRequest s r
  let s := inodeDecDirtyForSubmittedRq P s r
  let s := { s with lastIssued := Function.update s.lastIssued (s.dir r) (s.lastIssued (s.dir r) + 1) }
  elvDispatchAddTail s r

def deadlineMoveRequest (P : Platform) (s : State) (r : Nat) : State :=
  let next := deadlineLatterRequest s r
  let s := { s with
    nextRq := Function.update (fun _ => none) (s.dir r) next
    -- `rq_end_sector`
    lastSector := (s.rq r).pos + (s.rq r).bytes / 512 }
  deadlineMoveToDispatch P s r

/-- `deadline_check_fifo`, when `r` is the head of the list. -/
def deadlineCheckFifo (P : Platform) (s : State) (r : Nat) : Bool :=
  timeAfter P s.mem.jiffies (s.expires r)

/-- The conversion to `unsigned int` in the comparison with an unsigned counter. -/
def uint (x : Int) : Int := x % 2 ^ 32

/-- The label `dispatch_request`. -/
def dispatchRequest (P : Platform) (s : State) (r : Nat) : Bool × State :=
  (true, deadlineMoveRequest P { s with batching := s.batching + 1 } r)

/-- The label `dispatch_find_request`. -/
def dispatchFindRequest (P : Platform) (s : State) (d : DataDir) : Option (Bool × State) :=
  match s.fifoList d with
  | [] => none
  | head :: _ =>
    let r :=
      match s.nextRq d with
      | none => head
      | some next => if deadlineCheckFifo P s head then head else next
    some (dispatchRequest P { s with batching := 0 } r)

/-- The label `dispatch_writes`. -/
def dispatchWrites (P : Platform) (s : State) : Option (Bool × State) :=
  if s.sortList .write = [] then none
  else dispatchFindRequest P { s with starved := 0 } .write

/-- No batch is running: select a direction. -/
def dispatchSelect (P : Platform) (s : State) : Option (Bool × State) :=
  if s.fifoList .read ≠ [] then
    if s.sortList .read = [] then none
    else if s.fifoList .write ≠ [] then
      let s' := { s with starved := s.starved + 1 }
      if uint s.writesStarved ≤ s.starved then dispatchWrites P s'
      else dispatchFindRequest P s' .read
    else dispatchFindRequest P s .read
  else if s.fifoList .write ≠ [] then dispatchWrites P s
  else some (false, s)

def deadlineDispatchRequests (P : Platform) (s : State) : Option (Bool × State) :=
  match (s.nextRq .write).or (s.nextRq .read) with
  | some r =>
    if s.batching < uint s.fifoBatch then some (dispatchRequest P s r) else dispatchSelect P s
  | none => dispatchSelect P s

end Deadline
end SplitSched
