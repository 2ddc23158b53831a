import SplitSched.Block.Platform

/-!
# SplitSched.Block.IoBatch

The cost model shared by the schedulers: disk_sim.c (a disk head that pays for the distance it
moves, up to a cap) and io_batch.c (a bounded batch of extents, priced in elevator order, with the
last price cached).

The array `reqs` up to `reqs_size` is a list. The cache sentinel `(size_t)-1` stays a value of the
`cost` field, as in the source, so a cost that happened to equal it would be read as "not cached".
-/

namespace SplitSched

open CArith

/-! ## disk_sim.c -/

def seekCap : Int := 2 * 1024 * 1024

def offsetDiff (o₁ o₂ : Int) : Int := if o₂ < o₁ then o₁ - o₂ else o₂ - o₁

def seekTime (o₁ o₂ : Int) : Int := min (offsetDiff o₁ o₂) seekCap

theorem seekTime_nonneg (o₁ o₂ : Int) : 0 ≤ seekTime o₁ o₂ := by
  unfold seekTime offsetDiff seekCap
  split <;> omega

theorem seekTime_le (o₁ o₂ : Int) : seekTime o₁ o₂ ≤ seekCap := min_le_right _ _

def diskPositionTime (headLocation : Int) (r : IORequest) : Int :=
  min (seekTime headLocation r.offset) seekCap

/-- The cost of a request and the head location after it. -/
def diskSimulateRequest (P : Platform) (headLocation : Int) (r : IORequest) : Int × Int :=
  (P.ulong (r.size + diskPositionTime headLocation r), r.offset + r.size)

/-! ## io_batch.c -/

structure IoBatch where
  headLocation : Int
  reqs : List IORequest
  reqsCapacity : Nat
  bytes : Int
  cost : Int
  bytesCap : Int
  deriving DecidableEq, Repr

/-- The sentinel `(size_t)-1`: no cached cost. -/
def costUnset (P : Platform) : Int := P.ulong (-1)

def iobatchNew (P : Platform) (capacity : Nat) (bytesCap : Int) : IoBatch where
  headLocation := 0
  reqs := []
  reqsCapacity := capacity
  bytes := 0
  cost := costUnset P
  bytesCap := bytesCap

/-- The condition of the `BUG_ON` in `iobatch_full`. -/
def IoBatch.overrun (b : IoBatch) : Bool := decide (b.reqsCapacity < b.reqs.length)

def iobatchFull (b : IoBatch) : Bool :=
  decide (b.reqsCapacity ≤ b.reqs.length) || decide (b.bytesCap ≤ b.bytes)

/-- Append a new entry (the branch of `iobatch_add_request` that does not coalesce). -/
def IoBatch.append (P : Platform) (b : IoBatch) (offset size : Int) : IoBatch :=
  { b with
    reqs := b.reqs ++ [⟨offset, size⟩]
    cost := costUnset P
    bytes := P.ulong (b.bytes + size) }

/-- Returns whether the request was coalesced with the last entry. A full batch drops it. -/
def iobatchAddRequest (P : Platform) (b : IoBatch) (offset size : Int) : Bool × IoBatch :=
  if iobatchFull b then (false, b)
  else
    match b.reqs.getLast? with
    | none => (false, b.append P offset size)
    | some prev =>
      if offset = prev.offset + prev.size then
        (true, { b with
          reqs := b.reqs.dropLast ++ [{ prev with size := P.int (prev.size + size) }]
          cost := costUnset P
          bytes := P.ulong (b.bytes + size) })
      else (false, b.append P offset size)

def iobatchClear (P : Platform) (b : IoBatch) : IoBatch :=
  if 0 < b.reqs.length then { b with reqs := [], cost := costUnset P, bytes := 0 } else b

/-- The loop of `iobatch_get_cost`: accumulated cost and head location. -/
def simulateAll (P : Platform) : List IORequest → Int × Int → Int × Int
  | [], acc => acc
  | r :: rs, (cost, head) =>
    let (c, head') := diskSimulateRequest P head r
    simulateAll P rs (P.ulong (cost + c), head')

/-- The cost, and the batch as the call leaves it: sorted, with the cost cached. -/
def iobatchGetCost (P : Platform) (b : IoBatch) : Int × IoBatch :=
  if b.cost ≠ costUnset P then (b.cost, b)
  else
    match P.sort b.reqs with
    | [] => (0, { b with cost := 0 })
    | r :: rs =>
      let (cost, head) := simulateAll P (r :: rs) (seekCap, r.offset)
      (cost, { b with reqs := r :: rs, headLocation := head, cost := cost })

end SplitSched
