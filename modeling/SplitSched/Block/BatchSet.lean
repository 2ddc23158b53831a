import SplitSched.Block.CauseTags
import SplitSched.Block.IoBatch

/-!
# SplitSched.Block.BatchSet

The batches of a scheduler taken together: the global one, and one for each account. This is what
`do_disk_accounting` is for, seen from the batches. It adds an extent to the global batch and to that
of every account named; if one of these is full after that, all batches are emptied.

* `IoBatch.Holds n b`: the batch holds `n` bytes, in at most as many entries as it has room for, and
  the sizes of the entries add up to `n` as long as that is an `int`; `IoBatch.Roomy n b`: besides,
  it is not full.
* `BatchSet.Accounts`: what one call does to all batches. The two schedulers refine it.
* `BatchSet.Roomy.accounts`: after the call every batch has room again, and holds the bytes that were
  added to it since batches were emptied (`Tally`).
-/

namespace SplitSched

/-! ## One batch -/

namespace IoBatch

variable {P : Platform} {n offset size : Int} {b b' : IoBatch}

/-- The sizes of the entries add up to `n`. -/
structure Entries (n : Int) (b : IoBatch) : Prop where
  sum : (b.reqs.map (·.size)).sum = n
  sizes : ∀ r ∈ b.reqs, 0 ≤ r.size

structure Holds (n : Int) (b : IoBatch) : Prop where
  bytes : b.bytes = n
  nonneg : 0 ≤ n
  empty : b.reqs = [] → n = 0
  length : b.reqs.length ≤ b.reqsCapacity
  /-- The size of an entry is an `int`, and entries are coalesced. -/
  entries : n < 2 ^ 31 → b.Entries n

structure Roomy (n : Int) (b : IoBatch) : Prop extends Holds n b where
  notFull : iobatchFull b = false
  /-- What is in a batch fits into one entry. -/
  small : b.bytesCap ≤ 2 ^ 31

/-- The batch takes an extent, and no call of `iobatch_full` on the way is a `BUG_ON`. -/
structure Accepts (P : Platform) (b : IoBatch) (offset size : Int) : Prop where
  notFull : iobatchFull b = false
  before : b.overrun = false
  after : (iobatchAddRequest P b offset size).2.overrun = false

theorem full_eq_false : iobatchFull b = false ↔ b.reqs.length < b.reqsCapacity ∧ b.bytes < b.bytesCap := by
  simp [iobatchFull]

theorem Holds.overrun (h : Holds n b) : b.overrun = false := by
  simpa [IoBatch.overrun] using h.length

theorem add_caps (P : Platform) (b : IoBatch) (offset size : Int) :
    (iobatchAddRequest P b offset size).2.reqsCapacity = b.reqsCapacity ∧
      (iobatchAddRequest P b offset size).2.bytesCap = b.bytesCap := by
  simp only [iobatchAddRequest]
  split
  · exact ⟨rfl, rfl⟩
  · split
    · exact ⟨rfl, rfl⟩
    · split <;> exact ⟨rfl, rfl⟩

/-- A batch that is not full takes the extent: as a new entry, or with the last one. -/
theorem add_accepted (P : Platform) (offset size : Int) (h : iobatchFull b = false) :
    (iobatchAddRequest P b offset size).2.bytes = P.ulong (b.bytes + size) ∧
      (iobatchAddRequest P b offset size).2.reqs ≠ [] ∧
      (iobatchAddRequest P b offset size).2.reqs.length ≤ b.reqs.length + 1 := by
  simp only [iobatchAddRequest, h, Bool.false_eq_true, if_false]
  split
  · exact ⟨rfl, by simp [IoBatch.append], by simp [IoBatch.append]⟩
  · split
    · exact ⟨rfl, by simp, by simp⟩
    · exact ⟨rfl, by simp [IoBatch.append], by simp [IoBatch.append]⟩

theorem Entries.append (h : Entries n b) (hs : 0 ≤ size) :
    Entries (n + size) (b.append P offset size) where
  sum := by simp [IoBatch.append, h.sum]
  sizes r hr := by
    rcases List.mem_append.mp hr with hr | hr
    · exact h.sizes r hr
    · cases List.mem_singleton.mp hr
      exact hs

theorem Entries.add (h : Entries n b) (hfull : iobatchFull b = false) (hs : 0 ≤ size)
    (hn : n + size < 2 ^ 31) : Entries (n + size) (iobatchAddRequest P b offset size).2 := by
  simp only [iobatchAddRequest, hfull, Bool.false_eq_true, if_false]
  split
  · exact h.append hs
  · rename_i prev hprev
    split
    · -- the last entry grows; all of them together are below the bound
      obtain ⟨init, hreqs⟩ := List.getLast?_eq_some_iff.mp hprev
      have hinit : ∀ r ∈ init, 0 ≤ r.size := fun r hr => h.sizes r (by simp [hreqs, hr])
      have hlast : 0 ≤ prev.size := h.sizes prev (by simp [hreqs])
      have hsum := h.sum
      simp only [hreqs, List.map_append, List.sum_append, List.map_singleton,
        List.sum_singleton] at hsum
      have hpos : 0 ≤ (init.map (·.size)).sum := List.sum_nonneg (by simpa using hinit)
      have hfits : P.int (prev.size + size) = prev.size + size :=
        P.int_fits _ (by omega) (by omega)
      simp only [hreqs, List.dropLast_concat, hfits]
      refine ⟨by simp; omega, fun r hr => ?_⟩
      rcases List.mem_append.mp hr with hr | hr
      · exact hinit r hr
      · cases List.mem_singleton.mp hr
        exact Int.add_nonneg hlast hs
    · exact h.append hs

theorem Roomy.add (h : Roomy n b) (hs : 0 ≤ size) (hs' : size < 2 ^ 31) :
    Holds (n + size) (iobatchAddRequest P b offset size).2 := by
  obtain ⟨hbytes, hne, hlen⟩ := add_accepted P offset size h.notFull
  obtain ⟨hl, hb⟩ := full_eq_false.mp h.notFull
  have hsmall := h.small
  have hn := h.nonneg
  rw [h.bytes] at hb
  refine ⟨?_, by omega, fun he => absurd he hne, ?_, fun hlt => ?_⟩
  · rw [hbytes, h.bytes]
    exact P.ulong_fits _ (by omega) (by omega)
  · rw [(add_caps P b offset size).1]
    omega
  · exact (h.entries (by omega)).add h.notFull hs hlt

theorem Roomy.accepts (h : Roomy n b) (hs : 0 ≤ size) (hs' : size < 2 ^ 31) :
    Accepts P b offset size :=
  ⟨h.notFull, h.toHolds.overrun, (h.add hs hs').overrun⟩

/-- `b'` is `b` without its entries. -/
structure Empties (b b' : IoBatch) : Prop where
  reqs : b'.reqs = []
  bytes : b.reqs ≠ [] → b'.bytes = 0
  same : b.reqs = [] → b'.bytes = b.bytes
  capacity : b'.reqsCapacity = b.reqsCapacity
  bytesCap : b'.bytesCap = b.bytesCap

theorem Empties.of_empty (h : b.reqs = []) : Empties b b :=
  ⟨h, fun hne => absurd h hne, fun _ => rfl, rfl, rfl⟩

theorem iobatchClear_empties (P : Platform) (b : IoBatch) : Empties b (iobatchClear P b) := by
  simp only [iobatchClear]
  split
  · rename_i hlen
    exact ⟨rfl, fun _ => rfl, fun h => absurd hlen (by simp [h]), rfl, rfl⟩
  · rename_i hlen
    exact .of_empty (List.length_eq_zero_iff.mp (by omega))

/-- Pricing a batch sorts it. -/
theorem iobatchGetCost_perm (P : Platform) (b : IoBatch) :
    (iobatchGetCost P b).2.reqs.Perm b.reqs ∧ (iobatchGetCost P b).2.bytes = b.bytes ∧
      (iobatchGetCost P b).2.reqsCapacity = b.reqsCapacity ∧
      (iobatchGetCost P b).2.bytesCap = b.bytesCap := by
  simp only [iobatchGetCost]
  split
  · exact ⟨.refl _, rfl, rfl, rfl⟩
  · have hperm := P.sort_perm b.reqs
    split
    · exact ⟨.refl _, rfl, rfl, rfl⟩
    · rename_i hsort
      rw [hsort] at hperm
      exact ⟨hperm, rfl, rfl, rfl⟩

theorem Empties.of_price (h : Empties (iobatchGetCost P b).2 b') : Empties b b' := by
  obtain ⟨hperm, hbytes, hcap, hbcap⟩ := iobatchGetCost_perm P b
  have hnil : (iobatchGetCost P b).2.reqs = [] ↔ b.reqs = [] :=
    ⟨fun he => List.perm_nil.mp (he ▸ hperm.symm), fun he => List.perm_nil.mp (he ▸ hperm)⟩
  exact ⟨h.reqs, fun hne => h.bytes fun he => hne (hnil.mp he),
    fun he => (h.same (hnil.mpr he)).trans hbytes, h.capacity.trans hcap, h.bytesCap.trans hbcap⟩

/-- An emptied batch has room, if it has room for anything. -/
theorem Holds.emptied (h : Holds n b) (he : Empties b b') (hcap : 0 < b.reqsCapacity)
    (hb : 0 < b.bytesCap) (hs : b.bytesCap ≤ 2 ^ 31) : Roomy 0 b' := by
  have hz : b'.bytes = 0 := by
    by_cases hr : b.reqs = []
    · rw [he.same hr, h.bytes, h.empty hr]
    · exact he.bytes hr
  have hentries : Entries 0 b' := ⟨by simp [he.reqs], by simp [he.reqs]⟩
  refine ⟨⟨hz, le_refl 0, fun _ => rfl, by simp [he.reqs], fun _ => hentries⟩, ?_, he.bytesCap ▸ hs⟩
  rw [full_eq_false, he.reqs, hz, he.capacity, he.bytesCap]
  exact ⟨hcap, hb⟩

/-- A batch as `iobatch_new` or `iobatch_clear` leaves it. -/
structure Empty (capacity : Nat) (bytesCap : Int) (b : IoBatch) : Prop where
  reqs : b.reqs = []
  bytes : b.bytes = 0
  capacity : b.reqsCapacity = capacity
  bytesCap : b.bytesCap = bytesCap

theorem iobatchNew_empty (P : Platform) (capacity : Nat) (bytesCap : Int) :
    Empty capacity bytesCap (iobatchNew P capacity bytesCap) := ⟨rfl, rfl, rfl, rfl⟩

theorem Empty.roomy {capacity : Nat} {bytesCap : Int} (h : Empty capacity bytesCap b)
    (hcap : 0 < capacity) (hb : 0 < bytesCap) (hs : bytesCap ≤ 2 ^ 31) : Roomy 0 b := by
  have hholds : Holds 0 b :=
    ⟨h.bytes, le_refl 0, fun _ => rfl, by simp [h.reqs], fun _ => ⟨by simp [h.reqs], by simp [h.reqs]⟩⟩
  exact hholds.emptied (.of_empty h.reqs) (h.capacity ▸ hcap) (h.bytesCap ▸ hb) (h.bytesCap ▸ hs)

end IoBatch

/-! ## All batches -/

@[ext] structure BatchSet where
  whole : IoBatch
  acct : Int → IoBatch

/-- The bytes added to the batches since they were emptied. -/
structure Tally where
  whole : Int
  acct : Int → Int

namespace Tally

def zero : Tally := ⟨0, fun _ => 0⟩

/-- An extent of `size` bytes was added for the accounts `ids`, or the batches were emptied. -/
def record (t : Tally) (flushed : Bool) (ids : List Int) (size : Int) : Tally :=
  if flushed then zero
  else ⟨t.whole + size, fun j => if j ∈ ids then t.acct j + size else t.acct j⟩

end Tally

namespace BatchSet

variable {P : Platform} {ids : List Int} {offset size : Int} {B B' : BatchSet} {flushed : Bool}
  {t : Tally}

def add (P : Platform) (ids : List Int) (offset size : Int) (B : BatchSet) : BatchSet where
  whole := (iobatchAddRequest P B.whole offset size).2
  acct j := if j ∈ ids then (iobatchAddRequest P (B.acct j) offset size).2 else B.acct j

/-- One of the batches that were added to is full. -/
def full (ids : List Int) (B : BatchSet) : Bool :=
  iobatchFull B.whole || ids.any fun j => iobatchFull (B.acct j)

structure Accounts (P : Platform) (ids : List Int) (offset size : Int) (B B' : BatchSet)
    (flushed : Bool) : Prop where
  flushes : flushed = (B.add P ids offset size).full ids
  kept : flushed = false → B' = B.add P ids offset size
  whole : flushed = true → (B.add P ids offset size).whole.Empties B'.whole
  acct : flushed = true → ∀ j, ((B.add P ids offset size).acct j).Empties (B'.acct j)

structure Empty (capacity : Nat) (bytesCap : Int) (B : BatchSet) : Prop where
  whole : B.whole.Empty capacity bytesCap
  acct : ∀ j, (B.acct j).Empty capacity bytesCap

/-- Every batch has room, and holds what the tally says. -/
structure Roomy (B : BatchSet) (t : Tally) : Prop where
  whole : B.whole.Roomy t.whole
  acct : ∀ j, (B.acct j).Roomy (t.acct j)

theorem Empty.roomy {capacity : Nat} {bytesCap : Int} (h : B.Empty capacity bytesCap)
    (hcap : 0 < capacity) (hb : 0 < bytesCap) (hs : bytesCap ≤ 2 ^ 31) : B.Roomy .zero :=
  ⟨h.whole.roomy hcap hb hs, fun j => (h.acct j).roomy hcap hb hs⟩

theorem Roomy.accounts (h : B.Roomy t) (hs : 0 ≤ size) (hs' : size < 2 ^ 31)
    (ha : Accounts P ids offset size B B' flushed) : B'.Roomy (t.record flushed ids size) := by
  have hcaps : ∀ {n : Int} {b : IoBatch}, b.Roomy n → 0 < b.reqsCapacity ∧ 0 < b.bytesCap := by
    intro n b hb
    obtain ⟨hl, hbytes⟩ := IoBatch.full_eq_false.mp hb.notFull
    rw [hb.bytes] at hbytes
    have := hb.nonneg
    exact ⟨by omega, by omega⟩
  have hwhole : ((B.add P ids offset size).whole).Holds (t.whole + size) := h.whole.add hs hs'
  have hacct : ∀ j, ((B.add P ids offset size).acct j).Holds
      (if j ∈ ids then t.acct j + size else t.acct j) := by
    intro j
    simp only [add]
    split
    · exact (h.acct j).add hs hs'
    · exact (h.acct j).toHolds
  have hsame : ∀ j, ((B.add P ids offset size).acct j).reqsCapacity = (B.acct j).reqsCapacity ∧
      ((B.add P ids offset size).acct j).bytesCap = (B.acct j).bytesCap := by
    intro j
    simp only [add]
    split
    · exact IoBatch.add_caps P _ offset size
    · exact ⟨rfl, rfl⟩
  have hwcaps := IoBatch.add_caps P B.whole offset size
  cases flushed with
  | true =>
    refine ⟨hwhole.emptied (ha.whole rfl) ?_ ?_ ?_, fun j => (hacct j).emptied (ha.acct rfl j) ?_ ?_ ?_⟩
    · exact hwcaps.1.symm ▸ (hcaps h.whole).1
    · exact hwcaps.2.symm ▸ (hcaps h.whole).2
    · exact hwcaps.2.symm ▸ h.whole.small
    · exact (hsame j).1.symm ▸ (hcaps (h.acct j)).1
    · exact (hsame j).2.symm ▸ (hcaps (h.acct j)).2
    · exact (hsame j).2.symm ▸ (h.acct j).small
  | false =>
    -- nothing that was added to is full, and what was not added to was not full before
    have hfull := ha.flushes.symm
    simp only [full, Bool.or_eq_false_iff, List.any_eq_false, Bool.not_eq_true] at hfull
    rw [ha.kept rfl]
    refine ⟨⟨hwhole, hfull.1, hwcaps.2.symm ▸ h.whole.small⟩, fun j => ⟨hacct j, ?_, ?_⟩⟩
    · by_cases hj : j ∈ ids
      · exact hfull.2 j hj
      · simp only [add, hj, if_false]
        exact (h.acct j).notFull
    · exact (hsame j).2.symm ▸ (h.acct j).small

end BatchSet

/-! ## Runs -/

/-- What a run of disk accounting is made of. -/
inductive DiskEvent where
  /-- `do_disk_accounting` on the list `l`. -/
  | account (l : Nat) (offset : Int)
  | getAccount (id : Int)
  /-- The rest of the kernel: cause lists change, time passes. -/
  | kernel (m : Mem)

/-- A scheduler, and the bytes added to its batches since the last flush. -/
structure Tallied (σ : Type) where
  sched : σ
  tally : Tally

end SplitSched
