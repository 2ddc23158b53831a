import SplitSched.Lib.CArith

/-!
# SplitSched.Block.Platform

What the schedulers use and do not define: the C integer conversions, the kernel's `sort`,
`usecs_to_jiffies` and `HZ`, the bucket an account id hashes to, the wall clock and `kmalloc`.

* `Platform`: the conversions (`CInts`) and the kernel's pure functions, with what the code relies
  on. `Platform.exact` and `Platform.lp64` are the two platforms the results are read on.
* `Env`: the outcomes of the calls into the kernel. Every clock reading and every allocation takes
  the next entry of an arbitrary stream, so two readings in one function may differ and any
  allocation may fail.
-/

namespace SplitSched

open CArith

/-- An extent of the disk, as the cost model keeps it (`IORequest` of disk_sim.h). -/
structure IORequest where
  offset : Int
  size : Int
  deriving DecidableEq, Repr

structure Platform extends CInts where
  /-- The kernel's `sort` with `request_cmp`. -/
  sort : List IORequest → List IORequest
  sort_perm : ∀ l, (sort l).Perm l
  sort_sorted : ∀ l, (sort l).Pairwise (fun a b => a.offset ≤ b.offset)
  usecsToJiffies : Int → Int
  /-- Clock ticks in a second (`HZ`). -/
  hz : Int
  /-- The bucket of the account hash an id falls into. -/
  bucket : Int → Nat

/-- Sorting by offset, for the concrete platforms. -/
def sortByOffset (l : List IORequest) : List IORequest :=
  l.insertionSort (fun a b => a.offset ≤ b.offset)

theorem sortByOffset_sorted (l : List IORequest) :
    (sortByOffset l).Pairwise (fun a b => a.offset ≤ b.offset) := by
  have : Std.Total (fun a b : IORequest => a.offset ≤ b.offset) := ⟨fun a b => le_total _ _⟩
  have : IsTrans IORequest (fun a b => a.offset ≤ b.offset) := ⟨fun _ _ _ h h' => le_trans h h'⟩
  exact List.pairwise_insertionSort _ l

namespace Platform

/-- A platform with the given conversions, `HZ = 1000` and 1024 hash buckets. -/
def ofInts (C : CInts) : Platform where
  toCInts := C
  sort := sortByOffset
  sort_perm l := List.perm_insertionSort _ l
  sort_sorted := sortByOffset_sorted
  usecsToJiffies u := (u + 999) / 1000
  hz := 1000
  bucket id := (id % 1024).toNat

def exact : Platform := ofInts CInts.exact

def lp64 : Platform := ofInts CInts.lp64

@[simp] theorem exact_int (x : Int) : exact.int x = x := rfl
@[simp] theorem exact_long (x : Int) : exact.long x = x := rfl
@[simp] theorem exact_ulong (x : Int) : exact.ulong x = x := rfl

/-- Arithmetic is exact, whatever the rest of the platform does. -/
structure IsExact (P : Platform) : Prop where
  int : ∀ x, P.int x = x
  long : ∀ x, P.long x = x
  ulong : ∀ x, P.ulong x = x

theorem isExact_exact : IsExact exact := ⟨exact_int, exact_long, exact_ulong⟩

/-- C integers have the LP64 widths, whatever the rest of the platform does. -/
structure IsLp64 (P : Platform) : Prop where
  int : ∀ x, P.int x = x.bmod (2 ^ 32)
  long : ∀ x, P.long x = x.bmod (2 ^ 64)
  ulong : ∀ x, P.ulong x = x % (2 ^ 64 : Nat)

namespace IsLp64

variable {P : Platform} (hP : P.IsLp64)

include hP

theorem long_lt (x : Int) : P.long x < 2 ^ 63 := by
  rw [hP.long]
  exact Int.bmod_lt (by norm_num)

theorem le_long (x : Int) : -2 ^ 63 ≤ P.long x := by
  rw [hP.long]
  exact Int.le_bmod (by norm_num)

theorem long_eq_iff {x : Int} (h : 0 ≤ x) : P.long x = x ↔ x < 2 ^ 63 :=
  ⟨fun he => he ▸ hP.long_lt x, fun hlt => P.long_fits x (by omega) hlt⟩

theorem ulong_nonneg (x : Int) : 0 ≤ P.ulong x := by
  rw [hP.ulong]
  exact Int.emod_nonneg _ (by norm_num)

theorem ulong_lt (x : Int) : P.ulong x < 2 ^ 64 := by
  rw [hP.ulong]
  exact Int.emod_lt_of_pos _ (by norm_num)

theorem ulong_emod (x : Int) : P.ulong x = x % 2 ^ 64 := hP.ulong x

/-- A `size_t` amount is added and then taken back as an `int`. -/
theorem refund_iff {d b : Int} (hd : 0 ≤ d) (hd' : d < 2 ^ 63) (hb : 0 ≤ b)
    (hb' : b < 2 ^ 63 + 2 ^ 32) : P.long (d + b + P.int (P.ulong (-b))) = d ↔ b ≤ 2 ^ 31 := by
  rw [hP.long, hP.int, hP.ulong]
  exact bmod_refund_iff hd hd' hb hb'

end IsLp64

theorem isLp64_lp64 : IsLp64 lp64 := ⟨fun _ => rfl, fun _ => rfl, fun _ => rfl⟩

end Platform

/-! ## Clock and allocator -/

structure Timespec where
  sec : Int
  nsec : Int
  deriving DecidableEq, Repr

namespace Timespec

def zero : Timespec := ⟨0, 0⟩

/-- Nanoseconds. -/
def ns (t : Timespec) : Int := t.sec * 1000000000 + t.nsec

/-- `timespec_sub`: the difference, with the nanoseconds normalised to `[0, 10^9)`. -/
def sub (a b : Timespec) : Timespec :=
  let ns := (a.sec - b.sec) * 1000000000 + (a.nsec - b.nsec)
  ⟨ns / 1000000000, ns % 1000000000⟩

end Timespec

structure Env where
  clock : Nat → Timespec
  memory : Nat → Bool
  tick : Nat

namespace Env

def getnstimeofday (env : Env) : Timespec × Env :=
  (env.clock env.tick, { env with tick := env.tick + 1 })

/-- Whether the allocation succeeds. -/
def kmalloc (env : Env) : Bool × Env :=
  (env.memory env.tick, { env with tick := env.tick + 1 })

/-- Allocations succeed. -/
def Plenty (env : Env) : Prop := ∀ n, env.memory n = true

theorem Plenty.kmalloc {env : Env} (h : env.Plenty) : env.kmalloc.1 = true := h env.tick

end Env

end SplitSched
