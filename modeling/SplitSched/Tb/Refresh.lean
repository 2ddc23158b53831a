import SplitSched.Tb.Tokens

/-!
# SplitSched.Tb.Refresh

What `refresh_count` adds to the credit of an account for the time since `last_update`.

* `refreshInc_lp64`: in machine arithmetic the product of time and rate is reduced modulo 2^64, also when
  the clock was set back. `refresh_machine_exact_iff`: the increment is right exactly when the product is
  not affected by that. It is never negative, so the `BUG_ON` is not reached.
* `wasted`: what a sequence of refreshes truncates, and the time that is not paid for yet.
  `refresh_erosion_iff`: with exact arithmetic, refreshing at many times costs an account at most one token
  exactly when this is less than two tokens.
-/

namespace SplitSched
namespace Tb

open CArith

/-! ## One refresh -/

/-- Whole microseconds since `last_update`, negative if the clock was set back. -/
def elapsedUs (now : Timespec) (a : Account) : Int := (now.ns - a.lastUpdate.ns) / 1000

theorem refreshInc_eq (P : Platform) (now : Timespec) (a : Account) :
    refreshInc P now a = P.long ((P.ulong (P.ulong (elapsedUs now a) * a.rate)).tdiv 1000000) := by
  have hns : (now.sec - a.lastUpdate.sec) * 1000000000 + (now.nsec - a.lastUpdate.nsec) =
      now.ns - a.lastUpdate.ns := by
    unfold Timespec.ns
    ring
  have hus : (now.sub a.lastUpdate).sec * 1000000 + (now.sub a.lastUpdate).nsec.tdiv 1000 =
      elapsedUs now a := by
    unfold Timespec.sub elapsedUs
    simp only [hns]
    rw [Int.tdiv_eq_ediv_of_nonneg (by omega)]
    omega
  unfold refreshInc
  simp only [hus]

theorem refreshInc_lp64 {P : Platform} (hP : P.IsLp64) (now : Timespec) (a : Account) :
    refreshInc P now a = elapsedUs now a * a.rate % 18446744073709551616 / 1000000 := by
  have hmul : P.ulong (P.ulong (elapsedUs now a) * a.rate) =
      elapsedUs now a * a.rate % 18446744073709551616 := by
    rw [hP.ulong, hP.ulong, Int.mul_emod, Int.emod_emod, ← Int.mul_emod]
    rfl
  rw [refreshInc_eq, hmul, Int.tdiv_eq_ediv_of_nonneg (by omega)]
  exact P.long_fits _ (by omega) (by omega)

/-- A product of time and rate that 64 bits hold, or one that is negative and too close to a multiple of
2^64 for a token. -/
def Unwrapped (x : Int) : Prop := 0 ≤ x ∧ x < 2 ^ 64 ∨ x < 0 ∧ x % 2 ^ 64 < 1000000

theorem unwrapped_iff (x : Int) :
    x % 18446744073709551616 / 1000000 = max 0 (x / 1000000) ↔ Unwrapped x := by
  unfold Unwrapped
  norm_num
  omega

/-- In 64-bit arithmetic `refresh_count` does not stop, and what it adds before saturation is the income for
the elapsed time, or nothing if the clock was set back, exactly when time times rate is `Unwrapped`. -/
theorem refresh_machine_exact_iff (P : Platform) (hP : P.IsLp64) (now : Timespec) (a : Account) :
    refreshCount P now a ≠ none ∧
    (refreshInc P now a = max 0 (elapsedUs now a * a.rate / 1000000) ↔
      Unwrapped (elapsedUs now a * a.rate)) := by
  have hinc := refreshInc_lp64 hP now a
  constructor
  · rw [refreshCount_eq, if_neg (by omega)]
    split
    · exact Option.some_ne_none _
    · exact Option.some_ne_none _
  · rw [hinc]
    exact unwrapped_iff _

def idleAccount (rate : Int) (lastUpdate : Timespec) : Account where
  id := 7
  rqueue := .init
  wqueue := .init
  rate := rate
  limit := 1000000
  credit := 0
  estimate := 0
  used := 0
  usedRaw := 0
  lost := 0
  sane := 0
  insane _ := 0
  lastUpdate := lastUpdate
  batch := iobatchNew .lp64 batchSize batchByteCap
  batchEstimate := 0

theorem refresh_machine_exact_two_seconds :
    refreshCount .lp64 ⟨3, 0⟩ (idleAccount 1000 ⟨1, 0⟩) ≠ none ∧
    (refreshInc .lp64 ⟨3, 0⟩ (idleAccount 1000 ⟨1, 0⟩) =
        max 0 (elapsedUs ⟨3, 0⟩ (idleAccount 1000 ⟨1, 0⟩) * (idleAccount 1000 ⟨1, 0⟩).rate / 1000000) ↔
      Unwrapped (elapsedUs ⟨3, 0⟩ (idleAccount 1000 ⟨1, 0⟩) * (idleAccount 1000 ⟨1, 0⟩).rate)) :=
  refresh_machine_exact_iff .lp64 Platform.isLp64_lp64 ⟨3, 0⟩ (idleAccount 1000 ⟨1, 0⟩)

/-- The clock is set back by a second, and the account gets 18 million million tokens. Six idle hours at
1 GB/s wrap around, and it gets a seventh of its income. -/
theorem clock_set_back_pays :
    refreshInc .lp64 ⟨0, 0⟩ (idleAccount 1000 ⟨1, 0⟩) = 18446744072709 ∧
    max 0 (elapsedUs ⟨0, 0⟩ (idleAccount 1000 ⟨1, 0⟩) * 1000 / 1000000) = 0 ∧
    refreshInc .lp64 ⟨21600, 0⟩ (idleAccount 1000000000 ⟨0, 0⟩) = 3153255926290 ∧
    max 0 (elapsedUs ⟨21600, 0⟩ (idleAccount 1000000000 ⟨0, 0⟩) * 1000000000 / 1000000) =
      21600000000000 := by
  decide +kernel

/-! ## Many refreshes -/

def refreshAll (P : Platform) (ts : List Timespec) (a : Account) : Option Account :=
  ts.foldlM (fun a now => refreshCount P now a) a

def us (t : Timespec) : Int := t.ns / 1000

/-- In millionths of a token, for readings in microseconds: what is truncated by the refreshes that add
tokens, and what is due for the time from the last of them on. The account was last paid at `last`, and it
is `now`. -/
def wasted (rate last now : Int) : List Int → Int
  | [] => rate * (now - last)
  | t :: ts =>
    if 0 < rate * (t - last) / 1000000 then rate * (t - last) % 1000000 + wasted rate t t ts
    else wasted rate last t ts

section

variable {P : Platform} {a a' : Account} {now : Timespec}

theorem refreshInc_exact (hP : P.IsExact) (hr : 0 ≤ a.rate) (hle : a.lastUpdate.ns ≤ now.ns)
    (hlast : a.lastUpdate.ns % 1000 = 0) (hnow : now.ns % 1000 = 0) :
    refreshInc P now a = a.rate * (us now - us a.lastUpdate) / 1000000 := by
  have hus : elapsedUs now a = us now - us a.lastUpdate := by
    unfold elapsedUs us
    omega
  have hpos : 0 ≤ us now - us a.lastUpdate := by
    unfold us
    omega
  rw [refreshInc_eq, hP.long, hP.ulong, hP.ulong, hus, mul_comm,
    Int.tdiv_eq_ediv_of_nonneg (mul_nonneg hr hpos)]

theorem refreshCount_paid (hP : P.IsExact) (hinc : 0 ≤ refreshInc P now a) :
    ∃ a', refreshCount P now a = some a' ∧ a'.rate = a.rate ∧
      a'.held = a.held + refreshInc P now a ∧
      a'.lastUpdate = if 0 < refreshInc P now a then now else a.lastUpdate := by
  rw [refreshCount_eq, if_neg (not_lt.mpr hinc)]
  by_cases hpos : 0 < refreshInc P now a
  · rw [if_pos hpos, if_pos hpos]
    obtain ⟨-, hheld, -⟩ := saturateCounts_settles hP
      { a with credit := P.long (a.credit + refreshInc P now a) }
    refine ⟨_, rfl, (saturateCounts_same P _).rate, ?_, rfl⟩
    change (saturateCounts P _).held = _
    rw [hheld]
    simp only [Account.held, hP.long]
    ring
  · rw [if_neg hpos, if_neg hpos]
    exact ⟨a, rfl, rfl, by omega, rfl⟩

/-- What is due has been paid or is wasted. -/
theorem refreshAll_paid (hP : P.IsExact) (ts : List Timespec) : ∀ {a : Account} {now : Timespec},
    0 ≤ a.rate → a.lastUpdate.ns ≤ now.ns → a.lastUpdate.ns % 1000 = 0 →
    (∀ t ∈ ts, t.ns % 1000 = 0) → (now :: ts).Pairwise (fun t t' => t.ns ≤ t'.ns) →
    ∃ a', refreshAll P ts a = some a' ∧
      a.rate * (us ((now :: ts).getLast (List.cons_ne_nil now ts)) - us a.lastUpdate) =
        1000000 * (a'.held - a.held) + wasted a.rate (us a.lastUpdate) (us now) (ts.map us) := by
  induction ts with
  | nil =>
    intro a now hr hle hlast hus hmono
    exact ⟨a, rfl, by simp [wasted]⟩
  | cons t ts ih =>
    intro a now hr hle hlast hus hmono
    obtain ⟨hnow, hmono⟩ := List.pairwise_cons.mp hmono
    have hlt : a.lastUpdate.ns ≤ t.ns := hle.trans (hnow t List.mem_cons_self)
    have ht := hus t List.mem_cons_self
    have hts := fun t' ht' => hus t' (List.mem_cons_of_mem _ ht')
    have hinc := refreshInc_exact hP hr hlt hlast ht
    have hinc0 : 0 ≤ refreshInc P t a := by
      rw [hinc]
      refine Int.ediv_nonneg (mul_nonneg hr ?_) (by decide)
      unfold us
      omega
    obtain ⟨a₁, hone, hrate, hheld, hpaid⟩ := refreshCount_paid hP hinc0
    rw [List.getLast_cons (List.cons_ne_nil t ts), List.map_cons]
    unfold refreshAll wasted
    rw [List.foldlM_cons, hone, ← hinc]
    by_cases hpos : 0 < refreshInc P t a
    · -- the account is paid up to this reading
      rw [if_pos hpos] at hpaid ⊢
      obtain ⟨a', hrest, hsum⟩ := ih (a := a₁) (hrate ▸ hr) (hpaid ▸ le_rfl) (hpaid ▸ ht) hts hmono
      refine ⟨a', hrest, ?_⟩
      rw [hrate, hpaid] at hsum
      have hdiv := Int.mul_ediv_add_emod (a.rate * (us t - us a.lastUpdate)) 1000000
      rw [← hinc] at hdiv
      linarith
    · rw [if_neg hpos] at hpaid ⊢
      obtain ⟨a', hrest, hsum⟩ := ih (a := a₁) (hrate ▸ hr) (hpaid ▸ hlt) (hpaid ▸ hlast) hts hmono
      refine ⟨a', hrest, ?_⟩
      rw [hrate, hpaid] at hsum
      have hzero : refreshInc P t a = 0 := by omega
      rw [hsum, hheld, hzero, add_zero]

end

/-- With exact arithmetic, `refresh_count` at each of a sequence of readings adds at least what one refresh
at the last of them adds, less one token, exactly when less than two tokens are wasted. -/
theorem refresh_erosion_iff (P : Platform) (hP : P.IsExact) (a : Account) (ts : List Timespec)
    (hr : 0 ≤ a.rate) (hus : ∀ t ∈ a.lastUpdate :: ts, t.ns % 1000 = 0)
    (hmono : (a.lastUpdate :: ts).Pairwise fun t t' => t.ns ≤ t'.ns) :
    ∃ a', refreshAll P ts a = some a' ∧ (a'.lost = a.lost →
      (a.rate * (us ((a.lastUpdate :: ts).getLast (List.cons_ne_nil _ ts)) - us a.lastUpdate) / 1000000 - 1 ≤
          a'.credit - a.credit ↔
        wasted a.rate (us a.lastUpdate) (us a.lastUpdate) (ts.map us) < 2000000)) := by
  obtain ⟨hlast, hts⟩ := List.forall_mem_cons.mp hus
  obtain ⟨a', hall, hsum⟩ := refreshAll_paid hP ts hr le_rfl hlast hts hmono
  refine ⟨a', hall, fun hlost => ?_⟩
  have hheld : a'.held - a.held = a'.credit - a.credit := by
    unfold Account.held
    omega
  rw [hsum, hheld]
  omega

theorem refresh_erosion_whole_seconds :
    ∃ a', refreshAll .exact [⟨1, 0⟩, ⟨2, 0⟩] (idleAccount 1000 ⟨0, 0⟩) = some a' ∧ (a'.lost = 0 →
      (1000 * (us ⟨2, 0⟩ - us ⟨0, 0⟩) / 1000000 - 1 ≤ a'.credit - 0 ↔
        wasted 1000 (us ⟨0, 0⟩) (us ⟨0, 0⟩) [us ⟨1, 0⟩, us ⟨2, 0⟩] < 2000000)) :=
  refresh_erosion_iff .exact Platform.isExact_exact (idleAccount 1000 ⟨0, 0⟩) [⟨1, 0⟩, ⟨2, 0⟩] (by decide)
    (by decide) (by decide)

/-- One and a half tokens a microsecond are due, and a refresh every microsecond adds one. -/
theorem frequent_refresh_erodes :
    ∃ a', refreshAll .lp64 [⟨0, 1000⟩, ⟨0, 2000⟩, ⟨0, 3000⟩, ⟨0, 4000⟩] (idleAccount 1500000 ⟨0, 0⟩) = some a' ∧
      a'.lost = 0 ∧ a'.credit = 4 ∧ 1500000 * (us ⟨0, 4000⟩ - us ⟨0, 0⟩) / 1000000 - 1 = 5 := by
  have h : (refreshAll .lp64 [⟨0, 1000⟩, ⟨0, 2000⟩, ⟨0, 3000⟩, ⟨0, 4000⟩]
      (idleAccount 1500000 ⟨0, 0⟩)).any (fun a' => a'.lost = 0 ∧ a'.credit = 4) = true := by
    decide +kernel
  obtain ⟨a', ha', hcounts⟩ := (Option.any_eq_true _ _).mp h
  obtain ⟨hlost, hcredit⟩ := of_decide_eq_true hcounts
  exact ⟨a', ha', hlost, hcredit, by decide⟩

/-- The loss has no bound: refreshing every `d` microseconds, if that adds tokens at all, wastes the same
fraction of a token each time. -/
theorem wasted_regular {rate d : Int} (hpay : 0 < rate * d / 1000000) (n : Nat) : ∀ last : Int,
    wasted rate last last ((List.range n).map fun i : Nat => last + d * (i + 1)) =
      n * (rate * d % 1000000) := by
  induction n with
  | zero =>
    intro last
    simp [wasted]
  | succ n ih =>
    intro last
    have hstep : last + d * ((0 : Nat) + 1) - last = d := by
      push_cast
      ring
    have hrest : (List.range n).map ((fun i : Nat => last + d * (i + 1)) ∘ Nat.succ) =
        (List.range n).map fun i : Nat => last + d * ((0 : Nat) + 1) + d * (i + 1) := by
      refine List.map_congr_left fun i _ => ?_
      simp only [Function.comp_apply]
      push_cast
      ring
    rw [List.range_succ_eq_map, List.map_cons, List.map_map, hrest, wasted, hstep, if_pos hpay, ih]
    push_cast
    ring

end Tb
end SplitSched
