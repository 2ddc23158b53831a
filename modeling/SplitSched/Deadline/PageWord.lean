import SplitSched.Deadline.Sched

/-!
# SplitSched.Deadline.PageWord

The number of dirty pages of an inode shares the word `i_private1` with a byte that tells which scheduler
wrote it. A word with a foreign byte is set up again by the first call.

* `base`: the word as a call finds it, after `check_dirty_number`.
* `PageCall.count`: what the calls mean for a counter that starts at 0.
* `dirty_counter_iff`: the word counts if and only if the magic byte, a signed `char`, is not negative:
  a negative one is extended over the whole word, and the counter starts at -1.
-/

namespace SplitSched
namespace Deadline

variable {P : Platform} {s : State} {inode : Nat}

/-- The word of the inode as `check_dirty_number` leaves it. -/
def base (s : State) (inode : Nat) : Int :=
  if s.mem.inodePos inode % 256 = s.magic.toNat then s.mem.inodePos inode else s.magic.toInt

theorem checkDirtyNumber_pos (s : State) (inode : Nat) :
    (checkDirtyNumber s inode).mem.inodePos inode = base s inode ∧
      (checkDirtyNumber s inode).magic = s.magic := by
  unfold checkDirtyNumber base
  split
  · exact ⟨rfl, rfl⟩
  · exact ⟨by simp [inodeSetPos], rfl⟩

/-- The word after a call, in terms of the word it finds. -/
theorem inodeIncDirtyPages_pos (P : Platform) (s : State) (inode : Nat) (num : Int) :
    (inodeIncDirtyPages P s inode num).mem.inodePos inode =
        (if num < 0 ∧ base s inode / 256 + num < 0 then base s inode
          else P.long (base s inode + P.int (num * 256))) ∧
      (inodeIncDirtyPages P s inode num).magic = s.magic := by
  obtain ⟨hpos, hmagic⟩ :=
    checkDirtyNumber_pos { s with pageCalls := s.pageCalls ++ [(inode, num)] } inode
  have hbase : base { s with pageCalls := s.pageCalls ++ [(inode, num)] } inode = base s inode := rfl
  rw [hbase] at hpos
  unfold inodeIncDirtyPages
  simp only [inodeGetDirtyPages, hpos]
  split
  · exact ⟨hpos, hmagic⟩
  · exact ⟨by simp [inodeSetPos], hmagic⟩

/-! ## Calls and what they mean -/

inductive PageCall where
  | inc (num : Nat)
  | dec (num : Nat)
  deriving DecidableEq, Repr

namespace PageCall

def amount : PageCall → Nat
  | inc num => num
  | dec num => num

/-- The call on the word of the inode. -/
def apply (P : Platform) (inode : Nat) (s : State) : PageCall → State
  | inc num => inodeIncDirtyPages P s inode num
  | dec num => inodeDecDirtyPages P s inode num

/-- The call on a counter. A decrement that would make it negative is ignored. -/
def count (n : Nat) : PageCall → Nat
  | inc num => n + num
  | dec num => if num ≤ n then n - num else n

end PageCall

def applyAll (P : Platform) (inode : Nat) (s : State) (calls : List PageCall) : State :=
  calls.foldl (PageCall.apply P inode) s

def countAll (calls : List PageCall) : Nat := calls.foldl PageCall.count 0

/-- After a call the word has the count `n`, and it is the scheduler's own. -/
structure Reads (s : State) (inode n : Nat) : Prop where
  count : inodeGetDirtyPages s inode = n
  nonneg : 0 ≤ inodeGetDirtyPages s inode
  magic : s.mem.inodePos inode % 256 = s.magic.toNat

/-- The next call finds the count `n`. -/
def Counts (s : State) (inode n : Nat) : Prop := base s inode = n * 256 + s.magic.toNat

theorem Counts.of_foreign (hmagic : s.magic.toNat < 128)
    (h : s.mem.inodePos inode % 256 ≠ s.magic.toNat) : Counts s inode 0 := by
  unfold Counts base
  rw [if_neg h, BitVec.toInt_eq_toNat_cond]
  split <;> omega

theorem Counts.reads {n : Nat} (h : s.mem.inodePos inode = n * 256 + s.magic.toNat) :
    Counts s inode n ∧ Reads s inode n := by
  have hlt := s.magic.isLt
  have hown : s.mem.inodePos inode % 256 = s.magic.toNat := by omega
  have hget : inodeGetDirtyPages s inode = n := by
    unfold inodeGetDirtyPages
    omega
  refine ⟨?_, hget, ?_, hown⟩
  · unfold Counts base
    rw [if_pos hown, h]
  · rw [hget]
    exact Int.natCast_nonneg n

/-! ## One call -/

/-- The word after a call that fits a `long`. The amount fits an `int` when it is shifted. -/
theorem apply_pos (P : Platform) (s : State) (inode : Nat) {call : PageCall}
    (hamount : call.amount < 2 ^ 22) :
    (call.apply P inode s).magic = s.magic ∧
      (call.apply P inode s).mem.inodePos inode =
        match call with
        | .inc num => P.long (base s inode + num * 256)
        | .dec num => if 0 < num ∧ base s inode / 256 < num then base s inode
          else P.long (base s inode - num * 256) := by
  cases call with
  | inc num =>
    simp only [PageCall.amount] at hamount
    obtain ⟨hpos, hmagic⟩ := inodeIncDirtyPages_pos P s inode num
    refine ⟨hmagic, hpos.trans ?_⟩
    rw [if_neg (by omega), P.int_fits _ (by omega) (by omega)]
  | dec num =>
    simp only [PageCall.amount] at hamount
    have hneg : P.int (-(num : Int)) = -num := P.int_fits _ (by omega) (by omega)
    obtain ⟨hpos, hmagic⟩ := inodeIncDirtyPages_pos P s inode (-num)
    simp only [PageCall.apply, inodeDecDirtyPages, hneg]
    refine ⟨hmagic, hpos.trans ?_⟩
    rw [P.int_fits _ (by omega) (by omega)]
    by_cases hrefused : 0 < num ∧ base s inode / 256 < num
    · rw [if_pos hrefused, if_pos (by omega)]
    · rw [if_neg hrefused, if_neg (by omega)]
      congr 1
      ring

theorem Counts.apply {n : Nat} {call : PageCall} (h : Counts s inode n)
    (hamount : call.amount < 2 ^ 22) (hn : n < 2 ^ 55) (hfits : call.count n < 2 ^ 55) :
    Counts (call.apply P inode s) inode (call.count n) ∧
      Reads (call.apply P inode s) inode (call.count n) := by
  have hlt := s.magic.isLt
  obtain ⟨hmagic, hpos⟩ := apply_pos P s inode hamount
  unfold Counts at h
  refine Counts.reads ?_
  rw [hpos, hmagic]
  cases call with
  | inc num =>
    simp only [PageCall.count, PageCall.amount] at hfits hamount ⊢
    rw [P.long_fits _ (by omega) (by omega)]
    push_cast
    omega
  | dec num =>
    simp only [PageCall.count, PageCall.amount] at hfits hamount ⊢
    have hdiv : base s inode / 256 = n := by omega
    rw [hdiv]
    by_cases hle : num ≤ n
    · rw [if_pos hle, if_neg (by omega), P.long_fits _ (by omega) (by omega)]
      omega
    · rw [if_neg hle, if_pos (by omega), h]

/-- A word that is set up with a negative byte counts one page less, from the first call on. -/
theorem not_reads_of_negative (hmagic : 128 ≤ s.magic.toNat)
    (h : s.mem.inodePos inode % 256 ≠ s.magic.toNat) {call : PageCall}
    (hamount : call.amount < 2 ^ 22) : ¬ Reads (call.apply P inode s) inode (call.count 0) := by
  intro hreads
  have hlt := s.magic.isLt
  have hbase : base s inode = s.magic.toNat - 256 := by
    unfold base
    rw [if_neg h, BitVec.toInt_eq_toNat_cond]
    split <;> omega
  have hcount := hreads.count
  unfold inodeGetDirtyPages at hcount
  rw [(apply_pos P s inode hamount).2, hbase] at hcount
  cases call with
  | inc num =>
    simp only [PageCall.count, PageCall.amount] at hcount hamount
    rw [P.long_fits _ (by omega) (by omega)] at hcount
    omega
  | dec num =>
    simp only [PageCall.count, PageCall.amount] at hcount hamount
    by_cases hzero : num = 0
    · subst hzero
      rw [if_neg (by omega), P.long_fits _ (by omega) (by omega)] at hcount
      simp at hcount
      omega
    · rw [if_pos (by omega)] at hcount
      split at hcount <;> omega

/-! ## Sequences of calls -/

/-- By induction on the calls: `n` is what they find. -/
theorem Counts.applyAll : ∀ {calls : List PageCall} {s : State} {n : Nat}, Counts s inode n →
    (∀ call ∈ calls, call.amount < 2 ^ 22) →
    (∀ done, done <+: calls → done.foldl PageCall.count n < 2 ^ 55) → calls ≠ [] →
    Reads (applyAll P inode s calls) inode (calls.foldl PageCall.count n) := by
  intro calls
  induction calls with
  | nil =>
    intro s n _ _ _ hne
    exact absurd rfl hne
  | cons call calls ih =>
    intro s n h hamount hfits _
    have hn : n < 2 ^ 55 := hfits [] (List.nil_prefix)
    have hnext : call.count n < 2 ^ 55 := hfits [call] (List.prefix_append [call] calls)
    obtain ⟨hcounts, hreads⟩ :=
      h.apply (P := P) (hamount call List.mem_cons_self) hn hnext
    by_cases hlast : calls = []
    · subst hlast
      exact hreads
    · refine ih hcounts (fun c hc => hamount c (List.mem_cons_of_mem call hc)) (fun done hdone => ?_) hlast
      exact hfits (call :: done) (List.cons_prefix_cons.mpr ⟨rfl, hdone⟩)

/-- What a call leaves fits a `long`. -/
theorem apply_lt (hP : P.IsLp64) (s : State) (inode : Nat) {call : PageCall}
    (hamount : call.amount < 2 ^ 22) (h : base s inode < 2 ^ 63) :
    (call.apply P inode s).mem.inodePos inode < 2 ^ 63 := by
  rw [(apply_pos P s inode hamount).2]
  cases call with
  | inc num => exact hP.long_lt _
  | dec num =>
    simp only
    split
    · exact h
    · exact hP.long_lt _

theorem base_lt (h : s.mem.inodePos inode % 256 = s.magic.toNat → s.mem.inodePos inode < 2 ^ 63) :
    base s inode < 2 ^ 63 := by
  have hlt := s.magic.isLt
  unfold base
  rw [BitVec.toInt_eq_toNat_cond]
  split
  · rename_i hown
    exact h hown
  · split <;> omega

theorem applyAll_lt (hP : P.IsLp64) : ∀ {calls : List PageCall} {s : State},
    (∀ call ∈ calls, call.amount < 2 ^ 22) → base s inode < 2 ^ 63 → calls ≠ [] →
    (applyAll P inode s calls).mem.inodePos inode < 2 ^ 63 := by
  intro calls
  induction calls with
  | nil =>
    intro s _ _ hne
    exact absurd rfl hne
  | cons call calls ih =>
    intro s hamount h _
    have hone := apply_lt hP s inode (hamount call List.mem_cons_self) h
    by_cases hlast : calls = []
    · subst hlast
      exact hone
    · exact ih (fun c hc => hamount c (List.mem_cons_of_mem call hc)) (base_lt fun _ => hone) hlast

/-- After every call the word reads as the counter, as long as a `long` has room for it, if and only if
the magic byte is not negative. -/
theorem dirty_counter_iff (hP : P.IsLp64) (s : State) (inode : Nat)
    (hforeign : s.mem.inodePos inode % 256 ≠ s.magic.toNat) (calls : List PageCall)
    (hamount : ∀ call ∈ calls, call.amount < 2 ^ 22) :
    (∀ done, done <+: calls → done ≠ [] → Reads (applyAll P inode s done) inode (countAll done)) ↔
      calls = [] ∨ s.magic.toNat < 128 ∧ ∀ done, done <+: calls → countAll done < 2 ^ 55 := by
  constructor
  · intro h
    by_cases hnil : calls = []
    · exact .inl hnil
    refine .inr ⟨?_, fun done hdone => ?_⟩
    · obtain ⟨call, rest, rfl⟩ := List.exists_cons_of_ne_nil hnil
      by_contra hmagic
      exact not_reads_of_negative (not_lt.mp hmagic) hforeign (hamount call List.mem_cons_self)
        (h [call] (List.prefix_append [call] rest) (List.cons_ne_nil call []))
    · by_cases hdone' : done = []
      · subst hdone'
        exact Nat.two_pow_pos 55
      · have hlt := applyAll_lt hP (fun c hc => hamount c (hdone.subset hc))
          (base_lt fun hown => absurd hown hforeign) hdone'
        have hcount := (h done hdone hdone').count
        unfold inodeGetDirtyPages at hcount
        omega
  · rintro (rfl | ⟨hmagic, hfits⟩) done hdone hne
    · exact absurd (List.prefix_nil.mp hdone) hne
    · refine (Counts.of_foreign hmagic hforeign).applyAll (fun c hc => hamount c (hdone.subset hc))
        (fun d hd => hfits d (hd.trans hdone)) hne

/-- Three calls, one of them refused. -/
theorem dirty_counter_iff_refused :
    Reads (applyAll .lp64 4 (deadlineInitQueue .lp64 sampleMem sampleEnv 7) [.inc 5, .dec 9, .dec 3]) 4
      (countAll [.inc 5, .dec 9, .dec 3]) := by
  have hall : ∀ d ∈ [PageCall.inc 5, .dec 9, .dec 3].inits, countAll d < 2 ^ 55 := by decide
  refine (dirty_counter_iff Platform.isLp64_lp64 (deadlineInitQueue .lp64 sampleMem sampleEnv 7) 4
    (by decide) [.inc 5, .dec 9, .dec 3] (by decide)).mpr (.inr ⟨by decide, fun done hdone => ?_⟩) _
    (List.prefix_refl _) (by decide)
  exact hall done ((List.mem_inits done _).mpr hdone)

/-- With the byte `0x80` the first dirty page is not counted, and the word of an inode that has none
reads -1. -/
theorem negative_magic_miscounts :
    let s := deadlineInitQueue .lp64 sampleMem sampleEnv 0x80
    s.mem.inodePos 4 % 256 ≠ s.magic.toNat ∧
      ¬ Reads (applyAll .lp64 4 s [.inc 1]) 4 (countAll [.inc 1]) ∧
      inodeGetDirtyPages (applyAll .lp64 4 s [.inc 1]) 4 = 0 ∧
      inodeGetDirtyPages (applyAll .lp64 4 s [.dec 1]) 4 = -1 :=
  ⟨by decide, fun h => absurd h.count (by decide), by decide, by decide⟩

end Deadline
end SplitSched
