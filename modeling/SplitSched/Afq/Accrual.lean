import SplitSched.Afq.Estimates

/-!
# SplitSched.Afq.Accrual

Cause lists that are dirtied, which charges the accounts they name, and issued, which moves the charge
into the batches.

* `Accrual`, `step`: the scheduler with the lists that were dirtied and how often each was issued.
* `estimate_conserved_iff`: along a run, `estimate` is `batch_estimate` plus the shares of the lists
  that are dirtied and not issued, exactly when no charge leaves the range of a `long` and no flush
  finds a `batch_estimate` above `2 ^ 31`.
* `pages_overflow_batch_estimate`: 1023 pages, dirtied at random and written in sequence, are enough.
-/

namespace SplitSched
namespace Afq

open CArith

variable {P : Platform} {s s' : State}

structure Accrual where
  afq : State
  /-- Lists that were passed to the dirty hook. -/
  dirtied : Finset Nat
  /-- How often a list was passed to `account_for_causes`. -/
  issues : Nat → Nat

namespace Accrual

def list (w : Accrual) (l : Nat) : CauseList := w.afq.mem.lists l

def init (s : State) : Accrual := ⟨s, ∅, fun _ => 0⟩

inductive Event where
  /-- Account `a` joins the list `l` of a buffer of `bSize` bytes, and the dirty hook is called. -/
  | dirty (q l : Nat) (a : Int) (bSize inode : Nat) (pos : Int)
  /-- The kernel builds a list in some other way. -/
  | prepare (l : Nat) (c : CauseList)
  | issue (l : Nat) (offset : Int) (size : Nat)

/-- A list is dirtied before it is issued, by an account that is not on it yet. Accounts join a
dirtied list in no other way, so the first one finds a list that is empty and has no cost. -/
def MayDirty (w : Accrual) (l : Nat) (a : Int) (bSize : Nat) : Prop :=
  w.issues l = 0 ∧ a ∉ (w.list l).items ∧ 0 < bSize ∧ bSize ≤ 4096 ∧
    (l ∈ w.dirtied ∨ ((w.list l).items = [] ∧ (w.list l).priv ≤ 0))

instance (w : Accrual) (l : Nat) (a : Int) (bSize : Nat) : Decidable (MayDirty w l a bSize) := by
  unfold MayDirty; infer_instance

/-- The list when account `a` has joined, as `__block_commit_write` hands it over. -/
def joined (q : Nat) (uniq : Int) (c : CauseList) (a : Int) (ha : a ∉ c.items) (bSize : Nat) :
    CauseList :=
  let c := setCauseListType (c.push a ha) .data
  if c.callbackQ = none then { c with callbackQ := some q, schedUniq := uniq, size := bSize } else c

def step (P : Platform) (w : Accrual) : Event → Option Accrual
  | .dirty q l a bSize inode pos =>
    if h : MayDirty w l a bSize then
      let c := joined q w.afq.mem.schedUniq (w.list l) a h.2.1 bSize
      (basicSchedCausesDirty P { w.afq with mem := w.afq.mem.setList l c } l a inode pos).map
        fun s => { w with afq := s, dirtied := insert l w.dirtied }
    else none
  | .prepare l c =>
    if l ∉ w.dirtied ∧ c.callbackQ = none then some { w with afq := w.afq.setList l c } else none
  | .issue l offset size =>
    if 0 < size ∧ size ≤ 4096 then
      (accountForCauses P w.afq l offset size).map fun s =>
        { w with afq := s, issues := Function.update w.issues l (w.issues l + 1) }
    else none

/-- Every estimate is what the batch was charged, plus the share of each list that names the account
and is dirtied and not issued. -/
def Conserved (w : Accrual) : Prop :=
  ∀ j, w.afq.estimate j = w.afq.batchEstimate j +
    ∑ l ∈ w.dirtied with w.issues l = 0 ∧ j ∈ (w.list l).items,
      (w.list l).priv.tdiv (w.list l).itemCount

/-- No charge takes an estimate out of the range of a `long`, and no flush has more to refund than an
`int` holds. -/
def Fits (P : Platform) (w : Accrual) : Event → Prop
  | .dirty _ l a bSize inode pos => ∀ j ∈ (w.list l).items ++ [a],
    w.afq.estimate j + dirtyCharge P (costWhenDirtied P w.afq.mem l bSize inode pos)
      ((w.list l).itemCount + 1) a j < 2 ^ 63
  | .prepare _ _ => True
  | .issue l offset size =>
    if Fills P w.afq l offset then
      ∀ j, w.afq.batchEstimate j +
        (if j ∈ (w.list l).items then issueShare (w.list l) size else 0) ≤ 2 ^ 31
    else (w.list l).callbackQ = none → ∀ j ∈ (w.list l).items,
      w.afq.estimate j + issueShare (w.list l) size < 2 ^ 63

/-! ### The balance -/

variable {w w' : Accrual} {e : Event} {l : Nat}

/-- What account `j` owes for the list `l`. -/
def due (w : Accrual) (l : Nat) (j : Int) : Int :=
  if w.issues l = 0 ∧ j ∈ (w.list l).items then (w.list l).priv.tdiv (w.list l).itemCount else 0

theorem conserved_iff : w.Conserved ↔
    ∀ j, w.afq.estimate j = w.afq.batchEstimate j + ∑ l ∈ w.dirtied, w.due l j := by
  simp only [Conserved, Finset.sum_filter, due]

/-- A list carries the callback while it is dirtied and not issued; then it has a cost. -/
structure Tagged (w : Accrual) : Prop where
  pending : ∀ l ∈ w.dirtied, w.issues l = 0 → (w.list l).callbackQ ≠ none ∧ 0 < (w.list l).priv ∧
    (w.list l).priv < 2 ^ 22 ∧ (w.list l).items ≠ [] ∧ (w.list l).schedUniq = w.afq.mem.schedUniq
  other : ∀ l, l ∉ w.dirtied ∨ w.issues l ≠ 0 → (w.list l).callbackQ = none

structure Balanced (w : Accrual) : Prop extends Tagged w where
  conserved : w.Conserved
  batch : ∀ j, 0 ≤ w.afq.batchEstimate j
  long : ∀ j, w.afq.estimate j < 2 ^ 63

theorem Tagged.due_nonneg (h : Tagged w) (hl : l ∈ w.dirtied) (j : Int) : 0 ≤ w.due l j := by
  rw [due]
  split
  · rename_i hd
    rw [(w.list l).count_eq]
    exact Int.tdiv_nonneg (h.pending l hl hd.1).2.1.le (Int.natCast_nonneg _)
  · exact le_refl 0

theorem Tagged.sum_nonneg (h : Tagged w) (j : Int) : 0 ≤ ∑ l ∈ w.dirtied, w.due l j :=
  Finset.sum_nonneg fun _ hl => h.due_nonneg hl j

/-- From `w` to `w'` only the list `l` was worked on. -/
structure ChangesAt (l : Nat) (w w' : Accrual) : Prop where
  list : ∀ l', l' ≠ l → w'.list l' = w.list l'
  issues : ∀ l', l' ≠ l → w'.issues l' = w.issues l'
  dirtied : ∀ l', l' ≠ l → (l' ∈ w'.dirtied ↔ l' ∈ w.dirtied)
  uniq : w'.afq.mem.schedUniq = w.afq.mem.schedUniq

/-- What the accounts owe for `l` while it counts as dirtied. -/
def owed (w : Accrual) (l : Nat) (j : Int) : Int := if l ∈ w.dirtied then w.due l j else 0

theorem ChangesAt.sum (h : ChangesAt l w w') (j : Int) :
    ∑ l' ∈ w'.dirtied, w'.due l' j = ∑ l' ∈ w.dirtied, w.due l' j + (w'.owed l j - w.owed l j) :=
  sum_change h.dirtied fun l' hl => by simp only [due, h.list l' hl, h.issues l' hl]

theorem ChangesAt.tagged (h : ChangesAt l w w') (ht : Tagged w)
    (hpending : l ∈ w'.dirtied → w'.issues l = 0 → (w'.list l).callbackQ ≠ none ∧
      0 < (w'.list l).priv ∧ (w'.list l).priv < 2 ^ 22 ∧ (w'.list l).items ≠ [] ∧
      (w'.list l).schedUniq = w'.afq.mem.schedUniq)
    (hother : l ∉ w'.dirtied ∨ w'.issues l ≠ 0 → (w'.list l).callbackQ = none) : Tagged w' := by
  refine ⟨fun l' hl' hi => ?_, fun l' hor => ?_⟩
  · by_cases hl : l' = l
    · subst hl
      exact hpending hl' hi
    · rw [h.list l' hl, h.uniq]
      exact ht.pending l' ((h.dirtied l' hl).mp hl') (h.issues l' hl ▸ hi)
  · by_cases hl : l' = l
    · subst hl
      exact hother hor
    · rw [h.list l' hl]
      rw [h.issues l' hl, h.dirtied l' hl] at hor
      exact ht.other l' hor

/-! ### Dirtying -/

theorem joined_spec (q : Nat) (uniq : Int) (c : CauseList) (a : Int) (ha : a ∉ c.items)
    (bSize : Nat) :
    (joined q uniq c a ha bSize).items = c.items ++ [a] ∧
    (joined q uniq c a ha bSize).priv = c.priv ∧
    (joined q uniq c a ha bSize).callbackQ ≠ none ∧
    (joined q uniq c a ha bSize).schedUniq = (if c.callbackQ = none then uniq else c.schedUniq) ∧
    (joined q uniq c a ha bSize).size = if c.callbackQ = none then bSize else c.size := by
  by_cases hq : c.callbackQ = none
  · simp [joined, setCauseListType, CauseList.push, hq]
  · simp [joined, setCauseListType, CauseList.push, hq]

/-- Each account on the list pays its new share, less the one it already paid. -/
theorem dirtyCharge_eq {cost : Int} (h0 : 0 ≤ cost) (h1 : cost < 2 ^ 31) (n : Nat) (a j : Int) :
    dirtyCharge P cost (n + 1) a j =
      safeDiv cost (n + 1) - if j = a then 0 else safeDiv cost n := by
  have hshare : P.int (safeDiv cost (n + 1)) = safeDiv cost (n + 1) := by
    exact_mod_cast int_share (n := n + 1) h0 h1
  have hsub : P.int (safeDiv cost (n + 1) - safeDiv cost n) =
      safeDiv cost (n + 1) - safeDiv cost n := by
    exact_mod_cast int_share_sub (n := n + 1) (k := n) h0 h1
  simp only [dirtyCharge, hshare, add_sub_cancel_right, hsub, ne_eq, ite_not]
  split <;> simp

section Dirty

variable {q : Nat} {a : Int} {bSize inode : Nat} {pos : Int}
  (ht : Tagged w) (h : step P w (.dirty q l a bSize inode pos) = some w')

include h

theorem mayDirty_of_step : MayDirty w l a bSize := by
  simp only [step] at h
  split at h
  · assumption
  · cases h

theorem step_dirty_eq : w'.dirtied = insert l w.dirtied ∧ w'.issues = w.issues ∧
    w'.afq.batchEstimate = w.afq.batchEstimate := by
  simp only [step] at h
  split at h
  · obtain ⟨t, ht, rfl⟩ := Option.map_eq_some_iff.mp h
    refine ⟨rfl, rfl, funext fun j => ?_⟩
    simp only [basicSchedCausesDirty] at ht
    have hval := chargeAll_val (φ := fun _ b => b) (g := fun a => a.batchEstimate) (d := 0)
      (fun _ _ _ => rfl) (fun _ _ _ _ ha => (newAccount_some ha).2.2.2) (fun _ _ => rfl)
      (CauseList.nodup _) ht j
    rw [ite_self] at hval
    exact hval
  · cases h

include ht

/-- A list that is dirtied for the first time is empty and has no cost. -/
theorem fresh_of_not_dirtied (hl : l ∉ w.dirtied) :
    (w.list l).items = [] ∧ (w.list l).priv ≤ 0 ∧ (w.list l).callbackQ = none := by
  have hfresh := (mayDirty_of_step h).2.2.2.2.resolve_left hl
  exact ⟨hfresh.1, hfresh.2, ht.other l (.inl hl)⟩

theorem step_dirty_joins :
    Joins P w.afq.mem w'.afq.mem w.afq.estimate w'.afq.estimate l a bSize inode pos := by
  have hmay := mayDirty_of_step h
  obtain ⟨hitems, hpriv, hcq, huniq, hsize⟩ :=
    joined_spec q w.afq.mem.schedUniq (w.list l) a hmay.2.1 bSize
  have hu : (joined q w.afq.mem.schedUniq (w.list l) a hmay.2.1 bSize).schedUniq =
      w.afq.mem.schedUniq := by
    rw [huniq]
    by_cases hl : l ∈ w.dirtied
    · rw [if_neg (ht.pending l hl hmay.1).1]
      exact (ht.pending l hl hmay.1).2.2.2.2
    · rw [if_pos (ht.other l (.inl hl))]
  simp only [step, hmay, dite_true] at h
  obtain ⟨t, ht, rfl⟩ := Option.map_eq_some_iff.mp h
  exact basicSchedCausesDirty_joins hitems hpriv hcq hsize hu ht

theorem cost_bounds : 0 < costWhenDirtied P w.afq.mem l bSize inode pos ∧
    costWhenDirtied P w.afq.mem l bSize inode pos < 2 ^ 22 := by
  have hmay := mayDirty_of_step h
  rw [costWhenDirtied]
  by_cases hl : l ∈ w.dirtied
  · obtain ⟨-, hpos, hlt, -⟩ := ht.pending l hl hmay.1
    rw [list] at hpos hlt
    rw [if_neg (by omega)]
    exact ⟨hpos, hlt⟩
  · obtain ⟨-, hp, hq⟩ := fresh_of_not_dirtied ht h hl
    rw [list] at hp hq
    have hseek := seekTime_nonneg pos (inodeGetPos w.afq.mem inode)
    have hcap : seekTime pos (inodeGetPos w.afq.mem inode) ≤ 2 ^ 21 := seekTime_le _ _
    obtain ⟨-, -, hsize, hsize', -⟩ := hmay
    rw [if_pos hp, if_pos hq, P.long_fits _ (by omega) (by omega)]
    omega

theorem dirty_changesAt : ChangesAt l w w' := by
  have hj := step_dirty_joins ht h
  obtain ⟨hd, hi, -⟩ := step_dirty_eq h
  exact ⟨hj.others, fun _ _ => by rw [hi], fun l' hl => by simp [hd, hl], hj.uniq⟩

theorem dirty_tagged : Tagged w' := by
  have hj := step_dirty_joins ht h
  have hmay := mayDirty_of_step h
  obtain ⟨hd, hi, -⟩ := step_dirty_eq h
  obtain ⟨hpos, hlt⟩ := cost_bounds ht h
  refine (dirty_changesAt ht h).tagged ht (fun _ _ => ⟨hj.callbackQ, ?_, ?_, ?_, ?_⟩) ?_
  · rw [list, hj.priv]
    exact hpos
  · rw [list, hj.priv]
    exact hlt
  · rw [list, hj.items]
    simp
  · exact hj.schedUniq.trans hj.uniq.symm
  · rintro (hn | hn)
    · simp [hd] at hn
    · rw [hi] at hn
      exact absurd hmay.1 hn

/-- What the accounts owe for the list grows by what they are charged. -/
theorem dirty_owed (j : Int) : w'.owed l j - w.owed l j =
    if j ∈ (w.list l).items ++ [a] then
      dirtyCharge P (costWhenDirtied P w.afq.mem l bSize inode pos) ((w.list l).itemCount + 1) a j
    else 0 := by
  have hj := step_dirty_joins ht h
  have hmay := mayDirty_of_step h
  have ha := hmay.2.1
  obtain ⟨hd, hi, -⟩ := step_dirty_eq h
  obtain ⟨hpos, hlt⟩ := cost_bounds ht h
  generalize hc : costWhenDirtied P w.afq.mem l bSize inode pos = cost at *
  have hcount : (w'.list l).itemCount = (w.list l).items.length + 1 := by
    rw [list, CauseList.itemCount_append hj.items, CauseList.count_eq]
    rfl
  have hnew : w'.owed l j = if j ∈ (w.list l).items ++ [a] then
      safeDiv cost ((w.list l).items.length + 1) else 0 := by
    have hne : ((w.list l).items.length + 1 : Int) ≠ 0 := by omega
    have hitems : (w'.list l).items = (w.list l).items ++ [a] := hj.items
    have hpriv : (w'.list l).priv = cost := hj.priv.trans hc
    have hzero : w'.issues l = 0 := hi ▸ hmay.1
    rw [owed, if_pos (by simp [hd]), due, hcount, hitems, hpriv, safeDiv, if_neg hne]
    simp only [hzero, true_and]
  have hold : w.owed l j = if j ∈ (w.list l).items then
      safeDiv cost (w.list l).items.length else 0 := by
    rw [owed]
    by_cases hl : l ∈ w.dirtied
    · have hsame : cost = (w.list l).priv := by
        have hpriv := (ht.pending l hl hmay.1).2.1
        rw [list] at hpriv
        rw [← hc, costWhenDirtied, if_neg (by omega)]
        rfl
      rw [if_pos hl, due, hsame, (w.list l).count_eq]
      simp only [hmay.1, true_and]
      by_cases hmem : j ∈ (w.list l).items
      · have hne : ((w.list l).items.length : Int) ≠ 0 := by
          have := List.length_pos_of_mem hmem
          omega
        rw [if_pos hmem, if_pos hmem, safeDiv, if_neg hne]
      · rw [if_neg hmem, if_neg hmem]
    · simp [hl, (fresh_of_not_dirtied ht h hl).1]
  rw [hnew, hold, (w.list l).count_eq, dirtyCharge_eq (P := P) hpos.le (by omega)]
  by_cases hja : j = a
  · subst hja
    simp [ha]
  · by_cases hmem : j ∈ (w.list l).items <;> simp [hja, hmem]

end Dirty

theorem dirty_conserved_iff {q : Nat} {a : Int} {bSize inode : Nat} {pos : Int} (hP : P.IsLp64)
    (hb : Balanced w) (h : step P w (.dirty q l a bSize inode pos) = some w') :
    w'.Conserved ↔ w.Fits P (.dirty q l a bSize inode pos) := by
  rw [conserved_iff, Fits]
  refine forall_congr' fun j => ?_
  have hsum := (dirty_changesAt hb.toTagged h).sum j
  have hnonneg := (dirty_tagged hb.toTagged h).sum_nonneg j
  have hest : w'.afq.estimate j = if j ∈ (w.list l).items ++ [a] then
      P.long (w.afq.estimate j + dirtyCharge P (costWhenDirtied P w.afq.mem l bSize inode pos)
        ((w.list l).itemCount + 1) a j) else w.afq.estimate j :=
    (step_dirty_joins hb.toTagged h).estimate j
  have hbj := hb.batch j
  have hold := conserved_iff.mp hb.conserved j
  rw [dirty_owed hb.toTagged h] at hsum
  rw [hest, (step_dirty_eq h).2.2]
  by_cases hjm : j ∈ (w.list l).items ++ [a]
  · rw [if_pos hjm] at hsum ⊢
    rw [hsum, ← add_assoc, ← hold, hP.long_eq_iff (by omega)]
    exact ⟨fun hlt _ => hlt, fun hfits => hfits hjm⟩
  · rw [if_neg hjm] at hsum ⊢
    exact ⟨fun _ hmem => absurd hmem hjm, fun _ => by omega⟩

theorem dirty_long {q : Nat} {a : Int} {bSize inode : Nat} {pos : Int} (hP : P.IsLp64)
    (hb : Balanced w) (h : step P w (.dirty q l a bSize inode pos) = some w') (j : Int) :
    w'.afq.estimate j < 2 ^ 63 := by
  rw [(step_dirty_joins hb.toTagged h).estimate j]
  split
  · exact hP.long_lt _
  · exact hb.long j

/-! ### Issuing -/

section Issue

variable {offset : Int} {size : Nat}

theorem issueShare_bounds (ht : Tagged w) (hs : size ≤ 4096) :
    0 ≤ issueShare (w.list l) size ∧ issueShare (w.list l) size < 2 ^ 22 := by
  have hcount : 0 ≤ (w.list l).itemCount := by
    rw [(w.list l).count_eq]
    exact Int.natCast_nonneg _
  rw [issueShare]
  split
  · have hle := safeDiv_le (w.list l).itemCount (Int.natCast_nonneg size)
    exact ⟨safeDiv_nonneg (Int.natCast_nonneg _) hcount, by omega⟩
  · rename_i hq
    have hor := mt (ht.other l) hq
    push Not at hor
    obtain ⟨-, hpos, hlt, -⟩ := ht.pending l hor.1 hor.2
    have hle := safeDiv_le (w.list l).itemCount hpos.le
    exact ⟨safeDiv_nonneg hpos.le hcount, by omega⟩

/-- What is owed for a list that is about to be issued: a share, if it was dirtied. -/
theorem Tagged.owed_eq (ht : Tagged w) (l : Nat) (size : Nat) (j : Int) : w.owed l j =
    if (w.list l).callbackQ ≠ none ∧ j ∈ (w.list l).items then issueShare (w.list l) size
    else 0 := by
  by_cases hq : (w.list l).callbackQ = none
  · have hno : ¬ (l ∈ w.dirtied ∧ w.issues l = 0) := fun hl => (ht.pending l hl.1 hl.2).1 hq
    rw [if_neg fun hc => hc.1 hq, owed, due]
    split_ifs with h₁ h₂
    · exact absurd ⟨h₁, h₂.1⟩ hno
    · rfl
    · rfl
  · have hor := mt (ht.other l) hq
    push Not at hor
    rw [owed, if_pos hor.1, due]
    by_cases hmem : j ∈ (w.list l).items
    · have hne : (w.list l).itemCount ≠ 0 := by
        have := List.length_pos_of_mem hmem
        rw [(w.list l).count_eq]
        omega
      rw [if_pos ⟨hor.2, hmem⟩, if_pos ⟨hq, hmem⟩, issueShare, if_neg hq, safeDiv, if_neg hne]
    · rw [if_neg fun hc => hmem hc.2, if_neg fun hc => hmem hc.2]

variable (h : step P w (.issue l offset size) = some w')

include h

theorem step_issue : size ≤ 4096 ∧ accountForCauses P w.afq l offset size = some w'.afq ∧
    w'.dirtied = w.dirtied ∧ w'.issues = Function.update w.issues l (w.issues l + 1) := by
  simp only [step] at h
  split at h
  · rename_i hs
    obtain ⟨t, ht, rfl⟩ := Option.map_eq_some_iff.mp h
    exact ⟨hs.2, ht, rfl, rfl⟩
  · cases h

theorem issue_changesAt : ChangesAt l w w' := by
  obtain ⟨hs, hacc, hd, hi⟩ := step_issue h
  have hmem := accountForCauses_mem hs hacc
  refine ⟨fun l' hl => ?_, fun l' hl => ?_, fun l' _ => by rw [hd], by rw [hmem]; rfl⟩
  · rw [list, hmem]
    exact Mem.setList_lists_of_ne _ _ hl
  · rw [hi, Function.update_of_ne hl]

theorem issue_tagged (ht : Tagged w) : Tagged w' := by
  obtain ⟨hs, hacc, hd, hi⟩ := step_issue h
  refine (issue_changesAt h).tagged ht (fun _ hz => ?_) fun _ => ?_
  · rw [hi, Function.update_self] at hz
    omega
  · rw [list, accountForCauses_mem hs hacc, Mem.setList_lists_self]
    rfl

/-- A list that is issued is not owed for any more. -/
theorem issue_sum (ht : Tagged w) (j : Int) :
    ∑ l' ∈ w'.dirtied, w'.due l' j = ∑ l' ∈ w.dirtied, w.due l' j -
      if (w.list l).callbackQ ≠ none ∧ j ∈ (w.list l).items then issueShare (w.list l) size
      else 0 := by
  obtain ⟨-, -, -, hi⟩ := step_issue h
  have hnew : w'.owed l j = 0 := by simp [owed, due, hi]
  rw [(issue_changesAt h).sum, hnew, ht.owed_eq l size j]
  ring

theorem issue_books (ht : Tagged w) (j : Int) :
    (w'.afq.estimate j, w'.afq.batchEstimate j) =
      let b := (if (w.list l).callbackQ = none ∧ j ∈ (w.list l).items then
          P.long (w.afq.estimate j + issueShare (w.list l) size) else w.afq.estimate j,
        if j ∈ (w.list l).items then
          P.ulong (w.afq.batchEstimate j + issueShare (w.list l) size) else w.afq.batchEstimate j)
      if Fills P w.afq l offset then settle P b else b := by
  obtain ⟨hs, hacc, -, -⟩ := step_issue h
  have hcost : (w.list l).callbackQ ≠ none → 0 ≤ (w.list l).priv ∧ (w.list l).priv < 2 ^ 31 := by
    intro hq
    have hor := mt (ht.other l) hq
    push Not at hor
    obtain ⟨-, hpos, hlt, -⟩ := ht.pending l hor.1 hor.2
    omega
  simp only [estimate_eq_books, batchEstimate_eq_books]
  exact accountForCauses_books hs hcost hacc j

theorem issue_conserved_iff (hP : P.IsLp64) (hb : Balanced w) :
    w'.Conserved ↔ w.Fits P (.issue l offset size) := by
  obtain ⟨hs, -⟩ := step_issue h
  obtain ⟨hsh, hsh'⟩ := issueShare_bounds (l := l) hb.toTagged hs
  have hat : ∀ j, (w'.afq.estimate j = w'.afq.batchEstimate j + ∑ l ∈ w'.dirtied, w'.due l j) ↔
      if Fills P w.afq l offset then w.afq.batchEstimate j +
        (if j ∈ (w.list l).items then issueShare (w.list l) size else 0) ≤ 2 ^ 31
      else (w.list l).callbackQ = none → j ∈ (w.list l).items →
        w.afq.estimate j + issueShare (w.list l) size < 2 ^ 63 := by
    intro j
    have hbooks := issue_books h hb.toTagged j
    have hsum := issue_sum h hb.toTagged j
    have hnonneg := (issue_tagged h hb.toTagged).sum_nonneg j
    have hold := conserved_iff.mp hb.conserved j
    have hbj := hb.batch j
    have hej := hb.long j
    generalize issueShare (w.list l) size = share at *
    generalize ∑ l ∈ w'.dirtied, w'.due l j = rest at *
    generalize ∑ l ∈ w.dirtied, w.due l j = total at *
    by_cases hmem : j ∈ (w.list l).items
    · have hin : P.ulong (w.afq.batchEstimate j + share) = w.afq.batchEstimate j + share :=
        P.ulong_fits _ (by omega) (by omega)
      simp only [hmem, and_true, if_true, hin] at hbooks hsum ⊢
      by_cases hq : (w.list l).callbackQ = none
      · simp only [hq, ne_eq, not_true_eq_false, if_false, sub_zero, if_true] at hbooks hsum
        -- charged now: exact up to the width of a `long`
        have hexact : w.afq.estimate j + share = rest + (w.afq.batchEstimate j + share) := by omega
        by_cases hfill : Fills P w.afq l offset
        · simp only [hfill, if_true] at hbooks ⊢
          refine (settle_balance_iff hP (fun y => ?_) hbooks) ⟨hnonneg, by omega⟩ ⟨by omega, by omega⟩
          rw [P.long_add, hexact]
        · simp only [hfill, if_false] at hbooks ⊢
          obtain ⟨he, hbt⟩ := Prod.mk.inj hbooks
          rw [he, hbt, add_comm _ rest, ← hexact, hP.long_eq_iff (by omega)]
          exact ⟨fun hlt _ _ => hlt, fun hlt => hlt hq trivial⟩
      · simp only [hq, ne_eq, not_false_eq_true, if_true, if_false] at hbooks hsum
        -- charged when it was dirtied
        have hexact : w.afq.estimate j = rest + (w.afq.batchEstimate j + share) := by omega
        by_cases hfill : Fills P w.afq l offset
        · simp only [hfill, if_true] at hbooks ⊢
          exact settle_balance_iff hP (fun y => by rw [hexact]) hbooks ⟨hnonneg, by omega⟩
            ⟨by omega, by omega⟩
        · simp only [hfill, if_false] at hbooks ⊢
          obtain ⟨he, hbt⟩ := Prod.mk.inj hbooks
          exact ⟨fun _ hn => absurd hn hq, fun _ => by omega⟩
    · simp only [hmem, and_false, if_false, sub_zero, add_zero] at hbooks hsum ⊢
      have hexact : w.afq.estimate j = rest + w.afq.batchEstimate j := by omega
      by_cases hfill : Fills P w.afq l offset
      · simp only [hfill, if_true] at hbooks ⊢
        exact settle_balance_iff hP (fun y => by rw [hexact]) hbooks ⟨hnonneg, by omega⟩
          ⟨by omega, by omega⟩
      · simp only [hfill, if_false] at hbooks ⊢
        obtain ⟨he, hbt⟩ := Prod.mk.inj hbooks
        exact ⟨fun _ _ hn => hn.elim, fun _ => by omega⟩
  rw [conserved_iff, Fits]
  split
  · rename_i hfill
    simp only [hat, hfill, if_true]
  · rename_i hfill
    simp only [hat, hfill, if_false]
    exact ⟨fun hall hq j => hall j hq, fun hall j hq => hall hq j⟩

/-- Whatever is lost, the counters stay in the ranges of their types. -/
theorem issue_ranges (hP : P.IsLp64) (hb : Balanced w) (j : Int) :
    0 ≤ w'.afq.batchEstimate j ∧ w'.afq.estimate j < 2 ^ 63 := by
  have hbooks := issue_books h hb.toTagged j
  have hest := hb.long j
  have hbatch := hb.batch j
  simp only [settle] at hbooks
  split at hbooks
  · obtain ⟨he, hbt⟩ := Prod.mk.inj hbooks
    exact ⟨hbt.ge, he ▸ hP.long_lt _⟩
  · obtain ⟨he, hbt⟩ := Prod.mk.inj hbooks
    rw [he, hbt]
    constructor
    · split
      · exact hP.ulong_nonneg _
      · exact hbatch
    · split
      · exact hP.long_lt _
      · exact hest

end Issue

/-! ### The other steps -/

theorem prepare_balanced {c : CauseList} (hb : Balanced w) (h : step P w (.prepare l c) = some w') :
    Balanced w' := by
  simp only [step] at h
  split at h
  · rename_i hg
    cases h
    have hc : ChangesAt l w { w with afq := w.afq.setList l c } :=
      ⟨fun l' hl => Mem.setList_lists_of_ne _ _ hl, fun _ _ => rfl, fun _ _ => Iff.rfl, rfl⟩
    have ht := hc.tagged hb.toTagged (fun hl => absurd hl hg.1)
      (fun _ => by simpa [list, State.setList] using hg.2)
    refine ⟨ht, conserved_iff.mpr fun j => ?_, hb.batch, hb.long⟩
    have hsum := hc.sum j
    simp only [owed, hg.1, if_false, sub_self, add_zero] at hsum
    rw [hsum]
    exact conserved_iff.mp hb.conserved j
  · cases h

theorem step_conserved_iff (hP : P.IsLp64) (hb : Balanced w) (h : step P w e = some w') :
    w'.Conserved ↔ w.Fits P e := by
  cases e with
  | dirty q l a bSize inode pos => exact dirty_conserved_iff hP hb h
  | prepare l c => exact iff_of_true (prepare_balanced hb h).conserved trivial
  | issue l offset size => exact issue_conserved_iff h hP hb

theorem step_balanced (hP : P.IsLp64) (hb : Balanced w) (h : step P w e = some w')
    (hc : w'.Conserved) : Balanced w' := by
  cases e with
  | dirty q l a bSize inode pos =>
    exact ⟨dirty_tagged hb.toTagged h, hc, (step_dirty_eq h).2.2 ▸ hb.batch, dirty_long hP hb h⟩
  | prepare l c => exact prepare_balanced hb h
  | issue l offset size =>
    exact ⟨issue_tagged h hb.toTagged, hc, fun j => (issue_ranges h hP hb j).1,
      fun j => (issue_ranges h hP hb j).2⟩

theorem init_balanced {m : Mem} {env : Env} (hfresh : ∀ l, (m.lists l).callbackQ = none)
    (h : basicSchedInitData P m env = some s) : Balanced (init s) := by
  have hmem := (basicSchedInitData_fresh h).1
  have hbooks : ∀ j, s.estimate j = 0 ∧ s.batchEstimate j = 0 := by
    intro j
    simp only [basicSchedInitData] at h
    split at h
    · cases h
      exact ⟨rfl, rfl⟩
    · cases h
  refine ⟨⟨by simp [init], fun l _ => ?_⟩, fun j => ?_, fun j => ?_, fun j => ?_⟩
  · simpa [init, list, hmem] using hfresh l
  · simp [init, hbooks j]
  · simp [init, hbooks j]
  · simp [init, hbooks j]

/-- Along a run of a fresh instance every estimate is what the batches were charged plus what is owed
for the lists in between, exactly when every step fits: no charge leaves the range of a `long`, and no
flush finds more than `2 ^ 31` in an account's `batch_estimate`. -/
theorem estimate_conserved_iff (P : Platform) (m : Mem) (env : Env) (s : State) (es : List Event)
    (w : Accrual) (hP : P.IsLp64) (hfresh : ∀ l, (m.lists l).callbackQ = none)
    (h0 : basicSchedInitData P m env = some s) (hr : run (step P) (init s) es = some w) :
    Always (step P) Conserved (init s) es ↔ Meets (step P) (Fits P) (init s) es :=
  always_iff_meets (I := Balanced)
    (fun _ _ _ hs hc hI => step_balanced hP hI hs ((step_conserved_iff hP hI hs).mpr hc))
    (fun _ hI => hI.conserved) (fun _ _ _ hs hc hI => mt (step_conserved_iff hP hI hs).mp hc) hr
    (init_balanced hfresh h0)

/-- Two accounts dirty one list, which is then issued. -/
theorem estimate_conserved_two_accounts :
    ∃ s w, basicSchedInitData .lp64 sampleMem sampleEnv = some s ∧
      run (step .lp64) (init s)
        [.dirty 0 0 7 4096 0 8192, .dirty 0 0 8 4096 0 8192, .issue 0 0 4096] = some w ∧
      (Always (step .lp64) Conserved (init s)
        [.dirty 0 0 7 4096 0 8192, .dirty 0 0 8 4096 0 8192, .issue 0 0 4096] ↔
      Meets (step .lp64) (Fits .lp64) (init s)
        [.dirty 0 0 7 4096 0 8192, .dirty 0 0 8 4096 0 8192, .issue 0 0 4096]) := by
  have h : ((basicSchedInitData .lp64 sampleMem sampleEnv).bind fun s => run (step .lp64) (init s)
      [.dirty 0 0 7 4096 0 8192, .dirty 0 0 8 4096 0 8192, .issue 0 0 4096]).isSome = true := by
    decide +kernel
  obtain ⟨w, hw⟩ := Option.isSome_iff_exists.mp h
  obtain ⟨s, hs, hr⟩ := Option.bind_eq_some_iff.mp hw
  exact ⟨s, w, hs, hr, estimate_conserved_iff .lp64 sampleMem sampleEnv s _ w Platform.isLp64_lp64
    (fun _ => rfl) hs hr⟩

/-! ### Random pages, written in sequence -/

/-- `n` pages in a row are in the batch, as one entry. -/
structure Sequential (n : Nat) (b : IoBatch) : Prop where
  capacity : b.reqsCapacity = batchSize
  bytesCap : b.bytesCap = batchByteCap
  bytes : b.bytes = 4096 * n
  reqs : b.reqs = if n = 0 then [] else [⟨0, 4096 * n⟩]

/-- `n` pages in a row, and `k` single ones. -/
structure Spread (n k : Nat) (b : IoBatch) : Prop where
  capacity : b.reqsCapacity = batchSize
  bytesCap : b.bytesCap = batchByteCap
  bytes : b.bytes = 4096 * (n + k)
  length : b.reqs.length = k + 1
  last : ∃ r, b.reqs.getLast? = some r ∧ r.offset + r.size < 2 ^ 40 + 8192 * k

section Shapes

variable {n k : Nat} {b : IoBatch}

theorem Sequential.add (h : Sequential n b) (hn : n + 1 < 8192) :
    Sequential (n + 1) (iobatchAddRequest P b (4096 * n) 4096).2 ∧
      iobatchFull (iobatchAddRequest P b (4096 * n) 4096).2 = false := by
  have hfull : iobatchFull b = false := by
    rw [IoBatch.full_eq_false, h.capacity, h.bytesCap, h.bytes, h.reqs]
    constructor
    · split <;> simp [batchSize]
    · simp only [batchByteCap, mb, kb]
      omega
  have hseq : Sequential (n + 1) (iobatchAddRequest P b (4096 * n) 4096).2 := by
    obtain ⟨hcap, hbcap⟩ := IoBatch.add_caps P b (4096 * n) 4096
    obtain ⟨hbytes, -, -⟩ := IoBatch.add_accepted P (4096 * n) 4096 hfull
    refine ⟨hcap.trans h.capacity, hbcap.trans h.bytesCap, ?_, ?_⟩
    · rw [hbytes, h.bytes, P.ulong_fits _ (by omega) (by omega)]
      push_cast
      ring
    · simp only [iobatchAddRequest, hfull, Bool.false_eq_true, if_false, h.reqs]
      by_cases hz : n = 0
      · subst hz
        simp [IoBatch.append, h.reqs]
      · have hint : P.int (4096 * n + 4096) = 4096 * n + 4096 := P.int_fits _ (by omega) (by omega)
        simp [hz, hint, mul_add]
  refine ⟨hseq, ?_⟩
  rw [IoBatch.full_eq_false, hseq.capacity, hseq.bytesCap, hseq.bytes, hseq.reqs]
  constructor
  · simp [batchSize]
  · simp only [batchByteCap, mb, kb]
    push_cast
    omega

theorem Sequential.spread (h : Sequential n b) (h0 : 0 < n) (hn : n < 8192) : Spread n 0 b := by
  have hreqs : b.reqs = [⟨0, 4096 * n⟩] := by rw [h.reqs, if_neg (by omega)]
  exact ⟨h.capacity, h.bytesCap, by rw [h.bytes]; simp, by simp [hreqs],
    ⟨⟨0, 4096 * n⟩, by rw [hreqs]; rfl, by simp only; omega⟩⟩

theorem Spread.add (h : Spread n k b) (hn : n + k + 1 < 8192) (hk : k < 63) :
    Spread n (k + 1) (iobatchAddRequest P b (2 ^ 40 + 8192 * k) 4096).2 ∧
      iobatchFull (iobatchAddRequest P b (2 ^ 40 + 8192 * k) 4096).2 = decide (k = 62) := by
  have hfull : iobatchFull b = false := by
    rw [IoBatch.full_eq_false, h.capacity, h.bytesCap, h.bytes, h.length]
    simp only [batchSize, batchByteCap, mb, kb]
    omega
  obtain ⟨r, hlast, hr⟩ := h.last
  have hadd : (iobatchAddRequest P b (2 ^ 40 + 8192 * k) 4096).2 =
      b.append P (2 ^ 40 + 8192 * k) 4096 := by
    simp only [iobatchAddRequest, hfull, Bool.false_eq_true, if_false, hlast]
    rw [if_neg (by omega)]
  have hspread : Spread n (k + 1) (iobatchAddRequest P b (2 ^ 40 + 8192 * k) 4096).2 := by
    rw [hadd]
    refine ⟨h.capacity, h.bytesCap, ?_, by simp [IoBatch.append, h.length],
      ⟨_, List.getLast?_concat, ?_⟩⟩
    · simp only [IoBatch.append, h.bytes]
      rw [P.ulong_fits _ (by omega) (by omega)]
      push_cast
      ring
    · simp only
      push_cast
      omega
  refine ⟨hspread, ?_⟩
  simp only [iobatchFull, hspread.capacity, hspread.bytesCap, hspread.bytes, hspread.length,
    batchSize, batchByteCap, mb, kb]
  have hbytes : ¬ (32 * (1024 * 1024) : Int) ≤ 4096 * (n + (k + 1 : Nat)) := by
    push_cast
    omega
  rw [decide_eq_false hbytes, Bool.or_false]
  exact decide_eq_decide.mpr (by omega)

end Shapes

/-- A call that fills no batch leaves all batches with the extent added. -/
theorem accountForCauses_batchSet {size : Nat} {offset : Int} (hs : size ≤ 4096)
    (hfill : ¬ Fills P s l offset) (h : accountForCauses P s l offset size = some s') :
    s'.batchSet P = (s.batchSet P).add P (s.mem.lists l).items offset
      (P.int (s.mem.lists l).size) := by
  rw [accountForCauses_eq] at h
  obtain ⟨t, ht, h⟩ := Option.bind_eq_some_iff.mp h
  obtain ⟨hmem, hbatch, -⟩ := chargeCauses_spec hs ht
  have hlist : t.mem.lists l = issued (s.mem.lists l) size := by rw [hmem, Mem.setList_lists_self]
  obtain ⟨⟨full, u⟩, hu, rfl⟩ := doDiskAccounting_cases h
  have hadd := batchedFor_batchSet (t.mem.lists l).nodup hu
  have hfull := batchedFor_full (t.mem.lists l).nodup hu
  rw [hadd, hbatch, hlist] at hfull
  have hno : full = false := by
    cases full with
    | false => rfl
    | true => exact absurd hfull.symm hfill
  rw [hno, if_neg Bool.false_ne_true, hadd, hbatch, hlist]
  rfl

/-- Account 7 has dirtied the first `n` pages of a file at random, and they were written in
sequence. -/
structure Pages (P : Platform) (n : Nat) (w : Accrual) : Prop where
  balanced : Balanced w
  plenty : w.afq.env.Plenty
  unused : ∀ l, n ≤ l → w.list l = .new ∧ w.issues l = 0 ∧ l ∉ w.dirtied
  inode : w.afq.mem.inodePos 0 ≤ n * 2 ^ 22 + 4096
  estimate : w.afq.estimate 7 = n * 2101248
  batchEstimate : w.afq.batchEstimate 7 = n * 2101248
  whole : Sequential n (w.afq.batchSet P).whole
  acct : Sequential n ((w.afq.batchSet P).acct 7)
  first : 0 < n → (w.list 0).items = [7] ∧ (w.list 0).callbackQ = none ∧ (w.list 0).size = 4096

/-- A page is dirtied, and written next to the last one. -/
def page (n : Nat) : List Event :=
  [.dirty 0 n 7 4096 0 ((n + 1) * 2 ^ 22), .issue n (4096 * n) 4096]

theorem Pages.dirty {n : Nat} (hP : P.IsLp64) (h : Pages P n w) (hn : n + 1 < 8192) :
    ∃ w', step P w (.dirty 0 n 7 4096 0 ((n + 1) * 2 ^ 22)) = some w' ∧ Balanced w' ∧
      w'.afq.env.Plenty ∧ w'.dirtied = insert n w.dirtied ∧ w'.issues = w.issues ∧
      (∀ l, l ≠ n → w'.list l = w.list l) ∧
      ((w'.list n).items = [7] ∧ (w'.list n).callbackQ ≠ none ∧ (w'.list n).size = 4096 ∧
        (w'.list n).priv = 2101248) ∧
      w'.afq.mem.inodePos 0 = (n + 1) * 2 ^ 22 + 4096 ∧
      w'.afq.estimate 7 = (n + 1) * 2101248 ∧ w'.afq.batchEstimate 7 = n * 2101248 ∧
      w'.afq.batchSet P = w.afq.batchSet P := by
  obtain ⟨hnew, hissues, hnd⟩ := h.unused n (le_refl n)
  have hlist : w.afq.mem.lists n = .new := hnew
  have hmay : MayDirty w n 7 4096 := by
    refine ⟨hissues, ?_, by norm_num, le_refl _, .inr ?_⟩ <;> rw [hnew]
    · exact List.not_mem_nil
    · exact ⟨rfl, by decide⟩
  have hplenty : ({ w.afq with
      mem := w.afq.mem.setList n (joined 0 w.afq.mem.schedUniq (w.list n) 7 hmay.2.1 4096) } :
        State).env.Plenty := h.plenty
  obtain ⟨t, ht⟩ := basicSchedCausesDirty_total (P := P) hplenty n 7 0 ((n + 1) * 2 ^ 22)
  have hstep : step P w (.dirty 0 n 7 4096 0 ((n + 1) * 2 ^ 22)) =
      some { w with afq := t, dirtied := insert n w.dirtied } := by
    simp only [step, hmay, dite_true, ht, Option.map_some]
  -- the page is far from where the last one was dirtied
  have hcost : costWhenDirtied P w.afq.mem n 4096 0 ((n + 1) * 2 ^ 22) = 2101248 := by
    have hseek : seekTime ((n + 1) * 2 ^ 22) (inodeGetPos w.afq.mem 0) = 2097152 := by
      have hpos : inodeGetPos w.afq.mem 0 ≤ n * 2 ^ 22 + 4096 := h.inode
      unfold seekTime offsetDiff seekCap
      split <;> omega
    simp only [costWhenDirtied, hlist, hseek]
    exact P.long_fits _ (by decide) (by decide)
  have hj := step_dirty_joins h.balanced.toTagged hstep
  have hitems : (t.mem.lists n).items = [7] := by
    rw [hj.items, hlist]
    rfl
  have hbytes : (t.mem.lists n).size = 4096 := by
    rw [hj.size, hlist]
    rfl
  have hcharge : dirtyCharge P 2101248 ((w.list n).itemCount + 1) 7 7 = 2101248 := by
    rw [hnew]
    have hcost : (0 : Int) ≤ 2101248 := by norm_num
    exact (dirtyCharge_eq hcost (by norm_num) 0 7 7).trans (by decide)
  have hfits : w.Fits P (.dirty 0 n 7 4096 0 ((n + 1) * 2 ^ 22)) := by
    intro j hj
    have hj7 : j = 7 := by simpa [hnew, CauseList.new] using hj
    rw [hj7, hcost, hcharge, h.estimate]
    omega
  have hbal := step_balanced hP h.balanced hstep
    ((dirty_conserved_iff hP h.balanced hstep).mpr hfits)
  have hsize : t.mem.inodePos 0 = P.long ((n + 1) * 2 ^ 22 + 4096) := by
    rw [chargeAll_mem _ ht]
    simp [dirtyMem, inodeSetPos, joined, hnew, CauseList.new, CauseList.push, setCauseListType]
  refine ⟨_, hstep, hbal, (chargeAll_charges ht).plenty h.plenty, rfl, rfl, hj.others,
    ⟨hitems, hj.callbackQ, hbytes, hj.priv.trans hcost⟩, ?_, ?_, ?_, ?_⟩
  · exact hsize.trans (P.long_fits _ (by omega) (by omega))
  · rw [list] at hcharge
    refine (hj.estimate 7).trans ?_
    rw [if_pos (by simp), hcost, hcharge, h.estimate, P.long_fits _ (by omega) (by omega)]
    ring
  · exact (congrFun (step_dirty_eq hstep).2.2 7).trans h.batchEstimate
  · exact (chargeAll_batchSet (CauseList.nodup _) ht).trans rfl

theorem Pages.next {n : Nat} (hP : P.IsLp64) (h : Pages P n w) (hn : n + 1 < 8192) :
    ∃ w', run (step P) w (page n) = some w' ∧ Pages P (n + 1) w' := by
  obtain ⟨w₁, hdirty, hbal, hplenty, hd, hi, hothers, ⟨hitems, hcq, hsize, hpriv⟩, hinode, hest,
    hbatch, hset⟩ := h.dirty hP hn
  obtain ⟨hissues, hnd⟩ := (h.unused n (le_refl n)).2
  obtain ⟨hwhole, hwhole'⟩ := h.whole.add (P := P) hn
  obtain ⟨hacct, hacct'⟩ := h.acct.add (P := P) hn
  have hbytes : P.int (w₁.list n).size = 4096 := by
    rw [hsize]
    exact P.int_fits _ (by decide) (by decide)
  have hadd : (w₁.afq.batchSet P).add P (w₁.list n).items (4096 * n) (P.int (w₁.list n).size) =
      (w.afq.batchSet P).add P [7] (4096 * n) 4096 := by rw [hset, hitems, hbytes]
  have hfill : ¬ Fills P w₁.afq n (4096 * n) := by
    rw [list] at hadd hitems
    rw [Fills, hadd, hitems]
    simp [BatchSet.full, BatchSet.add, hwhole', hacct']
  obtain ⟨t, ht⟩ := accountForCauses_total (P := P) hplenty n (4096 * n) (4096 : Nat)
  have hstep : step P w₁ (.issue n (4096 * n) 4096) =
      some { w₁ with afq := t, issues := Function.update w₁.issues n (w₁.issues n + 1) } := by
    simp only [step, ht, Option.map_some]
    rfl
  have hfits : w₁.Fits P (.issue n (4096 * n) 4096) := by
    rw [Fits, if_neg hfill]
    exact fun hq => absurd hq hcq
  have hshare : issueShare (w₁.list n) 4096 = 2101248 := by
    rw [issueShare, if_neg hcq, (w₁.list n).count_eq, hitems, hpriv]
    rfl
  have hbooks := issue_books hstep hbal.toTagged 7
  simp only [hfill, if_false, hcq, false_and, hitems, List.mem_singleton, if_true, hshare, hest,
    hbatch, P.ulong_fits (n * 2101248 + 2101248) (by omega) (by omega)] at hbooks
  obtain ⟨hest', hbatch'⟩ := Prod.mk.inj hbooks
  have hmem := accountForCauses_mem (le_refl 4096) ht
  have hset' := accountForCauses_batchSet (le_refl 4096) hfill ht
  rw [list] at hadd
  rw [hadd] at hset'
  refine ⟨_, ?_, ⟨step_balanced hP hbal hstep ((issue_conserved_iff hstep hP hbal).mpr hfits),
    (accountForCauses_charges ht).plenty hplenty, fun l hl => ?_, ?_, ?_, ?_, ?_, ?_, fun _ => ?_⟩⟩
  · simp only [page, run, hdirty, hstep]
  · have hne : l ≠ n := by omega
    obtain ⟨hl₁, hl₂, hl₃⟩ := h.unused l (by omega)
    refine ⟨?_, ?_, ?_⟩
    · rw [← hl₁, ← hothers l hne]
      simp only [list, hmem]
      exact Mem.setList_lists_of_ne _ _ hne
    · simp only [Function.update_of_ne hne, hi, hl₂]
    · simp [hd, hne, hl₃]
  · rw [hmem]
    simp only [Mem.setList_inodePos, hinode]
    push_cast
    exact le_refl _
  · rw [hest']
    push_cast
    ring
  · rw [hbatch']
    push_cast
    ring
  · rw [hset']
    exact hwhole
  · rw [hset']
    simpa [BatchSet.add] using hacct
  · by_cases hz : n = 0
    · subst hz
      simp only [list, hmem, Mem.setList_lists_self]
      exact ⟨hitems, rfl, hsize⟩
    · have hne : 0 ≠ n := Ne.symm hz
      have hsame : t.mem.lists 0 = w.list 0 := by
        rw [hmem, Mem.setList_lists_of_ne _ _ hne]
        exact hothers 0 hne
      simp only [list, hsame]
      exact h.first (by omega)

/-- The first `n` pages, and page 0 another `k` times at places apart from each other. -/
structure Scattered (P : Platform) (n k : Nat) (w : Accrual) : Prop where
  balanced : Balanced w
  plenty : w.afq.env.Plenty
  page : (w.list 0).items = [7] ∧ (w.list 0).callbackQ = none ∧ (w.list 0).size = 4096
  estimate : w.afq.estimate 7 = n * 2101248 + k * 4096
  batchEstimate : w.afq.batchEstimate 7 = n * 2101248 + k * 4096
  whole : Spread n k (w.afq.batchSet P).whole
  acct : Spread n k ((w.afq.batchSet P).acct 7)

theorem Pages.scattered {n : Nat} (h : Pages P n w) (h0 : 0 < n) (hn : n < 8192) :
    Scattered P n 0 w :=
  ⟨h.balanced, h.plenty, h.first h0, by simp [h.estimate], by simp [h.batchEstimate],
    h.whole.spread h0 hn, h.acct.spread h0 hn⟩

section Scatter

variable {n k : Nat} (h : Scattered P n k w) (hn : n + k + 1 < 8192) (hk : k < 63)

include h

theorem Scattered.issue : ∃ t, accountForCauses P w.afq 0 (2 ^ 40 + 8192 * k) (4096 : Nat) = some t ∧
    step P w (.issue 0 (2 ^ 40 + 8192 * k) 4096) =
      some { w with afq := t, issues := Function.update w.issues 0 (w.issues 0 + 1) } := by
  obtain ⟨t, ht⟩ := accountForCauses_total (P := P) h.plenty 0 (2 ^ 40 + 8192 * k) (4096 : Nat)
  refine ⟨t, ht, ?_⟩
  simp only [step, ht, Option.map_some]
  rfl

theorem Scattered.issueShare_eq : issueShare (w.list 0) 4096 = 4096 := by
  rw [issueShare, if_pos h.page.2.1, (w.list 0).count_eq, h.page.1]
  rfl

theorem Scattered.add_eq : (w.afq.batchSet P).add P (w.afq.mem.lists 0).items (2 ^ 40 + 8192 * k)
      (P.int (w.afq.mem.lists 0).size) =
    (w.afq.batchSet P).add P [7] (2 ^ 40 + 8192 * k) 4096 := by
  have hbytes : P.int (w.list 0).size = 4096 := by
    rw [h.page.2.2]
    exact P.int_fits _ (by decide) (by decide)
  rw [list] at hbytes
  rw [show (w.afq.mem.lists 0).items = [7] from h.page.1, hbytes]

include hn hk

/-- The batches are full when they have 64 entries. -/
theorem Scattered.fills_iff : Fills P w.afq 0 (2 ^ 40 + 8192 * k) ↔ k = 62 := by
  obtain ⟨-, hwhole⟩ := h.whole.add (P := P) hn hk
  obtain ⟨-, hacct⟩ := h.acct.add (P := P) hn hk
  rw [Fills, h.add_eq, show (w.afq.mem.lists 0).items = [7] from h.page.1]
  simp only [BatchSet.full, BatchSet.add, List.any_cons, List.any_nil, List.mem_singleton, if_true,
    hwhole, hacct, Bool.or_false, Bool.or_self, decide_eq_true_eq]

theorem Scattered.next (hP : P.IsLp64) (hk' : k ≠ 62) :
    ∃ w', step P w (.issue 0 (2 ^ 40 + 8192 * k) 4096) = some w' ∧ Scattered P n (k + 1) w' := by
  obtain ⟨t, ht, hstep⟩ := h.issue
  obtain ⟨hwhole, -⟩ := h.whole.add (P := P) hn hk
  obtain ⟨hacct, -⟩ := h.acct.add (P := P) hn hk
  have hfill : ¬ Fills P w.afq 0 (2 ^ 40 + 8192 * k) := fun hf => hk' ((h.fills_iff hn hk).mp hf)
  have hfits : w.Fits P (.issue 0 (2 ^ 40 + 8192 * k) 4096) := by
    rw [Fits, if_neg hfill, h.page.1, h.issueShare_eq]
    intro _ j hj
    rw [List.mem_singleton.mp hj, h.estimate]
    omega
  have hbooks := issue_books hstep h.balanced.toTagged 7
  simp only [hfill, if_false, h.page.1, h.page.2.1, List.mem_singleton, and_self, if_true,
    h.issueShare_eq, h.estimate, h.batchEstimate,
    P.ulong_fits (n * 2101248 + k * 4096 + 4096) (by omega) (by omega),
    P.long_fits (n * 2101248 + k * 4096 + 4096) (by omega) (by omega)] at hbooks
  obtain ⟨hest, hbatch⟩ := Prod.mk.inj hbooks
  have hset := accountForCauses_batchSet (le_refl 4096) hfill ht
  rw [h.add_eq] at hset
  refine ⟨_, hstep, ⟨step_balanced hP h.balanced hstep
    ((issue_conserved_iff hstep hP h.balanced).mpr hfits),
    (accountForCauses_charges ht).plenty h.plenty, ?_, ?_, ?_, ?_, ?_⟩⟩
  · simp only [list, accountForCauses_mem (le_refl 4096) ht, Mem.setList_lists_self]
    exact ⟨h.page.1, rfl, h.page.2.2⟩
  · rw [hest]
    push_cast
    ring
  · rw [hbatch]
    push_cast
    ring
  · rw [hset]
    exact hwhole
  · rw [hset]
    simpa [BatchSet.add] using hacct

end Scatter

/-- The flush that the last of 63 scattered writes brings about takes back too little, if there were
at least 1023 pages. -/
theorem Scattered.last {n : Nat} (hP : P.IsLp64) (h : Scattered P n 62 w) (hn : n + 63 < 8192)
    (hn' : 1023 ≤ n) : ∃ w', step P w (.issue 0 (2 ^ 40 + 8192 * (62 : Nat)) 4096) = some w' ∧
      ¬ w'.Conserved := by
  obtain ⟨t, -, hstep⟩ := h.issue
  refine ⟨_, hstep, mt (issue_conserved_iff hstep hP h.balanced).mp ?_⟩
  rw [Fits, if_pos ((h.fills_iff (by omega) (by omega)).mpr rfl)]
  intro hall
  have h7 := hall 7
  rw [if_pos (by rw [h.page.1]; simp), h.issueShare_eq, h.batchEstimate] at h7
  omega

/-- Nothing is dirty and nothing is written yet. -/
theorem init_pages (P : Platform) {m : Mem} {env : Env} (hnew : ∀ l, m.lists l = .new)
    (hplenty : env.Plenty) (hpos : m.inodePos 0 ≤ 4096) (h : basicSchedInitData P m env = some s) :
    Pages P 0 (init s) := by
  obtain ⟨hmem, henv, hest⟩ := basicSchedInitData_fresh h
  obtain ⟨hwhole, hacct⟩ := basicSchedInitData_batchSet h
  have hbal : Balanced (init s) := init_balanced (fun l => by rw [hnew l]; rfl) h
  have hconserved := hbal.conserved 7
  simp only [init, hest] at hconserved
  refine ⟨hbal, fun n => ?_, fun l _ => ⟨?_, rfl, by simp [init]⟩, ?_, ?_, ?_, ?_, ?_,
    fun h0 => absurd h0 (lt_irrefl 0)⟩
  · exact (congrFun henv n).trans (hplenty n)
  · simpa [init, list, hmem] using hnew l
  · simpa [init, hmem] using hpos
  · simp [init, hest]
  · simpa [init] using hconserved.symm
  · exact ⟨hwhole.capacity, hwhole.bytesCap, by simp [init, hwhole.bytes], hwhole.reqs⟩
  · exact ⟨(hacct 7).capacity, (hacct 7).bytesCap, by simp [init, (hacct 7).bytes], (hacct 7).reqs⟩

def pages : Nat → List Event
  | 0 => []
  | n + 1 => pages n ++ page n

def scattered : Nat → List Event
  | 0 => []
  | k + 1 => scattered k ++ [.issue 0 (2 ^ 40 + 8192 * k) 4096]

/-- Any number of pages up to the capacity of the batch is written without a flush. -/
theorem run_pages (hP : P.IsLp64) {w : Accrual} (h : Pages P 0 w) :
    ∀ n, n < 8192 → ∃ w', run (step P) w (pages n) = some w' ∧ Pages P n w'
  | 0, _ => ⟨w, rfl, h⟩
  | n + 1, hn => by
    obtain ⟨t, ht, hp⟩ := run_pages hP h n (by omega)
    obtain ⟨w', hw', hp'⟩ := hp.next hP hn
    exact ⟨w', run_append ht hw', hp'⟩

theorem run_scattered (hP : P.IsLp64) {n : Nat} (h : Scattered P n 0 w) (hn : n + 63 < 8192) :
    ∀ k, k ≤ 62 → ∃ w', run (step P) w (scattered k) = some w' ∧ Scattered P n k w'
  | 0, _ => ⟨w, rfl, h⟩
  | k + 1, hk => by
    obtain ⟨t, ht, hs⟩ := run_scattered hP h hn k (by omega)
    obtain ⟨w', hw', hs'⟩ := hs.next (by omega) (by omega) hP (by omega)
    exact ⟨w', run_append ht (by simp only [run, hw']), hs'⟩

/-- Page by page, 1023 pages are dirtied far apart and written in sequence; then one of them is
written to 63 places. The flush refunds 2^32 less than was charged. -/
theorem pages_overflow_batch_estimate :
    ∃ s w, basicSchedInitData .lp64 sampleMem sampleEnv = some s ∧
      run (step .lp64) (init s) (pages 1023 ++ scattered 63) = some w ∧ ¬ w.Conserved := by
  have hinit : (basicSchedInitData .lp64 sampleMem sampleEnv).isSome = true := by decide +kernel
  obtain ⟨s, hs⟩ := Option.isSome_iff_exists.mp hinit
  have hstart := init_pages .lp64 (fun _ => rfl) (fun _ => rfl) (by decide) hs
  obtain ⟨t, ht, hp⟩ := run_pages Platform.isLp64_lp64 hstart 1023 (by norm_num)
  obtain ⟨u, hu, hsc⟩ := run_scattered Platform.isLp64_lp64 (hp.scattered (by norm_num)
    (by norm_num)) (by norm_num) 62 (le_refl 62)
  obtain ⟨w, hw, hbad⟩ := hsc.last Platform.isLp64_lp64 (by norm_num) (le_refl _)
  exact ⟨s, w, hs, run_append ht (run_append hu (by simp only [run, hw])), hbad⟩

end Accrual

end Afq
end SplitSched
