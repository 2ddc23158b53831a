import SplitSched.Tb.Charges
import SplitSched.Lib.Outstanding
import SplitSched.Lib.Run

/-!
# SplitSched.Tb.Charging

The life of cause lists under the token-bucket scheduler: they are dirtied, which charges the
accounts they name; they are issued, which moves the charge into the batches; and the elevator may
be switched in between.

* `Ledger`, `step`: the scheduler together with a record of which lists were dirtied under the
  present instance or an earlier one, how often each was issued, and what each account was charged
  for each list.
* `Balanced`: what an account is charged and has not in a batch is its share of the lists that are
  dirtied and not issued. A step keeps it unless it charges or issues a list of an earlier instance
  (`step_balanced`).
* `estimate_conserved`: the balance in every state of a run without a switch.
* `estimate_nonneg_across_switches`: no account's estimate is negative as long as no list of an
  earlier instance is charged or issued. `account_for_causes` does not look at `sched_uniq`, so such
  a list is refunded by an instance that never charged it (`stale_list_refunded`).
-/

namespace SplitSched
namespace Tb

open CArith

/-! ## The machine -/

structure Ledger where
  tb : State
  /-- Lists first dirtied under the present instance. -/
  dirtied : Finset Nat
  /-- Lists first dirtied under an earlier instance. -/
  stale : Finset Nat
  /-- How often a list was passed to `account_for_causes`. -/
  issues : Nat → Nat
  /-- What the dirty hook charged an account for a list. -/
  charged : Nat → Int → Int

def Ledger.list (w : Ledger) (l : Nat) : CauseList := w.tb.mem.lists l

namespace Charging

inductive Event where
  /-- A task of account `a` dirties a buffer of `bSize` bytes with the list `l`. -/
  | dirty (q l : Nat) (a : Int) (bSize inode : Nat) (pos : Int)
  /-- The kernel builds a list in some other way. -/
  | prepare (l : Nat) (c : CauseList)
  | issue (l : Nat) (offset : Int) (size : Nat)
  | switch

/-- A list is dirtied before it is issued, by an account that is not on it yet. Accounts join a
dirtied list in no other way, so the first one finds a list that is empty and has no cost. -/
def MayDirty (w : Ledger) (l : Nat) (a : Int) (bSize : Nat) : Prop :=
  w.issues l = 0 ∧ a ∉ (w.list l).items ∧ 0 < bSize ∧
    (l ∈ w.dirtied ∨ l ∈ w.stale ∨ ((w.list l).items = [] ∧ (w.list l).priv ≤ 0))

instance (w : Ledger) (l : Nat) (a : Int) (bSize : Nat) : Decidable (MayDirty w l a bSize) := by
  unfold MayDirty; infer_instance

def step (P : Platform) (w : Ledger) : Event → Option Ledger
  | .dirty q l a bSize inode pos =>
    if MayDirty w l a bSize then
      let tb := dirtyBuffer P w.tb q l ⟨a, none⟩ bSize inode pos
      some { w with
        tb := tb
        dirtied := if l ∈ w.stale then w.dirtied else insert l w.dirtied
        charged := fun l' j =>
          w.charged l' j + if l' = l then tb.estimate j - w.tb.estimate j else 0 }
    else none
  | .prepare l c =>
    if l ∉ w.dirtied ∧ l ∉ w.stale ∧ c.callbackQ = none then
      some { w with tb := w.tb.setList l c }
    else none
  | .issue l offset size =>
    some { w with
      tb := accountForCauses P w.tb l offset size
      issues := Function.update w.issues l (w.issues l + 1) }
  | .switch =>
    (tbucketInitQueue P
      { w.tb.mem with schedUniq := elevatorSwitch P w.tb.mem.schedUniq .completed } w.tb.env).map
      fun tb => { w with tb := tb, stale := w.stale ∪ w.dirtied, dirtied := ∅ }

/-- A fresh instance, before any list is dirtied. -/
def init (s : State) : Ledger := ⟨s, ∅, ∅, fun _ => 0, fun _ _ => 0⟩

/-! ## The balance -/

variable {P : Platform} {w w' : Ledger} {e : Event}

/-- What account `j` owes for the list `l`: its share of the cost, until the list is issued. -/
def due (w : Ledger) (l : Nat) (j : Int) : Int :=
  if w.issues l = 0 ∧ j ∈ (w.list l).items then causeShare (w.list l) else 0

structure Balanced (w : Ledger) : Prop where
  plenty : w.tb.env.Plenty
  balance : ∀ j, w.tb.unbatched j = ∑ l ∈ w.dirtied, due w l j
  batch : ∀ j, 0 ≤ w.tb.batchEstimate j
  /-- A list that is dirtied and not issued carries a positive cost and the present tag. -/
  pending : ∀ l ∈ w.dirtied, w.issues l = 0 → (w.list l).callbackQ ≠ none ∧ 0 < (w.list l).priv ∧
    (w.list l).items ≠ [] ∧ (w.list l).schedUniq = w.tb.mem.schedUniq
  stale : ∀ l ∈ w.stale, l ∉ w.dirtied ∧ (w.issues l = 0 → (w.list l).callbackQ ≠ none)
  other : ∀ l, (l ∉ w.dirtied ∧ l ∉ w.stale) ∨ w.issues l ≠ 0 → (w.list l).callbackQ = none

/-- From `w` to `w'` only the list `l` was worked on. -/
structure ChangesAt (l : Nat) (w w' : Ledger) : Prop where
  list : ∀ l', l' ≠ l → w'.list l' = w.list l'
  issues : ∀ l', l' ≠ l → w'.issues l' = w.issues l'
  dirtied : ∀ l', l' ≠ l → (l' ∈ w'.dirtied ↔ l' ∈ w.dirtied)
  stale : w'.stale = w.stale
  uniq : w'.tb.mem.schedUniq = w.tb.mem.schedUniq
  memory : w'.tb.env.memory = w.tb.env.memory

/-- What the accounts owe for `l` while it counts as dirtied. -/
def owed (w : Ledger) (l : Nat) (j : Int) : Int := if l ∈ w.dirtied then due w l j else 0

/-- A step that works on one list keeps the balance if it does so for that list. -/
theorem Balanced.of_changesAt {l : Nat} (hb : Balanced w) (hc : ChangesAt l w w')
    (hbal : ∀ j, w'.tb.unbatched j = w.tb.unbatched j + (owed w' l j - owed w l j))
    (hbatch : ∀ j, 0 ≤ w'.tb.batchEstimate j)
    (hpending : l ∈ w'.dirtied → w'.issues l = 0 → (w'.list l).callbackQ ≠ none ∧
      0 < (w'.list l).priv ∧ (w'.list l).items ≠ [] ∧
      (w'.list l).schedUniq = w'.tb.mem.schedUniq)
    (hstale : l ∈ w.stale → l ∉ w'.dirtied ∧ (w'.issues l = 0 → (w'.list l).callbackQ ≠ none))
    (hother : (l ∉ w'.dirtied ∧ l ∉ w.stale) ∨ w'.issues l ≠ 0 → (w'.list l).callbackQ = none) :
    Balanced w' := by
  refine ⟨fun n => ?_, fun j => ?_, hbatch, fun l' hl' hi => ?_, fun l' hl' => ?_, fun l' hor => ?_⟩
  · rw [hc.memory]
    exact hb.plenty n
  · have hdue : ∀ l', l' ≠ l → due w' l' j = due w l' j :=
      fun l' hl => by simp [due, hc.list l' hl, hc.issues l' hl]
    rw [sum_change hc.dirtied hdue, ← hb.balance j]
    exact hbal j
  · by_cases hl : l' = l
    · subst hl
      exact hpending hl' hi
    · rw [hc.list l' hl, hc.uniq]
      exact hb.pending l' ((hc.dirtied l' hl).mp hl') (hc.issues l' hl ▸ hi)
  · rw [hc.stale] at hl'
    by_cases hl : l' = l
    · subst hl
      exact hstale hl'
    · rw [hc.list l' hl, hc.issues l' hl, hc.dirtied l' hl]
      exact hb.stale l' hl'
  · rw [hc.stale] at hor
    by_cases hl : l' = l
    · subst hl
      exact hother hor
    · rw [hc.list l' hl]
      rw [hc.issues l' hl, hc.dirtied l' hl] at hor
      exact hb.other l' hor

/-- The step neither charges nor issues a list of an earlier instance. -/
def Sound (w : Ledger) : Event → Prop
  | .dirty _ l _ _ _ _ => l ∈ w.stale → (w.list l).schedUniq ≠ w.tb.mem.schedUniq
  | .issue l _ _ => l ∈ w.stale → w.issues l ≠ 0
  | _ => True

instance (w : Ledger) (e : Event) : Decidable (Sound w e) := by
  cases e <;> unfold Sound <;> infer_instance

/-! ### Dirtying -/

/-- Each account on the list pays its new share, less the one it already paid. -/
theorem dirtyCharge_exact (hP : P.IsExact) (cost n a j : Int) :
    dirtyCharge P cost (n + 1) a j =
      safeDiv cost (n + 1) - if j = a then 0 else safeDiv cost n := by
  simp only [dirtyCharge, hP.int, add_sub_cancel_right]
  split_ifs <;> simp_all

section Dirty

variable {q l : Nat} {a : Int} {bSize inode : Nat} {pos : Int}
  (hb : Balanced w) (hmay : MayDirty w l a bSize) (hstale : l ∉ w.stale)

include hb hmay hstale

/-- A list that is dirtied for the first time is empty and has no cost. -/
theorem fresh_of_not_dirtied (hl : l ∉ w.dirtied) :
    (w.list l).items = [] ∧ (w.list l).priv ≤ 0 ∧ (w.list l).callbackQ = none := by
  have hfresh := (hmay.2.2.2.resolve_left hl).resolve_left hstale
  exact ⟨hfresh.1, hfresh.2, hb.other l (.inl ⟨hl, hstale⟩)⟩

variable (h : step P w (.dirty q l a bSize inode pos) = some w')

include h

/-- The list is charged by the present instance. -/
theorem step_dirty :
    Dirtied P w.tb w'.tb l a bSize inode pos ∧ w'.dirtied = insert l w.dirtied ∧
      w'.stale = w.stale ∧ w'.issues = w.issues ∧
      ∀ l' j, w'.charged l' j =
        w.charged l' j + if l' = l then w'.tb.estimate j - w.tb.estimate j else 0 := by
  simp only [step, hmay, if_true, Option.some.injEq] at h
  subst h
  refine ⟨dirtyBuffer_dirtied hb.plenty _ _ _ _ hmay.2.1 ?_, by simp [hstale], rfl, rfl, fun _ _ => rfl⟩
  by_cases hl : l ∈ w.dirtied
  · exact .inr (hb.pending l hl hmay.1).2.2.2
  · exact .inl (hb.other l (.inl ⟨hl, hstale⟩))

theorem cost_pos (hP : P.IsExact) : 0 < (w'.list l).priv := by
  obtain ⟨hd, -⟩ := step_dirty hb hmay hstale h
  have hseek := seekTime_nonneg pos (inodeGetPos w.tb.mem inode)
  rw [Ledger.list, hd.priv, costWhenDirtied]
  by_cases hl : l ∈ w.dirtied
  · have hpos := (hb.pending l hl hmay.1).2.1
    rw [Ledger.list] at hpos
    rw [if_neg (by omega)]
    exact hpos
  · obtain ⟨-, hp, hq⟩ := fresh_of_not_dirtied hb hmay hstale hl
    rw [Ledger.list] at hp hq
    have := hmay.2.2.1
    rw [if_pos hp, if_pos hq, hP.long]
    omega

/-- The charge of every account is what it owes for the list now, less what it owed before. -/
theorem dirty_charge (hP : P.IsExact) (j : Int) :
    w'.tb.estimate j - w.tb.estimate j = due w' l j - due w l j := by
  obtain ⟨hd, -, -, hi, -⟩ := step_dirty hb hmay hstale h
  have hcount : (w'.list l).itemCount = (w.list l).itemCount + 1 := by
    rw [(w'.list l).count_eq, (w.list l).count_eq, Ledger.list, Ledger.list, hd.items,
      List.length_append, List.length_singleton]
    push_cast
    rfl
  have hnew : due w' l j = if j ∈ (w.list l).items ++ [a] then
      safeDiv (w'.list l).priv ((w.list l).itemCount + 1) else 0 := by
    simp only [due, hi, hmay.1, true_and, causeShare, causesGetCost, hcount]
    rw [show (w'.list l).items = _ from hd.items]
    rfl
  have hold : due w l j = if j ∈ (w.list l).items then
      safeDiv (w'.list l).priv (w.list l).itemCount else 0 := by
    simp only [due, hmay.1, true_and, causeShare, causesGetCost]
    by_cases hl : l ∈ w.dirtied
    · have hpos := (hb.pending l hl hmay.1).2.1
      have : (w'.list l).priv = (w.list l).priv := by
        rw [Ledger.list, hd.priv, costWhenDirtied]
        rw [Ledger.list] at hpos
        rw [if_neg (by omega)]
        rfl
      rw [this]
    · simp [(fresh_of_not_dirtied hb hmay hstale hl).1]
  have hest : w'.tb.estimate j = if j ∈ (w.list l).items ++ [a] then
      w.tb.estimate j + dirtyCharge P (w'.list l).priv ((w.list l).itemCount + 1) a j
      else w.tb.estimate j := by
    rw [hd.estimate, hP.long, ← hd.priv]
    rfl
  have ha : a ∉ (w.list l).items := hmay.2.1
  rw [hnew, hold, hest, dirtyCharge_exact hP]
  by_cases hja : j = a
  · subst hja
    simp [ha]
  · by_cases hj : j ∈ (w.list l).items <;> simp [hja, hj]

theorem dirty_balanced (hP : P.IsExact) : Balanced w' := by
  obtain ⟨hd, hdir, hst, hi, -⟩ := step_dirty hb hmay hstale h
  have hmem : l ∈ w'.dirtied := by simp [hdir]
  refine hb.of_changesAt (l := l) ⟨hd.others, fun _ _ => by rw [hi], fun l' hl => by simp [hdir, hl],
    hst, hd.uniq, hd.memory⟩ (fun j => ?_) (by rw [hd.batchEstimate]; exact hb.batch)
    (fun _ _ => ⟨hd.callbackQ, cost_pos hb hmay hstale h hP, ?_, hd.schedUniq.trans hd.uniq.symm⟩)
    (fun hs => absurd hs hstale) ?_
  · have hold : owed w l j = due w l j := by
      by_cases hl : l ∈ w.dirtied
      · rw [owed, if_pos hl]
      · simp [owed, hl, due, (fresh_of_not_dirtied hb hmay hstale hl).1]
    rw [hold, owed, if_pos hmem, ← dirty_charge hb hmay hstale h hP j]
    simp only [State.unbatched, hd.batchEstimate]
    ring
  · rw [Ledger.list, hd.items]
    simp
  · rintro (⟨hn, -⟩ | hn)
    · exact absurd hmem hn
    · rw [hi] at hn
      exact absurd hmay.1 hn

end Dirty

/-! ### The other steps -/

/-- A stale list that the present instance does not take for its own is only tagged. -/
theorem dirty_stale_balanced {q l : Nat} {a : Int} {bSize inode : Nat} {pos : Int}
    (hb : Balanced w) (hmay : MayDirty w l a bSize) (hstale : l ∈ w.stale)
    (hu : (w.list l).schedUniq ≠ w.tb.mem.schedUniq)
    (h : step P w (.dirty q l a bSize inode pos) = some w') : Balanced w' := by
  obtain ⟨hnd, hq⟩ := hb.stale l hstale
  obtain ⟨c, hc, hcq⟩ := dirtyBuffer_stale (P := P) hb.plenty q bSize inode pos hmay.2.1
    (hq hmay.1) hu
  simp only [step, hmay, if_true, hstale, hc, Option.some.injEq] at h
  subst h
  refine hb.of_changesAt (l := l) ⟨fun l' hl => Mem.setList_lists_of_ne _ _ hl, fun _ _ => rfl,
    fun _ _ => Iff.rfl, rfl, rfl, rfl⟩ (fun j => ?_) hb.batch (fun hl => absurd hl hnd)
    (fun _ => ⟨hnd, fun _ => ?_⟩) ?_
  · simp [owed, hnd, State.unbatched, State.estimate, State.batchEstimate]
  · simpa [Ledger.list] using hcq
  · rintro (⟨-, hn⟩ | hn)
    · exact absurd hstale hn
    · exact absurd hmay.1 hn

theorem prepare_balanced {l : Nat} {c : CauseList} (hb : Balanced w)
    (h : step P w (.prepare l c) = some w') : Balanced w' := by
  simp only [step] at h
  split at h
  · rename_i hg
    obtain ⟨hd, hs, hc⟩ := hg
    cases h
    refine hb.of_changesAt (l := l) ⟨fun l' hl => Mem.setList_lists_of_ne _ _ hl, fun _ _ => rfl,
      fun _ _ => Iff.rfl, rfl, rfl, rfl⟩ (fun j => ?_) hb.batch (fun hl => absurd hl hd)
      (fun hl => absurd hl hs) (fun _ => by simpa [Ledger.list, State.setList] using hc)
    simp [owed, hd, State.setList, State.unbatched, State.estimate, State.batchEstimate]
  · cases h

/-- Issuing a list settles what is owed for it, in either branch of `account_for_causes`. -/
theorem accountForCauses_settles (hP : P.IsExact) (hb : Balanced w) {l : Nat} (offset : Int)
    (size : Nat) (hsound : l ∈ w.stale → w.issues l ≠ 0) :
    ∃ c : CauseList, c.callbackQ = none ∧
      (accountForCauses P w.tb l offset size).mem = w.tb.mem.setList l c ∧
      (∀ j, (accountForCauses P w.tb l offset size).unbatched j = w.tb.unbatched j - owed w l j) ∧
      ∀ j, 0 ≤ (accountForCauses P w.tb l offset size).batchEstimate j := by
  have hpend : (w.list l).callbackQ ≠ none → l ∈ w.dirtied ∧ w.issues l = 0 := by
    intro hq
    have hor := mt (hb.other l) hq
    push Not at hor
    refine ⟨?_, hor.2⟩
    by_contra hl
    exact hsound (hor.1 hl) hor.2
  have hbatch := accountForCauses_batchEstimate_nonneg hP hb.plenty (l := l) offset
    (Int.natCast_nonneg size)
    (fun hq => le_of_lt (hb.pending l (hpend hq).1 (hpend hq).2).2.1) hb.batch
  by_cases hq : (w.list l).callbackQ = none
  · obtain ⟨hu, c, hmem, hc, -⟩ := accountForCauses_uncharged hP hb.plenty offset size hq
    refine ⟨c, hc, hmem, fun j => ?_, hbatch⟩
    have hz : owed w l j = 0 := by
      by_cases hl : l ∈ w.dirtied
      · have hi : w.issues l ≠ 0 := fun hi => (hb.pending l hl hi).1 hq
        simp [owed, due, hi]
      · simp [owed, hl]
    rw [hu j, hz, sub_zero]
  · obtain ⟨hu, hmem⟩ := accountForCauses_charged hP hb.plenty offset size hq
    refine ⟨_, rfl, hmem, fun j => ?_, hbatch⟩
    rw [hu j]
    simp [owed, due, hpend hq, Ledger.list]

theorem issue_balanced {l : Nat} {offset : Int} {size : Nat} (hP : P.IsExact) (hb : Balanced w)
    (hsound : l ∈ w.stale → w.issues l ≠ 0) (h : step P w (.issue l offset size) = some w') :
    Balanced w' := by
  obtain ⟨c, hc, hmem, hu, hbatch⟩ := accountForCauses_settles hP hb offset size hsound
  simp only [step, Option.some.injEq] at h
  subst h
  refine hb.of_changesAt (l := l) ⟨fun l' hl => ?_, fun l' hl => Function.update_of_ne hl _ _,
    fun _ _ => Iff.rfl, rfl, by rw [hmem]; rfl, (accountForCauses_grows P w.tb l offset size).memory⟩
    (fun j => ?_) hbatch (fun _ hi => ?_) (fun hs => ⟨(hb.stale l hs).1, fun hi => ?_⟩) (fun _ => ?_)
  · simp only [Ledger.list, hmem]
    exact Mem.setList_lists_of_ne _ _ hl
  · simp [hu j, owed, due, sub_eq_add_neg]
  · simp at hi
  · simp at hi
  · simpa [Ledger.list, hmem] using hc

theorem Fresh.unbatched {s : State} (h : Fresh s) (j : Int) : s.unbatched j = 0 := by
  simp [State.unbatched, h.estimate, h.batchEstimate]

theorem switch_balanced (hb : Balanced w) (h : step P w .switch = some w') : Balanced w' := by
  simp only [step] at h
  obtain ⟨s, hs, rfl⟩ := Option.map_eq_some_iff.mp h
  obtain ⟨hf, hmem, henv⟩ := tbucketInitQueue_fresh hs
  have hlist : s.mem.lists = w.tb.mem.lists := by rw [hmem]
  refine ⟨?_, ?_, ?_, ?_, ?_, ?_⟩
  · intro n
    rw [henv]
    exact hb.plenty n
  · intro j
    simp [Fresh.unbatched hf]
  · simp [hf.batchEstimate]
  · simp
  · intro l hl
    refine ⟨by simp, fun hi => ?_⟩
    simp only [Ledger.list, hlist]
    rcases Finset.mem_union.mp hl with hl | hl
    · exact (hb.stale l hl).2 hi
    · exact (hb.pending l hl hi).1
  · intro l hor
    simp only [Ledger.list, hlist]
    refine hb.other l (hor.imp_left fun hn => ?_)
    have := hn.2
    rw [Finset.mem_union] at this
    exact ⟨fun hm => this (.inr hm), fun hm => this (.inl hm)⟩

theorem step_balanced (hP : P.IsExact) (h : step P w e = some w') (hs : Sound w e)
    (hb : Balanced w) : Balanced w' := by
  cases e with
  | dirty q l a bSize inode pos =>
    by_cases hmay : MayDirty w l a bSize
    · by_cases hstale : l ∈ w.stale
      · exact dirty_stale_balanced hb hmay hstale (hs hstale) h
      · exact dirty_balanced hb hmay hstale h hP
    · simp [step, hmay] at h
  | prepare l c => exact prepare_balanced hb h
  | issue l offset size => exact issue_balanced hP hb hs h
  | switch => exact switch_balanced hb h

theorem init_balanced {m : Mem} {env : Env} {s : State} (henv : env.Plenty)
    (hfresh : ∀ l, (m.lists l).callbackQ = none) (h : tbucketInitQueue P m env = some s) :
    Balanced (init s) := by
  obtain ⟨hf, hmem, hm⟩ := tbucketInitQueue_fresh h
  refine ⟨fun n => ?_, fun j => ?_, fun j => ?_, by simp [init], by simp [init], fun l _ => ?_⟩
  · simp only [init, hm]
    exact henv n
  · simp [init, Fresh.unbatched hf]
  · simp [init, hf.batchEstimate]
  · simpa [init, Ledger.list, hmem] using hfresh l

/-! ## Conservation under one instance -/

/-- The balance, and for each list what the accounts on it were charged. -/
structure Exactly (w : Ledger) : Prop where
  balanced : Balanced w
  noStale : w.stale = ∅
  charged : ∀ l ∈ w.dirtied, w.issues l ≤ 1 → (w.list l).items ≠ [] ∧
    ∀ j, w.charged l j = if j ∈ (w.list l).items then causeShare (w.list l) else 0
  uncharged : ∀ l, l ∉ w.dirtied → ∀ j, w.charged l j = 0

theorem dirty_exactly {q l : Nat} {a : Int} {bSize inode : Nat} {pos : Int} (hP : P.IsExact)
    (hx : Exactly w) (hmay : MayDirty w l a bSize)
    (h : step P w (.dirty q l a bSize inode pos) = some w') : Exactly w' := by
  have hstale : l ∉ w.stale := by simp [hx.noStale]
  obtain ⟨hd, hdir, hst, hi, hch⟩ := step_dirty hx.balanced hmay hstale h
  have hcharge := dirty_charge hx.balanced hmay hstale h hP
  have hsame : ∀ l', l' ≠ l → ∀ j, w'.charged l' j = w.charged l' j := by
    intro l' hl j
    simp [hch, hl]
  refine ⟨dirty_balanced hx.balanced hmay hstale h hP, by rw [hst, hx.noStale], ?_, ?_⟩
  · intro l' hl' hle
    by_cases hl : l' = l
    · subst hl
      refine ⟨by rw [Ledger.list, hd.items]; simp, fun j => ?_⟩
      -- what was charged so far is what was owed before
      have hold : w.charged l' j = due w l' j := by
        by_cases hm : l' ∈ w.dirtied
        · rw [(hx.charged l' hm (by rw [hmay.1]; omega)).2 j]
          simp [due, hmay.1]
        · rw [hx.uncharged l' hm j]
          simp [due, (fresh_of_not_dirtied hx.balanced hmay hstale hm).1]
      rw [hch, if_pos rfl, hcharge j, hold]
      simp [due, hi, hmay.1]
    · rw [hdir, Finset.mem_insert] at hl'
      have hlist : w'.list l' = w.list l' := hd.others l' hl
      rw [hlist]
      obtain ⟨hne, hc⟩ := hx.charged l' (hl'.resolve_left hl) (by rw [← hi]; exact hle)
      exact ⟨hne, fun j => (hsame l' hl j).trans (hc j)⟩
  · intro l' hl' j
    rw [hdir, Finset.mem_insert, not_or] at hl'
    rw [hsame l' hl'.1 j]
    exact hx.uncharged l' hl'.2 j

theorem prepare_exactly {l : Nat} {c : CauseList} (hx : Exactly w)
    (h : step P w (.prepare l c) = some w') : Exactly w' := by
  have hb := prepare_balanced hx.balanced h
  simp only [step] at h
  split at h
  · rename_i hg
    cases h
    refine ⟨hb, hx.noStale, fun l' hl' => ?_, hx.uncharged⟩
    have hlist : (w.tb.mem.setList l c).lists l' = w.tb.mem.lists l' :=
      Mem.setList_lists_of_ne _ _ fun e => hg.1 (e ▸ hl')
    simp only [Ledger.list, State.setList, hlist]
    exact hx.charged l' hl'
  · cases h

theorem issue_exactly {l : Nat} {offset : Int} {size : Nat} (hP : P.IsExact) (hx : Exactly w)
    (h : step P w (.issue l offset size) = some w') : Exactly w' := by
  have hb := issue_balanced hP hx.balanced (by simp [hx.noStale]) h
  simp only [step, Option.some.injEq] at h
  subst h
  refine ⟨hb, hx.noStale, fun l' hl' hle => ?_, hx.uncharged⟩
  by_cases hl : l' = l
  · subst hl
    simp only [Function.update_self] at hle
    -- the first issue of a dirtied list leaves its accounts and its cost alone
    have hq := (hx.balanced.pending l' hl' (by omega)).1
    have hmem := (accountForCauses_charged hP hx.balanced.plenty offset size hq).2
    simp only [Ledger.list, hmem, Mem.setList_lists_self]
    exact hx.charged l' hl' (by omega)
  · simp only [Function.update_of_ne hl] at hle
    have hlist : (accountForCauses P w.tb l offset size).mem.lists l' = w.tb.mem.lists l' := by
      by_cases hq : (w.tb.mem.lists l).callbackQ = none
      · obtain ⟨-, c, hmem, -⟩ := accountForCauses_uncharged hP hx.balanced.plenty offset size hq
        rw [hmem]
        exact Mem.setList_lists_of_ne _ _ hl
      · rw [(accountForCauses_charged hP hx.balanced.plenty offset size hq).2]
        exact Mem.setList_lists_of_ne _ _ hl
    simp only [Ledger.list, hlist]
    exact hx.charged l' hl' hle

theorem step_exactly (hP : P.IsExact) (h : step P w e = some w') (he : e ≠ .switch)
    (hx : Exactly w) : Exactly w' := by
  cases e with
  | dirty q l a bSize inode pos =>
    by_cases hmay : MayDirty w l a bSize
    · exact dirty_exactly hP hx hmay h
    · simp [step, hmay] at h
  | prepare l c => exact prepare_exactly hx h
  | issue l offset size => exact issue_exactly hP hx h
  | switch => exact absurd rfl he

theorem causeShare_eq_tdiv {c : CauseList} (h : c.items ≠ []) :
    causeShare c = c.priv.tdiv c.itemCount := by
  have : c.itemCount ≠ 0 := by
    rw [c.count_eq]
    exact_mod_cast (List.length_pos_iff.mpr h).ne'
  simp [causeShare, safeDiv, causesGetCost, this]

/-- In every state of a run under one instance, an account's estimate is what its batch was charged
plus its share of each list that names it and is dirtied and not issued; and an account on a dirtied
list was charged exactly that share. -/
theorem estimate_conserved (P : Platform) (m : Mem) (env : Env) (s : State) (es : List Event)
    (w : Ledger) (hP : P.IsExact) (henv : env.Plenty)
    (hfresh : ∀ l, (m.lists l).callbackQ = none) (h0 : tbucketInitQueue P m env = some s)
    (hes : Event.switch ∉ es) (hr : run (step P) (init s) es = some w) :
    (∀ a, w.tb.estimate a = w.tb.batchEstimate a +
      ∑ l ∈ w.dirtied with w.issues l = 0 ∧ a ∈ (w.list l).items,
        (w.list l).priv.tdiv (w.list l).itemCount) ∧
    ∀ l ∈ w.dirtied, w.issues l ≤ 1 → ∀ a ∈ (w.list l).items,
      w.charged l a = (w.list l).priv.tdiv (w.list l).itemCount := by
  have hinit : Exactly (init s) :=
    ⟨init_balanced henv hfresh h0, rfl, by simp [init], fun _ _ _ => rfl⟩
  have hmeets : Meets (step P) (fun _ e => e ≠ .switch) (init s) es :=
    (meets_iff_forall hr).mpr fun e he heq => hes (heq ▸ he)
  have hx := run_invariant_of_meets (fun _ _ _ => step_exactly hP) hr hmeets hinit
  constructor
  · intro a
    have hbal := hx.balanced.balance a
    rw [State.unbatched] at hbal
    rw [Finset.sum_filter]
    have hsum : ∑ l ∈ w.dirtied, due w l a = ∑ l ∈ w.dirtied,
        if w.issues l = 0 ∧ a ∈ (w.list l).items then
          (w.list l).priv.tdiv (w.list l).itemCount else 0 := by
      refine Finset.sum_congr rfl fun l hl => ?_
      by_cases hd : w.issues l = 0 ∧ a ∈ (w.list l).items
      · rw [due, if_pos hd, if_pos hd, causeShare_eq_tdiv (List.ne_nil_of_mem hd.2)]
      · rw [due, if_neg hd, if_neg hd]
    rw [← hsum]
    omega
  · intro l hl hle a ha
    obtain ⟨hne, hc⟩ := hx.charged l hl hle
    rw [hc a, if_pos ha, causeShare_eq_tdiv hne]

/-- Two accounts dirty one list, which is then issued. -/
def sharedPage : List Event :=
  [.dirty 0 0 7 4096 0 8192, .dirty 0 0 8 4096 0 8192, .issue 0 0 4096]

theorem estimate_conserved_shared_page :
    ∃ s w, tbucketInitQueue .exact sampleMem sampleEnv = some s ∧ Event.switch ∉ sharedPage ∧
      run (step .exact) (init s) sharedPage = some w ∧
      ((∀ a, w.tb.estimate a = w.tb.batchEstimate a +
        ∑ l ∈ w.dirtied with w.issues l = 0 ∧ a ∈ (w.list l).items,
          (w.list l).priv.tdiv (w.list l).itemCount) ∧
      ∀ l ∈ w.dirtied, w.issues l ≤ 1 → ∀ a ∈ (w.list l).items,
        w.charged l a = (w.list l).priv.tdiv (w.list l).itemCount) := by
  have h : ((tbucketInitQueue .exact sampleMem sampleEnv).bind fun s =>
      run (step .exact) (init s) sharedPage).isSome = true := by
    decide +kernel
  obtain ⟨w, hw⟩ := Option.isSome_iff_exists.mp h
  obtain ⟨s, hs, hr⟩ := Option.bind_eq_some_iff.mp hw
  have hes : Event.switch ∉ sharedPage := by simp [sharedPage]
  exact ⟨s, w, hs, hes, hr, estimate_conserved .exact sampleMem sampleEnv s sharedPage w
    Platform.isExact_exact (fun _ => rfl) (fun _ => rfl) hs hes hr⟩

/-! ## Across a switch -/

theorem Balanced.estimate_nonneg (hb : Balanced w) (j : Int) : 0 ≤ w.tb.estimate j := by
  have hsum : 0 ≤ ∑ l ∈ w.dirtied, due w l j := by
    refine Finset.sum_nonneg fun l hl => ?_
    by_cases hi : w.issues l = 0
    · have hpriv := (hb.pending l hl hi).2.1
      have hcount : 0 ≤ (w.list l).itemCount := by
        rw [(w.list l).count_eq]
        positivity
      rw [due]
      split
      · exact safeDiv_nonneg (le_of_lt hpriv) hcount
      · exact le_refl 0
    · simp [due, hi]
  have hbal := hb.balance j
  have hbatch := hb.batch j
  rw [State.unbatched] at hbal
  omega

/-- Across any number of switches, no account's estimate is negative in any state of a run whose
steps neither charge nor issue a list of an earlier instance. -/
theorem estimate_nonneg_across_switches (P : Platform) (m : Mem) (env : Env) (s : State)
    (es : List Event) (hP : P.IsExact) (henv : env.Plenty)
    (hfresh : ∀ l, (m.lists l).callbackQ = none) (h0 : tbucketInitQueue P m env = some s)
    (hs : Meets (step P) Sound (init s) es) :
    Always (step P) (fun w => ∀ a, 0 ≤ w.tb.estimate a) (init s) es :=
  always_of_meets (fun _ _ _ => step_balanced hP) (fun _ => Balanced.estimate_nonneg) hs
    (init_balanced henv hfresh h0)

/-- A list is dirtied and issued, then the elevator is switched, and another list is dirtied. -/
def switchAfterIssue : List Event :=
  [.dirty 0 0 7 4096 0 0, .issue 0 0 4096, .switch, .dirty 0 1 7 4096 0 0]

theorem estimate_nonneg_switchAfterIssue :
    ∃ s, tbucketInitQueue .exact sampleMem sampleEnv = some s ∧
      Meets (step .exact) Sound (init s) switchAfterIssue ∧
      Always (step .exact) (fun w => ∀ a, 0 ≤ w.tb.estimate a) (init s) switchAfterIssue := by
  have h : (tbucketInitQueue .exact sampleMem sampleEnv).any (fun s =>
      decide (Meets (step .exact) Sound (init s) switchAfterIssue)) = true := by
    decide +kernel
  obtain ⟨s, hs, hm⟩ := (Option.any_eq_true _ _).mp h
  rw [decide_eq_true_eq] at hm
  exact ⟨s, hs, hm, estimate_nonneg_across_switches .exact sampleMem sampleEnv s switchAfterIssue
    Platform.isExact_exact (fun _ => rfl) (fun _ => rfl) hs hm⟩

/-- A list that names account 8, of one page. -/
def readList : CauseList := { CauseList.new.push 8 (by simp [CauseList.new]) with size := 4096 }

/-- A page of account 7 is dirtied, the elevator is switched, the page is issued, and 63 more
extents fill the batch. -/
def switchBeforeIssue : List Event :=
  [.dirty 0 0 7 4096 0 0, .prepare 1 readList, .switch, .issue 0 0 4096] ++
    (List.range 63).map fun k => .issue 1 (8192 * (k + 1)) 4096

/-- The new instance refunds to account 7 what it never charged. -/
theorem stale_list_refunded :
    ∃ s w, tbucketInitQueue .lp64 sampleMem sampleEnv = some s ∧
      run (step .lp64) (init s) switchBeforeIssue = some w ∧ w.tb.estimate 7 = -4096 := by
  have h : ((tbucketInitQueue .lp64 sampleMem sampleEnv).bind fun s =>
      run (step .lp64) (init s) switchBeforeIssue).any
        (fun w => decide (w.tb.estimate 7 = -4096)) = true := by
    decide +kernel
  obtain ⟨w, hw, he⟩ := (Option.any_eq_true _ _).mp h
  obtain ⟨s, hs, hr⟩ := Option.bind_eq_some_iff.mp hw
  exact ⟨s, w, hs, hr, by simpa using he⟩

end Charging
end Tb
end SplitSched
