import SplitSched.Tb.Tokens

/-!
# SplitSched.Tb.Income

What an account earns over time. `refresh_count` pays for the time since `last_update` at the rate
that holds when it is called, and the control message `rate` does not refresh the account first: time
that passed at the old rate is paid for at the new one.

* `Meter`: the scheduler with the time of the last event and, for each account, what `refresh_count`
  has paid (`income`, in tokens) and what the rates in force allow (`due`, in tokens times 10^9).
* `Meter.Covered`: a change of the rate after which the time since `last_update`, paid for at the new
  rate, is still within what is due. A raise right after a refresh is covered, and so is any cut.
* `income_within_rate_iff`: income stays within what is due exactly when every change is covered.
-/

namespace SplitSched
namespace Tb

open CArith

variable {P : Platform} {s : State}

/-! ## What a rate change and a refresh do to rate and clock -/

/-- The clock stands at `t`. -/
def State.atTime (s : State) (t : Timespec) : State :=
  { s with env := { s.env with clock := fun _ => t } }

def State.terms (s : State) (id : Int) : Option (Int × Timespec) :=
  (s.accounts.find id).map fun a => (a.rate, a.lastUpdate)

theorem saturateCounts_terms (P : Platform) (a : Account) :
    (saturateCounts P a).rate = a.rate ∧ (saturateCounts P a).lastUpdate = a.lastUpdate := by
  simp only [saturateCounts]
  split <;> exact ⟨rfl, rfl⟩

theorem modifyAccount_terms {id : Int} {a : Account} (ha : s.accounts.find id = some a)
    (f : Account → Account) :
    (s.modifyAccount id f).terms = Function.update s.terms id (some ((f a).rate, (f a).lastUpdate)) := by
  funext j
  by_cases hj : j = id
  · subst hj
    simp [State.terms, State.modifyAccount, Registry.modify, ha]
  · simp [State.terms, State.modifyAccount, Registry.modify, hj]

/-- The time up to which an account was paid at time `t`. One that does not exist yet is paid until
now. -/
def State.paidUntil (s : State) (t : Timespec) (id : Int) : Timespec := (s.terms id).elim t (·.2)

theorem newAccount_terms {env : Env} {id : Int} {a : Account} (h : (newAccount P env id).1 = some a) :
    a.rate = 0 ∧ a.lastUpdate = env.clock (env.tick + 1) := by
  simp only [newAccount] at h
  split at h
  · cases h
    exact ⟨rfl, rfl⟩
  · cases h

/-- The control message `rate`: nothing happens to the default account, or if the account cannot be
created; otherwise the account has the new rate, and `last_update` is what it was. -/
theorem tbucketKvSet_terms (P : Platform) (s : State) (t : Timespec) (id val : Int) :
    ((id = 0 ∨ s.terms id = none) ∧
      (tbucketKvSet P (s.atTime t) id "rate" val).terms = s.terms) ∨
    (id ≠ 0 ∧ (tbucketKvSet P (s.atTime t) id "rate" val).terms =
      Function.update s.terms id (some (val, s.paidUntil t id))) := by
  have hdebug : ("rate" : String) ≠ "debug" := by decide
  have hset : ∀ a : Account, ((kvApply P "rate" val a).rate, (kvApply P "rate" val a).lastUpdate) =
      (val, a.lastUpdate) := fun a => by
    obtain ⟨hr, hl⟩ := saturateCounts_terms P { a with rate := val }
    simp only [kvApply, if_true, hr, hl]
  simp only [tbucketKvSet, hdebug, if_false]
  by_cases hid : id = 0
  · refine .inl ⟨.inl hid, ?_⟩
    rw [if_neg (not_not.mpr hid)]
    rfl
  rw [if_pos hid]
  rcases getAccount_cases P (s.atTime t) id with ⟨hk, hs⟩ | ⟨hk, a, ha, haid, hs⟩ | ⟨hk, -, hs⟩
  · obtain ⟨a, ha⟩ := Registry.find_eq_some hk
    have hold : s.terms id = some (a.rate, a.lastUpdate) := by
      rw [State.terms, show s.accounts.find id = some a from ha]
      rfl
    right
    rw [hs, if_pos rfl]
    refine ⟨hid, (modifyAccount_terms ha _).trans ?_⟩
    rw [hset, State.paidUntil, hold]
    rfl
  · -- a new account: paid until now
    have hnone : s.terms id = none := by
      rw [State.terms, show s.accounts.find id = none from Registry.find_eq_none hk]
      rfl
    have hk' : id ∉ s.accounts.keys := hk
    have hfind : (addAccount { s.atTime t with
        env := (newAccount P (s.atTime t).env id).2 } a).accounts.find id = some a := by
      simp [addAccount, Registry.insert, haid, State.atTime, hk']
    right
    rw [hs, if_pos rfl]
    refine ⟨hid, (modifyAccount_terms hfind _).trans ?_⟩
    rw [hset, (newAccount_terms ha).2, State.paidUntil, hnone]
    funext j
    by_cases hj : j = id
    · subst hj
      simp [State.atTime]
    · simp [hj, State.terms, addAccount, Registry.insert, haid, State.atTime, hk']
  · have hnone : s.terms id = none := by
      rw [State.terms, show s.accounts.find id = none from Registry.find_eq_none hk]
      rfl
    have hdef : defaultAccount ≠ id := Ne.symm hid
    left
    rw [hs]
    simp only [hdef, if_false]
    exact ⟨.inr hnone, rfl⟩

theorem refreshAccount_terms {s' : State} {t : Timespec} {id : Int}
    (h : refreshAccount P (s.atTime t) id = some s') :
    ∃ a, s.accounts.find id = some a ∧ 0 ≤ refreshInc P t a ∧
      Books.increment P (s.atTime t) id = refreshInc P t a ∧
      s'.terms = if 0 < refreshInc P t a then Function.update s.terms id (some (a.rate, t))
        else s.terms := by
  simp only [refreshAccount] at h
  split at h
  · cases h
  rename_i a ha
  split at h
  · cases h
  rename_i a' ha'
  cases h
  have hinc : Books.increment P (s.atTime t) id = refreshInc P t a := by
    simp only [Books.increment, Registry.val, ha]
    rfl
  have hterms : ({ (s.atTime t).modifyAccount id fun _ => a' with
      env := (s.atTime t).env.getnstimeofday.2 } : State).terms =
      Function.update s.terms id (some (a'.rate, a'.lastUpdate)) :=
    modifyAccount_terms (s := s.atTime t) ha _
  refine ⟨a, ha, ?_, hinc, hterms.trans ?_⟩
  · rw [refreshCount_eq] at ha'
    split at ha'
    · cases ha'
    · rename_i hneg
      exact not_lt.mp hneg
  · rw [refreshCount_eq] at ha'
    have hnow : (s.atTime t).env.getnstimeofday.1 = t := rfl
    rw [hnow] at ha'
    split at ha'
    · cases ha'
    · split at ha'
      · rename_i hpos
        cases ha'
        obtain ⟨hr, -⟩ := saturateCounts_terms P
          { a with credit := P.long (a.credit + refreshInc P t a) }
        rw [if_pos hpos, hr]
      · rename_i hpos
        cases ha'
        rw [if_neg hpos]
        refine Function.update_eq_self_iff.mpr ?_
        rw [State.terms, show s.accounts.find id = some a from ha]
        rfl

theorem refreshAccount_total {t : Timespec} {id : Int} {a : Account}
    (ha : s.accounts.find id = some a) (h : 0 ≤ refreshInc P t a) :
    ∃ s', refreshAccount P (s.atTime t) id = some s' := by
  have ha' : (s.atTime t).accounts.find id = some a := ha
  have hnow : (s.atTime t).env.getnstimeofday.1 = t := rfl
  simp only [refreshAccount, ha', refreshCount_eq, hnow, not_lt.mpr h, if_false]
  split_ifs <;> exact ⟨_, rfl⟩

/-- Income is truncated: never more than the rate allows for the time. -/
theorem refreshInc_le (hP : P.IsExact) {t : Timespec} {a : Account} (hr : 0 ≤ a.rate)
    (ht : a.lastUpdate.ns ≤ t.ns) :
    refreshInc P t a * 1000000000 ≤ a.rate * (t.ns - a.lastUpdate.ns) := by
  have hns : (t.sec - a.lastUpdate.sec) * 1000000000 + (t.nsec - a.lastUpdate.nsec) =
      t.ns - a.lastUpdate.ns := by
    simp only [Timespec.ns]
    ring
  simp only [refreshInc, Timespec.sub, hns, hP.long, hP.ulong]
  have hd : 0 ≤ t.ns - a.lastUpdate.ns := sub_nonneg.mpr ht
  generalize t.ns - a.lastUpdate.ns = d at hd ⊢
  -- whole microseconds of the time that passed
  have hus : (d / 1000000000 * 1000000 + (d % 1000000000).tdiv 1000) * 1000 ≤ d := by
    rw [Int.tdiv_eq_ediv_of_nonneg (by omega)]
    omega
  have hus0 : 0 ≤ d / 1000000000 * 1000000 + (d % 1000000000).tdiv 1000 := by
    rw [Int.tdiv_eq_ediv_of_nonneg (by omega)]
    omega
  generalize d / 1000000000 * 1000000 + (d % 1000000000).tdiv 1000 = us at hus hus0 ⊢
  rw [Int.tdiv_eq_ediv_of_nonneg (mul_nonneg hus0 hr)]
  calc us * a.rate / 1000000 * 1000000000
      = us * a.rate / 1000000 * 1000000 * 1000 := by ring
    _ ≤ us * a.rate * 1000 := by
        have := Int.ediv_mul_le (us * a.rate) (show (1000000 : Int) ≠ 0 by decide)
        omega
    _ = a.rate * (us * 1000) := by ring
    _ ≤ a.rate * d := mul_le_mul_of_nonneg_left hus hr

/-- Whole seconds are paid for without loss. -/
theorem refreshInc_seconds (hP : P.IsExact) (a : Account) (k : Int) :
    refreshInc P ⟨a.lastUpdate.sec + k, a.lastUpdate.nsec⟩ a = a.rate * k := by
  have hns : (a.lastUpdate.sec + k - a.lastUpdate.sec) * 1000000000 +
      (a.lastUpdate.nsec - a.lastUpdate.nsec) = k * 1000000000 := by ring
  have hus : k * 1000000000 / 1000000000 * 1000000 + (k * 1000000000 % 1000000000).tdiv 1000 =
      k * 1000000 := by
    rw [Int.mul_ediv_cancel _ (by decide), Int.mul_emod_left]
    simp
  simp only [refreshInc, Timespec.sub, hns, hus, hP.long, hP.ulong]
  rw [show k * 1000000 * a.rate = a.rate * k * 1000000 by ring]
  exact Int.mul_tdiv_cancel _ (by decide)

/-! ## The meter -/

structure Meter where
  tb : State
  /-- The time of the last event. -/
  now : Timespec
  /-- What `refresh_count` has added to the credit of an account. -/
  income : Int → Int
  /-- The sum over the time that passed of rate times nanoseconds. -/
  due : Int → Int

namespace Meter

def init (s : State) : Meter :=
  ⟨s, s.accounts.val (·.lastUpdate) .zero defaultAccount, fun _ => 0, fun _ => 0⟩

inductive Event where
  | refresh (t : Timespec) (id : Int)
  | setRate (t : Timespec) (id val : Int)

def dueAt (w : Meter) (t : Timespec) (id : Int) : Int :=
  w.due id + (w.tb.terms id).elim 0 (·.1) * (t.ns - w.now.ns)

/-- The clock does not go back, and rates are not negative. -/
def step (P : Platform) (w : Meter) : Event → Option Meter
  | .refresh t id =>
    if w.now.ns ≤ t.ns then
      (refreshAccount P (w.tb.atTime t) id).map fun s =>
        { tb := s
          now := t
          income := Function.update w.income id
            (w.income id + Books.increment P (w.tb.atTime t) id)
          due := w.dueAt t }
    else none
  | .setRate t id val =>
    if w.now.ns ≤ t.ns ∧ 0 ≤ val then
      some
        { w with
          tb := tbucketKvSet P (w.tb.atTime t) id "rate" val
          now := t
          due := w.dueAt t }
    else none

/-- No account was paid more than the rates in force allow. -/
def Bounded (w : Meter) : Prop := ∀ id, w.income id * 1000000000 ≤ w.due id

/-- Nor will one be, if it is refreshed next. -/
def StaysBounded (P : Platform) (w : Meter) : Prop :=
  w.Bounded ∧ ∀ t id w', step P w (.refresh t id) = some w' → w'.Bounded

/-- With the time since `last_update` paid for at the new rate, income is still within what is
due. -/
def Covered (w : Meter) : Event → Prop
  | .refresh _ _ => True
  | .setRate t id val => id ≠ 0 →
      w.income id * 1000000000 + val * (t.ns - (w.tb.paidUntil t id).ns) ≤ w.dueAt t id

/-- Each account could be paid up to now, and stay within what is due. -/
structure Paid (w : Meter) : Prop where
  rate : ∀ id r l, w.tb.terms id = some (r, l) → 0 ≤ r ∧ l.ns ≤ w.now.ns
  paid : ∀ id r l, w.tb.terms id = some (r, l) →
    w.income id * 1000000000 + r * (w.now.ns - l.ns) ≤ w.due id
  absent : ∀ id, w.tb.terms id = none → w.income id = 0 ∧ w.due id = 0

variable {w w' : Meter} {e : Event}

theorem Paid.bounded (h : w.Paid) : w.Bounded := by
  intro id
  cases ht : w.tb.terms id with
  | none =>
    obtain ⟨hi, hd⟩ := h.absent id ht
    rw [hi, hd, zero_mul]
  | some x =>
    obtain ⟨r, l⟩ := x
    obtain ⟨hr, hl⟩ := h.rate id r l ht
    have hnn := mul_nonneg hr (sub_nonneg.mpr hl)
    have := h.paid id r l ht
    omega

theorem Paid.wait (h : w.Paid) {t : Timespec} (ht : w.now.ns ≤ t.ns) :
    Paid { w with now := t, due := w.dueAt t } where
  rate id r l hid := ⟨(h.rate id r l hid).1, (h.rate id r l hid).2.trans ht⟩
  paid id r l hid := by
    have hold := h.paid id r l hid
    have hterms : w.tb.terms id = some (r, l) := hid
    simp only [dueAt, hterms, Option.elim_some]
    nlinarith
  absent id hid := by
    obtain ⟨hi, hd⟩ := h.absent id hid
    have hterms : w.tb.terms id = none := hid
    refine ⟨hi, ?_⟩
    simp only [dueAt, hterms, Option.elim_none, hd]
    ring

theorem refresh_paid (hP : P.IsExact) {t : Timespec} {id : Int} (h : w.Paid)
    (hs : step P w (.refresh t id) = some w') : w'.Paid := by
  simp only [step] at hs
  split at hs
  · rename_i ht
    obtain ⟨s', hs', rfl⟩ := Option.map_eq_some_iff.mp hs
    obtain ⟨a, ha, hnn, hinc, hterms⟩ := refreshAccount_terms hs'
    have hw := h.wait ht
    have hid : w.tb.terms id = some (a.rate, a.lastUpdate) := by simp [State.terms, ha]
    obtain ⟨hrate, hlast⟩ := hw.rate id _ _ hid
    have hle := refreshInc_le hP hrate hlast
    have hpaid := hw.paid id _ _ hid
    simp only at hle hlast hpaid
    rw [hinc]
    by_cases hpos : 0 < refreshInc P t a
    · rw [if_pos hpos] at hterms
      refine ⟨fun j r l hj => ?_, fun j r l hj => ?_, fun j hj => ?_⟩ <;>
        simp only [hterms] at hj ⊢ <;> rcases eq_or_ne j id with rfl | hne
      · rw [Function.update_self] at hj
        cases hj
        exact ⟨hrate, le_refl _⟩
      · rw [Function.update_of_ne hne] at hj
        exact hw.rate j r l hj
      · rw [Function.update_self] at hj
        cases hj
        rw [Function.update_self, sub_self, mul_zero, add_zero, add_mul]
        omega
      · rw [Function.update_of_ne hne] at hj ⊢
        exact hw.paid j r l hj
      · rw [Function.update_self] at hj
        cases hj
      · rw [Function.update_of_ne hne] at hj ⊢
        exact hw.absent j hj
    · -- nothing was paid
      have hz : refreshInc P t a = 0 := by omega
      rw [if_neg hpos] at hterms
      rw [hz, add_zero, Function.update_eq_self]
      exact ⟨fun j r l hj => hw.rate j r l (hterms ▸ hj), fun j r l hj => hw.paid j r l (hterms ▸ hj),
        fun j hj => hw.absent j (hterms ▸ hj)⟩
  · cases hs

theorem setRate_paid {t : Timespec} {id val : Int} (h : w.Paid)
    (hs : step P w (.setRate t id val) = some w') (hc : w.Covered (.setRate t id val)) :
    w'.Paid := by
  simp only [step] at hs
  split at hs
  · rename_i ht
    cases hs
    have hw := h.wait ht.1
    rcases tbucketKvSet_terms P w.tb t id val with ⟨-, hterms⟩ | ⟨hid, hterms⟩
    · exact ⟨fun j r l hj => hw.rate j r l (hterms ▸ hj), fun j r l hj => hw.paid j r l (hterms ▸ hj),
        fun j hj => hw.absent j (hterms ▸ hj)⟩
    · have hlast : (w.tb.paidUntil t id).ns ≤ t.ns := by
        rw [State.paidUntil]
        cases hold : w.tb.terms id with
        | none => exact le_refl _
        | some x => exact (hw.rate id x.1 x.2 hold).2
      refine ⟨fun j r l hj => ?_, fun j r l hj => ?_, fun j hj => ?_⟩ <;>
        simp only [hterms] at hj ⊢ <;> rcases eq_or_ne j id with rfl | hne
      · rw [Function.update_self] at hj
        cases hj
        exact ⟨ht.2, hlast⟩
      · rw [Function.update_of_ne hne] at hj
        exact hw.rate j r l hj
      · rw [Function.update_self] at hj
        cases hj
        exact hc hid
      · rw [Function.update_of_ne hne] at hj
        exact hw.paid j r l hj
      · rw [Function.update_self] at hj
        cases hj
      · rw [Function.update_of_ne hne] at hj
        exact hw.absent j hj
  · cases hs

theorem step_paid (hP : P.IsExact) (h : w.Paid) (hs : step P w e = some w') (hc : w.Covered e) :
    w'.Paid := by
  cases e with
  | refresh t id => exact refresh_paid hP h hs
  | setRate t id val => exact setRate_paid h hs hc

theorem Paid.staysBounded (hP : P.IsExact) (h : w.Paid) : w.StaysBounded P :=
  ⟨h.bounded, fun _ _ _ hs => (refresh_paid hP h hs).bounded⟩

/-- After a change that is not covered, the account is overpaid when it is refreshed a whole number of
seconds after `last_update`. -/
theorem setRate_overpays (hP : P.IsExact) {t : Timespec} {id val : Int} (h : w.Paid)
    (hs : step P w (.setRate t id val) = some w') (hc : ¬ w.Covered (.setRate t id val)) :
    ¬ w'.StaysBounded P := by
  simp only [step] at hs
  split at hs
  · rename_i ht
    cases hs
    simp only [Covered, Classical.not_imp, not_le] at hc
    obtain ⟨hid, hc⟩ := hc
    have hw := h.wait ht.1
    rcases tbucketKvSet_terms P w.tb t id val with ⟨hnone, -⟩ | ⟨-, hterms⟩
    · -- an account that does not exist was paid until now
      obtain ⟨hi, hd⟩ := hw.absent id (hnone.resolve_left hid)
      simp only at hi hd
      simp [State.paidUntil, hnone.resolve_left hid, hi, hd] at hc
    · rintro ⟨-, hnext⟩
      generalize htb : tbucketKvSet P (w.tb.atTime t) id "rate" val = tb at hterms hnext
      generalize hl : w.tb.paidUntil t id = l at hterms hc
      have hterms' : tb.terms id = some (val, l) := by rw [hterms, Function.update_self]
      obtain ⟨a, ha, haeq⟩ := Option.map_eq_some_iff.mp hterms'
      obtain ⟨hrate, hlast⟩ := Prod.mk.inj haeq
      have hlt : l.ns ≤ t.ns := by
        rw [← hl, State.paidUntil]
        cases hold : w.tb.terms id with
        | none => exact le_refl _
        | some x => exact (hw.rate id x.1 x.2 hold).2
      -- refresh as many seconds after `last_update` as nanoseconds have passed since
      have hinc := refreshInc_seconds hP a (t.ns - l.ns)
      rw [hlast, hrate] at hinc
      have hns : Timespec.ns ⟨l.sec + (t.ns - l.ns), l.nsec⟩ =
          l.ns + (t.ns - l.ns) * 1000000000 := by
        simp only [Timespec.ns]
        ring
      obtain ⟨s', hs'⟩ := refreshAccount_total (t := ⟨l.sec + (t.ns - l.ns), l.nsec⟩) ha
        (by rw [hinc]; exact mul_nonneg ht.2 (sub_nonneg.mpr hlt))
      obtain ⟨a', ha', -, hinc', -⟩ := refreshAccount_terms hs'
      cases ha.symm.trans ha'
      have hbound := hnext ⟨l.sec + (t.ns - l.ns), l.nsec⟩ id _ (by
        simp only [step]
        rw [if_pos (by rw [hns]; omega), hs']
        rfl) id
      simp only [Function.update_self, hinc', hinc, dueAt, hterms', Option.elim_some, hns]
        at hbound hc
      nlinarith
  · cases hs

theorem init_paid {m : Mem} {env : Env} (h : tbucketInitQueue P m env = some s) :
    (init s).Paid := by
  obtain ⟨-, env', a, ha, hs⟩ := tbucketInitQueue_accounts h
  have haid : a.id = defaultAccount := (newAccount_some ha).1
  have hrate := (newAccount_terms ha).1
  have hterms : s.terms = Function.update (fun _ => none) defaultAccount
      (some (0, a.lastUpdate)) := by
    funext j
    by_cases hj : j = defaultAccount
    · subst hj
      simp [State.terms, hs, Registry.insert, Registry.empty, haid, hrate]
    · simp [State.terms, hs, Registry.insert, Registry.empty, haid, hj]
  have hone : ∀ {id r l}, s.terms id = some (r, l) → r = 0 ∧ l = a.lastUpdate := by
    intro id r l hid
    rw [hterms] at hid
    rcases eq_or_ne id defaultAccount with rfl | hne
    · rw [Function.update_self] at hid
      cases hid
      exact ⟨rfl, rfl⟩
    · rw [Function.update_of_ne hne] at hid
      cases hid
  refine ⟨fun id r l hid => ?_, fun id r l hid => ?_, fun id _ => ⟨rfl, rfl⟩⟩
  · obtain ⟨rfl, rfl⟩ := hone hid
    simp [init, hs, Registry.val, Registry.insert, Registry.empty, haid]
  · obtain ⟨rfl, -⟩ := hone hid
    simp [init]

/-- Along a run of a fresh instance income stays within what the rates in force allow, and would if an
account were refreshed at any time next, exactly when every change of a rate is covered. -/
theorem income_within_rate_iff (P : Platform) (m : Mem) (env : Env) (s : State) (es : List Event)
    (w : Meter) (hP : P.IsExact) (h0 : tbucketInitQueue P m env = some s)
    (hr : run (step P) (init s) es = some w) :
    Always (step P) (StaysBounded P) (init s) es ↔ Meets (step P) Covered (init s) es := by
  refine always_iff_meets (I := Paid) (fun _ _ _ hs hc hI => step_paid hP hI hs hc)
    (fun _ h => h.staysBounded hP) (fun w e w' hs hc hI => ?_) hr (init_paid h0)
  cases e with
  | refresh t id => exact absurd trivial hc
  | setRate t id val => exact setRate_overpays hP hI hs hc

/-- The rate is set when the account is created, raised right after a refresh, and cut later. -/
theorem income_within_rate_raise_after_refresh :
    ∃ s w, tbucketInitQueue .exact sampleMem sampleEnv = some s ∧
      run (step .exact) (init s) [.setRate ⟨10, 0⟩ 7 1000, .refresh ⟨12, 0⟩ 7,
        .setRate ⟨12, 0⟩ 7 5000, .refresh ⟨13, 0⟩ 7, .setRate ⟨14, 0⟩ 7 100] = some w ∧
      (Always (step .exact) (StaysBounded .exact) (init s) [.setRate ⟨10, 0⟩ 7 1000,
          .refresh ⟨12, 0⟩ 7, .setRate ⟨12, 0⟩ 7 5000, .refresh ⟨13, 0⟩ 7, .setRate ⟨14, 0⟩ 7 100] ↔
        Meets (step .exact) Covered (init s) [.setRate ⟨10, 0⟩ 7 1000, .refresh ⟨12, 0⟩ 7,
          .setRate ⟨12, 0⟩ 7 5000, .refresh ⟨13, 0⟩ 7, .setRate ⟨14, 0⟩ 7 100]) := by
  have h : ((tbucketInitQueue .exact sampleMem sampleEnv).bind fun s =>
      run (step .exact) (init s) [.setRate ⟨10, 0⟩ 7 1000, .refresh ⟨12, 0⟩ 7,
        .setRate ⟨12, 0⟩ 7 5000, .refresh ⟨13, 0⟩ 7, .setRate ⟨14, 0⟩ 7 100]).isSome = true := by
    decide +kernel
  obtain ⟨w, hw⟩ := Option.isSome_iff_exists.mp h
  obtain ⟨s, hs, hr⟩ := Option.bind_eq_some_iff.mp hw
  exact ⟨s, w, hs, hr,
    income_within_rate_iff .exact sampleMem sampleEnv s _ w Platform.isExact_exact hs hr⟩

/-- An account has rate 0 for ten seconds, and 1000 tokens a second for one: it is paid for eleven
seconds. -/
theorem raise_paid_for_the_past :
    ∃ s w, tbucketInitQueue .exact sampleMem sampleEnv = some s ∧
      run (step .exact) (init s) [.setRate ⟨1, 0⟩ 7 0, .setRate ⟨11, 0⟩ 7 1000,
        .refresh ⟨12, 0⟩ 7] = some w ∧
      w.income 7 = 11000 ∧ w.due 7 = 1000 * 1000000000 ∧ ¬ w.Bounded := by
  have h : ((tbucketInitQueue .exact sampleMem sampleEnv).bind fun s =>
      run (step .exact) (init s) [.setRate ⟨1, 0⟩ 7 0, .setRate ⟨11, 0⟩ 7 1000,
        .refresh ⟨12, 0⟩ 7]).any (fun w =>
          decide (w.income 7 = 11000 ∧ w.due 7 = 1000 * 1000000000)) = true := by
    decide +kernel
  obtain ⟨w, hw, hbad⟩ := (Option.any_eq_true _ _).mp h
  obtain ⟨s, hs, hr⟩ := Option.bind_eq_some_iff.mp hw
  obtain ⟨hi, hd⟩ := of_decide_eq_true hbad
  refine ⟨s, w, hs, hr, hi, hd, fun hb => ?_⟩
  have h7 := hb 7
  rw [hi, hd] at h7
  norm_num at h7

end Meter

end Tb
end SplitSched
