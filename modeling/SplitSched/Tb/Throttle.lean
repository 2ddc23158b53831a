import SplitSched.Tb.Refresh
import SplitSched.Tb.Requests

/-!
# SplitSched.Tb.Throttle

How long `tbucket_write_entry` and `tbucket_create_entry` hold a task back. Both call `maybe_sleep` until it
does not sleep: until the account of the task has paid its debt out of its income.

An account is refreshed whenever one of its queues or tasks is looked at, and a refresh that pays drops what is
less than a microsecond or less than a token. So an account gets at least a quarter of the income its rate
stands for, however often it is refreshed (`refreshInc_pays`).

* `Unpaid`: everything but a refresh and a control message leaves the income of an account alone
  (`step_moves`).
* `Earned`: the invariant. What was due up to the last update is covered by what the account was given.
* `Writer`: a task in the loop, while everything else goes on.
* `throttled_time_bounded`: the bound along every run.
-/

namespace SplitSched

/-! ## The clock -/

/-- Time goes on. -/
structure Env.Later (env env' : Env) : Prop where
  clock : env'.clock = env.clock
  tick : env.tick ≤ env'.tick

theorem Env.Later.refl (env : Env) : env.Later env := ⟨rfl, le_refl _⟩

theorem Env.Later.trans {env env' env'' : Env} (h : env.Later env') (h' : env'.Later env'') :
    env.Later env'' :=
  ⟨h'.clock.trans h.clock, h.tick.trans h'.tick⟩

theorem Env.later_succ (env : Env) : env.Later { env with tick := env.tick + 1 } := ⟨rfl, Nat.le_succ _⟩

theorem causeListAddId_later (env : Env) (c : CauseList) (id : Int) :
    env.Later (causeListAddId env c id).2.2 := by
  unfold causeListAddId
  split
  · exact .refl env
  · simp only
    split
    · exact env.later_succ
    · exact env.later_succ

theorem causeListCopyItems_later (ids : List Int) : ∀ (env : Env) (c : CauseList),
    env.Later (causeListCopyItems env ids c).2.2 := by
  induction ids with
  | nil => exact fun env _ => .refl env
  | cons id ids ih => exact fun env c => (causeListAddId_later env c id).trans (ih _ _)

theorem commitWriteHook_later (env : Env) (m : Mem) (q l : Nat) (task : Task) (bSize : Nat) :
    env.Later (commitWriteHook env m q l task bSize).2.2 := by
  have hadd : env.Later (causeListAdd env m l task).2.2 := by
    unfold causeListAdd
    split
    · exact causeListCopyItems_later _ env _
    · exact causeListAddId_later env _ _
  simp only [commitWriteHook]
  split
  · exact hadd
  · exact hadd

namespace Tb

open CArith Relation

variable {P : Platform} {s s' s'' : State} {id : Int}

/-! ## What charging leaves alone -/

/-- `a'` has got no income since `a`. -/
structure SameIncome (a a' : Account) : Prop where
  rate : a'.rate = a.rate
  lastUpdate : a'.lastUpdate = a.lastUpdate
  held : a'.held = a.held

theorem SameIncome.refl (a : Account) : SameIncome a a := ⟨rfl, rfl, rfl⟩

theorem SameIncome.trans {a a' a'' : Account} (h : SameIncome a a') (h' : SameIncome a' a'') :
    SameIncome a a'' :=
  ⟨h'.rate.trans h.rate, h'.lastUpdate.trans h.lastUpdate, h'.held.trans h.held⟩

theorem saturateCounts_income (hP : P.IsExact) (a : Account) : SameIncome a (saturateCounts P a) := by
  refine ⟨(saturateCounts_same P a).rate, ?_, (saturateCounts_settles hP a).held⟩
  simp only [saturateCounts]
  split <;> rfl

/-- The account `id` stays, without income; if it is new, it was last updated when it was created. -/
structure Unpaid (id : Int) (s s' : State) : Prop where
  later : s.env.Later s'.env
  stays : ∀ a, s.accounts.find id = some a → ∃ a', s'.accounts.find id = some a' ∧ SameIncome a a'
  comes : ∀ a', s'.accounts.find id = some a' → (∃ a, s.accounts.find id = some a ∧ SameIncome a a') ∨
    ∃ n, n < s'.env.tick ∧ a'.lastUpdate = s'.env.clock n

namespace Unpaid

theorem trans (h : Unpaid id s s') (h' : Unpaid id s' s'') : Unpaid id s s'' := by
  refine ⟨h.later.trans h'.later, fun a ha => ?_, fun a'' ha'' => ?_⟩
  · obtain ⟨a', ha', hsame⟩ := h.stays a ha
    obtain ⟨a'', ha'', hsame'⟩ := h'.stays a' ha'
    exact ⟨a'', ha'', hsame.trans hsame'⟩
  · rcases h'.comes a'' ha'' with ⟨a', ha', hsame'⟩ | hnew
    · rcases h.comes a' ha' with ⟨a, ha, hsame⟩ | ⟨n, hn, hnew⟩
      · exact .inl ⟨a, ha, hsame.trans hsame'⟩
      · exact .inr ⟨n, hn.trans_le h'.later.tick, by rw [hsame'.lastUpdate, hnew, h'.later.clock]⟩
    · exact .inr hnew

/-- The account is changed in its place. -/
theorem of_find (henv : s.env.Later s'.env) {f : Account → Account} (hf : ∀ a, SameIncome a (f a))
    (h : s'.accounts.find id = (s.accounts.find id).map f) : Unpaid id s s' := by
  refine ⟨henv, fun a ha => ⟨f a, by rw [h, ha]; rfl, hf a⟩, fun a' ha' => .inl ?_⟩
  rw [h] at ha'
  obtain ⟨a, ha, rfl⟩ := Option.map_eq_some_iff.mp ha'
  exact ⟨a, ha, hf a⟩

theorem of_find_eq (henv : s.env.Later s'.env) (h : s'.accounts.find id = s.accounts.find id) :
    Unpaid id s s' :=
  of_find (f := fun a => a) henv .refl (by rw [h, Option.map_id'])

theorem of_accounts_eq (henv : s.env.Later s'.env) (h : s'.accounts = s.accounts) : Unpaid id s s' :=
  of_find_eq henv (by rw [h])

theorem refl (s : State) : Unpaid id s s := of_accounts_eq (.refl _) rfl

theorem of_modify_of_ne {j : Int} (hj : id ≠ j) (f : Account → Account) :
    Unpaid id s (s.modifyAccount j f) :=
  of_find_eq (.refl _) (by simp [State.modifyAccount, Registry.modify, hj])

theorem of_modify {j : Int} {f : Account → Account} (hf : ∀ a, SameIncome a (f a)) :
    Unpaid id s (s.modifyAccount j f) := by
  by_cases hj : id = j
  · subst hj
    exact of_find (.refl _) hf (by simp [State.modifyAccount, Registry.modify])
  · exact of_modify_of_ne hj f

end Unpaid

theorem newAccount_later (P : Platform) (env : Env) (id : Int) : env.Later (newAccount P env id).2 := by
  simp only [newAccount]
  split
  · exact env.later_succ.trans (Env.later_succ _)
  · exact env.later_succ

/-- A new account is updated as of now. -/
theorem newAccount_updated {env : Env} {a : Account} (h : (newAccount P env id).1 = some a) :
    ∃ n, n < (newAccount P env id).2.tick ∧ a.lastUpdate = (newAccount P env id).2.clock n := by
  simp only [newAccount] at h ⊢
  split at h
  · rename_i hm
    cases h
    rw [if_pos hm]
    exact ⟨env.tick + 1, Nat.lt_succ_self _, rfl⟩
  · cases h

theorem getAccount_unpaid (P : Platform) (s : State) (j : Int) : Unpaid id s (getAccount P s j).2 := by
  have hlater := newAccount_later P s.env j
  rcases getAccount_cases P s j with ⟨-, h⟩ | ⟨hj, a, ha, haid, h⟩ | ⟨-, -, h⟩
  · rw [h]
    exact .refl s
  · rw [h]
    have hfind : (addAccount { s with env := (newAccount P s.env j).2 } a).accounts.find =
        Function.update s.accounts.find j (some a) := by
      simp only [addAccount, haid, Registry.insert, dif_neg hj]
    by_cases hid : id = j
    · subst hid
      have hnone := Registry.find_eq_none hj
      refine ⟨hlater, fun b hb => ?_, fun b hb => .inr ?_⟩
      · rw [hnone] at hb
        cases hb
      · rw [hfind, Function.update_self] at hb
        cases hb
        exact newAccount_updated ha
    · exact .of_find_eq hlater (by rw [hfind, Function.update_of_ne hid])
  · rw [h]
    exact .of_accounts_eq hlater rfl

section Exact

variable (hP : P.IsExact)

include hP

theorem chargeEstimate_unpaid (amt : Int → Int) (s : State) (j : Int) :
    Unpaid id s (chargeEstimate P amt s j) := by
  refine (getAccount_unpaid P s j).trans (.of_modify fun a => ?_)
  obtain ⟨hrate, hlast, hheld⟩ := saturateCounts_income hP
    { a with estimate := P.long (a.estimate + amt (getAccount P s j).1) }
  exact ⟨hrate, hlast, hheld⟩

theorem foldl_chargeEstimate_unpaid (amt : Int → Int) (ids : List Int) (s : State) :
    Unpaid id s (ids.foldl (chargeEstimate P amt) s) :=
  foldl_rel .refl .trans (chargeEstimate_unpaid hP amt) ids s

omit hP in
theorem addToBatches_unpaid (P : Platform) (offset size share : Int) (ids : List Int) :
    ∀ r, Unpaid id r.2 (addToBatches P offset size share ids r).2 := by
  induction ids with
  | nil => exact fun r => .refl r.2
  | cons j ids ih =>
    rintro ⟨full, s⟩
    have hadd : Unpaid id s (addToAccountBatch P offset size share s j).2 :=
      (getAccount_unpaid P s j).trans (.of_modify fun _ => ⟨rfl, rfl, rfl⟩)
    exact hadd.trans (ih (full || (addToAccountBatch P offset size share s j).1, _))

theorem flushAccount_income (combined summed : Int) (a : Account) :
    SameIncome a (flushAccount P combined summed a) := by
  obtain ⟨hrate, hlast, hheld⟩ := saturateCounts_income hP
    { a with
      used := P.long (a.used + P.ulong (safeDiv (P.long (P.ulong
        (combined * (iobatchGetCost P a.batch).1))) (P.long summed)))
      usedRaw := P.long (a.usedRaw + a.batchEstimate)
      estimate := P.long (a.estimate - a.batchEstimate) }
  exact ⟨hrate, hlast, hheld⟩

theorem flush_unpaid (s : State) : Unpaid id s (flush P s) := by
  refine .of_find (f := fun a => flushAccount P (iobatchGetCost P s.batch).1 (summedCost P s.accounts)
    (priceBatch P a)) (.refl _) (fun a => ?_) ?_
  · have hprice : SameIncome a (priceBatch P a) := ⟨rfl, rfl, rfl⟩
    exact hprice.trans (flushAccount_income hP _ _ _)
  · simp only [flush, Registry.map, Option.map_map]
    rfl

theorem doDiskAccounting_unpaid (s : State) (l : Nat) (offset : Int) :
    Unpaid id s (doDiskAccounting P s l offset) := by
  have hglobal : Unpaid id s (addToGlobalBatch P s offset (P.int (s.mem.lists l).size)) :=
    .of_accounts_eq (.refl _) rfl
  have h := fun share full => hglobal.trans
    (addToBatches_unpaid P offset (P.int (s.mem.lists l).size) share (s.mem.lists l).items (full, _))
  simp only [doDiskAccounting]
  split
  · exact (h _ _).trans (flush_unpaid hP _)
  · exact h _ _

theorem accountForCauses_unpaid (s : State) (l : Nat) (offset size : Int) :
    Unpaid id s (accountForCauses P s l offset size) := by
  simp only [accountForCauses]
  refine Unpaid.trans ?_ (doDiskAccounting_unpaid hP _ l offset)
  split
  · exact .of_accounts_eq (.refl _) rfl
  · split
    · refine Unpaid.trans ?_ (foldl_chargeEstimate_unpaid hP _ _ _)
      exact .of_accounts_eq (.refl _) rfl
    · exact .refl s

theorem accountForItems_unpaid (ls : List Nat) : ∀ (offset : Int) (s : State),
    Unpaid id s (accountForItems P ls offset s) := by
  induction ls with
  | nil => exact fun _ => .refl
  | cons l ls ih => exact fun offset s => (accountForCauses_unpaid hP s l offset _).trans (ih _ _)

theorem accountForRqCauses_unpaid (s : State) (rq : Nat) (offset : Int) (bio : Bio) :
    Unpaid id s (accountForRqCauses P s rq offset bio) := by
  unfold accountForRqCauses
  split
  · exact accountForCauses_unpaid hP s _ offset _
  · exact .refl s

theorem accountForBio_unpaid (rq : Nat) (s : State) (bio : Bio) : Unpaid id s (accountForBio P rq s bio) := by
  have hstats : ∀ (t : State) (stats : Stats), Unpaid id t { t with stats := stats } :=
    fun t stats => .of_accounts_eq (.refl _) rfl
  simp only [accountForBio]
  split_ifs <;> refine Unpaid.trans ?_ (hstats _ _) <;>
  · split
    · split
      · exact accountForItems_unpaid hP _ _ s
      · exact accountForRqCauses_unpaid hP s rq _ bio
    · exact accountForRqCauses_unpaid hP s rq _ bio

theorem dispatchSort_unpaid (s : State) (ref : QRef) (rq : Nat) :
    Unpaid id s (dispatchSort P s ref rq) := by
  refine Unpaid.trans (foldl_rel .refl .trans (accountForBio_unpaid hP rq) (s.mem.rqs rq).bios s) ?_
  unfold dispatchSort dispatchStats accountForReq
  simp only
  split_ifs <;> first
    | exact .of_accounts_eq (.refl _) rfl
    | exact .of_accounts_eq (Env.later_succ _) rfl

end Exact

theorem popQueue_unpaid {ref : QRef} {rq : Nat} (h : popQueue s ref = some (rq, s')) : Unpaid id s s' := by
  obtain ⟨rest, -, -, rfl⟩ := popQueue_some h
  have hset : Unpaid id s (s.setQueue ref ⟨rest, (s.queue ref).count - 1, s.env.getnstimeofday.1⟩) := by
    refine .of_modify fun a => ?_
    unfold Account.setQueue
    split <;> exact ⟨rfl, rfl, rfl⟩
  exact hset.trans (.of_accounts_eq (Env.later_succ _) rfl)

/-! ## What the hooks do to the income of an account -/

inductive Move (P : Platform) (id : Int) : State → State → Prop where
  | charge {s s' : State} (h : Unpaid id s s') : Move P id s s'
  | refresh {s s' : State} {j : Int} (h : refreshAccount P s j = some s') : Move P id s s'

abbrev Moves (P : Platform) (id : Int) : State → State → Prop := ReflTransGen (Move P id)

theorem Unpaid.moves (h : Unpaid id s s') : Moves P id s s' := .single (.charge h)

theorem visit_moves (hP : P.IsExact) {b : Bool} {ref : QRef} {v : Visit} (h : visit P b s ref = some v) :
    Moves P id s v.state := by
  simp only [visit] at h
  split at h
  · cases h
  · rename_i s₁ hs₁
    have hr : Moves P id s s₁ := .single (.refresh hs₁)
    have hclock : Moves P id s { s₁ with env := s₁.env.getnstimeofday.2 } :=
      hr.tail (.charge (.of_accounts_eq (Env.later_succ _) rfl))
    split at h
    · cases h
      exact hr
    · split at h
      · split at h
        · rename_i rq s₂ hp
          cases h
          exact hr.trans ((popQueue_unpaid hp).trans (dispatchSort_unpaid hP s₂ ref rq)).moves
        · split at h
          · split at h <;> · cases h; exact hclock
          · cases h
            exact hr
      · cases h
        exact hr

theorem dispatchLoop_moves (hP : P.IsExact) (n : Nat) : ∀ {b : Bool} {m : Int} {s : State}
    {r : Option Int × State}, dispatchLoop P n b m s = some r → Moves P id s r.2 := by
  induction n with
  | zero =>
    intro b m s r h
    cases h
    exact .refl
  | succ n ih =>
    intro b m s r h
    simp only [dispatchLoop] at h
    split at h
    · cases h
    · split at h
      · cases h
      · rename_i hv
        cases h
        exact visit_moves hP hv
      · rename_i hv
        cases h
        exact visit_moves hP hv
      · rename_i s₁ hv
        have hrotate : Moves P id s₁ (rotate s₁) := Unpaid.moves (.of_accounts_eq (.refl _) rfl)
        exact ((visit_moves hP hv).trans hrotate).trans (ih h)

theorem forceLoop_moves (hP : P.IsExact) (k rv : Nat) (s : State) : Moves P id s (forceLoop P k rv s).2 := by
  fun_induction forceLoop P k rv s with
  | case1 k rv s hk rq s' hp ih =>
    exact ((popQueue_unpaid hp).trans (dispatchSort_unpaid hP s' _ rq)).moves.trans ih
  | case2 k rv s hk hp ih => exact ih
  | case3 k rv s hk => exact .refl

theorem decline_unpaid (P : Platform) (usecs : Int) (s : State) : Unpaid id s (decline P usecs s) := by
  simp only [decline]
  split_ifs <;> first
    | exact .of_accounts_eq (.refl _) rfl
    | exact .of_accounts_eq (Env.later_succ _) rfl

theorem tbucketDispatch_moves (hP : P.IsExact) {force : Bool} {r : Int × State}
    (h : tbucketDispatch P s force = some r) : Moves P id s r.2 := by
  simp only [tbucketDispatch] at h
  split at h
  · cases h
    exact forceLoop_moves hP 0 0 s
  · split at h
    · cases h
      exact .refl
    · split at h
      · cases h
      · rename_i hl
        cases h
        exact dispatchLoop_moves hP _ hl
      · rename_i hl
        cases h
        exact (dispatchLoop_moves hP _ hl).trans (decline_unpaid P _ _).moves

theorem maybeSleep_moves {accountId schedUniq : Int} {r : Option Int × State}
    (h : maybeSleep P s accountId schedUniq = some r) : Moves P id s r.2 := by
  have hclock : Unpaid id s { s with env := s.env.getnstimeofday.2 } :=
    .of_accounts_eq (Env.later_succ _) rfl
  simp only [maybeSleep] at h
  split at h
  · cases h
    exact hclock.moves
  · split at h
    · cases h
    · rename_i s' hs'
      have hm : Moves P id s s' :=
        ((hclock.trans (getAccount_unpaid P _ accountId)).moves).tail (.refresh hs')
      split at h <;> · cases h; exact hm

theorem tbucketAddRequest_unpaid (P : Platform) (s : State) (rq : Nat) (cur : Int) :
    Unpaid id s (tbucketAddRequest P s rq cur) := by
  have htag : Unpaid id s (tagRequest s rq cur) := by
    simp only [tagRequest]
    split
    · exact .refl s
    · exact .of_accounts_eq (causeListAddId_later s.env _ cur) rfl
  have hnote : ∀ warn (a : Account), SameIncome a (noteSanity warn a) := by
    intro warn a
    unfold noteSanity
    split <;> exact ⟨rfl, rfl, rfl⟩
  have hset : ∀ (t : State) ref q, Unpaid id t (t.setQueue ref q) := by
    intro t ref q
    refine .of_modify fun a => ?_
    unfold Account.setQueue
    split <;> exact ⟨rfl, rfl, rfl⟩
  exact (((htag.trans (getAccount_unpaid P _ _)).trans (.of_modify (hnote _))).trans
    (hset _ _ _)).trans (.of_accounts_eq (.refl _) rfl)

/-- An event that sets something of the account. -/
def Event.sets (id : Int) : Event → Bool
  | .kvSet j _ _ => decide (j = id)
  | _ => false

theorem tbucketKvSet_unpaid (P : Platform) (s : State) {j : Int} (hj : j ≠ id) (key : String) (val : Int) :
    Unpaid id s (tbucketKvSet P s j key val) := by
  simp only [tbucketKvSet]
  split_ifs with _ _ hk
  · exact .refl s
  · exact (getAccount_unpaid P s j).trans (.of_modify_of_ne (by rw [hk]; exact hj.symm) _)
  · exact getAccount_unpaid P s j
  · exact .refl s

theorem step_moves (hP : P.IsExact) {w w' : World} {e : Event} (he : e.sets id = false)
    (h : step P w e = some w') : Moves P id w.tb w'.tb := by
  cases e with
  | add rq cur =>
    simp only [step] at h
    split at h
    · cases h
    · cases h
      exact (tbucketAddRequest_unpaid P w.tb rq cur).moves
  | merge rq next =>
    simp only [step, tbucketMergeRequest, queueDel] at h
    split at h
    · split at h
      · cases h
      · cases h
        refine Unpaid.moves (.of_modify fun a => ?_)
        unfold Account.setQueue
        split <;> exact ⟨rfl, rfl, rfl⟩
    · cases h
  | dispatch force =>
    obtain ⟨r, hr, rfl⟩ := Option.map_eq_some_iff.mp h
    exact tbucketDispatch_moves hP hr
  | complete =>
    cases h
    exact Unpaid.moves (.of_accounts_eq (.refl _) rfl)
  | kvSet j key val =>
    cases h
    exact (tbucketKvSet_unpaid P w.tb (of_decide_eq_false he) key val).moves
  | dirty q l task bSize inode pos =>
    cases h
    have hhook : Unpaid id w.tb { w.tb with
        mem := (commitWriteHook w.tb.env w.tb.mem q l task bSize).2.1
        env := (commitWriteHook w.tb.env w.tb.mem q l task bSize).2.2 } :=
      .of_accounts_eq (commitWriteHook_later w.tb.env w.tb.mem q l task bSize) rfl
    simp only [dirtyBuffer]
    split
    · refine (hhook.trans (Unpaid.trans ?_ (foldl_chargeEstimate_unpaid hP _ _ _))).moves
      exact .of_accounts_eq (.refl _) rfl
    · exact hhook.moves
  | free l =>
    cases h
    unfold freeCauseList
    split
    · exact (foldl_chargeEstimate_unpaid hP _ _ _).moves
    · exact .refl
  | throttle j uniq =>
    obtain ⟨r, hr, rfl⟩ := Option.map_eq_some_iff.mp h
    exact maybeSleep_moves hr
  | kernel m =>
    cases h
    exact Unpaid.moves (.of_accounts_eq (.refl _) rfl)

/-! ## Income -/

/-- What the account was charged. -/
def Account.spent (a : Account) : Int := a.estimate + a.used

theorem elapsedUs_exact (hP : P.IsExact) {a : Account} {now : Timespec} (hr : 0 ≤ a.rate)
    (hle : a.lastUpdate.ns ≤ now.ns) : refreshInc P now a = elapsedUs now a * a.rate / 1000000 := by
  have hus : 0 ≤ elapsedUs now a := Int.ediv_nonneg (sub_nonneg.mpr hle) (by decide)
  rw [refreshInc_eq, hP.long, hP.ulong, hP.ulong, Int.tdiv_eq_ediv_of_nonneg (mul_nonneg hus hr)]

/-- A refresh that adds tokens adds a quarter of what is due for the time, or more. -/
theorem refreshInc_pays (hP : P.IsExact) {a : Account} {now : Timespec} (hr : 0 ≤ a.rate)
    (hle : a.lastUpdate.ns ≤ now.ns) (hinc : 0 < refreshInc P now a) :
    a.rate * (now.ns - a.lastUpdate.ns) ≤ 4000000000 * refreshInc P now a := by
  rw [elapsedUs_exact hP hr hle] at hinc ⊢
  have hus : 0 < elapsedUs now a := by
    by_contra hus
    have hprod : elapsedUs now a * a.rate ≤ 0 := mul_nonpos_of_nonpos_of_nonneg (not_lt.mp hus) hr
    omega
  -- less than a whole microsecond is dropped, which is less than the time that is paid for
  have htime : now.ns - a.lastUpdate.ns ≤ 2000 * elapsedUs now a := by
    unfold elapsedUs at hus ⊢
    omega
  calc a.rate * (now.ns - a.lastUpdate.ns) ≤ a.rate * (2000 * elapsedUs now a) :=
        mul_le_mul_of_nonneg_left htime hr
    _ = 2000 * (elapsedUs now a * a.rate) := by ring
    -- and less than a token, which is less than the tokens that are added
    _ ≤ 4000000000 * (elapsedUs now a * a.rate / 1000000) := by omega

/-- A refresh that adds nothing leaves less than a token due, and less than a microsecond's worth. -/
theorem refreshInc_owes (hP : P.IsExact) {a : Account} {now : Timespec} (hr : 0 ≤ a.rate)
    (hle : a.lastUpdate.ns ≤ now.ns) (hinc : refreshInc P now a ≤ 0) :
    a.rate * (now.ns - a.lastUpdate.ns) ≤ 1000000000 + 1000 * a.rate := by
  rw [elapsedUs_exact hP hr hle] at hinc
  have htime : now.ns - a.lastUpdate.ns ≤ 1000 * elapsedUs now a + 1000 := by
    unfold elapsedUs
    omega
  calc a.rate * (now.ns - a.lastUpdate.ns) ≤ a.rate * (1000 * elapsedUs now a + 1000) :=
        mul_le_mul_of_nonneg_left htime hr
    _ = 1000 * (elapsedUs now a * a.rate) + 1000 * a.rate := by ring
    _ ≤ 1000000000 + 1000 * a.rate := by omega

theorem refreshAccount_some {j : Int} (h : refreshAccount P s j = some s') :
    s'.env = s.env.getnstimeofday.2 ∧ ∃ a a', s.accounts.find j = some a ∧
      refreshCount P (s.env.clock s.env.tick) a = some a' ∧
      s'.accounts.find = Function.update s.accounts.find j (some a') := by
  simp only [refreshAccount] at h
  split at h
  · cases h
  · rename_i a ha
    split at h
    · cases h
    · rename_i a' ha'
      cases h
      refine ⟨rfl, a, a', ha, ha', ?_⟩
      simp [State.modifyAccount, Registry.modify, ha]

/-- The account was not updated later than now. -/
structure Past (c : Nat → Timespec) (id : Int) (s : State) : Prop where
  clock : s.env.clock = c
  past : ∀ a, s.accounts.find id = some a → a.lastUpdate.ns ≤ (c s.env.tick).ns

/-- What was due to the account up to its last update is covered by four times what it was given. -/
def Earned (id rate since held : Int) (s : State) : Prop :=
  ∃ a, s.accounts.find id = some a ∧ a.rate = rate ∧
    rate * (a.lastUpdate.ns - since) ≤ 4000000000 * (a.held - held)

section Clock

variable {clock : Nat → Timespec} {rate since held : Int}

theorem refreshCount_some {a a' : Account} {now : Timespec} (hP : P.IsExact)
    (h : refreshCount P now a = some a') :
    0 ≤ refreshInc P now a ∧ a'.rate = a.rate ∧ a'.held = a.held + refreshInc P now a ∧
      a'.lastUpdate = if 0 < refreshInc P now a then now else a.lastUpdate := by
  have hinc : 0 ≤ refreshInc P now a := by
    by_contra hneg
    rw [refreshCount_eq, if_pos (not_le.mp hneg)] at h
    cases h
  obtain ⟨b, hb, hpaid⟩ := refreshCount_paid hP hinc
  cases hb.symm.trans h
  exact ⟨hinc, hpaid⟩

/-- A refresh covers the time up to now, but for less than a token and a microsecond. -/
theorem refreshCount_leaves {a a' : Account} {now : Timespec} (hP : P.IsExact) (hr : 0 ≤ a.rate)
    (hle : a.lastUpdate.ns ≤ now.ns) (h : refreshCount P now a = some a') :
    a.rate * (now.ns - a.lastUpdate.ns) ≤ 4000000000 * (a'.held - a.held) + 1000000000 + 1000 * a.rate := by
  obtain ⟨hinc, -, hheld, -⟩ := refreshCount_some hP h
  rcases hinc.lt_or_eq with hpos | hzero
  · linarith [refreshInc_pays hP hr hle hpos]
  · linarith [refreshInc_owes hP hr hle hzero.ge]

theorem Move.past (hP : P.IsExact) (hmono : Monotone fun n => (clock n).ns) (h : Move P id s s')
    (hs : Past clock id s) : Past clock id s' := by
  cases h with
  | charge h =>
    refine ⟨h.later.clock.trans hs.clock, fun a' ha' => ?_⟩
    rcases h.comes a' ha' with ⟨a, ha, hsame⟩ | ⟨n, hn, hnew⟩
    · rw [hsame.lastUpdate]
      exact (hs.past a ha).trans (hmono h.later.tick)
    · rw [hnew, h.later.clock, hs.clock]
      exact hmono hn.le
  | @refresh j h =>
    obtain ⟨henv, a, a', ha, hcount, hfind⟩ := refreshAccount_some h
    have hnext : (clock s.env.tick).ns ≤ (clock s'.env.tick).ns := by
      rw [henv]
      exact hmono (Nat.le_succ _)
    refine ⟨by rw [henv]; exact hs.clock, fun b hb => ?_⟩
    rw [hfind] at hb
    by_cases hj : id = j
    · subst hj
      rw [Function.update_self] at hb
      cases hb
      obtain ⟨-, -, -, hlast⟩ := refreshCount_some hP hcount
      rw [hlast, hs.clock]
      split
      · exact hnext
      · exact (hs.past a ha).trans hnext
    · rw [Function.update_of_ne hj] at hb
      exact (hs.past b hb).trans hnext

theorem Move.earned (hP : P.IsExact) (hrate : 0 ≤ rate) (h : Move P id s s') (hs : Past clock id s)
    (he : Earned id rate since held s) : Earned id rate since held s' := by
  obtain ⟨a, ha, har, hpaid⟩ := he
  cases h with
  | charge h =>
    obtain ⟨a', ha', hsame⟩ := h.stays a ha
    exact ⟨a', ha', hsame.rate.trans har, by rw [hsame.lastUpdate, hsame.held]; exact hpaid⟩
  | @refresh j h =>
    obtain ⟨-, b, b', hb, hcount, hfind⟩ := refreshAccount_some h
    by_cases hj : id = j
    · subst hj
      cases ha.symm.trans hb
      obtain ⟨hinc, hr', hheld, hlast⟩ := refreshCount_some hP hcount
      refine ⟨b', by rw [hfind, Function.update_self], hr'.trans har, ?_⟩
      rw [hheld, hlast]
      split
      · rename_i hpos
        have hpays := refreshInc_pays hP (har ▸ hrate) (by rw [hs.clock]; exact hs.past a ha) hpos
        rw [har] at hpays
        linarith
      · linarith
    · exact ⟨a, by rw [hfind, Function.update_of_ne hj, ha], har, hpaid⟩

theorem Moves.later (h : Moves P id s s') : s.env.Later s'.env := by
  induction h with
  | refl => exact .refl _
  | tail _ hmove ih =>
    cases hmove with
    | charge h => exact ih.trans h.later
    | refresh h =>
      rw [(refreshAccount_some h).1]
      exact ih.trans (Env.later_succ _)

theorem Moves.past (hP : P.IsExact) (hmono : Monotone fun n => (clock n).ns) (h : Moves P id s s')
    (hs : Past clock id s) : Past clock id s' := by
  induction h with
  | refl => exact hs
  | tail _ hmove ih => exact hmove.past hP hmono ih

theorem Moves.earned (hP : P.IsExact) (hmono : Monotone fun n => (clock n).ns) (hrate : 0 ≤ rate)
    (h : Moves P id s s') (hs : Past clock id s) (he : Earned id rate since held s) :
    Earned id rate since held s' := by
  induction h with
  | refl => exact he
  | tail hmoves hmove ih => exact hmove.earned hP hrate (Moves.past hP hmono hmoves hs) ih

theorem kvApply_lastUpdate (key : String) (val : Int) (a : Account) :
    (kvApply P key val a).lastUpdate = a.lastUpdate := by
  have hsat : ∀ b : Account, (saturateCounts P b).lastUpdate = b.lastUpdate := by
    intro b
    simp only [saturateCounts]
    split <;> rfl
  unfold kvApply
  split_ifs <;> first | rfl | rw [hsat]

/-- A control message does not change when the account was updated, whatever it sets. -/
theorem tbucketKvSet_past (hmono : Monotone fun n => (clock n).ns) (j : Int) (key : String) (val : Int)
    (hs : Past clock id s) (hP : P.IsExact) : Past clock id (tbucketKvSet P s j key val) := by
  have hget : Past clock id (getAccount P s j).2 :=
    Move.past hP hmono (.charge (getAccount_unpaid P s j)) hs
  simp only [tbucketKvSet]
  split_ifs with _ _ hk
  · exact hs
  · refine ⟨hget.clock, fun b hb => ?_⟩
    by_cases hj : id = j
    · simp only [State.modifyAccount, Registry.modify, hk, hj, Function.update_self] at hb
      obtain ⟨a, ha, rfl⟩ := Option.map_eq_some_iff.mp hb
      rw [kvApply_lastUpdate]
      exact hget.past a (hj ▸ ha)
    · simp only [State.modifyAccount, Registry.modify, hk, Function.update_of_ne hj] at hb
      exact hget.past b hb
  · exact hget
  · exact hs

theorem step_past (hP : P.IsExact) (hmono : Monotone fun n => (clock n).ns) {w w' : World} {e : Event}
    (h : step P w e = some w') (hs : Past clock id w.tb) : Past clock id w'.tb := by
  cases hset : e.sets id with
  | false => exact Moves.past hP hmono (step_moves hP hset h) hs
  | true =>
    cases e with
    | kvSet j key val =>
      cases h
      exact tbucketKvSet_past hmono j key val hs hP
    | _ => cases hset

end Clock

theorem tbucketInitQueue_past {m : Mem} {env : Env} (hmono : Monotone fun n => (env.clock n).ns)
    (h : tbucketInitQueue P m env = some s) (id : Int) : Past env.clock id s := by
  simp only [tbucketInitQueue] at h
  split at h
  · cases h
  · split at h
    · rename_i a _ ha _
      cases h
      have hlater : env.Later (newAccount P env.kmalloc.2.kmalloc.2 defaultAccount).2 :=
        (env.later_succ.trans (Env.later_succ _)).trans (newAccount_later P _ _)
      have hall : (Registry.empty.insert .tail a.id a).All fun a => a.lastUpdate.ns ≤
          (env.clock (newAccount P env.kmalloc.2.kmalloc.2 defaultAccount).2.tick).ns := by
        refine Registry.All.insert (fun k a ha => by cases ha) ?_
        obtain ⟨n, hn, hlast⟩ := newAccount_updated ha
        rw [hlast, hlater.clock]
        exact hmono hn.le
      exact ⟨hlater.clock, fun b hb => (hall id b hb).trans (hmono (Nat.le_succ _))⟩
    · cases h

/-! ## The loop -/

/-- The next reading of the clock. -/
def World.now (w : World) : Int := (w.tb.env.clock w.tb.env.tick).ns

/-- A task in the loop of `tbucket_write_entry` or `tbucket_create_entry`, and everything else. -/
structure Writer where
  world : World
  /-- The end of its sleep, in nanoseconds. -/
  wake : Int
  looping : Bool
  sleeps : Nat
  signals : Nat

inductive Writer.Event where
  | other (e : Tb.Event)
  | signal
  | call

def Writer.Event.sets (id : Int) : Writer.Event → Bool
  | .other e => e.sets id
  | _ => false

namespace Writer

def enter (w : World) : Writer where
  world := w
  wake := w.now
  looping := true
  sleeps := 0
  signals := 0

/-- The task calls `maybe_sleep` again once it has slept to the end, or a signal has cut its sleep short: the
loop does not look at what `hrtimer_nanosleep` returns. -/
def step (P : Platform) (id uniq : Int) (v : Writer) : Writer.Event → Option Writer
  | .other e => (Tb.step P v.world e).map fun w => { v with world := w }
  | .signal => some { v with wake := min v.wake v.world.now, signals := v.signals + 1 }
  | .call =>
    if v.looping = true ∧ v.wake ≤ v.world.now then
      match maybeSleep P v.world.tb id uniq with
      | none => none
      | some (some usecs, s) =>
        some { v with
          world := { v.world with tb := s }
          wake := v.world.now + usecs * 1000
          sleeps := v.sleeps + 1 }
      | some (none, s) => some { v with world := { v.world with tb := s }, looping := false }
    else none

end Writer

section Loop

variable {clock : Nat → Timespec} {rate since held uniq : Int} {a a' : Account}

/-- `maybe_sleep` sleeps only if the account is in debt after the refresh. -/
theorem maybeSleep_sleeps {usecs : Int} (ha : s.accounts.find id = some a)
    (h : maybeSleep P s id uniq = some (some usecs, s')) (ha' : s'.accounts.find id = some a') :
    refreshCount P (s.env.clock (s.env.tick + 1)) a = some a' ∧ count P a' < 0 ∧ 100 ≤ usecs := by
  have hkey : id ∈ s.accounts.keys := (s.accounts.dom id).mp (by rw [ha]; rfl)
  have hget : getAccount P { s with env := s.env.getnstimeofday.2 } id =
      (id, { s with env := s.env.getnstimeofday.2 }) := by
    simp [getAccount, hkey]
  simp only [maybeSleep, hget] at h
  split at h
  · cases h
  · split at h
    · cases h
    · rename_i s₁ hs₁
      obtain ⟨-, b, b', hb, hcount, hfind⟩ := refreshAccount_some hs₁
      cases ha.symm.trans hb
      split at h
      · rename_i hdebt
        cases h
        rw [hfind, Function.update_self] at ha'
        cases ha'
        simp only [Registry.val, hfind, Function.update_self, Option.map_some, Option.getD_some, Bool.and_eq_true,
          decide_eq_true_eq] at hdebt ⊢
        exact ⟨hcount, hdebt.1, le_min (le_max_right _ _) (by norm_num)⟩
      · cases h

namespace Writer

variable {v v' : Writer} {e : Writer.Event} {start : Int}

theorem step_call_looping (h : v.step P id uniq .call = some v') (hloop : v'.looping = true) :
    v.wake ≤ v.world.now ∧ ∃ usecs s', maybeSleep P v.world.tb id uniq = some (some usecs, s') ∧
      v' = { v with
        world := { v.world with tb := s' }
        wake := v.world.now + usecs * 1000
        sleeps := v.sleeps + 1 } := by
  simp only [step] at h
  split at h
  · rename_i hturn
    split at h
    · cases h
    · rename_i usecs s' hs'
      cases h
      exact ⟨hturn.2, usecs, s', hs', rfl⟩
    · cases h
      cases hloop
  · cases h

theorem Moves.now (hmono : Monotone fun n => (clock n).ns) {w w' : World} (h : Moves P id w.tb w'.tb)
    (hs : Past clock id w.tb) : w.now ≤ w'.now := by
  unfold World.now
  rw [(Moves.later h).clock, hs.clock]
  exact hmono (Moves.later h).tick

/-- The account has earned its income since the task came, and every sleep that no signal cut short has taken
100 microseconds or more. -/
structure Throttled (c : Nat → Timespec) (id rate since held start : Int) (v : Writer) : Prop where
  past : Past c id v.world.tb
  earned : Earned id rate since held v.world.tb
  slept : start + 100000 * v.sleeps ≤ v.wake + 100000 * v.signals
  called : start + 100000 * v.sleeps ≤ v.world.now + 100000 * (v.signals + 1)

theorem Throttled.moves (hP : P.IsExact) (hmono : Monotone fun n => (clock n).ns) (hrate : 0 ≤ rate)
    (h : Throttled clock id rate since held start v) (hw : Moves P id v.world.tb v'.world.tb)
    (hwake : v'.wake = v.wake) (hsleeps : v'.sleeps = v.sleeps) (hsignals : v'.signals = v.signals) :
    Throttled clock id rate since held start v' := by
  obtain ⟨hpast, hearned, hslept, hcalled⟩ := h
  refine ⟨Moves.past hP hmono hw hpast, Moves.earned hP hmono hrate hw hpast hearned, ?_, ?_⟩
  · rw [hwake, hsleeps, hsignals]
    exact hslept
  · rw [hsleeps, hsignals]
    linarith [Moves.now hmono hw hpast]

theorem step_throttled (hP : P.IsExact) (hmono : Monotone fun n => (clock n).ns) (hrate : 0 ≤ rate)
    (he : e.sets id = false) (h : v.step P id uniq e = some v')
    (hv : Throttled clock id rate since held start v) : Throttled clock id rate since held start v' := by
  cases e with
  | other e =>
    obtain ⟨w, hw, rfl⟩ := Option.map_eq_some_iff.mp h
    exact hv.moves hP hmono hrate (Tb.step_moves hP he hw) rfl rfl rfl
  | signal =>
    cases h
    obtain ⟨hpast, hearned, hslept, hcalled⟩ := hv
    refine ⟨hpast, hearned, ?_, ?_⟩
    · rcases le_total v.wake v.world.now with hle | hle
      · push_cast [min_eq_left hle]
        linarith
      · push_cast [min_eq_right hle]
        linarith
    · push_cast
      linarith
  | call =>
    simp only [step] at h
    split at h
    · rename_i hturn
      split at h
      · cases h
      · rename_i usecs s' hs
        cases h
        obtain ⟨hpast, hearned, hslept, hcalled⟩ := hv
        have hm : Moves P id v.world.tb s' := maybeSleep_moves hs
        have hearned' := Moves.earned hP hmono hrate hm hpast hearned
        obtain ⟨a, ha⟩ := hearned.imp fun _ h => h.1
        obtain ⟨a', ha'⟩ := hearned'.imp fun _ h => h.1
        obtain ⟨-, -, husecs⟩ := maybeSleep_sleeps ha hs ha'
        have hnow : v.world.now ≤ World.now { v.world with tb := s' } := Moves.now hmono hm hpast
        refine ⟨Moves.past hP hmono hm hpast, hearned', ?_, ?_⟩
        · push_cast
          linarith [hturn.2]
        · push_cast
          linarith [hturn.2]
      · rename_i hs
        cases h
        exact hv.moves hP hmono hrate (maybeSleep_moves hs) rfl rfl rfl
    · cases h

end Writer

end Loop

/-- When `maybe_sleep` puts a task to sleep once more, it has held the task back for less time than its account
needs, at a quarter of its rate, to earn its debt and what it is charged and loses meanwhile, and one microsecond.
The task has slept at most once for every 100 microseconds of this time and once for every sleep that a signal cut
short. -/
theorem throttled_time_bounded (P : Platform) (hP : P.IsExact) (m : Mem) (env : Env)
    (hmono : Monotone fun n => (env.clock n).ns) (s : State) (es : List Event) (w : World)
    (es' : List Writer.Event) (v v' : Writer) (id uniq : Int) (a a' : Account)
    (h0 : tbucketInitQueue P m env = some s) (hr : run (step P) (World.init s) es = some w)
    (ha : w.tb.accounts.find id = some a) (hrate : 0 < a.rate)
    (hr' : run (Writer.step P id uniq) (Writer.enter w) es' = some v)
    (hset : ∀ e ∈ es', e.sets id = false) (hcall : v.step P id uniq .call = some v')
    (hloop : v'.looping = true) (ha' : v'.world.tb.accounts.find id = some a') :
    a.rate * (v.world.now - w.now) <
      4000000000 * (-count P a + (a'.spent - a.spent) + (a'.lost - a.lost)) + 1000 * a.rate ∧
    100000 * (v.sleeps : Int) ≤ v.world.now - w.now + 100000 * v.signals := by
  have hpast : Past env.clock id w.tb := run_invariant (I := fun w : World => Past env.clock id w.tb)
    (fun _ _ _ hs h => step_past hP hmono hs h) hr (tbucketInitQueue_past hmono h0 id)
  have henter : Writer.Throttled env.clock id a.rate a.lastUpdate.ns a.held w.now (Writer.enter w) := by
    refine ⟨hpast, ⟨a, ha, rfl, by simp⟩, ?_, ?_⟩ <;> simp [Writer.enter]
  have hv := run_invariant_of_meets
    (fun _ _ _ hs he hv => Writer.step_throttled hP hmono hrate.le he hs hv) hr'
    ((meets_iff_forall hr').mpr hset) henter
  obtain ⟨hwake, usecs, s', hs, rfl⟩ := Writer.step_call_looping hcall hloop
  obtain ⟨b, hb, hbrate, hearned⟩ := hv.earned
  obtain ⟨hcount, hdebt, -⟩ := maybeSleep_sleeps hb hs ha'
  refine ⟨?_, by linarith [hv.slept]⟩
  have hmid : v.world.now ≤ (env.clock (v.world.tb.env.tick + 1)).ns := by
    unfold World.now
    rw [hv.past.clock]
    exact hmono (Nat.le_succ _)
  rw [hv.past.clock] at hcount
  have hleft := refreshCount_leaves hP (hbrate ▸ hrate.le) ((hv.past.past b hb).trans (hmono (Nat.le_succ _)))
    hcount
  rw [hbrate] at hleft
  have hdue : a'.held - a.held ≤ -count P a + (a'.spent - a.spent) + (a'.lost - a.lost) - 1 := by
    simp only [count, hP.long, Account.held, Account.spent] at hdebt ⊢
    omega
  have hstart : a.lastUpdate.ns ≤ w.now := by
    unfold World.now
    rw [hpast.clock]
    exact hpast.past a ha
  calc a.rate * (v.world.now - w.now)
      ≤ a.rate * ((env.clock (v.world.tb.env.tick + 1)).ns - a.lastUpdate.ns) :=
        mul_le_mul_of_nonneg_left (by linarith) hrate.le
    _ ≤ 4000000000 * (a'.held - a.held) + 1000000000 + 1000 * a.rate := by linarith
    _ < 4000000000 * (-count P a + (a'.spent - a.spent) + (a'.lost - a.lost)) + 1000 * a.rate := by linarith

/-- Account 7 is in debt, and a signal wakes its task. -/
theorem throttled_time_bounded_debt :
    ∃ s w v v' a a', tbucketInitQueue .exact sampleMem ⟨fun n => ⟨n, 0⟩, fun _ => true, 0⟩ = some s ∧
      run (step .exact) (World.init s) [.kvSet 7 "rate" 10, .kvSet 7 "count" (-1000)] = some w ∧
      run (Writer.step .exact 7 sampleMem.schedUniq) (Writer.enter w)
        [.call, .signal, .call, .other (.throttle 8 sampleMem.schedUniq), .signal] = some v ∧
      v.step .exact 7 sampleMem.schedUniq .call = some v' ∧ v'.sleeps = 3 ∧
      w.tb.accounts.find 7 = some a ∧ v'.world.tb.accounts.find 7 = some a' ∧
      a.rate * (v.world.now - w.now) <
        4000000000 * (-count .exact a + (a'.spent - a.spent) + (a'.lost - a.lost)) + 1000 * a.rate ∧
      100000 * (v.sleeps : Int) ≤ v.world.now - w.now + 100000 * v.signals := by
  have h : ((tbucketInitQueue .exact sampleMem ⟨fun n => ⟨n, 0⟩, fun _ => true, 0⟩).bind fun s =>
      run (step .exact) (World.init s) [.kvSet 7 "rate" 10, .kvSet 7 "count" (-1000)]).any (fun w =>
        ((run (Writer.step .exact 7 sampleMem.schedUniq) (Writer.enter w)
          [.call, .signal, .call, .other (.throttle 8 sampleMem.schedUniq), .signal]).any (fun v =>
          (v.step .exact 7 sampleMem.schedUniq .call).any (fun v' =>
            decide (v'.sleeps = 3 ∧ v'.looping = true ∧
              (w.tb.accounts.find 7).any (fun a => decide (0 < a.rate)) = true ∧
              (v'.world.tb.accounts.find 7).isSome = true))))) = true := by
    decide +kernel
  obtain ⟨w, hw, hok⟩ := (Option.any_eq_true _ _).mp h
  obtain ⟨s, hs, hr⟩ := Option.bind_eq_some_iff.mp hw
  obtain ⟨v, hr', hok⟩ := (Option.any_eq_true _ _).mp hok
  obtain ⟨v', hcall, hok⟩ := (Option.any_eq_true _ _).mp hok
  obtain ⟨hsleeps, hloop, ha, ha'⟩ := of_decide_eq_true hok
  obtain ⟨a, ha, hrate⟩ := (Option.any_eq_true _ _).mp ha
  obtain ⟨a', ha'⟩ := Option.isSome_iff_exists.mp ha'
  have hmono : Monotone fun n : Nat => (⟨n, 0⟩ : Timespec).ns := by
    intro i j hij
    simp only [Timespec.ns]
    omega
  exact ⟨s, w, v, v', a, a', hs, hr, hr', hcall, hsleeps, ha, ha',
    throttled_time_bounded .exact Platform.isExact_exact sampleMem _ hmono s _ w _ v v' 7 _ a a' hs hr ha
      (of_decide_eq_true hrate) hr' (by simp [Writer.Event.sets, Event.sets]) hcall hloop ha'⟩

end Tb
end SplitSched
