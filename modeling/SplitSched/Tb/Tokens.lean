import SplitSched.Lib.Run
import SplitSched.Tb.Dispatch

/-!
# SplitSched.Tb.Tokens

The token counters of an account over whole runs, with exact arithmetic. Every function that touches
a counter saturates the account afterwards, so what an account may spend at once stays within its
limit, and saturation only moves tokens from `credit` to `lost`.

* `Settles a a'`: what a change of an account that ends in `saturate_counts` does to it;
  `Keeps s s'`: the same for all accounts of a state, proved once for every charging function.
* `Books`: the scheduler together with the tally of what was added to each account, by
  `refresh_count` and by the control message `count`.
* `tokens_capped_and_booked`: the cap, the growth of `lost` and the balance of the books, along every
  run.
-/

namespace SplitSched
namespace Tb

open CArith

variable {P : Platform} {s s' s'' : State}

/-! ## One account -/

namespace Account

/-- What the account may spend is within its limit. -/
def Capped (a : Account) : Prop := a.credit - (a.estimate + a.used) ≤ a.limit

/-- Tokens the account has been given, spent or not. -/
def held (a : Account) : Int := a.credit + a.lost

end Account

structure Settles (a a' : Account) : Prop where
  capped : a'.Capped
  held : a'.held = a.held
  lost : a.lost ≤ a'.lost

theorem saturateCounts_settles (hP : P.IsExact) (a : Account) : Settles a (saturateCounts P a) := by
  simp only [saturateCounts, count, hP.long]
  split
  · rename_i h
    refine ⟨?_, ?_, ?_⟩
    · simp only [Account.Capped]
      omega
    · simp only [Account.held]
      omega
    · simp only
      omega
  · rename_i h
    refine ⟨?_, rfl, le_refl _⟩
    simp only [Account.Capped]
    omega

/-- The increment `refresh_count` computes. -/
def refreshInc (P : Platform) (now : Timespec) (a : Account) : Int :=
  let update := now.sub a.lastUpdate
  let usecs := P.ulong (update.sec * 1000000 + update.nsec.tdiv 1000)
  P.long ((P.ulong (usecs * a.rate)).tdiv 1000000)

theorem refreshCount_eq (P : Platform) (now : Timespec) (a : Account) :
    refreshCount P now a =
      if refreshInc P now a < 0 then none
      else if 0 < refreshInc P now a then
        some { saturateCounts P { a with credit := P.long (a.credit + refreshInc P now a) } with
          lastUpdate := now }
      else some a := rfl

/-- Refreshing adds its increment to what the account holds. -/
theorem refreshCount_held (hP : P.IsExact) {now : Timespec} {a a' : Account}
    (h : refreshCount P now a = some a') (hc : a.Capped) :
    a'.Capped ∧ a'.held = a.held + refreshInc P now a ∧ a.lost ≤ a'.lost := by
  rw [refreshCount_eq] at h
  split at h
  · cases h
  · split at h
    · cases h
      obtain ⟨hcap, hheld, hlost⟩ := saturateCounts_settles hP
        { a with credit := P.long (a.credit + refreshInc P now a) }
      refine ⟨hcap, ?_, hlost⟩
      show (saturateCounts P _).held = _
      rw [hheld]
      simp only [Account.held, hP.long]
      ring
    · cases h
      exact ⟨hc, by omega, le_refl _⟩

/-- Only the control message `count` gives or takes tokens: what it adds brings the account to the
value it names. -/
theorem kvApply_held (hP : P.IsExact) (key : String) (val : Int) {a : Account} (hc : a.Capped) :
    (kvApply P key val a).Capped ∧
      (kvApply P key val a).held = a.held + (if key = "count" then val - count P a else 0) ∧
      a.lost ≤ (kvApply P key val a).lost := by
  simp only [kvApply]
  split
  · rename_i hk
    subst hk
    obtain ⟨hcap, hheld, hlost⟩ := saturateCounts_settles hP { a with rate := val }
    exact ⟨hcap, by rw [hheld]; simp [Account.held], hlost⟩
  · split
    · rename_i hk
      subst hk
      obtain ⟨hcap, hheld, hlost⟩ := saturateCounts_settles hP { a with limit := val }
      exact ⟨hcap, by rw [hheld]; simp [Account.held], hlost⟩
    · split
      · obtain ⟨hcap, hheld, hlost⟩ := saturateCounts_settles hP
          { a with credit := P.long (a.credit + (val - count P a)) }
        refine ⟨hcap, ?_, hlost⟩
        rw [hheld]
        simp only [Account.held, hP.long]
        ring
      · exact ⟨hc, (add_zero _).symm, le_refl _⟩

/-! ## All accounts of a state -/

namespace State

def held (s : State) (id : Int) : Int := s.accounts.val Account.held 0 id

def lost (s : State) (id : Int) : Int := s.accounts.val (·.lost) 0 id

end State

structure Keeps (s s' : State) : Prop where
  capped : s.accounts.All Account.Capped → s'.accounts.All Account.Capped
  held : ∀ id, s'.held id = s.held id
  lost : ∀ id, s.lost id ≤ s'.lost id

namespace Keeps

theorem of_accounts_eq (h : s'.accounts = s.accounts) : Keeps s s' where
  capped hc := h ▸ hc
  held id := by simp only [State.held, h]
  lost id := by simp only [State.lost, h, le_refl]

theorem refl (s : State) : Keeps s s := of_accounts_eq rfl

theorem trans (h : Keeps s s') (h' : Keeps s' s'') : Keeps s s'' where
  capped hc := h'.capped (h.capped hc)
  held id := (h'.held id).trans (h.held id)
  lost id := (h.lost id).trans (h'.lost id)

theorem of_modify {id : Int} {f : Account → Account} (hc : ∀ a, a.Capped → (f a).Capped)
    (hh : ∀ a, (f a).held = a.held) (hl : ∀ a, a.lost ≤ (f a).lost) :
    Keeps s (s.modifyAccount id f) where
  capped h := h.modify fun a ha => hc a (h id a ha)
  held j := congrFun (Registry.val_modify_keep hh) j
  lost j := Registry.val_modify_rel (r := (· ≤ ·)) le_refl hl 0 j

end Keeps

theorem newAccount_tokens {env : Env} {id : Int} {a : Account}
    (h : (newAccount P env id).1 = some a) : a.Capped ∧ a.held = 0 ∧ a.lost = 0 ∧ count P a = P.long 0 := by
  simp only [newAccount] at h
  split at h
  · cases h
    exact ⟨by simp [Account.Capped], rfl, rfl, rfl⟩
  · cases h

theorem getAccount_keeps (P : Platform) (s : State) (id : Int) : Keeps s (getAccount P s id).2 where
  capped h := by
    rcases getAccount_cases P s id with ⟨-, hs⟩ | ⟨-, a, ha, -, hs⟩ | ⟨-, -, hs⟩
    · rw [hs]
      exact h
    · rw [hs]
      exact h.insert (newAccount_tokens ha).1
    · rw [hs]
      exact h
  held j := congrFun (getAccount_val fun _ ha => (newAccount_tokens ha).2.1) j
  lost j := (congrFun (getAccount_val fun _ ha => (newAccount_tokens ha).2.2.1) j).ge

/-- An account other than the default one is there once it was returned. -/
theorem getAccount_reached {id : Int} (hid : id ≠ 0) (h : (getAccount P s id).1 = id) :
    id ∈ (getAccount P s id).2.accounts.keys := by
  rcases getAccount_cases P s id with ⟨hk, hs⟩ | ⟨-, a, -, ha, hs⟩ | ⟨-, -, hs⟩
  · rw [hs]
    exact hk
  · rw [hs]
    exact (Registry.mem_keys_insert _ _ _ _ _).mpr (.inl ha.symm)
  · rw [hs] at h
    exact absurd h.symm hid

/-! ## The charging functions -/

theorem chargeEstimate_keeps (hP : P.IsExact) (amt : Int → Int) (s : State) (id : Int) :
    Keeps s (chargeEstimate P amt s id) := by
  have hs := fun a : Account => saturateCounts_settles hP
    { a with estimate := P.long (a.estimate + amt (getAccount P s id).1) }
  exact (getAccount_keeps P s id).trans
    (.of_modify (fun a _ => (hs a).capped) (fun a => (hs a).held) fun a => (hs a).lost)

theorem foldl_chargeEstimate_keeps (hP : P.IsExact) (amt : Int → Int) (ids : List Int) (s : State) :
    Keeps s (ids.foldl (chargeEstimate P amt) s) :=
  foldl_rel .refl .trans (chargeEstimate_keeps hP amt) ids s

theorem addToBatches_keeps (P : Platform) (offset size share : Int) (ids : List Int) :
    ∀ r, Keeps r.2 (addToBatches P offset size share ids r).2 := by
  induction ids with
  | nil => exact fun r => .refl r.2
  | cons id ids ih =>
    rintro ⟨full, s⟩
    have hadd : Keeps s (addToAccountBatch P offset size share s id).2 :=
      (getAccount_keeps P s id).trans (.of_modify (fun _ hc => hc) (fun _ => rfl) fun _ => le_refl _)
    exact hadd.trans (ih (full || (addToAccountBatch P offset size share s id).1, _))

theorem flushAccount_settles (hP : P.IsExact) (combined summed : Int) (a : Account) :
    Settles a (flushAccount P combined summed a) := by
  obtain ⟨hcap, hheld, hlost⟩ := saturateCounts_settles hP
    { a with
      used := P.long (a.used + P.ulong (safeDiv (P.long (P.ulong
        (combined * (iobatchGetCost P a.batch).1))) (P.long summed)))
      usedRaw := P.long (a.usedRaw + a.batchEstimate)
      estimate := P.long (a.estimate - a.batchEstimate) }
  exact ⟨hcap, hheld, hlost⟩

theorem flush_keeps (hP : P.IsExact) (s : State) : Keeps s (flush P s) := by
  have hflush := flushAccount_settles hP (iobatchGetCost P s.batch).1 (summedCost P s.accounts)
  refine ⟨fun h => ?_, fun id => ?_, fun id => ?_⟩
  · exact (h.map (f := priceBatch P) (q := Account.Capped) fun _ hc => hc).map
      fun a _ => (hflush a).capped
  · refine (congrFun (Registry.val_map_keep fun a => (hflush a).held) id).trans ?_
    exact congrFun (Registry.val_map_keep (f := priceBatch P) fun _ => rfl) id
  · refine le_trans ?_ (Registry.val_map_rel le_refl (fun a => (hflush a).lost) 0 id)
    exact Registry.val_map_rel (f := priceBatch P) (r := (· ≤ ·)) le_refl (fun _ => le_refl _) 0 id

theorem doDiskAccounting_keeps (hP : P.IsExact) (s : State) (l : Nat) (offset : Int) :
    Keeps s (doDiskAccounting P s l offset) := by
  have hglobal : Keeps s (addToGlobalBatch P s offset (P.int (s.mem.lists l).size)) := .of_accounts_eq rfl
  have h := fun share full => hglobal.trans
    (addToBatches_keeps P offset (P.int (s.mem.lists l).size) share (s.mem.lists l).items (full, _))
  simp only [doDiskAccounting]
  split
  · exact (h _ _).trans (flush_keeps hP _)
  · exact h _ _

theorem accountForCauses_keeps (hP : P.IsExact) (s : State) (l : Nat) (offset size : Int) :
    Keeps s (accountForCauses P s l offset size) := by
  simp only [accountForCauses]
  refine Keeps.trans ?_ (doDiskAccounting_keeps hP _ l offset)
  split
  · exact .of_accounts_eq rfl
  · split
    · refine Keeps.trans ?_ (foldl_chargeEstimate_keeps hP _ _ _)
      exact .of_accounts_eq rfl
    · exact .refl s

theorem tbucketCausesDirty_keeps (hP : P.IsExact) (s : State) (l : Nat) (newId : Int) (inode : Nat)
    (pos : Int) : Keeps s (tbucketCausesDirty P s l newId inode pos) := by
  refine Keeps.trans ?_ (foldl_chargeEstimate_keeps hP _ _ _)
  exact .of_accounts_eq rfl

theorem tbucketCausesFree_keeps (hP : P.IsExact) (s : State) (l : Nat) :
    Keeps s (tbucketCausesFree P s l) := foldl_chargeEstimate_keeps hP _ _ s

/-! ## Books -/

/-- The scheduler, and what each account was given: by `refresh_count`, and by the control message
`count`. -/
structure Books where
  tb : State
  increments : Int → Int
  adjustments : Int → Int

namespace Books

def init (s : State) : Books := ⟨s, fun _ => 0, fun _ => 0⟩

inductive Event where
  | getAccount (id : Int)
  | refresh (id : Int)
  | kvSet (id : Int) (key : String) (val : Int)
  | causesDirty (l : Nat) (newId : Int) (inode : Nat) (pos : Int)
  | causesFree (l : Nat)
  | accountForCauses (l : Nat) (offset size : Int)
  /-- The rest of the kernel: cause lists change, time passes. -/
  | kernel (m : Mem)

/-- What `refresh_count` adds to the credit of an account. -/
def increment (P : Platform) (s : State) (id : Int) : Int :=
  s.accounts.val (refreshInc P s.env.getnstimeofday.1) 0 id

/-- What the control message adds to the credit of an account: `val - count(account)` if it is
`count`, and it reaches the account. -/
def adjustment (P : Platform) (s : State) (id : Int) (key : String) (val : Int) : Int :=
  if key = "count" ∧ id ≠ 0 ∧ (getAccount P s id).1 = id then
    val - (getAccount P s id).2.accounts.val (count P) 0 id
  else 0

def step (P : Platform) (b : Books) : Event → Option Books
  | .getAccount id => some { b with tb := (Tb.getAccount P b.tb id).2 }
  | .refresh id => (refreshAccount P b.tb id).map fun s =>
      { b with
        tb := s
        increments := Function.update b.increments id (b.increments id + increment P b.tb id) }
  | .kvSet id key val =>
    some
      { b with
        tb := tbucketKvSet P b.tb id key val
        adjustments := Function.update b.adjustments id
          (b.adjustments id + adjustment P b.tb id key val) }
  | .causesDirty l newId inode pos =>
    some { b with tb := tbucketCausesDirty P b.tb l newId inode pos }
  | .causesFree l => some { b with tb := tbucketCausesFree P b.tb l }
  | .accountForCauses l offset size => some { b with tb := Tb.accountForCauses P b.tb l offset size }
  | .kernel m => some { b with tb := { b.tb with mem := m } }

structure Sound (b : Books) : Prop where
  capped : b.tb.accounts.All Account.Capped
  booked : ∀ id, b.tb.held id = b.increments id + b.adjustments id

variable {b b' : Books} {e : Event}

theorem Sound.keep (h : b.Sound) (hk : Keeps b.tb s) : Sound { b with tb := s } where
  capped := hk.capped h.capped
  booked id := (hk.held id).trans (h.booked id)

/-- One account changes: the books change by what it was given. -/
theorem Sound.modify {id : Int} {a : Account} {f : Account → Account} {given : Int} (h : b.Sound)
    (ha : b.tb.accounts.find id = some a) (hcap : (f a).Capped) (hheld : (f a).held = a.held + given)
    (hlost : a.lost ≤ (f a).lost) :
    (b.tb.modifyAccount id f).accounts.All Account.Capped ∧
      (∀ j, (b.tb.modifyAccount id f).held j =
        Function.update (fun j => b.increments j + b.adjustments j) id
          (b.increments id + b.adjustments id + given) j) ∧
      ∀ j, b.tb.lost j ≤ (b.tb.modifyAccount id f).lost j := by
  refine ⟨h.capped.modify fun a' ha' => ?_, fun j => ?_, fun j => ?_⟩
  · cases ha.symm.trans ha'
    exact hcap
  · simp only [State.held, State.modifyAccount, Registry.val_modify_of_find ha]
    by_cases hj : j = id
    · subst hj
      have hold : b.tb.held j = a.held := by simp [State.held, Registry.val, ha]
      rw [Function.update_self, Function.update_self, hheld, ← hold, h.booked]
    · rw [Function.update_of_ne hj, Function.update_of_ne hj]
      exact h.booked j
  · simp only [State.lost, State.modifyAccount, Registry.val_modify_of_find ha]
    by_cases hj : j = id
    · subst hj
      simpa [Registry.val, ha] using hlost
    · rw [Function.update_of_ne hj]

theorem refresh_sound (hP : P.IsExact) {id : Int} (h : b.Sound)
    (hs : step P b (.refresh id) = some b') :
    b'.Sound ∧ ∀ j, b.tb.lost j ≤ b'.tb.lost j := by
  simp only [step] at hs
  obtain ⟨t, ht, rfl⟩ := Option.map_eq_some_iff.mp hs
  simp only [refreshAccount] at ht
  split at ht
  · cases ht
  rename_i a ha
  split at ht
  · cases ht
  rename_i a' ha'
  cases ht
  obtain ⟨hcap, hheld, hlost⟩ := refreshCount_held hP ha' (h.capped id a ha)
  have hinc : increment P b.tb id = refreshInc P b.tb.env.getnstimeofday.1 a := by
    simp [increment, Registry.val, ha]
  obtain ⟨hall, hbook, hl⟩ := h.modify (f := fun _ => a') ha hcap hheld hlost
  refine ⟨⟨hall, fun j => (hbook j).trans ?_⟩, hl⟩
  by_cases hj : j = id
  · subst hj
    simp only [Function.update_self, hinc]
    ring
  · simp only [Function.update_of_ne hj]

theorem kvSet_sound (hP : P.IsExact) {id : Int} {key : String} {val : Int} (h : b.Sound)
    (hs : step P b (.kvSet id key val) = some b') :
    b'.Sound ∧ ∀ j, b.tb.lost j ≤ b'.tb.lost j := by
  simp only [step, Option.some.injEq] at hs
  subst hs
  have hg := getAccount_keeps P b.tb id
  -- nothing is given unless the message reaches the account
  have hnone : ∀ s, Keeps b.tb s → adjustment P b.tb id key val = 0 →
      Sound { b with
        tb := s
        adjustments := Function.update b.adjustments id
          (b.adjustments id + adjustment P b.tb id key val) } ∧
      ∀ j, b.tb.lost j ≤ s.lost j := by
    intro s hk hz
    rw [hz, add_zero, Function.update_eq_self]
    exact ⟨h.keep hk, hk.lost⟩
  simp only [tbucketKvSet]
  split
  · rename_i hkey
    exact hnone _ (.refl _) (by simp [adjustment, hkey])
  split
  · rename_i hkey hid
    split
    · rename_i hreach
      obtain ⟨a, ha⟩ := Registry.find_eq_some (getAccount_reached hid hreach)
      have h' : Sound { b with tb := (getAccount P b.tb id).2 } := h.keep hg
      obtain ⟨hcap, hheld, hlost⟩ := kvApply_held hP key val (h'.capped id a ha)
      obtain ⟨hall, hbook, hl⟩ := h'.modify (f := kvApply P key val) ha hcap hheld hlost
      have hadj : adjustment P b.tb id key val = if key = "count" then val - count P a else 0 := by
        simp [adjustment, hid, hreach, Registry.val, ha]
      rw [hreach]
      refine ⟨⟨hall, fun j => (hbook j).trans ?_⟩, fun j => (hg.lost j).trans (hl j)⟩
      by_cases hj : j = id
      · subst hj
        simp only [Function.update_self, hadj]
        ring
      · simp only [Function.update_of_ne hj]
    · rename_i hreach
      exact hnone _ hg (by simp [adjustment, hreach])
  · rename_i hkey hid
    exact hnone _ (.refl _) (by simp [adjustment, not_not.mp hid])

theorem step_sound (hP : P.IsExact) (hs : step P b e = some b') (h : b.Sound) :
    b'.Sound ∧ ∀ j, b.tb.lost j ≤ b'.tb.lost j := by
  have hkeep : ∀ {s : State}, Keeps b.tb s →
      Sound { b with tb := s } ∧ ∀ j, b.tb.lost j ≤ s.lost j := fun hk => ⟨h.keep hk, hk.lost⟩
  cases e with
  | getAccount id => cases hs; exact hkeep (getAccount_keeps P _ id)
  | refresh id => exact refresh_sound hP h hs
  | kvSet id key val => exact kvSet_sound hP h hs
  | causesDirty l newId inode pos => cases hs; exact hkeep (tbucketCausesDirty_keeps hP _ l newId inode pos)
  | causesFree l => cases hs; exact hkeep (tbucketCausesFree_keeps hP _ l)
  | accountForCauses l offset size => cases hs; exact hkeep (accountForCauses_keeps hP _ l offset size)
  | kernel m => cases hs; exact hkeep (.of_accounts_eq rfl)

theorem init_sound {m : Mem} {env : Env} (h : tbucketInitQueue P m env = some s) :
    (init s).Sound := by
  obtain ⟨-, env', a, ha, hs⟩ := tbucketInitQueue_accounts h
  obtain ⟨hcap, hheld, -⟩ := newAccount_tokens ha
  have hempty : (Registry.empty : Registry Int Account).All Account.Capped := fun _ _ hf => by
    cases hf
  refine ⟨?_, fun id => ?_⟩
  · simp only [init, hs]
    exact hempty.insert hcap
  · simp only [init, State.held, hs, Registry.val_insert hheld]
    rfl

theorem run_lost (hP : P.IsExact) {es : List Event} (h : b.Sound)
    (hr : run (step P) b es = some b') (id : Int) : b.tb.lost id ≤ b'.tb.lost id := by
  have hI := run_invariant (I := fun b' => b'.Sound ∧ ∀ j, b.tb.lost j ≤ b'.tb.lost j)
    (fun c e c' hs hc => ⟨(step_sound hP hs hc.1).1, fun j =>
      (hc.2 j).trans ((step_sound hP hs hc.1).2 j)⟩) hr ⟨h, fun _ => le_refl _⟩
  exact hI.2 id

/-- In every state a run of a fresh instance reaches, what an account may spend is within its limit,
and `credit + lost` is what the account was given; `lost` does not decrease from there on. -/
theorem tokens_capped_and_booked (P : Platform) (m : Mem) (env : Env) (s : State)
    (es es' : List Event) (b b' : Books) (hP : P.IsExact) (h0 : tbucketInitQueue P m env = some s)
    (hr : run (step P) (init s) es = some b) (hr' : run (step P) b es' = some b') :
    (∀ id a, b.tb.accounts.find id = some a → a.credit - (a.estimate + a.used) ≤ a.limit) ∧
    (∀ id, b.tb.lost id ≤ b'.tb.lost id) ∧
    ∀ id a, b.tb.accounts.find id = some a →
      a.credit + a.lost = b.increments id + b.adjustments id := by
  have h : b.Sound := run_invariant (fun _ _ _ hs hI => (step_sound hP hs hI).1) hr (init_sound h0)
  refine ⟨h.capped, run_lost hP h hr', fun id a ha => ?_⟩
  rw [← h.booked id]
  simp [State.held, Registry.val, ha, Account.held]

/-- An account gets a rate and a limit, earns more than the limit in a second, is charged for a page,
and has its count set. -/
theorem tokens_capped_and_booked_one_account :
    ∃ s b b', tbucketInitQueue .exact sampleMem ⟨fun n => ⟨n, 0⟩, fun _ => true, 0⟩ = some s ∧
      run (step .exact) (init s) [.kvSet 7 "limit" 4096, .kvSet 7 "rate" 10000, .refresh 7] = some b ∧
      run (step .exact) b [.accountForCauses 0 0 4096, .kvSet 7 "count" 100] = some b' ∧
      (∀ id a, b.tb.accounts.find id = some a → a.credit - (a.estimate + a.used) ≤ a.limit) ∧
      (∀ id, b.tb.lost id ≤ b'.tb.lost id) ∧
      ∀ id a, b.tb.accounts.find id = some a →
        a.credit + a.lost = b.increments id + b.adjustments id := by
  have h : ((tbucketInitQueue .exact sampleMem ⟨fun n => ⟨n, 0⟩, fun _ => true, 0⟩).bind fun s =>
      (run (step .exact) (init s) [.kvSet 7 "limit" 4096, .kvSet 7 "rate" 10000, .refresh 7]).bind
        fun b => run (step .exact) b [.accountForCauses 0 0 4096, .kvSet 7 "count" 100]).isSome =
      true := by
    decide +kernel
  obtain ⟨b', hb'⟩ := Option.isSome_iff_exists.mp h
  obtain ⟨s, hs, hb'⟩ := Option.bind_eq_some_iff.mp hb'
  obtain ⟨b, hb, hb'⟩ := Option.bind_eq_some_iff.mp hb'
  exact ⟨s, b, b', hs, hb, hb',
    tokens_capped_and_booked .exact sampleMem _ s _ _ b b' Platform.isExact_exact hs hb hb'⟩

end Books

end Tb
end SplitSched
