import SplitSched.Afq.Accounting

/-!
# SplitSched.Afq.Charges

What the dirty and the free hook of the AFQ scheduler do to the accounts' `estimate`, when
allocations succeed.

* `chargeAll_estimate`: a loop over the accounts of a list charges every listed account once, and no
  other.
* `dirtyBuffer_joins`: the dirty hook does what `Joins` says, as it does in tbucket.c.
* `freeCauseList_estimate`: the free hook changes no estimate. It passes the refund to
  `add_vio_counter`, which ignores the quantity and charges the account once more.
-/

namespace SplitSched
namespace Afq

open CArith

variable {P : Platform} {s s' : State}

/-! ## The virtual I/O counter -/

section Val

variable {β : Type} {g : Account → β} {d : β}

/-- The virtual I/O counter is not read. -/
def VioBlind (g : Account → β) : Prop :=
  ∀ a vio reset, g { a with vioCounter := vio, vioReset := reset } = g a

theorem addVioCounter_val (hg : VioBlind g) (P : Platform) (s : State) (acct : Int) :
    (addVioCounter P s acct).accounts.val g d = s.accounts.val g d := by
  have hcharge : (s.modifyAccount acct (chargeVio P)).accounts.val g d = s.accounts.val g d :=
    Registry.val_modify_keep fun a => hg a _ a.vioReset
  have hmin : ∀ s : State, (updateActiveMin P s).accounts = s.accounts := fun s => by
    simp only [updateActiveMin]
    split <;> rfl
  have hreset : ∀ s : State, (resetVioCounters s).accounts.val g d = s.accounts.val g d := fun s =>
    Registry.val_map_keep (f := resetVio) fun a => hg a _ _
  simp only [addVioCounter]
  split_ifs
  · rw [hreset, hmin, hcharge]
  · rw [hmin, hcharge]
  · rw [hreset, hcharge]
  · exact hcharge

end Val

theorem addVioCounter_estimate (P : Platform) (s : State) (acct : Int) :
    (addVioCounter P s acct).estimate = s.estimate :=
  addVioCounter_val (fun _ _ _ => rfl) P s acct

theorem addVioCounter_mem (P : Platform) (s : State) (acct : Int) :
    (addVioCounter P s acct).mem = s.mem := by
  have hmin : ∀ s : State, (updateActiveMin P s).mem = s.mem := fun s => by
    simp only [updateActiveMin]
    split <;> rfl
  simp only [addVioCounter]
  split_ifs
  · exact hmin _
  · exact hmin _
  · rfl
  · rfl

theorem getAccount_mem (P : Platform) (s : State) (id : Int) :
    (getAccount P s id).2.mem = s.mem := by
  rcases getAccount_cases P s id with ⟨-, h⟩ | ⟨-, a, -, h⟩ | ⟨-, -, h⟩ <;> rw [h]

theorem withAccount_mem {f : State → Int → State} {id : Int} (h : withAccount P f s id = some s') :
    id ∈ (getAccount P s id).2.accounts.keys := by
  simp only [withAccount] at h
  split at h
  · rename_i acct ha
    exact (getAccount_some ha).2
  · cases h

theorem getAccount_estimate (P : Platform) (s : State) (id : Int) :
    (getAccount P s id).2.estimate = s.estimate :=
  getAccount_val fun _ ha => (newAccount_some ha).2.2.1

/-! ## The loops over the accounts of a list -/

theorem chargeAll_mem {amt : Int → Int} (ids : List Int) (h : chargeAll P amt ids s = some s') :
    s'.mem = s.mem := by
  refine foldlM_keeps (fun s id t ht => ?_) ids h
  rw [withAccount_some ht, addEstimateVio, addVioCounter_mem]
  exact getAccount_mem P s id

/-- The loop changes what is read off every listed account once. -/
theorem chargeAll_val {β : Type} {g : Account → β} {d : β} {φ : Int → β → β} {amt : Int → Int}
    (hg : VioBlind g)
    (hnew : ∀ jiffies env id a, (newAccount P jiffies env id).1 = some a → g a = d)
    (hf : ∀ id a, g (bumpEstimate P (amt id) a) = φ id (g a)) {ids : List Int} (hnd : ids.Nodup)
    (h : chargeAll P amt ids s = some s') (j : Int) : s'.accounts.val g d j =
      if j ∈ ids then φ j (s.accounts.val g d j) else s.accounts.val g d j := by
  refine foldlM_update (g := fun s : State => s.accounts.val g d) (fun s id t ht => ?_) hnd h j
  have hk := withAccount_mem ht
  rw [withAccount_some ht, addEstimateVio, addVioCounter_val hg,
    ← getAccount_val (P := P) (s := s) fun a ha => hnew _ _ id a ha]
  exact Registry.val_modify hk (hf id)

/-- The loop charges every listed account once and no other. -/
theorem chargeAll_estimate {amt : Int → Int} {ids : List Int} (hnd : ids.Nodup)
    (h : chargeAll P amt ids s = some s') (j : Int) : s'.estimate j =
      if j ∈ ids then P.long (s.estimate j + amt j) else s.estimate j :=
  chargeAll_val (φ := fun j x => P.long (x + amt j)) (fun _ _ _ => rfl)
    (fun _ _ _ _ ha => (newAccount_some ha).2.2.1) (fun _ _ => rfl) hnd h j

/-! ## The loops of disk accounting -/

section Val

variable {β : Type} {g : Account → β} {d : β}

/-- The loop over the accounts of a list changes what is read off every listed account once. -/
theorem addToBatches_val {φ : β → β} {offset size share : Int}
    (hnew : ∀ jiffies env id a, (newAccount P jiffies env id).1 = some a → g a = d)
    (hf : ∀ a, g (batchExtent P offset size share a) = φ (g a)) {ids : List Int} (hnd : ids.Nodup) :
    ∀ {r r' : Bool × State}, addToBatches P offset size share ids r = some r' → ∀ j,
      r'.2.accounts.val g d j =
        if j ∈ ids then φ (r.2.accounts.val g d j) else r.2.accounts.val g d j := by
  induction ids with
  | nil =>
    intro r r' h j
    cases h
    simp
  | cons id ids ih =>
    rintro ⟨full, s⟩ r' h j
    obtain ⟨hid, hnd⟩ := List.nodup_cons.mp hnd
    simp only [addToBatches] at h
    split at h
    · cases h
    · rename_i t ht
      have hone : t.accounts.val g d =
          Function.update (s.accounts.val g d) id (φ (s.accounts.val g d id)) := by
        rw [withAccount_some ht, ← getAccount_val (P := P) (s := s) fun a ha => hnew _ _ id a ha]
        exact Registry.val_modify (withAccount_mem ht) hf
      rw [ih hnd h]
      simp only [hone]
      by_cases hj : j = id
      · subst hj
        simp [hid]
      · simp [hj]

/-- The flush of one account, read through a function that does not see the counter. -/
theorem flushAccount_val (hg : VioBlind g) {φ : β → β} {combined summed acct : Int}
    (hk : acct ∈ s.accounts.keys)
    (hf : ∀ a, g (clearBatch P (bumpEstimate P (P.int (P.ulong (-s.batchEstimate acct))) a)) =
      φ (g a)) :
    (flushAccount P combined summed s acct).accounts.val g d =
      Function.update (s.accounts.val g d) acct (φ (s.accounts.val g d acct)) := by
  obtain ⟨a, ha⟩ := Registry.find_eq_some hk
  simp only [flushAccount]
  generalize hs₁ : (if P.ulong (safeDiv (P.long (P.ulong (combined *
    s.accounts.val (fun a => (iobatchGetCost P a.simBatch).1) 0 acct))) (P.long summed)) ≠ 0
    then addVioCounter P s acct else s) = s₁
  -- the charge goes to the counter only
  have hval : ∀ {γ : Type} {g : Account → γ} {d : γ}, VioBlind g →
      s₁.accounts.val g d = s.accounts.val g d := by
    intro γ g d hg
    subst hs₁
    split
    · exact addVioCounter_val hg P s acct
    · rfl
  have hbatch : s₁.batchEstimate = s.batchEstimate := hval fun _ _ _ => rfl
  rw [hbatch, addEstimateVio]
  generalize P.int (P.ulong (-s.batchEstimate acct)) = q at hf ⊢
  funext j
  simp only [State.modifyAccount]
  by_cases hj : j = acct
  · subst hj
    have hclear : VioBlind fun a => g (clearBatch P a) := fun a vio reset => hg (clearBatch P a) vio reset
    have hboth : VioBlind fun a => g (clearBatch P (bumpEstimate P q a)) := fun a vio reset =>
      hg (clearBatch P (bumpEstimate P q a)) vio reset
    rw [Registry.val_modify_self, addVioCounter_val hclear, Registry.val_modify_self, hval hboth,
      Function.update_self]
    simp only [Registry.val, ha, Option.map_some, Option.getD_some]
    exact hf a
  · rw [Registry.val_modify_of_ne _ hj, addVioCounter_val hg, Registry.val_modify_of_ne _ hj, hval hg,
      Function.update_of_ne hj]

end Val

theorem addToBatches_mem {offset size share : Int} (ids : List Int) {r r' : Bool × State}
    (h : addToBatches P offset size share ids r = some r') : r'.2.mem = r.2.mem := by
  refine addToBatches_rel (R := fun s s' => s'.mem = s.mem) (fun _ => rfl) (fun h h' => h'.trans h)
    (fun {s s' id} ht => ?_) ids h
  rw [withAccount_some ht]
  exact getAccount_mem P s id

theorem flushAccount_mem (P : Platform) (combined summed : Int) (s : State) (acct : Int) :
    (flushAccount P combined summed s acct).mem = s.mem := by
  simp only [flushAccount, addEstimateVio]
  refine (addVioCounter_mem P _ acct).trans ?_
  split
  · exact addVioCounter_mem P s acct
  · rfl

theorem doDiskAccounting_mem {l : Nat} {offset : Int} (h : doDiskAccounting P s l offset = some s') :
    s'.mem = s.mem := by
  simp only [doDiskAccounting] at h
  split at h
  · cases h
  · rename_i full t ht
    cases h
    refine Eq.trans ?_ (addToBatches_mem _ ht)
    split
    · exact foldl_keeps (fun s acct => flushAccount_mem P _ _ s acct) _ _
    · rfl

/-! ## Charging a list, and the hooks -/

/-- What `account_for_causes` does before disk accounting. -/
def chargeCauses (P : Platform) (s : State) (l : Nat) (size : Int) : Option State :=
  let causes := s.mem.lists l
  if causes.callbackQ ≠ none then some (s.setList l { causes with callbackQ := none })
  else if 0 < causes.itemCount then
    let amt := P.int (safeDiv (P.long size) causes.itemCount)
    chargeAll P (fun _ => amt) causes.items (s.setList l (causesSetCost causes (P.long size)))
  else some s

theorem accountForCauses_eq (P : Platform) (s : State) (l : Nat) (offset size : Int) :
    accountForCauses P s l offset size =
      (chargeCauses P s l size).bind fun s => doDiskAccounting P s l offset := by
  simp only [accountForCauses, chargeCauses]
  generalize (if (s.mem.lists l).callbackQ ≠ none then _ else _ : Option State) = r
  cases r <;> rfl

/-- The hook, on the list `c` that the kernel hands over when account `a` has joined. -/
theorem basicSchedCausesDirty_joins {env : Env} {l : Nat} {a : Int} {bSize inode : Nat} {pos : Int}
    {c : CauseList} (hitems : c.items = (s.mem.lists l).items ++ [a])
    (hpriv : c.priv = (s.mem.lists l).priv) (hcq : c.callbackQ ≠ none)
    (hsize : c.size = if (s.mem.lists l).callbackQ = none then bSize else (s.mem.lists l).size)
    (hu : c.schedUniq = s.mem.schedUniq)
    (h : basicSchedCausesDirty P { s with mem := s.mem.setList l c, env := env } l a inode pos =
      some s') : Joins P s.mem s'.mem s.estimate s'.estimate l a bSize inode pos := by
  simp only [basicSchedCausesDirty, Mem.setList_lists_self] at h
  refine .of_hook hitems hpriv hcq hsize hu (chargeAll_mem _ h) fun j => ?_
  rw [chargeAll_estimate c.nodup h j]
  rfl

theorem dirtyBuffer_joins (hm : s.env.Plenty) {q l : Nat} {a : Int} {bSize inode : Nat}
    {pos : Int} (ha : a ∉ (s.mem.lists l).items)
    (hcur : (s.mem.lists l).callbackQ = none ∨ (s.mem.lists l).schedUniq = s.mem.schedUniq) :
    ∃ s', dirtyBuffer P s q l ⟨a, none⟩ bSize inode pos = some s' ∧ s'.env.Plenty ∧
      Joins P s.mem s'.mem s.estimate s'.estimate l a bSize inode pos := by
  obtain ⟨c, hc, hitems, hpriv, hcq, huniq, hsize⟩ :=
    commitWriteHook_joins hm q bSize ha
  have hu : c.schedUniq = s.mem.schedUniq := by
    rw [huniq]
    rcases hcur with h | h <;> simp [h]
  have heq : dirtyBuffer P s q l ⟨a, none⟩ bSize inode pos =
      basicSchedCausesDirty P { s with mem := s.mem.setList l c, env := s.env.kmalloc.2 } l a inode
        pos := by
    simp [dirtyBuffer, hc, isCurrent, hu]
  obtain ⟨s', hs'⟩ := basicSchedCausesDirty_total (P := P)
    (s := { s with mem := s.mem.setList l c, env := s.env.kmalloc.2 }) hm l a inode pos
  exact ⟨s', heq.trans hs', (chargeAll_charges hs').plenty hm,
    basicSchedCausesDirty_joins hitems hpriv hcq hsize hu hs'⟩

/-- The refund does not reach the estimates. -/
theorem freeCauseList_estimate (hm : s.env.Plenty) (l : Nat) :
    ∃ s', freeCauseList P s l = some s' ∧ s'.estimate = s.estimate := by
  simp only [freeCauseList]
  split
  · obtain ⟨s', hs'⟩ := basicSchedCausesFree_total (P := P) hm l
    refine ⟨s', hs', foldlM_keeps (fun s id t ht => ?_) _ hs'⟩
    rw [withAccount_some ht, addVioCounter_estimate, getAccount_estimate]
  · exact ⟨s, rfl, rfl⟩

end Afq
end SplitSched
