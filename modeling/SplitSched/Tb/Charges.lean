import SplitSched.Tb.Dispatch

/-!
# SplitSched.Tb.Charges

What the charging functions of the token-bucket scheduler do to the two counters that record
charges, `estimate` and `batch_estimate`, for every account at once, when allocations succeed.

A loop over the accounts of a cause list changes every listed account once, because a cause list
names no account twice (`foldl_chargeEstimate_estimate`, `addToBatches_batchEstimate`). With exact
arithmetic the difference of the two counters is what is charged and not yet in a batch: a flush
keeps it (`flush_unbatched`), and disk accounting takes one share off it
(`doDiskAccounting_unbatched`).
-/

namespace SplitSched
namespace Tb

open CArith

variable {P : Platform} {s : State}

/-! ## Memory -/

theorem getAccount_heap (P : Platform) (s : State) (id : Int) :
    (getAccount P s id).2.mem = s.mem := by
  rcases getAccount_cases P s id with ⟨-, h⟩ | ⟨-, a, -, -, h⟩ | ⟨-, -, h⟩ <;> simp [h, addAccount]

theorem foldl_chargeEstimate_mem (P : Platform) (amt : Int → Int) (ids : List Int) (s : State) :
    (ids.foldl (chargeEstimate P amt) s).mem = s.mem :=
  foldl_keeps (f := chargeEstimate P amt) (fun s id => getAccount_heap P s id) ids s

theorem addToBatches_mem (P : Platform) (offset size share : Int) (ids : List Int) :
    ∀ r, (addToBatches P offset size share ids r).2.mem = r.2.mem := by
  induction ids with
  | nil => exact fun _ => rfl
  | cons id ids ih =>
    rintro ⟨full, s⟩
    exact (ih (_, _)).trans (getAccount_heap P s id)

theorem doDiskAccounting_mem (P : Platform) (s : State) (l : Nat) (offset : Int) :
    (doDiskAccounting P s l offset).mem = s.mem := by
  simp only [doDiskAccounting]
  split
  · exact addToBatches_mem P _ _ _ _ (_, _)
  · exact addToBatches_mem P _ _ _ _ (_, _)

/-! ## The loops over the accounts of a list -/

/-- A change of one account, seen through a function of the account. -/
theorem modify_got_val {β : Type} {g : Account → β} {d : β} {f : Account → Account} {φ : β → β}
    {id : Int} (hm : s.env.Plenty) (hnew : ∀ a, (newAccount P s.env id).1 = some a → g a = d)
    (hf : ∀ a, g (f a) = φ (g a)) :
    ((getAccount P s id).2.modifyAccount (getAccount P s id).1 f).accounts.val g d =
      Function.update (s.accounts.val g d) id (φ (s.accounts.val g d id)) := by
  obtain ⟨hid, hk⟩ := getAccount_plenty (P := P) hm id
  rw [hid, ← getAccount_val hnew]
  exact Registry.val_modify hk hf

/-- A change that `g` does not see. -/
theorem modify_got_keep {β : Type} {g : Account → β} {d : β} {f : Account → Account} {id : Int}
    (hnew : ∀ a, (newAccount P s.env id).1 = some a → g a = d) (hf : ∀ a, g (f a) = g a) :
    ((getAccount P s id).2.modifyAccount (getAccount P s id).1 f).accounts.val g d =
      s.accounts.val g d :=
  (Registry.val_modify_keep hf).trans (getAccount_val hnew)

theorem chargeEstimate_estimate (hm : s.env.Plenty) (amt : Int → Int) (id : Int) :
    (chargeEstimate P amt s id).estimate =
      Function.update s.estimate id (P.long (s.estimate id + amt id)) := by
  obtain ⟨hid, -⟩ := getAccount_plenty (P := P) hm id
  exact modify_got_val (φ := fun x => P.long (x + amt id)) hm
    (fun a ha => (newAccount_some ha).2.1) (fun a => by simp [hid])

theorem chargeEstimate_batchEstimate (P : Platform) (amt : Int → Int) (s : State) (id : Int) :
    (chargeEstimate P amt s id).batchEstimate = s.batchEstimate :=
  modify_got_keep (fun a ha => (newAccount_some ha).2.2.1) fun a => by simp

theorem foldl_chargeEstimate_batchEstimate (P : Platform) (amt : Int → Int) (ids : List Int)
    (s : State) : (ids.foldl (chargeEstimate P amt) s).batchEstimate = s.batchEstimate :=
  foldl_keeps (chargeEstimate_batchEstimate P amt) ids s

/-- The loop charges every listed account once and no other. -/
theorem foldl_chargeEstimate_estimate (amt : Int → Int) {ids : List Int} (hnd : ids.Nodup)
    {s : State} (hm : s.env.Plenty) (j : Int) : (ids.foldl (chargeEstimate P amt) s).estimate j =
      if j ∈ ids then P.long (s.estimate j + amt j) else s.estimate j :=
  foldl_update (φ := fun j x => P.long (x + amt j)) (p := fun s _ => s.env.Plenty)
    (fun _ id hm => chargeEstimate_estimate hm amt id)
    (fun s id _ hm _ => (chargeEstimate_grows P amt s id).plenty hm) hnd (fun _ _ => hm) j

theorem addToAccountBatch_estimate (P : Platform) (offset size share : Int) (s : State) (id : Int) :
    (addToAccountBatch P offset size share s id).2.estimate = s.estimate :=
  modify_got_keep (fun a ha => (newAccount_some ha).2.1) fun a => by simp

theorem addToBatches_estimate (P : Platform) (offset size share : Int) (ids : List Int) :
    ∀ r, (addToBatches P offset size share ids r).2.estimate = r.2.estimate := by
  induction ids with
  | nil => exact fun _ => rfl
  | cons id ids ih =>
    rintro ⟨full, s⟩
    exact (ih (_, _)).trans (addToAccountBatch_estimate P offset size share s id)

/-- The loop over the accounts of a list changes what is read off every listed account once. -/
theorem addToBatches_val {β : Type} {g : Account → β} {d : β} {φ : β → β} {offset size share : Int}
    (hnew : ∀ env id a, (newAccount P env id).1 = some a → g a = d)
    (hf : ∀ a, g { a with
      batch := (iobatchAddRequest P a.batch offset size).2
      batchEstimate := P.ulong (a.batchEstimate + share) } = φ (g a)) {ids : List Int}
    (hnd : ids.Nodup) : ∀ {r : Bool × State}, r.2.env.Plenty → ∀ j,
      (addToBatches P offset size share ids r).2.accounts.val g d j =
        if j ∈ ids then φ (r.2.accounts.val g d j) else r.2.accounts.val g d j := by
  induction ids with
  | nil => simp [addToBatches]
  | cons id ids ih =>
    rintro ⟨full, s⟩ hm j
    obtain ⟨hid, hnd⟩ := List.nodup_cons.mp hnd
    have hone : (addToAccountBatch P offset size share s id).2.accounts.val g d =
        Function.update (s.accounts.val g d) id (φ (s.accounts.val g d id)) :=
      modify_got_val hm (fun a ha => hnew _ _ a ha) hf
    have ih := ih (r := (full || (addToAccountBatch P offset size share s id).1, _)) hnd
      ((addToAccountBatch_grows P offset size share s id).plenty hm) j
    simp only [addToBatches, ih, hone]
    by_cases hj : j = id
    · subst hj
      simp [hid]
    · simp [hj]

theorem addToBatches_batchEstimate (offset size share : Int) {ids : List Int} (hnd : ids.Nodup)
    {r : Bool × State} (hm : r.2.env.Plenty) (j : Int) :
    (addToBatches P offset size share ids r).2.batchEstimate j =
      if j ∈ ids then P.ulong (r.2.batchEstimate j + share) else r.2.batchEstimate j :=
  addToBatches_val (φ := fun x => P.ulong (x + share)) (fun _ _ _ ha => (newAccount_some ha).2.2.1)
    (fun _ => rfl) hnd hm j

/-! ## Disk accounting, with exact arithmetic -/

/-- What was charged to an account and is not in a batch yet. -/
def State.unbatched (s : State) (id : Int) : Int := s.estimate id - s.batchEstimate id

/-- The share of a list's cost that each account it names bears. -/
def causeShare (c : CauseList) : Int := safeDiv (causesGetCost c) c.itemCount

theorem flush_batchEstimate (P : Platform) (s : State) (j : Int) :
    (flush P s).batchEstimate j = 0 := by
  simp only [flush, State.batchEstimate, Registry.val, Registry.map]
  cases s.accounts.find j <;> rfl

/-- A flush refunds what the batches were charged. -/
theorem flush_unbatched (hP : P.IsExact) (s : State) (j : Int) :
    (flush P s).unbatched j = s.unbatched j := by
  simp only [State.unbatched, flush_batchEstimate]
  simp only [flush, State.estimate, State.batchEstimate, Registry.val, Registry.map]
  cases s.accounts.find j <;> simp [flushAccount, priceBatch, hP.long]

/-- The loop over the accounts of a list moves one share of each into its batch. -/
theorem addToBatches_unbatched (hP : P.IsExact) (hm : s.env.Plenty) (offset size : Int) (full : Bool)
    (c : CauseList) (j : Int) :
    (addToBatches P offset size (causeShare c) c.items (full, s)).2.unbatched j =
      s.unbatched j - if j ∈ c.items then causeShare c else 0 := by
  simp only [State.unbatched, addToBatches_estimate,
    addToBatches_batchEstimate offset size _ c.nodup (r := (full, s)) hm, hP.ulong]
  split <;> ring

theorem doDiskAccounting_unbatched (hP : P.IsExact) (hm : s.env.Plenty) (l : Nat) (offset j : Int) :
    (doDiskAccounting P s l offset).unbatched j =
      s.unbatched j - if j ∈ (s.mem.lists l).items then causeShare (s.mem.lists l) else 0 := by
  have h := addToBatches_unbatched hP (s := addToGlobalBatch P s offset (s.mem.lists l).size) hm
    offset (s.mem.lists l).size
    (iobatchFull (addToGlobalBatch P s offset (s.mem.lists l).size).batch) (s.mem.lists l) j
  simp only [doDiskAccounting, hP.int]
  split
  · rw [flush_unbatched hP]
    exact h
  · exact h

theorem doDiskAccounting_batchEstimate_nonneg (hP : P.IsExact) (hm : s.env.Plenty) {l : Nat}
    {offset : Int} (hs : (s.mem.lists l).items ≠ [] → 0 ≤ causeShare (s.mem.lists l))
    (h : ∀ j, 0 ≤ s.batchEstimate j) (j : Int) :
    0 ≤ (doDiskAccounting P s l offset).batchEstimate j := by
  simp only [doDiskAccounting, hP.int]
  split
  · rw [flush_batchEstimate]
  · rw [addToBatches_batchEstimate _ _ _ (s.mem.lists l).nodup (by exact hm), hP.ulong]
    show 0 ≤ if _ then s.batchEstimate j + causeShare (s.mem.lists l) else s.batchEstimate j
    split
    · rename_i hj
      exact add_nonneg (h j) (hs (List.ne_nil_of_mem hj))
    · exact h j

/-! ## A list is issued -/

/-- A list that was charged when it was dirtied: its share goes into the batches. -/
theorem accountForCauses_charged (hP : P.IsExact) (hm : s.env.Plenty) {l : Nat} (offset size : Int)
    (hq : (s.mem.lists l).callbackQ ≠ none) :
    (∀ j, (accountForCauses P s l offset size).unbatched j =
      s.unbatched j - if j ∈ (s.mem.lists l).items then causeShare (s.mem.lists l) else 0) ∧
    (accountForCauses P s l offset size).mem =
      s.mem.setList l { s.mem.lists l with callbackQ := none } := by
  simp only [accountForCauses, hq, ne_eq, not_false_eq_true, if_true]
  refine ⟨fun j => ?_, doDiskAccounting_mem P _ l offset⟩
  rw [doDiskAccounting_unbatched hP (by exact hm)]
  simp [State.setList, State.unbatched, State.estimate, State.batchEstimate, causeShare,
    causesGetCost]

/-- A list that was not: it is charged now, and the charge goes into the batches at once. -/
theorem accountForCauses_uncharged (hP : P.IsExact) (hm : s.env.Plenty) {l : Nat}
    (offset size : Int) (hq : (s.mem.lists l).callbackQ = none) :
    (∀ j, (accountForCauses P s l offset size).unbatched j = s.unbatched j) ∧
    ∃ c, (accountForCauses P s l offset size).mem = s.mem.setList l c ∧ c.callbackQ = none ∧
      c.items = (s.mem.lists l).items := by
  by_cases hn : 0 < (s.mem.lists l).itemCount
  · simp only [accountForCauses, hq, ne_eq, not_true, if_false, hn, if_true, hP.int, hP.long]
    have hg := (Grows.of_setList (s := s) (l := l) (c := causesSetCost (s.mem.lists l) size)
      rfl rfl).trans (foldl_chargeEstimate_grows P
        (fun _ => safeDiv size (s.mem.lists l).itemCount) (s.mem.lists l).items _)
    have hmem := foldl_chargeEstimate_mem P (fun _ => safeDiv size (s.mem.lists l).itemCount)
      (s.mem.lists l).items (s.setList l (causesSetCost (s.mem.lists l) size))
    refine ⟨fun j => ?_, _, (doDiskAccounting_mem P _ l offset).trans hmem, hq, rfl⟩
    rw [doDiskAccounting_unbatched hP (hg.plenty hm), hmem]
    simp only [State.unbatched, foldl_chargeEstimate_batchEstimate]
    rw [foldl_chargeEstimate_estimate _ (s.mem.lists l).nodup (by exact hm)]
    simp only [State.setList, Mem.setList_lists_self, causesSetCost, causeShare, causesGetCost,
      hP.long, State.estimate, State.batchEstimate]
    split <;> ring
  · have hnil : (s.mem.lists l).items = [] := by
      rw [(s.mem.lists l).count_eq] at hn
      exact List.length_eq_zero_iff.mp (by omega)
    simp only [accountForCauses, hq, ne_eq, not_true, if_false, hn]
    refine ⟨fun j => ?_, s.mem.lists l, ?_, hq, rfl⟩
    · rw [doDiskAccounting_unbatched hP hm]
      simp [hnil]
    · rw [doDiskAccounting_mem]
      simp [Mem.setList]

theorem accountForCauses_batchEstimate_nonneg (hP : P.IsExact) (hm : s.env.Plenty) {l : Nat}
    (offset : Int) {size : Int} (hsize : 0 ≤ size)
    (hpriv : (s.mem.lists l).callbackQ ≠ none → 0 ≤ (s.mem.lists l).priv)
    (h : ∀ j, 0 ≤ s.batchEstimate j) (j : Int) :
    0 ≤ (accountForCauses P s l offset size).batchEstimate j := by
  have hcount : 0 ≤ (s.mem.lists l).itemCount := by
    rw [(s.mem.lists l).count_eq]
    positivity
  simp only [accountForCauses]
  split_ifs with hq hn
  · refine doDiskAccounting_batchEstimate_nonneg hP (by exact hm) (fun _ => ?_) (by exact h) j
    simpa [State.setList, causeShare, causesGetCost] using safeDiv_nonneg (hpriv hq) hcount
  · have hg := (Grows.of_setList (s := s) (l := l)
      (c := causesSetCost (s.mem.lists l) (P.long size)) rfl rfl).trans (foldl_chargeEstimate_grows P
        (fun _ => P.int (safeDiv (P.long size) (s.mem.lists l).itemCount)) (s.mem.lists l).items _)
    refine doDiskAccounting_batchEstimate_nonneg hP (hg.plenty hm) (fun _ => ?_) (fun j => ?_) j
    · rw [foldl_chargeEstimate_mem]
      simpa [State.setList, causesSetCost, causeShare, causesGetCost, hP.long] using
        safeDiv_nonneg hsize hcount
    · rw [foldl_chargeEstimate_batchEstimate]
      exact h j
  · refine doDiskAccounting_batchEstimate_nonneg hP hm (fun hne => ?_) h j
    rw [(s.mem.lists l).count_eq] at hn
    exact absurd (by exact_mod_cast List.length_pos_iff.mpr hne) hn

/-! ## A list is dirtied -/

/-- From `s` to `s'` account `a` joined the list `l`, and the scheduler charged the accounts. -/
structure Dirtied (P : Platform) (s s' : State) (l : Nat) (a : Int) (bSize inode : Nat) (pos : Int) :
    Prop extends Joins P s.mem s'.mem s.estimate s'.estimate l a bSize inode pos where
  memory : s'.env.memory = s.env.memory
  batchEstimate : s'.batchEstimate = s.batchEstimate

/-- The scheduler's part. -/
theorem tbucketCausesDirty_spec (hm : s.env.Plenty) (l : Nat) (newId : Int) (inode : Nat) (pos : Int) :
    (tbucketCausesDirty P s l newId inode pos).mem = dirtyMem P s.mem l inode pos ∧
    (tbucketCausesDirty P s l newId inode pos).env.memory = s.env.memory ∧
    (∀ j, (tbucketCausesDirty P s l newId inode pos).estimate j =
      if j ∈ (s.mem.lists l).items then
        P.long (s.estimate j + dirtyCharge P (dirtyCost P s.mem l inode pos)
          (s.mem.lists l).itemCount newId j)
      else s.estimate j) ∧
    (tbucketCausesDirty P s l newId inode pos).batchEstimate = s.batchEstimate := by
  simp only [tbucketCausesDirty]
  refine ⟨foldl_chargeEstimate_mem P _ _ _, (foldl_chargeEstimate_grows P _ _ _).memory,
    fun j => ?_, foldl_chargeEstimate_batchEstimate P _ _ _⟩
  rw [foldl_chargeEstimate_estimate _ (s.mem.lists l).nodup (by exact hm)]
  rfl

theorem dirtyBuffer_dirtied (hm : s.env.Plenty) (q bSize inode : Nat) (pos : Int) {l : Nat}
    {a : Int} (ha : a ∉ (s.mem.lists l).items)
    (hcur : (s.mem.lists l).callbackQ = none ∨ (s.mem.lists l).schedUniq = s.mem.schedUniq) :
    Dirtied P s (dirtyBuffer P s q l ⟨a, none⟩ bSize inode pos) l a bSize inode pos := by
  obtain ⟨c, hc, hitems, hpriv, hcq, huniq, hsize⟩ :=
    commitWriteHook_joins hm q bSize ha
  have hu : c.schedUniq = s.mem.schedUniq := by
    rw [huniq]
    rcases hcur with h | h <;> simp [h]
  have heq : dirtyBuffer P s q l ⟨a, none⟩ bSize inode pos =
      tbucketCausesDirty P { s with mem := s.mem.setList l c, env := s.env.kmalloc.2 } l a inode
        pos := by
    simp [dirtyBuffer, hc, isCurrent, hu]
  obtain ⟨h₁, h₂, h₃, h₄⟩ := tbucketCausesDirty_spec (P := P)
    (s := { s with mem := s.mem.setList l c, env := s.env.kmalloc.2 }) hm l a inode pos
  simp only [Mem.setList_lists_self] at h₃
  rw [heq]
  exact ⟨.of_hook hitems hpriv hcq hsize hu h₁ h₃, h₂, h₄⟩

/-- A list of an earlier scheduler is tagged and not charged. -/
theorem dirtyBuffer_stale (hm : s.env.Plenty) (q bSize inode : Nat) (pos : Int) {l : Nat} {a : Int}
    (ha : a ∉ (s.mem.lists l).items) (hq : (s.mem.lists l).callbackQ ≠ none)
    (hu : (s.mem.lists l).schedUniq ≠ s.mem.schedUniq) :
    ∃ c, dirtyBuffer P s q l ⟨a, none⟩ bSize inode pos =
      { s with mem := s.mem.setList l c, env := s.env.kmalloc.2 } ∧ c.callbackQ ≠ none := by
  obtain ⟨c, hc, -, -, hcq, huniq, -⟩ := commitWriteHook_joins hm q bSize ha
  rw [if_neg hq] at huniq
  refine ⟨c, ?_, hcq⟩
  simp [dirtyBuffer, hc, isCurrent, huniq, hu.symm]

end Tb
end SplitSched
