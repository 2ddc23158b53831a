import SplitSched.Afq.DiskBatches
import SplitSched.Lib.Outstanding

/-!
# SplitSched.Afq.Estimates

The two counters of the AFQ scheduler that record charges, with the widths of C. `estimate` is a 64-bit
`long`, `batch_estimate` a 64-bit `size_t`; the flush takes `batch_estimate` back from `estimate`
through the `int` parameter of `add_estimate_vio`, which holds no refund above `2 ^ 31`.

* `State.books`: both counters of every account. `flush_books` and `doDiskAccounting_books` say what
  disk accounting does to them, `settle_balance_iff` when a flush keeps their difference.
* `accountForCauses_books`: what the issue of a list does to them.
-/

namespace SplitSched
namespace Afq

open CArith

variable {P : Platform} {s s' : State}

/-! ## The counters under disk accounting -/

/-- `estimate` and `batch_estimate` of an account. -/
def State.books (s : State) : Int → Int × Int :=
  s.accounts.val (fun a => (a.estimate, a.batchEstimate)) (0, 0)

theorem estimate_eq_books (s : State) (id : Int) : s.estimate id = (s.books id).1 :=
  Registry.val_comp s.accounts Prod.fst (fun a => (a.estimate, a.batchEstimate)) (0, 0) id

theorem batchEstimate_eq_books (s : State) (id : Int) : s.batchEstimate id = (s.books id).2 :=
  Registry.val_comp s.accounts Prod.snd (fun a => (a.estimate, a.batchEstimate)) (0, 0) id

/-- The flush of one account. -/
def settle (P : Platform) (b : Int × Int) : Int × Int := (P.long (b.1 + P.int (P.ulong (-b.2))), 0)

/-- An account whose estimate is `rest + b`, as far as a `long` can tell, is left with `rest` exactly
when the refund of `b` is an `int`. -/
theorem settle_balance_iff (hP : P.IsLp64) {e b rest e' b' : Int}
    (he : ∀ y, P.long (e + y) = P.long (rest + b + y)) (h : (e', b') = settle P (e, b))
    (hrest : 0 ≤ rest ∧ rest < 2 ^ 63) (hb : 0 ≤ b ∧ b < 2 ^ 63 + 2 ^ 32) :
    e' = b' + rest ↔ b ≤ 2 ^ 31 := by
  obtain ⟨rfl, rfl⟩ := Prod.mk.inj h
  rw [zero_add, he]
  exact hP.refund_iff hrest.1 hrest.2 hb.1 hb.2

theorem flushAccount_books {combined summed acct : Int} (hk : acct ∈ s.accounts.keys) :
    (flushAccount P combined summed s acct).books =
      Function.update s.books acct (settle P (s.books acct)) := by
  rw [settle, ← batchEstimate_eq_books]
  exact flushAccount_val (P := P)
    (φ := fun b => (P.long (b.1 + P.int (P.ulong (-s.batchEstimate acct))), 0))
    (fun _ _ _ => rfl) hk fun _ => rfl

/-- The flush settles every account. -/
theorem flush_books (P : Platform) (s : State) (id : Int) :
    (flush P s).books id = settle P (s.books id) := by
  have hstart : s.books id = (s.accounts.map (priceBatch P)).val
      (fun a => (a.estimate, a.batchEstimate)) (0, 0) id :=
    (congrFun (Registry.val_map_keep (f := priceBatch P) fun _ => rfl) id).symm
  have hloop := foldl_update (g := State.books) (φ := fun _ => settle P)
    (p := fun s id => id ∈ s.accounts.keys)
    (f := flushAccount P (iobatchGetCost P s.simBatch).1 (summedCost P s.accounts))
    (fun _ _ hk => flushAccount_books hk)
    (fun s id j _ hj => (flushAccount_charges P _ _ s id).keys j hj) s.accounts.nodup
    (s := { s with
      diskFullCount := s.diskFullCount + 1
      simBatch := iobatchClear P (iobatchGetCost P s.simBatch).2
      accounts := s.accounts.map (priceBatch P) }) (fun _ h => h) id
  refine Eq.trans hloop ?_
  by_cases hid : id ∈ s.accounts.keys
  · rw [if_pos hid, hstart]
    rfl
  · -- an account that does not exist has nothing to settle
    have hzero : s.books id = (0, 0) := Registry.val_of_not_mem hid
    have hnone : settle P (0, 0) = (0, 0) := by
      simp only [settle, neg_zero, P.ulong_fits 0 (le_refl 0) (by norm_num),
        P.int_fits 0 (by norm_num) (by norm_num), add_zero,
        P.long_fits 0 (by norm_num) (by norm_num)]
    rw [if_neg hid, hzero, hnone]
    exact hstart.symm.trans hzero

theorem newAccount_books {jiffies : Int} {env : Env} {id : Int} {a : Account}
    (h : (newAccount P jiffies env id).1 = some a) : (a.estimate, a.batchEstimate) = (0, 0) := by
  obtain ⟨-, -, he, hb⟩ := newAccount_some h
  rw [he, hb]

/-- Adding an extent to the batches of the accounts of a list. -/
theorem batchedFor_books {l : Nat} {offset : Int} {ids : List Int} {r : Bool × State}
    (hnd : ids.Nodup) (h : s.batchedFor P l offset ids = some r) (id : Int) :
    r.2.books id = if id ∈ ids then
        ((s.books id).1, P.ulong ((s.books id).2 +
          safeDiv (P.int (causesGetCost (s.mem.lists l))) (s.mem.lists l).itemCount))
      else s.books id :=
  addToBatches_val (φ := fun b => (b.1, P.ulong (b.2 +
    safeDiv (P.int (causesGetCost (s.mem.lists l))) (s.mem.lists l).itemCount)))
    (fun _ _ _ _ => newAccount_books) (fun _ => rfl) hnd h id

/-- The call fills a batch. -/
def Fills (P : Platform) (s : State) (l : Nat) (offset : Int) : Prop :=
  ((s.batchSet P).add P (s.mem.lists l).items offset (P.int (s.mem.lists l).size)).full
    (s.mem.lists l).items = true

instance (P : Platform) (s : State) (l : Nat) (offset : Int) : Decidable (Fills P s l offset) :=
  inferInstanceAs (Decidable (_ = true))

theorem doDiskAccounting_books {l : Nat} {offset : Int}
    (h : doDiskAccounting P s l offset = some s') (id : Int) :
    s'.books id =
      let b := if id ∈ (s.mem.lists l).items then
          ((s.books id).1, P.ulong ((s.books id).2 +
            safeDiv (P.int (causesGetCost (s.mem.lists l))) (s.mem.lists l).itemCount))
        else s.books id
      if Fills P s l offset then settle P b else b := by
  obtain ⟨⟨full, t⟩, ht, rfl⟩ := doDiskAccounting_cases h
  have hbooks := batchedFor_books (s.mem.lists l).nodup ht id
  have hfull := batchedFor_full (s.mem.lists l).nodup ht
  rw [batchedFor_batchSet (s.mem.lists l).nodup ht] at hfull
  simp only at hbooks hfull
  simp only [Fills, ← hfull, ← hbooks]
  cases full with
  | false => rfl
  | true => exact flush_books P t id

/-! ## The counters when a list is issued -/

theorem chargeAll_batchSet {amt : Int → Int} {ids : List Int} (hnd : ids.Nodup)
    (h : chargeAll P amt ids s = some s') : s'.batchSet P = s.batchSet P := by
  have hglobal : s'.global = s.global := by
    refine foldlM_keeps (fun s id t ht => ?_) ids h
    rw [withAccount_some ht, addEstimateVio, addVioCounter_global]
    exact getAccount_global P s id
  refine BatchSet.ext (congrArg Prod.fst hglobal) (funext fun j => ?_)
  have hval := chargeAll_val (φ := fun _ b => b) (g := fun a => a.simBatch)
    (d := iobatchNew P batchSize batchByteCap) (fun _ _ _ => rfl)
    (fun _ _ _ _ => newAccount_simBatch) (fun _ _ => rfl) hnd h j
  rw [ite_self] at hval
  exact hval

/-- What an account bears of a list that is issued with `size` bytes: of its cost, which is `size` for
a list that was not dirtied. -/
def issueShare (c : CauseList) (size : Nat) : Int :=
  safeDiv (if c.callbackQ = none then (size : Int) else c.priv) c.itemCount

/-- The list after `account_for_causes`. -/
def issued (c : CauseList) (size : Nat) : CauseList :=
  { c with
    callbackQ := none
    priv := if c.callbackQ = none ∧ c.items ≠ [] then (size : Int) else c.priv }

theorem chargeCauses_spec {l size : Nat} (hs : size ≤ 4096)
    (h : chargeCauses P s l size = some s') :
    s'.mem = s.mem.setList l (issued (s.mem.lists l) size) ∧ s'.batchSet P = s.batchSet P ∧
      ∀ id, s'.books id =
        if (s.mem.lists l).callbackQ = none ∧ id ∈ (s.mem.lists l).items then
          (P.long ((s.books id).1 + issueShare (s.mem.lists l) size), (s.books id).2)
        else s.books id := by
  have hlong : P.long size = size := P.long_fits _ (by omega) (by omega)
  have hcount := (s.mem.lists l).count_eq
  simp only [chargeCauses] at h
  split_ifs at h with hq hpos
  · cases h
    refine ⟨?_, rfl, fun id => by simp only [hq, false_and, if_false]; rfl⟩
    simp only [issued, State.setList, hq, false_and, if_false]
  · have hq : (s.mem.lists l).callbackQ = none := not_not.mp hq
    have hne : (s.mem.lists l).items ≠ [] := fun he => by simp [hcount, he] at hpos
    have hamt : P.int (safeDiv (P.long size) (s.mem.lists l).itemCount) =
        issueShare (s.mem.lists l) size := by
      rw [hlong, issueShare, if_pos hq, hcount]
      exact int_share (by omega) (by omega)
    rw [hamt] at h
    refine ⟨?_, ?_, fun id => ?_⟩
    · rw [chargeAll_mem _ h]
      simp only [State.setList, issued, causesSetCost, hlong, hq, hne, ne_eq, not_false_eq_true,
        and_self, if_true]
    · exact (chargeAll_batchSet (s.mem.lists l).nodup h).trans rfl
    · have hval := chargeAll_val (P := P) (g := fun a => (a.estimate, a.batchEstimate)) (d := (0, 0))
        (φ := fun _ b => (P.long (b.1 + issueShare (s.mem.lists l) size), b.2))
        (fun _ _ _ => rfl) (fun _ _ _ _ => newAccount_books) (fun _ _ => rfl)
        (s.mem.lists l).nodup h id
      simp only [hq, true_and]
      exact hval
  · have hnil : (s.mem.lists l).items = [] := by
      rw [hcount] at hpos
      exact List.length_eq_zero_iff.mp (by omega)
    cases h
    refine ⟨?_, rfl, fun id => by simp [hnil]⟩
    have hsame : issued (s.mem.lists l) size = s.mem.lists l := by
      rw [issued, if_neg (by simp [hnil]), ← not_not.mp hq]
    rw [hsame, Mem.setList_self]

theorem accountForCauses_mem {l size : Nat} {offset : Int} (hs : size ≤ 4096)
    (h : accountForCauses P s l offset size = some s') :
    s'.mem = s.mem.setList l (issued (s.mem.lists l) size) := by
  rw [accountForCauses_eq] at h
  obtain ⟨t, ht, h⟩ := Option.bind_eq_some_iff.mp h
  rw [doDiskAccounting_mem h, (chargeCauses_spec hs ht).1]

/-- Both counters of an account after `account_for_causes`: the share is charged, unless the list was
charged when it was dirtied, and goes into the batch. -/
theorem accountForCauses_books {l size : Nat} {offset : Int} (hs : size ≤ 4096)
    (hcost : (s.mem.lists l).callbackQ ≠ none →
      0 ≤ (s.mem.lists l).priv ∧ (s.mem.lists l).priv < 2 ^ 31)
    (h : accountForCauses P s l offset size = some s') (id : Int) :
    s'.books id =
      let b := (if (s.mem.lists l).callbackQ = none ∧ id ∈ (s.mem.lists l).items then
          P.long ((s.books id).1 + issueShare (s.mem.lists l) size) else (s.books id).1,
        if id ∈ (s.mem.lists l).items then
          P.ulong ((s.books id).2 + issueShare (s.mem.lists l) size) else (s.books id).2)
      if Fills P s l offset then settle P b else b := by
  rw [accountForCauses_eq] at h
  obtain ⟨t, ht, h⟩ := Option.bind_eq_some_iff.mp h
  obtain ⟨hmem, hbatch, hbooks⟩ := chargeCauses_spec hs ht
  have hlist : t.mem.lists l = issued (s.mem.lists l) size := by rw [hmem, Mem.setList_lists_self]
  have hfills : Fills P t l offset ↔ Fills P s l offset := by
    simp only [Fills, hbatch, hlist]
    rfl
  -- the cost the batches are given is the cost that was charged
  have hshare : id ∈ (s.mem.lists l).items →
      safeDiv (P.int (causesGetCost (t.mem.lists l))) (t.mem.lists l).itemCount =
        issueShare (s.mem.lists l) size := by
    intro hid
    have hne := List.ne_nil_of_mem hid
    simp only [hlist, issued, causesGetCost, issueShare]
    by_cases hq : (s.mem.lists l).callbackQ = none
    · rw [if_pos ⟨hq, hne⟩, if_pos hq, P.int_fits _ (by omega) (by omega)]
    · obtain ⟨h0, h1⟩ := hcost hq
      rw [if_neg fun hc => hq hc.1, if_neg hq, P.int_fits _ (by omega) h1]
  rw [doDiskAccounting_books h id]
  have hitems : (t.mem.lists l).items = (s.mem.lists l).items := by rw [hlist]; rfl
  simp only [hfills, hitems]
  by_cases hid : id ∈ (s.mem.lists l).items
  · rw [if_pos hid, hshare hid, hbooks id]
    by_cases hq : (s.mem.lists l).callbackQ = none
    · simp only [hq, hid, and_self, if_true]
    · simp only [hq, hid, false_and, if_false, if_true]
  · simp only [hbooks id, hid, and_false, if_false]

end Afq
end SplitSched
