import SplitSched.Block.BatchSet
import SplitSched.Lib.Run
import SplitSched.Tb.Charges

/-!
# SplitSched.Tb.DiskBatches

The batches of the token-bucket scheduler: `do_disk_accounting` refines `BatchSet.Accounts`
(`doDiskAccounting_accounts`), so along every run no batch is full between two calls and none drops
an extent (`diskOk_of_run`).
-/

namespace SplitSched
namespace Tb

open CArith

variable {P : Platform} {s : State} {ids : List Int} {offset size share : Int}

/-- All batches; one that does not exist yet is an empty one. -/
def State.batchSet (P : Platform) (s : State) : BatchSet :=
  ⟨s.batch, s.accounts.val (·.batch) (iobatchNew P batchSize batchByteCap)⟩

theorem newAccount_batch {env : Env} {id : Int} {a : Account} (h : (newAccount P env id).1 = some a) :
    a.batch = iobatchNew P batchSize batchByteCap := by
  simp only [newAccount] at h
  split at h
  · cases h
    rfl
  · cases h

theorem getAccount_batchSet (P : Platform) (s : State) (id : Int) :
    (getAccount P s id).2.batchSet P = s.batchSet P := by
  have hacct : (getAccount P s id).2.accounts.val (·.batch) (iobatchNew P batchSize batchByteCap) =
      s.accounts.val (·.batch) (iobatchNew P batchSize batchByteCap) :=
    getAccount_val fun _ ha => newAccount_batch ha
  have hwhole : (getAccount P s id).2.batch = s.batch := by
    rcases getAccount_cases P s id with ⟨-, h⟩ | ⟨-, a, -, -, h⟩ | ⟨-, -, h⟩ <;> rw [h]
    rfl
  rw [State.batchSet, hwhole, hacct]
  rfl

/-- The loop over the accounts of a list leaves the global batch and the statistics alone. -/
theorem addToBatches_whole (P : Platform) (offset size share : Int) (ids : List Int) :
    ∀ r, (addToBatches P offset size share ids r).2.batch = r.2.batch ∧
      (addToBatches P offset size share ids r).2.stats = r.2.stats := by
  induction ids with
  | nil => exact fun _ => ⟨rfl, rfl⟩
  | cons id ids ih =>
    rintro ⟨full, s⟩
    have hone : (addToAccountBatch P offset size share s id).2.batch = s.batch ∧
        (addToAccountBatch P offset size share s id).2.stats = s.stats := by
      simp only [addToAccountBatch, State.modifyAccount]
      rcases getAccount_cases P s id with ⟨-, h⟩ | ⟨-, a, -, -, h⟩ | ⟨-, -, h⟩ <;> rw [h] <;>
        exact ⟨rfl, rfl⟩
    have htail := ih (full || (addToAccountBatch P offset size share s id).1,
      (addToAccountBatch P offset size share s id).2)
    exact ⟨htail.1.trans hone.1, htail.2.trans hone.2⟩

theorem addToBatches_acct (hnd : ids.Nodup) {r : Bool × State} (hm : r.2.env.Plenty) (j : Int) :
    ((addToBatches P offset size share ids r).2.batchSet P).acct j =
      if j ∈ ids then (iobatchAddRequest P ((r.2.batchSet P).acct j) offset size).2
      else (r.2.batchSet P).acct j :=
  addToBatches_val (φ := fun b => (iobatchAddRequest P b offset size).2)
    (fun _ _ _ => newAccount_batch) (fun _ => rfl) hnd hm j

theorem iobatchFull_val (P : Platform) (s : State) (id : Int) :
    s.accounts.val (fun a => iobatchFull a.batch) false id =
      iobatchFull ((s.batchSet P).acct id) :=
  Registry.val_comp s.accounts iobatchFull (·.batch) (iobatchNew P batchSize batchByteCap) id

/-- The loop finds out whether one of the batches it added to is full. -/
theorem addToBatches_full (hnd : ids.Nodup) : ∀ {r : Bool × State}, r.2.env.Plenty →
    (addToBatches P offset size share ids r).1 = (r.1 || ids.any fun j =>
      iobatchFull (((addToBatches P offset size share ids r).2.batchSet P).acct j)) := by
  induction ids with
  | nil => exact fun {r} _ => by simp [addToBatches]
  | cons id ids ih =>
    rintro ⟨full, s⟩ hm
    obtain ⟨hid, hnd⟩ := List.nodup_cons.mp hnd
    have hm' := (addToAccountBatch_grows P offset size share s id).plenty hm
    have htail := ih (r := (full || (addToAccountBatch P offset size share s id).1, _)) hnd hm'
    -- the batch of the first account is not added to again
    have hfirst : ∀ full, ((addToBatches P offset size share ids (full,
          (addToAccountBatch P offset size share s id).2)).2.batchSet P).acct id =
        ((addToAccountBatch P offset size share s id).2.batchSet P).acct id := by
      intro full
      rw [addToBatches_acct (r := (full, _)) hnd hm' id, if_neg hid]
    have hfull : (addToAccountBatch P offset size share s id).1 =
        iobatchFull (((addToAccountBatch P offset size share s id).2.batchSet P).acct id) := by
      rw [← iobatchFull_val]
      simp only [addToAccountBatch, (getAccount_plenty hm id).1]
    simp only [addToBatches, htail, List.any_cons, hfirst, ← hfull, Bool.or_assoc]

theorem flush_batchSet (P : Platform) (s : State) :
    (s.batchSet P).whole.Empties ((flush P s).batchSet P).whole ∧
      ∀ j, ((s.batchSet P).acct j).Empties (((flush P s).batchSet P).acct j) := by
  refine ⟨.of_price (IoBatch.iobatchClear_empties P _), fun j => ?_⟩
  simp only [State.batchSet, flush, Registry.val, Registry.map]
  cases s.accounts.find j with
  | none => exact .of_empty rfl
  | some a => exact .of_price (.of_price (IoBatch.iobatchClear_empties P _))

/-- The state of a call when its loop has been through `ids`, and whether a batch was full. -/
def State.batchedFor (P : Platform) (s : State) (l : Nat) (offset : Int) (ids : List Int) :
    Bool × State :=
  let causes := s.mem.lists l
  let s := addToGlobalBatch P s offset (P.int causes.size)
  addToBatches P offset (P.int causes.size)
    (safeDiv (P.int (causesGetCost causes)) causes.itemCount) ids (iobatchFull s.batch, s)

theorem doDiskAccounting_eq (P : Platform) (s : State) (l : Nat) (offset : Int) :
    doDiskAccounting P s l offset =
      if (s.batchedFor P l offset (s.mem.lists l).items).1 then
        flush P (s.batchedFor P l offset (s.mem.lists l).items).2
      else (s.batchedFor P l offset (s.mem.lists l).items).2 := rfl

/-- Before a flush, a call adds the extent to the batches of the accounts named. -/
theorem batchedFor_batchSet (hnd : ids.Nodup) (hm : s.env.Plenty) (l : Nat) (offset : Int) :
    (s.batchedFor P l offset ids).2.batchSet P =
      (s.batchSet P).add P ids offset (P.int (s.mem.lists l).size) := by
  have hm' := (addToGlobalBatch_grows P s offset (P.int (s.mem.lists l).size)).plenty hm
  exact BatchSet.ext (addToBatches_whole P _ _ _ ids (_, _)).1
    (funext fun j => addToBatches_acct (r := (_, _)) hnd hm' j)

theorem batchedFor_full (hnd : ids.Nodup) (hm : s.env.Plenty) (l : Nat) (offset : Int) :
    (s.batchedFor P l offset ids).1 = ((s.batchedFor P l offset ids).2.batchSet P).full ids := by
  have hm' := (addToGlobalBatch_grows P s offset (P.int (s.mem.lists l).size)).plenty hm
  have hwhole : (s.batchedFor P l offset ids).2.batch =
      (addToGlobalBatch P s offset (P.int (s.mem.lists l).size)).batch :=
    (addToBatches_whole P _ _ _ ids (_, _)).1
  have hfull : (s.batchedFor P l offset ids).1 =
      (iobatchFull (addToGlobalBatch P s offset (P.int (s.mem.lists l).size)).batch ||
        ids.any fun j => iobatchFull (((s.batchedFor P l offset ids).2.batchSet P).acct j)) :=
    addToBatches_full (r := (_, _)) hnd hm'
  rw [hfull, ← hwhole]
  rfl

theorem doDiskAccounting_accounts (hm : s.env.Plenty) (l : Nat) (offset : Int) :
    BatchSet.Accounts P (s.mem.lists l).items offset (P.int (s.mem.lists l).size) (s.batchSet P)
      ((doDiskAccounting P s l offset).batchSet P)
      (decide ((doDiskAccounting P s l offset).stats.ioBatches ≠ s.stats.ioBatches)) := by
  have hadd := batchedFor_batchSet (P := P) (s.mem.lists l).nodup hm l offset
  have hfull := batchedFor_full (P := P) (s.mem.lists l).nodup hm l offset
  have hstats : (s.batchedFor P l offset (s.mem.lists l).items).2.stats.ioBatches =
      s.stats.ioBatches := by
    rw [State.batchedFor, (addToBatches_whole P _ _ _ _ (_, _)).2]
    rfl
  rw [hadd] at hfull
  rw [doDiskAccounting_eq]
  cases hflag : (s.batchedFor P l offset (s.mem.lists l).items).1 with
  | false =>
    have hno : decide ((s.batchedFor P l offset (s.mem.lists l).items).2.stats.ioBatches ≠
        s.stats.ioBatches) = false := by simp [hstats]
    simp only [Bool.false_eq_true, if_false, hno, hadd]
    exact ⟨hflag.symm.trans hfull, fun _ => rfl, fun h => absurd h Bool.false_ne_true,
      fun h => absurd h Bool.false_ne_true⟩
  | true =>
    have hyes : decide ((flush P (s.batchedFor P l offset (s.mem.lists l).items).2).stats.ioBatches ≠
        s.stats.ioBatches) = true := by simp [flush, hstats]
    have hempty := flush_batchSet P (s.batchedFor P l offset (s.mem.lists l).items).2
    rw [hadd] at hempty
    simp only [if_true, hyes]
    exact ⟨hflag.symm.trans hfull, fun h => absurd h.symm Bool.false_ne_true, fun _ => hempty.1,
      fun _ => hempty.2⟩

/-- A call adds every extent to a batch that takes it. -/
structure Takes (P : Platform) (s : State) (l : Nat) (offset : Int) : Prop where
  whole : s.batch.Accepts P offset (P.int (s.mem.lists l).size)
  /-- The batch of each account, in the state in which the loop comes to it. -/
  acct : ∀ ids id rest, (s.mem.lists l).items = ids ++ id :: rest →
    ∃ a, (getAccount P (s.batchedFor P l offset ids).2 id).2.accounts.find id = some a ∧
      a.batch.Accepts P offset (P.int (s.mem.lists l).size)

theorem batchedFor_plenty (hm : s.env.Plenty) (l : Nat) (offset : Int) (ids : List Int) :
    (s.batchedFor P l offset ids).2.env.Plenty :=
  ((addToGlobalBatch_grows P s offset (P.int (s.mem.lists l).size)).trans
    (addToBatches_grows P _ _ _ ids (_, _))).plenty hm

theorem takes_of_roomy {t : Tally} (hm : s.env.Plenty) (h : (s.batchSet P).Roomy t) {l : Nat}
    (hs : (s.mem.lists l).size < 2 ^ 31) (offset : Int) : Takes P s l offset := by
  have hsize : P.int (s.mem.lists l).size = (s.mem.lists l).size :=
    P.int_fits _ (by omega) (by omega)
  refine ⟨h.whole.accepts (by omega) (by omega), fun ids id rest hitems => ?_⟩
  have hnd := (s.mem.lists l).nodup
  rw [hitems] at hnd
  have hid : id ∉ ids := fun hid => (List.nodup_append.mp hnd).2.2 id hid id List.mem_cons_self rfl
  obtain ⟨-, hkey⟩ := getAccount_plenty (P := P) (batchedFor_plenty (P := P) hm l offset ids) id
  obtain ⟨a, ha⟩ := Registry.find_eq_some hkey
  -- nothing was added to the batch of `id` yet
  have hsame : a.batch = (s.batchSet P).acct id := by
    have hset := getAccount_batchSet P (s.batchedFor P l offset ids).2 id
    rw [batchedFor_batchSet hnd.of_append_left hm] at hset
    have hacct := congrFun (congrArg BatchSet.acct hset) id
    simp only [BatchSet.add, if_neg hid] at hacct
    rw [← hacct]
    simp [State.batchSet, Registry.val, ha]
  exact ⟨a, ha, hsame ▸ (h.acct id).accepts (by omega) (by omega)⟩

def diskStep (P : Platform) (w : Tallied State) : DiskEvent → Option (Tallied State)
  | .account l offset =>
    let causes := w.sched.mem.lists l
    if causes.size < 2 ^ 31 then
      let s := doDiskAccounting P w.sched l offset
      let flushed := decide (s.stats.ioBatches ≠ w.sched.stats.ioBatches)
      some ⟨s, w.tally.record flushed causes.items causes.size⟩
    else none
  | .getAccount id => some { w with sched := (getAccount P w.sched id).2 }
  | .kernel m => some { w with sched := { w.sched with mem := m } }

/-- No extent was dropped, and none will be in the next call. -/
structure DiskOk (P : Platform) (w : Tallied State) : Prop where
  roomy : (w.sched.batchSet P).Roomy w.tally
  takes : ∀ l offset, (w.sched.mem.lists l).size < 2 ^ 31 → Takes P w.sched l offset

theorem diskStep_roomy {w w' : Tallied State} {e : DiskEvent} (h : diskStep P w e = some w')
    (hI : w.sched.env.Plenty ∧ (w.sched.batchSet P).Roomy w.tally) :
    w'.sched.env.Plenty ∧ (w'.sched.batchSet P).Roomy w'.tally := by
  obtain ⟨hm, hr⟩ := hI
  cases e with
  | account l offset =>
    simp only [diskStep] at h
    split at h
    · rename_i hs
      cases h
      have hsize : P.int (w.sched.mem.lists l).size = (w.sched.mem.lists l).size :=
        P.int_fits _ (by omega) (by omega)
      have hacc := doDiskAccounting_accounts (P := P) hm l offset
      rw [hsize] at hacc
      exact ⟨(doDiskAccounting_grows P w.sched l offset).plenty hm,
        hr.accounts (by omega) (by omega) hacc⟩
    · cases h
  | getAccount id =>
    cases h
    exact ⟨(getAccount_grows P w.sched id).plenty hm, (getAccount_batchSet P w.sched id).symm ▸ hr⟩
  | kernel m =>
    cases h
    exact ⟨hm, hr⟩

theorem diskOk_of_run {w : Tallied State} {es : List DiskEvent} (hm : s.env.Plenty)
    (h0 : (s.batchSet P).Empty batchSize batchByteCap)
    (h : run (diskStep P) ⟨s, .zero⟩ es = some w) : DiskOk P w := by
  have hstart : (s.batchSet P).Roomy .zero :=
    h0.roomy (by decide) (by decide) (by decide)
  obtain ⟨hm', hr⟩ := run_invariant
    (I := fun w : Tallied State => w.sched.env.Plenty ∧ (w.sched.batchSet P).Roomy w.tally)
    (fun _ _ _ => diskStep_roomy) h ⟨hm, hstart⟩
  exact ⟨hr, fun l offset hs => takes_of_roomy hm' hr hs offset⟩

theorem tbucketInitQueue_batchSet {m : Mem} {env : Env} (h : tbucketInitQueue P m env = some s) :
    (s.batchSet P).Empty batchSize batchByteCap := by
  obtain ⟨hwhole, env', a, ha, hs⟩ := tbucketInitQueue_accounts h
  constructor
  · simp only [State.batchSet, hwhole]
    exact IoBatch.iobatchNew_empty P _ _
  · intro j
    simp only [State.batchSet, hs, Registry.val_insert (newAccount_batch ha)]
    exact IoBatch.iobatchNew_empty P _ _

end Tb

end SplitSched
