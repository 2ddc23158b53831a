import SplitSched.Afq.Charges
import SplitSched.Afq.Work
import SplitSched.Block.BatchSet
import SplitSched.Lib.Run

/-!
# SplitSched.Afq.DiskBatches

The batches of the AFQ scheduler. What `Tb.DiskBatches` says of tbucket.c holds here too; the flush is
a loop over the accounts (`foldl_flushAccount_acct`), and a call returns when memory is to spare.
-/

namespace SplitSched
namespace Afq

open CArith

variable {P : Platform} {s s' : State} {ids : List Int} {offset size share : Int}

def State.batchSet (P : Platform) (s : State) : BatchSet :=
  ⟨s.simBatch, s.accounts.val (·.simBatch) (iobatchNew P batchSize batchByteCap)⟩

theorem newAccount_simBatch {jiffies : Int} {env : Env} {id : Int} {a : Account}
    (h : (newAccount P jiffies env id).1 = some a) :
    a.simBatch = iobatchNew P batchSize batchByteCap := by
  simp only [newAccount] at h
  split at h
  · cases h
    rfl
  · cases h

/-- The global batch, and the number of flushes. -/
def State.global (s : State) : IoBatch × Int := (s.simBatch, s.diskFullCount)

theorem getAccount_global (P : Platform) (s : State) (id : Int) :
    (getAccount P s id).2.global = s.global := by
  rcases getAccount_cases P s id with ⟨-, h⟩ | ⟨-, a, -, h⟩ | ⟨-, -, h⟩ <;> rw [h] <;> rfl

theorem getAccount_batchSet (P : Platform) (s : State) (id : Int) :
    (getAccount P s id).2.batchSet P = s.batchSet P :=
  BatchSet.ext (congrArg Prod.fst (getAccount_global P s id))
    (getAccount_val fun _ ha => newAccount_simBatch ha)

theorem addToBatches_global (ids : List Int) {r r' : Bool × State}
    (h : addToBatches P offset size share ids r = some r') : r'.2.global = r.2.global := by
  refine addToBatches_rel (R := fun s s' => s'.global = s.global) (fun _ => rfl) (fun h h' => h'.trans h)
    (fun {s s' id} ht => ?_) ids h
  rw [withAccount_some ht]
  exact getAccount_global P s id

theorem addToBatches_acct (hnd : ids.Nodup) {r r' : Bool × State}
    (h : addToBatches P offset size share ids r = some r') (j : Int) :
    (r'.2.batchSet P).acct j =
      if j ∈ ids then (iobatchAddRequest P ((r.2.batchSet P).acct j) offset size).2
      else (r.2.batchSet P).acct j :=
  addToBatches_val (φ := fun b => (iobatchAddRequest P b offset size).2)
    (fun _ _ _ _ => newAccount_simBatch) (fun _ => rfl) hnd h j

theorem iobatchFull_val (P : Platform) (s : State) (id : Int) :
    s.accounts.val (fun a => iobatchFull a.simBatch) false id =
      iobatchFull ((s.batchSet P).acct id) :=
  Registry.val_comp s.accounts iobatchFull (·.simBatch) (iobatchNew P batchSize batchByteCap) id

/-- The loop finds out whether one of the batches it added to is full. -/
theorem addToBatches_full (hnd : ids.Nodup) : ∀ {r r' : Bool × State},
    addToBatches P offset size share ids r = some r' →
      r'.1 = (r.1 || ids.any fun j => iobatchFull ((r'.2.batchSet P).acct j)) := by
  induction ids with
  | nil =>
    intro r r' h
    cases h
    simp
  | cons id ids ih =>
    rintro ⟨full, s⟩ r' h
    obtain ⟨hid, hnd⟩ := List.nodup_cons.mp hnd
    simp only [addToBatches] at h
    split at h
    · cases h
    · rename_i t ht
      -- the batch of the first account is not added to again
      have hfirst := addToBatches_acct hnd h id
      rw [if_neg hid] at hfirst
      rw [ih hnd h, iobatchFull_val P t id, ← hfirst, List.any_cons, Bool.or_assoc]

/-! ### The flush -/

theorem addVioCounter_global (P : Platform) (s : State) (acct : Int) :
    (addVioCounter P s acct).global = s.global := by
  have hmin : ∀ s : State, (updateActiveMin P s).global = s.global := fun s => by
    simp only [updateActiveMin]
    split <;> rfl
  simp only [addVioCounter]
  split_ifs
  · exact hmin _
  · exact hmin _
  · rfl
  · rfl

theorem flushAccount_global (P : Platform) (combined summed : Int) (s : State) (acct : Int) :
    (flushAccount P combined summed s acct).global = s.global := by
  simp only [flushAccount, addEstimateVio]
  refine (addVioCounter_global P _ acct).trans ?_
  split
  · exact addVioCounter_global P s acct
  · rfl

/-- The loop of the flush clears the batches of the accounts it goes through. -/
theorem foldl_flushAccount_acct (P : Platform) (combined summed : Int) (hnd : ids.Nodup)
    (hk : ∀ id ∈ ids, id ∈ s.accounts.keys) (j : Int) :
    ((ids.foldl (flushAccount P combined summed) s).batchSet P).acct j =
      if j ∈ ids then iobatchClear P ((s.batchSet P).acct j) else (s.batchSet P).acct j :=
  foldl_update (g := fun s => (s.batchSet P).acct) (φ := fun _ => iobatchClear P)
    (fun _ _ hk => flushAccount_val (φ := iobatchClear P) (fun _ _ _ => rfl) hk fun _ => rfl)
    (fun s id j _ hj => (flushAccount_charges P combined summed s id).keys j hj) hnd hk j

theorem flush_global (P : Platform) (s : State) :
    (flush P s).global = (iobatchClear P (iobatchGetCost P s.simBatch).2, s.diskFullCount + 1) :=
  foldl_keeps (fun s acct => flushAccount_global P _ _ s acct) _ _

theorem flush_batchSet (P : Platform) (s : State) :
    (s.batchSet P).whole.Empties ((flush P s).batchSet P).whole ∧
      ∀ j, ((s.batchSet P).acct j).Empties (((flush P s).batchSet P).acct j) := by
  constructor
  · have hwhole : ((flush P s).batchSet P).whole = iobatchClear P (iobatchGetCost P s.simBatch).2 :=
      congrArg Prod.fst (flush_global P s)
    rw [hwhole]
    exact .of_price (IoBatch.iobatchClear_empties P _)
  · intro j
    rw [flush, foldl_flushAccount_acct P _ _ s.accounts.nodup (by exact fun _ h => h)]
    simp only [State.batchSet, Registry.val, Registry.map]
    by_cases hj : j ∈ s.accounts.keys
    · obtain ⟨a, ha⟩ := Registry.find_eq_some hj
      simp only [hj, ha, if_true, Option.map_some, Option.getD_some]
      exact .of_price (IoBatch.iobatchClear_empties P _)
    · simp only [hj, Registry.find_eq_none hj, if_false, Option.map_none, Option.getD_none]
      exact .of_empty rfl

/-! ### A call -/

/-- The state of a call when its loop has been through `ids`, and whether a batch was full. -/
def State.batchedFor (P : Platform) (s : State) (l : Nat) (offset : Int) (ids : List Int) :
    Option (Bool × State) :=
  let causes := s.mem.lists l
  let s := addToGlobalBatch P s offset (P.int causes.size)
  addToBatches P offset (P.int causes.size)
    (safeDiv (P.int (causesGetCost causes)) causes.itemCount) ids (iobatchFull s.simBatch, s)

theorem batchedFor_total (hm : s.env.Plenty) (l : Nat) (offset : Int) (ids : List Int) :
    ∃ r, s.batchedFor P l offset ids = some r :=
  addToBatches_total (r := (_, addToGlobalBatch P s offset (P.int (s.mem.lists l).size))) ids hm

theorem batchedFor_plenty {l : Nat} {r : Bool × State} (hm : s.env.Plenty)
    (h : s.batchedFor P l offset ids = some r) : r.2.env.Plenty :=
  (addToBatches_charges ids h).plenty hm

/-- Before a flush, a call adds the extent to the batches of the accounts named. -/
theorem batchedFor_batchSet (hnd : ids.Nodup) {l : Nat} {r : Bool × State}
    (h : s.batchedFor P l offset ids = some r) :
    r.2.batchSet P = (s.batchSet P).add P ids offset (P.int (s.mem.lists l).size) :=
  BatchSet.ext (congrArg Prod.fst (addToBatches_global ids h))
    (funext fun j => addToBatches_acct hnd h j)

theorem batchedFor_full (hnd : ids.Nodup) {l : Nat} {r : Bool × State}
    (h : s.batchedFor P l offset ids = some r) : r.1 = (r.2.batchSet P).full ids := by
  have hwhole : r.2.simBatch = (addToGlobalBatch P s offset (P.int (s.mem.lists l).size)).simBatch :=
    congrArg Prod.fst (addToBatches_global ids h)
  rw [addToBatches_full hnd h, ← hwhole]
  rfl

theorem doDiskAccounting_cases {l : Nat} (h : doDiskAccounting P s l offset = some s') :
    ∃ r, s.batchedFor P l offset (s.mem.lists l).items = some r ∧
      s' = if r.1 then flush P r.2 else r.2 := by
  simp only [doDiskAccounting] at h
  split at h
  · cases h
  · rename_i full t ht
    cases h
    exact ⟨(full, t), ht, rfl⟩

theorem doDiskAccounting_accounts {l : Nat} (h : doDiskAccounting P s l offset = some s') :
    BatchSet.Accounts P (s.mem.lists l).items offset (P.int (s.mem.lists l).size) (s.batchSet P)
      (s'.batchSet P) (decide (s'.diskFullCount ≠ s.diskFullCount)) := by
  obtain ⟨⟨full, t⟩, ht, rfl⟩ := doDiskAccounting_cases h
  have hadd := batchedFor_batchSet (s.mem.lists l).nodup ht
  have hfull := batchedFor_full (s.mem.lists l).nodup ht
  have hcount : t.diskFullCount = s.diskFullCount :=
    congrArg Prod.snd (addToBatches_global _ ht)
  simp only at hadd hfull hcount
  rw [hadd] at hfull
  cases full with
  | false =>
    have hno : decide (t.diskFullCount ≠ s.diskFullCount) = false := by simp [hcount]
    simp only [Bool.false_eq_true, if_false, hno, hadd]
    exact ⟨hfull, fun _ => rfl, fun h => absurd h Bool.false_ne_true,
      fun h => absurd h Bool.false_ne_true⟩
  | true =>
    have hyes : decide ((flush P t).diskFullCount ≠ s.diskFullCount) = true := by
      have hcount' : (flush P t).diskFullCount = t.diskFullCount + 1 :=
        congrArg Prod.snd (flush_global P t)
      simp [hcount', hcount]
    have hempty := flush_batchSet P t
    rw [hadd] at hempty
    simp only [if_true, hyes]
    exact ⟨hfull, fun h => absurd h.symm Bool.false_ne_true, fun _ => hempty.1, fun _ => hempty.2⟩

/-- A call returns, and adds every extent to a batch that takes it. -/
structure Takes (P : Platform) (s : State) (l : Nat) (offset : Int) : Prop where
  returns : ∃ s', doDiskAccounting P s l offset = some s'
  whole : s.simBatch.Accepts P offset (P.int (s.mem.lists l).size)
  /-- The batch of each account, in the state in which the loop comes to it. -/
  acct : ∀ ids id rest, (s.mem.lists l).items = ids ++ id :: rest →
    ∃ r a, s.batchedFor P l offset ids = some r ∧
      (getAccount P r.2 id).2.accounts.find id = some a ∧
      a.simBatch.Accepts P offset (P.int (s.mem.lists l).size)

theorem takes_of_roomy {t : Tally} (hm : s.env.Plenty) (h : (s.batchSet P).Roomy t) {l : Nat}
    (hs : (s.mem.lists l).size < 2 ^ 31) (offset : Int) : Takes P s l offset := by
  have hsize : P.int (s.mem.lists l).size = (s.mem.lists l).size :=
    P.int_fits _ (by omega) (by omega)
  refine ⟨doDiskAccounting_total hm l offset, h.whole.accepts (by omega) (by omega),
    fun ids id rest hitems => ?_⟩
  have hnd := (s.mem.lists l).nodup
  rw [hitems] at hnd
  have hid : id ∉ ids := fun hid => (List.nodup_append.mp hnd).2.2 id hid id List.mem_cons_self rfl
  obtain ⟨r, hr⟩ := batchedFor_total (P := P) hm l offset ids
  obtain ⟨-, hkey⟩ := getAccount_some (getAccount_plenty (P := P) (batchedFor_plenty hm hr) id)
  obtain ⟨a, ha⟩ := Registry.find_eq_some hkey
  -- nothing was added to the batch of `id` yet
  have hsame : a.simBatch = (s.batchSet P).acct id := by
    have hset := getAccount_batchSet P r.2 id
    rw [batchedFor_batchSet hnd.of_append_left hr] at hset
    have hacct := congrFun (congrArg BatchSet.acct hset) id
    simp only [BatchSet.add, if_neg hid] at hacct
    rw [← hacct]
    simp [State.batchSet, Registry.val, ha]
  exact ⟨r, a, hr, ha, hsame ▸ (h.acct id).accepts (by omega) (by omega)⟩

def diskStep (P : Platform) (w : Tallied State) : DiskEvent → Option (Tallied State)
  | .account l offset =>
    let causes := w.sched.mem.lists l
    if causes.size < 2 ^ 31 then
      (doDiskAccounting P w.sched l offset).map fun s =>
        let flushed := decide (s.diskFullCount ≠ w.sched.diskFullCount)
        ⟨s, w.tally.record flushed causes.items causes.size⟩
    else none
  | .getAccount id => some { w with sched := (getAccount P w.sched id).2 }
  | .kernel m => some { w with sched := { w.sched with mem := m } }

/-- No extent was dropped, and none will be in the next call. -/
structure DiskOk (P : Platform) (w : Tallied State) : Prop where
  roomy : (w.sched.batchSet P).Roomy w.tally
  takes : ∀ l offset, (w.sched.mem.lists l).size < 2 ^ 31 → Takes P w.sched l offset

theorem diskStep_roomy {w w' : Tallied State} {e : DiskEvent} (h : diskStep P w e = some w')
    (hI : w.sched.env.Plenty ∧ (w.sched.batchSet P).Roomy w.tally) :
    w'.sched.env.Plenty ∧ (w'.sched.batchSet P).Roomy w'.tally := by
  obtain ⟨hm, hr⟩ := hI
  cases e with
  | account l offset =>
    simp only [diskStep] at h
    split at h
    · rename_i hs
      obtain ⟨t, ht, rfl⟩ := Option.map_eq_some_iff.mp h
      have hsize : P.int (w.sched.mem.lists l).size = (w.sched.mem.lists l).size :=
        P.int_fits _ (by omega) (by omega)
      have hacc := doDiskAccounting_accounts ht
      rw [hsize] at hacc
      exact ⟨(doDiskAccounting_charges ht).plenty hm, hr.accounts (by omega) (by omega) hacc⟩
    · cases h
  | getAccount id =>
    cases h
    exact ⟨(getAccount_charges P w.sched id).plenty hm, (getAccount_batchSet P w.sched id).symm ▸ hr⟩
  | kernel m =>
    cases h
    exact ⟨hm, hr⟩

theorem diskOk_of_run {w : Tallied State} {es : List DiskEvent} (hm : s.env.Plenty)
    (h0 : (s.batchSet P).Empty batchSize batchByteCap)
    (h : run (diskStep P) ⟨s, .zero⟩ es = some w) : DiskOk P w := by
  have hstart : (s.batchSet P).Roomy .zero :=
    h0.roomy (by decide) (by decide) (by decide)
  obtain ⟨hm', hr⟩ := run_invariant
    (I := fun w : Tallied State => w.sched.env.Plenty ∧ (w.sched.batchSet P).Roomy w.tally)
    (fun _ _ _ => diskStep_roomy) h ⟨hm, hstart⟩
  exact ⟨hr, fun l offset hs => takes_of_roomy hm' hr hs offset⟩

theorem basicSchedInitData_batchSet {m : Mem} {env : Env} (h : basicSchedInitData P m env = some s) :
    (s.batchSet P).Empty batchSize batchByteCap := by
  simp only [basicSchedInitData] at h
  split at h
  · cases h
    exact ⟨IoBatch.iobatchNew_empty P _ _, fun _ => IoBatch.iobatchNew_empty P _ _⟩
  · cases h

end Afq

end SplitSched
