import SplitSched.Afq.DiskBatches

/-!
# SplitSched.Afq.VioCounter

The virtual I/O counter under charges and refunds. `add_vio_counter` is passed the quantity to charge,
negative for a refund, and does not read it: every call adds the share of one unit, so a refund costs
the account as much as a charge.

* `Bumps calls s s'`: from `s` to `s'`, `add_vio_counter` was called for the accounts `calls`. As long
  as the counters are not reset, each call adds one share to the counter of its account.
* `Tab`: runs of the functions that charge and refund, with the accounts charged provisionally or
  refunded, and those charged for good.
* `refunds_never_cancel_charges`: no charge is cancelled by its refund, and the provisional charges of
  a run are without effect on an account exactly when there were none.
-/

namespace SplitSched
namespace Afq

open CArith

variable {P : Platform} {s s' s'' : State} {calls calls' : List Int}

/-- `add_vio_counter` as its callers see it. The body does not mention the quantity. -/
def addVioCounterBy (P : Platform) (s : State) (acct _quantity : Int) : State :=
  addVioCounter P s acct

/-! ## What a call adds -/

def State.ioprio (s : State) (id : Int) : Int := s.accounts.val (·.ioprio) 0 id

/-- How often the counter of an account was reset. -/
def State.vioReset (s : State) (id : Int) : Int := s.accounts.val (·.vioReset) 0 id

/-- `TOTAL_SHARE / stride`. -/
def vioShare (prio : Int) : Int :=
  totalShare.tdiv (if prioToStride prio = 0 then 1 else prioToStride prio)

theorem vioShare_bounds {prio : Int} (h : 0 ≤ prio) (h' : prio ≤ 8) :
    0 < vioShare prio ∧ vioShare prio ≤ 840 := by
  interval_cases prio <;> decide

/-- The account has a priority from 0, which a new account has, to 8, and its counter is a `long` that
is not due for a reset. -/
structure State.Counts (s : State) (id : Int) : Prop where
  prio_nonneg : 0 ≤ s.ioprio id
  prio_le : s.ioprio id ≤ 8
  long : -2 ^ 63 ≤ s.vioCounter id
  below : s.vioCounter id ≤ maxVioCounterThreshold

structure Bumps (calls : List Int) (s s' : State) : Prop where
  ioprio : s'.ioprio = s.ioprio
  reset : ∀ id, s.vioReset id ≤ s'.vioReset id
  vio : ∀ id, s.Counts id → s'.vioReset id = s.vioReset id → s'.Counts id ∧
    s'.vioCounter id = s.vioCounter id + calls.count id * vioShare (s.ioprio id)

/-- What the counter and its resets depend on. -/
def vioView (a : Account) : Int × Int × Int := (a.ioprio, a.vioCounter, a.vioReset)

theorem val_of_view (h : s'.accounts.val vioView (0, 0, 0) = s.accounts.val vioView (0, 0, 0))
    (f : Int × Int × Int → Int) (id : Int) :
    s'.accounts.val (fun a => f (vioView a)) (f (0, 0, 0)) id =
      s.accounts.val (fun a => f (vioView a)) (f (0, 0, 0)) id := by
  rw [Registry.val_comp _ f, Registry.val_comp _ f, h]

namespace Bumps

theorem of_view (h : s'.accounts.val vioView (0, 0, 0) = s.accounts.val vioView (0, 0, 0)) :
    Bumps [] s s' := by
  have hprio : s'.ioprio = s.ioprio := funext (val_of_view h fun v => v.1)
  have hvio : s'.vioCounter = s.vioCounter := funext (val_of_view h fun v => v.2.1)
  have hreset : s'.vioReset = s.vioReset := funext (val_of_view h fun v => v.2.2)
  refine ⟨hprio, fun id => (congrFun hreset id).ge, fun id hc _ => ⟨⟨?_, ?_, ?_, ?_⟩, ?_⟩⟩
  · exact hprio ▸ hc.prio_nonneg
  · exact hprio ▸ hc.prio_le
  · exact hvio ▸ hc.long
  · exact hvio ▸ hc.below
  · simp [hvio]

theorem refl (s : State) : Bumps [] s s := of_view rfl

theorem trans (h : Bumps calls s s') (h' : Bumps calls' s' s'') : Bumps (calls ++ calls') s s'' := by
  refine ⟨h'.ioprio.trans h.ioprio, fun id => (h.reset id).trans (h'.reset id), fun id hc hr => ?_⟩
  -- resets are counted, so none between the ends means none on the way
  have hr₁ : s'.vioReset id = s.vioReset id :=
    le_antisymm (hr ▸ h'.reset id) (h.reset id)
  obtain ⟨hc₁, hv₁⟩ := h.vio id hc hr₁
  obtain ⟨hc₂, hv₂⟩ := h'.vio id hc₁ (hr.trans hr₁.symm)
  refine ⟨hc₂, ?_⟩
  rw [hv₂, hv₁, h.ioprio, List.count_append]
  push_cast
  ring

/-- Go on without a call. -/
theorem keep (h : Bumps calls s s') (h' : Bumps [] s' s'') : Bumps calls s s'' := by
  simpa using h.trans h'

/-- The order of the calls does not matter. -/
theorem congr (h : Bumps calls s s') (hc : ∀ id, calls.count id = calls'.count id) :
    Bumps calls' s s' :=
  ⟨h.ioprio, h.reset, fun id hid hr => hc id ▸ h.vio id hid hr⟩

theorem after (h : Bumps [] s s') (h' : Bumps calls s' s'') : Bumps calls s s'' := h.trans h'

theorem of_modify {id : Int} {f : Account → Account} (hf : ∀ a, vioView (f a) = vioView a) :
    Bumps [] s (s.modifyAccount id f) := of_view (Registry.val_modify_keep hf)

end Bumps

/-! ## The calls of each function -/

theorem updateActiveMin_accounts (P : Platform) (s : State) :
    (updateActiveMin P s).accounts = s.accounts := by
  simp only [updateActiveMin]
  split <;> rfl

/-- The counter of the account before a reset is considered. -/
theorem chargeVio_vioCounter {acct : Int} (hk : acct ∈ s.accounts.keys) :
    (s.modifyAccount acct (chargeVio P)).vioCounter =
      Function.update s.vioCounter acct (P.long (s.vioCounter acct + vioShare (s.ioprio acct))) := by
  obtain ⟨a, ha⟩ := Registry.find_eq_some hk
  have hvio : s.vioCounter acct = a.vioCounter := by simp [State.vioCounter, Registry.val, ha]
  have hprio : s.ioprio acct = a.ioprio := by simp [State.ioprio, Registry.val, ha]
  rw [hvio, hprio]
  exact Registry.val_modify_of_find ha (chargeVio P) (·.vioCounter) 0

/-- A reset is seen in the reset count of every account there is. -/
theorem resetVioCounters_bumps (hid : ∀ id ∈ calls, id ∈ s.accounts.keys)
    (hprio : s'.ioprio = s.ioprio) (hreset : s'.vioReset = s.vioReset)
    (hkeys : s'.accounts.keys = s.accounts.keys) : Bumps calls s (resetVioCounters s') := by
  have hprio' : (resetVioCounters s').ioprio = s.ioprio :=
    Eq.trans (Registry.val_map_keep (f := resetVio) fun _ => rfl) hprio
  have hcount : ∀ id, (resetVioCounters s').vioReset id =
      if id ∈ s.accounts.keys then s.vioReset id + 1 else s.vioReset id := by
    intro id
    rw [← hreset, ← hkeys]
    split
    · rename_i hid
      obtain ⟨a, ha⟩ := Registry.find_eq_some hid
      simp [State.vioReset, resetVioCounters, Registry.val, Registry.map, ha, resetVio]
    · rename_i hid
      simp [State.vioReset, resetVioCounters, Registry.val, Registry.map,
        Registry.find_eq_none hid]
  refine ⟨hprio', fun id => ?_, fun id hc hr => ?_⟩
  · rw [hcount]
    split <;> omega
  · rw [hcount] at hr
    -- only an account that does not exist was not reset
    have hno : id ∉ s.accounts.keys := fun hmem => by simp [hmem] at hr
    have hvio : s.vioCounter id = 0 := Registry.val_of_not_mem hno
    have hvio' : (resetVioCounters s').vioCounter id = 0 :=
      Registry.val_of_not_mem (by rwa [← hkeys] at hno)
    refine ⟨⟨hprio' ▸ hc.prio_nonneg, hprio' ▸ hc.prio_le, ?_, ?_⟩, ?_⟩
    · rw [hvio', ← hvio]
      exact hc.long
    · rw [hvio', ← hvio]
      exact hc.below
    · rw [hvio', hvio, List.count_eq_zero.mpr fun hmem => hno (hid id hmem)]
      simp

/-- Everything `add_vio_counter` can do: charge the account, and then reset all counters if this took
the account above the threshold. -/
theorem addVioCounter_cases {acct : Int} (hk : acct ∈ s.accounts.keys) :
    ∃ t : State, t.ioprio = s.ioprio ∧ t.vioReset = s.vioReset ∧
      t.accounts.keys = s.accounts.keys ∧
      t.vioCounter = Function.update s.vioCounter acct
        (P.long (s.vioCounter acct + vioShare (s.ioprio acct))) ∧
      addVioCounter P s acct =
        if maxVioCounterThreshold < t.vioCounter acct then resetVioCounters t else t := by
  have hacc : ∀ t : State, (if t.minAcct = some acct ∨ t.minAcct = none then updateActiveMin P t
      else t).accounts = t.accounts := fun t => by
    split
    · exact updateActiveMin_accounts P t
    · rfl
  refine ⟨_, funext fun id => ?_, funext fun id => ?_, ?_, ?_, rfl⟩
  · rw [State.ioprio, hacc]
    exact congrFun (Registry.val_modify_keep (f := chargeVio P) fun _ => rfl) id
  · rw [State.vioReset, hacc]
    exact congrFun (Registry.val_modify_keep (f := chargeVio P) fun _ => rfl) id
  · rw [hacc]
    rfl
  · rw [← chargeVio_vioCounter hk]
    funext id
    rw [State.vioCounter, hacc]
    rfl

/-- The counter of an account with room for it takes the share as it is. -/
theorem State.Counts.long_eq {id : Int} (h : s.Counts id) :
    P.long (s.vioCounter id + vioShare (s.ioprio id)) = s.vioCounter id + vioShare (s.ioprio id) := by
  obtain ⟨hpos, hle⟩ := vioShare_bounds h.prio_nonneg h.prio_le
  have hlong := h.long
  have hbelow := h.below
  simp only [maxVioCounterThreshold] at hbelow
  exact P.long_fits _ (by omega) (by omega)

theorem addVioCounter_bumps {acct : Int} (hk : acct ∈ s.accounts.keys) :
    Bumps [acct] s (addVioCounter P s acct) := by
  obtain ⟨t, hprio, hreset, hkeys, hvio, heq⟩ := addVioCounter_cases (P := P) hk
  rw [heq]
  split
  · exact resetVioCounters_bumps (by simpa using hk) hprio hreset hkeys
  · rename_i hbelow
    refine ⟨hprio, fun id => (congrFun hreset id).ge, fun id hc _ => ?_⟩
    by_cases hid : id = acct
    · subst hid
      have hadd : t.vioCounter id = s.vioCounter id + vioShare (s.ioprio id) := by
        rw [hvio, Function.update_self, hc.long_eq]
      have hpos := (vioShare_bounds hc.prio_nonneg hc.prio_le).1
      have hlong := hc.long
      refine ⟨⟨hprio ▸ hc.prio_nonneg, hprio ▸ hc.prio_le, ?_, not_lt.mp hbelow⟩, ?_⟩
      · rw [hadd]
        omega
      · rw [hadd]
        simp
    · have hsame : t.vioCounter id = s.vioCounter id := by rw [hvio, Function.update_of_ne hid]
      refine ⟨⟨hprio ▸ hc.prio_nonneg, hprio ▸ hc.prio_le, hsame ▸ hc.long, hsame ▸ hc.below⟩, ?_⟩
      rw [hsame, List.count_singleton, if_neg (by simpa using Ne.symm hid)]
      simp

theorem addVioCounter_vioReset {acct : Int} (hk : acct ∈ s.accounts.keys) (hc : s.Counts acct)
    (hroom : s.vioCounter acct + vioShare (s.ioprio acct) ≤ maxVioCounterThreshold) :
    (addVioCounter P s acct).vioReset = s.vioReset := by
  obtain ⟨t, -, hreset, -, hvio, heq⟩ := addVioCounter_cases (P := P) hk
  rw [heq, hvio, Function.update_self, hc.long_eq, if_neg (not_lt.mpr hroom), hreset]

theorem addEstimateVio_bumps {acct : Int} (hk : acct ∈ s.accounts.keys) (quantity : Int) :
    Bumps [acct] s (addEstimateVio P s acct quantity) :=
  (Bumps.of_modify (f := bumpEstimate P quantity) fun _ => rfl).after (addVioCounter_bumps hk)

theorem newAccount_vioView {jiffies : Int} {env : Env} {id : Int} {a : Account}
    (h : (newAccount P jiffies env id).1 = some a) : vioView a = (0, 0, 0) := by
  simp only [newAccount] at h
  split at h
  · cases h
    rfl
  · cases h

theorem getAccount_bumps (P : Platform) (s : State) (id : Int) : Bumps [] s (getAccount P s id).2 :=
  .of_view (getAccount_val fun _ ha => newAccount_vioView ha)

theorem withAccount_bumps {f : State → Int → State} {id : Int}
    (hf : ∀ s, id ∈ s.accounts.keys → Bumps [id] s (f s id))
    (h : withAccount P f s id = some s') : Bumps [id] s s' := by
  have hk := withAccount_mem h
  rw [withAccount_some h]
  exact (getAccount_bumps P s id).after (hf _ hk)

theorem foldlM_withAccount_bumps {f : State → Int → State}
    (hf : ∀ s id, id ∈ s.accounts.keys → Bumps [id] s (f s id)) (ids : List Int) :
    ∀ {s s' : State}, ids.foldlM (withAccount P f) s = some s' → Bumps ids s s' := by
  induction ids with
  | nil =>
    intro s s' h
    cases h
    exact .refl s
  | cons id ids ih =>
    intro s s' h
    rw [List.foldlM_cons] at h
    obtain ⟨t, ht, h⟩ := Option.bind_eq_some_iff.mp h
    exact (withAccount_bumps (fun s => hf s id) ht).trans (ih h)

theorem addToBatches_bumps {ids : List Int} (hnd : ids.Nodup) {offset size share : Int}
    {r r' : Bool × State} (h : addToBatches P offset size share ids r = some r') :
    Bumps [] r.2 r'.2 :=
  .of_view (funext fun j => (addToBatches_val (φ := id)
    (fun _ _ _ _ => newAccount_vioView) (fun _ => rfl) hnd h j).trans (by simp))

/-! ### The flush -/

/-- `adjusted_charge` of an account. -/
def adjustedCharge (P : Platform) (combined summed : Int) (s : State) (acct : Int) : Int :=
  let basicCharge := s.accounts.val (fun a => (iobatchGetCost P a.simBatch).1) 0 acct
  P.ulong (safeDiv (P.long (P.ulong (combined * basicCharge))) (P.long summed))

/-- The calls of the flush of one account: the adjusted charge, if it is not 0, and the refund. -/
def flushCalls (P : Platform) (combined summed : Int) (s : State) (acct : Int) : List Int :=
  (if adjustedCharge P combined summed s acct ≠ 0 then [acct] else []) ++ [acct]

theorem flushAccount_bumps {combined summed acct : Int} (hk : acct ∈ s.accounts.keys) :
    Bumps (flushCalls P combined summed s acct) s (flushAccount P combined summed s acct) := by
  have hclear : ∀ t : State, Bumps [] t (t.modifyAccount acct (clearBatch P)) := fun t =>
    .of_modify fun _ => rfl
  by_cases hcharge : adjustedCharge P combined summed s acct ≠ 0
  · rw [flushCalls, if_pos hcharge]
    have hk' := (addVioCounter_charges P s acct).keys acct hk
    simp only [adjustedCharge] at hcharge
    simp only [flushAccount, if_pos hcharge]
    exact ((addVioCounter_bumps hk).trans (addEstimateVio_bumps hk' _)).keep (hclear _)
  · rw [flushCalls, if_neg hcharge]
    simp only [adjustedCharge] at hcharge
    simp only [flushAccount, if_neg hcharge]
    exact (addEstimateVio_bumps hk _).keep (hclear _)

/-- The flush of one account does not change what another is charged. -/
theorem flushAccount_adjustedCharge {combined summed acct id : Int} (hk : acct ∈ s.accounts.keys)
    (hid : id ≠ acct) : adjustedCharge P combined summed (flushAccount P combined summed s acct) id =
      adjustedCharge P combined summed s id := by
  have hbatch : (flushAccount P combined summed s acct).accounts.val (fun a => some a.simBatch)
      none id = s.accounts.val (fun a => some a.simBatch) none id := by
    rw [flushAccount_val (φ := Option.map (iobatchClear P)) (fun _ _ _ => rfl) hk fun _ => rfl,
      Function.update_of_ne hid]
  have hcost : ∀ t : State, t.accounts.val (fun a => (iobatchGetCost P a.simBatch).1) 0 id =
      (t.accounts.val (fun a => some a.simBatch) none id).elim 0 fun b => (iobatchGetCost P b).1 :=
    fun t => Registry.val_comp t.accounts (fun b => b.elim 0 fun b => (iobatchGetCost P b).1)
      (fun a => some a.simBatch) none id
  simp only [adjustedCharge, hcost, hbatch]

theorem foldl_flushAccount_bumps (P : Platform) (combined summed : Int) {ids : List Int}
    (hnd : ids.Nodup) : ∀ {s : State}, (∀ id ∈ ids, id ∈ s.accounts.keys) →
      Bumps (ids.flatMap (flushCalls P combined summed s)) s
        (ids.foldl (flushAccount P combined summed) s) := by
  induction ids with
  | nil => exact fun {s} _ => .refl s
  | cons id ids ih =>
    intro s hk
    obtain ⟨hid, hnd⟩ := List.nodup_cons.mp hnd
    have hk₁ := hk id List.mem_cons_self
    have htail := ih (s := flushAccount P combined summed s id) hnd fun i hi =>
      (flushAccount_charges P combined summed s id).keys i (hk i (List.mem_cons_of_mem _ hi))
    have hsame : ids.flatMap (flushCalls P combined summed (flushAccount P combined summed s id)) =
        ids.flatMap (flushCalls P combined summed s) := by
      refine List.flatMap_congr fun i hi => ?_
      rw [flushCalls, flushAccount_adjustedCharge hk₁ (fun h => hid (h ▸ hi)), flushCalls]
    rw [hsame] at htail
    rw [List.flatMap_cons, List.foldl_cons]
    exact (flushAccount_bumps hk₁).trans htail

/-- The state in which the loop of the flush starts. -/
def flushStart (P : Platform) (s : State) : State :=
  { s with
    diskFullCount := s.diskFullCount + 1
    simBatch := iobatchClear P (iobatchGetCost P s.simBatch).2
    accounts := s.accounts.map (priceBatch P) }

/-- The accounts a flush charges by the disk model. -/
def flushSettles (P : Platform) (s : State) : List Int :=
  s.accounts.keys.filter fun id => decide (adjustedCharge P (iobatchGetCost P s.simBatch).1
    (summedCost P s.accounts) (flushStart P s) id ≠ 0)

theorem count_flushCalls (P : Platform) (combined summed : Int) (s : State) (ids : List Int)
    (id : Int) : (ids.flatMap (flushCalls P combined summed s)).count id = ids.count id +
      (ids.filter fun id => decide (adjustedCharge P combined summed s id ≠ 0)).count id := by
  induction ids with
  | nil => rfl
  | cons i ids ih =>
    rw [List.flatMap_cons, List.count_append, ih, flushCalls]
    by_cases hi : adjustedCharge P combined summed s i ≠ 0
    · rw [if_pos hi, List.filter_cons_of_pos (by simpa using hi)]
      simp only [List.count_append, List.count_cons, List.count_nil]
      omega
    · rw [if_neg hi, List.filter_cons_of_neg (by simpa using hi)]
      simp only [List.nil_append, List.count_cons, List.count_nil]
      omega

/-- A flush refunds every account. -/
theorem flush_bumps (P : Platform) (s : State) :
    Bumps (s.accounts.keys ++ flushSettles P s) s (flush P s) := by
  have hstart : Bumps [] s (flushStart P s) :=
    .of_view (Registry.val_map_keep (f := priceBatch P) fun _ => rfl)
  have hloop := foldl_flushAccount_bumps P (iobatchGetCost P s.simBatch).1 (summedCost P s.accounts)
    (s := flushStart P s) s.accounts.nodup fun _ h => h
  refine (hstart.after hloop).congr fun id => ?_
  rw [count_flushCalls, List.count_append]
  rfl

/-! ### Charging a list -/

/-- The accounts that are charged before disk accounting. -/
def provisionalCharges (s : State) (l : Nat) : List Int :=
  let causes := s.mem.lists l
  if causes.callbackQ ≠ none then []
  else if 0 < causes.itemCount then causes.items
  else []

/-- The state in which disk accounting finds a batch full, if it does. -/
def flushAt (P : Platform) (s : State) (l : Nat) (offset size : Int) : Option State :=
  match (chargeCauses P s l size).bind fun s => s.batchedFor P l offset (s.mem.lists l).items with
  | some (true, s) => some s
  | _ => none

theorem chargeCauses_bumps {l : Nat} {size : Int} (h : chargeCauses P s l size = some s') :
    Bumps (provisionalCharges s l) s s' := by
  simp only [chargeCauses] at h
  simp only [provisionalCharges]
  split_ifs at h ⊢
  · cases h
    exact .of_view rfl
  · have hset : Bumps [] s (s.setList l (causesSetCost (s.mem.lists l) (P.long size))) :=
      .of_view rfl
    exact hset.after (foldlM_withAccount_bumps
      (fun _ _ hk => addEstimateVio_bumps hk _) _ h)
  · cases h
    exact .refl s

theorem accountForCauses_bumps {l : Nat} {offset size : Int}
    (h : accountForCauses P s l offset size = some s') :
    Bumps (provisionalCharges s l ++ (flushAt P s l offset size).elim [] fun t =>
      t.accounts.keys ++ flushSettles P t) s s' := by
  rw [accountForCauses_eq] at h
  obtain ⟨t, ht, h⟩ := Option.bind_eq_some_iff.mp h
  obtain ⟨⟨full, u⟩, hu, rfl⟩ := doDiskAccounting_cases h
  have hadd : Bumps [] (addToGlobalBatch P t offset (P.int (t.mem.lists l).size)) u :=
    addToBatches_bumps (t.mem.lists l).nodup hu
  have hglobal : Bumps [] t (addToGlobalBatch P t offset (P.int (t.mem.lists l).size)) :=
    .of_view rfl
  have hbatched : Bumps [] t u := hglobal.after hadd
  refine (chargeCauses_bumps ht).trans (hbatched.after ?_)
  simp only [flushAt, ht, Option.bind_some, hu]
  cases full with
  | false => exact .refl u
  | true => exact flush_bumps P u

/-! ## Runs -/

/-- A scheduler, the accounts for which `add_vio_counter` was called with a provisional charge or with
a refund, and those for which it was called with another charge. -/
structure Tab where
  sched : State
  provisional : List Int
  settled : List Int

namespace Tab

def init (s : State) : Tab := ⟨s, [], []⟩

inductive Event where
  | accountForCauses (l : Nat) (offset size : Int)
  | causesDirty (l : Nat) (newId : Int) (inode : Nat) (pos : Int)
  | causesFree (l : Nat)
  /-- Work of an account is submitted, for a charge that stays. -/
  | submit (id : Int)
  | getAccount (id : Int)
  /-- The rest of the kernel: cause lists change, time passes. -/
  | kernel (m : Mem)

def step (P : Platform) (w : Tab) : Event → Option Tab
  | .accountForCauses l offset size =>
    let flushed := flushAt P w.sched l offset size
    (Afq.accountForCauses P w.sched l offset size).map fun s =>
      { sched := s
        provisional := w.provisional ++
          (provisionalCharges w.sched l ++ flushed.elim [] (·.accounts.keys))
        settled := w.settled ++ flushed.elim [] (flushSettles P) }
  | .causesDirty l newId inode pos =>
    (basicSchedCausesDirty P w.sched l newId inode pos).map fun s =>
      { w with sched := s, provisional := w.provisional ++ (w.sched.mem.lists l).items }
  | .causesFree l =>
    (basicSchedCausesFree P w.sched l).map fun s =>
      { w with sched := s, provisional := w.provisional ++ (w.sched.mem.lists l).items }
  | .submit id =>
    if id ∈ w.sched.accounts.keys then
      some { w with sched := addVioCounterBy P w.sched id 1, settled := w.settled ++ [id] }
    else none
  | .getAccount id => some { w with sched := (Afq.getAccount P w.sched id).2 }
  | .kernel m => some { w with sched := { w.sched with mem := m } }

theorem step_bumps {w w' : Tab} {e : Event} (h : step P w e = some w') :
    ∃ provisional settled, w'.provisional = w.provisional ++ provisional ∧
      w'.settled = w.settled ++ settled ∧ Bumps (provisional ++ settled) w.sched w'.sched := by
  cases e with
  | accountForCauses l offset size =>
    simp only [step] at h
    obtain ⟨t, ht, rfl⟩ := Option.map_eq_some_iff.mp h
    refine ⟨_, _, rfl, rfl, (accountForCauses_bumps ht).congr fun id => ?_⟩
    cases flushAt P w.sched l offset size with
    | none => simp
    | some u =>
      simp only [Option.elim_some, List.count_append]
      omega
  | causesDirty l newId inode pos =>
    simp only [step] at h
    obtain ⟨t, ht, rfl⟩ := Option.map_eq_some_iff.mp h
    refine ⟨_, [], rfl, (List.append_nil _).symm, ?_⟩
    have hmem : Bumps [] w.sched { w.sched with mem := dirtyMem P w.sched.mem l inode pos } :=
      .of_view rfl
    rw [List.append_nil]
    exact hmem.after (foldlM_withAccount_bumps (fun _ _ hk => addEstimateVio_bumps hk _) _ ht)
  | causesFree l =>
    simp only [step] at h
    obtain ⟨t, ht, rfl⟩ := Option.map_eq_some_iff.mp h
    refine ⟨_, [], rfl, (List.append_nil _).symm, ?_⟩
    rw [List.append_nil]
    exact foldlM_withAccount_bumps (fun _ _ hk => addVioCounter_bumps hk) _ ht
  | submit id =>
    simp only [step] at h
    split at h
    · rename_i hk
      cases h
      exact ⟨[], [id], (List.append_nil _).symm, rfl, addVioCounter_bumps hk⟩
    · cases h
  | getAccount id =>
    cases h
    exact ⟨[], [], (List.append_nil _).symm, (List.append_nil _).symm, getAccount_bumps P _ id⟩
  | kernel m =>
    cases h
    exact ⟨[], [], (List.append_nil _).symm, (List.append_nil _).symm, .of_view rfl⟩

/-- Along a run, every call of `add_vio_counter` was either provisional or settled. -/
theorem run_bumps {w : Tab} {es : List Event} (h : run (step P) (init s) es = some w) :
    Bumps (w.provisional ++ w.settled) s w.sched := by
  refine run_invariant (I := fun w : Tab => Bumps (w.provisional ++ w.settled) s w.sched) ?_ h
    (.refl s)
  intro w e w' hs hI
  obtain ⟨prov, settled, hp, hst, hb⟩ := step_bumps hs
  refine (hI.trans hb).congr fun id => ?_
  simp only [hp, hst, List.count_append]
  omega

end Tab

/-! ## Charges and refunds -/

/-- A charge followed by its refund, of any quantity, moves the counter of an account by two shares,
so never leaves it where it was. Over a run without a reset of the account, the counter is where the
settled charges alone would have put it exactly when no provisional charge and no refund was made. -/
theorem refunds_never_cancel_charges (P : Platform) (s : State) (id : Int)
    (hprio : 1 ≤ s.ioprio id ∧ s.ioprio id ≤ 8) (hlong : -2 ^ 63 ≤ s.vioCounter id) :
    (∀ q : Int, id ∈ s.accounts.keys →
      s.vioCounter id + 2 * vioShare (s.ioprio id) ≤ maxVioCounterThreshold →
      (addVioCounterBy P (addVioCounterBy P s id q) id (-q)).vioCounter id ≠ s.vioCounter id) ∧
    ∀ (es : List Tab.Event) (w : Tab), run (Tab.step P) (Tab.init s) es = some w →
      s.vioCounter id ≤ maxVioCounterThreshold → w.sched.vioReset id = s.vioReset id →
      (w.sched.vioCounter id = s.vioCounter id + w.settled.count id * vioShare (s.ioprio id) ↔
        id ∉ w.provisional) := by
  have hpos := vioShare_bounds (by omega) hprio.2
  constructor
  · intro q hk hroom
    have hc : s.Counts id := ⟨by omega, hprio.2, hlong, by omega⟩
    have hfirst := addVioCounter_bumps (P := P) hk
    have hreset₁ := congrFun (addVioCounter_vioReset (P := P) hk hc (by omega)) id
    obtain ⟨hc₁, hvio₁⟩ := hfirst.vio id hc hreset₁
    have hk₁ := (addVioCounter_charges P s id).keys id hk
    simp only [List.count_singleton_self, Nat.cast_one, one_mul] at hvio₁
    have hprio₁ : (addVioCounter P s id).ioprio id = s.ioprio id := congrFun hfirst.ioprio id
    have hreset₂ := congrFun (addVioCounter_vioReset (P := P) hk₁ hc₁ (by
      rw [hvio₁, hprio₁]
      omega)) id
    obtain ⟨-, hvio₂⟩ := (addVioCounter_bumps (P := P) hk₁).vio id hc₁ hreset₂
    simp only [List.count_singleton_self, Nat.cast_one, one_mul, hprio₁] at hvio₂
    simp only [addVioCounterBy, hvio₂, hvio₁]
    omega
  · intro es w hr hbelow hreset
    have hc : s.Counts id := ⟨by omega, hprio.2, hlong, hbelow⟩
    obtain ⟨-, hvio⟩ := (Tab.run_bumps hr).vio id hc hreset
    rw [hvio, List.count_append, ← List.count_eq_zero]
    push_cast
    constructor
    · intro h
      have hzero : (w.provisional.count id : Int) * vioShare (s.ioprio id) = 0 := by linarith
      rcases mul_eq_zero.mp hzero with h0 | h0
      · exact_mod_cast h0
      · omega
    · intro h
      rw [h]
      ring

/-- Account 7, at priority 4, dirties a page that is freed before it is written. -/
theorem refunds_never_cancel_charges_priority_four :
    ∃ s₀ s w, basicSchedInitData .lp64 pagesOfSeven sampleEnv = some s₀ ∧
      s = basicKvSetCallback .lp64 s₀ 7 "ioprio" 4 ∧
      run (Tab.step .lp64) (Tab.init s) [.causesDirty 0 7 0 0, .causesFree 0] = some w ∧
      (addVioCounterBy .lp64 (addVioCounterBy .lp64 s 7 4096) 7 (-4096)).vioCounter 7 ≠
        s.vioCounter 7 ∧
      (w.sched.vioCounter 7 = s.vioCounter 7 + w.settled.count 7 * vioShare (s.ioprio 7) ↔
        7 ∉ w.provisional) := by
  have h : ((basicSchedInitData .lp64 pagesOfSeven sampleEnv).bind fun s₀ =>
      run (Tab.step .lp64) (Tab.init (basicKvSetCallback .lp64 s₀ 7 "ioprio" 4))
        [.causesDirty 0 7 0 0, .causesFree 0]).any (fun w => decide (w.sched.vioReset 7 = 0)) =
      true := by
    decide +kernel
  have hs : (basicSchedInitData .lp64 pagesOfSeven sampleEnv).any (fun s₀ =>
      let s := basicKvSetCallback .lp64 s₀ 7 "ioprio" 4
      decide (7 ∈ s.accounts.keys ∧ s.ioprio 7 = 4 ∧ s.vioCounter 7 = 0 ∧ s.vioReset 7 = 0)) =
      true := by
    decide +kernel
  obtain ⟨w, hw, hreset⟩ := (Option.any_eq_true _ _).mp h
  obtain ⟨s₀, hs₀, hw⟩ := Option.bind_eq_some_iff.mp hw
  rw [hs₀] at hs
  obtain ⟨hk, hprio, hvio, hreset₀⟩ := of_decide_eq_true hs
  have hmain := refunds_never_cancel_charges .lp64 (basicKvSetCallback .lp64 s₀ 7 "ioprio" 4) 7
    (by rw [hprio]; decide) (by rw [hvio]; decide)
  refine ⟨s₀, _, w, hs₀, rfl, hw, hmain.1 4096 hk ?_, hmain.2 _ w hw ?_ ?_⟩
  · rw [hvio, hprio]
    decide
  · rw [hvio]
    decide
  · rw [of_decide_eq_true hreset, hreset₀]

/-- At priority 4 the counter goes from 0 to 420, both when 4096 is charged and refunded and when a
page is dirtied and freed. -/
theorem refund_charges_again :
    ∃ s₀ s w, basicSchedInitData .lp64 pagesOfSeven sampleEnv = some s₀ ∧
      s = basicKvSetCallback .lp64 s₀ 7 "ioprio" 4 ∧ s.ioprio 7 = 4 ∧ s.vioCounter 7 = 0 ∧
      (addVioCounterBy .lp64 (addVioCounterBy .lp64 s 7 4096) 7 (-4096)).vioCounter 7 = 420 ∧
      run (Tab.step .lp64) (Tab.init s) [.causesDirty 0 7 0 0, .causesFree 0] = some w ∧
      w.settled = [] ∧ w.sched.vioCounter 7 = 420 := by
  have h : (basicSchedInitData .lp64 pagesOfSeven sampleEnv).any (fun s₀ =>
      let s := basicKvSetCallback .lp64 s₀ 7 "ioprio" 4
      decide (s.ioprio 7 = 4 ∧ s.vioCounter 7 = 0 ∧
        (addVioCounterBy .lp64 (addVioCounterBy .lp64 s 7 4096) 7 (-4096)).vioCounter 7 = 420) &&
      (run (Tab.step .lp64) (Tab.init s) [.causesDirty 0 7 0 0, .causesFree 0]).any fun w =>
        decide (w.settled = [] ∧ w.sched.vioCounter 7 = 420)) = true := by
    decide +kernel
  obtain ⟨s₀, hs₀, h⟩ := (Option.any_eq_true _ _).mp h
  obtain ⟨hs, hw⟩ := Bool.and_eq_true_iff.mp h
  obtain ⟨hprio, hvio, hpair⟩ := of_decide_eq_true hs
  obtain ⟨w, hrun, hw⟩ := (Option.any_eq_true _ _).mp hw
  obtain ⟨hsettled, hvio'⟩ := of_decide_eq_true hw
  exact ⟨s₀, _, w, hs₀, rfl, hprio, hvio, hpair, hrun, hsettled, hvio'⟩

end Afq
end SplitSched
