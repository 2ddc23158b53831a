import SplitSched.Tb.Flush

/-!
# SplitSched.Tb.Sharing

What an account pays for a disk that it shares. `do_disk_accounting` prices the requests of all accounts as one sweep
of the disk, and charges each account in proportion to what a sweep for its own requests would cost.

* `uncoalescedCost_le_add`: one sweep for the extents of two costs no more than a sweep for each.
* `own`: the extents of one account since the last flush. `Logged`: what the batches hold, and so what they cost.
* `sharing_never_costs_more`: as long as the requests between two flushes do not overlap, no account is ever charged
  more than a sweep for its own requests.

Allocations succeed.
-/

namespace SplitSched

variable {P : Platform} {xs ys zs : List IORequest}

/-! ## Sweeps for several accounts -/

theorem Distinct.sublist (h : Distinct xs) (hs : ys.Sublist xs) : Distinct ys :=
  ⟨fun y hy => h.pos y (hs.subset hy), h.apart.sublist hs⟩

theorem uncoalescedCost_nonneg (h : Distinct xs) : 0 ≤ uncoalescedCost xs := by
  by_cases hne : xs = []
  · simp [uncoalescedCost, hne]
  · have hseek : 0 ≤ seekCap := by decide
    rw [uncoalescedCost_eq h hne]
    omega

/-- The cost depends on the points that are covered. -/
theorem uncoalescedCost_congr (hx : Distinct xs) (hy : Distinct ys)
    (h : diskSweep.covered xs = diskSweep.covered ys) : uncoalescedCost xs = uncoalescedCost ys := by
  have hnil : xs = [] ↔ ys = [] := by rw [← hx.covered_eq_empty, h, hy.covered_eq_empty]
  by_cases hne : xs = []
  · rw [hne, hnil.mp hne]
  · rw [uncoalescedCost_eq hx hne, uncoalescedCost_eq hy (hnil.not.mp hne), Sweep.paid_congr h]

theorem uncoalescedCost_le_add (hz : Distinct zs) (hx : Distinct xs) (hy : Distinct ys)
    (h : diskSweep.covered zs = diskSweep.covered xs ∪ diskSweep.covered ys) :
    uncoalescedCost zs ≤ uncoalescedCost xs + uncoalescedCost ys := by
  by_cases hxe : xs = []
  · have hcov : diskSweep.covered zs = diskSweep.covered ys := by
      rw [h, hx.covered_eq_empty.mpr hxe, Set.empty_union]
    have hnonneg := uncoalescedCost_nonneg hx
    rw [uncoalescedCost_congr hz hy hcov]
    omega
  by_cases hye : ys = []
  · have hcov : diskSweep.covered zs = diskSweep.covered xs := by
      rw [h, hy.covered_eq_empty.mpr hye, Set.union_empty]
    have hnonneg := uncoalescedCost_nonneg hy
    rw [uncoalescedCost_congr hz hx hcov]
    omega
  have hxne : (diskSweep.covered xs).Nonempty := Set.nonempty_iff_ne_empty.mpr (hx.covered_eq_empty.not.mpr hxe)
  have hyne : (diskSweep.covered ys).Nonempty := Set.nonempty_iff_ne_empty.mpr (hy.covered_eq_empty.not.mpr hye)
  have hzne : zs ≠ [] := by
    intro hze
    rw [hz.covered_eq_empty.mpr hze] at h
    exact hxne.ne_empty (Set.union_empty_iff.mp h.symm).1
  have hle := Sweep.ncard_paid_le_add h hxne hyne
  have hcap : diskSweep.cap = seekCap := rfl
  rw [uncoalescedCost_eq hz hzne, uncoalescedCost_eq hx hxe, uncoalescedCost_eq hy hye]
  omega

namespace Tb

/-- The extents since the last flush, each with the accounts that it is for. -/
abbrev Log := List (IORequest × List Int)

variable {log : Log} {id : Int} {ids : List Int} {e : IORequest × List Int}

def Log.extents (log : Log) : List IORequest := log.map (·.1)

def own (id : Int) (log : Log) : List IORequest := (log.filter fun e => id ∈ e.2).map (·.1)

/-- The extents that are for one of `ids`. -/
def ownAny (ids : List Int) (log : Log) : List IORequest := (log.filter fun e => ∃ id ∈ ids, id ∈ e.2).map (·.1)

theorem own_sublist (id : Int) (log : Log) : (own id log).Sublist log.extents := List.filter_sublist.map _

theorem ownAny_sublist (ids : List Int) (log : Log) : (ownAny ids log).Sublist log.extents :=
  List.filter_sublist.map _

theorem own_append (id : Int) (log : Log) (e : IORequest × List Int) :
    own id (log ++ [e]) = own id log ++ if id ∈ e.2 then [e.1] else [] := by
  by_cases hid : id ∈ e.2 <;> simp [own, hid]

theorem covered_ownAny_cons (id : Int) (ids : List Int) (log : Log) :
    diskSweep.covered (ownAny (id :: ids) log) =
      diskSweep.covered (own id log) ∪ diskSweep.covered (ownAny ids log) := by
  ext p
  simp only [Sweep.covered, ownAny, own, List.mem_map, List.mem_filter, Set.mem_union, Set.mem_ofPred_eq,
    List.mem_cons, exists_eq_or_imp, decide_eq_true_eq]
  constructor
  · rintro ⟨x, ⟨e, ⟨he, hid | hids⟩, rfl⟩, hp⟩
    · exact .inl ⟨_, ⟨e, ⟨he, hid⟩, rfl⟩, hp⟩
    · exact .inr ⟨_, ⟨e, ⟨he, hids⟩, rfl⟩, hp⟩
  · rintro (⟨x, ⟨e, ⟨he, hid⟩, rfl⟩, hp⟩ | ⟨x, ⟨e, ⟨he, hids⟩, rfl⟩, hp⟩)
    · exact ⟨_, ⟨e, ⟨he, .inl hid⟩, rfl⟩, hp⟩
    · exact ⟨_, ⟨e, ⟨he, .inr hids⟩, rfl⟩, hp⟩

theorem uncoalescedCost_ownAny_le (h : Distinct log.extents) (ids : List Int) :
    uncoalescedCost (ownAny ids log) ≤ (ids.map fun id => uncoalescedCost (own id log)).sum := by
  induction ids with
  | nil => simp [ownAny, uncoalescedCost]
  | cons id ids ih =>
    have hle := uncoalescedCost_le_add (h.sublist (ownAny_sublist (id :: ids) log)) (h.sublist (own_sublist id log))
      (h.sublist (ownAny_sublist ids log)) (covered_ownAny_cons id ids log)
    simp only [List.map_cons, List.sum_cons]
    omega

/-- One sweep for all extents costs no more than a sweep for each account, if each extent is for one of them. -/
theorem uncoalescedCost_extents_le (h : Distinct log.extents) (hids : ∀ e ∈ log, ∃ id ∈ ids, id ∈ e.2) :
    uncoalescedCost log.extents ≤ (ids.map fun id => uncoalescedCost (own id log)).sum := by
  have hall : ownAny ids log = log.extents := by
    unfold ownAny Log.extents
    rw [List.filter_eq_self.mpr]
    intro e he
    exact decide_eq_true (hids e he)
  rw [← hall]
  exact uncoalescedCost_ownAny_le h ids

/-! ## What the batches hold -/

/-- A batch within the shipped limits that holds the extents `xs`. -/
structure Fills (P : Platform) (b : IoBatch) (xs : List IORequest) : Prop where
  bounded : Bounded P b
  inv : Filling.Inv P ⟨b, xs⟩

/-- An extent with content within the shipped limits, apart from those in `xs`. -/
def Admissible (xs : List IORequest) (offset size : Int) : Prop :=
  SmallExtent offset size ∧ 0 < size ∧ ∀ x ∈ xs, diskSweep.Apart ⟨offset, size⟩ x

instance (xs : List IORequest) (offset size : Int) : Decidable (Admissible xs offset size) :=
  inferInstanceAs (Decidable (_ ∧ _ ∧ _))

namespace Fills

variable {b : IoBatch} {offset size : Int}

theorem new (P : Platform) : Fills P (iobatchNew P batchSize batchByteCap) [] :=
  have hcap : batchSize < 2 ^ 31 := by decide
  have hnil : Distinct [] := ⟨by simp, by simp⟩
  ⟨.new P, ⟨⟨hnil, hnil, rfl⟩, by simp [iobatchNew], by simp [iobatchNew], hcap, .inl rfl⟩⟩

theorem add (h : Fills P b xs) (hfull : iobatchFull b = false) (hf : Admissible xs offset size) :
    Fills P (iobatchAddRequest P b offset size).2 (xs ++ [⟨offset, size⟩]) := by
  obtain ⟨hsmall, hpos, hapart⟩ := hf
  have hlt := h.bounded.bytes_add_lt hfull hsmall
  have hmax := hsmall.2.1
  have hoffset := hsmall.2.2.1
  refine ⟨h.bounded.add hsmall, h.inv.add hfull ⟨by omega, hpos, by omega, hsmall.2.2.2, hapart⟩ ?_⟩
  intro prev hprev _
  have hle := h.bounded.size_le (List.mem_of_getLast? hprev)
  omega

theorem getCost (hP : P.IsLp64) (h : Fills P b xs) : Fills P (iobatchGetCost P b).2 xs :=
  ⟨h.bounded.getCost hP, h.inv.getCost hP⟩

theorem cost (hP : P.IsLp64) (h : Fills P b xs) : (iobatchGetCost P b).1 = uncoalescedCost xs :=
  h.inv.priced hP

theorem uncoalescedCost_le (hP : P.IsLp64) (h : Fills P b xs) : uncoalescedCost xs ≤ maxCost := by
  rw [← h.cost hP]
  exact (h.bounded.getCost_le hP).2

theorem clear (h : Fills P b xs) : Fills P (iobatchClear P b) [] := by
  have he := IoBatch.iobatchClear_empties P b
  refine ⟨h.bounded.clear, ⟨⟨?_, ⟨by simp, by simp⟩, ?_⟩, ?_, ?_, ?_, ?_⟩⟩
  · exact ⟨by simp [he.reqs], by simp [he.reqs]⟩
  · simp [he.reqs]
  · simp [he.reqs]
  · simp [he.reqs]
  · rw [he.capacity]
    exact h.inv.capacity
  · -- a batch without entries keeps its cost, which is that of no extents
    simp only [iobatchClear]
    split
    · exact .inl rfl
    · rename_i hlen
      have hreqs : b.reqs = [] := List.length_eq_zero_iff.mp (by omega)
      have hxs := h.inv.tiles.nil_iff.mp hreqs
      have hcache := h.inv.cache
      rwa [hxs] at hcache

theorem cached (h : Fills P b xs) (hd : Distinct xs) : b.Cached P := by
  rcases h.inv.cache with hu | hcost
  · exact .inl hu
  · refine .inr ⟨hcost ▸ uncoalescedCost_nonneg hd, fun hreqs => ?_⟩
    rw [hcost, h.inv.tiles.nil_iff.mp hreqs]
    rfl

end Fills

/-- The batches hold what was added since the last flush. -/
structure Logged (P : Platform) (B : BatchSet) (log : Log) : Prop where
  whole : Fills P B.whole log.extents
  acct : ∀ id, Fills P (B.acct id) (own id log)

namespace Logged

variable {B : BatchSet} {t : Tally} {offset size : Int}

theorem distinct (h : Logged P B log) : Distinct log.extents := h.whole.inv.tiles.extents

theorem add (h : Logged P B log) (hr : B.Roomy t) (hf : Admissible log.extents offset size) (ids : List Int) :
    Logged P (B.add P ids offset size) (log ++ [(⟨offset, size⟩, ids)]) := by
  refine ⟨?_, fun id => ?_⟩
  · rw [Log.extents, List.map_append]
    exact h.whole.add hr.whole.notFull hf
  · rw [own_append]
    by_cases hid : id ∈ ids
    · have hown : Admissible (own id log) offset size :=
        ⟨hf.1, hf.2.1, fun x hx => hf.2.2 x ((own_sublist id log).subset hx)⟩
      simp only [BatchSet.add, hid, if_true]
      exact (h.acct id).add (hr.acct id).notFull hown
    · simp only [BatchSet.add, hid, if_false, List.append_nil]
      exact h.acct id

end Logged

section Flush

variable {s : State}

theorem flush_logged (hP : P.IsLp64) (h : Logged P (s.batchSet P) log) : Logged P ((flush P s).batchSet P) [] := by
  refine ⟨(h.whole.getCost hP).clear, fun id => ?_⟩
  have hacct := h.acct id
  simp only [State.batchSet, flush, Registry.val, Registry.map] at hacct ⊢
  cases ha : s.accounts.find id with
  | none => exact .new P
  | some a =>
    rw [ha] at hacct
    exact ((hacct.getCost hP).getCost hP).clear

theorem Logged.cached (h : Logged P (s.batchSet P) log) : s.Cached P := by
  refine ⟨h.whole.cached h.distinct, fun id a ha => ?_⟩
  have hacct := h.acct id
  simp only [State.batchSet, Registry.val, ha, Option.map_some, Option.getD_some] at hacct
  exact hacct.cached (h.distinct.sublist (own_sublist id log))

theorem Logged.basicCharge (hP : P.IsLp64) (h : Logged P (s.batchSet P) log) (id : Int) :
    s.basicCharge P id = uncoalescedCost (own id log) := by
  have hnew : (iobatchGetCost P (iobatchNew P batchSize batchByteCap)).1 = 0 := (Fills.new P).cost hP
  rw [← (h.acct id).cost hP, State.basicCharge, ← hnew]
  exact Registry.val_comp s.accounts (fun b => (iobatchGetCost P b).1) (·.batch) _ id

theorem Logged.fits (hP : P.IsLp64) (h : Logged P (s.batchSet P) log) (hkeys : s.accounts.keys.length < 2 ^ 31) :
    Fits P s := by
  constructor
  · have hle := List.sum_le_card_nsmul (s.accounts.keys.map (s.basicCharge P)) maxCost fun c hc => by
      obtain ⟨id, -, rfl⟩ := List.mem_map.mp hc
      rw [h.basicCharge hP]
      exact (h.acct id).uncoalescedCost_le hP
    rw [List.length_map, nsmul_eq_mul] at hle
    have hmax : maxCost = 2283798528 := by decide
    rw [hmax] at hle
    omega
  · intro id _
    rw [h.basicCharge hP, ← (h.acct id).cost hP]
    exact (h.whole.bounded.mul_lt hP (h.acct id).bounded).2

theorem Logged.sum_basicCharge_pos (hP : P.IsLp64) (h : Logged P (s.batchSet P) log) (hne : log ≠ [])
    (hknown : ∀ e ∈ log, ∃ id ∈ s.accounts.keys, id ∈ e.2) :
    s.combinedCost P ≤ (s.accounts.keys.map (s.basicCharge P)).sum ∧
      0 < (s.accounts.keys.map (s.basicCharge P)).sum := by
  have hne' : log.extents ≠ [] := by simpa [Log.extents] using hne
  have hle := uncoalescedCost_extents_le h.distinct hknown
  have hcost : s.combinedCost P = uncoalescedCost log.extents := h.whole.cost hP
  have hpos := uncoalescedCost_eq h.distinct hne'
  have hseek : 0 < seekCap := by decide
  rw [← List.map_congr_left fun id _ => h.basicCharge hP id] at hle
  omega

/-- A flush charges no account more than a sweep for its own extents. -/
theorem Logged.adjustedCharge_le (hP : P.IsLp64) (h : Logged P (s.batchSet P) log) (hne : log ≠ [])
    (hknown : ∀ e ∈ log, ∃ id ∈ s.accounts.keys, id ∈ e.2) (hkeys : s.accounts.keys.length < 2 ^ 31)
    (hid : id ∈ s.accounts.keys) :
    0 ≤ s.adjustedCharge P id ∧ s.adjustedCharge P id ≤ uncoalescedCost (own id log) := by
  obtain ⟨hle, hpos⟩ := h.sum_basicCharge_pos hP hne hknown
  have hcombined : 0 ≤ s.combinedCost P := (h.cached.whole.cost hP).1
  have hbasic := basicCharge_nonneg hP h.cached id
  rw [adjustedCharge_eq hP h.cached (h.fits hP hkeys) hpos hid, ← h.basicCharge hP]
  exact ⟨Apportion.share_nonneg hcombined hpos.le hbasic, Apportion.share_le_weight hpos hbasic hle⟩

end Flush

/-! ## One call -/

section Call

variable {s s' : State}

theorem newAccount_used {env : Env} {a : Account} (h : (newAccount P env id).1 = some a) : a.used = 0 := by
  simp only [newAccount] at h
  split at h
  · cases h
    rfl
  · cases h

theorem getAccount_used (P : Platform) (s : State) (id : Int) : (getAccount P s id).2.used = s.used :=
  getAccount_val fun _ ha => newAccount_used ha

theorem batchedFor_used (hnd : ids.Nodup) (hm : s.env.Plenty) (l : Nat) (offset : Int) :
    (s.batchedFor P l offset ids).2.used = s.used := by
  have hm' := (addToGlobalBatch_grows P s offset (P.int (s.mem.lists l).size)).plenty hm
  funext id
  refine (addToBatches_val (φ := fun n : Int => n) (fun _ _ _ => newAccount_used) (fun _ => rfl) hnd hm' id).trans ?_
  exact ite_self _

theorem batchedFor_grows (P : Platform) (s : State) (l : Nat) (offset : Int) (ids : List Int) :
    Grows s (s.batchedFor P l offset ids).2 :=
  (addToGlobalBatch_grows P s offset (P.int (s.mem.lists l).size)).trans (addToBatches_grows P _ _ _ ids (_, _))

theorem Grows.extends (h : Grows s s') : s.accounts.keys <+: s'.accounts.keys := by
  obtain ⟨new, hk, -⟩ := h.created
  exact ⟨new, hk.symm⟩

/-- New accounts have used nothing. -/
theorem sum_used_of_extends (h : s.accounts.keys <+: s'.accounts.keys) :
    (s'.accounts.keys.map s.used).sum = (s.accounts.keys.map s.used).sum := by
  obtain ⟨new, hk⟩ := h
  have hnd := s'.accounts.nodup
  rw [← hk] at hnd ⊢
  have hnew : (new.map s.used).sum = 0 := by
    refine List.sum_eq_zero fun n hn => ?_
    obtain ⟨id, hid, rfl⟩ := List.mem_map.mp hn
    exact Registry.val_of_not_mem fun hold => (List.nodup_append.mp hnd).2.2 id hold id hid rfl
  rw [List.map_append, List.sum_append, hnew, add_zero]

theorem addToBatches_mem_keys (offset size share : Int) (ids : List Int) : ∀ {r : Bool × State}, r.2.env.Plenty →
    ∀ id ∈ ids, id ∈ (addToBatches P offset size share ids r).2.accounts.keys := by
  induction ids with
  | nil => simp
  | cons j ids ih =>
    rintro ⟨full, s⟩ hm id hid
    have hm' := (addToAccountBatch_grows P offset size share s j).plenty hm
    rcases List.mem_cons.mp hid with rfl | hid
    · refine (addToBatches_grows P offset size share ids (_, _)).extends.subset ?_
      simp only [addToAccountBatch, State.modifyAccount, Registry.keys_modify]
      exact (getAccount_plenty hm id).2
    · exact ih (r := (full || (addToAccountBatch P offset size share s j).1, _)) hm' id hid

theorem batchedFor_mem_keys (hm : s.env.Plenty) (l : Nat) (offset : Int) (hid : id ∈ ids) :
    id ∈ (s.batchedFor P l offset ids).2.accounts.keys :=
  have hm' := (addToGlobalBatch_grows P s offset (P.int (s.mem.lists l).size)).plenty hm
  addToBatches_mem_keys _ _ _ ids (r := (_, _)) hm' id hid

theorem batchedFor_ioBatches (P : Platform) (s : State) (l : Nat) (offset : Int) (ids : List Int) :
    (s.batchedFor P l offset ids).2.stats.ioBatches = s.stats.ioBatches := by
  rw [State.batchedFor, (addToBatches_whole P _ _ _ _ (_, _)).2]
  rfl

end Call

/-! ## Runs -/

/-- A run, and what it cost. -/
structure Shared where
  sched : State
  /-- What was accounted for since the last flush. -/
  log : Log
  /-- What sweeps for the requests of one account alone would have cost. -/
  alone : Int → Int
  /-- What the sweeps for all requests cost. -/
  together : Int
  flushes : Nat

namespace Shared

def init (s : State) : Shared := ⟨s, [], fun _ => 0, 0, 0⟩

/-- A flush has charged for `log`, and left the state `s`. -/
def settle (w : Shared) (s : State) (log : Log) : Shared where
  sched := s
  log := []
  alone id := w.alone id + uncoalescedCost (own id log)
  together := w.together + uncoalescedCost log.extents
  flushes := w.flushes + 1

/-- A call has accounted for `e`, and left the state `s`. -/
def record (w : Shared) (s : State) (e : IORequest × List Int) : Shared :=
  if s.stats.ioBatches = w.sched.stats.ioBatches then { w with sched := s, log := w.log ++ [e] }
  else w.settle s (w.log ++ [e])

@[simp] theorem record_sched (w : Shared) (s : State) (e : IORequest × List Int) : (w.record s e).sched = s := by
  unfold record
  split <;> rfl

/-- Disk accounting for lists that name an account, where the extents of a batch do not overlap. -/
def step (P : Platform) (w : Shared) : DiskEvent → Option Shared
  | .account l offset =>
    let causes := w.sched.mem.lists l
    if causes.items ≠ [] ∧ Admissible w.log.extents offset causes.size then
      some (w.record (doDiskAccounting P w.sched l offset) (⟨offset, causes.size⟩, causes.items))
    else none
  | .getAccount id => some { w with sched := (getAccount P w.sched id).2 }
  | .kernel m => some { w with sched := { w.sched with mem := m } }

def charged (w : Shared) : Int := (w.sched.accounts.keys.map w.sched.used).sum

variable {s : State} {w w' : Shared}

/-- The batches hold the log, and every extent of the log is for an account that exists. -/
structure Tracked (P : Platform) (w : Shared) : Prop where
  capped : ∀ id, w.alone id ≤ w.flushes * maxCost
  plenty : w.sched.env.Plenty
  room : ∃ t, (w.sched.batchSet P).Roomy t
  logged : Logged P (w.sched.batchSet P) w.log
  known : ∀ e ∈ w.log, ∃ id ∈ w.sched.accounts.keys, id ∈ e.2

/-- The state in which a call decides about a flush, with `e` in the batches. -/
structure Batched (P : Platform) (w : Shared) (s : State) (e : IORequest × List Int) : Prop where
  grows : Grows w.sched s
  used : s.used = w.sched.used
  logged : Logged P (s.batchSet P) (w.log ++ [e])
  known : ∀ e' ∈ w.log ++ [e], ∃ id ∈ s.accounts.keys, id ∈ e'.2

/-- Everything a call of `do_disk_accounting` can do. -/
theorem step_account {l : Nat} {offset : Int} (hw : Tracked P w) (h : step P w (.account l offset) = some w') :
    (∃ t, (w'.sched.batchSet P).Roomy t) ∧ ∃ s e, Batched P w s e ∧
      (w' = { w with sched := s, log := w.log ++ [e] } ∨ w' = w.settle (flush P s) (w.log ++ [e])) := by
  simp only [step] at h
  split at h
  · rename_i hok
    obtain ⟨hitems, hadm⟩ := hok
    cases h
    obtain ⟨t, hroom⟩ := hw.room
    have hnd := (w.sched.mem.lists l).nodup
    have hmax := hadm.1.2.1
    have hsize : P.int (w.sched.mem.lists l).size = (w.sched.mem.lists l).size :=
      P.int_fits _ (by omega) (by omega)
    have hset := batchedFor_batchSet (P := P) hnd hw.plenty l offset
    have hacc := doDiskAccounting_accounts (P := P) hw.plenty l offset
    rw [hsize] at hset hacc
    have hb : Batched P w (w.sched.batchedFor P l offset (w.sched.mem.lists l).items).2
        (⟨offset, (w.sched.mem.lists l).size⟩, (w.sched.mem.lists l).items) := by
      refine ⟨batchedFor_grows P _ l offset _, batchedFor_used hnd hw.plenty l offset, ?_, ?_⟩
      · rw [hset]
        exact hw.logged.add hroom hadm _
      · intro e he
        rcases List.mem_append.mp he with he | he
        · obtain ⟨id, hid, hide⟩ := hw.known e he
          exact ⟨id, (batchedFor_grows P _ l offset _).extends.subset hid, hide⟩
        · cases List.mem_singleton.mp he
          obtain ⟨id, hid⟩ := List.exists_mem_of_ne_nil _ hitems
          exact ⟨id, batchedFor_mem_keys hw.plenty l offset hid, hid⟩
    have hroom' := hroom.accounts (by omega) (by omega) hacc
    have hsame := batchedFor_ioBatches P w.sched l offset (w.sched.mem.lists l).items
    refine ⟨?_, _, _, hb, ?_⟩
    · rw [record_sched]
      exact ⟨_, hroom'⟩
    · rw [doDiskAccounting_eq, record]
      cases (w.sched.batchedFor P l offset (w.sched.mem.lists l).items).1 with
      | false => exact .inl (by simp [hsame])
      | true => exact .inr (by simp [flush, hsame])
  · cases h

theorem step_tracked (hP : P.IsLp64) {e : DiskEvent} (h : step P w e = some w') (hw : Tracked P w) : Tracked P w' := by
  cases e with
  | account l offset =>
    obtain ⟨hroom, s, e, hb, rfl | rfl⟩ := step_account hw h
    · exact ⟨hw.capped, hb.grows.plenty hw.plenty, hroom, hb.logged, hb.known⟩
    · refine ⟨fun id => ?_, (hb.grows.trans (flush_grows P s)).plenty hw.plenty, hroom, flush_logged hP hb.logged,
        by simp [settle]⟩
      have hle := (hb.logged.acct id).uncoalescedCost_le hP
      have hcap := hw.capped id
      simp only [settle]
      push_cast
      linarith
  | getAccount id =>
    cases h
    have hset := getAccount_batchSet P w.sched id
    have hgrows := getAccount_grows P w.sched id
    refine ⟨hw.capped, hgrows.plenty hw.plenty, hset.symm ▸ hw.room, hset.symm ▸ hw.logged, fun e he => ?_⟩
    obtain ⟨j, hj, hje⟩ := hw.known e he
    exact ⟨j, hgrows.extends.subset hj, hje⟩
  | kernel m =>
    cases h
    exact ⟨hw.capped, hw.plenty, hw.room, hw.logged, hw.known⟩

/-! ## Charges and costs -/

/-- No account pays for more than its own sweeps, and all of them together pay for the sweeps that were made, up to one
unit for each account and flush. -/
structure Fair (w : Shared) : Prop where
  nonneg : ∀ id, 0 ≤ w.sched.used id
  alone : ∀ id, w.sched.used id ≤ w.alone id
  total : w.charged ≤ w.together
  rounding : w.together ≤ w.charged + w.flushes * w.sched.accounts.keys.length

/-- The counters do not wrap around. -/
structure Moderate (w : Shared) : Prop where
  flushes : w.flushes < 2 ^ 31
  accounts : w.sched.accounts.keys.length < 2 ^ 31

/-- A step that charges nobody. -/
theorem Fair.keep (h : Fair w) (hk : w.sched.accounts.keys <+: s.accounts.keys) (hu : s.used = w.sched.used)
    (log : Log) : Fair { w with sched := s, log } := by
  have hsum := sum_used_of_extends hk
  have hlen := hk.length_le
  have hround := h.rounding
  have htotal := h.total
  simp only [charged] at hround htotal
  refine ⟨fun id => ?_, fun id => ?_, ?_, ?_⟩
  · rw [hu]
    exact h.nonneg id
  · rw [hu]
    exact h.alone id
  · simpa only [charged, hu, hsum] using htotal
  · simp only [charged, hu, hsum]
    have hmul : (w.flushes : Int) * w.sched.accounts.keys.length ≤ w.flushes * s.accounts.keys.length :=
      mul_le_mul_of_nonneg_left (by omega) (by omega)
    omega

/-- A flush. -/
theorem Fair.after_flush (hP : P.IsLp64) (h : Fair w) (hw : Tracked P w) {e : IORequest × List Int} (hb : Batched P w s e)
    (hm : Moderate (w.settle (flush P s) (w.log ++ [e]))) : Fair (w.settle (flush P s) (w.log ++ [e])) := by
  have hne : w.log ++ [e] ≠ [] := by simp
  have hflushes : w.flushes + 1 < 2 ^ 31 := hm.flushes
  have hkeys : s.accounts.keys.length < 2 ^ 31 := hm.accounts
  have hcost := fun id => uncoalescedCost_nonneg (hb.logged.distinct.sublist (own_sublist id _))
  obtain ⟨-, hpos⟩ := hb.logged.sum_basicCharge_pos hP hne hb.known
  have hfits := hb.logged.fits hP hkeys
  have happ := apportioned_of_fits hP hb.logged.cached hfits (by rwa [summedCost_eq hP hb.logged.cached hfits])
  have hcharge := fun id (hid : id ∈ s.accounts.keys) => hb.logged.adjustedCharge_le hP hne hb.known hkeys hid
  -- what an account would have paid alone is far from the limits of a `long`
  have hused : ∀ id ∈ s.accounts.keys, (flush P s).used id = w.sched.used id + s.adjustedCharge P id := by
    intro id hid
    have hcap := hw.capped id
    have hle := h.alone id
    have hnonneg := h.nonneg id
    have hmax : maxCost = 2283798528 := by decide
    have hown := (hb.logged.acct id).uncoalescedCost_le hP
    obtain ⟨h0, hcharge⟩ := hcharge id hid
    rw [hmax] at hcap hown
    rw [happ.charged id hid, hb.used]
    exact P.long_fits _ (by omega) (by omega)
  have hzero : ∀ id ∉ s.accounts.keys, (flush P s).used id = 0 := fun id hid => Registry.val_of_not_mem hid
  have hsum : (s.accounts.keys.map (flush P s).used).sum =
      w.charged + (s.accounts.keys.map (s.adjustedCharge P)).sum := by
    rw [List.map_congr_left hused, List.sum_map_add, sum_used_of_extends hb.grows.extends]
    rfl
  refine ⟨fun id => ?_, fun id => ?_, ?_, ?_⟩
  · by_cases hid : id ∈ s.accounts.keys
    · have hnonneg := h.nonneg id
      have h0 := (hcharge id hid).1
      simp only [settle, hused id hid]
      omega
    · simp only [settle, hzero id hid, le_refl]
  · by_cases hid : id ∈ s.accounts.keys
    · have halone := h.alone id
      have hle := (hcharge id hid).2
      simp only [settle, hused id hid]
      omega
    · have halone := (h.nonneg id).trans (h.alone id)
      simp only [settle, hzero id hid]
      exact add_nonneg halone (hcost id)
  · have htotal := h.total
    have hle := happ.total
    rw [show s.combinedCost P = uncoalescedCost (w.log ++ [e]).extents from hb.logged.whole.cost hP] at hle
    exact hsum.trans_le (add_le_add htotal hle)
  · have hround := h.rounding
    have hlt := happ.rounding
    have hcount : (s.accounts.keys.filter fun id => s.basicCharge P id ≠ 0).length ≤ s.accounts.keys.length :=
      List.length_filter_le _ _
    have hlen := hb.grows.extends.length_le
    have hmul : (w.flushes : Int) * w.sched.accounts.keys.length ≤ w.flushes * s.accounts.keys.length :=
      mul_le_mul_of_nonneg_left (by omega) (by omega)
    rw [show s.combinedCost P = uncoalescedCost (w.log ++ [e]).extents from hb.logged.whole.cost hP] at hlt
    have hgoal : w.together + uncoalescedCost (w.log ++ [e]).extents ≤
        (s.accounts.keys.map (flush P s).used).sum + ((w.flushes + 1 : Nat) : Int) * s.accounts.keys.length := by
      rw [hsum]
      push_cast
      linarith
    exact hgoal

theorem step_fair (hP : P.IsLp64) {e : DiskEvent} (h : step P w e = some w') (hw : Tracked P w)
    (hfair : Moderate w → Fair w) (hm : Moderate w') : Fair w' := by
  cases e with
  | account l offset =>
    obtain ⟨-, s, e, hb, rfl | rfl⟩ := step_account hw h
    · have hlen := hb.grows.extends.length_le
      exact (hfair ⟨hm.flushes, hlen.trans_lt hm.accounts⟩).keep hb.grows.extends hb.used _
    · have hlen := hb.grows.extends.length_le
      have hflushes : w.flushes + 1 < 2 ^ 31 := hm.flushes
      exact (hfair ⟨by omega, hlen.trans_lt hm.accounts⟩).after_flush hP hw hb hm
  | getAccount id =>
    cases h
    have hk := (getAccount_grows P w.sched id).extends
    have hlen := hk.length_le
    exact (hfair ⟨hm.flushes, hlen.trans_lt hm.accounts⟩).keep hk (getAccount_used P w.sched id) _
  | kernel m =>
    cases h
    have hk : w.sched.accounts.keys <+: ({ w.sched with mem := m } : State).accounts.keys := List.prefix_refl _
    exact (hfair ⟨hm.flushes, hm.accounts⟩).keep hk rfl _

theorem tracked_init {m : Mem} {env : Env} (henv : env.Plenty) (h : tbucketInitQueue P m env = some s) :
    Tracked P (init s) := by
  obtain ⟨hwhole, env', a, ha, hs⟩ := tbucketInitQueue_accounts h
  have hplenty : s.env.Plenty := by
    intro n
    rw [(tbucketInitQueue_fresh h).2.2]
    exact henv n
  refine ⟨by simp [init], hplenty, ⟨_, (tbucketInitQueue_batchSet h).roomy (by decide) (by decide) (by decide)⟩, ?_,
    by simp [init]⟩
  constructor
  · simp only [init, State.batchSet, hwhole]
    exact .new P
  · intro id
    simp only [init, State.batchSet, hs, Registry.val_insert (newAccount_batch ha)]
    exact .new P

theorem fair_init {m : Mem} {env : Env} (h : tbucketInitQueue P m env = some s) : Fair (init s) := by
  obtain ⟨-, env', a, ha, hs⟩ := tbucketInitQueue_accounts h
  have hzero : s.used = fun _ => 0 := by
    unfold State.used
    rw [hs, Registry.val_insert (newAccount_used ha)]
    rfl
  refine ⟨?_, ?_, ?_, ?_⟩ <;> simp [init, charged, hzero]

/-- In every run in which the extents between two flushes do not overlap, no account is charged more than sweeps for its
own requests would have cost, and the charges of all accounts add up to the cost of the sweeps that were made, up to
rounding. Allocations succeed, every extent is `SmallExtent`, not empty and for some account, and there are fewer than
2^31 flushes and accounts. -/
theorem sharing_never_costs_more (hP : P.IsLp64) {m : Mem} {env : Env} (henv : env.Plenty)
    (h0 : tbucketInitQueue P m env = some s) {es : List DiskEvent} (h : run (step P) (init s) es = some w)
    (hm : Moderate w) : Fair w := by
  have hI := run_invariant (I := fun w => Tracked P w ∧ (Moderate w → Fair w))
    (fun _ _ _ hs hI => ⟨step_tracked hP hs hI.1, step_fair hP hs hI.1 hI.2⟩) h
    ⟨tracked_init henv h0, fun _ => fair_init h0⟩
  exact hI.2 hm

/-- After a page of account 7, a flush for 32 MB of the accounts 7 and 9: each pays less than it would alone. -/
theorem sharing_never_costs_more_shared : ∃ s w, tbucketInitQueue .lp64 sharedPages sampleEnv = some s ∧
    run (step .lp64) (init s) [.account 0 4096, .account 1 8192] = some w ∧ Fair w ∧ w.flushes = 1 ∧
      w.sched.used 9 < w.alone 9 := by
  have h : ((tbucketInitQueue .lp64 sharedPages sampleEnv).bind fun s =>
      run (step .lp64) (init s) [.account 0 4096, .account 1 8192]).any (fun w =>
        decide (w.flushes = 1 ∧ w.sched.accounts.keys.length < 2 ^ 31 ∧ w.sched.used 9 < w.alone 9)) := by
    decide +kernel
  obtain ⟨w, hw, hok⟩ := (Option.any_eq_true _ _).mp h
  obtain ⟨s, h0, hrun⟩ := Option.bind_eq_some_iff.mp hw
  obtain ⟨hflushes, hkeys, hless⟩ := of_decide_eq_true hok
  have henv : sampleEnv.Plenty := fun _ => rfl
  have hm : Moderate w := ⟨by rw [hflushes]; norm_num, hkeys⟩
  exact ⟨s, w, h0, hrun, sharing_never_costs_more Platform.isLp64_lp64 henv h0 hrun hm, hflushes, hless⟩

end Shared
end Tb
end SplitSched
