import SplitSched.Block.BatchCost
import SplitSched.Lib.Apportion
import SplitSched.Tb.DiskBatches

/-!
# SplitSched.Tb.Flush

The flush of `do_disk_accounting`: the cost of the global batch is split among the accounts in proportion
to the costs of their own batches.

* `IoBatch.Cached`: what holds of the cost that a batch remembers, in every state (`run_cached`).
* `adjustedCharge_eq`: as long as nothing overflows, an account is charged its `Apportion.share`.
* `flush_apportions`: so the charges add up to the combined cost, up to rounding.
* `Bounded`: a batch within the shipped limits. `cost_arithmetic_exact`: nothing overflows in a flush then.
-/

namespace SplitSched

/-! ## The remembered cost -/

namespace IoBatch

variable {P : Platform} {b : IoBatch}

/-- The cost that is remembered, if any, is not negative, and an empty batch costs nothing. -/
def Cached (P : Platform) (b : IoBatch) : Prop :=
  b.cost = costUnset P ∨ 0 ≤ b.cost ∧ (b.reqs = [] → b.cost = 0)

theorem iobatchNew_cached (P : Platform) (capacity : Nat) (bytesCap : Int) :
    (iobatchNew P capacity bytesCap).Cached P := .inl rfl

theorem Cached.add (h : b.Cached P) (offset size : Int) : (iobatchAddRequest P b offset size).2.Cached P := by
  simp only [iobatchAddRequest]
  split
  · exact h
  · split
    · exact .inl rfl
    · split <;> exact .inl rfl

theorem Cached.clear (h : b.Cached P) : (iobatchClear P b).Cached P := by
  simp only [iobatchClear]
  split
  · exact .inl rfl
  · exact h

theorem priceOf_nonneg (hP : P.IsLp64) (reqs : List IORequest) : 0 ≤ priceOf P reqs := by
  cases hsort : P.sort reqs with
  | nil =>
    unfold priceOf
    rw [hsort]
  | cons r rs =>
    rw [priceOf_of_sort hP hsort]
    exact Int.emod_nonneg _ (by norm_num)

theorem Cached.cost (hP : P.IsLp64) (h : b.Cached P) :
    0 ≤ (iobatchGetCost P b).1 ∧ (b.reqs = [] → (iobatchGetCost P b).1 = 0) := by
  by_cases hu : b.cost = costUnset P
  · rw [(iobatchGetCost_unset hu).1]
    refine ⟨priceOf_nonneg hP b.reqs, fun he => ?_⟩
    rw [he]
    exact priceOf_nil P
  · rw [iobatchGetCost_cached hu]
    exact h.resolve_left hu

theorem Cached.getCost (hP : P.IsLp64) (h : b.Cached P) : (iobatchGetCost P b).2.Cached P := by
  obtain ⟨hnonneg, hempty⟩ := h.cost hP
  refine .inr ⟨?_, fun he => ?_⟩
  · rwa [iobatchGetCost_cost]
  · rw [iobatchGetCost_cost]
    exact hempty (List.perm_nil.mp (he ▸ (iobatchGetCost_perm P b).1.symm))

/-- The second call reads the cost back, unless it is the sentinel. -/
theorem getCost_again (h : (iobatchGetCost P b).1 ≠ costUnset P) :
    (iobatchGetCost P (iobatchGetCost P b).2).1 = (iobatchGetCost P b).1 := by
  rw [iobatchGetCost_cached (by rwa [iobatchGetCost_cost]), iobatchGetCost_cost]

end IoBatch

namespace Tb

open CArith

variable {P : Platform} {s : State}

structure State.Cached (P : Platform) (s : State) : Prop where
  whole : s.batch.Cached P
  acct : s.accounts.All fun a => a.batch.Cached P

theorem getAccount_cached (h : s.Cached P) (id : Int) : (getAccount P s id).2.Cached P := by
  rcases getAccount_cases P s id with ⟨-, hs⟩ | ⟨-, a, ha, -, hs⟩ | ⟨-, -, hs⟩
  · rw [hs]
    exact h
  · rw [hs]
    refine ⟨h.whole, h.acct.insert ?_⟩
    rw [newAccount_batch ha]
    exact IoBatch.iobatchNew_cached P _ _
  · rw [hs]
    exact ⟨h.whole, h.acct⟩

theorem addToAccountBatch_cached (h : s.Cached P) (offset size share id : Int) :
    (addToAccountBatch P offset size share s id).2.Cached P := by
  have hget := getAccount_cached h id
  exact ⟨hget.whole, hget.acct.modify fun a ha => (hget.acct _ a ha).add offset size⟩

theorem addToBatches_cached (offset size share : Int) (ids : List Int) :
    ∀ {r : Bool × State}, r.2.Cached P → (addToBatches P offset size share ids r).2.Cached P := by
  induction ids with
  | nil => exact fun h => h
  | cons id ids ih => exact fun h => ih (addToAccountBatch_cached h offset size share id)

theorem batchedFor_cached (h : s.Cached P) (l : Nat) (offset : Int) (ids : List Int) :
    (s.batchedFor P l offset ids).2.Cached P :=
  addToBatches_cached _ _ _ ids ⟨h.whole.add _ _, h.acct⟩

theorem flush_cached (hP : P.IsLp64) (h : s.Cached P) : (flush P s).Cached P := by
  have hpriced : (s.accounts.map (priceBatch P)).All fun a => a.batch.Cached P :=
    h.acct.map fun _ ha => ha.getCost hP
  exact ⟨(h.whole.getCost hP).clear, hpriced.map fun _ ha => (ha.getCost hP).clear⟩

theorem doDiskAccounting_cached (hP : P.IsLp64) (h : s.Cached P) (l : Nat) (offset : Int) :
    (doDiskAccounting P s l offset).Cached P := by
  have hb := batchedFor_cached h l offset (s.mem.lists l).items
  rw [doDiskAccounting_eq]
  split
  · exact flush_cached hP hb
  · exact hb

/-- Disk accounting, for lists of any size. -/
def accountStep (P : Platform) (s : State) : DiskEvent → Option State
  | .account l offset => some (doDiskAccounting P s l offset)
  | .getAccount id => some (getAccount P s id).2
  | .kernel m => some { s with mem := m }

theorem run_cached (hP : P.IsLp64) {s' : State} {es : List DiskEvent} (h0 : s.Cached P)
    (h : run (accountStep P) s es = some s') : s'.Cached P := by
  refine run_invariant (fun s e s' hs hc => ?_) h h0
  cases e with
  | account l offset =>
    cases hs
    exact doDiskAccounting_cached hP hc l offset
  | getAccount id =>
    cases hs
    exact getAccount_cached hc id
  | kernel m =>
    cases hs
    exact ⟨hc.whole, hc.acct⟩

theorem tbucketInitQueue_cached {m : Mem} {env : Env} (h : tbucketInitQueue P m env = some s) :
    s.Cached P := by
  obtain ⟨hwhole, env', a, ha, hs⟩ := tbucketInitQueue_accounts h
  refine ⟨?_, ?_⟩
  · rw [hwhole]
    exact IoBatch.iobatchNew_cached P _ _
  · rw [hs]
    refine Registry.All.insert (fun k a ha => by cases ha) ?_
    rw [newAccount_batch ha]
    exact IoBatch.iobatchNew_cached P _ _

/-! ## Charges -/

/-- What the flush charges an account, given the combined and the summed cost. -/
def adjustedCharge (P : Platform) (combinedCost summedCost : Int) (a : Account) : Int :=
  P.ulong (safeDiv (P.long (P.ulong (combinedCost * (iobatchGetCost P a.batch).1))) (P.long summedCost))

namespace State

def combinedCost (P : Platform) (s : State) : Int := (iobatchGetCost P s.batch).1

/-- The cost of an account's own batch, read by the first loop of the flush. -/
def basicCharge (P : Platform) (s : State) (id : Int) : Int :=
  s.accounts.val (fun a => (iobatchGetCost P a.batch).1) 0 id

/-- The charge computed by the second loop, when all batches have been priced. -/
def adjustedCharge (P : Platform) (s : State) (id : Int) : Int :=
  (s.accounts.map (priceBatch P)).val
    (Tb.adjustedCharge P (s.combinedCost P) (summedCost P s.accounts)) 0 id

def used (s : State) (id : Int) : Int := s.accounts.val (·.used) 0 id

end State

theorem flushAccount_used (P : Platform) (combined summed : Int) (a : Account) :
    (flushAccount P combined summed a).used = P.long (a.used + adjustedCharge P combined summed a) := by
  simp only [flushAccount, saturateCounts]
  split <;> rfl

/-- The charges are what the flush adds to `used`. -/
theorem flush_used {id : Int} (h : id ∈ s.accounts.keys) :
    (flush P s).used id = P.long (s.used id + s.adjustedCharge P id) := by
  obtain ⟨a, ha⟩ := Registry.find_eq_some h
  simp only [State.used, flush, State.adjustedCharge, Registry.val, Registry.map, ha, Option.map_some,
    Option.getD_some]
  exact flushAccount_used P _ _ (priceBatch P a)

theorem basicCharge_nonneg (hP : P.IsLp64) (hc : s.Cached P) (id : Int) : 0 ≤ s.basicCharge P id := by
  simp only [State.basicCharge, Registry.val]
  cases ha : s.accounts.find id with
  | none => exact le_rfl
  | some a => exact ((hc.acct id a ha).cost hP).1

/-- A sum of `size_t` amounts. -/
theorem foldl_ulong (hP : P.IsLp64) (f : Int → Int) (ids : List Int) : ∀ {c : Int}, 0 ≤ c → c < 2 ^ 64 →
    ids.foldl (fun sum id => P.ulong (sum + f id)) c = (c + (ids.map f).sum) % 2 ^ 64 := by
  induction ids with
  | nil =>
    intro c h0 hlt
    simp only [List.foldl_nil, List.map_nil, List.sum_nil, add_zero]
    exact (Int.emod_eq_of_lt h0 hlt).symm
  | cons id ids ih =>
    intro c h0 hlt
    rw [List.foldl_cons, ih (hP.ulong_nonneg _) (hP.ulong_lt _), hP.ulong_emod, List.map_cons, List.sum_cons]
    omega

/-- Nothing in the flush exceeds a `long long`. -/
structure Fits (P : Platform) (s : State) : Prop where
  sum : (s.accounts.keys.map (s.basicCharge P)).sum < 2 ^ 63
  product : ∀ id ∈ s.accounts.keys, s.combinedCost P * s.basicCharge P id < 2 ^ 63

theorem summedCost_eq (hP : P.IsLp64) (hc : s.Cached P) (hf : Fits P s) :
    summedCost P s.accounts = (s.accounts.keys.map (s.basicCharge P)).sum := by
  have hnonneg : 0 ≤ (s.accounts.keys.map (s.basicCharge P)).sum := by
    refine List.sum_nonneg fun c hmem => ?_
    obtain ⟨id, -, rfl⟩ := List.mem_map.mp hmem
    exact basicCharge_nonneg hP hc id
  have hlt := hf.sum
  refine (foldl_ulong hP (s.basicCharge P) s.accounts.keys le_rfl (by norm_num)).trans ?_
  rw [zero_add]
  exact Int.emod_eq_of_lt hnonneg (by omega)

/-- Both loops read one cost, or the combined cost is zero and it does not matter. -/
theorem combined_mul_again (hP : P.IsLp64) {combined : Int} {b : IoBatch} (h0 : 0 ≤ combined)
    (hlt : combined * (iobatchGetCost P b).1 < 2 ^ 63) :
    combined * (iobatchGetCost P (iobatchGetCost P b).2).1 = combined * (iobatchGetCost P b).1 := by
  by_cases hu : (iobatchGetCost P b).1 = costUnset P
  · have hunset : costUnset P = 2 ^ 64 - 1 := by
      rw [costUnset, hP.ulong_emod]
      norm_num
    rw [hu, hunset] at hlt
    have hzero : combined = 0 := by omega
    rw [hzero, zero_mul, zero_mul]
  · rw [IoBatch.getCost_again hu]

theorem adjustedCharge_eq (hP : P.IsLp64) (hc : s.Cached P) (hf : Fits P s)
    (hpos : 0 < (s.accounts.keys.map (s.basicCharge P)).sum) {id : Int} (hid : id ∈ s.accounts.keys) :
    s.adjustedCharge P id = Apportion.share (s.combinedCost P)
      (s.accounts.keys.map (s.basicCharge P)).sum (s.basicCharge P id) := by
  obtain ⟨a, ha⟩ := Registry.find_eq_some hid
  have hbasic : s.basicCharge P id = (iobatchGetCost P a.batch).1 := by
    simp [State.basicCharge, Registry.val, ha]
  have hcombined : 0 ≤ s.combinedCost P := (hc.whole.cost hP).1
  have hlt := hf.product id hid
  have hnonneg := mul_nonneg hcombined (basicCharge_nonneg hP hc id)
  have hsum := hf.sum
  have hmul : s.combinedCost P * (iobatchGetCost P (priceBatch P a).batch).1 =
      s.combinedCost P * s.basicCharge P id := by
    rw [hbasic] at hlt ⊢
    exact combined_mul_again hP hcombined hlt
  have hadj : s.adjustedCharge P id =
      adjustedCharge P (s.combinedCost P) (summedCost P s.accounts) (priceBatch P a) := by
    simp [State.adjustedCharge, Registry.val, Registry.map, ha]
  -- the product and the sum are `long long` values, and division rounds down as nothing is negative
  have hshare : 0 ≤ Apportion.share (s.combinedCost P) (s.accounts.keys.map (s.basicCharge P)).sum
      (s.basicCharge P id) := Apportion.share_nonneg hcombined hpos.le (basicCharge_nonneg hP hc id)
  have hle : Apportion.share (s.combinedCost P) (s.accounts.keys.map (s.basicCharge P)).sum
      (s.basicCharge P id) ≤ s.combinedCost P * s.basicCharge P id := Int.ediv_le_self _ hnonneg
  rw [hadj, adjustedCharge, hmul, summedCost_eq hP hc hf, P.ulong_fits _ hnonneg (by omega),
    P.long_fits _ (by omega) (by omega), P.long_fits _ (by omega) (by omega), safeDiv, if_neg hpos.ne',
    Int.tdiv_eq_ediv_of_nonneg hnonneg]
  exact P.ulong_fits _ hshare (hle.trans_lt (by omega))

/-- The combined cost is split among the accounts. -/
structure Apportioned (P : Platform) (s : State) : Prop where
  charged : ∀ id ∈ s.accounts.keys, (flush P s).used id = P.long (s.used id + s.adjustedCharge P id)
  total : (s.accounts.keys.map (s.adjustedCharge P)).sum ≤ s.combinedCost P
  rounding : s.combinedCost P - (s.accounts.keys.map (s.adjustedCharge P)).sum <
    (s.accounts.keys.filter fun id => s.basicCharge P id ≠ 0).length
  each : ∀ id ∈ s.accounts.keys, s.adjustedCharge P id ≤ s.combinedCost P
  empty : ∀ id a, s.accounts.find id = some a → a.batch.reqs = [] → s.adjustedCharge P id = 0
  mono : ∀ id ∈ s.accounts.keys, ∀ id' ∈ s.accounts.keys, s.basicCharge P id ≤ s.basicCharge P id' →
    s.adjustedCharge P id ≤ s.adjustedCharge P id'

theorem apportioned_of_fits (hP : P.IsLp64) (hc : s.Cached P) (hf : Fits P s)
    (hpos : 0 < summedCost P s.accounts) : Apportioned P s := by
  rw [summedCost_eq hP hc hf] at hpos
  have hcombined : 0 ≤ s.combinedCost P := (hc.whole.cost hP).1
  have hshare : ∀ id ∈ s.accounts.keys, s.adjustedCharge P id = Apportion.share (s.combinedCost P)
      (s.accounts.keys.map (s.basicCharge P)).sum (s.basicCharge P id) :=
    fun id hid => adjustedCharge_eq hP hc hf hpos hid
  have hsum : (s.accounts.keys.map (s.adjustedCharge P)).sum = (s.accounts.keys.map fun id =>
      Apportion.share (s.combinedCost P) (s.accounts.keys.map (s.basicCharge P)).sum
        (s.basicCharge P id)).sum := by
    rw [List.map_congr_left hshare]
  refine ⟨fun id hid => flush_used hid, ?_, ?_, ?_, ?_, ?_⟩
  · rw [hsum]
    exact Apportion.sum_share_le hpos
  · rw [hsum]
    exact Apportion.sub_sum_share_lt hpos
  · intro id hid
    rw [hshare id hid]
    refine Apportion.share_le hcombined hpos (List.single_le_sum ?_ _ (List.mem_map_of_mem hid))
    intro c hmem
    obtain ⟨j, -, rfl⟩ := List.mem_map.mp hmem
    exact basicCharge_nonneg hP hc j
  · intro id a ha hreqs
    have hid : id ∈ s.accounts.keys := (s.accounts.dom id).mp (by rw [ha]; rfl)
    have hzero : s.basicCharge P id = 0 := by
      simpa [State.basicCharge, Registry.val, ha] using ((hc.acct id a ha).cost hP).2 hreqs
    rw [hshare id hid, hzero, Apportion.share_zero]
  · intro id hid id' hid' hle
    rw [hshare id hid, hshare id' hid']
    exact Apportion.share_mono hcombined hpos hle

/-- In every run, a call that finds a batch full splits the cost of the global batch among the accounts:
nothing is charged twice, and what rounding loses is below one unit for each account that has a cost. -/
theorem flush_apportions (hP : P.IsLp64) {m : Mem} {env : Env} {s₀ : State} {es : List DiskEvent}
    (h0 : tbucketInitQueue P m env = some s₀) (h : run (accountStep P) s₀ es = some s) (l : Nat)
    (offset : Int) (hfull : (s.batchedFor P l offset (s.mem.lists l).items).1 = true)
    (hpos : 0 < summedCost P (s.batchedFor P l offset (s.mem.lists l).items).2.accounts)
    (hfits : Fits P (s.batchedFor P l offset (s.mem.lists l).items).2) :
    doDiskAccounting P s l offset = flush P (s.batchedFor P l offset (s.mem.lists l).items).2 ∧
      Apportioned P (s.batchedFor P l offset (s.mem.lists l).items).2 := by
  have hc := batchedFor_cached (run_cached hP (tbucketInitQueue_cached h0) h) l offset (s.mem.lists l).items
  refine ⟨?_, apportioned_of_fits hP hc hfits hpos⟩
  rw [doDiskAccounting_eq, if_pos hfull]

theorem nodup_seven_nine : ([7, 9] : List Int).Nodup := by decide

/-- One page of account 7, and 32 MB of the accounts 7 and 9. -/
def sharedPages : Mem where
  __ := sampleMem
  lists l :=
    if l = 0 then { pagesOfSeven.lists l with priv := 4096 }
    else ⟨.unknown, [7, 9], 2, none, 0, 32 * 1024 * 1024, 8192, nodup_seven_nine, rfl⟩

theorem flush_apportions_shared : ∃ s₀ s, tbucketInitQueue .lp64 sharedPages sampleEnv = some s₀ ∧
    run (accountStep .lp64) s₀ [.account 0 4096] = some s ∧
    doDiskAccounting .lp64 s 1 8192 = flush .lp64 (s.batchedFor .lp64 1 8192 (s.mem.lists 1).items).2 ∧
    Apportioned .lp64 (s.batchedFor .lp64 1 8192 (s.mem.lists 1).items).2 := by
  have h : ((tbucketInitQueue .lp64 sharedPages sampleEnv).bind fun s₀ =>
      run (accountStep .lp64) s₀ [.account 0 4096]).any (fun s =>
        let u := s.batchedFor .lp64 1 8192 (s.mem.lists 1).items
        decide (u.1 = true ∧ 0 < summedCost .lp64 u.2.accounts ∧
          (u.2.accounts.keys.map (u.2.basicCharge .lp64)).sum < 2 ^ 63 ∧
          ∀ id ∈ u.2.accounts.keys, u.2.combinedCost .lp64 * u.2.basicCharge .lp64 id < 2 ^ 63)) := by
    decide +kernel
  obtain ⟨s, hs, hok⟩ := (Option.any_eq_true _ _).mp h
  obtain ⟨s₀, h0, hrun⟩ := Option.bind_eq_some_iff.mp hs
  obtain ⟨hfull, hpos, hsum, hprod⟩ := of_decide_eq_true hok
  exact ⟨s₀, s, h0, hrun, flush_apportions Platform.isLp64_lp64 h0 hrun 1 8192 hfull hpos ⟨hsum, hprod⟩⟩

/-! ## The shipped limits -/

/-- What a batch costs at most. -/
def maxCost : Int := 2 ^ 31 + 65 * seekCap

/-- A batch with tb's limits, that holds fewer bytes than an `int` can count. -/
structure Bounded (P : Platform) (b : IoBatch) : Prop where
  capacity : b.reqsCapacity = batchSize
  bytesCap : b.bytesCap = batchByteCap
  holds : b.Holds b.bytes
  bytes : b.bytes < 2 ^ 31
  cost : b.cost = costUnset P ∨ 0 ≤ b.cost ∧ b.cost ≤ maxCost

/-- The extents of a batch: what is left of an `int` above the byte cap, and an `off_t` end. -/
def SmallExtent (offset size : Int) : Prop :=
  0 ≤ size ∧ size ≤ 2 ^ 31 - 2 ^ 25 ∧ 0 ≤ offset ∧ offset + size < 2 ^ 63

instance (offset size : Int) : Decidable (SmallExtent offset size) :=
  inferInstanceAs (Decidable (_ ∧ _ ∧ _ ∧ _))

namespace Bounded

variable {b : IoBatch} {offset size : Int}

theorem new (P : Platform) : Bounded P (iobatchNew P batchSize batchByteCap) :=
  have h := (IoBatch.iobatchNew_empty P batchSize batchByteCap).roomy (by decide) (by decide) (by decide)
  ⟨rfl, rfl, h.toHolds, show (0 : Int) < 2 ^ 31 by decide, .inl rfl⟩

theorem roomy (h : Bounded P b) (hfull : iobatchFull b = false) : b.Roomy b.bytes :=
  ⟨h.holds, hfull, by rw [h.bytesCap]; decide⟩

theorem entries (h : Bounded P b) : b.Entries b.bytes := h.holds.entries h.bytes

theorem size_le (h : Bounded P b) {r : IORequest} (hr : r ∈ b.reqs) : r.size ≤ b.bytes := by
  rw [← h.entries.sum]
  refine List.single_le_sum ?_ _ (List.mem_map_of_mem hr)
  intro n hn
  obtain ⟨x, hx, rfl⟩ := List.mem_map.mp hn
  exact h.entries.sizes x hx

/-- The bytes are checked before an extent is added, so it finds room in any entry. -/
theorem bytes_add_lt (h : Bounded P b) (hfull : iobatchFull b = false) (he : SmallExtent offset size) :
    b.bytes + size < 2 ^ 31 := by
  have hb := (IoBatch.full_eq_false.mp hfull).2
  have hcap : b.bytesCap = 2 ^ 25 := h.bytesCap
  have hsize := he.2.1
  omega

theorem add (h : Bounded P b) (he : SmallExtent offset size) :
    Bounded P (iobatchAddRequest P b offset size).2 := by
  cases hfull : iobatchFull b with
  | true =>
    simp only [iobatchAddRequest, hfull, if_true]
    exact h
  | false =>
    have hlt := h.bytes_add_lt hfull he
    have hsize := he.2.1
    have hcaps := IoBatch.add_caps P b offset size
    have hadd : (iobatchAddRequest P b offset size).2.Holds (b.bytes + size) :=
      (h.roomy hfull).add he.1 (by omega)
    refine ⟨hcaps.1.trans h.capacity, hcaps.2.trans h.bytesCap, hadd.bytes.symm ▸ hadd, ?_, .inl ?_⟩
    · rw [hadd.bytes]
      exact hlt
    · rcases IoBatch.add_cases P b hfull with ⟨hb, -⟩ | ⟨init, prev, -, -, hb⟩ <;> rw [hb]
      rfl

theorem clear (h : Bounded P b) : Bounded P (iobatchClear P b) := by
  have he := IoBatch.iobatchClear_empties P b
  have hroomy : (iobatchClear P b).Roomy 0 :=
    h.holds.emptied he (by rw [h.capacity]; decide) (by rw [h.bytesCap]; decide)
      (by rw [h.bytesCap]; decide)
  refine ⟨he.capacity.trans h.capacity, he.bytesCap.trans h.bytesCap, ?_, ?_, ?_⟩
  · exact hroomy.bytes.symm ▸ hroomy.toHolds
  · rw [hroomy.bytes]
    norm_num
  · simp only [iobatchClear]
    split
    · exact .inl rfl
    · exact h.cost

theorem priceOf_le (hP : P.IsLp64) (h : Bounded P b) : priceOf P b.reqs ≤ maxCost := by
  cases hsort : P.sort b.reqs with
  | nil =>
    unfold priceOf
    rw [hsort]
    exact show 0 ≤ maxCost by decide
  | cons r rs =>
    have hp := P.sort_perm b.reqs
    rw [hsort] at hp
    have hlen := h.holds.length
    rw [h.capacity, ← hp.length_eq] at hlen
    have hsum : ((r :: rs).map diskSweep.len).sum = b.bytes := by
      rw [← h.entries.sum]
      exact (hp.map _).sum_eq
    have hnonneg := Sweep.cost_nonneg (S := diskSweep) (fun x hx => h.entries.sizes x (hp.mem_iff.mp hx))
      r.offset
    have hle := Sweep.cost_le (S := diskSweep) r.offset (r :: rs)
    have hbytes := h.bytes
    have hcap : diskSweep.cap = 2 ^ 21 := rfl
    have hsize : batchSize = 64 := rfl
    rw [hsum, hcap] at hle
    rw [priceOf_of_sort hP hsort]
    unfold maxCost
    have hseek : seekCap = 2 ^ 21 := rfl
    rw [hseek]
    omega

theorem getCost_le (hP : P.IsLp64) (h : Bounded P b) :
    0 ≤ (iobatchGetCost P b).1 ∧ (iobatchGetCost P b).1 ≤ maxCost := by
  by_cases hu : b.cost = costUnset P
  · rw [(iobatchGetCost_unset hu).1]
    exact ⟨IoBatch.priceOf_nonneg hP b.reqs, h.priceOf_le hP⟩
  · rw [iobatchGetCost_cached hu]
    exact h.cost.resolve_left hu

theorem getCost (hP : P.IsLp64) (h : Bounded P b) : Bounded P (iobatchGetCost P b).2 := by
  obtain ⟨hperm, hbytes, hcap, hbcap⟩ := IoBatch.iobatchGetCost_perm P b
  have hentries : (iobatchGetCost P b).2.Entries b.bytes :=
    ⟨(hperm.map _).sum_eq.trans h.entries.sum, fun r hr => h.entries.sizes r (hperm.mem_iff.mp hr)⟩
  have hholds : (iobatchGetCost P b).2.Holds b.bytes := by
    refine ⟨hbytes, h.holds.nonneg, fun he => ?_, ?_, fun _ => hentries⟩
    · exact h.holds.empty (List.perm_nil.mp (he ▸ hperm.symm))
    · rw [hperm.length_eq, hcap]
      exact h.holds.length
  refine ⟨hcap.trans h.capacity, hbcap.trans h.bytesCap, hbytes.symm ▸ hholds, ?_, .inr ?_⟩
  · rw [hbytes]
    exact h.bytes
  · rw [iobatchGetCost_cost]
    exact h.getCost_le hP

theorem cost_ne_unset (hP : P.IsLp64) (h : Bounded P b) : (iobatchGetCost P b).1 ≠ costUnset P := by
  have hle := (h.getCost_le hP).2
  have hmax : maxCost < 2 ^ 32 := by decide
  rw [costUnset, hP.ulong_emod]
  omega

theorem mul_lt (hP : P.IsLp64) {b' : IoBatch} (h : Bounded P b) (h' : Bounded P b') :
    0 ≤ (iobatchGetCost P b).1 * (iobatchGetCost P b').1 ∧
      (iobatchGetCost P b).1 * (iobatchGetCost P b').1 < 2 ^ 63 := by
  obtain ⟨h0, hle⟩ := h.getCost_le hP
  obtain ⟨h0', hle'⟩ := h'.getCost_le hP
  refine ⟨mul_nonneg h0 h0', ?_⟩
  calc (iobatchGetCost P b).1 * (iobatchGetCost P b').1 ≤ maxCost * maxCost :=
        mul_le_mul hle hle' h0' (h0.trans hle)
    _ < 2 ^ 63 := by decide

end Bounded

/-! ## Any batches -/

inductive BatchEvent where
  | add (i : Nat) (offset size : Int)
  | clear (i : Nat)
  | getCost (i : Nat)

/-- Calls on the batches of a family. -/
def batchStep (P : Platform) (w : Nat → IoBatch) : BatchEvent → Option (Nat → IoBatch)
  | .add i offset size =>
    if SmallExtent offset size then
      some (Function.update w i (iobatchAddRequest P (w i) offset size).2)
    else none
  | .clear i => some (Function.update w i (iobatchClear P (w i)))
  | .getCost i => some (Function.update w i (iobatchGetCost P (w i)).2)

theorem forall_update {α : Type} {p : α → Prop} {w : Nat → α} (h : ∀ i, p (w i)) {i : Nat} {x : α} (hx : p x) :
    ∀ j, p (Function.update w i x j) := by
  intro j
  by_cases hj : j = i
  · subst hj
    simpa using hx
  · simpa [hj] using h j

theorem batchStep_bounded (hP : P.IsLp64) {w w' : Nat → IoBatch} {e : BatchEvent}
    (h : batchStep P w e = some w') (hw : ∀ i, Bounded P (w i)) : ∀ i, Bounded P (w' i) := by
  cases e with
  | add i offset size =>
    simp only [batchStep] at h
    split at h
    · rename_i he
      cases h
      exact forall_update hw ((hw i).add he)
    · cases h
  | clear i =>
    cases h
    exact forall_update hw (hw i).clear
  | getCost i =>
    cases h
    exact forall_update hw ((hw i).getCost hP)

/-- An entry keeps its size an `int`, whatever is added next. -/
def EntriesFit (P : Platform) (b : IoBatch) : Prop :=
  (∀ r ∈ b.reqs, 0 ≤ r.size ∧ r.size < 2 ^ 31) ∧
    ∀ offset size, SmallExtent offset size → iobatchFull b = false →
      ∀ prev ∈ b.reqs.getLast?, P.int (prev.size + size) = prev.size + size

/-- The product that the flush passes to `safe_div` for an account is a `long long`. -/
def ProductFits (P : Platform) (s : State) (a : Account) : Prop :=
  let product := s.combinedCost P * (iobatchGetCost P (priceBatch P a).batch).1
  0 ≤ product ∧ product < 2 ^ 63 ∧ P.long (P.ulong product) = product

theorem Bounded.entriesFit {b : IoBatch} (h : Bounded P b) : EntriesFit P b := by
  refine ⟨fun r hr => ⟨h.entries.sizes r hr, (h.size_le hr).trans_lt h.bytes⟩, ?_⟩
  intro offset size he hfull prev hprev
  have hmem := List.mem_of_getLast? hprev
  have hle := h.size_le hmem
  have hnonneg := h.entries.sizes prev hmem
  have hlt := h.bytes_add_lt hfull he
  have hsize := he.1
  exact P.int_fits _ (by omega) (by omega)

/-- With the shipped limits no cost arithmetic overflows: not in the entries of a batch, not in its cost,
and not in a flush. -/
theorem cost_arithmetic_exact (hP : P.IsLp64) {es : List BatchEvent} {w : Nat → IoBatch}
    (h : run (batchStep P) (fun _ => iobatchNew P batchSize batchByteCap) es = some w) :
    (∀ i, EntriesFit P (w i)) ∧
      (∀ i, 0 ≤ (iobatchGetCost P (w i)).1 ∧ (iobatchGetCost P (w i)).1 < 2 ^ 32 ∧
        (iobatchGetCost P (w i)).1 ≠ costUnset P) ∧
      ∀ s : State, (∃ i, s.batch = w i) → (∀ id a, s.accounts.find id = some a → ∃ i, a.batch = w i) →
        ∀ id a, s.accounts.find id = some a → ProductFits P s a := by
  have hw := run_invariant (I := fun w => ∀ i, Bounded P (w i)) (fun _ _ _ => batchStep_bounded hP) h
    fun _ => Bounded.new P
  refine ⟨fun i => (hw i).entriesFit, fun i => ?_, ?_⟩
  · obtain ⟨h0, hle⟩ := (hw i).getCost_le hP
    exact ⟨h0, hle.trans_lt (by decide), (hw i).cost_ne_unset hP⟩
  · rintro s ⟨i, hi⟩ hacct id a ha
    obtain ⟨j, hj⟩ := hacct id a ha
    have hwhole : Bounded P s.batch := hi ▸ hw i
    have hpriced : Bounded P (priceBatch P a).batch := Bounded.getCost hP (hj ▸ hw j)
    obtain ⟨h0, hlt⟩ : 0 ≤ s.combinedCost P * (iobatchGetCost P (priceBatch P a).batch).1 ∧
      s.combinedCost P * (iobatchGetCost P (priceBatch P a).batch).1 < 2 ^ 63 := hwhole.mul_lt hP hpriced
    refine ⟨h0, hlt, ?_⟩
    rw [P.ulong_fits _ h0 (by omega)]
    exact P.long_fits _ (by omega) hlt

/-- The second extent is as large as allowed, and is coalesced with the first. -/
def limitEvents : List BatchEvent :=
  [.add 0 0 4096, .add 0 4096 (2 ^ 31 - 2 ^ 25), .getCost 0, .add 1 0 512, .clear 0]

theorem cost_arithmetic_exact_limit : ∃ w,
    run (batchStep .lp64) (fun _ => iobatchNew .lp64 batchSize batchByteCap) limitEvents = some w ∧
      (∀ i, EntriesFit .lp64 (w i)) ∧ ∀ i, (iobatchGetCost .lp64 (w i)).1 < 2 ^ 32 := by
  have h : (run (batchStep .lp64) (fun _ => iobatchNew .lp64 batchSize batchByteCap) limitEvents).isSome := by
    decide +kernel
  obtain ⟨w, hw⟩ := Option.isSome_iff_exists.mp h
  obtain ⟨hentries, hcost, -⟩ := cost_arithmetic_exact Platform.isLp64_lp64 hw
  exact ⟨w, hw, hentries, fun i => (hcost i).2.1⟩

end Tb
end SplitSched
