import SplitSched.Afq.Gate
import SplitSched.Afq.Selection
import SplitSched.Lib.StableOrder

/-!
# SplitSched.Afq.Drain

What the block layer gets out of the AFQ scheduler when it drains it: before an elevator is switched
or removed, `elv_drain_elevator` calls `basic_sched_dispatch` with `force` set until it returns 0.

The scheduler does not look at `force`. A batch that was submitted closes the gate, so the second
call comes back with nothing (`basicSchedDispatch_again`), and the loop hands over what one selection
takes. `mem_select_workList` says what that is in terms of the lists, counters and times before the call, and
`forced_dispatch_drains_iff` when it is every read.
-/

namespace SplitSched
namespace Afq

variable {P : Platform} {s s' : State} {work : WorkId} {b : Nat}

/-- The loop of `elv_drain_elevator`, at most `fuel` rounds of it; `none` is a loop that goes on, or a
crash. -/
def elvDrainElevator (P : Platform) : Nat → State → Option State
  | 0, _ => none
  | fuel + 1, s =>
    match basicSchedDispatch P s with
    | none => none
    | some (rv, s) => if rv = 0 then some s else elvDrainElevator P fuel s

/-- No read request is left on the list of any account. -/
def State.NoReads (s : State) : Prop :=
  ∀ id, ∀ work ∈ s.workList id, workType s.mem work ≠ .readReq

/-! ## Submission -/

theorem submitWork_total (hm : s.env.Plenty) (b : Nat) (work : WorkId) :
    ∃ s', submitWork P b s work = some s' ∧ s'.env.Plenty := by
  cases work with
  | write n => exact ⟨_, rfl, hm⟩
  | fsync n => exact ⟨_, rfl, hm⟩
  | mkdir n => exact ⟨_, rfl, hm⟩
  | req rq =>
    simp only [submitWork]
    split
    · simp only [submitRead]
      obtain ⟨t, ht⟩ := afqAccountRequest2_total (P := P)
        (s := { s.setDesc (.req rq) { s.descs (.req rq) with ownerBatch := some b } with
          inflight := s.inflight + 1 }) hm rq
      have hp : t.env.Plenty := (afqAccountRequest2_charges ht).plenty hm
      refine ⟨elvDispatchSort (unlinkWork t b (.req rq) 1) rq, ?_, hp⟩
      have hin : (s.setDesc (.req rq) { s.descs (.req rq) with ownerBatch := some b }).inflight =
        s.inflight := rfl
      rw [hin, ht]
    · exact ⟨_, rfl, hm⟩

theorem basicSchedSubmitIoWork_total (hm : s.env.Plenty) {d : BatchDesc} (hd : s.batches b = some d) :
    ∃ s', basicSchedSubmitIoWork P s b = some s' := by
  have hone : ∀ (s : State) (work : WorkId), s.env.Plenty → ∃ s', submitWork P b s work = some s' :=
    fun s work hm => (submitWork_total hm b work).imp fun _ h => h.1
  have hkeep : ∀ (s : State) (work : WorkId) (s' : State), submitWork P b s work = some s' →
      s.env.Plenty → s'.env.Plenty := by
    intro s work s' h hm
    obtain ⟨t, ht, hp⟩ := submitWork_total (P := P) hm b work
    cases h.symm.trans ht
    exact hp
  obtain ⟨t, ht⟩ := foldlM_total hone hkeep d.workSelected hm
  exact ⟨startTimers P t, by simp [basicSchedSubmitIoWork, hd, ht]⟩

/-! ## Reads -/

theorem State.NoReads.congr (h : s.NoReads) (hw : ∀ id, ∀ work ∈ s'.workList id, work ∈ s.workList id)
    (hr : s'.mem.rqs = s.mem.rqs) : s'.NoReads := by
  intro id work hwork
  have hold := h id work (hw id work hwork)
  cases work with
  | req rq => simpa only [workType, hr] using hold
  | write | fsync | mkdir => exact hold

/-- Selection puts no work on an account. -/
theorem Selects.workList_subset {r : Selected × State} (hs : Selects s r) (hp : Pending s)
    (hp' : Pending r.2) {id : Int} (hw : work ∈ r.2.workList id) : work ∈ s.workList id := by
  have hk : work ∈ r.2.place (.acct id) := hw
  have hacc : work ∈ s.accepted := hs.accepted ▸ (hp'.placed.all work).mpr ⟨_, hk⟩
  obtain ⟨k, hk₀⟩ := (hp.placed.all work).mp hacc
  cases k with
  | acct id' =>
    have hhome := hp'.home id work hw
    rw [hs.descs, hp.home id' work hk₀] at hhome
    cases hhome
    exact hk₀
  | submitted =>
    -- what was submitted stays so, and is on no other list
    have hsub : work ∈ r.2.place .submitted := by
      simpa only [State.place, hs.submitted] using hk₀
    exact absurd hsub (hp'.placed.not_mem hk (by simp))
  | batch b =>
    have hb : b ≠ s.nextBatch := by
      rintro rfl
      simp [State.place, State.batchWork, hp.fresh _ le_rfl] at hk₀
    have hsame : r.2.batches b = s.batches b := by
      rcases hs.outcome with ⟨-, -, works, -, hbs⟩ | ⟨-, -, hbs⟩
      · rw [hbs, Function.update_of_ne hb]
      · rw [hbs]
    have hbatch : work ∈ r.2.place (.batch b) := by
      simpa only [State.place, State.batchWork, hsame] using hk₀
    exact absurd hbatch (hp'.placed.not_mem hk (by simp))

/-! ## The state before the call -/

namespace State

def lastEndRequest (s : State) (id : Int) : Int := s.accounts.val (·.lastEndRequest) 0 id

def sliceEnd (s : State) (id : Int) : Int := s.accounts.val (·.sliceEnd) 0 id

/-- No batch was submitted lately, and none is waited for, or too little of it is in flight. -/
def GateOpen (s : State) : Prop :=
  s.batchDead = false ∧
    (s.keepWait = .allowNewBatch ∨ s.keepWait = .keepInFlight ∧ s.inflight < minInFlight)

/-- The account was served last and reads sequentially, its slice is not over, and its last request is recent. -/
structure IdlesFor (P : Platform) (s : State) (acct : Int) : Prop where
  last : s.lastServedAcct = some acct
  recent : timeBefore P s.mem.jiffies (s.lastEndRequest acct + afqScliceIdle P) = true
  slice : timeBefore P s.mem.jiffies (s.sliceEnd acct) = true
  sequential : seqThreshold ≤ s.seqCounter acct

/-- The work of the active accounts with a smaller counter, or with the same one and an earlier place on the
active list. -/
def worksAhead (s : State) (id : Int) : Nat :=
  ((ahead s.vioCounter s.activeAcctList id).map fun a => (s.workList a).length).sum

/-- With `n` units in the batch it is still short after the accounts ahead, each of which reads at random. -/
structure ComesUp (s : State) (n : Nat) (id : Int) : Prop where
  found : s.vioCounter id < maxVioCounterThreshold * 2
  short : n + s.worksAhead id < minBatchSize
  random : ∀ a ∈ ahead s.vioCounter s.activeAcctList id, s.seqCounter a < seqThreshold

/-- The unit at place `i` of an account's work is among the first `MAX_BATCH_SIZE` of the batch that comes next:
that of the account for which the scheduler idles, or else that of the accounts that come up. -/
def InBatch (P : Platform) (s : State) (id : Int) (i : Nat) : Prop :=
  s.IdlesFor P id ∧ i < maxBatchSize ∨
    (∀ acct, ¬s.IdlesFor P acct) ∧ s.ComesUp 0 id ∧ s.worksAhead id + i < maxBatchSize

/-- Every read that waits is in the batch that comes next. -/
def ReadsInBatch (P : Platform) (s : State) : Prop :=
  ∀ id i work, (s.workList id)[i]? = some work → workType s.mem work = .readReq → s.InBatch P id i

/-- What the batch holds does not depend on the allocations to come. -/
theorem readsInBatch_env_iff (P : Platform) (s : State) (env : Env) :
    ReadsInBatch P { s with env := env } ↔ s.ReadsInBatch P := by
  have hidle : ∀ acct, IdlesFor P { s with env := env } acct ↔ s.IdlesFor P acct := fun acct =>
    ⟨fun h => ⟨h.last, h.recent, h.slice, h.sequential⟩, fun h => ⟨h.last, h.recent, h.slice, h.sequential⟩⟩
  have hup : ∀ id, ComesUp { s with env := env } 0 id ↔ s.ComesUp 0 id := fun id =>
    ⟨fun h => ⟨h.found, h.short, h.random⟩, fun h => ⟨h.found, h.short, h.random⟩⟩
  have hbatch : ∀ id i, InBatch P { s with env := env } id i ↔ s.InBatch P id i := by
    intro id i
    simp only [InBatch, hidle, hup]
    exact Iff.rfl
  simp only [ReadsInBatch, hbatch]
  exact Iff.rfl

theorem gateOpen_iff (s : State) : s.GateOpen ↔ basicSchedWantDispatch s ≠ 0 := by
  simp only [GateOpen, basicSchedWantDispatch]
  cases s.batchDead <;> cases hk : s.keepWait <;> simp

theorem idlesFor_iff (P : Platform) (s : State) (acct : Int) :
    s.IdlesFor P acct ↔ idleForLastAcct P s = some acct := by
  -- without an account there is no sequential reader
  have hval : ∀ id, s.accounts.val (fun a =>
      timeBefore P s.mem.jiffies (a.lastEndRequest + afqScliceIdle P) &&
        timeBefore P s.mem.jiffies a.sliceEnd && decide (seqThreshold ≤ a.seqCounter)) false id = true ↔
      timeBefore P s.mem.jiffies (s.lastEndRequest id + afqScliceIdle P) = true ∧
        timeBefore P s.mem.jiffies (s.sliceEnd id) = true ∧ seqThreshold ≤ s.seqCounter id := by
    intro id
    cases hid : s.accounts.find id with
    | none => simp [Registry.val, hid, seqCounter, seqThreshold]
    | some a => simp [Registry.val, hid, lastEndRequest, sliceEnd, seqCounter, and_assoc]
  constructor
  · rintro ⟨hlast, hrecent, hslice, hseq⟩
    simp only [idleForLastAcct, hlast]
    exact if_pos ((hval acct).mpr ⟨hrecent, hslice, hseq⟩)
  · intro h
    simp only [idleForLastAcct] at h
    split at h
    · cases h
    · rename_i last hlast
      split at h
      · rename_i hok
        cases h
        obtain ⟨hrecent, hslice, hseq⟩ := (hval acct).mp hok
        exact ⟨hlast, hrecent, hslice, hseq⟩
      · cases h

end State

/-! ## What selection takes -/

/-- The loop over the active accounts finds the first of those with the smallest counter. -/
theorem foldl_lesserVio_first (s : State) (l : List Int) : ∀ best : Int × Option Int,
    l.foldl (lesserVio s) best = best ∨
      ∃ acct ∈ l, l.foldl (lesserVio s) best = (s.vioCounter acct, some acct) ∧
        s.vioCounter acct < best.1 ∧ ∀ id ∈ l, id ≠ acct → Precedes s.vioCounter l acct id := by
  induction l with
  | nil => exact fun _ => .inl rfl
  | cons x l ih =>
    intro best
    rw [List.foldl_cons]
    by_cases hx : s.vioCounter x < best.1
    · have hbest : lesserVio s best x = (s.vioCounter x, some x) := if_pos hx
      obtain ⟨-, hall, -⟩ := foldl_lesserVio s l (s.vioCounter x, some x)
      rw [hbest]
      rcases ih (s.vioCounter x, some x) with hsame | ⟨acct, hacct, hres, hlt, hfirst⟩
      · refine .inr ⟨x, List.mem_cons_self, hsame, hx, fun id hid hne => ?_⟩
        rw [hsame] at hall
        have hmem := (List.mem_cons.mp hid).resolve_left hne
        rcases (hall id hmem).lt_or_eq with h | h
        · exact .inl h
        · refine .inr ⟨h, ?_⟩
          rw [List.idxOf_cons_self, List.idxOf_cons_ne _ (Ne.symm hne)]
          omega
      · exact .inr ⟨acct, List.mem_cons_of_mem x hacct, hres, hlt.trans hx, precedes_cons hlt hfirst⟩
    · have hbest : lesserVio s best x = best := if_neg hx
      rw [hbest]
      rcases ih best with hsame | ⟨acct, hacct, hres, hlt, hfirst⟩
      · exact .inl hsame
      · exact .inr ⟨acct, List.mem_cons_of_mem x hacct, hres, hlt,
          precedes_cons (hlt.trans_le (not_lt.mp hx)) hfirst⟩

theorem minActive_first {vio acct id : Int} (h : minActive s = (vio, some acct)) (hid : id ∈ s.activeAcctList)
    (hne : id ≠ acct) : Precedes s.vioCounter s.activeAcctList acct id := by
  rcases foldl_lesserVio_first s s.activeAcctList (maxVioCounterThreshold * 2, none) with
    hnone | ⟨acct', -, hsome, -, hall⟩
  · rw [← minActive, h] at hnone
    cases hnone
  · rw [← minActive, h] at hsome
    cases hsome
    exact hall id hid hne

/-- Nobody is ahead of the account that is chosen. -/
theorem minActive_ahead {vio acct : Int} (h : minActive s = (vio, some acct)) :
    ahead s.vioCounter s.activeAcctList acct = [] := by
  refine List.filter_eq_nil_iff.mpr fun a ha => ?_
  rw [decide_eq_true_eq]
  rintro (hlt | ⟨heq, hidx⟩)
  · exact absurd (minActive_some h a ha) (not_le.mpr hlt)
  · have hne : a ≠ acct := by
      rintro rfl
      exact lt_irrefl _ hidx
    rcases minActive_first h ha hne with hlt | ⟨-, hidx'⟩
    · exact absurd heq hlt.ne'
    · omega

theorem minActive_below {vio acct : Int} (h : minActive s = (vio, some acct)) :
    s.vioCounter acct < maxVioCounterThreshold * 2 := by
  rcases foldl_lesserVio_first s s.activeAcctList (maxVioCounterThreshold * 2, none) with
    hnone | ⟨acct', -, hsome, hlt, -⟩
  · rw [← minActive, h] at hnone
    cases hnone
  · rw [← minActive, h] at hsome
    cases hsome
    exact hlt

theorem takeWork_rest (works : List WorkId) : ∀ {n : Nat}, n < maxBatchSize →
    (takeWork works n).2.1 = works.drop (maxBatchSize - n) := by
  induction works with
  | nil => simp [takeWork]
  | cons work works ih =>
    intro n hn
    simp only [takeWork]
    split
    · rename_i hfull
      have hone : maxBatchSize - n = 1 := by omega
      rw [hone, List.drop_one, List.tail_cons]
    · rename_i hroom
      have hsucc : maxBatchSize - n = maxBatchSize - (n + 1) + 1 := by omega
      rw [hsucc, List.drop_succ_cons, ih (by omega)]

section Round

variable {vio acct id : Int} {n : Nat}

theorem moveWork_seqCounter (s : State) (b n : Nat) (acct : Int) :
    (moveWork s b n acct).2.seqCounter = s.seqCounter := by
  have hkeep : ∀ rest : List WorkId,
      (s.modifyAccount acct fun a => { a with ioWorkList := rest }).seqCounter = s.seqCounter :=
    fun rest => Registry.val_modify_keep fun _ => rfl
  simp only [moveWork]
  split <;> exact hkeep _

theorem serve_seqCounter :
    (moveWork (beginSlice P s acct vio) b n acct).2.seqCounter = s.seqCounter :=
  (moveWork_seqCounter _ b n acct).trans (Registry.val_modify_keep fun _ => rfl)

theorem serve_mem_keys (h : s.workList acct ≠ []) :
    acct ∈ (moveWork (beginSlice P s acct vio) b n acct).2.accounts.keys := by
  have hk : acct ∈ s.accounts.keys := mem_keys_of_workList h
  simp only [moveWork]
  split <;> exact hk

theorem wantsMore_iff (h : acct ∈ s.accounts.keys) :
    wantsMore s n acct = true ↔ n < minBatchSize ∧ s.seqCounter acct < seqThreshold := by
  obtain ⟨a, ha⟩ := Registry.find_eq_some h
  simp [wantsMore, State.seqCounter, Registry.val, ha]

/-- The accounts ahead of another one, after the account that is chosen has given all its work. -/
theorem worksAhead_serve {rest : List WorkId} (hp : Pending s) (hmin : minActive s = (vio, some acct))
    (hid : id ∈ s.activeAcctList) (hne : id ≠ acct) (hvio : s'.vioCounter = s.vioCounter)
    (hactive : s'.activeAcctList = s.activeAcctList.erase acct)
    (hw : s'.workList = Function.update s.workList acct rest) :
    (ahead s.vioCounter s.activeAcctList id).Perm (acct :: ahead s'.vioCounter s'.activeAcctList id) ∧
      s.worksAhead id = (s.workList acct).length + s'.worksAhead id := by
  have hperm := ahead_erase_perm hp.nodup (minActive_mem hmin) (minActive_first hmin hid hne) hne
  rw [← hactive, ← hvio] at hperm
  refine ⟨hvio ▸ hperm, ?_⟩
  rw [State.worksAhead, ← hvio, (hperm.map _).sum_eq, List.map_cons, List.sum_cons, State.worksAhead]
  congr 2
  refine List.map_congr_left fun a ha => ?_
  have hmem := (mem_ahead.mp ha).1
  rw [hactive] at hmem
  have hne' : a ≠ acct := by
    rintro rfl
    exact hp.nodup.not_mem_erase hmem
  rw [hw, Function.update_of_ne hne']

theorem comesUp_serve {rest : List WorkId} {k : Nat} (hp : Pending s) (hmin : minActive s = (vio, some acct))
    (hid : id ∈ s.activeAcctList) (hne : id ≠ acct) (hvio : s'.vioCounter = s.vioCounter)
    (hactive : s'.activeAcctList = s.activeAcctList.erase acct)
    (hw : s'.workList = Function.update s.workList acct rest) (hseq : s'.seqCounter = s.seqCounter)
    (hrandom : s.seqCounter acct < seqThreshold) (hk : k = n + (s.workList acct).length) :
    s'.ComesUp k id ↔ s.ComesUp n id := by
  obtain ⟨hperm, hsum⟩ := worksAhead_serve hp hmin hid hne hvio hactive hw
  have hall : (∀ a ∈ ahead s.vioCounter s.activeAcctList id, s.seqCounter a < seqThreshold) ↔
      ∀ a ∈ ahead s'.vioCounter s'.activeAcctList id, s'.seqCounter a < seqThreshold := by
    simp only [hperm.mem_iff, List.forall_mem_cons, hrandom, true_and, hseq]
  constructor
  · rintro ⟨hfound, hshort, hr⟩
    exact ⟨hvio ▸ hfound, by omega, hall.mpr hr⟩
  · rintro ⟨hfound, hshort, hr⟩
    exact ⟨by rw [hvio]; exact hfound, by omega, hall.mp hr⟩

theorem addIoWork_inactive (more : Bool) (hp : Pending s) (hid : id ∉ s.activeAcctList)
    {works : List WorkId} (hb : s.batches b = some ⟨works, 0⟩) :
    (addIoWork P b n more s).2.workList id = s.workList id := by
  have hmove : ∀ {s : State} {vio acct : Int} {n : Nat}, Pending s → minActive s = (vio, some acct) →
      id ∉ s.activeAcctList → (moveWork (beginSlice P s acct vio) b n acct).2.workList id = s.workList id := by
    intro s vio acct n hp hmin hid
    have hmem := minActive_mem hmin
    have hm : Moves b acct _ _ s (moveWork (beginSlice P s acct vio) b n acct).2 :=
      serve_moves P vio ((hp.active acct).mp hmem)
    rw [hm.workList, Function.update_of_ne]
    rintro rfl
    exact hid hmem
  fun_induction addIoWork P b n more s generalizing works with
  | case1 => rfl
  | case2 => rfl
  | case3 n more s vio acct hmin s₁ =>
    have hw : s₁.workList = s.workList := beginSlice_quiet.workList
    exact congrFun hw id
  | case4 n more s vio acct hmin s₁ hno r hwants =>
    rename_i ih
    have hwork := (hp.active acct).mp (minActive_mem hmin)
    have hm : Moves b acct _ _ s r.2 := serve_moves (n := n) P vio hwork
    refine (ih (hp.move hm (takeWork_ne_nil hwork n) (by simp [hb])) (fun h => hid (hm.active_subset h))
      (hm.batch hb)).trans (hmove hp hmin hid)
  | case5 n more s vio acct hmin => exact hmove hp hmin hid

theorem comesUp_chosen (hn : n < minBatchSize) (hmin : minActive s = (vio, some id)) :
    s.ComesUp n id ∧ s.worksAhead id = 0 := by
  have hnone := minActive_ahead hmin
  have hzero : s.worksAhead id = 0 := by rw [State.worksAhead, hnone, List.map_nil, List.sum_nil]
  exact ⟨⟨minActive_below hmin, by omega, by rw [hnone]; simp⟩, hzero⟩

theorem serve_workList (hwork : s.workList acct ≠ []) (hn : n < maxBatchSize) :
    (moveWork (beginSlice P s acct vio) b n acct).2.workList acct =
      (s.workList acct).drop (maxBatchSize - n) := by
  have hm : Moves b acct _ _ s (moveWork (beginSlice P s acct vio) b n acct).2 := serve_moves (n := n) P vio hwork
  rw [hm.workList, Function.update_self]
  exact takeWork_rest _ hn

/-- A batch that stays short takes all the work of an account. -/
theorem serve_size_of_short (h : (moveWork (beginSlice P s acct vio) b n acct).1 < minBatchSize) :
    (moveWork (beginSlice P s acct vio) b n acct).1 = n + (s.workList acct).length := by
  have hmax : minBatchSize < maxBatchSize := by decide
  have hsize : (moveWork (beginSlice P s acct vio) b n acct).1 = (takeWork (s.workList acct) n).2.2 := serve_size
  have hrest : (takeWork (s.workList acct) n).2.1 = [] := by
    by_contra hleft
    have hfull := takeWork_full _ n hleft
    omega
  have hsplit := takeWork_append (s.workList acct) n
  rw [hrest, List.append_nil] at hsplit
  rw [hsize, (takeWork_size _ n).1, hsplit]

/-- The account that is chosen leaves the batch short if another one is to come up. -/
theorem wantsMore_of_comesUp (hp : Pending s) (hmin : minActive s = (vio, some acct)) (hid : id ∈ s.activeAcctList)
    (hne : id ≠ acct) (hup : s.ComesUp n id) :
    wantsMore (moveWork (beginSlice P s acct vio) b n acct).2 (moveWork (beginSlice P s acct vio) b n acct).1
      acct = true := by
  have hwork := (hp.active acct).mp (minActive_mem hmin)
  have hahead : acct ∈ ahead s.vioCounter s.activeAcctList id :=
    mem_ahead.mpr ⟨minActive_mem hmin, minActive_first hmin hid hne⟩
  have hlen : (s.workList acct).length ≤ s.worksAhead id :=
    List.single_le_sum (fun _ _ => Nat.zero_le _) _ (List.mem_map.mpr ⟨acct, hahead, rfl⟩)
  have hsize : (moveWork (beginSlice P s acct vio) b n acct).1 = (takeWork (s.workList acct) n).2.2 := serve_size
  have htaken := (takeWork_size (s.workList acct) n).1
  have hle : (takeWork (s.workList acct) n).1.length ≤ (s.workList acct).length := by
    conv_rhs => rw [← takeWork_append (s.workList acct) n]
    simp
  have hshort := hup.short
  refine (wantsMore_iff (serve_mem_keys hwork)).mpr ⟨by omega, ?_⟩
  rw [serve_seqCounter]
  exact hup.random acct hahead

/-- What the loop leaves of the work of an active account: if the account comes up, what does not fit into the
batch, and else everything. -/
theorem addIoWork_workList {works : List WorkId} (more : Bool) (hp : Pending s)
    (hb : s.batches b = some ⟨works, 0⟩) (hn : n < minBatchSize) (hid : id ∈ s.activeAcctList) :
    s.ComesUp n id ∧ (addIoWork P b n more s).2.workList id =
        (s.workList id).drop (maxBatchSize - (n + s.worksAhead id)) ∨
      ¬s.ComesUp n id ∧ (addIoWork P b n more s).2.workList id = s.workList id := by
  have hmax : minBatchSize < maxBatchSize := by decide
  fun_induction addIoWork P b n more s generalizing works with
  | case1 n s vio hmin =>
    exact .inr ⟨fun h => absurd h.found (not_lt.mpr (minActive_none hmin id hid)), rfl⟩
  | case2 n more s vio hmin =>
    exact .inr ⟨fun h => absurd h.found (not_lt.mpr (minActive_none hmin id hid)), rfl⟩
  | case3 n more s vio acct hmin s₁ =>
    rename_i hno
    have hact := (hp.active acct).mp (minActive_mem hmin)
    have hw : s₁.workList = s.workList := beginSlice_quiet.workList
    simp only [acctNoPendingIo, hw, decide_eq_true_eq] at hno
    exact absurd hno hact
  | case4 n more s vio acct hmin s₁ hno r hwants =>
    rename_i ih
    have hwork := (hp.active acct).mp (minActive_mem hmin)
    have hm : Moves b acct _ _ s r.2 := serve_moves (n := n) P vio hwork
    have hseq : r.2.seqCounter = s.seqCounter := serve_seqCounter
    obtain ⟨hsmall, hrandom⟩ := (wantsMore_iff (serve_mem_keys hwork)).mp hwants
    have hgone : r.2.activeAcctList = s.activeAcctList.erase acct := moveWork_drains hsmall
    have hp' := hp.move hm (takeWork_ne_nil hwork n) (by simp [hb])
    rcases eq_or_ne id acct with rfl | hne
    · obtain ⟨hup, hzero⟩ := comesUp_chosen hn hmin
      have hout : id ∉ r.2.activeAcctList := by
        rw [hgone]
        exact hp.nodup.not_mem_erase
      refine .inl ⟨hup, ?_⟩
      rw [addIoWork_inactive true hp' hout (hm.batch hb), hzero, Nat.add_zero]
      exact serve_workList hwork (by omega)
    · have htaken : r.1 = n + (s.workList acct).length := serve_size_of_short hsmall
      have hup := comesUp_serve (n := n) hp hmin hid hne serve_vioCounter hgone hm.workList hseq
        (hseq ▸ hrandom) htaken
      have hsum : s.worksAhead id = (s.workList acct).length + r.2.worksAhead id :=
        (worksAhead_serve hp hmin hid hne serve_vioCounter hgone hm.workList).2
      have hleft : r.2.workList id = s.workList id := by rw [hm.workList, Function.update_of_ne hne]
      have hsame : r.1 + r.2.worksAhead id = n + s.worksAhead id := by omega
      have hloop := ih hp' (hm.batch hb) hsmall (hgone ▸ (List.mem_erase_of_ne hne).mpr hid)
      rwa [hup, hleft, hsame] at hloop
  | case5 n more s vio acct hmin s₁ hno r =>
    rename_i hwants
    have hwork := (hp.active acct).mp (minActive_mem hmin)
    have hm : Moves b acct _ _ s r.2 := serve_moves (n := n) P vio hwork
    rcases eq_or_ne id acct with rfl | hne
    · obtain ⟨hup, hzero⟩ := comesUp_chosen hn hmin
      refine .inl ⟨hup, ?_⟩
      rw [hzero, Nat.add_zero]
      exact serve_workList hwork (by omega)
    · refine .inr ⟨fun hup => hwants (wantsMore_of_comesUp hp hmin hid hne hup), ?_⟩
      rw [hm.workList, Function.update_of_ne hne]

/-- An account for which the scheduler idles reads sequentially, so the batch is its work alone. -/
theorem select_idle_eq (hidle : idleForLastAcct P s = some acct) (hactive : s.activeAcctList ≠ [])
    (hwork : s.workList acct ≠ []) (hmem : s.env.kmalloc.1 = true) :
    basicSchedSelectIoWork P s = (.batch s.nextBatch, (moveWork (selectStart s) s.nextBatch 0 acct).2) := by
  have hno : acctNoPendingIo s acct = false := by simpa [acctNoPendingIo] using hwork
  have hno' : acctNoPendingIo (selectStart s) acct = false := hno
  have hkey : acct ∈ (moveWork (selectStart s) s.nextBatch 0 acct).2.accounts.keys := by
    have hk : acct ∈ s.accounts.keys := mem_keys_of_workList hwork
    simp only [moveWork]
    split <;> exact hk
  have hwants : ¬wantsMore (moveWork (selectStart s) s.nextBatch 0 acct).2
      (moveWork (selectStart s) s.nextBatch 0 acct).1 acct = true := by
    rw [wantsMore_iff hkey, moveWork_seqCounter]
    have hseq : seqThreshold ≤ s.seqCounter acct := ((s.idlesFor_iff P acct).mpr hidle).sequential
    exact fun h => absurd h.2 (not_lt.mpr hseq)
  simp only [selectStart] at hno' hwants ⊢
  simp only [basicSchedSelectIoWork, hactive, hidle, hmem, Option.any_some, hno, hno', hwants, if_false,
    Bool.false_eq_true, Bool.true_eq_false]

theorem mem_drop_iff {works : List WorkId} {k : Nat} :
    work ∈ works.drop k ↔ ∃ i, works[i]? = some work ∧ k ≤ i := by
  rw [List.mem_iff_getElem?]
  constructor
  · rintro ⟨j, hj⟩
    rw [List.getElem?_drop] at hj
    exact ⟨k + j, hj, by omega⟩
  · rintro ⟨i, hi, hk⟩
    refine ⟨i - k, ?_⟩
    rw [List.getElem?_drop, Nat.add_sub_cancel' hk]
    exact hi

/-- What is left when the scheduler idles for no account. -/
theorem mem_select_by_counter (hp : Pending s) (hmem : s.env.kmalloc.1 = true) (hid : id ∈ s.activeAcctList)
    (hidle : idleForLastAcct P s = none) :
    work ∈ (basicSchedSelectIoWork P s).2.workList id ↔
      ∃ i, (s.workList id)[i]? = some work ∧ ¬s.InBatch P id i := by
  have hnot : ∀ acct, ¬s.IdlesFor P acct := by
    intro acct h
    rw [s.idlesFor_iff, hidle] at h
    cases h
  have hbatch : ∀ i, s.InBatch P id i ↔ s.ComesUp 0 id ∧ s.worksAhead id + i < maxBatchSize := by
    intro i
    simp only [State.InBatch, hnot, false_and, false_or, not_false_eq_true, implies_true, true_and]
  simp only [hbatch]
  have hb : (selectStart s).batches s.nextBatch = some ⟨[], 0⟩ := by simp [selectStart, State.setBatch]
  rw [select_eq (List.ne_nil_of_mem hid) hidle hmem]
  rcases addIoWork_workList (P := P) (n := 0) false (selectStart_pending hp) hb (by decide) hid with
    ⟨hup, hleft⟩ | ⟨hup, hleft⟩
  · have hup' : s.ComesUp 0 id := ⟨hup.found, hup.short, hup.random⟩
    have hahead : (selectStart s).worksAhead id = s.worksAhead id := rfl
    rw [hleft, hahead, mem_drop_iff]
    refine exists_congr fun i => and_congr_right fun _ => ?_
    have hshort := hup'.short
    have hlt : minBatchSize < maxBatchSize := by decide
    simp only [hup', true_and]
    omega
  · have hup' : ¬s.ComesUp 0 id := fun h => hup ⟨h.found, h.short, h.random⟩
    rw [hleft]
    simp only [hup', false_and, not_false_eq_true, and_true]
    exact List.mem_iff_getElem?

/-- What is left when it idles for the account that was served last. -/
theorem mem_select_idle (hp : Pending s) (hmem : s.env.kmalloc.1 = true) (hid : id ∈ s.activeAcctList)
    (hidle : idleForLastAcct P s = some acct) :
    work ∈ (basicSchedSelectIoWork P s).2.workList id ↔
      ∃ i, (s.workList id)[i]? = some work ∧ ¬s.InBatch P id i := by
  have hactive : s.activeAcctList ≠ [] := List.ne_nil_of_mem hid
  have hidles := (s.idlesFor_iff P acct).mpr hidle
  have hbatch : ∀ i, s.InBatch P id i ↔ id = acct ∧ i < maxBatchSize := by
    intro i
    constructor
    · rintro (⟨h, hi⟩ | ⟨hnot, -⟩)
      · exact ⟨Option.some.inj (h.last.symm.trans hidles.last), hi⟩
      · exact absurd hidles (hnot acct)
    · rintro ⟨rfl, hi⟩
      exact .inl ⟨hidles, hi⟩
  simp only [hbatch]
  by_cases hwork : s.workList acct = []
  · -- the scheduler waits for the account
    have hne : id ≠ acct := by
      rintro rfl
      exact (hp.active id).mp hid hwork
    have hsel : basicSchedSelectIoWork P s = (.nothing, s) := by
      simp [basicSchedSelectIoWork, hactive, hidle, acctNoPendingIo, hwork]
    rw [hsel]
    simp only [hne, false_and, not_false_eq_true, and_true]
    exact List.mem_iff_getElem?
  · have hm : Moves s.nextBatch acct _ _ (selectStart s) (moveWork (selectStart s) s.nextBatch 0 acct).2 :=
      moveWork_moves hwork
    have hstart : (selectStart s).workList = s.workList := rfl
    rw [select_idle_eq hidle hactive hwork hmem, hm.workList, hstart, takeWork_rest _ (by decide)]
    rcases eq_or_ne id acct with rfl | hne
    · rw [Function.update_self, mem_drop_iff]
      simp
    · rw [Function.update_of_ne hne]
      simp only [hne, false_and, not_false_eq_true, and_true]
      exact List.mem_iff_getElem?

/-- What selection leaves on an account is what is not in the batch. -/
theorem mem_select_workList (hp : Pending s) (hmem : s.env.kmalloc.1 = true) :
    work ∈ (basicSchedSelectIoWork P s).2.workList id ↔
      ∃ i, (s.workList id)[i]? = some work ∧ ¬s.InBatch P id i := by
  by_cases hid : id ∈ s.activeAcctList
  · cases hidle : idleForLastAcct P s with
    | none => exact mem_select_by_counter hp hmem hid hidle
    | some acct => exact mem_select_idle hp hmem hid hidle
  · have hnil : s.workList id = [] := by
      by_contra hne
      exact hid ((hp.active id).mpr hne)
    obtain ⟨hs, hp'⟩ := basicSchedSelectIoWork_spec P hp
    refine ⟨fun h => ?_, by simp [hnil]⟩
    have hold := hs.workList_subset hp hp' h
    simp [hnil] at hold

end Round

theorem select_noReads_iff (hp : Pending s) (hmem : s.env.kmalloc.1 = true) :
    (basicSchedSelectIoWork P s).2.NoReads ↔ s.ReadsInBatch P := by
  have hrqs : (basicSchedSelectIoWork P s).2.mem.rqs = s.mem.rqs := (basicSchedSelectIoWork_spec P hp).1.rqs
  have htype : ∀ work, workType (basicSchedSelectIoWork P s).2.mem work = workType s.mem work := by
    intro work
    cases work <;> simp only [workType, hrqs]
  simp only [State.NoReads, State.ReadsInBatch, mem_select_workList hp hmem, htype]
  constructor
  · intro h id i work hi hread
    by_contra hout
    exact h id work ⟨i, hi, hout⟩ hread
  · rintro h id work ⟨i, hi, hout⟩ hread
    exact hout (h id i work hi hread)

/-! ## The loop -/

theorem basicSchedWantDispatch_closed (h : s.keepWait = .noNewBatch) :
    basicSchedWantDispatch s = 0 := by
  simp [basicSchedWantDispatch, h]

/-- What one call leaves: nothing has changed, or one selection was made, and then either nothing came
of it or what it took was submitted. -/
theorem basicSchedDispatch_spec (hp : Pending s) (hm : s.env.Plenty) :
    ∃ rv s', basicSchedDispatch P s = some (rv, s') ∧
      (rv ≠ 0 → s'.keepWait = .noNewBatch) ∧ s'.mem.rqs = s.mem.rqs ∧
      s'.workList = if basicSchedWantDispatch s = 0 then s.workList
        else (basicSchedSelectIoWork P s).2.workList := by
  obtain ⟨hs, hp'⟩ := basicSchedSelectIoWork_spec P hp
  simp only [basicSchedDispatch]
  split
  · exact ⟨0, s, rfl, fun h => absurd rfl h, rfl, rfl⟩
  · rcases hs.outcome with ⟨hr, -, works, -, hb⟩ | ⟨hr, -⟩
    · have hd : (basicSchedSelectIoWork P s).2.batches s.nextBatch = some ⟨works, 0⟩ := by
        rw [hb, Function.update_self]
      obtain ⟨t, ht⟩ := basicSchedSubmitIoWork_total (P := P)
        (basicSchedSelectIoWork_plenty P hm) hd
      have hsub := basicSchedSubmitIoWork_submits hp' hd ht
      refine ⟨1, t, by simp [hr, ht], fun _ => basicSchedSubmitIoWork_closes ht,
        hsub.rqs.trans hs.rqs, hsub.workList⟩
    · refine ⟨0, (basicSchedSelectIoWork P s).2, ?_, fun h => absurd rfl h, hs.rqs, rfl⟩
      cases ho : (basicSchedSelectIoWork P s).1 with
      | batch b => exact absurd ho (hr b)
      | nothing => rfl
      | noAccount => rfl
      | noPending => rfl

/-- After a call that submitted a batch, the next one returns 0. -/
theorem basicSchedDispatch_again (h : s.keepWait = .noNewBatch) :
    basicSchedDispatch P s = some (0, s) := by
  simp [basicSchedDispatch, basicSchedWantDispatch_closed h]

theorem elvDrainElevator_spec (hp : Pending s) (hm : s.env.Plenty) :
    ∃ s', (∀ n, 2 ≤ n → elvDrainElevator P n s = some s') ∧ s'.mem.rqs = s.mem.rqs ∧
      s'.workList = if basicSchedWantDispatch s = 0 then s.workList
        else (basicSchedSelectIoWork P s).2.workList := by
  obtain ⟨rv, s', hd, hclosed, hrqs, hw⟩ := basicSchedDispatch_spec (P := P) hp hm
  refine ⟨s', fun n hn => ?_, hrqs, hw⟩
  obtain ⟨k, rfl⟩ : ∃ k, n = k + 2 := ⟨n - 2, by omega⟩
  simp only [elvDrainElevator, hd]
  split
  · rfl
  · rename_i hrv
    simp only [basicSchedDispatch_again (hclosed hrv), if_true]

/-- Draining from any state that a run reaches, with memory to spare, ends after at most two calls. No
read is left exactly when none waited, or the gate was open and all of them were in the batch that came next. -/
theorem forced_dispatch_drains_iff (P : Platform) (m : Mem) (env env' : Env) (s : State)
    (es : List Event) (w : World) (h0 : basicSchedInitData P m env = some s)
    (hr : run (step P) (World.init s) es = some w) (hm : env'.Plenty) :
    ∃ s', (∀ n, 2 ≤ n → elvDrainElevator P n { w.afq with env := env' } = some s') ∧
      (s'.NoReads ↔ w.afq.NoReads ∨ w.afq.GateOpen ∧ w.afq.ReadsInBatch P) := by
  have hp : Pending { w.afq with env := env' } :=
    (run_sound h0 hr).pending.quiet (.of_mem fun _ _ => rfl)
  obtain ⟨s', hdrain, hrqs, hw⟩ := elvDrainElevator_spec (P := P) hp hm
  obtain ⟨hs, hp'⟩ := basicSchedSelectIoWork_spec P hp
  refine ⟨s', hdrain, ?_⟩
  by_cases hwant : basicSchedWantDispatch w.afq = 0
  · -- the gate is closed: everything stays where it is
    have hwl : s'.workList = w.afq.workList := hw.trans (if_pos hwant)
    simp only [State.gateOpen_iff, hwant, ne_eq, not_true_eq_false, false_and, or_false]
    exact ⟨fun h => h.congr (fun id work hx => hwl ▸ hx) hrqs.symm,
      fun h => h.congr (fun id work hx => hwl ▸ hx) hrqs⟩
  · have hwl : s'.workList = (basicSchedSelectIoWork P { w.afq with env := env' }).2.workList :=
      hw.trans (if_neg hwant)
    have hrqs' := hrqs.trans hs.rqs.symm
    have hdrained : s'.NoReads ↔ w.afq.ReadsInBatch P := by
      refine Iff.trans ⟨?_, ?_⟩ ((select_noReads_iff (P := P) hp hm.kmalloc).trans (w.afq.readsInBatch_env_iff P env'))
      · exact fun h => h.congr (fun id work hx => hwl ▸ hx) hrqs'.symm
      · exact fun h => h.congr (fun id work hx => hwl ▸ hx) hrqs'
    -- without a read there is none that the batch leaves behind
    have hnone : w.afq.NoReads → w.afq.ReadsInBatch P := fun h id i work hi hread =>
      absurd hread (h id work (List.mem_of_getElem? hi))
    rw [hdrained, State.gateOpen_iff]
    simp only [hwant, ne_eq, not_false_eq_true, true_and, or_iff_right_of_imp hnone]

/-- One read waits and the gate is open: it is drained. -/
theorem forced_dispatch_drains_one_read :
    ∃ s w, basicSchedInitData .lp64 sampleMem sampleEnv = some s ∧
      run (step .lp64) (World.init s) [.add 0 7] = some w ∧ sampleEnv.Plenty ∧
      ∃ s', (∀ n, 2 ≤ n → elvDrainElevator .lp64 n { w.afq with env := sampleEnv } = some s') ∧
        (s'.NoReads ↔ w.afq.NoReads ∨ w.afq.GateOpen ∧ w.afq.ReadsInBatch .lp64) := by
  have h : ((basicSchedInitData .lp64 sampleMem sampleEnv).bind fun s =>
      run (step .lp64) (World.init s) [.add 0 7]).isSome = true := by
    decide +kernel
  obtain ⟨w, hw⟩ := Option.isSome_iff_exists.mp h
  obtain ⟨s, hs, hr⟩ := Option.bind_eq_some_iff.mp hw
  have hm : sampleEnv.Plenty := fun _ => rfl
  exact ⟨s, w, hs, hr, hm,
    forced_dispatch_drains_iff .lp64 sampleMem sampleEnv sampleEnv s _ w hs hr hm⟩

/-- A read comes in while a batch is out. Draining returns at once, and the read is still there. -/
theorem read_left_behind_by_drain :
    ∃ s w s', basicSchedInitData .lp64 sampleMem sampleEnv = some s ∧
      run (step .lp64) (World.init s) [.add 0 7, .dispatch, .add 1 7] = some w ∧
      elvDrainElevator .lp64 2 { w.afq with env := sampleEnv } = some s' ∧
      .req 1 ∈ s'.workList 7 ∧ ¬ s'.NoReads := by
  have h : ((basicSchedInitData .lp64 sampleMem sampleEnv).bind fun s =>
      run (step .lp64) (World.init s) [.add 0 7, .dispatch, .add 1 7]).any (fun w =>
        (elvDrainElevator .lp64 2 { w.afq with env := sampleEnv }).any fun s' =>
          decide (.req 1 ∈ s'.workList 7 ∧ workType s'.mem (.req 1) = .readReq)) = true := by
    decide +kernel
  obtain ⟨w, hw, hleft⟩ := (Option.any_eq_true _ _).mp h
  obtain ⟨s, hs, hr⟩ := Option.bind_eq_some_iff.mp hw
  obtain ⟨s', hs', hleft⟩ := (Option.any_eq_true _ _).mp hleft
  obtain ⟨hmem, hread⟩ := of_decide_eq_true hleft
  exact ⟨s, w, s', hs, hr, hs', hmem, fun hno => hno 7 _ hmem hread⟩

end Afq
end SplitSched
