import SplitSched.Afq.Work
import SplitSched.Lib.Placement

/-!
# SplitSched.Afq.Pending

Where the work of the AFQ scheduler is. `Pending` is the invariant that selection relies on: the
active list holds the accounts with work, each once, and every unit of work that was accepted is on
one list, the list of its account, that of a batch, or the record of what was submitted.

* `Accepts`, `Selects`, `Submits`: what insertion, selection and submission do to the lists, each
  proved of its function once (`addIoWorkToAcct_accepts`, `basicSchedSelectIoWork_spec`,
  `basicSchedSubmitIoWork_submits`).
* `Pending.quiet`, `Pending.accept`, `basicSchedSelectIoWork_pending`, `Pending.submit`: the
  invariant is kept. Under it, selection never meets an account without work.
-/

namespace SplitSched
namespace Afq

variable {P : Platform} {s s' s'' : State} {work : WorkId} {acct : Int} {b : Nat}

/-! ## The invariant -/

/-- The lists a unit of work can be on. -/
inductive Place where
  | acct (id : Int)
  | batch (b : Nat)
  | submitted
  deriving DecidableEq

namespace State

/-- The work a batch holds. -/
def batchWork (s : State) (b : Nat) : List WorkId := ((s.batches b).map (·.workSelected)).getD []

def place (s : State) : Place → List WorkId
  | .acct id => s.workList id
  | .batch b => s.batchWork b
  | .submitted => s.submitted

end State

structure Pending (s : State) : Prop where
  nodup : s.activeAcctList.Nodup
  active : ∀ id, id ∈ s.activeAcctList ↔ s.workList id ≠ []
  placed : Placed (· ∈ s.accepted) s.place
  home : ∀ id work, work ∈ s.workList id → (s.descs work).acct = some id
  fresh : ∀ b, s.nextBatch ≤ b → s.batches b = none
  reads : ∀ rq, WorkId.req rq ∈ s.accepted → (s.mem.rqs rq).write = false

theorem basicSchedInitData_pending {m : Mem} {env : Env} (h : basicSchedInitData P m env = some s) :
    Pending s := by
  simp only [basicSchedInitData] at h
  split at h
  · cases h
    refine ⟨List.nodup_nil, fun id => by simp [State.workList], ?_,
      fun id work => by simp [State.workList], fun _ _ => rfl, fun rq h => by cases h⟩
    simp only [List.not_mem_nil]
    exact Placed.nil fun k => by cases k <;> rfl
  · cases h

/-! ## Changes that concern no work -/

structure Quiet (s s' : State) : Prop where
  workList : s'.workList = s.workList := by rfl
  activeAcctList : s'.activeAcctList = s.activeAcctList := by rfl
  inflight : s'.inflight = s.inflight := by rfl
  descs : s'.descs = s.descs := by rfl
  batches : s'.batches = s.batches := by rfl
  nextBatch : s'.nextBatch = s.nextBatch := by rfl
  accepted : s'.accepted = s.accepted := by rfl
  submitted : s'.submitted = s.submitted := by rfl
  sorted : s'.sorted = s.sorted := by rfl
  write : ∀ rq, .req rq ∈ s.accepted → (s'.mem.rqs rq).write = (s.mem.rqs rq).write := by
    exact fun _ _ => rfl

theorem Quiet.refl (s : State) : Quiet s s := {}

theorem Quiet.trans (h : Quiet s s') (h' : Quiet s' s'') : Quiet s s'' where
  workList := h'.workList.trans h.workList
  activeAcctList := h'.activeAcctList.trans h.activeAcctList
  inflight := h'.inflight.trans h.inflight
  descs := h'.descs.trans h.descs
  batches := h'.batches.trans h.batches
  nextBatch := h'.nextBatch.trans h.nextBatch
  accepted := h'.accepted.trans h.accepted
  submitted := h'.submitted.trans h.submitted
  sorted := h'.sorted.trans h.sorted
  write rq hrq := (h'.write rq (h.accepted ▸ hrq)).trans (h.write rq hrq)

theorem Quiet.of_modify {f : Account → Account} (hf : ∀ a, (f a).ioWorkList = a.ioWorkList) :
    Quiet s (s.modifyAccount acct f) where
  __ := refl s
  workList := Registry.val_modify_keep hf

theorem Quiet.of_mem {m : Mem} {env : Env}
    (hw : ∀ rq, .req rq ∈ s.accepted → (m.rqs rq).write = (s.mem.rqs rq).write) :
    Quiet s { s with mem := m, env := env } where
  __ := refl s
  write := hw

theorem Charges.quiet {exts : List IORequest} (h : Charges exts s s') : Quiet s s' where
  workList := h.workList
  activeAcctList := h.activeAcctList
  inflight := h.inflight
  descs := h.descs
  batches := h.batches
  nextBatch := h.nextBatch
  accepted := h.accepted
  submitted := h.submitted
  sorted := h.sorted
  write rq _ := by rw [h.rqs]

theorem Pending.quiet (h : Pending s) (hq : Quiet s s') : Pending s' where
  nodup := hq.activeAcctList ▸ h.nodup
  active id := by
    rw [hq.activeAcctList, hq.workList]
    exact h.active id
  placed := by
    have hplace : s'.place = s.place := by
      funext k
      cases k <;> simp only [State.place, State.batchWork, hq.workList, hq.batches, hq.submitted]
    rw [hq.accepted, hplace]
    exact h.placed
  home id work hw := by
    rw [hq.descs]
    exact h.home id work (hq.workList ▸ hw)
  fresh b hb := by
    rw [hq.batches]
    exact h.fresh b (hq.nextBatch ▸ hb)
  reads rq hrq := by
    rw [hq.accepted] at hrq
    exact (hq.write rq hrq).trans (h.reads rq hrq)

/-! ## Insertion -/

structure Accepts (work : WorkId) (acct : Int) (s s' : State) : Prop where
  workList : s'.workList = Function.update s.workList acct (s.workList acct ++ [work])
  activeAcctList : s'.activeAcctList =
    if s.workList acct = [] then s.activeAcctList ++ [acct] else s.activeAcctList
  accepted : s'.accepted = s.accepted ++ [work]
  inflight : s'.inflight = s.inflight
  descs : s'.descs = s.descs
  batches : s'.batches = s.batches
  nextBatch : s'.nextBatch = s.nextBatch
  submitted : s'.submitted = s.submitted
  sorted : s'.sorted = s.sorted
  rqs : s'.mem.rqs = s.mem.rqs

theorem activate_workList : (activate P s acct).workList = s.workList := by
  refine Registry.val_modify_keep fun a => ?_
  split <;> rfl

theorem addIoWorkToAcct_accepts (work : WorkId) (hk : acct ∈ s.accounts.keys) :
    Accepts work acct s (addIoWorkToAcct P s work acct) := by
  have hw : ∀ s : State, acct ∈ s.accounts.keys → ∀ l,
      ({ s.modifyAccount acct fun a => { a with ioWorkList := a.ioWorkList ++ [work] } with
        accepted := l } : State).workList =
        Function.update s.workList acct (s.workList acct ++ [work]) := fun s hk l =>
    Registry.val_modify (φ := (· ++ [work])) hk fun _ => rfl
  by_cases h : s.workList acct = []
  · have ha := hw (activate P s acct) hk (s.accepted ++ [work])
    rw [activate_workList] at ha
    simp only [addIoWorkToAcct, acctNoPendingIo, h, decide_true, if_true]
    exact ⟨ha, by rw [if_pos h]; rfl, rfl, rfl, rfl, rfl, rfl, rfl, rfl, rfl⟩
  · simp only [addIoWorkToAcct, acctNoPendingIo, h, decide_false, Bool.false_eq_true, if_false]
    exact ⟨hw s hk _, by rw [if_neg h]; rfl, rfl, rfl, rfl, rfl, rfl, rfl, rfl, rfl⟩

theorem Pending.accept (h : Pending s) (ha : Accepts work acct s s') (hw : work ∉ s.accepted)
    (hacct : (s.descs work).acct = some acct)
    (hr : ∀ rq, work = .req rq → (s.mem.rqs rq).write = false) : Pending s' where
  nodup := by
    rw [ha.activeAcctList]
    split
    · rename_i hn
      have hfresh : acct ∉ s.activeAcctList := fun hm => (h.active acct).mp hm hn
      exact List.nodup_append.mpr ⟨h.nodup, List.nodup_singleton acct, fun x hx y hy e =>
        hfresh (List.mem_singleton.mp hy ▸ e ▸ hx)⟩
    · exact h.nodup
  active id := by
    rw [ha.activeAcctList, ha.workList]
    rcases eq_or_ne id acct with rfl | hid
    · rw [Function.update_self]
      split
      · simp
      · rename_i hn
        simpa using (h.active id).mpr hn
    · rw [Function.update_of_ne hid, ← h.active id]
      split
      · simp [hid]
      · rfl
  placed := by
    refine h.placed.push (i := .acct acct) hw (fun k => ?_) fun y => by simp [ha.accepted]
    cases k with
    | acct id =>
      rcases eq_or_ne id acct with rfl | hid
      · simp [State.place, ha.workList]
      · simp [State.place, ha.workList, hid]
    | batch b => simp [State.place, State.batchWork, ha.batches]
    | submitted => simp [State.place, ha.submitted]
  home id w hm := by
    rw [ha.descs]
    rw [ha.workList] at hm
    rcases eq_or_ne id acct with rfl | hid
    · rw [Function.update_self, List.mem_append, List.mem_singleton] at hm
      rcases hm with hm | rfl
      · exact h.home id w hm
      · exact hacct
    · rw [Function.update_of_ne hid] at hm
      exact h.home id w hm
  fresh b hb := by
    rw [ha.batches]
    exact h.fresh b (ha.nextBatch ▸ hb)
  reads rq hrq := by
    rw [ha.rqs]
    rw [ha.accepted, List.mem_append, List.mem_singleton] at hrq
    rcases hrq with hrq | hrq
    · exact h.reads rq hrq
    · exact hr rq hrq.symm

/-! ## Selection -/

/-- What selection does not touch: the descriptors and the record of calls. -/
structure Frame (s s' : State) : Prop where
  inflight : s'.inflight = s.inflight := by rfl
  descs : s'.descs = s.descs := by rfl
  accepted : s'.accepted = s.accepted := by rfl
  submitted : s'.submitted = s.submitted := by rfl
  sorted : s'.sorted = s.sorted := by rfl
  rqs : s'.mem.rqs = s.mem.rqs := by rfl

theorem Frame.refl (s : State) : Frame s s := {}

theorem Frame.trans (h : Frame s s') (h' : Frame s' s'') : Frame s s'' where
  inflight := h'.inflight.trans h.inflight
  descs := h'.descs.trans h.descs
  accepted := h'.accepted.trans h.accepted
  submitted := h'.submitted.trans h.submitted
  sorted := h'.sorted.trans h.sorted
  rqs := h'.rqs.trans h.rqs

/-- The leading part `moved` of an account's work goes to the batch `b`, and `rest` stays. -/
structure Moves (b : Nat) (acct : Int) (moved rest : List WorkId) (s s' : State) : Prop
    extends Frame s s' where
  split : s.workList acct = moved ++ rest
  workList : s'.workList = Function.update s.workList acct rest
  activeAcctList : s'.activeAcctList =
    if rest = [] then s.activeAcctList.erase acct else s.activeAcctList
  batches : s'.batches = Function.update s.batches b
    ((s.batches b).map fun d => { d with workSelected := d.workSelected ++ moved })
  nextBatch : s'.nextBatch = s.nextBatch

theorem mem_keys_of_workList (h : s.workList acct ≠ []) : acct ∈ s.accounts.keys := by
  by_contra hk
  exact h (Registry.val_of_not_mem hk)

theorem takeWork_ne_nil {works : List WorkId} (h : works ≠ []) (n : Nat) :
    (takeWork works n).1 ≠ [] := by
  cases works with
  | nil => exact absurd rfl h
  | cons work works =>
    simp only [takeWork]
    split <;> simp

theorem moveWork_moves {n : Nat} (h : s.workList acct ≠ []) :
    Moves b acct (takeWork (s.workList acct) n).1 (takeWork (s.workList acct) n).2.1 s
      (moveWork s b n acct).2 := by
  have hk := mem_keys_of_workList h
  have hw : ∀ rest : List WorkId,
      (s.modifyAccount acct fun a => { a with ioWorkList := rest }).workList =
        Function.update s.workList acct rest := fun rest =>
    Registry.val_modify (φ := fun _ => rest) hk fun _ => rfl
  by_cases hr : (takeWork (s.workList acct) n).2.1 = []
  · simp only [moveWork, hr, if_true]
    exact
      { Frame.refl s with
        split := by rw [← hr, takeWork_append]
        workList := hw []
        activeAcctList := rfl
        batches := rfl
        nextBatch := rfl }
  · simp only [moveWork, hr, if_false]
    exact
      { Frame.refl s with
        split := (takeWork_append _ n).symm
        workList := hw _
        activeAcctList := by rw [if_neg hr]; rfl
        batches := rfl
        nextBatch := rfl }

theorem Pending.move {moved rest : List WorkId} (h : Pending s) (hm : Moves b acct moved rest s s')
    (hmoved : moved ≠ []) (hb : s.batches b ≠ none) : Pending s' where
  nodup := by
    rw [hm.activeAcctList]
    split
    · exact h.nodup.erase acct
    · exact h.nodup
  active id := by
    rw [hm.activeAcctList, hm.workList]
    rcases eq_or_ne id acct with rfl | hid
    · rw [Function.update_self]
      split
      · rename_i hr
        simp [hr, h.nodup.mem_erase_iff]
      · rename_i hr
        simp only [hr, not_false_eq_true, iff_true, ne_eq]
        refine (h.active id).mpr ?_
        rw [hm.split]
        simp [hmoved]
    · rw [Function.update_of_ne hid, ← h.active id]
      split
      · exact List.mem_erase_of_ne hid
      · rfl
  placed := by
    rw [hm.accepted]
    refine h.placed.move (i := .acct acct) (j := .batch b) moved rest (by simp)
      hm.split fun k => ?_
    cases k with
    | acct id =>
      rcases eq_or_ne id acct with rfl | hid
      · simp [State.place, hm.workList]
      · simp [State.place, hm.workList, hid]
    | batch b' =>
      rcases eq_or_ne b' b with rfl | hb'
      · obtain ⟨d, hd⟩ := Option.ne_none_iff_exists'.mp hb
        simp [State.place, State.batchWork, hm.batches, hd]
      · simp [State.place, State.batchWork, hm.batches, hb']
    | submitted => simp [State.place, hm.submitted]
  home id work hw := by
    rw [hm.descs]
    refine h.home id work ?_
    rw [hm.workList] at hw
    rcases eq_or_ne id acct with rfl | hid
    · rw [Function.update_self] at hw
      rw [hm.split]
      exact List.mem_append_right moved hw
    · rwa [Function.update_of_ne hid] at hw
  fresh b' hb' := by
    have hold := h.fresh b' (hm.nextBatch ▸ hb')
    have hne : b' ≠ b := by
      rintro rfl
      exact hb hold
    rw [hm.batches, Function.update_of_ne hne]
    exact hold
  reads rq hrq := by
    rw [hm.rqs]
    exact h.reads rq (hm.accepted ▸ hrq)

/-- A batch descriptor that holds no work comes or goes. -/
theorem Pending.setEmptyBatch {d : Option BatchDesc} (h : Pending s) (hold : s.batchWork b = [])
    (hnew : (d.map (·.workSelected)).getD [] = []) (hw : s'.workList = s.workList)
    (hb : s'.batches = Function.update s.batches b d) (ha : s'.activeAcctList = s.activeAcctList)
    (hf : Frame s s') (hn : ∀ b', s'.nextBatch ≤ b' → s.nextBatch ≤ b' ∧ (b' = b → d = none)) :
    Pending s' where
  nodup := ha ▸ h.nodup
  active id := by
    rw [ha, hw]
    exact h.active id
  placed := by
    have hplace : s'.place = s.place := by
      funext k
      cases k with
      | acct id => simp only [State.place, hw]
      | batch b' =>
        rcases eq_or_ne b' b with rfl | hb'
        · rw [State.place, State.place, hold]
          simp only [State.batchWork, hb, Function.update_self, hnew]
        · simp only [State.place, State.batchWork, hb, Function.update_of_ne hb']
      | submitted => simp only [State.place, hf.submitted]
    rw [hf.accepted, hplace]
    exact h.placed
  home id work hm := by
    rw [hf.descs]
    exact h.home id work (hw ▸ hm)
  fresh b' hb' := by
    obtain ⟨hlt, hd⟩ := hn b' hb'
    rw [hb]
    rcases eq_or_ne b' b with rfl | hne
    · rw [Function.update_self]
      exact hd rfl
    · rw [Function.update_of_ne hne]
      exact h.fresh b' hlt
  reads rq hrq := by
    rw [hf.rqs]
    exact h.reads rq (hf.accepted ▸ hrq)

/-- What the selection loop makes of the batch `b`: a batch with work that counts none yet, or a
descriptor that is free again. -/
structure Picks (b : Nat) (s : State) (r : Selected × State) : Prop extends Frame s r.2 where
  nextBatch : r.2.nextBatch = s.nextBatch
  others : ∀ b' ≠ b, r.2.batches b' = s.batches b'
  outcome : (r.1 = .batch b ∧ ∃ works, works ≠ [] ∧ r.2.batches b = some ⟨works, 0⟩) ∨
    (r.1 = .noAccount ∧ r.2.batches b = none)

theorem Picks.of_frame {r : Selected × State} (h : Picks b s' r) (hf : Frame s s')
    (hn : s'.nextBatch = s.nextBatch) (ho : ∀ b' ≠ b, s'.batches b' = s.batches b') :
    Picks b s r where
  toFrame := hf.trans h.toFrame
  nextBatch := h.nextBatch.trans hn
  others b' hb' := (h.others b' hb').trans (ho b' hb')
  outcome := h.outcome

theorem beginSlice_quiet {vio : Int} : Quiet s (beginSlice P s acct vio) where
  __ := Quiet.refl s
  workList := Registry.val_modify_keep fun _ => rfl

theorem beginSlice_frame {vio : Int} : Frame s (beginSlice P s acct vio) where
  __ := Frame.refl s

section

variable {n : Nat} {works moved rest : List WorkId}

/-- Some work has been moved: the batch is not empty any more. -/
theorem Moves.batch (hm : Moves b acct moved rest s s') (hb : s.batches b = some ⟨works, 0⟩) :
    s'.batches b = some ⟨works ++ moved, 0⟩ := by
  rw [hm.batches, Function.update_self, hb]
  rfl

theorem Moves.others (hm : Moves b acct moved rest s s') : ∀ b' ≠ b,
    s'.batches b' = s.batches b' := by
  intro b' hb'
  rw [hm.batches, Function.update_of_ne hb']

/-- The loop keeps the invariant, and never finds the account it has chosen without work. -/
theorem addIoWork_picks (more : Bool) (hp : Pending s) (hb : s.batches b = some ⟨works, 0⟩)
    (hmore : more = true ↔ works ≠ []) :
    Picks b s (addIoWork P b n more s) ∧ Pending (addIoWork P b n more s).2 := by
  fun_induction addIoWork P b n more s generalizing works with
  | case1 n s vio hmin =>
    exact ⟨⟨.refl s, rfl, fun _ _ => rfl, .inl ⟨rfl, works, hmore.mp rfl, hb⟩⟩, hp⟩
  | case2 n more s vio hmin hm =>
    have hnil : works = [] := by
      by_contra hw
      exact hm (hmore.mpr hw)
    subst hnil
    have hf : Frame s (s.setBatch b none) := { Frame.refl s with }
    refine ⟨⟨hf, rfl, fun b' hb' => by simp [State.setBatch, hb'],
      .inr ⟨rfl, by simp [State.setBatch]⟩⟩, ?_⟩
    exact hp.setEmptyBatch (b := b) (d := none) (by simp [State.batchWork, hb]) rfl rfl rfl rfl hf
      fun b' hb' => ⟨hb', fun _ => rfl⟩
  | case3 n more s vio acct hmin s₁ =>
    rename_i hno
    -- the chosen account is on the active list, so it has work
    have hact := (hp.active acct).mp (minActive_mem hmin)
    have hw : s₁.workList = s.workList := beginSlice_quiet.workList
    simp only [acctNoPendingIo, hw, decide_eq_true_eq] at hno
    exact absurd hno hact
  | case4 n more s vio acct hmin s₁ hno r hwants =>
    rename_i ih
    have hq : Quiet s s₁ := beginSlice_quiet
    have hw₁ : s₁.workList acct ≠ [] := by simpa [acctNoPendingIo] using hno
    have hb₁ : s₁.batches b = some ⟨works, 0⟩ := hb
    have hm : Moves b acct _ _ s₁ r.2 := moveWork_moves hw₁
    have hne := takeWork_ne_nil hw₁ n
    have hp' := (hp.quiet hq).move hm hne (by simp [hb₁])
    obtain ⟨hpick, hpend⟩ := ih hp' (hm.batch hb₁) (by simp [hne])
    exact ⟨hpick.of_frame (beginSlice_frame.trans hm.toFrame) (hm.nextBatch.trans hq.nextBatch)
      fun b' hb' => hm.others b' hb', hpend⟩
  | case5 n more s vio acct hmin s₁ hno r =>
    have hq : Quiet s s₁ := beginSlice_quiet
    have hw₁ : s₁.workList acct ≠ [] := by simpa [acctNoPendingIo] using hno
    have hb₁ : s₁.batches b = some ⟨works, 0⟩ := hb
    have hm : Moves b acct _ _ s₁ r.2 := moveWork_moves hw₁
    have hne := takeWork_ne_nil hw₁ n
    refine ⟨⟨beginSlice_frame.trans hm.toFrame, hm.nextBatch.trans hq.nextBatch,
      fun b' hb' => hm.others b' hb', .inl ⟨rfl, _, ?_, hm.batch hb₁⟩⟩,
      (hp.quiet hq).move hm hne (by simp [hb₁])⟩
    simp [hne]

end

/-- Everything `basic_sched_select_io_work` can do to batches and descriptors. -/
structure Selects (s : State) (r : Selected × State) : Prop extends Frame s r.2 where
  pending : r.1 ≠ .noPending
  outcome : (r.1 = .batch s.nextBatch ∧ r.2.nextBatch = s.nextBatch + 1 ∧ ∃ works, works ≠ [] ∧
      r.2.batches = Function.update s.batches s.nextBatch (some ⟨works, 0⟩)) ∨
    ((∀ b, r.1 ≠ .batch b) ∧ s.nextBatch ≤ r.2.nextBatch ∧ r.2.batches = s.batches)

theorem Picks.selects {r : Selected × State} (h : Picks s.nextBatch s' r) (hp : Pending s)
    (hf : Frame s s') (hn : s'.nextBatch = s.nextBatch + 1)
    (ho : ∀ b' ≠ s.nextBatch, s'.batches b' = s.batches b') : Selects s r where
  toFrame := hf.trans h.toFrame
  pending := by
    rcases h.outcome with ⟨hr, -⟩ | ⟨hr, -⟩ <;> simp [hr]
  outcome := by
    have hoth : ∀ b' ≠ s.nextBatch, r.2.batches b' = s.batches b' := fun b' hb' =>
      (h.others b' hb').trans (ho b' hb')
    have hnext := h.nextBatch.trans hn
    rcases h.outcome with ⟨hr, works, hw, hb⟩ | ⟨hr, hb⟩
    · refine .inl ⟨hr, hnext, works, hw, funext fun b' => ?_⟩
      rcases eq_or_ne b' s.nextBatch with rfl | hb'
      · rw [Function.update_self, hb]
      · rw [Function.update_of_ne hb', hoth b' hb']
    · refine .inr ⟨by simp [hr], by omega, funext fun b' => ?_⟩
      rcases eq_or_ne b' s.nextBatch with rfl | hb'
      · rw [hb, hp.fresh _ le_rfl]
      · exact hoth b' hb'

theorem basicSchedSelectIoWork_spec (P : Platform) (hp : Pending s) :
    Selects s (basicSchedSelectIoWork P s) ∧ Pending (basicSchedSelectIoWork P s).2 := by
  simp only [basicSchedSelectIoWork]
  split
  · exact ⟨⟨.refl s, by simp, .inr ⟨by simp, le_rfl, rfl⟩⟩, hp⟩
  split
  · exact ⟨⟨.refl s, by simp, .inr ⟨by simp, le_rfl, rfl⟩⟩, hp⟩
  rename_i hidle
  split
  · have hf : Frame s { s with env := s.env.kmalloc.2 } := { Frame.refl s with }
    exact ⟨⟨hf, by simp, .inr ⟨by simp, le_rfl, rfl⟩⟩, hp.quiet (.of_mem fun _ _ => rfl)⟩
  -- the new descriptor holds no work yet
  generalize hs₁ : ({ s.setBatch s.nextBatch (some ⟨[], 0⟩) with
    nextBatch := s.nextBatch + 1, env := s.env.kmalloc.2 } : State) = s₁
  have hb₁ : s₁.batches s.nextBatch = some ⟨[], 0⟩ := by simp [← hs₁, State.setBatch]
  have ho : ∀ b' ≠ s.nextBatch, s₁.batches b' = s.batches b' := by
    intro b' hb'
    simp [← hs₁, State.setBatch, hb']
  have hf : Frame s s₁ := by subst hs₁; exact { Frame.refl s with }
  have hn : s₁.nextBatch = s.nextBatch + 1 := by subst hs₁; rfl
  have hp₁ : Pending s₁ := by
    refine hp.setEmptyBatch (b := s.nextBatch) (d := some ⟨[], 0⟩) ?_ rfl (by subst hs₁; rfl)
      (by subst hs₁; rfl) (by subst hs₁; rfl) hf fun b' hb' => ?_
    · simp [State.batchWork, hp.fresh _ le_rfl]
    · rw [hn] at hb'
      exact ⟨by omega, fun e => by omega⟩
  have hw : s₁.workList = s.workList := by subst hs₁; rfl
  clear hs₁
  split
  · obtain ⟨hpick, hpend⟩ := addIoWork_picks (P := P) (n := 0) false hp₁ hb₁ (by simp)
    exact ⟨hpick.selects hp hf hn ho, hpend⟩
  · rename_i acct hacct
    have hno : acctNoPendingIo s₁ acct = false := by
      rw [hacct] at hidle
      simpa [acctNoPendingIo, hw] using hidle
    rw [hno]
    have hw₁ : s₁.workList acct ≠ [] := by simpa [acctNoPendingIo] using hno
    have hm : Moves s.nextBatch acct _ _ s₁ (moveWork s₁ s.nextBatch 0 acct).2 := moveWork_moves hw₁
    have hne := takeWork_ne_nil hw₁ 0
    have hp₂ := hp₁.move hm hne (by simp [hb₁])
    simp only [Bool.false_eq_true, if_false]
    split
    · obtain ⟨hpick, hpend⟩ := addIoWork_picks (P := P) (n := (moveWork s₁ s.nextBatch 0 acct).1)
        true hp₂ (hm.batch hb₁) (by simp [hne])
      exact ⟨(hpick.of_frame hm.toFrame hm.nextBatch hm.others).selects hp hf hn ho, hpend⟩
    · have hpick : Picks s.nextBatch s₁ (.batch s.nextBatch, (moveWork s₁ s.nextBatch 0 acct).2) :=
        ⟨hm.toFrame, hm.nextBatch, hm.others, .inl ⟨rfl, _, by simp [hne], hm.batch hb₁⟩⟩
      exact ⟨hpick.selects hp hf hn ho, hp₂⟩

/-! ## Submission -/

/-- The request a unit of work belongs to, if it is one. -/
def WorkId.request : WorkId → Option Nat
  | .req rq => some rq
  | _ => none

/-- The leading part `works` of the batch `b` is submitted. -/
structure Submits (b : Nat) (works : List WorkId) (s s' : State) : Prop where
  workList : s'.workList = s.workList
  activeAcctList : s'.activeAcctList = s.activeAcctList
  nextBatch : s'.nextBatch = s.nextBatch
  accepted : s'.accepted = s.accepted
  rqs : s'.mem.rqs = s.mem.rqs
  submitted : s'.submitted = s.submitted ++ works
  others : ∀ b' ≠ b, s'.batches b' = s.batches b'
  batch : ∀ rest k, s.batches b = some ⟨works ++ rest, k⟩ →
    s'.batches b = some ⟨rest, k + works.length⟩
  acct : ∀ w, (s'.descs w).acct = (s.descs w).acct
  owner : ∀ w, (s'.descs w).ownerBatch = if w ∈ works then some b else (s.descs w).ownerBatch
  woken : ∀ w, (s'.descs w).woken = true → w ∈ works ∨ (s.descs w).woken = true
  sorted : s'.sorted = s.sorted ++ works.filterMap WorkId.request
  inflight : s'.inflight = s.inflight + (works.filterMap WorkId.request).length

theorem Submits.nil (b : Nat) (s : State) : Submits b [] s s where
  workList := rfl
  activeAcctList := rfl
  nextBatch := rfl
  accepted := rfl
  rqs := rfl
  submitted := (List.append_nil _).symm
  others _ _ := rfl
  batch rest k h := by simpa using h
  acct _ := rfl
  owner w := by simp
  woken w h := .inr h
  sorted := by simp
  inflight := by simp

theorem Submits.cons {works : List WorkId} (h : Submits b [work] s s') (h' : Submits b works s' s'') :
    Submits b (work :: works) s s'' where
  workList := h'.workList.trans h.workList
  activeAcctList := h'.activeAcctList.trans h.activeAcctList
  nextBatch := h'.nextBatch.trans h.nextBatch
  accepted := h'.accepted.trans h.accepted
  rqs := h'.rqs.trans h.rqs
  submitted := by rw [h'.submitted, h.submitted, List.append_assoc, List.singleton_append]
  others b' hb' := (h'.others b' hb').trans (h.others b' hb')
  batch rest k hb := by
    rw [h'.batch rest _ (h.batch (works ++ rest) k hb)]
    simp only [List.length_cons, List.length_nil, Option.some.injEq, BatchDesc.mk.injEq, true_and]
    push_cast
    ring
  acct w := (h'.acct w).trans (h.acct w)
  owner w := by
    rw [h'.owner, h.owner]
    by_cases hw : w ∈ works <;> simp [hw]
  woken w hw := by
    rcases h'.woken w hw with hm | hw
    · exact .inl (List.mem_cons_of_mem work hm)
    · rcases h.woken w hw with hm | hw
      · exact .inl (List.mem_singleton.mp hm ▸ List.mem_cons_self ..)
      · exact .inr hw
  sorted := by
    rw [h'.sorted, h.sorted, List.append_assoc, ← List.filterMap_append, List.singleton_append]
  inflight := by
    rw [h'.inflight, h.inflight, add_assoc, ← Nat.cast_add, ← List.length_append,
      ← List.filterMap_append, List.singleton_append]

section

variable (descs : WorkId → Desc) {woken : Bool} (w : WorkId)

theorem owned_acct : (Function.update descs work ⟨(descs work).acct, some b, woken⟩ w).acct =
    (descs w).acct := by
  by_cases hw : w = work <;> simp [hw]

theorem owned_owner : (Function.update descs work ⟨(descs work).acct, some b, woken⟩ w).ownerBatch =
    if w ∈ [work] then some b else (descs w).ownerBatch := by
  by_cases hw : w = work <;> simp [hw]

theorem owned_woken {d : Desc} (h : (Function.update descs work d w).woken = true) :
    w ∈ [work] ∨ (descs w).woken = true := by
  by_cases hw : w = work
  · exact .inl (List.mem_singleton.mpr hw)
  · rw [Function.update_of_ne hw] at h
    exact .inr h

end

theorem submitCall_submits (h : work.request = none) : Submits b [work] s (submitCall b s work) where
  workList := rfl
  activeAcctList := rfl
  nextBatch := rfl
  accepted := rfl
  rqs := rfl
  submitted := rfl
  others b' hb' := by simp [submitCall, unlinkWork, State.setBatch, State.setDesc, hb']
  batch rest k hb := by simp [submitCall, unlinkWork, State.setBatch, State.setDesc, hb]
  acct w := owned_acct s.descs w
  owner w := owned_owner s.descs w
  woken w := owned_woken s.descs w
  sorted := by simp [submitCall, unlinkWork, State.setBatch, State.setDesc, h]
  inflight := by simp [submitCall, unlinkWork, State.setBatch, State.setDesc, h]

theorem submitRead_submits {rq : Nat} (h : submitRead P b s rq = some s') :
    Submits b [.req rq] s s' := by
  simp only [submitRead] at h
  split at h
  · cases h
  · rename_i t ht
    cases h
    have hc := afqAccountRequest2_charges ht
    exact
      { workList := hc.workList
        activeAcctList := hc.activeAcctList
        nextBatch := hc.nextBatch
        accepted := hc.accepted
        rqs := hc.rqs
        submitted := by
          show t.submitted ++ [WorkId.req rq] = _
          rw [hc.submitted]
          rfl
        others := fun b' hb' => by
          show Function.update t.batches b _ b' = _
          rw [Function.update_of_ne hb', hc.batches]
          rfl
        batch := fun rest k hb => by
          have hb' : t.batches b = some ⟨.req rq :: rest, k⟩ := by rw [hc.batches]; exact hb
          simp [elvDispatchSort, unlinkWork, State.setBatch, hb']
        acct := fun w => by
          show (t.descs w).acct = _
          rw [hc.descs]
          exact owned_acct s.descs w
        owner := fun w => by
          show (t.descs w).ownerBatch = _
          rw [hc.descs]
          exact owned_owner s.descs w
        woken := fun w hw => by
          have hw' : (t.descs w).woken = true := hw
          rw [hc.descs] at hw'
          exact owned_woken s.descs w hw'
        sorted := by
          show t.sorted ++ [rq] = _
          rw [hc.sorted]
          rfl
        inflight := hc.inflight }

theorem submitWork_submits (hr : ∀ rq, work = .req rq → (s.mem.rqs rq).write = false)
    (h : submitWork P b s work = some s') : Submits b [work] s s' := by
  cases work with
  | write n => cases h; exact submitCall_submits rfl
  | fsync n => cases h; exact submitCall_submits rfl
  | mkdir n => cases h; exact submitCall_submits rfl
  | req rq =>
    simp only [submitWork, workType, hr rq rfl, Bool.false_eq_true, if_false] at h
    exact submitRead_submits h

theorem submitLoop_submits (works : List WorkId) : ∀ {s s' : State},
    (∀ rq, .req rq ∈ works → (s.mem.rqs rq).write = false) →
    works.foldlM (submitWork P b) s = some s' → Submits b works s s' := by
  induction works with
  | nil =>
    intro s s' _ h
    cases h
    exact .nil b s
  | cons work works ih =>
    intro s s' hr h
    rw [List.foldlM_cons] at h
    obtain ⟨t, ht, h⟩ := Option.bind_eq_some_iff.mp h
    have hhead := submitWork_submits (fun rq e => hr rq (e ▸ List.mem_cons_self ..)) ht
    refine hhead.cons (ih (fun rq hrq => ?_) h)
    rw [hhead.rqs]
    exact hr rq (List.mem_cons_of_mem work hrq)

/-- Under the invariant the work of a batch is made of system calls and reads, and all of it is
submitted. -/
theorem basicSchedSubmitIoWork_submits {works : List WorkId} {k : Int} (hp : Pending s)
    (hb : s.batches b = some ⟨works, k⟩) (h : basicSchedSubmitIoWork P s b = some s') :
    Submits b works s s' := by
  simp only [basicSchedSubmitIoWork, hb] at h
  obtain ⟨t, ht, rfl⟩ := Option.map_eq_some_iff.mp h
  have hsub : Submits b works s t := by
    refine submitLoop_submits works (fun rq hrq => hp.reads rq ?_) ht
    refine (hp.placed.all _).mpr ⟨.batch b, ?_⟩
    simpa [State.place, State.batchWork, hb] using hrq
  exact ⟨hsub.workList, hsub.activeAcctList, hsub.nextBatch, hsub.accepted, hsub.rqs, hsub.submitted,
    hsub.others, hsub.batch, hsub.acct, hsub.owner, hsub.woken, hsub.sorted, hsub.inflight⟩

theorem Pending.submit {works : List WorkId} {k : Int} (h : Pending s)
    (hb : s.batches b = some ⟨works, k⟩) (hs : Submits b works s s') : Pending s' where
  nodup := hs.activeAcctList ▸ h.nodup
  active id := by
    rw [hs.activeAcctList, hs.workList]
    exact h.active id
  placed := by
    have hb' := hs.batch [] k (by rw [List.append_nil]; exact hb)
    rw [hs.accepted]
    refine h.placed.move (i := .batch b) (j := .submitted) works [] (by simp)
      (by simp [State.place, State.batchWork, hb]) fun j => ?_
    cases j with
    | acct id => simp [State.place, hs.workList]
    | batch b' =>
      rcases eq_or_ne b' b with rfl | hne
      · simp [State.place, State.batchWork, hb']
      · simp [State.place, State.batchWork, hs.others b' hne, hne]
    | submitted => simp [State.place, hs.submitted]
  home id work hw := by
    rw [hs.acct]
    exact h.home id work (hs.workList ▸ hw)
  fresh b' hb' := by
    have hold := h.fresh b' (hs.nextBatch ▸ hb')
    rw [hs.others b' fun e => by rw [e, hb] at hold; cases hold]
    exact hold
  reads rq hrq := by
    rw [hs.rqs]
    exact h.reads rq (hs.accepted ▸ hrq)

end Afq
end SplitSched
