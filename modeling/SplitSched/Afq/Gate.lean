import SplitSched.Afq.Inflight
import SplitSched.Afq.HookTouches

/-!
# SplitSched.Afq.Gate

When the AFQ scheduler lets a new batch out. `keep_wait` is one flag for all batches: a submission
closes it, `batch_wait_timer` opens it half, and the last return of a batch opens it.

* `Touches.batching`: what a hook touches is not `keep_wait`, nor the record of what was submitted. Only
  submission, the timer and the return hooks change these (`step_batching`).
* `step_returns`: what a return hook does to the flag.
* `allow_new_batch_iff`: the flag allows a new batch only when every batch has completed, along
  exactly the runs in which no batch ends before another that is out.
-/

namespace SplitSched
namespace Afq

variable {P : Platform} {w w' : World} {s s' : State} {work : WorkId} {acct : Int} {b : Nat}

/-! ## What leaves the gate alone -/

theorem updateActiveMin_batching (P : Platform) (s : State) :
    (updateActiveMin P s).batching = s.batching := by
  simp only [updateActiveMin]
  split <;> rfl

theorem addVioCounter_batching (P : Platform) (s : State) (acct : Int) :
    (addVioCounter P s acct).batching = s.batching := by
  simp only [addVioCounter]
  split_ifs
  · exact updateActiveMin_batching P _
  · exact updateActiveMin_batching P _
  · rfl
  · rfl

theorem Touch.batching {sets : String → Int → Prop} (h : Touch P sets false s s') :
    s'.batching = s.batching := by
  cases h with
  | still h => exact h.batching rfl
  | charge acct => exact addVioCounter_batching P s acct
  | refresh => exact updateActiveMin_batching P s
  | wake acct => rfl
  | serve acct rq =>
    simp only [afqAccoutPosSeqUpdate]
    split
    · rfl
    · split <;> rfl
  | count l =>
    simp only [sizeStatItem]
    split_ifs <;> rfl
  | set id h => rfl

theorem Touches.batching {sets : String → Int → Prop} (h : Touches P sets false s s') :
    s'.batching = s.batching :=
  h.keep (I := fun t => t.batching = s.batching) (fun _ _ ht hb => ht.batching.trans hb) rfl

/-! ## Selection -/

section Selection

variable {β : Type} {g : State → β}

/-- What selection does not write, it keeps. -/
def SelectionBlind (g : State → β) : Prop :=
  ∀ s accounts active served vio batches, g { s with
    accounts := accounts, activeAcctList := active, lastServedAcct := served,
    globalMinVioCounter := vio, batches := batches } = g s

theorem moveWork_keeps (hg : SelectionBlind g) (s : State) (b n : Nat) (acct : Int) :
    g (moveWork s b n acct).2 = g s := by
  simp only [moveWork]
  split <;> exact hg s _ _ _ _ _

theorem addIoWork_keeps (hg : SelectionBlind g) (b n : Nat) (more : Bool) (s : State) :
    g (addIoWork P b n more s).2 = g s := by
  fun_induction addIoWork P b n more s with
  | case1 => rfl
  | case2 n more s => exact hg s _ _ _ _ _
  | case3 n more s => exact hg s _ _ _ _ _
  | case4 n more s vio acct hmin s₁ hno r hwants ih =>
    exact ih.trans ((moveWork_keeps hg s₁ b n acct).trans (hg s _ _ _ _ _))
  | case5 n more s vio acct hmin s₁ =>
    exact (moveWork_keeps hg s₁ b n acct).trans (hg s _ _ _ _ _)

theorem basicSchedSelectIoWork_keeps (hg : SelectionBlind g)
    (hn : ∀ s n, g { s with nextBatch := n, env := s.env.kmalloc.2 } = g s) (P : Platform)
    (s : State) : g (basicSchedSelectIoWork P s).2 = g s := by
  simp only [basicSchedSelectIoWork]
  split
  · rfl
  split
  · rfl
  split
  · exact hn s s.nextBatch
  have hs₁ : g { s.setBatch s.nextBatch (some ⟨[], 0⟩) with
      nextBatch := s.nextBatch + 1, env := s.env.kmalloc.2 } = g s :=
    (hn (s.setBatch s.nextBatch (some ⟨[], 0⟩)) _).trans (hg s _ _ _ _ _)
  generalize ({ s.setBatch s.nextBatch (some ⟨[], 0⟩) with
    nextBatch := s.nextBatch + 1, env := s.env.kmalloc.2 } : State) = s₁ at hs₁
  split
  · exact (addIoWork_keeps hg _ _ _ _).trans hs₁
  · rename_i acct hacct
    have hmove := (moveWork_keeps hg s₁ s.nextBatch 0 acct).trans hs₁
    split
    · exact (hg s₁ _ _ _ _ _).trans hs₁
    · split
      · exact (addIoWork_keeps hg _ _ _ _).trans hmove
      · exact hmove

theorem basicSchedSelectIoWork_plenty (P : Platform) (hm : s.env.Plenty) :
    (basicSchedSelectIoWork P s).2.env.Plenty := by
  have h : (basicSchedSelectIoWork P s).2.env.memory = s.env.memory :=
    basicSchedSelectIoWork_keeps (g := fun s => s.env.memory) (fun _ _ _ _ _ _ => rfl)
      (fun _ _ => rfl) P s
  intro n
  rw [h]
  exact hm n

end Selection

/-! ## The flag along a run -/

/-- The unit of work that returns with an event, and whether the scheduler is still installed. -/
def Event.returns : Event → Option (WorkId × Bool)
  | .complete rq => some (.req rq, true)
  | .writeReturn n current => some (.write n, current)
  | .mkdirReturn n current => some (.mkdir n, current)
  | .fsyncReturn n current => some (.fsync n, current)
  | _ => none

theorem basicSchedSubmitIoWork_closes (h : basicSchedSubmitIoWork P s b = some s') :
    s'.keepWait = .noNewBatch := by
  simp only [basicSchedSubmitIoWork] at h
  split at h
  · cases h
  · obtain ⟨t, -, rfl⟩ := Option.map_eq_some_iff.mp h
    rfl

/-- Only a return hook adds to the record of returns. -/
theorem step_returned {e : Event} (h : step P w e = some w') (he : e.returns = none) :
    w'.returned = w.returned := by
  have henter : ∀ {work : WorkId} {r : Entry × State}, w.enter work r = some w' →
      w'.returned = w.returned := by
    intro work r hw
    simp only [World.enter] at hw
    split at hw
    · cases hw
    · cases hw
      rfl
  cases e with
  | add rq cur =>
    obtain ⟨-, t, -, rfl⟩ := step_add_cases h
    rfl
  | writeEntry n cur direct uniq => exact henter h
  | mkdirEntry n cur uniq => exact henter h
  | fsyncEntry n cur uniq => exact henter h
  | select =>
    cases h
    simp only [World.select]
    split <;> rfl
  | submit b => obtain ⟨-, ⟨-, rfl⟩ | ⟨t, -, rfl⟩⟩ := step_submit_cases h <;> rfl
  | dispatch => obtain ⟨t, ht, rfl⟩ := Option.map_eq_some_iff.mp h; rfl
  | complete rq => cases he
  | writeReturn n current => cases he
  | mkdirReturn n current => cases he
  | fsyncReturn n current => cases he
  | kvSet id key val => cases h; rfl
  | dirty q l task bSize inode pos => obtain ⟨t, ht, rfl⟩ := Option.map_eq_some_iff.mp h; rfl
  | free l => obtain ⟨t, ht, rfl⟩ := Option.map_eq_some_iff.mp h; rfl
  | waitTimer => cases h; rfl
  | deadTimer => cases h; rfl
  | updateMin => cases h; rfl
  | kernel m => cases h; rfl

/-- Unless work returns, an event leaves the flag and the batches that are out alone, or leaves the
flag closed. -/
theorem step_batching {e : Event} (h : step P w e = some w') (he : e.returns = none) :
    (w'.afq.batching = w.afq.batching ∧ w'.returned = w.returned) ∨
      w'.afq.keepWait ≠ .allowNewBatch := by
  have hret := step_returned h he
  cases hg : e.gates with
  | false =>
    have ht := step_touches h
    rw [hg] at ht
    exact .inl ⟨ht.batching, hret⟩
  | true =>
    -- submission and the timer are left
    cases e with
    | submit b =>
      obtain ⟨-, ⟨-, rfl⟩ | ⟨t, ht, rfl⟩⟩ := step_submit_cases h
      · exact .inl ⟨rfl, rfl⟩
      · right
        simp [basicSchedSubmitIoWork_closes ht]
    | dispatch =>
      obtain ⟨r, hr, rfl⟩ := Option.map_eq_some_iff.mp h
      simp only [basicSchedDispatch] at hr
      split at hr
      · cases hr
        exact .inl ⟨rfl, rfl⟩
      · split at hr
        · obtain ⟨t, ht, rfl⟩ := Option.map_eq_some_iff.mp hr
          right
          simp [basicSchedSubmitIoWork_closes ht]
        · cases hr
          have hsel : Touches P (fun _ _ => False) false w.afq (basicSchedSelectIoWork P w.afq).2 :=
            basicSchedSelectIoWork_touches P w.afq
          exact .inl ⟨hsel.batching, rfl⟩
    | waitTimer =>
      cases h
      by_cases hk : w.afq.keepWait = .noNewBatch
      · exact .inr (by simp [newBatchWaitTimerFunc, hk])
      · exact .inl (by simp [newBatchWaitTimerFunc, hk, State.batching])
    | _ => simp [Event.gates, Event.returns] at hg he

/-- A unit of work keeps the batch it was submitted with. -/
theorem change_owner {straight : Bool} (hc : Change P straight w w') (h : Sound w)
    (hw : work ∈ w.afq.submitted) :
    work ∈ w'.afq.submitted ∧ (w'.afq.descs work).ownerBatch = (w.afq.descs work).ownerBatch := by
  have hacc := h.pending.submitted_accepted hw
  have h' := change_sound hc h
  cases hc with
  | quiet hq => exact ⟨hq.submitted ▸ hw, by rw [hq.descs]⟩
  | @block new acct hnew hcall hk =>
    have hne : work ≠ new := by
      rintro rfl
      exact hnew hacc
    have ha := addIoWorkToAcct_accepts (P := P) new
      (s := (w.afq.setDesc new .fresh).setAcct new (some acct)) hk
    refine ⟨ha.submitted ▸ hw, ?_⟩
    rw [ha.descs]
    simp [State.setAcct, State.setDesc, hne]
  | @queue rq acct hnew hread hk =>
    have ha := addIoWorkToAcct_accepts (P := P) (.req rq)
      (s := w.afq.setAcct (.req rq) (some acct)) hk
    refine ⟨ha.submitted ▸ hw, ?_⟩
    rw [ha.descs]
    by_cases hne : work = .req rq <;> simp [State.setAcct, State.setDesc, hne]
  | issue hnew hwrite hq => exact ⟨hq.submitted ▸ hw, by simp only [elvDispatchSort, hq.descs]⟩
  | @pass rq acct hnew hs =>
    refine ⟨hw, ?_⟩
    by_cases hne : work = .req rq <;> simp [elvDispatchSort, State.setAcct, State.setDesc, hne]
  | select =>
    have hs := (basicSchedSelectIoWork_spec P h.pending).1
    simp only [World.select]
    split <;> exact ⟨hs.submitted ▸ hw, by simp only [hs.descs]⟩
  | @submit b s hb hsub =>
    obtain ⟨⟨works, -, hd⟩, -⟩ := h.counted.selected b hb
    have hs := basicSchedSubmitIoWork_submits h.pending hd hsub
    refine ⟨?_, ?_⟩
    · simp only [hs.submitted]
      exact List.mem_append_left works hw
    · simp only [hs.owner]
      exact if_neg fun hin => (h.pending.batch_accepted hd hin).2 hw
  | dangling => exact ⟨hw, rfl⟩
  | complete =>
    obtain ⟨s', hs'⟩ := finish_some h'
    have hf := basicSchedComplteRequest_frame hs'
    simp only [hs', World.finish]
    exact ⟨hf.submitted ▸ hw, by rw [hf.descs]⟩
  | wake =>
    obtain ⟨s', hs'⟩ := finish_some h'
    have hf := schedReturn_frame hs'
    simp only [hs', World.finish]
    exact ⟨hf.submitted ▸ hw, by rw [hf.descs]⟩

theorem step_members {e : Event} (hs : step P w e = some w') (h : Sound w)
    (hsub : w'.afq.submitted = w.afq.submitted) (b : Nat) : w'.members b = w.members b := by
  refine members_congr hsub (fun work hw => ?_) b
  have hI := Changes.keep (I := fun v => Sound v ∧ (work ∈ v.afq.submitted ∧
    (v.afq.descs work).ownerBatch = (w.afq.descs work).ownerBatch)) (fun v v' hc hv =>
      ⟨change_sound hc hv.1, (change_owner hc hv.1 hv.2.1).1,
        (change_owner hc hv.1 hv.2.1).2.trans hv.2.2⟩) (step_changes hs) ⟨h, hw, rfl⟩
  exact hI.2.2

/-- The last return of a batch opens the gate, no other return does. -/
theorem Sound.decCheckCleanupBatch_gate {current : Bool} (h : Sound w)
    (hown : (w.afq.descs work).ownerBatch = some b) (hr : work ∉ w.returned)
    (hb : s.batches = w.afq.batches) (hdec : decCheckCleanupBatch s current b = some s') :
    s'.keepWait = if current = true ∧ w.unreturned b = [work] then .allowNewBatch
      else s.keepWait := by
  obtain ⟨hmem, -, hlive⟩ := h.owned_live hown hr
  have hone : (w.unreturned b).length = 1 ↔ w.unreturned b = [work] := by
    rw [List.length_eq_one_iff]
    refine ⟨?_, fun e => ⟨work, e⟩⟩
    rintro ⟨x, hx⟩
    rw [hx] at hmem ⊢
    rw [List.mem_singleton.mp hmem]
  simp only [decCheckCleanupBatch, hb, hlive] at hdec
  split at hdec
  · rename_i hz
    have hlast := hone.mp (by omega)
    cases hdec
    cases current <;> simp [hlast, State.setBatch]
  · rename_i hz
    have hlast : w.unreturned b ≠ [work] := fun e => hz (by simp [e])
    cases hdec
    simp [hlast, State.setBatch]

/-- What a return hook does, in a sound world: one more unit is back, and the gate opens if it was
the last of its batch. -/
structure Returns (work : WorkId) (current : Bool) (w w' : World) : Prop where
  notYet : work ∉ w.returned
  returned : w'.returned = w.returned ++ [work]
  submitted : w'.afq.submitted = w.afq.submitted
  opens : ∀ b, current = true → w.unreturned b = [work] → w'.afq.keepWait = .allowNewBatch
  opened : w'.afq.keepWait = w.afq.keepWait ∨ current = true ∧ ∃ b, w.unreturned b = [work]

theorem Returns.of_finish {current : Bool} (hr : work ∉ w.returned)
    (hsub : s.submitted = w.afq.submitted)
    (hnone : (w.afq.descs work).ownerBatch = none → s.keepWait = w.afq.keepWait)
    (hsome : ∀ b, (w.afq.descs work).ownerBatch = some b → s.keepWait =
      if current = true ∧ w.unreturned b = [work] then .allowNewBatch else w.afq.keepWait) :
    Returns work current w (w.finish work (some s)) where
  notYet := hr
  returned := rfl
  submitted := hsub
  opens b hc hb := by
    have hmem : work ∈ w.unreturned b := hb ▸ List.mem_singleton_self work
    have hown := (mem_members.mp (mem_outstanding.mp hmem).1).2
    show s.keepWait = _
    rw [hsome b hown, if_pos ⟨hc, hb⟩]
  opened := by
    show s.keepWait = _ ∨ _
    cases hown : (w.afq.descs work).ownerBatch with
    | none => exact .inl (hnone hown)
    | some b =>
      rw [hsome b hown]
      split
      · rename_i hlast
        exact .inr ⟨hlast.1, b, hlast.2⟩
      · exact .inl rfl

theorem leave_returns {current : Bool} (P : Platform) (h : Sound w) (hcall : work.request = none)
    (hs : w.leave work (schedReturn w.afq work current) = some w') : Returns work current w w' := by
  simp only [World.leave] at hs
  split at hs
  · rename_i hw
    cases hs
    have hc : Change P false w (w.finish work (schedReturn w.afq work current)) :=
      .wake hcall hw.1 hw.2
    obtain ⟨s', hs'⟩ := finish_some (change_sound hc h)
    rw [hs']
    refine .of_finish hw.2 (schedReturn_frame hs').submitted (fun hown => ?_) fun b hown => ?_
    · simp [schedReturn, hown] at hs'
    · simp only [schedReturn, hown] at hs'
      exact h.decCheckCleanupBatch_gate hown hw.2 rfl hs'
  · cases hs

theorem step_returns {e : Event} {current : Bool} (hs : step P w e = some w')
    (he : e.returns = some (work, current)) (h : Sound w) : Returns work current w w' := by
  cases e with
  | complete rq =>
    cases he
    simp only [step] at hs
    split at hs
    · rename_i hc
      cases hs
      have hch : Change P false w (w.finish (.req rq) (basicSchedComplteRequest w.afq rq)) :=
        .complete hc.1 hc.2
      obtain ⟨s', hs'⟩ := finish_some (change_sound hch h)
      rw [hs']
      refine .of_finish hc.2 (basicSchedComplteRequest_frame hs').submitted (fun hown => ?_)
        fun b hown => ?_
      · simp only [basicSchedComplteRequest, hown, Option.some.injEq] at hs'
        rw [← hs']
      · simp only [basicSchedComplteRequest, hown] at hs'
        exact h.decCheckCleanupBatch_gate
          (s := { w.afq with inflight := w.afq.inflight - 1 }) hown hc.2 rfl hs'
    · cases hs
  | writeReturn n current => cases he; exact leave_returns P h rfl hs
  | mkdirReturn n current => cases he; exact leave_returns P h rfl hs
  | fsyncReturn n current => cases he; exact leave_returns P h rfl hs
  | _ => cases he

/-! ## A new batch is allowed -/

namespace World

/-- All the work of the batch has returned. -/
def Completed (w : World) (b : Nat) : Prop := ∀ work ∈ w.members b, work ∈ w.returned

/-- The flag allows a new batch only if every batch submitted so far has completed. -/
def AllowsWhenIdle (w : World) : Prop :=
  w.afq.keepWait = .allowNewBatch → ∀ b, w.Completed b

/-- If the event is the last return of a batch, and the scheduler hears of it, then all other batches
have completed. -/
def EndsAlone (w : World) (e : Event) : Prop :=
  ∀ work b, e.returns = some (work, true) → w.unreturned b = [work] → ∀ b' ≠ b, w.Completed b'

theorem completed_iff {w : World} {b : Nat} : w.Completed b ↔ w.unreturned b = [] :=
  outstanding_eq_nil.symm

theorem Completed.congr {w w' : World} {b : Nat} (h : w.Completed b)
    (hm : w'.members b = w.members b) (hr : ∀ work ∈ w.returned, work ∈ w'.returned) :
    w'.Completed b := by
  intro work hw
  exact hr work (h work (hm ▸ hw))

end World

/-- A return that meets the condition opens the gate only when nothing is out. -/
theorem Returns.allowsWhenIdle {current : Bool} (hr : Returns work current w w')
    (hm : ∀ b, w'.members b = w.members b)
    (hc : current = true → ∀ b, w.unreturned b = [work] → ∀ b' ≠ b, w.Completed b')
    (hI : w.AllowsWhenIdle) : w'.AllowsWhenIdle := by
  intro hk b
  have hback : ∀ x ∈ w.returned, x ∈ w'.returned := fun x hx => by
    rw [hr.returned]
    exact List.mem_append_left _ hx
  rcases hr.opened with hkeep | ⟨hcur, b₀, hlast⟩
  · exact (hI (hkeep ▸ hk) b).congr (hm b) hback
  · rcases eq_or_ne b b₀ with rfl | hne
    · rw [World.completed_iff, World.unreturned, hm, hr.returned, outstanding_back,
        ← World.unreturned, hlast]
      simp
    · exact (hc hcur b₀ hlast b hne).congr (hm b) hback

/-- A return that does not meet it opens the gate although a batch is out. -/
theorem Returns.not_allowsWhenIdle {b' : Nat} (hr : Returns work true w w')
    (hm : ∀ b, w'.members b = w.members b) (hlast : w.unreturned b = [work]) (hne : b' ≠ b)
    (hout : ¬ w.Completed b') : ¬ w'.AllowsWhenIdle := by
  intro hI
  have hdone := hI (hr.opens b rfl hlast) b'
  refine hout fun x hx => ?_
  have hx' := hdone x (hm b' ▸ hx)
  rw [hr.returned, List.mem_append, List.mem_singleton] at hx'
  rcases hx' with hx' | rfl
  · exact hx'
  · -- the unit that returned belongs to the other batch
    have hmem : x ∈ w.unreturned b := hlast ▸ List.mem_singleton_self x
    have hown := (mem_members.mp (mem_outstanding.mp hmem).1).2
    exact absurd (Option.some.inj ((mem_members.mp hx).2.symm.trans hown)) hne

theorem step_allowsWhenIdle {e : Event} (hs : step P w e = some w') (hc : w.EndsAlone e)
    (h : Sound w) (hI : w.AllowsWhenIdle) : w'.AllowsWhenIdle := by
  cases he : e.returns with
  | none =>
    rcases step_batching hs he with ⟨hb, hr⟩ | hk
    · obtain ⟨hkeep, hsub⟩ := Prod.mk.inj hb
      intro hk b
      exact (hI (hkeep ▸ hk) b).congr (step_members hs h hsub b) fun _ hx => hr ▸ hx
    · exact fun hk' => absurd hk' hk
  | some r =>
    obtain ⟨work, current⟩ := r
    have hr := step_returns hs he h
    refine hr.allowsWhenIdle (step_members hs h hr.submitted) ?_ hI
    rintro rfl b hlast
    exact hc work b he hlast

/-- Along a run of a fresh instance `keep_wait` allows a new batch only when all batches have
completed, exactly when no batch ends while another has work that has not returned. -/
theorem allow_new_batch_iff (P : Platform) (m : Mem) (env : Env) (s : State) (es : List Event)
    (w : World) (h0 : basicSchedInitData P m env = some s)
    (hr : run (step P) (World.init s) es = some w) :
    Always (step P) World.AllowsWhenIdle (World.init s) es ↔
      Meets (step P) World.EndsAlone (World.init s) es := by
  refine always_iff_meets (I := fun w => Sound w ∧ w.AllowsWhenIdle) ?_ (fun _ h => h.2) ?_ hr
    ⟨init_sound h0, fun _ b work hw => ?_⟩
  · intro w e w' hs hc hI
    exact ⟨Changes.keep (fun _ _ => change_sound) (step_changes hs) hI.1,
      step_allowsWhenIdle hs hc hI.1 hI.2⟩
  · intro w e w' hs hc hI
    simp only [World.EndsAlone, not_forall] at hc
    obtain ⟨work, b, he, hlast, b', hne, hout⟩ := hc
    have hr := step_returns hs he hI.1
    exact hr.not_allowsWhenIdle (step_members hs hI.1 hr.submitted) hlast hne hout
  · have hsub : s.submitted = [] := by
      simp only [basicSchedInitData] at h0
      split at h0
      · cases h0
        rfl
      · cases h0
    simp [World.members, World.init, hsub] at hw

/-- Two reads are dispatched one after the other, each when the one before is back. -/
theorem allow_new_batch_two_reads :
    ∃ s w, basicSchedInitData .lp64 sampleMem sampleEnv = some s ∧
      run (step .lp64) (World.init s)
        [.add 0 7, .dispatch, .complete 0, .add 1 7, .dispatch, .complete 1] = some w ∧
      (Always (step .lp64) World.AllowsWhenIdle (World.init s)
          [.add 0 7, .dispatch, .complete 0, .add 1 7, .dispatch, .complete 1] ↔
        Meets (step .lp64) World.EndsAlone (World.init s)
          [.add 0 7, .dispatch, .complete 0, .add 1 7, .dispatch, .complete 1]) := by
  have h : ((basicSchedInitData .lp64 sampleMem sampleEnv).bind fun s =>
      run (step .lp64) (World.init s)
        [.add 0 7, .dispatch, .complete 0, .add 1 7, .dispatch, .complete 1]).isSome = true := by
    decide +kernel
  obtain ⟨w, hw⟩ := Option.isSome_iff_exists.mp h
  obtain ⟨s, hs, hr⟩ := Option.bind_eq_some_iff.mp hw
  exact ⟨s, w, hs, hr, allow_new_batch_iff .lp64 sampleMem sampleEnv s _ w hs hr⟩

/-- The timer lets a second batch out before the first is back. When the first returns, the flag
allows a new batch although the second is still out. -/
theorem allowed_while_second_batch_is_out :
    ∃ s w, basicSchedInitData .lp64 sampleMem sampleEnv = some s ∧
      run (step .lp64) (World.init s)
        [.add 0 7, .dispatch, .waitTimer, .add 1 7, .dispatch, .complete 0] = some w ∧
      w.afq.keepWait = .allowNewBatch ∧ w.unreturned 1 = [.req 1] ∧ ¬ w.AllowsWhenIdle := by
  have h : ((basicSchedInitData .lp64 sampleMem sampleEnv).bind fun s =>
      run (step .lp64) (World.init s)
        [.add 0 7, .dispatch, .waitTimer, .add 1 7, .dispatch, .complete 0]).any (fun w =>
          decide (w.afq.keepWait = .allowNewBatch ∧ w.unreturned 1 = [.req 1])) = true := by
    decide +kernel
  obtain ⟨w, hw, hbad⟩ := (Option.any_eq_true _ _).mp h
  obtain ⟨s, hs, hr⟩ := Option.bind_eq_some_iff.mp hw
  obtain ⟨hk, hout⟩ := of_decide_eq_true hbad
  refine ⟨s, w, hs, hr, hk, hout, fun hI => ?_⟩
  have hdone := World.completed_iff.mp (hI hk 1)
  rw [hout] at hdone
  cases hdone

end Afq
end SplitSched
