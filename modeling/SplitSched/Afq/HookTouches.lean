import SplitSched.Afq.Touches
import SplitSched.Afq.Machine

/-!
# SplitSched.Afq.HookTouches

The hooks of the AFQ scheduler as sequences of touches: `step_touches` says that an event sets only what
it is told to set, and that few events move the gate.
-/

namespace SplitSched
namespace Afq

/-- What an event sets through the control device. -/
def Event.sets : Event → String → Int → Prop
  | .kvSet _ key val => fun key' val' => key' = key ∧ val' = val
  | _ => fun _ _ => False

/-- The events that can open or close the gate. -/
def Event.gates : Event → Bool
  | .submit _ => true
  | .dispatch => true
  | .complete _ => true
  | .writeReturn _ _ => true
  | .mkdirReturn _ _ => true
  | .fsyncReturn _ _ => true
  | .waitTimer => true
  | _ => false

theorem Event.eq_kvSet_of_sets {e : Event} {key : String} {val : Int} (h : e.sets key val) :
    ∃ id, e = .kvSet id key val := by
  cases e with
  | kvSet id key' val' =>
    obtain ⟨rfl, rfl⟩ := h
    exact ⟨id, rfl⟩
  | _ => exact False.elim h

variable {P : Platform} {sets : String → Int → Prop} {gates : Bool} {s s' : State}

/-! ## Insertion -/

theorem causeListSizeStat2_touches (s : State) (rq : Nat) :
    Touches P sets gates s (causeListSizeStat2 s rq) := by
  simp only [causeListSizeStat2]
  split
  · exact .of_foldl (fun s l => .single (.count s l)) _ s
  · exact .refl

theorem tagRequest_still (s : State) (rq : Nat) (cur : Int) :
    Still gates s (tagRequest s rq cur) := by
  simp only [tagRequest]
  split <;> exact ⟨rfl, rfl, rfl, fun _ => rfl⟩

theorem addIoWorkToAcct_touches (P : Platform) (s : State) (work : WorkId) (acct : Int) :
    Touches P sets gates s (addIoWorkToAcct P s work acct) := by
  have hactive : Touches P sets gates s (if acctNoPendingIo s acct then activate P s acct else s) := by
    split
    · exact .single (.wake s acct)
    · exact .refl
  refine hactive.then_still ?_
  exact ⟨Registry.val_modify_keep fun _ => rfl, rfl, rfl, fun _ => rfl⟩

theorem basicSchedAddRequest_touches {rq : Nat} {cur : Int}
    (h : basicSchedAddRequest P s rq cur = some s') : Touches P sets gates s s' := by
  have ht : Touches P sets gates s (tagRequest (causeListSizeStat2 s rq) rq cur) :=
    (causeListSizeStat2_touches s rq).then_still (tagRequest_still _ rq cur)
  simp only [basicSchedAddRequest] at h
  generalize tagRequest (causeListSizeStat2 s rq) rq cur = t at h ht
  have hg := ht.trans (getAccount_touches P t cur)
  -- which account is found or created does not matter any more
  generalize getAccount P t cur = r at h hg
  split at h
  · split at h
    · cases h
    · rename_i u hu
      cases h
      have haccount : Touches P sets gates t u :=
        (afqAccountRequest2_touches hu).after_still ⟨rfl, rfl, rfl, fun _ => rfl⟩
      exact (ht.trans haccount).then_still ⟨rfl, rfl, rfl, fun _ => rfl⟩
  · split at h
    · cases h
      exact hg.then_still ⟨rfl, rfl, rfl, fun _ => rfl⟩
    · split at h
      · cases h
        exact hg.trans ((addIoWorkToAcct_touches P _ _ _).after_still ⟨rfl, rfl, rfl, fun _ => rfl⟩)
      · cases h
        exact hg.then_still ⟨rfl, rfl, rfl, fun _ => rfl⟩

theorem callerAccount_touches (P : Platform) (s : State) (cur : Int) :
    Touches P sets gates s (callerAccount P s cur).2 := by
  have hg : Touches P sets gates s (getAccount P s cur).2 := getAccount_touches P s cur
  simp only [callerAccount]
  generalize getAccount P s cur = r at hg ⊢
  split
  · exact hg
  · split
    · exact hg.then_still ⟨rfl, rfl, rfl, fun _ => rfl⟩
    · exact hg

theorem blockCaller_touches (P : Platform) (s : State) (work : WorkId) (acct : Int) :
    Touches P sets gates s (blockCaller P s work acct).2 := by
  simp only [blockCaller]
  split
  · exact (addIoWorkToAcct_touches P _ work acct).after_still ⟨rfl, rfl, rfl, fun _ => rfl⟩
  · exact .of_still ⟨rfl, rfl, rfl, fun _ => rfl⟩

theorem basicSchedWriteEntry_touches (P : Platform) (s : State) (n : Nat) (cur : Int) (direct : Bool)
    (uniq : Int) : Touches P sets gates s (basicSchedWriteEntry P s n cur direct uniq).2 := by
  have hc : Touches P sets gates s (callerAccount P s cur).2 := callerAccount_touches P s cur
  simp only [basicSchedWriteEntry]
  split
  · exact .refl
  split
  · exact hc
  rename_i acct hacct
  split
  · exact hc
  · have hcall : Touches P sets gates s ((callerAccount P s cur).2.modifyAccount acct fun a =>
        { a with numWriteCall := a.numWriteCall + 1 }) := hc.trans (.of_modify fun _ => rfl)
    split
    · exact hcall.trans (.of_modify fun _ => rfl)
    · refine Touches.trans (hcall.trans ?_) (blockCaller_touches P _ _ acct)
      exact .of_modify fun _ => rfl

theorem basicSchedMkdirEntry_touches (P : Platform) (s : State) (n : Nat) (cur uniq : Int) :
    Touches P sets gates s (basicSchedMkdirEntry P s n cur uniq).2 := by
  have hc : Touches P sets gates s (callerAccount P s cur).2 := callerAccount_touches P s cur
  simp only [basicSchedMkdirEntry]
  split
  · exact .refl
  split
  · exact hc
  split
  · exact hc
  split
  · exact hc
  · exact hc.trans (blockCaller_touches P _ _ _)

theorem basicSchedFsyncEntry_touches (P : Platform) (s : State) (n : Nat) (cur uniq : Int) :
    Touches P sets gates s (basicSchedFsyncEntry P s n cur uniq).2 := by
  have hg : Touches P sets gates s (getAccount P { s with env := s.env.kmalloc.2 } cur).2 :=
    (getAccount_touches P { s with env := s.env.kmalloc.2 } cur).after_still ⟨rfl, rfl, rfl, fun _ => rfl⟩
  simp only [basicSchedFsyncEntry]
  generalize getAccount P { s with env := s.env.kmalloc.2 } cur = r at hg ⊢
  split
  · exact .of_still ⟨rfl, rfl, rfl, fun _ => rfl⟩
  split
  · exact .of_still ⟨rfl, rfl, rfl, fun _ => rfl⟩
  split
  · exact hg
  split
  · exact hg
  · exact hg.trans ((addIoWorkToAcct_touches P _ _ _).after_still ⟨rfl, rfl, rfl, fun _ => rfl⟩)

theorem basicKvSetCallback_touches {key : String} {val : Int} (hset : sets key val) (P : Platform)
    (s : State) (id : Int) : Touches P sets gates s (basicKvSetCallback P s id key val) := by
  have hg : Touches P sets gates s (getAccount P s id).2 := getAccount_touches P s id
  simp only [basicKvSetCallback]
  split
  · exact hg
  · exact hg.tail (.set _ _ hset)

/-! ## Selection and submission -/

theorem moveWork_touches (s : State) (b n : Nat) (acct : Int) :
    Touches P sets gates s (moveWork s b n acct).2 := by
  simp only [moveWork]
  split <;> exact .of_still ⟨Registry.val_modify_keep fun _ => rfl, rfl, rfl, fun _ => rfl⟩

theorem beginSlice_still (P : Platform) (s : State) (acct vio : Int) :
    Still gates s (beginSlice P s acct vio) :=
  ⟨Registry.val_modify_keep fun _ => rfl, rfl, rfl, fun _ => rfl⟩

theorem addIoWork_touches (b n : Nat) (more : Bool) (s : State) :
    Touches P sets gates s (addIoWork P b n more s).2 := by
  fun_induction addIoWork P b n more s with
  | case1 => exact .refl
  | case2 => exact .of_still ⟨rfl, rfl, rfl, fun _ => rfl⟩
  | case3 n more s vio acct hmin s₁ =>
    have hslice : Touches P sets gates s s₁ := .of_still (beginSlice_still P s acct vio)
    exact hslice.then_still ⟨rfl, rfl, rfl, fun _ => rfl⟩
  | case4 n more s vio acct hmin s₁ hno r hwants ih =>
    have hslice : Touches P sets gates s s₁ := .of_still (beginSlice_still P s acct vio)
    exact (hslice.trans (moveWork_touches s₁ b n acct)).trans ih
  | case5 n more s vio acct hmin s₁ =>
    have hslice : Touches P sets gates s s₁ := .of_still (beginSlice_still P s acct vio)
    exact hslice.trans (moveWork_touches s₁ b n acct)

theorem basicSchedSelectIoWork_touches (P : Platform) (s : State) :
    Touches P sets gates s (basicSchedSelectIoWork P s).2 := by
  simp only [basicSchedSelectIoWork]
  split
  · exact .refl
  split
  · exact .refl
  split
  · exact .of_still ⟨rfl, rfl, rfl, fun _ => rfl⟩
  have hs₁ : Touches P sets gates s { s.setBatch s.nextBatch (some ⟨[], 0⟩) with
      nextBatch := s.nextBatch + 1, env := s.env.kmalloc.2 } := .of_still ⟨rfl, rfl, rfl, fun _ => rfl⟩
  generalize ({ s.setBatch s.nextBatch (some ⟨[], 0⟩) with
    nextBatch := s.nextBatch + 1, env := s.env.kmalloc.2 } : State) = s₁ at hs₁
  split
  · exact hs₁.trans (addIoWork_touches _ _ _ _)
  · rename_i acct hacct
    have hmove := hs₁.trans (moveWork_touches s₁ s.nextBatch 0 acct)
    split
    · exact hs₁.then_still ⟨rfl, rfl, rfl, fun _ => rfl⟩
    · split
      · exact hmove.trans (addIoWork_touches _ _ _ _)
      · exact hmove

theorem unlinkWork_still (s : State) (b : Nat) (work : WorkId) (counted : Int) :
    Still true s (unlinkWork s b work counted) :=
  .gated rfl rfl rfl

theorem submitCall_touches (b : Nat) (s : State) (work : WorkId) :
    Touches P sets true s (submitCall b s work) :=
  (Touches.of_still (unlinkWork_still _ b work 1)).after_still ⟨rfl, rfl, rfl, fun _ => rfl⟩

/-- Submission closes the gate. -/
theorem basicSchedSubmitIoWork_touches {b : Nat} (h : basicSchedSubmitIoWork P s b = some s') :
    Touches P sets true s s' := by
  have hwork : ∀ (t : State) (work : WorkId) (t' : State), submitWork P b t work = some t' →
      Touches P sets true t t' := by
    intro t work t' ht
    cases work with
    | write n =>
      cases ht
      exact submitCall_touches b t (.write n)
    | fsync n =>
      cases ht
      exact submitCall_touches b t (.fsync n)
    | mkdir n =>
      cases ht
      exact submitCall_touches b t (.mkdir n)
    | req rq =>
      simp only [submitWork] at ht
      split at ht
      · simp only [submitRead] at ht
        split at ht
        · cases ht
        · rename_i u hu
          cases ht
          have haccount : Touches P sets true t u :=
            (afqAccountRequest2_touches hu).after_still ⟨rfl, rfl, rfl, fun _ => rfl⟩
          exact (haccount.then_still (unlinkWork_still u b (.req rq) 1)).then_still
            ⟨rfl, rfl, rfl, fun _ => rfl⟩
      · cases ht
        exact .of_still (unlinkWork_still t b (.req rq) 0)
  simp only [basicSchedSubmitIoWork] at h
  split at h
  · cases h
  · obtain ⟨t, ht, rfl⟩ := Option.map_eq_some_iff.mp h
    exact (Touches.of_foldlM hwork _ ht).then_still (.gated rfl rfl rfl)

theorem basicSchedDispatch_touches {r : Int × State} (h : basicSchedDispatch P s = some r) :
    Touches P sets true s r.2 := by
  have hsel : Touches P sets true s (basicSchedSelectIoWork P s).2 :=
    basicSchedSelectIoWork_touches P s
  simp only [basicSchedDispatch] at h
  split at h
  · cases h
    exact .refl
  · split at h
    · obtain ⟨t, ht, rfl⟩ := Option.map_eq_some_iff.mp h
      exact hsel.trans (basicSchedSubmitIoWork_touches ht)
    · cases h
      exact hsel

/-- The last return of a batch opens the gate. -/
theorem decCheckCleanupBatch_still {current : Bool} {b : Nat}
    (h : decCheckCleanupBatch s current b = some s') : Still true s s' := by
  simp only [decCheckCleanupBatch] at h
  split at h
  · cases h
  · split_ifs at h <;> cases h <;> exact .gated rfl rfl rfl

/-! ## Events -/

theorem enter_touches {w w' : World} {work : WorkId} {r : Entry × State}
    (hr : Touches P sets gates w.afq r.2) (h : w.enter work r = some w') :
    Touches P sets gates w.afq w'.afq := by
  simp only [World.enter] at h
  split at h
  · cases h
  · cases h
    exact hr

theorem finish_touches (w : World) (work : WorkId) {r : Option State}
    (hr : ∀ s, r = some s → Still gates w.afq s) :
    Touches P sets gates w.afq (w.finish work r).afq := by
  cases r with
  | none => exact .refl
  | some s => exact .of_still (hr s rfl)

theorem leave_touches {w w' : World} {work : WorkId} {current : Bool}
    (h : w.leave work (schedReturn w.afq work current) = some w') :
    Touches P sets true w.afq w'.afq := by
  simp only [World.leave] at h
  split at h
  · cases h
    refine finish_touches w work fun s hs => ?_
    simp only [schedReturn] at hs
    split at hs
    · cases hs
    · exact decCheckCleanupBatch_still hs
  · cases h

theorem step_touches {w w' : World} {e : Event} (h : step P w e = some w') :
    Touches P e.sets e.gates w.afq w'.afq := by
  cases e with
  | add rq cur =>
    obtain ⟨-, t, ht, rfl⟩ := step_add_cases h
    exact basicSchedAddRequest_touches ht
  | writeEntry n cur direct uniq =>
    exact enter_touches (basicSchedWriteEntry_touches P _ n cur direct uniq) h
  | mkdirEntry n cur uniq => exact enter_touches (basicSchedMkdirEntry_touches P _ n cur uniq) h
  | fsyncEntry n cur uniq => exact enter_touches (basicSchedFsyncEntry_touches P _ n cur uniq) h
  | select =>
    cases h
    simp only [World.select]
    split <;> exact basicSchedSelectIoWork_touches P w.afq
  | submit b =>
    obtain ⟨-, ⟨-, rfl⟩ | ⟨t, ht, rfl⟩⟩ := step_submit_cases h
    · exact .refl
    · exact basicSchedSubmitIoWork_touches ht
  | dispatch =>
    obtain ⟨r, hr, rfl⟩ := Option.map_eq_some_iff.mp h
    exact basicSchedDispatch_touches hr
  | complete rq =>
    simp only [step] at h
    split at h
    · cases h
      refine finish_touches w _ fun s hs => ?_
      simp only [basicSchedComplteRequest] at hs
      split at hs
      · cases hs
        exact ⟨rfl, rfl, rfl, fun _ => rfl⟩
      · have hd := decCheckCleanupBatch_still hs
        exact .gated hd.view hd.globalMinVioCounter2 hd.stats
    · cases h
  | writeReturn n current => exact leave_touches h
  | mkdirReturn n current => exact leave_touches h
  | fsyncReturn n current => exact leave_touches h
  | kvSet id key val =>
    cases h
    exact basicKvSetCallback_touches ⟨rfl, rfl⟩ P w.afq id
  | dirty q l task bSize inode pos =>
    obtain ⟨t, ht, rfl⟩ := Option.map_eq_some_iff.mp h
    exact dirtyBuffer_touches ht
  | free l =>
    obtain ⟨t, ht, rfl⟩ := Option.map_eq_some_iff.mp h
    exact freeCauseList_touches ht
  | waitTimer =>
    cases h
    refine .of_still ?_
    simp only [newBatchWaitTimerFunc]
    split <;> exact .gated rfl rfl rfl
  | deadTimer => cases h; exact .of_still ⟨rfl, rfl, rfl, fun _ => rfl⟩
  | updateMin => cases h; exact .single (.refresh w.afq)
  | kernel m => cases h; exact .of_still ⟨rfl, rfl, rfl, fun _ => rfl⟩

end Afq
end SplitSched
