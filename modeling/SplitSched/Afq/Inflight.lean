import SplitSched.Afq.Batches

/-!
# SplitSched.Afq.Inflight

The counter `afq_data->inflight`. It should be the number of requests that were handed to
`elv_dispatch_sort` and have not completed.

* `change_inflight`: every change but one keeps it so. The exception is a read that goes straight to
  the dispatch queue, because its task has account 0 or its account cannot be created: it is not
  counted, and yet its completion is.
* `inflight_exact_iff`: the counter is right along a run exactly when no such read is inserted.
-/

namespace SplitSched
namespace Afq

variable {P : Platform} {w w' : World} {s : State}

/-- Requests that were handed to `elv_dispatch_sort` and have not completed. -/
def World.onDisk (w : World) : List WorkId :=
  outstanding (w.afq.sorted.map WorkId.req) w.returned

def World.InflightExact (w : World) : Prop := w.afq.inflight = w.onDisk.length

instance (w : World) : Decidable w.InflightExact := by unfold World.InflightExact; infer_instance

/-! ## Steps -/

theorem World.InflightExact.of_eq (h : w.InflightExact) (hi : w'.afq.inflight = w.afq.inflight)
    (hs : w'.afq.sorted = w.afq.sorted) (hr : w'.returned = w.returned) : w'.InflightExact := by
  rw [World.InflightExact, World.onDisk, hi, hs, hr]
  exact h

/-- Requests that were not sorted before have not completed. -/
theorem Sound.onDisk_append (h : Sound w) (rqs : List Nat) (hnew : ∀ rq ∈ rqs, rq ∉ w.afq.sorted) :
    outstanding ((w.afq.sorted ++ rqs).map WorkId.req) w.returned =
      w.onDisk ++ rqs.map WorkId.req := by
  rw [List.map_append]
  refine outstanding_append fun work hw hr => ?_
  obtain ⟨rq, hrq, rfl⟩ := List.mem_map.mp hw
  exact hnew rq hrq (h.recorded.completed rq hr)

theorem Sound.not_sorted {rq : Nat} (h : Sound w) (hnew : rq ∉ w.added) : rq ∉ w.afq.sorted :=
  fun hs => hnew (h.recorded.sorted rq hs).1

theorem Sound.nodup_sorted (h : Sound w) : (w.afq.sorted.map WorkId.req).Nodup :=
  h.recorded.nodup.map fun _ _ e => WorkId.req.inj e

/-- The requests of a batch that is submitted were not sorted before. -/
theorem Sound.not_sorted_of_batch {b rq : Nat} {works : List WorkId} {k : Int} (h : Sound w)
    (hb : w.afq.batches b = some ⟨works, k⟩) (hrq : rq ∈ works.filterMap WorkId.request) :
    rq ∉ w.afq.sorted := by
  obtain ⟨work, hw, hreq⟩ := List.mem_filterMap.mp hrq
  obtain ⟨hacc, hns⟩ := h.pending.batch_accepted hb hw
  cases work with
  | req r =>
    cases hreq
    exact fun hs => hns ((h.recorded.sorted rq hs).2 hacc)
  | write | fsync | mkdir => cases hreq

theorem decCheckCleanupBatch_frame {s s' : State} {current : Bool} {b : Nat}
    (h : decCheckCleanupBatch s current b = some s') : Frame s s' := by
  cases hd : s.batches b with
  | none => simp [decCheckCleanupBatch, hd] at h
  | some d =>
    obtain ⟨t, ht, hf, -⟩ := decCheckCleanupBatch_spec current hd
    cases h.symm.trans ht
    exact hf

/-- Completion touches the number in flight and the batch of the request. -/
theorem basicSchedComplteRequest_frame {rq : Nat} {s' : State}
    (h : basicSchedComplteRequest s rq = some s') :
    Frame { s with inflight := s.inflight - 1 } s' := by
  simp only [basicSchedComplteRequest] at h
  split at h
  · cases h
    exact .refl _
  · exact decCheckCleanupBatch_frame h

theorem schedReturn_frame {work : WorkId} {current : Bool} {s' : State}
    (h : schedReturn s work current = some s') : Frame s s' := by
  simp only [schedReturn] at h
  split at h
  · cases h
  · exact decCheckCleanupBatch_frame h

/-- A return hook does not fail: the world would be at fault, and no sound world is. -/
theorem finish_some {work : WorkId} {r : Option State} (h : Sound (w.finish work r)) :
    ∃ s, r = some s := by
  cases r with
  | none => cases h.counted.fault
  | some s => exact ⟨s, rfl⟩

theorem change_inflight (hc : Change P false w w') (h : Sound w) (hi : w.InflightExact) :
    w'.InflightExact := by
  have h' := change_sound hc h
  cases hc with
  | quiet hq => exact hi.of_eq hq.inflight hq.sorted rfl
  | @block work acct hnew hcall hk =>
    have ha := addIoWorkToAcct_accepts (P := P) work
      (s := (w.afq.setDesc work .fresh).setAcct work (some acct)) hk
    exact hi.of_eq ha.inflight ha.sorted rfl
  | @queue rq acct hnew hread hk =>
    have ha := addIoWorkToAcct_accepts (P := P) (.req rq)
      (s := w.afq.setAcct (.req rq) (some acct)) hk
    exact hi.of_eq ha.inflight ha.sorted rfl
  | @issue rq s hnew hwrite hq =>
    have hon := h.onDisk_append [rq] fun r hr =>
      List.mem_singleton.mp hr ▸ h.not_sorted hnew
    have hs : s.sorted = w.afq.sorted := hq.sorted
    have hin : s.inflight = w.afq.inflight + 1 := hq.inflight
    simp only [World.InflightExact, World.onDisk, elvDispatchSort, hs, hon, hin,
      List.length_append, List.length_map, List.length_singleton]
    rw [hi]
    push_cast
    rfl
  | pass hnew hs => cases hs
  | select =>
    have hs := (basicSchedSelectIoWork_spec P h.pending).1
    generalize basicSchedSelectIoWork P w.afq = r at hs
    rcases hs.outcome with ⟨hr, -⟩ | ⟨hr, -⟩
    · simp only [World.select, hr]
      exact hi.of_eq hs.inflight hs.sorted rfl
    · rw [World.select_of_ne hr]
      exact hi.of_eq hs.inflight hs.sorted rfl
  | @submit b s hb hsub =>
    obtain ⟨⟨works, -, hd⟩, -⟩ := h.counted.selected b hb
    have hs := basicSchedSubmitIoWork_submits h.pending hd hsub
    have hon := h.onDisk_append _ fun _ => h.not_sorted_of_batch hd
    simp only [World.InflightExact, World.onDisk, hs.sorted, hs.inflight, hon, List.length_append,
      List.length_map]
    rw [hi]
    push_cast
    rfl
  | dangling hb hn => exact hi
  | @complete rq hs hr =>
    obtain ⟨s', hs'⟩ := finish_some h'
    have hf := basicSchedComplteRequest_frame hs'
    have hlen := length_outstanding_back h.nodup_sorted (List.mem_map_of_mem hs) hr
    rw [← World.onDisk] at hlen
    simp only [World.InflightExact, World.onDisk, hs', World.finish, hf.inflight, hf.sorted]
    rw [hi, ← hlen]
    push_cast
    ring
  | @wake work current hcall hw hr =>
    obtain ⟨s', hs'⟩ := finish_some h'
    have hf := schedReturn_frame hs'
    have hout : outstanding (w.afq.sorted.map WorkId.req) (w.returned ++ [work]) = w.onDisk := by
      refine outstanding_back_of_not_mem fun hm => ?_
      obtain ⟨rq, -, rfl⟩ := List.mem_map.mp hm
      cases hcall
    simp only [World.InflightExact, World.onDisk, hs', World.finish, hf.inflight, hf.sorted, hout]
    exact hi

/-- A read that goes straight to the dispatch queue is not counted. -/
theorem straightRead_uncounted {e : Event} (hs : step P w e = some w')
    (he : straightRead P w e = true) : ∃ rq, rq ∉ w.added ∧
      w'.afq.sorted = w.afq.sorted ++ [rq] ∧ w'.afq.inflight = w.afq.inflight ∧
      w'.returned = w.returned := by
  cases e with
  | add rq cur =>
    simp only [straightRead, Bool.and_eq_true, Bool.not_eq_true', Bool.or_eq_true,
      decide_eq_true_eq] at he
    obtain ⟨hread, hacct⟩ := he
    simp only [step] at hs
    split at hs
    · cases hs
    · rename_i hnew
      obtain ⟨s', hs', rfl⟩ := Option.map_eq_some_iff.mp hs
      refine ⟨rq, hnew, ?_⟩
      simp only [basicSchedAddRequest] at hs'
      set t := tagRequest (causeListSizeStat2 w.afq rq) rq cur with ht
      have hq : Quiet w.afq (getAccount P t cur).2 :=
        ((causeListSizeStat2_quiet _ _).trans (tagRequest_quiet _ _ _)).trans
          (getAccount_charges P t cur).quiet
      have hrqs : t.mem.rqs = w.afq.mem.rqs := by
        rw [ht, tagRequest_rqs, causeListSizeStat2_mem]
      rw [hrqs, hread] at hs'
      simp only [Bool.false_eq_true, if_false] at hs'
      cases ha : (getAccount P t cur).1 with
      | none =>
        simp only [ha] at hs'
        cases hs'
        exact ⟨congrArg (· ++ [rq]) hq.sorted, hq.inflight, rfl⟩
      | some acct =>
        have h0 : acct = 0 := by
          rw [(getAccount_some ha).1]
          exact hacct.resolve_right (by simp [ha])
        simp only [ha, h0, ne_eq, not_true_eq_false, if_false] at hs'
        cases hs'
        exact ⟨congrArg (· ++ [rq]) hq.sorted, hq.inflight, rfl⟩
  | _ => cases he

/-! ## Runs -/

/-- Along a run of a fresh instance the counter is the number of requests on the disk, exactly when
no read is inserted by a task whose account is 0 or cannot be created. -/
theorem inflight_exact_iff (P : Platform) (m : Mem) (env : Env) (s : State) (es : List Event)
    (w : World) (h0 : basicSchedInitData P m env = some s)
    (hr : run (step P) (World.init s) es = some w) :
    Always (step P) World.InflightExact (World.init s) es ↔
      Meets (step P) (fun w e => straightRead P w e = false) (World.init s) es := by
  refine always_iff_meets (I := fun w => Sound w ∧ w.InflightExact) ?_ (fun _ h => h.2) ?_ hr
    ⟨init_sound h0, ?_⟩
  · intro w e w' hs he hI
    have hc := step_changes hs
    rw [he] at hc
    exact Changes.keep (I := fun w => Sound w ∧ w.InflightExact)
      (fun _ _ hc hI => ⟨change_sound hc hI.1, change_inflight hc hI.1 hI.2⟩) hc hI
  · -- such a read is on the disk, and the counter does not know
    intro w e w' hs he hI hbad
    obtain ⟨rq, hnew, hsort, hin, hret⟩ := straightRead_uncounted hs (by simpa using he)
    have hon := hI.1.onDisk_append [rq] fun r hr =>
      List.mem_singleton.mp hr ▸ hI.1.not_sorted hnew
    have hexact := hI.2
    simp only [World.InflightExact, World.onDisk, hsort, hin, hret, hon, List.length_append,
      List.length_map, List.length_singleton] at hbad hexact
    rw [hexact] at hbad
    push_cast at hbad
    omega
  · simp only [basicSchedInitData] at h0
    split at h0
    · cases h0
      rfl
    · cases h0

/-- A read of account 7 is inserted, dispatched and completed. -/
theorem inflight_exact_one_read :
    ∃ s w, basicSchedInitData .lp64 sampleMem sampleEnv = some s ∧
      run (step .lp64) (World.init s) [.add 0 7, .dispatch, .complete 0] = some w ∧
      (Always (step .lp64) World.InflightExact (World.init s) [.add 0 7, .dispatch, .complete 0] ↔
        Meets (step .lp64) (fun w e => straightRead .lp64 w e = false) (World.init s)
          [.add 0 7, .dispatch, .complete 0]) := by
  have h : ((basicSchedInitData .lp64 sampleMem sampleEnv).bind fun s =>
      run (step .lp64) (World.init s) [.add 0 7, .dispatch, .complete 0]).isSome = true := by
    decide +kernel
  obtain ⟨w, hw⟩ := Option.isSome_iff_exists.mp h
  obtain ⟨s, hs, hr⟩ := Option.bind_eq_some_iff.mp hw
  exact ⟨s, w, hs, hr, inflight_exact_iff .lp64 sampleMem sampleEnv s _ w hs hr⟩

/-- A read of account 0 is inserted and completed: the counter is -1, and nothing is on the disk. -/
theorem inflight_negative_after_read_of_zero :
    ∃ s w, basicSchedInitData .lp64 sampleMem sampleEnv = some s ∧
      run (step .lp64) (World.init s) [.add 0 0, .complete 0] = some w ∧
      w.afq.inflight = -1 ∧ w.onDisk = [] ∧ ¬ w.InflightExact := by
  have h : ((basicSchedInitData .lp64 sampleMem sampleEnv).bind fun s =>
      run (step .lp64) (World.init s) [.add 0 0, .complete 0]).any (fun w =>
        decide (w.afq.inflight = -1 ∧ w.onDisk = [])) = true := by
    decide +kernel
  obtain ⟨w, hw, hbad⟩ := (Option.any_eq_true _ _).mp h
  obtain ⟨s, hs, hr⟩ := Option.bind_eq_some_iff.mp hw
  obtain ⟨hin, hon⟩ := of_decide_eq_true hbad
  refine ⟨s, w, hs, hr, hin, hon, fun he => ?_⟩
  rw [World.InflightExact, hin, hon] at he
  cases he

end Afq
end SplitSched
