import SplitSched.Tb.Wakeup

/-!
# SplitSched.Tb.ForcedDispatch

What `tbucket_dispatch_force` leaves behind. It walks the queue list, and charging for a request that it
hands over may append the queues of new accounts to that list.

* `State.waiting k`: the requests on the queues from position `k` on, in the order in which the loop comes to
  them. Charging does not change it, and every pop takes its head (`forceLoop_spec`).
* `Drains.counts_iff`: the counts end at zero if they were the lengths of the queues before.
* `World.Sound`: what holds in every state of every run. `force_empties_queues_iff`: a forced dispatch always drains
  the queues, and brings their counts to zero exactly when no merge took a request off a queue twice.
-/

namespace SplitSched
namespace Tb

variable {P : Platform} {s s' t : State} {A : Nat → Prop} {k rv : Nat}

/-! ## The loop -/

def State.waiting (s : State) (k : Nat) : List Nat :=
  (s.queues.drop k).flatMap fun ref => (s.queue ref).reqs

theorem pending_eq (s : State) : s.pending = (s.waiting 0).length := by
  simp [State.pending, State.waiting, List.length_flatMap]

theorem Grows.waiting (h : Grows s s') (hk : k ≤ s.queues.length) : s'.waiting k = s.waiting k := by
  obtain ⟨more, hq, hempty⟩ := h.appended
  have hmore : (more.flatMap fun ref => (s.queue ref).reqs) = [] := by
    simpa [List.flatMap_eq_nil_iff] using hempty
  simp only [State.waiting, hq, h.queue, List.drop_append_of_le_length hk, List.flatMap_append, hmore,
    List.append_nil]

/-- A pop takes the head of what waits from the position of its queue on. -/
theorem popQueue_waiting (hw : Wired s) (hk : k < s.queues.length) {rq : Nat}
    (h : popQueue s s.queues[k] = some (rq, s')) : s.waiting k = rq :: s'.waiting k := by
  have hqueue := popQueue_queue h
  obtain ⟨rest, hreqs, -, hs'⟩ := popQueue_some h
  have hqueues : s'.queues = s.queues := by
    rw [hs']
    rfl
  have hdrop := List.drop_eq_getElem_cons hk
  have hnd : (s.queues.drop k).Nodup := hw.nodup.sublist (List.drop_sublist k s.queues)
  rw [hdrop] at hnd
  -- the queue does not come again
  have hrest : (s.queues.drop (k + 1)).flatMap (fun ref => (s'.queue ref).reqs) =
      (s.queues.drop (k + 1)).flatMap fun ref => (s.queue ref).reqs := by
    refine List.flatMap_congr fun ref hr => ?_
    rw [hqueue, if_neg]
    rintro rfl
    exact (List.nodup_cons.mp hnd).1 hr
  have hhead : (s'.queue s.queues[k]).reqs = rest := by
    rw [hqueue, if_pos rfl, hreqs]
    rfl
  simp only [State.waiting, hqueues, hdrop, List.flatMap_cons, hrest, hhead, hreqs, List.cons_append]

theorem popQueue_eq_none {ref : QRef} (h : popQueue s ref = none) : (s.queue ref).reqs = [] := by
  cases hr : (s.queue ref).reqs with
  | nil => rfl
  | cons r rest => simp [popQueue, queuePop, hr] at h

/-- The queues before position `k` have been emptied. -/
def EmptyBefore (s : State) (k : Nat) : Prop := ∀ ref ∈ s.queues.take k, (s.queue ref).reqs = []

theorem EmptyBefore.serve (h : EmptyBefore s k) (hk : k < s.queues.length) {rq : Nat}
    (hp : popQueue s s.queues[k] = some (rq, s')) : EmptyBefore (dispatchSort P s' s.queues[k] rq) k := by
  obtain ⟨rest, -, -, hs'⟩ := popQueue_some hp
  obtain ⟨t, hg, -, hq, -⟩ := dispatchSort_frame P s' s.queues[k] rq
  obtain ⟨more, hmore, -⟩ := hg.appended
  have hqueues : s'.queues = s.queues := by
    rw [hs']
    rfl
  intro ref hr
  rw [hq, hmore, hqueues, List.take_append_of_le_length hk.le] at hr
  have hempty := h ref hr
  rw [dispatchSort_queue, popQueue_queue hp]
  split
  · rename_i e
    rw [← e, hempty]
    rfl
  · exact hempty

theorem forceLoop_spec (P : Platform) (k rv : Nat) (s : State) (hw : Wired s) (hk : k ≤ s.queues.length)
    (hbefore : EmptyBefore s k) :
    (forceLoop P k rv s).1 = rv + (s.waiting k).length ∧
      (forceLoop P k rv s).2.sorted = s.sorted ++ s.waiting k ∧
      ∀ ref ∈ (forceLoop P k rv s).2.queues, ((forceLoop P k rv s).2.queue ref).reqs = [] := by
  fun_induction forceLoop P k rv s with
  | case1 k rv s hlt rq s' hp ih =>
    have hw' : Wired (dispatchSort P s' s.queues[k] rq) := hw.of_act (P := P) (.serve hp)
    obtain ⟨t, hg, hacc, hq, -, -, hsorted, -⟩ := dispatchSort_frame P s' s.queues[k] rq
    obtain ⟨rest, -, -, hs'⟩ := popQueue_some hp
    have hsame : s'.queues = s.queues ∧ s'.sorted = s.sorted := by
      rw [hs']
      exact ⟨rfl, rfl⟩
    have hwait : (dispatchSort P s' s.queues[k] rq).waiting k = s'.waiting k := by
      rw [← hg.waiting (by rw [hsame.1]; exact hk)]
      simp [State.waiting, State.queue, hacc, hq]
    have hlen : k ≤ (dispatchSort P s' s.queues[k] rq).queues.length := by
      obtain ⟨more, hmore, -⟩ := hg.appended
      rw [hq, hmore, hsame.1, List.length_append]
      omega
    obtain ⟨hrv, hdone, hempty⟩ := ih hw' hlen (hbefore.serve hlt hp)
    have hpop := popQueue_waiting hw hlt hp
    refine ⟨?_, ?_, hempty⟩
    · rw [hrv, hwait, hpop, List.length_cons]
      omega
    · rw [hdone, hwait, hsorted, hsame.2, hpop, List.append_assoc]
      rfl
  | case2 k rv s hlt hp ih =>
    have hnone := popQueue_eq_none hp
    have hwait : s.waiting k = s.waiting (k + 1) := by
      simp only [State.waiting, List.drop_eq_getElem_cons hlt, List.flatMap_cons, hnone, List.nil_append]
    have hbefore' : EmptyBefore s (k + 1) := by
      intro ref hr
      rw [List.take_succ_eq_append_getElem hlt] at hr
      rcases List.mem_append.mp hr with hr | hr
      · exact hbefore ref hr
      · cases List.mem_singleton.mp hr
        exact hnone
    rw [hwait]
    exact ih hw hlt hbefore'
  | case3 k rv s hge =>
    have hwait : s.waiting k = [] := by
      simp only [State.waiting, List.drop_eq_nil_of_le (not_lt.mp hge), List.flatMap_nil]
    refine ⟨by simp [hwait], by simp [hwait], fun ref hr => hbefore ref ?_⟩
    rwa [List.take_of_length_le (not_lt.mp hge)]

/-! ## What a forced dispatch does -/

theorem Acts.excess (h : Acts P s s') (ref : QRef) : s'.excess ref = s.excess ref :=
  h.keep (I := fun t => t.excess ref = s.excess ref) (fun _ _ ha he => (ha.excess ref).trans he) rfl

/-- Every request that waits is handed over once, queue by queue and in order. -/
structure Drains (P : Platform) (s : State) : Prop where
  returns : (tbucketDispatchForce P s).1 = s.pending
  sorted : (tbucketDispatchForce P s).2.sorted =
    s.sorted ++ s.queues.flatMap fun ref => (s.queue ref).reqs
  once : (tbucketDispatchForce P s).2.sorted.Nodup
  empty : ∀ ref, ((tbucketDispatchForce P s).2.queue ref).reqs = []

/-- It leaves no queue with a count. -/
def ClearsCounts (P : Platform) (s : State) : Prop :=
  ∀ ref, ((tbucketDispatchForce P s).2.queue ref).count = 0

theorem Tidy.drains (h : Tidy A s) (P : Platform) : Drains P s := by
  have hend : Tidy A (tbucketDispatchForce P s).2 :=
    (forceLoop_acts P 0 0 s).keep (fun _ _ ha ht => ht.of_act ha) h
  obtain ⟨hrv, hsorted, hempty⟩ := forceLoop_spec P 0 0 s h.toWired (Nat.zero_le _) (fun ref hr => by
    simp at hr)
  refine ⟨?_, hsorted, hend.placed.nodup none, fun ref => ?_⟩
  · rw [pending_eq, ← Nat.zero_add (s.waiting 0).length]
    exact hrv
  · by_cases hr : ref ∈ (tbucketDispatchForce P s).2.queues
    · exact hempty ref hr
    · -- a queue that is not on the list belongs to no account
      rw [hend.toWired.mem_iff] at hr
      rw [queue_eq_init hr]
      rfl

/-- The counts become zero if they were right. -/
theorem Drains.counts_iff (h : Drains P s) : ClearsCounts P s ↔ InSync s := by
  rw [inSync_iff]
  refine forall_congr' fun ref => ?_
  have hexcess := (forceLoop_acts P 0 0 s).excess ref
  have hlen := h.empty ref
  unfold tbucketDispatchForce at *
  rw [← hexcess, State.excess, hlen]
  simp

/-! ## Runs -/

instance (w : World) (e : Event) : Decidable (MergesQueued w e) := by
  cases e with
  | merge rq next =>
    exact decidable_of_iff (∃ ref ∈ w.tb.rqQueue rq, rq ∈ (w.tb.queue ref).reqs) Iff.rfl
  | _ => exact isTrue trivial

theorem Act.keys_subset (h : Act P s s') {id : Int} (hid : id ∈ s.accounts.keys) : id ∈ s'.accounts.keys := by
  cases h with
  | idle hacc => rwa [hacc]
  | charge hg =>
    obtain ⟨new, hk, -⟩ := hg.created
    rw [hk]
    exact List.mem_append_left _ hid
  | @serve s₁ ref rq hp =>
    obtain ⟨rest, -, -, hs₁⟩ := popQueue_some hp
    obtain ⟨t, hg, hacc, -⟩ := dispatchSort_frame P s₁ ref rq
    obtain ⟨new, hk, -⟩ := hg.created
    rw [hacc, hk, hs₁]
    exact List.mem_append_left _ hid
  | rotate => exact hid

theorem Act.rqQueue (h : Act P s s') : s'.rqQueue = s.rqQueue := by
  cases h with
  | idle _ _ _ hrq => exact hrq
  | charge hg => exact hg.rqQueue
  | @serve s₁ ref rq hp =>
    obtain ⟨rest, -, -, hs₁⟩ := popQueue_some hp
    obtain ⟨-, -, -, -, -, hrq, -⟩ := dispatchSort_frame P s₁ ref rq
    rw [hrq, hs₁]
    rfl
  | rotate => rfl

/-- `RQ_QUEUE` points to queues of accounts. -/
def Owned (s : State) : Prop := ∀ r ref, s.rqQueue r = some ref → ref.1 ∈ s.accounts.keys

theorem Owned.of_act (h : Owned s) (ha : Act P s s') : Owned s' := by
  intro r ref hr
  rw [ha.rqQueue] at hr
  exact ha.keys_subset (h r ref hr)

/-- What holds in every state of every run: the queues hold inserted requests, each once. -/
structure World.Sound (w : World) : Prop where
  tidy : ∃ A : Nat → Prop, (∀ r, A r → r ∈ w.added) ∧ Tidy A w.tb
  owned : Owned w.tb

theorem queueDel_some {rq : Nat} (h : queueDel s rq = some s') :
    ∃ ref, s.rqQueue rq = some ref ∧
      s' = s.setQueue ref
        { s.queue ref with reqs := (s.queue ref).reqs.erase rq, count := (s.queue ref).count - 1 } := by
  simp only [queueDel] at h
  split at h
  · cases h
  · rename_i ref hr
    exact ⟨ref, hr, (Option.some.inj h).symm⟩

theorem step_merge {w w' : World} {rq next : Nat} (h : step P w (.merge rq next) = some w') :
    ∃ tb, queueDel w.tb rq = some tb ∧ w' = { w with tb := tb, merged := w.merged ++ [next] } := by
  simp only [step] at h
  split at h
  · obtain ⟨tb, htb, rfl⟩ := Option.map_eq_some_iff.mp h
    exact ⟨tb, htb, rfl⟩
  · cases h

/-- `queue_del` takes a request off its queue, if it is on one. -/
theorem Tidy.queueDel (h : Tidy A s) (ho : Owned s) {rq : Nat} (hd : Tb.queueDel s rq = some s') :
    Tidy (fun r => A r ∧ ((∃ ref, rq ∈ (s.queue ref).reqs) → r ≠ rq)) s' := by
  obtain ⟨ref, hr, rfl⟩ := queueDel_some hd
  have hk := ho rq ref hr
  have hqueue := queue_setQueue hk
    { s.queue ref with reqs := (s.queue ref).reqs.erase rq, count := (s.queue ref).count - 1 }
  have hplaces : ∀ k, places (s.setQueue ref
      { s.queue ref with reqs := (s.queue ref).reqs.erase rq, count := (s.queue ref).count - 1 }) k =
        if k = some ref then (places s (some ref)).erase rq else places s k := by
    intro k
    cases k with
    | none => rfl
    | some ref' =>
      simp only [places, hqueue, Option.some.injEq]
      split <;> rfl
  refine ⟨⟨h.queues, h.queuesCount, h.default⟩, ?_, ?_⟩
  · by_cases hon : ∃ ref, rq ∈ (s.queue ref).reqs
    · obtain ⟨ref', hmem⟩ := hon
      -- the request is on the queue that `RQ_QUEUE` names
      have he : ref' = ref := Option.some.inj ((h.rqQueue ref' rq hmem).symm.trans hr)
      subst he
      refine h.placed.erase (i := some ref') (x := rq) hmem hplaces fun r => ?_
      exact and_congr_right fun _ => ⟨fun hn => hn ⟨ref', hmem⟩, fun hn _ => hn⟩
    · have hsame : places (s.setQueue ref
          { s.queue ref with reqs := (s.queue ref).reqs.erase rq, count := (s.queue ref).count - 1 }) =
            places s := by
        funext k
        rw [hplaces]
        split
        · rename_i hk'
          rw [hk']
          exact List.erase_of_not_mem fun hmem => hon ⟨ref, hmem⟩
        · rfl
      have hA : (fun r => A r ∧ ((∃ ref, rq ∈ (s.queue ref).reqs) → r ≠ rq)) = A := by
        funext r
        simp [hon]
      rw [hsame, hA]
      exact h.placed
  · intro ref' r hmem
    refine h.rqQueue ref' r ?_
    rw [hqueue] at hmem
    split at hmem
    · rename_i e
      subst e
      exact List.mem_of_mem_erase hmem
    · exact hmem

theorem Owned.add (h : Owned s) (hw : Wired s) (P : Platform) (rq : Nat) (cur : Int) :
    Owned (tbucketAddRequest P s rq cur) := by
  obtain ⟨t, ref, hacts, hk, heq⟩ := tbucketAddRequest_spec hw P rq cur
  have ht : Owned t := hacts.keep (fun _ _ ha ho => ho.of_act ha) h
  rw [heq]
  intro r ref' hr
  change Function.update t.rqQueue rq (some ref) r = some ref' at hr
  by_cases hrq : r = rq
  · subst hrq
    rw [Function.update_self] at hr
    exact Option.some.inj hr ▸ hk
  · rw [Function.update_of_ne hrq] at hr
    exact ht r ref' hr

theorem World.Sound.step {w w' : World} {e : Event} (h : Tb.step P w e = some w') (hw : w.Sound) : w'.Sound := by
  obtain ⟨⟨A, hA, ht⟩, ho⟩ := hw
  by_cases hp : e.Plain
  · obtain ⟨hacts, hadd, -⟩ := step_acts hp h
    refine ⟨⟨A, by rw [hadd]; exact hA, hacts.keep (fun _ _ ha ht => ht.of_act ha) ht⟩, ?_⟩
    exact hacts.keep (fun _ _ ha ho => ho.of_act ha) ho
  · cases e with
    | add rq cur =>
      simp only [Tb.step] at h
      split at h
      · cases h
      · rename_i hn
        cases h
        refine ⟨⟨fun r => A r ∨ r = rq, fun r hr => ?_, ht.add (fun hr => hn (hA rq hr)) cur fun r => Iff.rfl⟩,
          ho.add ht.toWired P rq cur⟩
        rcases hr with hr | rfl
        · exact List.mem_append_left _ (hA r hr)
        · exact List.mem_append_right _ List.mem_cons_self
    | merge rq next =>
      obtain ⟨tb, htb, rfl⟩ := step_merge h
      refine ⟨⟨_, fun r hr => hA r hr.1, ht.queueDel ho htb⟩, ?_⟩
      obtain ⟨ref, -, rfl⟩ := queueDel_some htb
      exact ho
    | _ => exact absurd trivial hp

/-- Unlinking a request that is on no queue leaves a count too low. -/
theorem step_miscounts {w w' : World} {e : Event} (h : step P w e = some w') (hw : w.Sound)
    (hc : ¬ MergesQueued w e) : ∃ ref, w'.tb.excess ref = w.tb.excess ref - 1 := by
  obtain ⟨⟨A, -, ht⟩, ho⟩ := hw
  cases e with
  | merge rq next =>
    obtain ⟨tb, htb, rfl⟩ := step_merge h
    obtain ⟨ref, hr, rfl⟩ := queueDel_some htb
    have hk := ho rq ref hr
    have hmem : rq ∉ (w.tb.queue ref).reqs := fun hmem => hc ⟨ref, hr, hmem⟩
    refine ⟨ref, ?_⟩
    simp only [State.excess, queue_setQueue hk, if_true, List.erase_of_not_mem hmem]
    omega
  | _ => exact absurd trivial hc

theorem World.Sound.drains {w : World} (h : w.Sound) (P : Platform) : Drains P w.tb := by
  obtain ⟨A, -, ht⟩ := h.tidy
  exact ht.drains P

theorem World.Sound.init {m : Mem} {env : Env} (h : tbucketInitQueue P m env = some s) : (World.init s).Sound := by
  refine ⟨⟨_, fun r hr => hr, (tbucketInitQueue_fresh h).1.orderly.tidy⟩, fun r ref hr => ?_⟩
  rw [World.init, tbucketInitQueue_rqQueue h r] at hr
  cases hr

/-- In every state of a run a forced dispatch drains the queues, once and in order. It leaves all counts at
zero along the run exactly when every merge found its request on a queue. -/
theorem force_empties_queues_iff (P : Platform) (m : Mem) (env : Env) (s : State) (es : List Event)
    (w : World) (h0 : tbucketInitQueue P m env = some s)
    (hr : run (step P) (World.init s) es = some w) :
    Always (step P) (fun w => Drains P w.tb) (World.init s) es ∧
      (Always (step P) (fun w => Drains P w.tb ∧ ClearsCounts P w.tb) (World.init s) es ↔
        Meets (step P) MergesQueued (World.init s) es) := by
  have hf := (tbucketInitQueue_fresh h0).1
  have hstart : (World.init s).Sound ∧ Wired (World.init s).tb ∧ InSync (World.init s).tb :=
    ⟨.init h0, hf.wired, fun ref => by simp [World.init, hf.queue, Queue.init]⟩
  constructor
  · intro es' t _ ht
    exact (run_invariant (fun _ _ _ hs hw => World.Sound.step hs hw) ht hstart.1).drains P
  · refine always_iff_meets (I := fun w => w.Sound ∧ Wired w.tb ∧ InSync w.tb) ?_ ?_ ?_ hr hstart
    · intro w e w' hs hc hI
      exact ⟨hI.1.step hs, step_in_sync hs hc hI.2⟩
    · intro w hI
      exact ⟨hI.1.drains P, (hI.1.drains P).counts_iff.mpr hI.2.2⟩
    · intro w e w' hs hc hI hp
      obtain ⟨ref, hex⟩ := step_miscounts hs hI.1 hc
      have hzero := inSync_iff.mp (hp.1.counts_iff.mp hp.2) ref
      have hbefore := inSync_iff.mp hI.2.2 ref
      omega

/-- Read 1 is merged into read 0, which is dropped from its queue; reads 1 and 2 are still dispatched. -/
theorem force_empties_queues_merge_once :
    ∃ s w, tbucketInitQueue .lp64 sampleMem sampleEnv = some s ∧
      run (step .lp64) (World.init s) [.add 0 7, .add 1 7, .add 2 7, .merge 0 1] = some w ∧
      Always (step .lp64) (fun w => Drains .lp64 w.tb ∧ ClearsCounts .lp64 w.tb) (World.init s)
        [.add 0 7, .add 1 7, .add 2 7, .merge 0 1] := by
  have h : (tbucketInitQueue .lp64 sampleMem sampleEnv).any (fun s =>
      (run (step .lp64) (World.init s) [.add 0 7, .add 1 7, .add 2 7, .merge 0 1]).isSome &&
        decide (Meets (step .lp64) MergesQueued (World.init s)
          [.add 0 7, .add 1 7, .add 2 7, .merge 0 1])) = true := by
    decide +kernel
  obtain ⟨s, hs, hok⟩ := (Option.any_eq_true _ _).mp h
  rw [Bool.and_eq_true, decide_eq_true_eq] at hok
  obtain ⟨w, hw⟩ := Option.isSome_iff_exists.mp hok.1
  exact ⟨s, w, hs, hw, (force_empties_queues_iff .lp64 sampleMem sampleEnv s _ w hs hw).2.mpr hok.2⟩

/-- A second request is merged into read 0: the forced dispatch leaves a queue with the count -1. -/
theorem force_leaves_count :
    ∃ s w, tbucketInitQueue .lp64 sampleMem sampleEnv = some s ∧
      run (step .lp64) (World.init s) [.add 0 7, .add 1 7, .add 2 7, .merge 0 1, .merge 0 2] = some w ∧
      ((tbucketDispatchForce .lp64 w.tb).2.queue (7, false)).count = -1 := by
  have h : ((tbucketInitQueue .lp64 sampleMem sampleEnv).bind fun s =>
      run (step .lp64) (World.init s) [.add 0 7, .add 1 7, .add 2 7, .merge 0 1, .merge 0 2]).any (fun w =>
        decide ((w.tb.queue (7, false)).count = 1 ∧ (w.tb.queue (7, false)).reqs = [1, 2])) = true := by
    decide +kernel
  obtain ⟨w, hw, hcount⟩ := (Option.any_eq_true _ _).mp h
  obtain ⟨s, hs, hr⟩ := Option.bind_eq_some_iff.mp hw
  obtain ⟨hone, hreqs⟩ := of_decide_eq_true hcount
  refine ⟨s, w, hs, hr, ?_⟩
  have hdrains := (run_invariant (fun _ _ _ hs hw => World.Sound.step hs hw) hr (.init hs)).drains .lp64
  have hexcess := (forceLoop_acts .lp64 0 0 w.tb).excess (7, false)
  have hempty := hdrains.empty (7, false)
  simp only [tbucketDispatchForce] at hempty ⊢
  simp only [State.excess, hempty, hone, hreqs] at hexcess
  simpa using hexcess

end Tb
end SplitSched
