import SplitSched.Tb.ForcedDispatch
import SplitSched.Tb.Refresh

/-!
# SplitSched.Tb.Fairness

In which order the token-bucket scheduler serves requests.

Within a queue, requests are dispatched in the order in which they were inserted
(`requests_dispatched_in_order`). Between queues, the loop of `tbucket_dispatch` visits the queues from the head
of the queue list on. A queue that tokens do not hold back is served when the loop comes to it, so only the
queues in front of it are served before it, each for one run of `RUN_SIZE_LIMIT` bytes. A queue that has used up
its run is moved to the tail even if it is the only one with requests.

* `Unthrottled`: tokens do not hold the queue back, and refreshing its account keeps it so (`Funded.refresh`).
* `dispatchLoop_turn`, `dispatchLoop_others`: what one call can do while a queue waits, and after it was moved to
  the tail.
* `State.owed`: how many bytes may be dispatched before the queue is served. A call pays for what it
  dispatches (`dispatch_paid`), and nothing else moves the queue back.
* `Sends`: what is handed over bounds `run_serve_size`.
* `bypass_bounded`: the bound along any stretch of a run.
-/

namespace SplitSched
namespace Tb

open CArith

variable {P : Platform} {s s' : State} {ref : QRef} {x rq : Nat} {w w' : World} {e : Event}

/-! ## The order within a queue -/

/-- The queue list over whole runs. -/
theorem step_wired (h : step P w e = some w') (hw : Wired w.tb) : Wired w'.tb := by
  by_cases hp : e.Plain
  · exact (step_acts hp h).1.keep (fun _ _ ha hw => hw.of_act ha) hw
  · cases e with
    | add rq cur =>
      simp only [step] at h
      split at h
      · cases h
      · cases h
        obtain ⟨t, ref, hacts, -, heq⟩ := tbucketAddRequest_spec hw P rq cur
        have ht : Wired t := hacts.keep (fun _ _ ha hw => hw.of_act ha) hw
        simp only [heq]
        exact ⟨ht.queues, ht.queuesCount, ht.default⟩
    | merge rq next =>
      simp only [step, tbucketMergeRequest, queueDel] at h
      split at h
      · split at h
        · cases h
        · cases h
          exact ⟨hw.queues, hw.queuesCount, hw.default⟩
      · cases h
    | _ => exact absurd trivial hp

/-- The requests of a queue that were dispatched, and those that wait. -/
def State.history (s : State) (ref : QRef) : List Nat :=
  s.sorted.filter (fun r => decide (s.rqQueue r = some ref)) ++ (s.queue ref).reqs

/-- `RQ_QUEUE` points to the queue of a request, and all requests of a queue were inserted in the order in which
they are dispatched. -/
structure World.InOrder (w : World) : Prop where
  wired : Wired w.tb
  rqQueue : ∀ ref, ∀ r ∈ (w.tb.queue ref).reqs, w.tb.rqQueue r = some ref
  sorted : ∀ r ∈ w.tb.sorted, r ∈ w.added
  history : ∀ ref, (w.tb.history ref).Sublist w.added

/-- What the order depends on. -/
structure SameOrder (s s' : State) : Prop where
  rqQueue : s'.rqQueue = s.rqQueue
  history : ∀ ref, s'.history ref = s.history ref
  sorted : ∃ rqs, s'.sorted = s.sorted ++ rqs ∧ ∀ r ∈ rqs, ∃ ref, r ∈ (s.queue ref).reqs
  queue : ∀ ref, ∀ r ∈ (s'.queue ref).reqs, r ∈ (s.queue ref).reqs

theorem SameOrder.of_same (hrq : s'.rqQueue = s.rqQueue) (hsorted : s'.sorted = s.sorted)
    (hqueue : s'.queue = s.queue) : SameOrder s s' := by
  refine ⟨hrq, fun ref => ?_, ⟨[], by simp [hsorted], by simp⟩, fun ref r hr => by rwa [hqueue] at hr⟩
  rw [State.history, State.history, hrq, hsorted, hqueue]

theorem SameOrder.of_act (ha : Act P s s') (h : ∀ ref, ∀ r ∈ (s.queue ref).reqs, s.rqQueue r = some ref) :
    SameOrder s s' := by
  cases ha with
  | idle haccounts _ _ hrq hsorted =>
    exact .of_same hrq hsorted (by funext ref; simp [State.queue, haccounts])
  | charge hg => exact .of_same hg.rqQueue hg.sorted hg.queue
  | @serve s₁ q rq hp =>
    obtain ⟨rest, hr, -, hs₁⟩ := popQueue_some hp
    obtain ⟨-, -, -, -, -, hrq, hsorted, -⟩ := dispatchSort_frame P s₁ q rq
    have hrq' : (dispatchSort P s₁ q rq).rqQueue = s.rqQueue := hrq.trans (by rw [hs₁]; rfl)
    have hsorted' : (dispatchSort P s₁ q rq).sorted = s.sorted ++ [rq] :=
      hsorted.trans (by rw [hs₁]; rfl)
    have hqueue : ∀ ref, ((dispatchSort P s₁ q rq).queue ref).reqs =
        if ref = q then rest else (s.queue ref).reqs := by
      intro ref
      rw [dispatchSort_queue, popQueue_queue hp, hr]
      split <;> rfl
    have hmem : rq ∈ (s.queue q).reqs := by simp [hr]
    refine ⟨hrq', fun ref => ?_, ⟨[rq], hsorted', ?_⟩, fun ref r hmem' => ?_⟩
    · simp only [State.history, hrq', hsorted', hqueue, List.filter_append]
      by_cases hq : ref = q
      · subst hq
        simp [h ref rq hmem, hr]
      · have hne : ¬ s.rqQueue rq = some ref := by
          rw [h q rq hmem]
          exact fun he => hq (Option.some.inj he).symm
        simp [hq, hne]
    · intro r hr'
      rw [List.mem_singleton.mp hr']
      exact ⟨q, hmem⟩
    · rw [hqueue] at hmem'
      split at hmem'
      · rename_i hq
        subst hq
        rw [hr]
        exact List.mem_cons_of_mem _ hmem'
      · exact hmem'
  | rotate => exact .of_same rfl rfl rfl

theorem World.InOrder.of_same (h : w.InOrder) (hwired : Wired w'.tb) (hs : SameOrder w.tb w'.tb)
    (hadded : w'.added = w.added) : w'.InOrder := by
  have hknown : ∀ ref, ∀ r ∈ (w.tb.queue ref).reqs, r ∈ w.added := fun ref r hr =>
    (h.history ref).subset (List.mem_append_right _ hr)
  refine ⟨hwired, fun ref r hr => ?_, fun r hr => ?_, fun ref => ?_⟩
  · rw [hs.rqQueue]
    exact h.rqQueue ref r (hs.queue ref r hr)
  · obtain ⟨rqs, hsorted, hfrom⟩ := hs.sorted
    rw [hadded]
    rw [hsorted] at hr
    rcases List.mem_append.mp hr with hold | hnew
    · exact h.sorted r hold
    · obtain ⟨ref, hq⟩ := hfrom r hnew
      exact hknown ref r hq
  · rw [hs.history, hadded]
    exact h.history ref

theorem Acts.in_order (ha : Acts P w.tb s') (h : w.InOrder) : { w with tb := s' }.InOrder := by
  refine ha.keep (I := fun s => { w with tb := s }.InOrder) (fun t t' hact ht => ?_) h
  exact ht.of_same (ht.wired.of_act hact) (.of_act hact ht.rqQueue) rfl

/-- A request that is inserted is the last of its queue. -/
theorem add_in_order (h : w.InOrder) {cur : Int} (hnew : rq ∉ w.added) :
    World.InOrder { w with tb := tbucketAddRequest P w.tb rq cur, added := w.added ++ [rq] } := by
  obtain ⟨t, q, hacts, hk, heq⟩ := tbucketAddRequest_spec h.wired P rq cur
  have ht := hacts.in_order h
  have hqueue := queue_setQueue hk (queuePush (t.queue q) rq)
  have hfresh : ∀ r, r ∈ w.added → r ≠ rq := by
    rintro r hr rfl
    exact hnew hr
  have hknown : ∀ ref, ∀ r ∈ (t.queue ref).reqs, r ∈ w.added := fun ref r hr =>
    (ht.history ref).subset (List.mem_append_right _ hr)
  rw [heq]
  refine ⟨⟨ht.wired.queues, ht.wired.queuesCount, ht.wired.default⟩, fun ref r hr => ?_, fun r hr => ?_,
    fun ref => ?_⟩
  · change r ∈ ((t.setQueue q (queuePush (t.queue q) rq)).queue ref).reqs at hr
    show Function.update t.rqQueue rq (some q) r = some ref
    rw [hqueue] at hr
    by_cases hq : ref = q
    · subst hq
      rw [if_pos rfl] at hr
      rcases List.mem_append.mp hr with hold | hlast
      · rw [Function.update_of_ne (hfresh r (hknown ref r hold))]
        exact ht.rqQueue ref r hold
      · rw [List.mem_singleton.mp hlast, Function.update_self]
    · rw [if_neg hq] at hr
      rw [Function.update_of_ne (hfresh r (hknown ref r hr))]
      exact ht.rqQueue ref r hr
  · exact List.mem_append_left _ (ht.sorted r hr)
  · have hfilter : t.sorted.filter (fun r => decide (Function.update t.rqQueue rq (some q) r = some ref)) =
        t.sorted.filter (fun r => decide (t.rqQueue r = some ref)) := by
      refine List.filter_congr fun r hr => ?_
      rw [Function.update_of_ne (hfresh r (ht.sorted r hr))]
    show (t.sorted.filter (fun r => decide (Function.update t.rqQueue rq (some q) r = some ref)) ++
      ((t.setQueue q (queuePush (t.queue q) rq)).queue ref).reqs).Sublist (w.added ++ [rq])
    rw [hfilter, hqueue]
    by_cases hq : ref = q
    · subst hq
      rw [if_pos rfl]
      simp only [queuePush, ← List.append_assoc]
      exact (ht.history ref).append (List.Sublist.refl [rq])
    · rw [if_neg hq]
      exact (ht.history ref).trans (List.sublist_append_left ..)

/-- Merging takes a request off its queue. -/
theorem merge_in_order (h : w.InOrder) {next : Nat} (hs : step P w (.merge rq next) = some w') :
    w'.InOrder := by
  have hwired := step_wired hs h.wired
  simp only [step, tbucketMergeRequest, queueDel] at hs
  split at hs
  · cases hrq : w.tb.rqQueue rq with
    | none => simp [hrq] at hs
    | some q =>
      simp only [hrq, Option.map_some, Option.some.injEq] at hs
      subst hs
      have hsub : ∀ ref, ((w.tb.setQueue q { w.tb.queue q with
          reqs := (w.tb.queue q).reqs.erase rq, count := (w.tb.queue q).count - 1 }).queue ref).reqs.Sublist
            (w.tb.queue ref).reqs := by
        intro ref
        by_cases hk : q.1 ∈ w.tb.accounts.keys
        · rw [queue_setQueue hk]
          split
          · rename_i hq
            subst hq
            exact List.erase_sublist
          · exact List.Sublist.refl _
        · have hsame : (w.tb.setQueue q { w.tb.queue q with
              reqs := (w.tb.queue q).reqs.erase rq, count := (w.tb.queue q).count - 1 }).queue ref =
                w.tb.queue ref := by
            have hnone := Registry.find_eq_none hk
            by_cases href : ref.1 = q.1
            · simp [State.queue, State.setQueue, State.modifyAccount, Registry.modify, Registry.val, href,
                hnone]
            · exact Registry.val_modify_of_ne _ href _ _ _
          rw [hsame]
      exact ⟨hwired, fun ref r hr => h.rqQueue ref r ((hsub ref).subset hr), h.sorted, fun ref =>
        (List.Sublist.append (List.Sublist.refl _) (hsub ref)).trans (h.history ref)⟩
  · cases hs

theorem step_in_order (hs : step P w e = some w') (h : w.InOrder) : w'.InOrder := by
  by_cases hp : e.Plain
  · obtain ⟨hacts, hadded, -⟩ := step_acts hp hs
    have ho := hacts.in_order h
    exact ⟨ho.wired, ho.rqQueue, by rw [hadded]; exact ho.sorted, by rw [hadded]; exact ho.history⟩
  · cases e with
    | add rq cur =>
      simp only [step] at hs
      split at hs
      · cases hs
      · rename_i hnew
        cases hs
        exact add_in_order h hnew
    | merge rq next => exact merge_in_order h hs
    | _ => exact absurd trivial hp

theorem Fresh.in_order (h : Fresh s) : (World.init s).InOrder := by
  refine ⟨h.wired, fun ref r hr => ?_, fun r hr => ?_, fun ref => ?_⟩
  · simp [World.init, h.queue, Queue.init] at hr
  · simp [World.init, h.sorted] at hr
  · simp [World.init, State.history, h.queue, h.sorted, Queue.init]

/-- In every run, requests of one queue are dispatched in the order in which they were inserted, and those that
wait are behind those that were dispatched. -/
theorem requests_dispatched_in_order (P : Platform) (m : Mem) (env : Env) (s : State) (es : List Event)
    (w : World) (h0 : tbucketInitQueue P m env = some s) (hr : run (step P) (World.init s) es = some w)
    (ref : QRef) :
    (w.tb.sorted.filter (fun r => decide (w.tb.rqQueue r = some ref)) ++ (w.tb.queue ref).reqs).Sublist
      w.added := by
  exact (run_invariant (fun _ _ _ hs h => step_in_order hs h) hr
    (tbucketInitQueue_fresh h0).1.in_order).history ref

/-- Three reads of account 7, the second of which is merged with the third, and a dispatch. -/
theorem requests_dispatched_in_order_merged :
    ∃ s w, tbucketInitQueue .lp64 sampleMem sampleEnv = some s ∧
      run (step .lp64) (World.init s) [.add 0 7, .add 1 7, .add 2 7, .merge 1 2, .dispatch false] = some w ∧
      w.tb.sorted = [0] ∧ (w.tb.queue (7, false)).reqs = [2] ∧
      (w.tb.sorted.filter (fun r => decide (w.tb.rqQueue r = some (7, false))) ++
        (w.tb.queue (7, false)).reqs).Sublist w.added := by
  have h : ((tbucketInitQueue .lp64 sampleMem sampleEnv).bind fun s => run (step .lp64) (World.init s)
      [.add 0 7, .add 1 7, .add 2 7, .merge 1 2, .dispatch false]).any
      (fun w => decide (w.tb.sorted = [0] ∧ (w.tb.queue (7, false)).reqs = [2])) = true := by
    decide +kernel
  obtain ⟨w, hw, hok⟩ := (Option.any_eq_true _ _).mp h
  obtain ⟨s, hs, hr⟩ := Option.bind_eq_some_iff.mp hw
  obtain ⟨hsorted, hreqs⟩ := of_decide_eq_true hok
  exact ⟨s, w, hs, hr, hsorted, hreqs,
    requests_dispatched_in_order .lp64 sampleMem sampleEnv s _ w hs hr (7, false)⟩

/-! ## Queues that tokens do not hold back -/

/-- The account has tokens, and its count and limit are far from overflow. -/
def Funded (P : Platform) (a : Account) : Prop :=
  (0 < count P a ∧ count P a ≤ 2 ^ 62) ∧ 0 < a.limit ∧ a.limit ≤ 2 ^ 62

instance (P : Platform) (a : Account) : Decidable (Funded P a) :=
  inferInstanceAs (Decidable ((_ ∧ _) ∧ _ ∧ _))

theorem count_add_credit (a : Account) (d : Int) :
    count P { a with credit := P.long (a.credit + d) } = P.long (count P a + d) := by
  simp only [count, sub_eq_add_neg, P.long_add]
  congr 1
  ring

theorem saturateCounts_funded {a : Account} (hpos : 0 < count P a) (hfits : count P a < 2 ^ 63)
    (hlimit : 0 < a.limit ∧ a.limit ≤ 2 ^ 62) : Funded P (saturateCounts P a) := by
  have hdiff : P.long (count P a - a.limit) = count P a - a.limit :=
    P.long_fits _ (by omega) (by omega)
  simp only [saturateCounts, hdiff]
  split
  · -- what is above the limit is lost
    have hcount : P.long (count P a + -(count P a - a.limit)) = a.limit := by
      rw [neg_sub, add_sub_cancel]
      exact P.long_fits _ (by omega) (by omega)
    rw [← count_add_credit, ← sub_eq_add_neg] at hcount
    exact ⟨hcount.symm ▸ hlimit, hlimit⟩
  · exact ⟨⟨hpos, by omega⟩, hlimit⟩

theorem Funded.refresh (hP : P.IsLp64) {now : Timespec} {a b : Account} (h : Funded P a)
    (hr : refreshCount P now a = some b) : Funded P b := by
  obtain ⟨⟨hpos, hle⟩, hlimit⟩ := h
  have hinc := refreshInc_lp64 hP now a
  rw [refreshCount_eq, if_neg (by omega)] at hr
  split at hr
  · cases hr
    have hcount := count_add_credit (P := P) a (refreshInc P now a)
    rw [P.long_fits (count P a + refreshInc P now a) (by omega) (by omega)] at hcount
    exact saturateCounts_funded (by rw [hcount]; omega) (by rw [hcount]; omega) hlimit
  · cases hr
    exact ⟨⟨hpos, hle⟩, hlimit⟩

/-- Tokens do not hold the queue back: it holds writes, or its account has no rate, or tokens. -/
def Unthrottled (P : Platform) (s : State) (ref : QRef) : Prop :=
  ref.2 = true ∨ ∃ a ∈ s.accounts.find ref.1, a.rate ≤ 0 ∨ Funded P a

instance (P : Platform) (s : State) (ref : QRef) : Decidable (Unthrottled P s ref) :=
  inferInstanceAs (Decidable (_ ∨ _))

theorem Unthrottled.refresh (hP : P.IsLp64) {id : Int} (h : Unthrottled P s ref)
    (hr : refreshAccount P s id = some s') : Unthrottled P s' ref := by
  refine h.imp_right ?_
  rintro ⟨a, ha, hfree⟩
  simp only [refreshAccount] at hr
  split at hr
  · cases hr
  · rename_i b hb
    split at hr
    · cases hr
    · rename_i b' hb'
      cases hr
      by_cases hid : ref.1 = id
      · subst hid
        cases ha.symm.trans hb
        refine ⟨b', by simp [State.modifyAccount, Registry.modify, hb], ?_⟩
        rw [(refreshCount_same P hb').rate]
        exact hfree.imp_right fun hf => hf.refresh hP hb'
      · exact ⟨a, by simpa [State.modifyAccount, Registry.modify, hid] using ha, hfree⟩

theorem Unthrottled.mayRun (h : Unthrottled P s ref) : mayRun P s ref = true := by
  unfold Tb.mayRun
  rcases h with h | ⟨a, ha, hfree⟩
  · simp [h]
  · rw [Option.mem_def] at ha
    simp only [Registry.val, ha, Option.map_some, Option.getD_some]
    rcases hfree with hrate | ⟨⟨hpos, -⟩, -⟩
    · simp [hrate]
    · simp [hpos]

/-! ## One call, while a queue waits -/

/-- A queue was looked at. -/
structure Looked (P : Platform) (s s' : State) : Prop extends Passed s s' where
  runServeSize : s'.runServeSize = s.runServeSize
  sorted : s'.sorted = s.sorted
  rqs : s'.mem.rqs = s.mem.rqs
  unthrottled : P.IsLp64 → ∀ ref, Unthrottled P s ref → Unthrottled P s' ref

theorem Looked.refl (P : Platform) (s : State) : Looked P s s :=
  ⟨⟨rfl, rfl, rfl⟩, rfl, rfl, rfl, fun _ _ h => h⟩

theorem refreshAccount_looked {id : Int} (h : refreshAccount P s id = some s') : Looked P s s' := by
  obtain ⟨hp, hrun⟩ := refreshAccount_passed h
  have hg := refreshAccount_grows h
  exact ⟨hp, hrun, hg.sorted, hg.rqs, fun hP _ hun => hun.refresh hP h⟩

/-- The first request of the queue is served. -/
def Serves (P : Platform) (s : State) (q : QRef) (rq : Nat) (s' : State) : Prop :=
  ∃ s₁ s₂, Looked P s s₁ ∧ popQueue s₁ q = some (rq, s₂) ∧ s' = dispatchSort P s₂ q rq

theorem Serves.head {q : QRef} (h : Serves P s q rq s') : (s.queue q).reqs.head? = some rq := by
  obtain ⟨s₁, s₂, hl, hp, -⟩ := h
  obtain ⟨rest, hr, -⟩ := popQueue_some hp
  rw [← hl.queue, hr]
  rfl

/-- Charging may append the queues of new accounts. -/
theorem Serves.frame {q : QRef} (h : Serves P s q rq s') :
    (∃ new, s'.queues = s.queues ++ new) ∧ s'.sorted = s.sorted ++ [rq] ∧ s'.mem.rqs = s.mem.rqs ∧
      s'.runServeSize = P.long (s.runServeSize + (s.mem.rqs rq).bytes) := by
  obtain ⟨s₁, s₂, hl, hp, rfl⟩ := h
  obtain ⟨rest, -, -, hs₂⟩ := popQueue_some hp
  have hg := accountForReq_grows P s₂ rq
  obtain ⟨new, -, hnew, -⟩ := hg.created
  have hqueues : s₂.queues = s.queues := by rw [hs₂, ← hl.queues]; rfl
  have hsorted : s₂.sorted = s.sorted := by rw [hs₂, ← hl.sorted]; rfl
  have hrun : s₂.runServeSize = s.runServeSize := by rw [hs₂, ← hl.runServeSize]; rfl
  have hrqs : s₂.mem.rqs = s.mem.rqs := by rw [hs₂, ← hl.rqs]; rfl
  have hfields : (dispatchSort P s₂ q rq).queues = (accountForReq P s₂ rq).queues ∧
      (dispatchSort P s₂ q rq).sorted = (accountForReq P s₂ rq).sorted ++ [rq] ∧
      (dispatchSort P s₂ q rq).mem = (accountForReq P s₂ rq).mem ∧
      (dispatchSort P s₂ q rq).runServeSize = P.long ((accountForReq P s₂ rq).runServeSize +
        ((accountForReq P s₂ rq).mem.rqs rq).bytes) := by
    simp only [dispatchSort, dispatchStats]
    split_ifs <;> exact ⟨rfl, rfl, rfl, rfl⟩
  obtain ⟨hq, hs, hm, hr⟩ := hfields
  refine ⟨⟨_, hq.trans (hnew.trans (by rw [hqueues]))⟩, hs.trans (by rw [hg.sorted, hsorted]), ?_, ?_⟩
  · rw [hm, hg.rqs, hrqs]
  · rw [hr, hg.runServeSize, hg.rqs, hrun, hrqs]

/-- A visit below the limit. -/
theorem visit_outcomes {b : Bool} {q : QRef} {v : Visit} (h : visit P b s q = some v)
    (hl : s.runServeSize < runSizeLimit) :
    (∃ rq s', v = .served s' ∧ Serves P s q rq s') ∨
    (∃ u s', v = .anticipate u s' ∧ b = false ∧ Looked P s s' ∧ (s.queue q).reqs = []) ∨
    (∃ u s', v = .moveOn u s' ∧ Looked P s s' ∧
      (P.IsLp64 → ¬ (Unthrottled P s q ∧ (s.queue q).reqs ≠ []))) := by
  simp only [visit] at h
  split at h
  · cases h
  · rename_i s₁ hs₁
    have hlook := refreshAccount_looked hs₁
    have hclock : Looked P s { s₁ with env := s₁.env.getnstimeofday.2 } :=
      ⟨⟨hlook.queue, hlook.queues, hlook.nudges⟩, hlook.runServeSize, hlook.sorted, hlook.rqs,
        hlook.unthrottled⟩
    rw [if_neg (by rw [hlook.runServeSize]; omega)] at h
    split at h
    · split at h
      · rename_i rq s₂ hp
        cases h
        exact .inl ⟨rq, _, rfl, s₁, s₂, hlook, hp, rfl⟩
      · rename_i hp
        have hempty : (s.queue q).reqs = [] := by
          rw [← hlook.queue]
          exact popQueue_eq_none hp
        split at h
        · rename_i hb
          split at h
          · cases h
            exact .inr (.inl ⟨_, _, rfl, hb, hclock, hempty⟩)
          · cases h
            exact .inr (.inr ⟨_, _, rfl, hclock, fun _ hno => hno.2 hempty⟩)
        · cases h
          exact .inr (.inr ⟨_, _, rfl, hlook, fun _ hno => hno.2 hempty⟩)
    · rename_i hmay
      cases h
      refine .inr (.inr ⟨_, _, rfl, hlook, fun hP hno => hmay ?_⟩)
      exact (hlook.unthrottled hP q hno.1).mayRun

/-- Nothing is dispatched, and queues join the queue list at the tail. -/
structure Calm (s s' : State) : Prop where
  queues : ∃ new, s'.queues = s.queues ++ new
  runServeSize : s'.runServeSize = s.runServeSize
  sorted : s'.sorted = s.sorted

theorem Calm.of_same (hq : s'.queues = s.queues) (hr : s'.runServeSize = s.runServeSize)
    (hs : s'.sorted = s.sorted) : Calm s s' := ⟨⟨[], by simp [hq]⟩, hr, hs⟩

theorem Calm.trans {t : State} (h : Calm s t) (h' : Calm t s') : Calm s s' := by
  obtain ⟨new, hnew⟩ := h.queues
  obtain ⟨new', hnew'⟩ := h'.queues
  exact ⟨⟨new ++ new', by rw [hnew', hnew, List.append_assoc]⟩, h'.runServeSize.trans h.runServeSize,
    h'.sorted.trans h.sorted⟩

theorem Calm.length_le (h : Calm s s') : s.queues.length ≤ s'.queues.length := by
  obtain ⟨new, hnew⟩ := h.queues
  rw [hnew, List.length_append]
  omega

theorem Looked.calm (h : Looked P s s') : Calm s s' := .of_same h.queues h.runServeSize h.sorted

theorem Grows.calm (h : Grows s s') : Calm s s' := by
  obtain ⟨new, -, hnew, -⟩ := h.created
  exact ⟨⟨_, hnew⟩, h.runServeSize, h.sorted⟩

/-- What a call does while `ref` waits behind the queues `front`: it serves `ref`, or one of those, having moved
the queues before that one to the tail, or it waits for the queue at the head. -/
inductive Turn (P : Platform) (s : State) (ref : QRef) (front : List QRef) : Option Int × State → Prop where
  | own {s' : State} {rq : Nat} (hhead : (s.queue ref).reqs.head? = some rq)
      (hsorted : s'.sorted = s.sorted ++ [rq]) : Turn P s ref front (none, s')
  | other {s' : State} {q : QRef} {passed mid back : List QRef} {rq : Nat}
      (hfront : front = passed ++ q :: mid) (hqueues : s'.queues = q :: mid ++ ref :: back)
      (hhead : (s.queue q).reqs.head? = some rq)
      (hsorted : s'.sorted = s.sorted ++ [rq]) (hlimit : passed = [] → s.runServeSize < runSizeLimit)
      (hrun : s'.runServeSize =
        P.long ((if passed = [] then s.runServeSize else 0) + (s.mem.rqs rq).bytes)) :
      Turn P s ref front (none, s')
  | wait {s' : State} {usecs : Int} (hcalm : Calm s s') : Turn P s ref front (some usecs, s')

/-- The queue at the head is served. -/
theorem Serves.turn {q : QRef} {front back : List QRef} (h : Serves P s q rq s')
    (hq : s.queues = q :: front ++ ref :: back) (hl : s.runServeSize < runSizeLimit) :
    Turn P s ref (q :: front) (none, s') := by
  obtain ⟨⟨new, hnew⟩, hsorted, -, hrun⟩ := h.frame
  have hqueues : s'.queues = q :: front ++ ref :: (back ++ new) := by
    rw [hnew, hq]
    simp
  exact .other (List.nil_append _).symm hqueues h.head hsorted (fun _ => hl) hrun

/-- The queue at the head was moved to the tail first. -/
theorem Turn.rotated {q : QRef} {front : List QRef} {t : State} (hlook : Looked P s s')
    (h : Turn P (rotate s') ref front (none, t)) : Turn P s ref (q :: front) (none, t) := by
  have hsorted' : (rotate s').sorted = s.sorted := hlook.sorted
  have hqueue : (rotate s').queue = s.queue := hlook.queue
  cases h with
  | own hhead hsorted =>
    rw [hqueue] at hhead
    exact .own hhead (by rw [hsorted, hsorted'])
  | @other _ q' passed mid back rq hfront hqueues hhead hsorted hlimit hrun =>
    have hrqs : (rotate s').mem.rqs = s.mem.rqs := hlook.rqs
    have hzero : (if passed = [] then (rotate s').runServeSize else 0) = 0 := ite_self (0 : Int)
    have hfront' : q :: front = (q :: passed) ++ q' :: mid := by rw [hfront, List.cons_append]
    rw [hqueue] at hhead
    refine .other hfront' hqueues hhead (by rw [hsorted, hsorted']) (fun hnil => by cases hnil) ?_
    rw [hrun, hzero, hrqs, if_neg (List.cons_ne_nil q passed)]

theorem dispatchLoop_turn (hP : P.IsLp64) (front : List QRef) : ∀ {n : Nat} {b : Bool} {m : Int} {s : State}
    {back : List QRef} {r : Option Int × State}, s.queues = front ++ ref :: back → front.length < n →
    s.runServeSize < runSizeLimit → Unthrottled P s ref → (s.queue ref).reqs ≠ [] →
    dispatchLoop P n b m s = some r →
    Turn P s ref front r ∧ (b = true → r.1 = none) := by
  induction front with
  | nil =>
    intro n b m s back r hq hn hl hun hne h
    obtain ⟨n, rfl⟩ : ∃ k, n = k + 1 := ⟨n - 1, by simp at hn; omega⟩
    simp only [dispatchLoop, hq, List.nil_append] at h
    cases hv : visit P b s ref with
    | none => simp [hv] at h
    | some v =>
      rcases visit_outcomes hv hl with ⟨rq, s', rfl, hs⟩ | ⟨u, s', rfl, -, -, hempty⟩ |
        ⟨u, s', rfl, -, hno⟩
      · simp only [hv, Option.some.injEq] at h
        subst h
        exact ⟨.own hs.head hs.frame.2.1, fun _ => rfl⟩
      · exact absurd hempty hne
      · exact absurd ⟨hun, hne⟩ (hno hP)
  | cons q front ih =>
    intro n b m s back r hq hn hl hun hne h
    obtain ⟨n, rfl⟩ : ∃ k, n = k + 1 := ⟨n - 1, by simp at hn; omega⟩
    simp only [dispatchLoop, hq, List.cons_append] at h
    cases hv : visit P b s q with
    | none => simp [hv] at h
    | some v =>
      rcases visit_outcomes hv hl with ⟨rq, s', rfl, hs⟩ | ⟨u, s', rfl, hb, hlook, -⟩ |
        ⟨u, s', rfl, hlook, -⟩
      · simp only [hv, Option.some.injEq] at h
        subst h
        exact ⟨hs.turn hq hl, fun _ => rfl⟩
      · simp only [hv, Option.some.injEq] at h
        subst h
        refine ⟨.wait hlook.calm, fun ht => ?_⟩
        rw [hb] at ht
        cases ht
      · simp only [hv] at h
        have hq' : (rotate s').queues = front ++ ref :: (back ++ [q]) := by
          simp [rotate, hlook.queues, hq]
        have hqueue : (rotate s').queue = s.queue := hlook.queue
        have hun' : Unthrottled P (rotate s') ref := hlook.unthrottled hP ref hun
        obtain ⟨hturn, hnone⟩ := ih hq' (by simpa using hn) (rotate_below_limit s') hun'
          (by rw [hqueue]; exact hne) h
        refine ⟨?_, fun _ => hnone rfl⟩
        obtain ⟨o, t⟩ := r
        cases hnone rfl
        exact .rotated hlook hturn

/-- What a call does after `ref` has used up its run and was moved to the tail: it serves one of the other
queues, or it has visited all of them and `ref` is at the head again. -/
theorem dispatchLoop_others (front : List QRef) : ∀ {m : Int} {s : State} {back : List QRef}
    {r : Option Int × State}, s.queues = front ++ ref :: back → s.runServeSize = 0 →
    dispatchLoop P front.length true m s = some r →
    (∃ t, r = (none, t) ∧ Turn P s ref front (none, t)) ∨
    ∃ u t, r = (some u, t) ∧ t.queues = ref :: back ++ front ∧ t.runServeSize = 0 ∧
      t.sorted = s.sorted := by
  induction front with
  | nil =>
    intro m s back r hq hrun h
    simp only [List.length_nil, dispatchLoop, Option.some.injEq] at h
    exact .inr ⟨m, s, h.symm, by simp [hq], hrun, rfl⟩
  | cons q front ih =>
    intro m s back r hq hrun h
    have hl : s.runServeSize < runSizeLimit := by rw [hrun]; decide
    simp only [List.length_cons, dispatchLoop, hq, List.cons_append] at h
    cases hv : visit P true s q with
    | none => simp [hv] at h
    | some v =>
      rcases visit_outcomes hv hl with ⟨rq, s', rfl, hs⟩ | ⟨u, s', rfl, hb, -⟩ | ⟨u, s', rfl, hlook, -⟩
      · simp only [hv, Option.some.injEq] at h
        exact .inl ⟨s', h.symm, hs.turn hq hl⟩
      · cases hb
      · simp only [hv] at h
        have hq' : (rotate s').queues = front ++ ref :: (back ++ [q]) := by
          simp [rotate, hlook.queues, hq]
        rcases ih hq' rfl h with ⟨t, hr, hturn⟩ | ⟨u, t, hr, hqueues, hzero, hsorted⟩
        · exact .inl ⟨t, hr, .rotated hlook hturn⟩
        · exact .inr ⟨u, t, hr, by simp [hqueues], hzero, hsorted.trans hlook.sorted⟩

theorem decline_calm (P : Platform) (usecs : Int) (s : State) : Calm s (decline P usecs s) := by
  simp only [decline]
  split_ifs <;> exact .of_same rfl rfl rfl

/-- What the loop has done when the call returns. -/
theorem tbucketDispatch_loop (hw : Wired s) {r : Int × State} (h : tbucketDispatch P s false = some r) :
    ∃ o t, dispatchLoop P s.queues.length false 0 s = some (o, t) ∧ Calm t r.2 := by
  rw [tbucketDispatch_eq hw] at h
  split at h
  · cases h
  · rename_i t ht
    cases h
    exact ⟨none, t, ht, .of_same rfl rfl rfl⟩
  · rename_i u t ht
    cases h
    exact ⟨some u, t, ht, decline_calm P u t⟩

/-- The queue is at the head and has used up its run. -/
def State.UsedUp (s : State) (ref : QRef) : Prop :=
  s.queues.head? = some ref ∧ runSizeLimit ≤ s.runServeSize

instance (s : State) (ref : QRef) : Decidable (s.UsedUp ref) := inferInstanceAs (Decidable (_ ∧ _))

theorem tbucketDispatch_turn (hP : P.IsLp64) (hw : Wired s) {front back : List QRef}
    (hq : s.queues = front ++ ref :: back) (hnot : ¬ s.UsedUp ref) (hun : Unthrottled P s ref)
    (hne : (s.queue ref).reqs ≠ []) {r : Int × State} (h : tbucketDispatch P s false = some r) :
    ∃ o t, Turn P s ref front (o, t) ∧ Calm t r.2 := by
  obtain ⟨o, t, ho, hcalm⟩ := tbucketDispatch_loop hw h
  refine ⟨o, t, ?_, hcalm⟩
  by_cases hl : s.runServeSize < runSizeLimit
  · exact (dispatchLoop_turn hP front hq (by rw [hq]; simp) hl hun hne ho).1
  · -- the queue at the head is another one
    have hcons : front ≠ [] := by
      rintro rfl
      exact hnot ⟨by rw [hq]; rfl, not_lt.mp hl⟩
    obtain ⟨q, front, rfl⟩ := List.exists_cons_of_ne_nil hcons
    obtain ⟨s₁, hs₁, hq₁, hloop⟩ := dispatchLoop_limit hq (not_lt.mp hl) ho
    have hlook := refreshAccount_looked hs₁
    have hqueue : (rotate s₁).queue = s.queue := hlook.queue
    have hun₁ : Unthrottled P (rotate s₁) ref := hlook.unthrottled hP ref hun
    obtain ⟨hturn, hnone⟩ := dispatchLoop_turn hP front (hq₁.trans (List.append_assoc ..)) (by simp)
      (rotate_below_limit s₁) hun₁ (by rw [hqueue]; exact hne) hloop
    cases hnone rfl
    exact .rotated hlook hturn

theorem tbucketDispatch_used_up (hw : Wired s) {rest : List QRef} (hq : s.queues = ref :: rest)
    (hl : runSizeLimit ≤ s.runServeSize) {r : Int × State} (h : tbucketDispatch P s false = some r) :
    ∃ t, Calm t r.2 ∧
      ((∃ s₁, Looked P s s₁ ∧ (rotate s₁).queues = rest ++ [ref] ∧ Turn P (rotate s₁) ref rest (none, t)) ∨
        t.queues = ref :: rest ∧ t.runServeSize = 0 ∧ t.sorted = s.sorted) := by
  obtain ⟨o, t, ho, hcalm⟩ := tbucketDispatch_loop hw h
  obtain ⟨s₁, hs₁, hq₁, hloop⟩ := dispatchLoop_limit hq hl ho
  have hlook := refreshAccount_looked hs₁
  refine ⟨t, hcalm, ?_⟩
  rcases dispatchLoop_others rest hq₁ rfl hloop with ⟨t', hr, hturn⟩ | ⟨u, t', hr, hqueues, hrun, hsorted⟩
  · cases hr
    exact .inl ⟨s₁, hlook, hq₁, hturn⟩
  · cases hr
    exact .inr ⟨by simpa using hqueues, hrun, hsorted.trans hlook.sorted⟩

/-! ## What a call pays for -/

/-- How many bytes may be dispatched before the queue is served, if no request is larger than `M`: the runs of
the queues in front of it, less what the queue at the head has had of its own. -/
def State.ahead (s : State) (ref : QRef) (M : Nat) : Nat :=
  s.queues.idxOf ref * (runSizeLimit.toNat + M) - min s.runServeSize.toNat (runSizeLimit.toNat + M)

/-- The same for a queue that may have used up its run, if there will be at most `n` queues: it is moved to the
tail, and waits for all others. -/
def State.owed (s : State) (ref : QRef) (M n : Nat) : Nat :=
  if s.UsedUp ref then (n - 1) * (runSizeLimit.toNat + M) else s.ahead ref M

def State.bytes (s : State) (rqs : List Nat) : Nat := (rqs.map fun r => (s.mem.rqs r).bytes).sum

/-- What was dispatched instead of `ref` is paid for. -/
structure Paid (s : State) (ref : QRef) (M n : Nat) (s' : State) : Prop where
  mem : ref ∈ s'.queues
  runServeSize : 0 ≤ s'.runServeSize
  sent : ∃ rqs, s'.sorted = s.sorted ++ rqs ∧ s.bytes rqs + s'.owed ref M n ≤ s.owed ref M n

section Paid

variable {M n : Nat} {t : State} {front back rest : List QRef} {o : Option Int}

theorem Calm.owed (h : Calm s s') (hmem : ref ∈ s.queues) : s'.owed ref M n = s.owed ref M n := by
  obtain ⟨⟨new, hnew⟩, hrun, -⟩ := h
  have hplace : s'.queues.idxOf ref = s.queues.idxOf ref := by
    rw [hnew, List.idxOf_append_of_mem hmem]
  have hhead : s'.queues.head? = s.queues.head? := by
    rw [hnew, List.head?_append_of_ne_nil _ (List.ne_nil_of_mem hmem)]
  have hused : s'.UsedUp ref ↔ s.UsedUp ref := by rw [State.UsedUp, State.UsedUp, hhead, hrun]
  simp only [State.owed, State.ahead, hused, hplace, hrun]

theorem Paid.refl (hmem : ref ∈ s.queues) (hrun : 0 ≤ s.runServeSize) : Paid s ref M n s :=
  ⟨hmem, hrun, [], by simp, by simp [State.bytes]⟩

theorem Paid.calm (h : Paid s ref M n t) (hc : Calm t s') : Paid s ref M n s' := by
  obtain ⟨rqs, hsorted, hpaid⟩ := h.sent
  obtain ⟨new, hnew⟩ := hc.queues
  refine ⟨by rw [hnew]; exact List.mem_append_left _ h.mem, by rw [hc.runServeSize]; exact h.runServeSize,
    rqs, hc.sorted.trans hsorted, ?_⟩
  rw [hc.owed h.mem]
  exact hpaid

theorem idxOf_append_cons (h : ref ∉ front) : (front ++ ref :: back).idxOf ref = front.length := by
  rw [List.idxOf_append_of_notMem h, List.idxOf_cons_self, Nat.add_zero]

theorem not_usedUp_of_front {q : QRef} (hq : s.queues = q :: front ++ ref :: back) (h : ref ∉ q :: front) :
    ¬ s.UsedUp ref := by
  rintro ⟨hhead, -⟩
  rw [hq] at hhead
  cases hhead
  exact h List.mem_cons_self

theorem Turn.paid (h : Turn P s ref front (o, t)) (hq : s.queues = front ++ ref :: back)
    (hnot : ref ∉ front) (hused : ¬ s.UsedUp ref) (hM : M < 2 ^ 62)
    (hbytes : ∀ q, ∀ r ∈ (s.queue q).reqs, (s.mem.rqs r).bytes ≤ M) (hrun : 0 ≤ s.runServeSize)
    (hx : x ∉ t.sorted) (hhead : (s.queue ref).reqs.head? = some x) : Paid s ref M n t := by
  have hlimit : runSizeLimit = 10485760 := rfl
  cases h with
  | own hhead' hsorted =>
    cases hhead.symm.trans hhead'
    exact absurd (by rw [hsorted]; simp) hx
  | @other _ q passed mid back' rq hfront hqueues hhead' hsorted hbelow hrun' =>
    have hb := hbytes q rq (List.mem_of_mem_head? hhead')
    have hmid : ref ∉ q :: mid := fun hmem => hnot (by rw [hfront]; exact List.mem_append_right _ hmem)
    have hplace : s.queues.idxOf ref = passed.length + (mid.length + 1) := by
      rw [hq, idxOf_append_cons hnot, hfront]
      simp
    have hplace' : t.queues.idxOf ref = mid.length + 1 := by
      rw [hqueues, idxOf_append_cons hmid]
      rfl
    suffices hpaid : 0 ≤ t.runServeSize ∧ (s.mem.rqs rq).bytes + t.ahead ref M ≤ s.ahead ref M from by
      refine ⟨by rw [hqueues]; simp, hpaid.1, [rq], hsorted, ?_⟩
      rw [State.owed, State.owed, if_neg hused, if_neg (not_usedUp_of_front hqueues hmid)]
      simpa [State.bytes] using hpaid.2
    have hK : runSizeLimit.toNat + M ≤ (mid.length + 1) * (runSizeLimit.toNat + M) :=
      Nat.le_mul_of_pos_left _ (Nat.succ_pos _)
    rw [State.ahead, State.ahead, hplace, hplace', hrun']
    cases passed with
    | nil =>
      -- the run of the queue at the head goes on
      have hl := hbelow rfl
      rw [if_pos rfl, P.long_fits _ (by omega) (by omega), List.length_nil, Nat.zero_add]
      omega
    | cons q' passed =>
      -- the queue at the head gives up the rest of its run
      have hmul : ((q' :: passed).length + (mid.length + 1)) * (runSizeLimit.toNat + M) =
          passed.length * (runSizeLimit.toNat + M) + (runSizeLimit.toNat + M) +
            (mid.length + 1) * (runSizeLimit.toNat + M) := by
        rw [List.length_cons]
        ring
      rw [if_neg (List.cons_ne_nil q' passed), zero_add, P.long_fits _ (by omega) (by omega), hmul]
      omega
  | wait hcalm => exact (Paid.refl (by rw [hq]; simp) hrun).calm hcalm

/-- At the tail, the queue waits for the other queues. -/
theorem Paid.of_rotated (h : Paid (rotate s') ref M n t) (hlook : Looked P s s')
    (hused : s.UsedUp ref) (hrotated : ¬ (rotate s').UsedUp ref)
    (hlen : (rotate s').queues.idxOf ref ≤ n - 1) : Paid s ref M n t := by
  obtain ⟨rqs, hsorted, hpaid⟩ := h.sent
  have hrqs : (rotate s').mem.rqs = s.mem.rqs := hlook.rqs
  have hsame : (rotate s').sorted = s.sorted := hlook.sorted
  refine ⟨h.mem, h.runServeSize, rqs, by rw [hsorted, hsame], ?_⟩
  have hahead : (rotate s').ahead ref M ≤ (n - 1) * (runSizeLimit.toNat + M) :=
    (Nat.sub_le ..).trans (Nat.mul_le_mul_right _ hlen)
  simp only [State.bytes, State.owed, hrqs, if_pos hused, if_neg hrotated] at hpaid ⊢
  omega

theorem dispatch_paid_usedUp (hw : Wired s) (hused : s.UsedUp ref) (hhead : (s.queue ref).reqs.head? = some x)
    (hM : M < 2 ^ 62) (hbytes : ∀ q, ∀ r ∈ (s.queue q).reqs, (s.mem.rqs r).bytes ≤ M)
    (hlen : s.queues.length ≤ n) {r : Int × State} (h : tbucketDispatch P s false = some r)
    (hx : x ∉ r.2.sorted) : Paid s ref M n r.2 := by
  have hq : s.queues = ref :: s.queues.tail := List.eq_cons_of_mem_head? hused.1
  have hnot : ref ∉ s.queues.tail := (List.nodup_cons.mp (hq ▸ hw.nodup)).1
  obtain ⟨t, hcalm, hcase⟩ := tbucketDispatch_used_up hw hq hused.2 h
  rcases hcase with ⟨s₁, hlook, hq₁, hturn⟩ | ⟨hqueues, hzero, hsorted⟩
  · have hqueue : (rotate s₁).queue = s.queue := hlook.queue
    have hrqs : (rotate s₁).mem.rqs = s.mem.rqs := hlook.rqs
    have hrotated : ¬ (rotate s₁).UsedUp ref := fun hu => absurd (rotate_below_limit s₁) (not_lt.mpr hu.2)
    have hpaid : Paid (rotate s₁) ref M n t :=
      hturn.paid (x := x) hq₁ hnot hrotated hM (by rw [hqueue, hrqs]; exact hbytes) (le_refl 0)
        (by rw [← hcalm.sorted]; exact hx) (by rw [hqueue]; exact hhead)
    refine (hpaid.of_rotated hlook hused hrotated ?_).calm hcalm
    rw [hq₁, idxOf_append_cons hnot, List.length_tail]
    omega
  · -- all others were visited, and nothing is owed to them any more
    have hfree : ¬ t.UsedUp ref := fun hu => absurd (hzero ▸ hu.2) (by decide)
    have hnone : t.owed ref M n = 0 := by
      rw [State.owed, if_neg hfree, State.ahead, hqueues, List.idxOf_cons_self, Nat.zero_mul, Nat.zero_sub]
    have hpaid : Paid s ref M n t :=
      ⟨by rw [hqueues]; exact List.mem_cons_self, hzero.ge, [], by simp [hsorted], by simp [hnone, State.bytes]⟩
    exact hpaid.calm hcalm

theorem dispatch_paid (hP : P.IsLp64) (hw : Wired s) (hun : Unthrottled P s ref)
    (hhead : (s.queue ref).reqs.head? = some x) (hM : M < 2 ^ 62)
    (hbytes : ∀ q, ∀ r ∈ (s.queue q).reqs, (s.mem.rqs r).bytes ≤ M) (hrun : 0 ≤ s.runServeSize)
    (hlen : s.queues.length ≤ n) {r : Int × State} (h : tbucketDispatch P s false = some r)
    (hx : x ∉ r.2.sorted) : Paid s ref M n r.2 := by
  by_cases hused : s.UsedUp ref
  · exact dispatch_paid_usedUp hw hused hhead hM hbytes hlen h hx
  · have hne : (s.queue ref).reqs ≠ [] := by
      intro hnil
      simp [hnil] at hhead
    have hmem : ref ∈ s.queues := (hw.mem_iff ref).mpr (mem_keys_of_queue hne)
    obtain ⟨front, back, hq, hnot⟩ := List.eq_append_cons_of_mem hmem
    obtain ⟨o, t, hturn, hcalm⟩ := tbucketDispatch_turn hP hw hq hused hun hne h
    exact (hturn.paid hq hnot hused hM hbytes hrun (by rw [← hcalm.sorted]; exact hx) hhead).calm hcalm

end Paid

/-! ## Steps -/

def Event.isDispatch : Event → Bool
  | .dispatch _ => true
  | _ => false

theorem Event.eq_dispatch (h : e.isDispatch = true) : ∃ force, e = .dispatch force := by
  cases e with
  | dispatch force => exact ⟨force, rfl⟩
  | _ => cases h

theorem tbucketAddRequest_calm (P : Platform) (s : State) (rq : Nat) (cur : Int) :
    Calm s (tbucketAddRequest P s rq cur) := by
  have htag : Calm s (tagRequest s rq cur) := by
    simp only [tagRequest]
    split
    · exact .of_same rfl rfl rfl
    · exact .of_same rfl rfl rfl
  have hget := (getAccount_grows P (tagRequest s rq cur) (getOneCause (tagRequest s rq cur).mem rq)).calm
  obtain ⟨hqueues, hrun, hsorted⟩ := htag.trans hget
  exact ⟨hqueues, hrun, hsorted⟩

theorem step_calm (h : step P w e = some w') (he : e.isDispatch = false) : Calm w.tb w'.tb := by
  cases e with
  | add rq cur =>
    simp only [step] at h
    split at h
    · cases h
    · cases h
      exact tbucketAddRequest_calm P w.tb rq cur
  | merge rq next =>
    simp only [step, tbucketMergeRequest, queueDel] at h
    split at h
    · split at h
      · cases h
      · cases h
        exact .of_same rfl rfl rfl
    · cases h
  | dispatch force => cases he
  | complete =>
    cases h
    exact .of_same rfl rfl rfl
  | kvSet id key val =>
    cases h
    exact (tbucketKvSet_grows P _ _ _ _).calm
  | dirty q l task bSize inode pos =>
    cases h
    simp only [dirtyBuffer]
    split
    · simp only [tbucketCausesDirty]
      obtain ⟨hqueues, hrun, hsorted⟩ := Grows.calm (foldl_chargeEstimate_grows P _ _ _)
      exact ⟨hqueues, hrun, hsorted⟩
    · exact .of_same rfl rfl rfl
  | free l =>
    cases h
    exact (freeCauseList_grows P _ _).calm
  | throttle id uniq =>
    obtain ⟨r, hr, rfl⟩ := Option.map_eq_some_iff.mp h
    exact (maybeSleep_grows hr).calm
  | kernel m =>
    cases h
    exact .of_same rfl rfl rfl

/-- The queue list only grows. -/
theorem Act.queues_length (h : Act P s s') : s.queues.length ≤ s'.queues.length := by
  cases h with
  | idle _ hqueues => rw [hqueues]
  | charge hg => exact hg.calm.length_le
  | @serve s₁ q rq hp =>
    obtain ⟨⟨new, hnew⟩, -⟩ := Serves.frame (P := P) ⟨s, s₁, .refl P s, hp, rfl⟩
    rw [hnew, List.length_append]
    omega
  | rotate =>
    cases hq : s.queues with
    | nil => simp
    | cons q rest => simp [Tb.rotate, hq]

theorem step_queues_length (h : step P w e = some w') : w.tb.queues.length ≤ w'.tb.queues.length := by
  by_cases hd : e.isDispatch = true
  · obtain ⟨force, rfl⟩ := Event.eq_dispatch hd
    have hplain : Event.Plain (.dispatch force) := trivial
    exact (step_acts hplain h).1.keep (I := fun s => w.tb.queues.length ≤ s.queues.length)
      (fun _ _ ha hle => hle.trans ha.queues_length) (le_refl _)
  · exact (step_calm h (Bool.eq_false_of_not_eq_true hd)).length_le

/-- The bytes of the requests that an event hands over. -/
def sentBytes (P : Platform) (w : World) (e : Event) : Nat :=
  match step P w e with
  | none => 0
  | some w' => w.tb.bytes (w'.tb.sorted.drop w.tb.sorted.length)

theorem sentBytes_eq (h : step P w e = some w') {rqs : List Nat}
    (hs : w'.tb.sorted = w.tb.sorted ++ rqs) : sentBytes P w e = w.tb.bytes rqs := by
  simp only [sentBytes, h, hs, List.drop_left]

/-! ## The size of the run -/

/-- The requests `rqs` were handed over, and `run_serve_size` has grown by no more than their bytes. -/
structure Sends (s : State) (rqs : List Nat) (s' : State) : Prop where
  sorted : s'.sorted = s.sorted ++ rqs
  kept : s'.mem.rqs = s.mem.rqs
  run : 0 ≤ s.runServeSize → s.runServeSize + s.bytes rqs < 2 ^ 63 →
    0 ≤ s'.runServeSize ∧ s'.runServeSize ≤ s.runServeSize + s.bytes rqs

theorem Sends.of_same (hs : s'.sorted = s.sorted) (hm : s'.mem.rqs = s.mem.rqs)
    (hr : 0 ≤ s.runServeSize → 0 ≤ s'.runServeSize ∧ s'.runServeSize ≤ s.runServeSize) : Sends s [] s' :=
  ⟨by simp [hs], hm, fun h _ => by simpa [State.bytes] using hr h⟩

theorem Sends.trans {t : State} {rqs rqs' : List Nat} (h : Sends s rqs t) (h' : Sends t rqs' s') :
    Sends s (rqs ++ rqs') s' := by
  have hbytes : s.bytes (rqs ++ rqs') = s.bytes rqs + t.bytes rqs' := by
    simp [State.bytes, h.kept]
  refine ⟨by rw [h'.sorted, h.sorted, List.append_assoc], h'.kept.trans h.kept, fun hpos hfits => ?_⟩
  rw [hbytes] at hfits ⊢
  obtain ⟨ht, hle⟩ := h.run hpos (by omega)
  obtain ⟨ht', hle'⟩ := h'.run ht (by omega)
  omega

theorem Looked.sends (h : Looked P s s') : Sends s [] s' :=
  .of_same h.sorted h.rqs fun hpos => by rw [h.runServeSize]; exact ⟨hpos, le_refl _⟩

theorem rotate_sends (s : State) : Sends s [] (rotate s) :=
  .of_same rfl rfl fun hpos => ⟨le_refl 0, hpos⟩

theorem Serves.sends {q : QRef} (h : Serves P s q rq s') : Sends s [rq] s' := by
  obtain ⟨-, hsorted, hrqs, hrun⟩ := h.frame
  refine ⟨hsorted, hrqs, fun hpos hfits => ?_⟩
  simp only [State.bytes, List.map_singleton, List.sum_singleton] at hfits ⊢
  rw [hrun, P.long_fits _ (by omega) hfits]
  omega

theorem dispatchLoop_sends (n : Nat) : ∀ {b : Bool} {m : Int} {s : State} {r : Option Int × State},
    dispatchLoop P n b m s = some r → ∃ rqs, Sends s rqs r.2 := by
  induction n with
  | zero =>
    intro b m s r h
    cases h
    exact ⟨[], (Looked.refl P s).sends⟩
  | succ n ih =>
    intro b m s r h
    simp only [dispatchLoop] at h
    split at h
    · cases h
    · rename_i q rest hq
      have hmove : ∀ {u : Int} {s₁ : State}, Looked P s s₁ → dispatchLoop P n true u (rotate s₁) = some r →
          ∃ rqs, Sends s rqs r.2 := by
        intro u s₁ hlook hloop
        obtain ⟨rqs, hrest⟩ := ih hloop
        exact ⟨[] ++ [] ++ rqs, (hlook.sends.trans (rotate_sends s₁)).trans hrest⟩
      cases hv : visit P b s q with
      | none => simp [hv] at h
      | some v =>
        by_cases hl : s.runServeSize < runSizeLimit
        · rcases visit_outcomes hv hl with ⟨rq, s', rfl, hs⟩ | ⟨u, s', rfl, -, hlook, -⟩ |
            ⟨u, s', rfl, hlook, -⟩
          · simp only [hv, Option.some.injEq] at h
            subst h
            exact ⟨[rq], hs.sends⟩
          · simp only [hv, Option.some.injEq] at h
            subst h
            exact ⟨[], hlook.sends⟩
          · simp only [hv] at h
            exact hmove hlook h
        · obtain ⟨s', hs', rfl⟩ := visit_limit hv (not_lt.mp hl)
          simp only [hv] at h
          exact hmove (refreshAccount_looked hs') h

theorem forceLoop_sends (P : Platform) (k rv : Nat) (s : State) :
    ∃ rqs, Sends s rqs (forceLoop P k rv s).2 := by
  fun_induction forceLoop P k rv s with
  | case1 k rv s hlt rq s' hp ih =>
    obtain ⟨rqs, hrest⟩ := ih
    have hfirst : Sends s [rq] (dispatchSort P s' s.queues[k] rq) :=
      Serves.sends (P := P) ⟨s, s', .refl P s, hp, rfl⟩
    exact ⟨[rq] ++ rqs, hfirst.trans hrest⟩
  | case2 k rv s hlt hp ih => exact ih
  | case3 k rv s hge => exact ⟨[], (Looked.refl P s).sends⟩

theorem decline_mem (P : Platform) (usecs : Int) (s : State) : (decline P usecs s).mem = s.mem := by
  simp only [decline]
  split_ifs <;> rfl

theorem tbucketDispatch_sends {force : Bool} {r : Int × State} (h : tbucketDispatch P s force = some r) :
    ∃ rqs, Sends s rqs r.2 := by
  simp only [tbucketDispatch] at h
  split at h
  · cases h
    exact forceLoop_sends P 0 0 s
  · split at h
    · cases h
      exact ⟨[], (Looked.refl P _).sends⟩
    · split at h
      · cases h
      · rename_i hloop
        cases h
        exact dispatchLoop_sends _ hloop
      · rename_i u t hloop
        cases h
        obtain ⟨rqs, hsends⟩ := dispatchLoop_sends _ hloop
        have hcalm := decline_calm P u t
        refine ⟨rqs ++ [], hsends.trans (.of_same hcalm.sorted (by rw [decline_mem]) fun hpos => ?_)⟩
        rw [hcalm.runServeSize]
        exact ⟨hpos, le_refl _⟩

theorem step_run (h : step P w e = some w') (hrun : 0 ≤ w.tb.runServeSize)
    (hfits : w.tb.runServeSize + sentBytes P w e < 2 ^ 63) :
    0 ≤ w'.tb.runServeSize ∧ w'.tb.runServeSize ≤ w.tb.runServeSize + sentBytes P w e := by
  by_cases hd : e.isDispatch = true
  · obtain ⟨force, rfl⟩ := Event.eq_dispatch hd
    obtain ⟨r, hr, hw⟩ := Option.map_eq_some_iff.mp h
    obtain ⟨rqs, hsends⟩ := tbucketDispatch_sends hr
    subst hw
    rw [sentBytes_eq h hsends.sorted] at hfits ⊢
    exact hsends.run hrun hfits
  · have hcalm := step_calm h (Bool.eq_false_of_not_eq_true hd)
    rw [hcalm.runServeSize]
    omega

/-- `run_serve_size` is not negative, while it cannot have overflowed. -/
theorem run_run (es : List Event) : ∀ {w : World}, run (step P) w es = some w' → 0 ≤ w.tb.runServeSize →
    w.tb.runServeSize + runCost (step P) (sentBytes P) w es < 2 ^ 63 → 0 ≤ w'.tb.runServeSize := by
  induction es with
  | nil =>
    intro w hr hrun _
    cases hr
    exact hrun
  | cons e es ih =>
    intro w hr hrun hfits
    obtain ⟨t, ht, hr⟩ := run_cons_some hr
    simp only [runCost, ht] at hfits
    obtain ⟨hpos, hle⟩ := step_run ht hrun (by omega)
    exact ih hr hpos (by omega)

theorem tbucketInitQueue_run {m : Mem} {env : Env} (h : tbucketInitQueue P m env = some s) :
    s.runServeSize = 0 := by
  simp only [tbucketInitQueue] at h
  split at h
  · cases h
  · split at h
    · cases h
      rfl
    · cases h

/-! ## Stretches of a run -/

/-- The request `x` waits at the head of a queue that is not held back, and no request is larger than `M`. -/
def Waits (P : Platform) (ref : QRef) (x M : Nat) (w : World) : Prop :=
  x ∉ w.tb.sorted ∧ (w.tb.queue ref).reqs.head? = some x ∧ Unthrottled P w.tb ref ∧
    ∀ r ∈ w.added, (w.tb.mem.rqs r).bytes ≤ M

instance (P : Platform) (ref : QRef) (x M : Nat) (w : World) : Decidable (Waits P ref x M w) :=
  inferInstanceAs (Decidable (_ ∧ _ ∧ _ ∧ _))

/-- A forced dispatch leaves no request waiting. -/
theorem forced_not_waits (hw : Wired w.tb) (h : step P w (.dispatch true) = some w') {M : Nat} :
    ¬ Waits P ref x M w' := by
  rintro ⟨-, hhead, -⟩
  have hw' := step_wired h hw
  have hne : (w'.tb.queue ref).reqs ≠ [] := by
    intro hnil
    simp [hnil] at hhead
  have hmem : ref ∈ w'.tb.queues := (hw'.mem_iff ref).mpr (mem_keys_of_queue hne)
  cases h
  exact hne ((forceLoop_spec P 0 0 w.tb hw (Nat.zero_le _) (by intro q hq; simp at hq)).2.2 ref hmem)

theorem step_paid (hP : P.IsLp64) {M n : Nat} (hM : M < 2 ^ 62) (h : step P w e = some w')
    (hw : Waits P ref x M w) (hw' : Waits P ref x M w') (hlen : w.tb.queues.length ≤ n)
    (ho : w.InOrder) (hrun : 0 ≤ w.tb.runServeSize) : Paid w.tb ref M n w'.tb := by
  obtain ⟨-, hhead, hun, hbytes⟩ := hw
  by_cases hd : e.isDispatch = true
  · obtain ⟨force, rfl⟩ := Event.eq_dispatch hd
    cases force with
    | true => exact absurd hw' (forced_not_waits ho.wired h)
    | false =>
      obtain ⟨r, hr, hw₁⟩ := Option.map_eq_some_iff.mp h
      subst hw₁
      have hknown : ∀ q, ∀ r ∈ (w.tb.queue q).reqs, (w.tb.mem.rqs r).bytes ≤ M := fun q r hr =>
        hbytes r ((ho.history q).subset (List.mem_append_right _ hr))
      exact dispatch_paid hP ho.wired hun hhead hM hknown hrun hlen hr hw'.1
  · have hmem : ref ∈ w.tb.queues := (ho.wired.mem_iff ref).mpr (mem_keys_of_queue fun hnil => by
      simp [hnil] at hhead)
    exact (Paid.refl hmem hrun).calm (step_calm h (Bool.eq_false_of_not_eq_true hd))

/-- While a request waits at the head of a queue that tokens do not hold back, the scheduler dispatches at most
`RUN_SIZE_LIMIT` bytes and one request more for each queue in front of it, whatever is inserted, merged, charged
or set meanwhile. If the queue is at the head and has used up its run, it is moved to the tail, and all other
queues are in front of it. -/
theorem bypass_bounded (P : Platform) (hP : P.IsLp64) (m : Mem) (env : Env) (s : State)
    (es es' : List Event) (w w' : World) (h0 : tbucketInitQueue P m env = some s)
    (hr : run (step P) (World.init s) es = some w) (hr' : run (step P) w es' = some w')
    (hsent : runCost (step P) (sentBytes P) (World.init s) es < 2 ^ 62)
    {ref : QRef} {x M : Nat} (hM : M < 2 ^ 62) (hwait : Always (step P) (Waits P ref x M) w es') :
    runCost (step P) (sentBytes P) w es' ≤
      (if w.tb.UsedUp ref then w'.tb.queues.length - 1 else w.tb.queues.idxOf ref) *
        (10 * 1024 * 1024 + M) := by
  have horder : w.InOrder := run_invariant (fun _ _ _ hs h => step_in_order hs h) hr
    (tbucketInitQueue_fresh h0).1.in_order
  have hzero : (World.init s).tb.runServeSize = 0 := tbucketInitQueue_run h0
  have hrun : 0 ≤ w.tb.runServeSize := run_run es hr hzero.ge (by omega)
  have hlen : Always (step P) (fun v => v.tb.queues.length ≤ w'.tb.queues.length) w es' :=
    always_le_last (fun _ _ _ hs => step_queues_length hs) hr'
  have hstep : ∀ v e v', True → step P v e = some v' →
      Waits P ref x M v ∧ v.tb.queues.length ≤ w'.tb.queues.length →
      Waits P ref x M v' ∧ v'.tb.queues.length ≤ w'.tb.queues.length →
      v.InOrder ∧ 0 ≤ v.tb.runServeSize →
      (v'.InOrder ∧ 0 ≤ v'.tb.runServeSize) ∧
        sentBytes P v e + v'.tb.owed ref M w'.tb.queues.length ≤ v.tb.owed ref M w'.tb.queues.length := by
    rintro v e v' - hs ⟨hv, hlen⟩ ⟨hv', -⟩ ⟨ho, hpos⟩
    have hpaid := step_paid hP hM hs hv hv' hlen ho hpos
    obtain ⟨rqs, hsorted, hle⟩ := hpaid.sent
    refine ⟨⟨step_in_order hs ho, hpaid.runServeSize⟩, ?_⟩
    rw [sentBytes_eq hs hsorted]
    exact hle
  have hpaid := runCost_le (Φ := fun v : World => v.tb.owed ref M w'.tb.queues.length) hstep hr'
    (fun _ _ => trivial) (fun es₁ v hpre hv => ⟨hwait es₁ v hpre hv, hlen es₁ v hpre hv⟩) ⟨horder, hrun⟩
  have hlimit : runSizeLimit.toNat = 10 * 1024 * 1024 := rfl
  have howed : w.tb.owed ref M w'.tb.queues.length ≤
      (if w.tb.UsedUp ref then w'.tb.queues.length - 1 else w.tb.queues.idxOf ref) *
        (10 * 1024 * 1024 + M) := by
    rw [State.owed, ← hlimit]
    split
    · exact le_refl _
    · exact Nat.sub_le ..
  omega

/-- Account 7 gets a limit, a rate and tokens. -/
def richAccount : List Event :=
  [.kvSet 7 "limit" (2 ^ 40), .kvSet 7 "rate" 1000, .kvSet 7 "count" (2 ^ 40)]

/-- Account 7 has a rate and tokens. Eight of its nine reads use up its run, and the ninth waits while a read of
account 8 is served. -/
theorem bypass_bounded_two_accounts :
    ∃ s w w', tbucketInitQueue .lp64 largeReads sampleEnv = some s ∧
      run (step .lp64) (World.init s) (richAccount ++ nineReads) = some w ∧
      run (step .lp64) w [.add 9 8, .dispatch false] = some w' ∧
      w.tb.UsedUp (7, false) ∧ w'.tb.queues.length = 6 ∧ w'.tb.sorted = [0, 1, 2, 3, 4, 5, 6, 7, 9] ∧
      runCost (step .lp64) (sentBytes .lp64) w [.add 9 8, .dispatch false] ≤
        (if w.tb.UsedUp (7, false) then w'.tb.queues.length - 1 else w.tb.queues.idxOf (7, false)) *
          (10 * 1024 * 1024 + 1310720) := by
  have h : ((tbucketInitQueue .lp64 largeReads sampleEnv).any fun s =>
      (run (step .lp64) (World.init s) (richAccount ++ nineReads)).any (fun w =>
        (run (step .lp64) w [.add 9 8, .dispatch false]).any (fun w' =>
          decide (w.tb.UsedUp (7, false) ∧ w'.tb.queues.length = 6 ∧
            w'.tb.sorted = [0, 1, 2, 3, 4, 5, 6, 7, 9] ∧
            runCost (step .lp64) (sentBytes .lp64) (World.init s) (richAccount ++ nineReads) < 2 ^ 62 ∧
            Meets (step .lp64) (fun w _ => Waits .lp64 (7, false) 8 1310720 w) w
              [.add 9 8, .dispatch false] ∧ Waits .lp64 (7, false) 8 1310720 w')))) = true := by
    decide +kernel
  obtain ⟨s, hs, hok⟩ := (Option.any_eq_true _ _).mp h
  obtain ⟨w, hr, hok⟩ := (Option.any_eq_true _ _).mp hok
  obtain ⟨w', hr', hok⟩ := (Option.any_eq_true _ _).mp hok
  obtain ⟨hused, hqueues, hsorted, hsent, hmeets, hlast⟩ := of_decide_eq_true hok
  exact ⟨s, w, w', hs, hr, hr', hused, hqueues, hsorted,
    bypass_bounded .lp64 Platform.isLp64_lp64 largeReads sampleEnv s _ _ w w' hs hr hr' hsent (by norm_num)
      ((always_iff_meets_last hr').mpr ⟨hmeets, hlast⟩)⟩

end Tb
end SplitSched
