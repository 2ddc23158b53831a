import SplitSched.Tb.Dispatch
import SplitSched.Lib.Placement
import SplitSched.Lib.Run

/-!
# SplitSched.Tb.Requests

Where the requests of the token-bucket scheduler are, over whole runs of its hooks.

* `Act`: everything a hook other than insertion and merging does to the queues, as a sequence of
  four kinds of change (`tbucketDispatch_acts`).
* `World`, `step`: the scheduler together with the block layer's record of what it inserted and what
  it merged away, and one event for each hook.
* `Tidy`: the queues and the dispatched requests together hold the inserted requests, each once, and
  `RQ_QUEUE` points to the queue a request is on. Every event but a merge keeps it (`step_tidy`).
* `requests_conserved_iff`: no request is lost or duplicated along a run exactly when nothing is
  merged in it. `tbucket_merge_request` unlinks the request that stays (`rq`) instead of the one
  that goes (`next`).
-/

namespace SplitSched
namespace Tb

open CArith Relation

variable {P : Platform} {s s' t : State} {A B : Nat → Prop}

/-! ## What dispatching does to the queues -/

inductive Act (P : Platform) : State → State → Prop where
  /-- Nothing that concerns the queues. -/
  | idle {s s' : State} (accounts : s'.accounts = s.accounts) (queues : s'.queues = s.queues)
      (queuesCount : s'.queuesCount = s.queuesCount) (rqQueue : s'.rqQueue = s.rqQueue)
      (sorted : s'.sorted = s.sorted) : Act P s s'
  | charge {s s' : State} (h : Grows s s') : Act P s s'
  | serve {s s' : State} {ref : QRef} {rq : Nat} (h : popQueue s ref = some (rq, s')) :
      Act P s (dispatchSort P s' ref rq)
  | rotate (s : State) : Act P s (rotate s)

abbrev Acts (P : Platform) : State → State → Prop := ReflTransGen (Act P)

theorem decline_acts (P : Platform) (minUsecs : Int) (s : State) :
    Acts P s (decline P minUsecs s) := by
  refine .single ?_
  simp only [decline]
  split_ifs <;> exact .idle rfl rfl rfl rfl rfl

/-- The state a visit leaves. -/
def Visit.state : Visit → State
  | .served s => s
  | .anticipate _ s => s
  | .moveOn _ s => s

theorem visit_acts {b : Bool} {ref : QRef} {v : Visit} (h : visit P b s ref = some v) :
    Acts P s v.state := by
  simp only [visit] at h
  split at h
  · cases h
  · rename_i s₁ hs₁
    have hg : Acts P s s₁ := .single (.charge (refreshAccount_grows hs₁))
    have hclock : Acts P s { s₁ with env := s₁.env.getnstimeofday.2 } :=
      hg.tail (.idle rfl rfl rfl rfl rfl)
    split at h
    · cases h; exact hg
    · split at h
      · split at h
        · rename_i rq s₂ hp
          cases h
          exact hg.tail (.serve hp)
        · split at h
          · split at h <;> · cases h; exact hclock
          · cases h; exact hg
      · cases h; exact hg

theorem dispatchLoop_acts (n : Nat) : ∀ {b : Bool} {m : Int} {s : State} {r : Option Int × State},
    dispatchLoop P n b m s = some r → Acts P s r.2 := by
  induction n with
  | zero =>
    intro b m s r h
    cases h
    exact .refl
  | succ n ih =>
    intro b m s r h
    simp only [dispatchLoop] at h
    split at h
    · cases h
    · split at h
      · cases h
      · rename_i hv; cases h; exact visit_acts hv
      · rename_i hv; cases h; exact visit_acts hv
      · rename_i hv
        exact ((visit_acts hv).tail (.rotate _)).trans (ih h)

theorem forceLoop_acts (P : Platform) (k rv : Nat) (s : State) :
    Acts P s (forceLoop P k rv s).2 := by
  fun_induction forceLoop P k rv s with
  | case1 k rv s hk rq s' hp ih => exact .head (.serve hp) ih
  | case2 k rv s hk hp ih => exact ih
  | case3 k rv s hk => exact .refl

theorem tbucketDispatch_acts {force : Bool} {r : Int × State}
    (h : tbucketDispatch P s force = some r) : Acts P s r.2 := by
  simp only [tbucketDispatch] at h
  split at h
  · cases h; exact forceLoop_acts P 0 0 s
  · split at h
    · cases h; exact .refl
    · split at h
      · cases h
      · rename_i hl; cases h; exact dispatchLoop_acts _ hl
      · rename_i hl; cases h; exact (dispatchLoop_acts _ hl).trans (decline_acts P _ _)

/-- What every change keeps, a sequence of changes keeps. -/
theorem Acts.keep {I : State → Prop} (hI : ∀ s s', Act P s s' → I s → I s') (h : Acts P s s')
    (h0 : I s) : I s' := by
  induction h with
  | refl => exact h0
  | tail _ ha ih => exact hI _ _ ha ih

/-! ## The hooks as a machine -/

/-- The scheduler and the block layer's record of the requests it gave to it. -/
structure World where
  tb : State
  /-- Passed to `elevator_add_req_fn`. -/
  added : List Nat
  /-- Passed to `elevator_merge_req_fn` as `next`. -/
  merged : List Nat

inductive Event where
  | add (rq : Nat) (cur : Int)
  | merge (rq next : Nat)
  | dispatch (force : Bool)
  | complete
  | kvSet (id : Int) (key : String) (val : Int)
  | dirty (q l : Nat) (task : Task) (bSize inode : Nat) (pos : Int)
  | free (l : Nat)
  | throttle (accountId schedUniq : Int)
  /-- The rest of the kernel: requests are prepared, bios and cause lists change, time passes. -/
  | kernel (m : Mem)

/-- The block layer still expects the request to be dispatched. -/
def World.Live (w : World) (r : Nat) : Prop :=
  r ∈ w.added ∧ r ∉ w.tb.sorted ∧ r ∉ w.merged

instance (w : World) (r : Nat) : Decidable (w.Live r) := by unfold World.Live; infer_instance

/-- A request is inserted once; both requests of a merge are still to be dispatched. -/
def step (P : Platform) (w : World) : Event → Option World
  | .add rq cur =>
    if rq ∈ w.added then none
    else some { w with tb := tbucketAddRequest P w.tb rq cur, added := w.added ++ [rq] }
  | .merge rq next =>
    if w.Live rq ∧ w.Live next ∧ rq ≠ next then
      (tbucketMergeRequest w.tb rq next).map fun tb =>
        { w with tb := tb, merged := w.merged ++ [next] }
    else none
  | .dispatch force => (tbucketDispatch P w.tb force).map fun r => { w with tb := r.2 }
  | .complete => some { w with tb := tbucketCompletedRequest w.tb }
  | .kvSet id key val => some { w with tb := tbucketKvSet P w.tb id key val }
  | .dirty q l task bSize inode pos =>
    some { w with tb := dirtyBuffer P w.tb q l task bSize inode pos }
  | .free l => some { w with tb := freeCauseList P w.tb l }
  | .throttle id uniq => (maybeSleep P w.tb id uniq).map fun r => { w with tb := r.2 }
  | .kernel m => some { w with tb := { w.tb with mem := m } }

/-- A fresh instance. -/
def World.init (s : State) : World := ⟨s, [], []⟩

theorem dirtyBuffer_acts (P : Platform) (s : State) (q l : Nat) (task : Task) (bSize inode : Nat)
    (pos : Int) : Acts P s (dirtyBuffer P s q l task bSize inode pos) := by
  simp only [dirtyBuffer]
  split
  · simp only [tbucketCausesDirty]
    refine .tail (.single (.idle ?_ ?_ ?_ ?_ ?_)) (.charge (foldl_chargeEstimate_grows P _ _ _)) <;>
      rfl
  · exact .single (.idle rfl rfl rfl rfl rfl)

/-- An event that neither inserts nor merges. -/
def Event.Plain : Event → Prop
  | .add _ _ => False
  | .merge _ _ => False
  | _ => True

theorem step_acts {w w' : World} {e : Event} (he : e.Plain) (h : step P w e = some w') :
    Acts P w.tb w'.tb ∧ w'.added = w.added ∧ w'.merged = w.merged := by
  cases e with
  | add rq cur => cases he
  | merge rq next => cases he
  | dispatch force =>
    obtain ⟨r, hr, rfl⟩ := Option.map_eq_some_iff.mp h
    exact ⟨tbucketDispatch_acts hr, rfl, rfl⟩
  | complete => cases h; exact ⟨.single (.idle rfl rfl rfl rfl rfl), rfl, rfl⟩
  | kvSet id key val => cases h; exact ⟨.single (.charge (tbucketKvSet_grows P _ _ _ _)), rfl, rfl⟩
  | dirty q l task bSize inode pos =>
    cases h; exact ⟨dirtyBuffer_acts P _ _ _ _ _ _ _, rfl, rfl⟩
  | free l => cases h; exact ⟨.single (.charge (freeCauseList_grows P _ _)), rfl, rfl⟩
  | throttle id uniq =>
    obtain ⟨r, hr, rfl⟩ := Option.map_eq_some_iff.mp h
    exact ⟨.single (.charge (maybeSleep_grows hr)), rfl, rfl⟩
  | kernel m => cases h; exact ⟨.single (.idle rfl rfl rfl rfl rfl), rfl, rfl⟩

/-! ## The queue list -/

/-- The queue list holds the two queues of every account, and its length is `queues_count`. -/
structure Wired (s : State) : Prop where
  queues : s.queues.Perm (s.accounts.keys.flatMap queuesOf)
  queuesCount : s.queuesCount = s.queues.length
  default : defaultAccount ∈ s.accounts.keys

theorem mem_queuesOf {ref : QRef} {id : Int} : ref ∈ queuesOf id ↔ ref.1 = id := by
  obtain ⟨i, b⟩ := ref
  cases b <;> simp [queuesOf]

theorem Wired.mem_iff (h : Wired s) (ref : QRef) : ref ∈ s.queues ↔ ref.1 ∈ s.accounts.keys := by
  rw [h.queues.mem_iff, List.mem_flatMap]
  simp [mem_queuesOf]

theorem Wired.nodup (h : Wired s) : s.queues.Nodup := by
  rw [h.queues.nodup_iff, List.nodup_flatMap]
  refine ⟨fun id _ => by simp [queuesOf], s.accounts.nodup.imp fun hne => ?_⟩
  intro ref h₁ h₂
  exact hne ((mem_queuesOf.mp h₁).symm.trans (mem_queuesOf.mp h₂))

theorem Wired.of_grows (h : Wired s) (hg : Grows s s') : Wired s' := by
  obtain ⟨new, hk, hq, hc⟩ := hg.created
  refine ⟨?_, ?_, ?_⟩
  · rw [hk, hq, List.flatMap_append]
    exact h.queues.append_right _
  · have hlen : (new.flatMap queuesOf).length = 2 * new.length := by
      simp [List.length_flatMap, queuesOf, Nat.mul_comm]
    rw [hc, hq, h.queuesCount, List.length_append, hlen]
    push_cast
    rfl
  · rw [hk]
    exact List.mem_append_left _ h.default

theorem Wired.of_act (h : Wired s) (ha : Act P s s') : Wired s' := by
  cases ha with
  | idle ha hq hc =>
    exact ⟨by rw [hq, ha]; exact h.queues, by rw [hc, hq]; exact h.queuesCount, by
      rw [ha]; exact h.default⟩
  | charge hg => exact h.of_grows hg
  | @serve s₁ ref rq hp =>
    obtain ⟨rest, -, -, hs₁⟩ := popQueue_some hp
    obtain ⟨t, hg, ha, hq, hc, -⟩ := dispatchSort_frame P s₁ ref rq
    have h₁ : Wired s₁ := by
      rw [hs₁]
      exact ⟨h.queues, h.queuesCount, h.default⟩
    have ht := h₁.of_grows hg
    exact ⟨by rw [hq, ha]; exact ht.queues, by rw [hc, hq]; exact ht.queuesCount, by
      rw [ha]; exact ht.default⟩
  | rotate =>
    have hp : (rotate s).queues.Perm s.queues := by
      cases hq : s.queues with
      | nil => simp [Tb.rotate, hq]
      | cons ref rest => simp [Tb.rotate, hq, List.perm_append_singleton]
    exact ⟨hp.trans h.queues, by rw [hp.length_eq]; exact h.queuesCount, h.default⟩

theorem getAccount_mem (h : Wired s) (P : Platform) (id : Int) :
    (getAccount P s id).1 ∈ (getAccount P s id).2.accounts.keys := by
  rcases getAccount_cases P s id with ⟨hid, hs⟩ | ⟨-, a, -, ha, hs⟩ | ⟨-, -, hs⟩
  · rw [hs]; exact hid
  · rw [hs]; exact (Registry.mem_keys_insert _ _ _ _ _).mpr (.inl ha.symm)
  · rw [hs]; exact h.default

/-! ## Where the requests are -/

/-- The lists a request can be on: the queues, and what was given to `elv_dispatch_sort`. -/
def places (s : State) : Option QRef → List Nat
  | none => s.sorted
  | some ref => (s.queue ref).reqs

structure Tidy (A : Nat → Prop) (s : State) : Prop extends Wired s where
  placed : Placed A (places s)
  rqQueue : ∀ ref, ∀ r ∈ (s.queue ref).reqs, s.rqQueue r = some ref

/-- Handing the head of a queue over moves it to the dispatched requests. -/
theorem places_serve {ref : QRef} {rq : Nat} (hp : popQueue s ref = some (rq, s'))
    (k : Option QRef) :
    places (dispatchSort P s' ref rq) k =
      if k = some ref then (s.queue ref).reqs.tail
      else if k = none then s.sorted ++ [rq] else places s k := by
  obtain ⟨rest, -, -, hs'⟩ := popQueue_some hp
  obtain ⟨-, -, -, -, -, -, hsorted, -⟩ := dispatchSort_frame P s' ref rq
  cases k with
  | none =>
    have : s'.sorted = s.sorted := by rw [hs']; rfl
    simp [places, hsorted, this]
  | some ref' =>
    by_cases hr : ref' = ref <;> simp [places, dispatchSort_queue, popQueue_queue hp, hr]

theorem Tidy.of_act (h : Tidy A s) (ha : Act P s s') : Tidy A s' := by
  refine ⟨h.toWired.of_act ha, ?_, ?_⟩
  · cases ha with
    | idle hacc _ _ _ hs =>
      have : places s' = places s := by
        funext k
        cases k <;> simp [places, State.queue, hacc, hs]
      rw [this]; exact h.placed
    | charge hg =>
      have : places s' = places s := by
        funext k
        cases k <;> simp [places, hg.queue, hg.sorted]
      rw [this]; exact h.placed
    | @serve s₁ ref rq hp =>
      obtain ⟨rest, hr, -, -⟩ := popQueue_some hp
      refine h.placed.move (i := some ref) (j := none) [rq] rest (by simp) hr ?_
      intro k
      rw [places_serve hp, hr]
      rfl
    | rotate =>
      have : places (rotate s) = places s := by
        funext k
        cases k <;> rfl
      rw [this]; exact h.placed
  · cases ha with
    | idle hacc _ _ hrq _ => simpa [State.queue, hacc, hrq] using h.rqQueue
    | charge hg => simpa [hg.queue, hg.rqQueue] using h.rqQueue
    | @serve s₁ ref rq hp =>
      obtain ⟨rest, hr, -, hs₁⟩ := popQueue_some hp
      obtain ⟨-, -, -, -, -, hrq, -⟩ := dispatchSort_frame P s₁ ref rq
      intro ref' r hmem
      rw [dispatchSort_queue, popQueue_queue hp] at hmem
      rw [hrq, hs₁]
      refine h.rqQueue ref' r ?_
      split at hmem
      · rename_i e
        subst e
        exact List.mem_of_mem_tail hmem
      · exact hmem
    | rotate => exact h.rqQueue

/-- Inserting a request appends it to a queue and does nothing else to the queues. -/
theorem tbucketAddRequest_spec (h : Wired s) (P : Platform) (rq : Nat) (cur : Int) :
    ∃ t ref, Acts P s t ∧ ref.1 ∈ t.accounts.keys ∧
      tbucketAddRequest P s rq cur =
        { t.setQueue ref (queuePush (t.queue ref) rq) with
          rqQueue := Function.update t.rqQueue rq (some ref) } := by
  have htag : Acts P s (tagRequest s rq cur) := by
    simp only [tagRequest]
    split
    · exact .refl
    · exact .single (.idle rfl rfl rfl rfl rfl)
  have hw : Wired (tagRequest s rq cur) := htag.keep (fun _ _ ha hw => hw.of_act ha) h
  have hnote : ∀ warn (a : Account), (noteSanity warn a).queue = a.queue := by
    intro warn a
    unfold noteSanity
    split <;> rfl
  refine ⟨_, (_, _), (htag.tail (.charge (getAccount_grows P _ _))).tail
    (.charge (modifyAccount_grows (hnote (requestSanityCheck P s.mem rq)))), ?_, rfl⟩
  exact getAccount_mem hw P _

theorem Tidy.add (h : Tidy A s) {rq : Nat} (hrq : ¬ A rq) (cur : Int)
    (hB : ∀ r, B r ↔ A r ∨ r = rq) : Tidy B (tbucketAddRequest P s rq cur) := by
  obtain ⟨t, ref, hacts, hk, heq⟩ := tbucketAddRequest_spec h.toWired P rq cur
  have ht : Tidy A t := hacts.keep (fun _ _ ha ht => ht.of_act ha) h
  have hqueue := queue_setQueue hk (queuePush (t.queue ref) rq)
  rw [heq]
  refine ⟨⟨ht.queues, ht.queuesCount, ht.default⟩, ?_, ?_⟩
  · refine ht.placed.push (i := some ref) hrq (fun k => ?_) hB
    cases k with
    | none => rfl
    | some ref' =>
      show ((t.setQueue ref (queuePush (t.queue ref) rq)).queue ref').reqs = _
      rw [hqueue]
      by_cases e : ref' = ref <;> simp [e, places, queuePush]
  · intro ref' r hmem
    change r ∈ ((t.setQueue ref (queuePush (t.queue ref) rq)).queue ref').reqs at hmem
    rw [hqueue] at hmem
    have hnew : ∀ ref, rq ∉ (t.queue ref).reqs := fun ref hm =>
      hrq ((ht.placed.all rq).mpr ⟨some ref, hm⟩)
    have hold : r ∈ (t.queue ref').reqs →
        Function.update t.rqQueue rq (some ref) r = some ref' := by
      intro hm
      have hne : r ≠ rq := fun e => hnew ref' (e ▸ hm)
      rw [Function.update_of_ne hne]
      exact ht.rqQueue ref' r hm
    split at hmem
    · rename_i e
      subst e
      rcases List.mem_append.mp hmem with hm | hm
      · exact hold hm
      · simp [List.mem_singleton.mp hm]
    · exact hold hmem

/-! ## Conservation -/

/-- No request is lost or duplicated. -/
structure World.Conserved (w : World) : Prop where
  live : ∀ r, w.Live r → ∃ ref ∈ w.tb.queues, (w.tb.queue ref).reqs.count r = 1 ∧
    ∀ ref', ref' ≠ ref → r ∉ (w.tb.queue ref').reqs
  merged : ∀ r ∈ w.merged, ∀ ref, r ∉ (w.tb.queue ref).reqs
  sorted : w.tb.sorted.Nodup

/-- The state of a run in which nothing was merged. -/
structure World.Orderly (w : World) : Prop where
  tidy : Tidy (· ∈ w.added) w.tb
  merged : w.merged = []

theorem World.Orderly.conserved {w : World} (h : w.Orderly) : w.Conserved := by
  refine ⟨?_, by simp [h.merged], h.tidy.placed.nodup none⟩
  rintro r ⟨hr, hs, -⟩
  obtain ⟨k, hk⟩ := (h.tidy.placed.all r).mp hr
  cases k with
  | none => exact absurd hk hs
  | some ref =>
    refine ⟨ref, (h.tidy.toWired.mem_iff ref).mpr ?_, h.tidy.placed.count_eq_one hk, ?_⟩
    · exact mem_keys_of_queue (List.ne_nil_of_mem hk)
    · exact fun ref' hne => h.tidy.placed.not_mem (j := some ref') hk (by simpa using hne)

/-- An event that does not merge. -/
def Event.NoMerge : Event → Prop
  | .merge _ _ => False
  | _ => True

theorem step_tidy {w w' : World} {e : Event} (h : step P w e = some w') (he : e.NoMerge)
    (hw : w.Orderly) : w'.Orderly := by
  by_cases hp : e.Plain
  · obtain ⟨hacts, hadd, hm⟩ := step_acts hp h
    refine ⟨?_, hm.trans hw.merged⟩
    rw [hadd]
    exact hacts.keep (fun _ _ ha ht => ht.of_act ha) hw.tidy
  · cases e with
    | add rq cur =>
      simp only [step] at h
      split at h
      · cases h
      · rename_i hn
        cases h
        exact ⟨hw.tidy.add hn cur (by simp), hw.merged⟩
    | merge rq next => cases he
    | _ => exact absurd trivial hp

/-- The request that a merge keeps is gone from the queues. -/
theorem merge_loses {w w' : World} {rq next : Nat} (h : step P w (.merge rq next) = some w')
    (hw : w.Orderly) : ¬ w'.Conserved := by
  simp only [step] at h
  split at h
  · rename_i hg
    obtain ⟨hrq, -, hne⟩ := hg
    obtain ⟨s', hs', rfl⟩ := Option.map_eq_some_iff.mp h
    obtain ⟨ref, -, hcount, hother⟩ := hw.conserved.live rq hrq
    have hmem : rq ∈ (w.tb.queue ref).reqs := List.count_pos_iff.mp (by omega)
    simp only [tbucketMergeRequest, queueDel, hw.tidy.rqQueue ref rq hmem,
      Option.some.injEq] at hs'
    subst hs'
    intro hc
    have hlive : World.Live ⟨_, w.added, w.merged ++ [next]⟩ rq :=
      ⟨hrq.1, hrq.2.1, by simp [hw.merged, hne]⟩
    obtain ⟨ref', -, hcount', -⟩ := hc.live rq hlive
    have hk := mem_keys_of_queue (List.ne_nil_of_mem hmem)
    simp only [queue_setQueue hk] at hcount'
    split at hcount'
    · simp only [List.count_erase_self] at hcount'
      omega
    · rename_i hr
      rw [List.count_eq_zero.mpr (hother ref' hr)] at hcount'
      cases hcount'
  · cases h

theorem Fresh.wired (h : Fresh s) : Wired s :=
  ⟨by simp [h.keys, h.queues], by simp [h.queuesCount, h.queues, queuesOf], by simp [h.keys]⟩

theorem Fresh.orderly (h : Fresh s) : (World.init s).Orderly := by
  refine ⟨⟨h.wired, ?_, ?_⟩, rfl⟩
  · have hA : (fun r => r ∈ (World.init s).added) = fun _ => False := by simp [World.init]
    rw [hA]
    refine Placed.nil fun k => ?_
    cases k with
    | none => exact h.sorted
    | some ref => simp [places, World.init, h.queue, Queue.init]
  · simp [World.init, h.queue, Queue.init]

/-- Along a run of a fresh instance no request is lost or duplicated, exactly when the run merges
nothing. -/
theorem requests_conserved_iff (P : Platform) (m : Mem) (env : Env) (s : State) (es : List Event)
    (w : World) (h0 : tbucketInitQueue P m env = some s)
    (hr : run (step P) (World.init s) es = some w) :
    Always (step P) World.Conserved (World.init s) es ↔ ∀ rq next, Event.merge rq next ∉ es := by
  rw [always_iff_meets (I := World.Orderly) (c := fun _ => Event.NoMerge)
    (fun _ _ _ => step_tidy) (fun _ => World.Orderly.conserved) ?_ hr
    (tbucketInitQueue_fresh h0).1.orderly, meets_iff_forall hr]
  · constructor
    · exact fun hno rq next hmem => hno _ hmem
    · intro hno e he
      cases e with
      | merge rq next => exact hno rq next he
      | _ => trivial
  · -- a step that merges breaks the property at once
    intro w e w' hs hc ho
    cases e with
    | merge rq next => exact merge_loses hs ho
    | _ => exact absurd trivial hc

/-- Two reads of account 7, the first of which is dispatched: a run without a merge. -/
theorem requests_conserved_two_reads :
    ∃ s w, tbucketInitQueue .lp64 sampleMem sampleEnv = some s ∧
      run (step .lp64) (World.init s) [.add 0 7, .add 1 7, .dispatch false] = some w ∧
      (Always (step .lp64) World.Conserved (World.init s) [.add 0 7, .add 1 7, .dispatch false] ↔
        ∀ rq next, Event.merge rq next ∉ [Event.add 0 7, .add 1 7, .dispatch false]) := by
  have h : ((tbucketInitQueue .lp64 sampleMem sampleEnv).bind fun s =>
      run (step .lp64) (World.init s) [.add 0 7, .add 1 7, .dispatch false]).isSome = true := by
    decide +kernel
  obtain ⟨w, hw⟩ := Option.isSome_iff_exists.mp h
  obtain ⟨s, hs, hr⟩ := Option.bind_eq_some_iff.mp hw
  exact ⟨s, w, hs, hr, requests_conserved_iff .lp64 sampleMem sampleEnv s _ w hs hr⟩

/-- Two reads of account 7 are merged, the second into the first: the first is then on no queue. -/
theorem merge_loses_request :
    ∃ s w, tbucketInitQueue .lp64 sampleMem sampleEnv = some s ∧
      run (step .lp64) (World.init s) [.add 0 7, .add 1 7, .merge 0 1] = some w ∧
      ¬ w.Conserved := by
  have h : ((tbucketInitQueue .lp64 sampleMem sampleEnv).bind fun s =>
      run (step .lp64) (World.init s) [.add 0 7, .add 1 7, .merge 0 1]).any (fun w =>
        decide (w.Live 0) &&
          w.tb.queues.all fun ref => decide ((w.tb.queue ref).reqs.count 0 = 0)) = true := by
    decide +kernel
  obtain ⟨w, hw, hbad⟩ := (Option.any_eq_true _ _).mp h
  obtain ⟨s, hs, hr⟩ := Option.bind_eq_some_iff.mp hw
  rw [Bool.and_eq_true, decide_eq_true_eq, List.all_eq_true] at hbad
  refine ⟨s, w, hs, hr, fun hc => ?_⟩
  obtain ⟨ref, href, hcount, -⟩ := hc.live 0 hbad.1
  have := hbad.2 ref href
  simp only [decide_eq_true_eq] at this
  omega

end Tb
end SplitSched
