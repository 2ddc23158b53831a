import SplitSched.Tb.Requests

/-!
# SplitSched.Tb.Wakeup

Whether `tbucket_dispatch` can decline to dispatch without leaving anything behind that calls it
again.

The loop visits every queue once, in the order of the queue list (`dispatchLoop_waits`,
`dispatchLoop_no_wait`). A queue that holds a request and may not run leaves a wait of at least
100 microseconds, so the `dispatch_nudger` is armed. The exception is the first visit when
`run_serve_size` has reached its limit: that queue is rotated away unexamined, and the loop is over
before it comes round again. `dispatch_wakes_iff` says that this is the only way to lose a wake-up.
-/

namespace SplitSched
namespace Tb

open CArith

variable {P : Platform} {s s' : State}

/-- The field `count` of every queue is the number of its requests. -/
def InSync (s : State) : Prop := ∀ ref, (s.queue ref).count = (s.queue ref).reqs.length

/-! ## One visit -/

/-- What a visit that does not serve the queue leaves as it was. -/
structure Passed (s s' : State) : Prop where
  queue : s'.queue = s.queue
  queues : s'.queues = s.queues
  nudges : s'.nudges = s.nudges

theorem refreshAccount_passed {id : Int} (h : refreshAccount P s id = some s') :
    Passed s s' ∧ s'.runServeSize = s.runServeSize := by
  have hg := refreshAccount_grows h
  refine ⟨⟨hg.queue, ?_, hg.nudges⟩, hg.runServeSize⟩
  simp only [refreshAccount] at h
  split at h
  · cases h
  · split at h
    · cases h
    · cases h; rfl

/-- How long the scheduler will wait for a queue it moves on from. -/
def WaitsFor (s : State) (ref : QRef) (usecs : Option Int) : Prop :=
  ((s.queue ref).reqs = [] → usecs = none) ∧
    ((s.queue ref).reqs ≠ [] → ∃ u, usecs = some u ∧ 0 < u)

theorem readyIn_waitsFor (hs : InSync s) {ref : QRef} : WaitsFor s ref (readyIn P s ref) := by
  constructor
  · intro hr
    simp [readyIn, hs ref, hr]
  · intro hr
    have hpos : 0 < (s.queue ref).count := by
      rw [hs ref]
      exact_mod_cast List.length_pos_iff.mpr hr
    obtain ⟨a, ha⟩ := Registry.find_eq_some (mem_keys_of_queue hr)
    refine ⟨estimateWaitUsecs P a, ?_, estimateWaitUsecs_pos P a⟩
    simp [readyIn, hpos, Registry.val, ha]

/-- The queue at the head is passed over unexamined. -/
theorem visit_limit {b : Bool} {ref : QRef} {v : Visit} (h : visit P b s ref = some v)
    (hl : runSizeLimit ≤ s.runServeSize) : ∃ s', refreshAccount P s ref.1 = some s' ∧ v = .moveOn none s' := by
  simp only [visit] at h
  split at h
  · cases h
  · rename_i s₁ hs₁
    rw [if_pos (by rw [(refreshAccount_passed hs₁).2]; exact hl)] at h
    cases h
    exact ⟨s₁, hs₁, rfl⟩

theorem visit_examines {b : Bool} {ref : QRef} {v : Visit} (h : visit P b s ref = some v)
    (hs : InSync s) (hl : s.runServeSize < runSizeLimit) :
    (∃ s', v = .served s' ∧ (s.queue ref).reqs ≠ []) ∨
    (∃ u s', v = .anticipate u s' ∧ b = false ∧ 0 < u ∧ Passed s s') ∨
    (∃ u s', v = .moveOn u s' ∧ Passed s s' ∧ WaitsFor s ref u) := by
  simp only [visit] at h
  split at h
  · cases h
  · rename_i s₁ hs₁
    obtain ⟨hp, hrun⟩ := refreshAccount_passed hs₁
    have hsync : InSync s₁ := by rw [InSync, hp.queue]; exact hs
    have hwait : ∀ env, WaitsFor s ref (readyIn P { s₁ with env := env } ref) := by
      intro env
      have h₁ : WaitsFor s₁ ref (readyIn P s₁ ref) := readyIn_waitsFor hsync
      rw [WaitsFor, hp.queue] at h₁
      exact h₁
    rw [if_neg (by rw [hrun]; omega)] at h
    split at h
    · split at h
      · rename_i rq s₂ hpop
        cases h
        obtain ⟨rest, hr, -⟩ := popQueue_some hpop
        rw [hp.queue] at hr
        exact .inl ⟨_, rfl, by simp [hr]⟩
      · split at h
        · rename_i hb
          split at h
          · rename_i hant
            cases h
            exact .inr (.inl ⟨_, _, rfl, hb, by omega, hp.queue, hp.queues, hp.nudges⟩)
          · cases h
            exact .inr (.inr ⟨_, _, rfl, ⟨hp.queue, hp.queues, hp.nudges⟩, hwait _⟩)
        · cases h
          exact .inr (.inr ⟨_, _, rfl, hp, hwait s₁.env⟩)
    · cases h
      exact .inr (.inr ⟨_, _, rfl, hp, hwait s₁.env⟩)

/-! ## The loop -/

theorem rotate_below_limit (s : State) : (rotate s).runServeSize < runSizeLimit := by
  show (0 : Int) < runSizeLimit
  decide

theorem minWait_pos {m : Int} {u : Option Int} (hm : 0 ≤ m)
    (h : 0 < m ∨ ∃ v, u = some v ∧ 0 < v) (hu : ∀ v, u = some v → 0 < v) : 0 < minWait m u := by
  cases u with
  | none =>
    rcases h with h | ⟨v, hv, -⟩
    · exact h
    · cases hv
  | some v =>
    have hv := hu v rfl
    simp only [minWait]
    split <;> omega

theorem minWait_nonneg {m : Int} {u : Option Int} (hm : 0 ≤ m) (hu : ∀ v, u = some v → 0 < v) :
    0 ≤ minWait m u := by
  cases u with
  | none => exact hm
  | some v =>
    have hv := hu v rfl
    simp only [minWait]
    split <;> omega

theorem WaitsFor.pos {ref : QRef} {u : Option Int} (h : WaitsFor s ref u) :
    ∀ v, u = some v → 0 < v := by
  intro v hv
  by_cases hr : (s.queue ref).reqs = []
  · simp [h.1 hr] at hv
  · obtain ⟨v', hv', hpos⟩ := h.2 hr
    cases hv.symm.trans hv'
    exact hpos

/-- With `todo` the queues still to visit, a loop that serves none of them ends with a wait as soon
as one of them holds a request. -/
theorem dispatchLoop_waits (todo : List QRef) : ∀ {b : Bool} {m m' : Int} {s s' : State}
    {done : List QRef}, s.queues = todo ++ done → InSync s → s.runServeSize < runSizeLimit → 0 ≤ m →
    dispatchLoop P todo.length b m s = some (some m', s') →
    s'.queue = s.queue ∧ s'.nudges = s.nudges ∧
      ((0 < m ∨ ∃ ref ∈ todo, (s.queue ref).reqs ≠ []) → 0 < m') := by
  induction todo with
  | nil =>
    intro b m m' s s' done _ _ _ _ h
    cases h
    simp
  | cons ref todo ih =>
    intro b m m' s s' done hq hs hl hm h
    simp only [List.length_cons, dispatchLoop, hq, List.cons_append] at h
    cases hv : visit P b s ref with
    | none => simp [hv] at h
    | some v =>
      rcases visit_examines hv hs hl with ⟨s₁, rfl, -⟩ | ⟨u, s₁, rfl, -, hu, hp⟩ |
        ⟨u, s₁, rfl, hp, hw⟩
      · simp [hv] at h
      · simp only [hv, Option.some.injEq, Prod.mk.injEq] at h
        obtain ⟨rfl, rfl⟩ := h
        exact ⟨hp.queue, hp.nudges, fun _ => hu⟩
      · simp only [hv] at h
        have hq₁ : (rotate s₁).queues = todo ++ (done ++ [ref]) := by
          simp [rotate, hp.queues, hq]
        have hqueue : (rotate s₁).queue = s.queue := hp.queue
        have hsync : InSync (rotate s₁) := by rw [InSync, hqueue]; exact hs
        obtain ⟨h₁, h₂, h₃⟩ := ih hq₁ hsync (rotate_below_limit s₁) (minWait_nonneg hm hw.pos) h
        refine ⟨h₁.trans hqueue, h₂.trans hp.nudges, fun hor => h₃ ?_⟩
        rw [hqueue]
        rcases hor with hm' | ⟨ref', hmem, hr⟩
        · exact .inl (minWait_pos hm (.inl hm') hw.pos)
        · rcases List.mem_cons.mp hmem with rfl | hmem
          · exact .inl (minWait_pos hm (.inr (hw.2 hr)) hw.pos)
          · exact .inr ⟨ref', hmem, hr⟩

/-- Once it has switched queues, the loop adds no wait for empty ones. -/
theorem dispatchLoop_no_wait (todo : List QRef) : ∀ {m : Int} {s : State} {done : List QRef}
    {r : Option Int × State}, s.queues = todo ++ done → InSync s → s.runServeSize < runSizeLimit →
    (∀ ref ∈ todo, (s.queue ref).reqs = []) → dispatchLoop P todo.length true m s = some r →
    r.1 = some m ∧ r.2.queue = s.queue ∧ r.2.nudges = s.nudges := by
  induction todo with
  | nil =>
    intro m s done r _ _ _ _ h
    cases h
    exact ⟨rfl, rfl, rfl⟩
  | cons ref todo ih =>
    intro m s done r hq hs hl hempty h
    simp only [List.length_cons, dispatchLoop, hq, List.cons_append] at h
    have hr : (s.queue ref).reqs = [] := hempty ref (List.mem_cons_self ..)
    cases hv : visit P true s ref with
    | none => simp [hv] at h
    | some v =>
      rcases visit_examines hv hs hl with ⟨s₁, rfl, hne⟩ | ⟨u, s₁, rfl, hb, -⟩ | ⟨u, s₁, rfl, hp, hw⟩
      · exact absurd hr hne
      · cases hb
      · have hu : u = none := hw.1 hr
        subst hu
        simp only [hv, minWait] at h
        have hq₁ : (rotate s₁).queues = todo ++ (done ++ [ref]) := by
          simp [rotate, hp.queues, hq]
        have hqueue : (rotate s₁).queue = s.queue := hp.queue
        obtain ⟨h₁, h₂, h₃⟩ := ih hq₁ (by rw [InSync, hqueue]; exact hs)
          (rotate_below_limit s₁) (fun ref' hmem => by rw [hqueue]; exact hempty ref' (List.mem_cons_of_mem _ hmem)) h
        exact ⟨h₁, h₂.trans hqueue, h₃.trans hp.nudges⟩

/-! ## Declining with work left -/

def Armed (s s' : State) : Prop := ∃ expires, s'.nudges = s.nudges ++ [expires]

/-- The queue at the head is passed over unexamined, and it is the only one with requests. -/
def Overlooked (s : State) : Prop :=
  runSizeLimit ≤ s.runServeSize ∧ ∃ ref rest, s.queues = ref :: rest ∧ (s.queue ref).reqs ≠ [] ∧
    ∀ ref' ∈ rest, (s.queue ref').reqs = []

theorem decline_queue (P : Platform) (m : Int) (s : State) : (decline P m s).queue = s.queue := by
  simp only [decline]
  split_ifs <;> rfl

theorem decline_nudges (P : Platform) (m : Int) (s : State) :
    (0 < m → Armed s (decline P m s)) ∧ (m ≤ 0 → (decline P m s).nudges = s.nudges) := by
  simp only [decline, Armed]
  constructor <;> intro hm
  · split_ifs <;> exact ⟨_, rfl⟩
  · split_ifs <;> first | rfl | omega

/-- An unforced dispatch is the loop over as many rounds as there are queues. -/
theorem tbucketDispatch_eq (hw : Wired s) :
    tbucketDispatch P s false =
      match dispatchLoop P s.queues.length false 0 s with
      | none => none
      | some (none, s) => some (1, s)
      | some (some m, s) => some (0, decline P m s) := by
  have hcap : s.queuesCount.toNat = s.queues.length := by rw [hw.queuesCount]; rfl
  cases h : dispatchLoop P s.queues.length false 0 s with
  | none => simp [tbucketDispatch, dispatchCap, hcap, h]
  | some r =>
    obtain ⟨_ | m, s'⟩ := r
    · simp [tbucketDispatch, dispatchCap, hcap, h]
    · simp [tbucketDispatch, dispatchCap, hcap, h]

theorem dispatchLoop_limit {ref : QRef} {rest : List QRef} {r : Option Int × State}
    (hq : s.queues = ref :: rest) (hl : runSizeLimit ≤ s.runServeSize)
    (h : dispatchLoop P s.queues.length false 0 s = some r) :
    ∃ s₁, refreshAccount P s ref.1 = some s₁ ∧ (rotate s₁).queues = rest ++ [ref] ∧
      dispatchLoop P rest.length true 0 (rotate s₁) = some r := by
  simp only [hq, List.length_cons, dispatchLoop] at h
  cases hv : visit P false s ref with
  | none => simp [hv] at h
  | some v =>
    obtain ⟨s₁, hs₁, rfl⟩ := visit_limit hv hl
    simp only [hv, minWait] at h
    exact ⟨s₁, hs₁, by simp [rotate, (refreshAccount_passed hs₁).1.queues, hq], h⟩

/-- A loop that declines leaves a wait for every queue that holds a request, unless the head was
overlooked. -/
theorem dispatchLoop_armed (hw : Wired s) (hs : InSync s) {m : Int}
    (h : dispatchLoop P s.queues.length false 0 s = some (some m, s')) :
    s'.queue = s.queue ∧ s'.nudges = s.nudges ∧
      (¬ Overlooked s → (∃ ref, (s.queue ref).reqs ≠ []) → 0 < m) := by
  have hin : ∀ ref, (s.queue ref).reqs ≠ [] → ref ∈ s.queues := fun ref hr =>
    (hw.mem_iff ref).mpr (mem_keys_of_queue hr)
  by_cases hl : s.runServeSize < runSizeLimit
  · obtain ⟨h₁, h₂, h₃⟩ := dispatchLoop_waits s.queues (List.append_nil _).symm hs hl (le_refl 0) h
    exact ⟨h₁, h₂, fun _ ⟨ref, hr⟩ => h₃ (.inr ⟨ref, hin ref hr, hr⟩)⟩
  · rw [not_lt] at hl
    obtain ⟨ref, rest, hq⟩ := List.exists_cons_of_ne_nil (l := s.queues) fun hnil => by
      have := (hw.mem_iff (defaultAccount, false)).mpr hw.default
      simp [hnil] at this
    obtain ⟨s₁, hs₁, hq₁, hloop⟩ := dispatchLoop_limit hq hl h
    obtain ⟨hp, -⟩ := refreshAccount_passed hs₁
    have hqueue : (rotate s₁).queue = s.queue := hp.queue
    obtain ⟨h₁, h₂, h₃⟩ := dispatchLoop_waits rest hq₁ (by rw [InSync, hqueue]; exact hs)
      (rotate_below_limit s₁) (le_refl 0) hloop
    refine ⟨h₁.trans hqueue, h₂.trans hp.nudges, fun hno ⟨ref', hr⟩ => h₃ (.inr ?_)⟩
    rw [hqueue]
    by_contra hall
    push Not at hall
    refine hno ⟨hl, ref, rest, hq, ?_, hall⟩
    rcases List.mem_cons.mp (hq ▸ hin ref' hr) with rfl | hmem
    · exact hr
    · exact absurd (hall ref' hmem) hr

theorem dispatchLoop_overlooked (hs : InSync s) (ho : Overlooked s) {r : Option Int × State}
    (h : dispatchLoop P s.queues.length false 0 s = some r) :
    r.1 = some 0 ∧ r.2.queue = s.queue ∧ r.2.nudges = s.nudges := by
  obtain ⟨hl, ref, rest, hq, -, hempty⟩ := ho
  obtain ⟨s₁, hs₁, hq₁, hloop⟩ := dispatchLoop_limit hq hl h
  obtain ⟨hp, -⟩ := refreshAccount_passed hs₁
  have hqueue : (rotate s₁).queue = s.queue := hp.queue
  obtain ⟨h₁, h₂, h₃⟩ := dispatchLoop_no_wait rest hq₁ (by rw [InSync, hqueue]; exact hs)
    (rotate_below_limit s₁) (by rw [hqueue]; exact hempty) hloop
  exact ⟨h₁, h₂.trans hqueue, h₃.trans hp.nudges⟩

def Wakes (s : State) (r : Int × State) : Prop :=
  r.1 = 0 → (∃ ref, (r.2.queue ref).reqs ≠ []) → Armed s r.2

theorem wakes_iff_not_overlooked (hw : Wired s) (hs : InSync s) {r : Int × State}
    (h : tbucketDispatch P s false = some r) : Wakes s r ↔ ¬ Overlooked s := by
  rw [tbucketDispatch_eq hw] at h
  constructor
  · intro hwakes ho
    cases hl : dispatchLoop P s.queues.length false 0 s with
    | none => simp [hl] at h
    | some x =>
      obtain ⟨hx, hqueue, hnudges⟩ := dispatchLoop_overlooked hs ho hl
      obtain ⟨m, s₁⟩ := x
      subst hx
      simp only [hl, Option.some.injEq] at h
      subst h
      obtain ⟨-, ref, -, -, hr, -⟩ := ho
      obtain ⟨e, he⟩ := hwakes rfl ⟨ref, by rw [decline_queue, hqueue]; exact hr⟩
      rw [(decline_nudges P 0 s₁).2 (le_refl 0), hnudges] at he
      simpa using congrArg List.length he
  · intro hno h0 hr
    split at h
    · cases h
    · cases h
      cases h0
    · rename_i m s₁ hl
      cases h
      obtain ⟨hqueue, hnudges, hpos⟩ := dispatchLoop_armed hw hs hl
      rw [decline_queue, hqueue] at hr
      obtain ⟨e, he⟩ := (decline_nudges P m s₁).1 (hpos hno hr)
      exact ⟨e, he.trans (by rw [hnudges])⟩

/-! ## Over whole runs -/

/-- The request that a merge keeps is still on its queue. -/
def MergesQueued (w : World) : Event → Prop
  | .merge rq _ => ∃ ref, w.tb.rqQueue rq = some ref ∧ rq ∈ (w.tb.queue ref).reqs
  | _ => True

def State.excess (s : State) (ref : QRef) : Int := (s.queue ref).count - (s.queue ref).reqs.length

theorem inSync_iff : InSync s ↔ ∀ ref, s.excess ref = 0 :=
  forall_congr' fun _ => sub_eq_zero.symm

theorem Act.excess (h : Act P s s') (ref : QRef) : s'.excess ref = s.excess ref := by
  cases h with
  | idle hacc => simp [State.excess, State.queue, hacc]
  | charge hg => simp [State.excess, hg.queue]
  | @serve s₁ ref' rq hp =>
    obtain ⟨rest, hreqs, -, -⟩ := popQueue_some hp
    simp only [State.excess, dispatchSort_queue, popQueue_queue hp]
    split
    · rename_i e
      subst e
      simp only [hreqs, List.tail_cons, List.length_cons]
      push_cast
      omega
    · rfl
  | rotate => rfl

theorem InSync.of_act (h : InSync s) (ha : Act P s s') : InSync s' := by
  rw [inSync_iff] at h ⊢
  exact fun ref => (ha.excess ref).trans (h ref)

theorem InSync.add (h : InSync s) (hw : Wired s) (rq : Nat) (cur : Int) :
    InSync (tbucketAddRequest P s rq cur) ∧ Wired (tbucketAddRequest P s rq cur) := by
  obtain ⟨t, ref, hacts, hk, heq⟩ := tbucketAddRequest_spec hw P rq cur
  have ht : InSync t := hacts.keep (fun _ _ ha ht => ht.of_act ha) h
  have hwt : Wired t := hacts.keep (fun _ _ ha hw => hw.of_act ha) hw
  rw [heq]
  refine ⟨fun ref' => ?_, ⟨hwt.queues, hwt.queuesCount, hwt.default⟩⟩
  change (State.queue (t.setQueue ref (queuePush (t.queue ref) rq)) ref').count =
    (State.queue (t.setQueue ref (queuePush (t.queue ref) rq)) ref').reqs.length
  rw [queue_setQueue hk]
  split
  · simp [queuePush, ht ref]
  · exact ht ref'

theorem step_in_sync {w w' : World} {e : Event} (h : step P w e = some w')
    (he : MergesQueued w e) (hw : Wired w.tb ∧ InSync w.tb) : Wired w'.tb ∧ InSync w'.tb := by
  by_cases hp : e.Plain
  · obtain ⟨hacts, -⟩ := step_acts hp h
    exact ⟨hacts.keep (fun _ _ ha hw => hw.of_act ha) hw.1,
      hacts.keep (fun _ _ ha hs => hs.of_act ha) hw.2⟩
  · cases e with
    | add rq cur =>
      simp only [step] at h
      split at h
      · cases h
      · cases h
        exact (hw.2.add hw.1 rq cur).symm
    | merge rq next =>
      obtain ⟨ref, href, hmem⟩ := he
      simp only [step] at h
      split at h
      · simp only [tbucketMergeRequest, queueDel, href, Option.map_some, Option.some.injEq] at h
        subst h
        refine ⟨⟨hw.1.queues, hw.1.queuesCount, hw.1.default⟩, fun ref' => ?_⟩
        rw [queue_setQueue (mem_keys_of_queue (List.ne_nil_of_mem hmem))]
        split
        · have hpos := List.length_pos_of_mem hmem
          simp only [hw.2 ref, List.length_erase_of_mem hmem]
          omega
        · exact hw.2 ref'
      · cases h
    | _ => exact absurd trivial hp

/-- In every state that a fresh instance reaches, a dispatch that returns 0 while a queue holds a
request has armed the timer, exactly when the queue at the head is not overlooked. -/
theorem dispatch_wakes_iff (P : Platform) (m : Mem) (env : Env) (s : State) (es : List Event)
    (w : World) (r : Int × State) (h0 : tbucketInitQueue P m env = some s)
    (hr : run (step P) (World.init s) es = some w)
    (hm : Meets (step P) MergesQueued (World.init s) es)
    (hd : tbucketDispatch P w.tb false = some r) : Wakes w.tb r ↔ ¬ Overlooked w.tb := by
  have hf := (tbucketInitQueue_fresh h0).1
  have hinit : Wired (World.init s).tb ∧ InSync (World.init s).tb :=
    ⟨hf.wired, fun ref => by simp [World.init, hf.queue, Queue.init]⟩
  obtain ⟨hw, hs⟩ := run_invariant_of_meets
    (I := fun w : World => Wired w.tb ∧ InSync w.tb) (fun _ _ _ => step_in_sync) hr hm hinit
  exact wakes_iff_not_overlooked hw hs hd

/-- A throttled read: account 7 has a rate and no tokens. -/
def throttledRead : List Event := [.kvSet 7 "rate" 1000, .kvSet 7 "count" (-5), .add 0 7]

theorem dispatch_wakes_throttled :
    ∃ s w r, tbucketInitQueue .lp64 sampleMem sampleEnv = some s ∧
      run (step .lp64) (World.init s) throttledRead = some w ∧
      Meets (step .lp64) MergesQueued (World.init s) throttledRead ∧
      tbucketDispatch .lp64 w.tb false = some r ∧ r.1 = 0 ∧ (Wakes w.tb r ↔ ¬ Overlooked w.tb) := by
  have h : ((tbucketInitQueue .lp64 sampleMem sampleEnv).bind fun s =>
      (run (step .lp64) (World.init s) throttledRead).bind fun w =>
        tbucketDispatch .lp64 w.tb false).any (fun r => decide (r.1 = 0)) = true := by
    decide +kernel
  obtain ⟨r, hr, h0⟩ := (Option.any_eq_true _ _).mp h
  obtain ⟨s, hs, hr⟩ := Option.bind_eq_some_iff.mp hr
  obtain ⟨w, hw, hr⟩ := Option.bind_eq_some_iff.mp hr
  have hm : Meets (step .lp64) MergesQueued (World.init s) throttledRead :=
    ⟨trivial, fun _ _ => ⟨trivial, fun _ _ => ⟨trivial, fun _ _ => trivial⟩⟩⟩
  exact ⟨s, w, r, hs, hw, hm, hr, by simpa using h0,
    dispatch_wakes_iff .lp64 sampleMem sampleEnv s _ w r hs hw hm hr⟩

/-- Every request is a read of 1280 KiB. -/
def largeReads : Mem :=
  { sampleMem with
    rqs := fun r => ⟨[⟨none, 2560 * r, 1310720⟩], false, 1310720, 2560 * r, some r⟩ }

/-- Nine reads of account 7, of which eight are dispatched: 10 MiB in a row. -/
def nineReads : List Event :=
  (List.range 9).map (fun rq => .add rq 7) ++ List.replicate 8 (.dispatch false)

/-- The next dispatch returns 0, leaves the ninth read on its queue and sets no timer. -/
theorem ninth_read_overlooked :
    ∃ s w r, tbucketInitQueue .lp64 largeReads sampleEnv = some s ∧
      run (step .lp64) (World.init s) nineReads = some w ∧
      tbucketDispatch .lp64 w.tb false = some r ∧ ¬ Wakes w.tb r := by
  have h : ((tbucketInitQueue .lp64 largeReads sampleEnv).bind fun s =>
      (run (step .lp64) (World.init s) nineReads).bind fun w =>
        (tbucketDispatch .lp64 w.tb false).map fun r => (w.tb.nudges, r)).any (fun x =>
          decide (x.2.1 = 0) && decide ((x.2.2.queue (7, false)).reqs = [8]) &&
            decide (x.2.2.nudges = x.1)) = true := by
    decide +kernel
  obtain ⟨x, hx, hbad⟩ := (Option.any_eq_true _ _).mp h
  obtain ⟨s, hs, hx⟩ := Option.bind_eq_some_iff.mp hx
  obtain ⟨w, hw, hx⟩ := Option.bind_eq_some_iff.mp hx
  obtain ⟨r, hr, rfl⟩ := Option.map_eq_some_iff.mp hx
  simp only [Bool.and_eq_true, decide_eq_true_eq] at hbad
  obtain ⟨⟨h0, hq⟩, hn⟩ := hbad
  refine ⟨s, w, r, hs, hw, hr, fun hwakes => ?_⟩
  obtain ⟨e, he⟩ := hwakes h0 ⟨(7, false), by simp [hq]⟩
  rw [hn] at he
  simpa using congrArg List.length he

end Tb
end SplitSched
