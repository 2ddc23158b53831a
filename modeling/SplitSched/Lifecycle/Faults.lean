import SplitSched.Lifecycle.Invariant

/-!
# SplitSched.Lifecycle.Faults

What can go wrong in the life of scheduler instances.

* `Hazard`: the steps that go wrong, said with the state of the modules and of the switches.
* `exec_outcome`: a step goes wrong if and only if it is a hazard, and keeps the invariant if it is not one.
* `Inv.delivered`: what a message reaches.
* `lifecycle_faults_iff`: both, along every run.
-/

namespace SplitSched
namespace Lifecycle

variable {n : Nat} {w w' : World n} {q : Fin n} {m : Module} {C : CArith.CInts}

/-! ## Messages -/

def Elevators.deliver (e : Elevators) (s : Setting) : Elevators :=
  { e with current := e.current.map fun a => { a with received := a.received ++ [s] } }

/-- A callback of `m` for the queue finds data of its own. -/
def World.Reaches (w : World n) (m : Module) (q : Fin n) : Prop :=
  ∃ a, (w.queues q).current = some a ∧ a.live ∧ a.owner = m

variable {s : Setting}

theorem kvSet_reaches (h : w.Reaches m q) :
    World.kvSet m s w q = .ok (w.setQueue q ((w.queues q).deliver s)) := by
  obtain ⟨a, ha, hlive, howner⟩ := h
  simp [World.kvSet, Elevators.deliver, ha, hlive, howner]

theorem kvSet_fails (h : ¬w.Reaches m q) : ∃ f, World.kvSet m s w q = .error f := by
  unfold World.kvSet
  split
  · exact ⟨_, rfl⟩
  · rename_i a ha
    split
    · rename_i hlive
      rw [if_neg fun howner => h ⟨a, ha, hlive, howner⟩]
      exact ⟨_, rfl⟩
    · exact ⟨_, rfl⟩

theorem reaches_setQueue_of_ne {q' : Fin n} (hne : q' ≠ q) (e : Elevators) :
    (w.setQueue q e).Reaches m q' ↔ w.Reaches m q' := by
  simp [World.Reaches, World.setQueue, hne]

/-- The loop of `kv_set_all` gets through if every queue on the list is one that its callback may use. -/
theorem foldlM_kvSet {qs : List (Fin n)} : ∀ {w : World n}, qs.Nodup → (∀ q ∈ qs, w.Reaches m q) →
    qs.foldlM (World.kvSet m s) w =
      .ok { w with queues := fun q => if q ∈ qs then (w.queues q).deliver s else w.queues q } := by
  induction qs with
  | nil =>
    intro w _ _
    simp [pure, Except.pure]
  | cons q qs ih =>
    intro w hnd hall
    obtain ⟨hq, hnd⟩ := List.nodup_cons.mp hnd
    have hrest : ∀ q' ∈ qs, (w.setQueue q ((w.queues q).deliver s)).Reaches m q' := by
      intro q' hq'
      rw [reaches_setQueue_of_ne (ne_of_mem_of_not_mem hq' hq)]
      exact hall q' (List.mem_cons_of_mem q hq')
    rw [List.foldlM_cons, kvSet_reaches (hall q List.mem_cons_self)]
    refine (ih hnd hrest).trans ?_
    congr 2
    funext q'
    by_cases he : q' = q
    · subst he
      simp [hq, World.setQueue]
    · simp [World.setQueue, he]

theorem foldlM_kvSet_fails {qs : List (Fin n)} : ∀ {w : World n}, qs.Nodup → (∃ q ∈ qs, ¬w.Reaches m q) →
    ∃ f, qs.foldlM (World.kvSet m s) w = .error f := by
  induction qs with
  | nil =>
    rintro w - ⟨q, hq, -⟩
    cases hq
  | cons q qs ih =>
    rintro w hnd ⟨q', hq', hno⟩
    obtain ⟨hq, hnd⟩ := List.nodup_cons.mp hnd
    rw [List.foldlM_cons]
    by_cases hr : w.Reaches m q
    · have hne : q' ≠ q := by
        rintro rfl
        exact hno hr
      rw [kvSet_reaches hr]
      refine ih hnd ⟨q', (List.mem_cons.mp hq').resolve_left hne, ?_⟩
      rwa [reaches_setQueue_of_ne hne]
    · obtain ⟨f, hf⟩ := kvSet_fails (s := s) hr
      rw [hf]
      exact ⟨f, rfl⟩

/-- A queue is on the list of `m`, but has another elevator by now. -/
def Stranded (w : World n) (m : Module) : Prop :=
  ∃ q a, (w.queues q).leaving = some a ∧ a.registered ∧ a.owner = m

theorem Inv.stranded_iff (h : Inv w) : Stranded w m ↔ ∃ q ∈ w.disks m, ¬w.Reaches m q := by
  constructor
  · rintro ⟨q, a, ha, hreg, howner⟩
    refine ⟨q, (h.disks m q).mpr ⟨a, .inr ha, hreg, howner⟩, ?_⟩
    rintro ⟨b, hb, -, hob⟩
    exact (h.queues q).differ b a hb ha (hob.trans howner.symm)
  · rintro ⟨q, hq, hno⟩
    obtain ⟨a, ha | ha, hreg, howner⟩ := (h.disks m q).mp hq
    · exact absurd ⟨a, ha, ((h.queues q).inst a (.inl ha)).registered hreg, howner⟩ hno
    · exact ⟨q, a, ha, hreg, howner⟩

theorem Inv.kvSetAll_fails_iff (h : Inv w) : (∃ f, w.kvSetAll m s = .error f) ↔ Stranded w m := by
  rw [h.stranded_iff]
  constructor
  · rintro ⟨f, hf⟩
    by_contra hno
    push Not at hno
    rw [World.kvSetAll, foldlM_kvSet (h.nodup m) hno] at hf
    cases hf
  · exact foldlM_kvSet_fails (h.nodup m)

theorem Inv.deliver (h : Inv w) (hr : w.Reaches m q) : Inv (w.setQueue q ((w.queues q).deliver s)) := by
  obtain ⟨a, ha, hlive, -⟩ := hr
  have hok := (h.queues q).inst a (.inl ha)
  have he : (w.queues q).deliver s =
      { w.queues q with current := some { a with received := a.received ++ [s] } } := by
    simp [Elevators.deliver, ha]
  rw [he]
  exact h.setCurrent ha ⟨hok.registered, hok.threads, hok.timers⟩ rfl rfl rfl fun _ ht => ht

theorem foldlM_kvSet_inv {qs : List (Fin n)} : ∀ {w w' : World n}, Inv w → qs.foldlM (World.kvSet m s) w = .ok w' →
    Inv w' := by
  induction qs with
  | nil =>
    rintro w w' h ⟨⟩
    exact h
  | cons q qs ih =>
    intro w w' h hok
    rw [List.foldlM_cons] at hok
    by_cases hr : w.Reaches m q
    · rw [kvSet_reaches hr] at hok
      exact ih (h.deliver hr) hok
    · obtain ⟨f, hf⟩ := kvSet_fails (s := s) hr
      rw [hf] at hok
      cases hok

/-- What can go wrong. -/
def Hazard (C : CArith.CInts) (w : World n) : Event n → Prop
  -- `tbucket_init` does not get the device: another of the modules has it, or `register_chrdev` fails by itself.
  | .load m ok => m = .tb ∧ w.load .tb = .half ∧ (w.device ≠ none ∨ ok = false)
  -- `tbucket_init` has registered its elevator, but not yet initialised its list.
  | .registerDisk q ok => ok ∧ (w.queues q).current.map (·.owner) = some .tb ∧ w.load .tb = .half
  -- The registration of the instance that leaves had failed.
  | .finish q => ∃ a, (w.queues q).leaving = some a ∧ a.registered = false
  | .abandon q => ∃ a, (w.queues q).current = some a ∧ a.registered = false
  -- `basic_sched_exit_data` was called while the timer was pending.
  | .fires p t => t = .batchWait ∧ ∃ a, w.look p = some a ∧ a.live = false
  -- The module was unloaded while the file was open, or a queue with an instance of the module is switched.
  | .ioctl k msg id₀ val₀ => ∃ h, w.handles[k]? = some h ∧
      (h.stale ∨ (World.setting C msg id₀ val₀).isSome ∧ Stranded w h.owner)
  | _ => False

/-! ## Faults of the parts -/

variable {r : Except Fault (World n)}

theorem helperInit_fails_iff {w₁ : World n} {ok : Bool} :
    (∃ f, w₁.helperInit m ok = .error f) ↔ m = .tb ∧ (w₁.device ≠ none ∨ ok = false) := by
  simp only [World.helperInit, World.setDisks]
  cases ok with
  | false => by_cases hm : m = .tb <;> simp [hm]
  | true =>
    cases hd : w₁.device with
    | none => simp
    | some m' => by_cases hm : m = .tb <;> simp [hm]

theorem moduleInit_fails_iff {ok : Bool} (hr : w.moduleInit m ok = some r) :
    (∃ f, r = .error f) ↔ m = .tb ∧ w.load .tb = .half ∧ (w.device ≠ none ∨ ok = false) := by
  unfold World.moduleInit at hr
  split at hr
  · rename_i hl
    split at hr
    · rename_i hm
      subst hm
      cases hr
      simp [hl]
    · rename_i hm
      cases hr
      rw [helperInit_fails_iff]
      simp [hm]
  · rename_i hl
    split at hr
    · rename_i hm
      subst hm
      cases hr
      rw [helperInit_fails_iff]
      simp [hl, World.setLoad]
    · rename_i hm
      cases hr
      simp [hm]
  · cases hr

/-- A module that is not in use has no disk on its list. -/
theorem moduleExit_never_fails (h : Inv w) (hr : w.moduleExit m = some r) : ¬∃ f, r = .error f := by
  unfold World.moduleExit at hr
  split at hr
  · split at hr
    · cases hr
    · rename_i hu
      have hnil := h.disks_eq_nil (not_inUse_iff.mp hu).2
      cases hr
      simp [World.helperCleanup, World.setLoad, hnil]
  · cases hr
    simp
  · cases hr

theorem exitQueue_fails_iff (h : Inv w) {a : Option Inst} (ha : ∀ b, a = some b → (w.queues q).Has b)
    (hother : ∀ b c, a = some b → (w.queues q).Has c → c.owner = b.owner → c = b) (f : World n → World n) :
    (∃ x, (w.exitQueue q a).map f = .error x) ↔ ∃ b, a = some b ∧ b.registered = false := by
  cases a with
  | none => simp [World.exitQueue, Except.map]
  | some b =>
    have hmem : q ∈ w.disks b.owner ↔ b.registered := by
      rw [h.disks]
      constructor
      · rintro ⟨c, hc, hreg, howner⟩
        exact hother b c rfl hc howner ▸ hreg
      · exact fun hreg => ⟨b, ha b rfl, hreg, rfl⟩
    simp only [World.exitQueue, World.unregisterDisk]
    split
    · rename_i hq
      simp [Except.map, hmem.mp hq]
    · rename_i hq
      have hreg : b.registered = false := by simpa using hmem.not.mp hq
      simp [Except.map, hreg]

theorem Inv.look_ok (h : Inv w) {p : Place n} {a : Inst} (ha : w.look p = some a) : a.Ok := by
  cases p with
  | current q => exact (h.queues q).inst a (.inl ha)
  | leaving q => exact (h.queues q).inst a (.inr ha)
  | gone k => exact (h.gone a (List.mem_of_getElem? ha)).1

theorem registerDisk_fails_iff (h : Inv w) {a : Inst} {old : Option Inst}
    (hq : w.queues q = ⟨some a, some ⟨old, .starting⟩⟩) (ok : Bool) :
    (∃ f, w.registerDisk q a old ok = .error f) ↔ ok ∧ a.owner = .tb ∧ w.load .tb = .half := by
  obtain ⟨hcur, -, -, -, hav, -⟩ := h.in_switch hq
  have havail := hav a rfl ((hcur a rfl).2.mpr (by decide))
  have hready := h.ready a.owner
  have hunready : w.ready a.owner = false ↔ a.owner = .tb ∧ w.load .tb = .half := by
    rw [← Bool.not_eq_true, hready]
    rcases havail with hl | ⟨hm, hl⟩
    · refine iff_of_false (fun hno => hno (.inl hl)) ?_
      rintro ⟨hm, hhalf⟩
      rw [hm, hhalf] at hl
      cases hl
    · rw [hm] at hl ⊢
      simp [Load.Ready, hl]
  unfold World.registerDisk
  split
  · rename_i hok
    split
    · rename_i hr
      rw [← hunready]
      simp [hr]
    · rename_i hr
      rw [← hunready]
      simp [hok, hr]
  · rename_i hok
    simp [hok]

theorem map_eq_ok {α β : Type} {x : Except Fault α} {f : α → β} {b : β} (h : x.map f = .ok b) :
    ∃ a, x = .ok a ∧ b = f a := by
  cases x with
  | error e => cases h
  | ok a =>
    cases h
    exact ⟨a, rfl, rfl⟩

/-! ## All steps -/

/-- The outcome of a step that goes wrong if and only if `p`. -/
structure Outcome (r : Except Fault (World n)) (p : Prop) : Prop where
  inv : ∀ w', r = .ok w' → Inv w'
  fails : (∃ f, r = .error f) ↔ p

theorem Outcome.of_ok (h : Inv w) : Outcome (.ok w) False := by
  refine ⟨?_, by simp⟩
  rintro w' ⟨⟩
  exact h

theorem Outcome.of_error {p : Prop} (f : Fault) (hp : p) : Outcome (n := n) (.error f) p := by
  refine ⟨?_, iff_of_true ⟨f, rfl⟩ hp⟩
  rintro w' ⟨⟩

/-- One case for each step. -/
theorem exec_outcome {e : Event n} (h : Inv w) (hr : w.exec C e = some r) : Outcome r (Hazard C w e) := by
  cases e with
  | load m ok =>
    refine ⟨?_, moduleInit_fails_iff hr⟩
    rintro w' rfl
    exact moduleInit_inv h hr
  | unload m =>
    refine ⟨?_, iff_of_false (moduleExit_never_fails h hr) id⟩
    rintro w' rfl
    exact moduleExit_inv h hr
  | initFails m eq =>
    simp only [World.exec] at hr
    split at hr
    · cases hr
      split
      · exact .of_ok ⟨h.queues, h.gone, h.nodup, h.disks, h.available, h.listed, h.ready⟩
      · exact .of_ok h
    · cases hr
  | publish m q =>
    simp only [World.exec] at hr
    split at hr
    · rename_i hg
      cases hr
      exact .of_ok (publish_inv h hg.1 (Option.isNone_iff_eq_none.mp hg.2.1) hg.2.2)
    · cases hr
  | publishOther q =>
    simp only [World.exec] at hr
    split at hr
    · rename_i hn
      cases hr
      exact .of_ok (publishOther_inv h (Option.isNone_iff_eq_none.mp hn))
    · cases hr
  | startThread q ok =>
    simp only [World.exec] at hr
    split at hr
    · rename_i a old hq
      split at hr
      · cases hr
        exact .of_ok (startThread_inv h hq ok)
      · cases hr
    · cases hr
  | registerDisk q ok =>
    simp only [World.exec] at hr
    split at hr
    · rename_i a old hq
      split at hr
      · cases hr
        refine ⟨fun w' hok => registerDisk_inv h hq hok, ?_⟩
        rw [registerDisk_fails_iff h hq]
        simp [Hazard, hq]
      · cases hr
    · cases hr
  | finish q =>
    simp only [World.exec] at hr
    split at hr
    · rename_i new old hq
      cases hr
      have hdiff := (h.in_switch hq).2.2.2.1
      refine ⟨?_, ?_⟩
      · intro w' hok
        obtain ⟨w₁, hx, rfl⟩ := map_eq_ok hok
        exact finish_inv h hq hx
      · rw [exitQueue_fails_iff h]
        · simp [Hazard, hq, Elevators.leaving]
        · intro b hb
          exact .inr (by rw [hq]; exact hb)
        · intro b c hb hc howner
          rw [hq] at hc
          rcases hc with hc | hc
          · exact absurd howner (hdiff c b hc hb)
          · exact Option.some.inj (hc.symm.trans hb)
    · cases hr
  | abandon q =>
    simp only [World.exec] at hr
    split at hr
    · rename_i new old hq
      cases hr
      have hdiff := (h.in_switch hq).2.2.2.1
      refine ⟨?_, ?_⟩
      · intro w' hok
        obtain ⟨w₁, hx, rfl⟩ := map_eq_ok hok
        exact abandon_inv h hq hx
      · rw [exitQueue_fails_iff h]
        · simp [Hazard, hq]
        · intro b hb
          exact .inl (by rw [hq]; exact hb)
        · intro b c hb hc howner
          rw [hq] at hc
          rcases hc with hc | hc
          · exact Option.some.inj (hc.symm.trans hb)
          · exact absurd howner.symm (hdiff b c hb hc)
    · cases hr
  | restore q =>
    simp only [World.exec] at hr
    split at hr
    · rename_i new old hq
      cases hr
      exact .of_ok (restore_inv h hq)
    · cases hr
  | dispatch q =>
    simp only [World.exec] at hr
    split at hr
    · rename_i a hq
      cases hr
      exact .of_ok (dispatch_inv h hq)
    · cases hr
  | fires p t =>
    obtain ⟨a, ha, hr⟩ := Option.bind_eq_some_iff.mp hr
    split at hr
    · rename_i ht
      cases hr
      have hwait := ((h.look_ok ha).timers t ht).2
      simp only [Hazard, ha, Option.some.injEq, exists_eq_left']
      split
      · rename_i hlive
        simpa [hlive] using Outcome.of_ok (fires_inv h ha t)
      · rename_i hlive
        exact .of_error _ (by simp [hwait.resolve_left hlive, hlive])
    · cases hr
  | thread p =>
    obtain ⟨a, ha, hr⟩ := Option.bind_eq_some_iff.mp hr
    split at hr
    · rename_i ht
      cases hr
      rw [if_pos ((h.look_ok ha).threads ht)]
      exact .of_ok h
    · cases hr
  | openDevice =>
    obtain ⟨m, -, rfl⟩ := Option.map_eq_some_iff.mp hr
    exact .of_ok ⟨h.queues, h.gone, h.nodup, h.disks, h.available, h.listed, h.ready⟩
  | ioctl k msg id₀ val₀ =>
    obtain ⟨hd, hk, rfl⟩ := Option.map_eq_some_iff.mp hr
    simp only [Hazard, hk, Option.some.injEq, exists_eq_left']
    split
    · rename_i hstale
      exact .of_error _ (by simp [hstale])
    · rename_i hstale
      cases hs : World.setting C msg id₀ val₀ with
      | some s => exact ⟨fun w' hok => foldlM_kvSet_inv h hok, by simp [h.kvSetAll_fails_iff, hstale]⟩
      | none => simpa [hstale] using Outcome.of_ok h

theorem run_inv {es : List (Event n)} (h : run (World.step C) (World.boot n) es = some w) : Inv w := by
  refine run_invariant (fun w e w' hs hI => ?_) h (inv_boot n)
  obtain ⟨r, hr, hok⟩ := Option.bind_eq_some_iff.mp hs
  cases r with
  | error f => cases hok
  | ok w₁ =>
    cases hok
    exact (exec_outcome hI hr).inv w' rfl

/-- The setting has reached each registered instance of the module, and nothing else has changed. -/
structure Delivered (w w' : World n) (m : Module) (s : Setting) : Prop where
  instances : ∀ q a, (w.queues q).current = some a → a.registered → a.owner = m →
    a.live ∧ w'.queues q = (w.queues q).deliver s
  others : ∀ q, (∀ a, (w.queues q).current = some a → a.registered → a.owner ≠ m) → w'.queues q = w.queues q
  rest : w' = { w with queues := w'.queues }

theorem Inv.delivered (h : Inv w) (hok : w.kvSetAll m s = .ok w') : Delivered w w' m s := by
  have hall : ∀ q ∈ w.disks m, w.Reaches m q := by
    by_contra hno
    push Not at hno
    obtain ⟨f, hf⟩ := foldlM_kvSet_fails (s := s) (h.nodup m) hno
    rw [World.kvSetAll, hf] at hok
    cases hok
  rw [World.kvSetAll, foldlM_kvSet (h.nodup m) hall] at hok
  cases hok
  refine ⟨fun q a ha hreg howner => ?_, fun q hno => ?_, rfl⟩
  · have hmem : q ∈ w.disks m := (h.disks m q).mpr ⟨a, .inl ha, hreg, howner⟩
    exact ⟨((h.queues q).inst a (.inl ha)).registered hreg, by simp [hmem]⟩
  · have hmem : q ∉ w.disks m := by
      intro hq
      obtain ⟨a, ha | ha, hreg, howner⟩ := (h.disks m q).mp hq
      · exact hno a ha hreg howner
      · obtain ⟨b, hb, -, hob⟩ := hall q hq
        exact (h.queues q).differ b a hb ha (hob.trans howner.symm)
    simp [hmem]

/-- In every run of modules that are loaded and unloaded, queues that are switched, dispatches, threads and timers of
the instances, and messages, a step goes wrong if and only if it is one of the hazards; and a message that does not go
wrong reaches each registered instance of the module whose file it is sent to, once, and nothing else. Hooks in system
calls are not among the steps. -/
theorem lifecycle_faults_iff {es : List (Event n)} (hrun : run (World.step C) (World.boot n) es = some w) :
    (∀ e r, w.exec C e = some r → ((∃ f, r = .error f) ↔ Hazard C w e)) ∧
      ∀ k h msg id₀ val₀ s w', w.handles[k]? = some h → World.setting C msg id₀ val₀ = some s →
        w.exec C (.ioctl k msg id₀ val₀) = some (.ok w') → Delivered w w' h.owner s := by
  have hinv := run_inv hrun
  refine ⟨fun e r hr => (exec_outcome hinv hr).fails, ?_⟩
  intro k h msg id₀ val₀ s w' hk hs hok
  simp only [World.exec, hk, hs, Option.map_some, Option.some.injEq] at hok
  split at hok
  · cases hok
  · exact hinv.delivered hok

/-- afq is installed on a queue, takes a message, submits a batch and is replaced. -/
def replacedRun : List (Event 1) :=
  [.load .afq true, .load .afq true, .openDevice, .publish .afq 0, .startThread 0 true, .startThread 0 true,
    .registerDisk 0 true, .finish 0, .ioctl 0 (Ioctl.message ['1', ' ', 'a', ' ', '2']).toList 0 0, .dispatch 0,
    .publishOther 0]

/-- A message would now reach the data of another elevator; and after the switch `batch_wait_timer` finds the data of
afq freed. -/
theorem lifecycle_faults_replaced : ∃ w w', run (World.step .lp64) (World.boot 1) replacedRun = some w ∧
    run (World.step .lp64) (World.boot 1) (replacedRun ++ [.finish 0]) = some w' ∧
    Hazard .lp64 w (.ioctl 0 (Ioctl.message ['1', ' ', 'a', ' ', '2']).toList 0 0) ∧
    Hazard .lp64 w' (.fires (.gone 0) .batchWait) := by
  have h : (run (World.step .lp64) (World.boot 1) replacedRun).any (fun w =>
      (w.exec .lp64 (.ioctl 0 (Ioctl.message ['1', ' ', 'a', ' ', '2']).toList 0 0)).any fun r =>
        match r with
        | .error _ => true
        | .ok _ => false) := by
    decide +kernel
  have h' : (run (World.step .lp64) (World.boot 1) (replacedRun ++ [.finish 0])).any (fun w =>
      (w.exec .lp64 (.fires (.gone 0) .batchWait)).any fun r =>
        match r with
        | .error _ => true
        | .ok _ => false) := by
    decide +kernel
  obtain ⟨w, hw, hx⟩ := (Option.any_eq_true _ _).mp h
  obtain ⟨r, hr, hfail⟩ := (Option.any_eq_true _ _).mp hx
  obtain ⟨w', hw', hx'⟩ := (Option.any_eq_true _ _).mp h'
  obtain ⟨r', hr', hfail'⟩ := (Option.any_eq_true _ _).mp hx'
  refine ⟨w, w', hw, hw', ((lifecycle_faults_iff hw).1 _ r hr).mp ?_, ((lifecycle_faults_iff hw').1 _ r' hr').mp ?_⟩
  · cases r with
    | error f => exact ⟨f, rfl⟩
    | ok _ => cases hfail
  · cases r' with
    | error f => exact ⟨f, rfl⟩
    | ok _ => cases hfail'

end Lifecycle
end SplitSched
