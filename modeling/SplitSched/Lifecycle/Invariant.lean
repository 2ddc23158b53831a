import SplitSched.Lifecycle.Steps

/-!
# SplitSched.Lifecycle.Invariant

What holds along every run of loads, switches, timers and messages: the list of a module holds the queues that its
instances have registered, each once (`Inv.disks`), an instance on a queue is not freed before the switch is given up,
and of what belongs to an instance only `batch_wait_timer` outlives it (`Inst.Ok`).

`Inv.update` says what a step that changes one queue and one list has to keep; there is one lemma for each step.
-/

namespace SplitSched
namespace Lifecycle

/-! ## The invariant -/

namespace Inst

/-- Only `batch_wait_timer` outlives its instance. -/
structure Ok (a : Inst) : Prop where
  registered : a.registered → a.live
  threads : 0 < a.threads → a.live
  timers : ∀ t, a.timers t → t.owner = a.owner ∧ (a.live ∨ t = .batchWait)

/-- Nothing but the init function knows the instance. -/
structure Quiet (a : Inst) : Prop where
  registered : a.registered = false
  timers : ∀ t, a.timers t = false

variable {a : Inst}

theorem new_quiet (m : Module) : (new m).Quiet := ⟨rfl, fun _ => rfl⟩

theorem new_ok (m : Module) : (new m).Ok := ⟨nofun, fun _ => rfl, nofun⟩

theorem Ok.armed (h : a.Ok) (hlive : a.live) : a.armed.Ok := by
  have hold := fun t ht => (h.timers t ht).1
  unfold Inst.armed
  split
  · rename_i ho
    refine ⟨fun _ => hlive, fun _ => hlive, fun t ht => ⟨?_, .inl hlive⟩⟩
    cases t with
    | dispatchNudger => exact ho.symm
    | batchWait => exact hold _ ht
    | batchDead => exact hold _ ht
  · rename_i ho
    refine ⟨fun _ => hlive, fun _ => hlive, fun t ht => ⟨?_, .inl hlive⟩⟩
    cases t with
    | dispatchNudger => exact hold _ ht
    | batchWait => exact ho.symm
    | batchDead => exact ho.symm
  · exact h

@[simp] theorem armed_owner (a : Inst) : a.armed.owner = a.owner := by
  unfold armed
  split <;> rfl

@[simp] theorem armed_live (a : Inst) : a.armed.live = a.live := by
  unfold armed
  split <;> rfl

@[simp] theorem armed_registered (a : Inst) : a.armed.registered = a.registered := by
  unfold armed
  split <;> rfl

/-- No exit function leaves a timer but `batch_wait_timer`. -/
theorem delTimers_eq_true {m : Module} {timers : Timer → Bool} (hown : ∀ t, timers t → t.owner = m) {t : Timer}
    (h : delTimers m timers t) : t.owner = m ∧ t = .batchWait := by
  cases m with
  | tb =>
    cases t with
    | dispatchNudger => simp [delTimers] at h
    | batchWait => exact absurd (hown _ (by simpa [delTimers] using h)) (by decide)
    | batchDead => exact absurd (hown _ (by simpa [delTimers] using h)) (by decide)
  | afq =>
    cases t with
    | dispatchNudger =>
      have hpending : timers .dispatchNudger := by
        simp only [delTimers] at h
        split at h <;> split at h <;> simpa using h
      exact absurd (hown _ hpending) (by decide)
    | batchWait => exact ⟨rfl, rfl⟩
    | batchDead =>
      simp only [delTimers] at h
      split at h <;> split at h <;> simp_all
  | deadline =>
    have hdl := hown t h
    cases t <;> exact absurd hdl (by decide)

theorem Ok.exited (h : a.Ok) : a.exited.Ok := by
  refine ⟨nofun, nofun, fun t ht => ?_⟩
  obtain ⟨howner, hwait⟩ := delTimers_eq_true (fun t ht => (h.timers t ht).1) ht
  exact ⟨howner, .inr hwait⟩

theorem Ok.cleared (h : a.Ok) (t : Timer) : Ok { a with timers := Function.update a.timers t false } := by
  refine ⟨h.registered, h.threads, fun t' ht' => ?_⟩
  by_cases he : t' = t
  · subst he
    simp at ht'
  · exact h.timers t' (by simpa [he] using ht')

end Inst

namespace Elevators

variable {e : Elevators}

def Has (e : Elevators) (a : Inst) : Prop := e.current = some a ∨ e.leaving = some a

/-- An instance of `m` has registered the queue. -/
def Registers (e : Elevators) (m : Module) : Prop := ∃ a, e.Has a ∧ a.registered ∧ a.owner = m

def Failed (e : Elevators) : Prop := ∃ old, e.switch = some ⟨old, .failed⟩

structure Ok (e : Elevators) : Prop where
  inst : ∀ a, e.Has a → a.Ok
  leaving : ∀ a, e.leaving = some a → a.live
  current : ∀ a, e.current = some a → (a.live ↔ ¬e.Failed)
  starting : ∀ a old, e.current = some a → e.switch = some ⟨old, .starting⟩ → a.Quiet
  /-- An elevator is not replaced by one of its type. -/
  differ : ∀ a b, e.current = some a → e.leaving = some b → a.owner ≠ b.owner

def Reg (a : Option Inst) (m : Module) : Prop := ∃ b, a = some b ∧ b.registered ∧ b.owner = m

theorem reg_none (m : Module) : ¬Reg none m := nofun

theorem reg_some {a : Inst} {m : Module} : Reg (some a) m ↔ a.registered ∧ a.owner = m := by simp [Reg]

theorem registers_iff (e : Elevators) (m : Module) : e.Registers m ↔ Reg e.current m ∨ Reg e.leaving m := by
  unfold Registers Has Reg
  grind

end Elevators

/-- The module's list is initialised. `tbucket_init` has registered its elevator before. -/
def Load.Ready (l : Load) (m : Module) : Prop := l = .loaded ∨ l = .going ∨ m ≠ .tb ∧ l = .half

/-- The lists hold the queues whose instances have registered them. -/
structure Inv {n : Nat} (w : World n) : Prop where
  queues : ∀ q, (w.queues q).Ok
  gone : ∀ a ∈ w.gone, a.Ok ∧ a.live = false
  nodup : ∀ m, (w.disks m).Nodup
  disks : ∀ m q, q ∈ w.disks m ↔ (w.queues q).Registers m
  available : ∀ q a, (w.queues q).Has a → a.live → w.Available a.owner
  listed : ∀ m, w.disks m ≠ [] → w.ready m
  ready : ∀ m, w.ready m ↔ (w.load m).Ready m

variable {n : Nat} {w w' : World n} {q : Fin n} {m : Module} {C : CArith.CInts}

theorem inv_boot (n : Nat) : Inv (World.boot n) where
  queues _ := ⟨nofun, nofun, nofun, nofun, nofun⟩
  gone := nofun
  nodup _ := List.nodup_nil
  disks m q := by simp [World.boot, Elevators.Registers, Elevators.Has, Elevators.leaving]
  available := nofun
  listed _ h := absurd rfl h
  ready m := by simp [World.boot, Load.Ready]

/-! ## What a step can change -/

/-- The elevators of one queue change, and with them the list of one module. -/
theorem Inv.update (h : Inv w) {e : Elevators} {qs : List (Fin n)} (he : e.Ok) (hnd : qs.Nodup)
    (hothers : ∀ q' ≠ q, (q' ∈ qs ↔ q' ∈ w.disks m)) (hq : q ∈ qs ↔ e.Registers m)
    (hsame : ∀ m' ≠ m, (e.Registers m' ↔ (w.queues q).Registers m'))
    (hav : ∀ a, e.Has a → a.live → w.Available a.owner) (hready : qs ≠ [] → w.ready m) :
    Inv ((w.setQueue q e).setDisks m qs) where
  queues q' := by
    by_cases hqq : q' = q
    · subst hqq
      simpa [World.setQueue, World.setDisks] using he
    · simpa [World.setQueue, World.setDisks, hqq] using h.queues q'
  gone := h.gone
  nodup m' := by
    by_cases hm : m' = m
    · subst hm
      simpa [World.setQueue, World.setDisks] using hnd
    · simpa [World.setQueue, World.setDisks, hm] using h.nodup m'
  disks m' q' := by
    by_cases hm : m' = m <;> by_cases hqq : q' = q
    · subst hm hqq
      simpa [World.setQueue, World.setDisks] using hq
    · subst hm
      simpa [World.setQueue, World.setDisks, hqq, hothers q' hqq] using h.disks m' q'
    · subst hqq
      simpa [World.setQueue, World.setDisks, hm, hsame m' hm] using h.disks m' q'
    · simpa [World.setQueue, World.setDisks, hm, hqq] using h.disks m' q'
  available q' a ha := by
    by_cases hqq : q' = q
    · subst hqq
      exact hav a (by simpa [World.setQueue, World.setDisks] using ha)
    · exact h.available q' a (by simpa [World.setQueue, World.setDisks, hqq] using ha)
  listed m' := by
    by_cases hm : m' = m
    · subst hm
      simpa [World.setQueue, World.setDisks] using hready
    · simpa [World.setQueue, World.setDisks, hm] using h.listed m'
  ready := h.ready

/-- The elevators of one queue change, and none registers or leaves. -/
theorem Inv.setQueue (h : Inv w) {e : Elevators} (he : e.Ok)
    (hsame : ∀ m, (e.Registers m ↔ (w.queues q).Registers m))
    (hav : ∀ a, e.Has a → a.live → w.Available a.owner) : Inv (w.setQueue q e) := by
  have hlist : (w.setQueue q e).setDisks .tb (w.disks .tb) = w.setQueue q e := by
    simp [World.setDisks, World.setQueue]
  rw [← hlist]
  exact h.update he (h.nodup _) (fun _ _ => .rfl) ((h.disks _ q).trans (hsame _).symm) (fun m _ => hsame m) hav
    (h.listed _)

theorem Inv.setGone (h : Inv w) {gone : List Inst} (hg : ∀ a ∈ gone, a.Ok ∧ a.live = false) :
    Inv { w with gone } := ⟨h.queues, hg, h.nodup, h.disks, h.available, h.listed, h.ready⟩

/-- A module goes on with its init or exit function. -/
theorem Inv.setModule (h : Inv w) {l : Load} {r : Bool} (device : Option Module) (handles : List Handle)
    (hav : ∀ q a, (w.queues q).Has a → a.live → a.owner = m → l.Available m) (hr : r ↔ l.Ready m)
    (hlisted : w.disks m ≠ [] → r) :
    Inv { w with load := Function.update w.load m l, ready := Function.update w.ready m r, device, handles } where
  queues := h.queues
  gone := h.gone
  nodup := h.nodup
  disks := h.disks
  available q a ha hlive := by
    by_cases hm : a.owner = m
    · subst hm
      simpa [World.Available] using hav q a ha hlive rfl
    · simpa [World.Available, hm] using h.available q a ha hlive
  listed m' := by
    by_cases hm : m' = m
    · subst hm
      simpa using hlisted
    · simpa [hm] using h.listed m'
  ready m' := by
    by_cases hm : m' = m
    · subst hm
      simpa using hr
    · simpa [hm] using h.ready m'

/-- Without instances on the queues the list of a module is empty. -/
theorem Inv.disks_eq_nil (h : Inv w) (hnone : ∀ q a, (w.queues q).Has a → a.live → a.owner ≠ m) : w.disks m = [] := by
  refine List.eq_nil_iff_forall_not_mem.mpr fun q hq => ?_
  obtain ⟨a, ha, hreg, howner⟩ := (h.disks m q).mp hq
  exact hnone q a ha (((h.queues q).inst a ha).registered hreg) howner

theorem Inv.no_instance (h : Inv w) (hav : ¬w.Available m) (q : Fin n) (a : Inst) (ha : (w.queues q).Has a)
    (hlive : a.live) : a.owner ≠ m := by
  rintro rfl
  exact hav (h.available q a ha hlive)

/-! ## Modules -/

theorem helperInit_ok {w₁ w' : World n} {ok : Bool} (h : w₁.helperInit m ok = .ok w') :
    ∃ device, w' = { w₁ with ready := Function.update w₁.ready m true, disks := Function.update w₁.disks m [],
                             device } := by
  simp only [World.helperInit, World.setDisks] at h
  split at h
  · cases h
    exact ⟨_, rfl⟩
  · split at h
    · cases h
    · cases h
      exact ⟨_, rfl⟩

/-- The list is initialised again only where it is empty. -/
theorem Inv.helperInit (h : Inv w) {l : Load} {ok : Bool} (hnil : w.disks m = []) (hl : l.Ready m)
    (hav : ∀ q a, (w.queues q).Has a → a.live → a.owner = m → l.Available m)
    (hok : (w.setLoad m l).helperInit m ok = .ok w') : Inv w' := by
  obtain ⟨device, rfl⟩ := helperInit_ok hok
  have hsame : Function.update w.disks m [] = w.disks := Function.update_eq_self_iff.mpr hnil.symm
  simp only [World.setLoad, hsame]
  exact h.setModule device w.handles hav (by simpa using hl) (fun _ => rfl)

theorem moduleInit_inv (h : Inv w) {ok : Bool} (hok : w.moduleInit m ok = some (.ok w')) : Inv w' := by
  unfold World.moduleInit at hok
  split at hok
  · rename_i hl
    have hno := h.no_instance (m := m) (by simp [World.Available, Load.Available, hl])
    have hnil := h.disks_eq_nil hno
    have hr : w.ready m = false := by
      have hready := h.ready m
      simpa [hl, Load.Ready] using hready
    split at hok
    · rename_i hm
      cases hok
      have hsame : Function.update w.ready m false = w.ready := Function.update_eq_self_iff.mpr hr.symm
      have hinv := h.setModule (l := .half) (r := false) w.device w.handles
        (fun q a ha hlive ho => absurd ho (hno q a ha hlive)) (by simp [Load.Ready, hm]) (fun hne => absurd hnil hne)
      rwa [hsame] at hinv
    · rename_i hm
      exact h.helperInit hnil (.inr (.inr ⟨hm, rfl⟩)) (fun q a ha hlive ho => absurd ho (hno q a ha hlive))
        (Option.some.inj hok)
  · rename_i hl
    split at hok
    · rename_i hm
      subst hm
      have hr : w.ready .tb = false := by
        have hready := h.ready .tb
        simpa [hl, Load.Ready] using hready
      have hnil : w.disks .tb = [] := by
        by_contra hne
        simp [h.listed _ hne] at hr
      exact h.helperInit hnil (.inl rfl) (fun _ _ _ _ _ => .inl rfl) (Option.some.inj hok)
    · rename_i hm
      cases hok
      have hr : w.ready m = true := (h.ready m).mpr (.inr (.inr ⟨hm, hl⟩))
      have hsame : Function.update w.ready m true = w.ready := Function.update_eq_self_iff.mpr hr.symm
      have hinv := h.setModule (m := m) (l := .loaded) (r := true) w.device w.handles (fun _ _ _ _ _ => .inl rfl)
        (by simp [Load.Ready]) (fun _ => rfl)
      rwa [hsame] at hinv
  · cases hok

theorem not_inUse_iff : ¬w.InUse m ↔ w.leaks m = 0 ∧ ∀ q a, (w.queues q).Has a → a.live → a.owner ≠ m := by
  unfold World.InUse Elevators.Has
  simp only [List.mem_append, Option.mem_toList]
  grind

theorem moduleExit_inv (h : Inv w) (hok : w.moduleExit m = some (.ok w')) : Inv w' := by
  unfold World.moduleExit at hok
  split at hok
  · rename_i hl
    split at hok
    · cases hok
    · rename_i hu
      have hno := (not_inUse_iff.mp hu).2
      have hr : w.ready m = true := (h.ready m).mpr (.inl hl)
      have hsame : Function.update w.ready m true = w.ready := Function.update_eq_self_iff.mpr hr.symm
      have hinv := h.setModule (l := .going) (r := true) none w.handles
        (fun q a ha hlive ho => absurd ho (hno q a ha hlive)) (by simp [Load.Ready]) (fun _ => rfl)
      simp only [World.helperCleanup] at hok
      split at hok
      · cases hok
      · cases hok
        rwa [hsame] at hinv
  · rename_i hl
    cases hok
    have hno := h.no_instance (m := m) (by simp [World.Available, Load.Available, hl])
    exact h.setModule (l := .unloaded) w.device _ (fun q a ha hlive ho => absurd ho (hno q a ha hlive))
      (by simp [Load.Ready]) (fun hne => absurd (h.disks_eq_nil hno) hne)
  · cases hok

/-! ## Elevators -/

section Queues

variable {a b : Inst} {cur old : Option Inst} {st : Stage}

theorem Elevators.failed_mk (cur old : Option Inst) (st : Stage) :
    (⟨cur, some ⟨old, st⟩⟩ : Elevators).Failed ↔ st = .failed := by
  simp [Elevators.Failed, Switch.mk.injEq]

theorem Elevators.not_failed_none (cur : Option Inst) : ¬(⟨cur, none⟩ : Elevators).Failed := by
  simp [Elevators.Failed]

/-- An installed elevator. -/
theorem Elevators.ok_none (h : ∀ a, cur = some a → a.Ok ∧ a.live) : (⟨cur, none⟩ : Elevators).Ok := by
  refine ⟨?_, nofun, ?_, nofun, nofun⟩
  · rintro a (ha | ha)
    · exact (h a ha).1
    · cases ha
  · intro a ha
    exact iff_of_true (h a ha).2 (Elevators.not_failed_none _)

/-- The elevators in a switch. -/
theorem Elevators.ok_switch (hcur : ∀ a, cur = some a → a.Ok ∧ (a.live ↔ st ≠ .failed))
    (hold : ∀ a, old = some a → a.Ok ∧ a.live) (hstart : st = .starting → ∀ a, cur = some a → a.Quiet)
    (hdiff : ∀ a b, cur = some a → old = some b → a.owner ≠ b.owner) :
    (⟨cur, some ⟨old, st⟩⟩ : Elevators).Ok := by
  refine ⟨?_, fun a ha => (hold a ha).2, ?_, ?_, hdiff⟩
  · rintro a (ha | ha)
    · exact (hcur a ha).1
    · exact (hold a ha).1
  · intro a ha
    rw [Elevators.failed_mk]
    exact (hcur a ha).2
  · intro a old' ha hs
    cases hs
    exact hstart rfl a ha

theorem Elevators.Ok.current_live {e : Elevators} (h : e.Ok) (hn : e.switch = none) (ha : e.current = some a) :
    a.Ok ∧ a.live := by
  refine ⟨h.inst a (.inl ha), (h.current a ha).mpr ?_⟩
  rintro ⟨old, hs⟩
  rw [hn] at hs
  cases hs

theorem publish_inv (h : Inv w) (hav : w.Available m) (hn : (w.queues q).switch = none)
    (hd : (w.queues q).current.map (·.owner) ≠ some m) :
    Inv (w.setQueue q ⟨some (.new m), some ⟨(w.queues q).current, .starting⟩⟩) := by
  have hcur := fun a ha => (h.queues q).current_live (a := a) hn ha
  refine h.setQueue (Elevators.ok_switch ?_ hcur ?_ ?_) ?_ ?_
  · rintro a ⟨⟩
    exact ⟨Inst.new_ok m, by simp [Inst.new]⟩
  · rintro - a ⟨⟩
    exact Inst.new_quiet m
  · rintro a b ⟨⟩ hb ho
    exact hd (by rw [hb]; exact congrArg some ho.symm)
  · intro m'
    simp [Elevators.registers_iff, Elevators.Reg, Elevators.leaving, hn, Inst.new]
  · rintro a (ha | ha) hlive
    · cases ha
      exact hav
    · exact h.available q a (.inl ha) hlive

theorem publishOther_inv (h : Inv w) (hn : (w.queues q).switch = none) :
    Inv (w.setQueue q ⟨none, some ⟨(w.queues q).current, .installed⟩⟩) := by
  have hcur := fun a ha => (h.queues q).current_live (a := a) hn ha
  refine h.setQueue (Elevators.ok_switch nofun hcur nofun nofun) ?_ ?_
  · intro m'
    simp [Elevators.registers_iff, Elevators.Reg, Elevators.leaving, hn]
  · rintro a (ha | ha) hlive
    · cases ha
    · exact h.available q a (.inl ha) hlive

/-- What holds of the elevators in a switch. -/
theorem Inv.in_switch (h : Inv w) (hq : w.queues q = ⟨cur, some ⟨old, st⟩⟩) :
    (∀ a, cur = some a → a.Ok ∧ (a.live ↔ st ≠ .failed)) ∧ (∀ a, old = some a → a.Ok ∧ a.live) ∧
      (st = .starting → ∀ a, cur = some a → a.Quiet) ∧
      (∀ a b, cur = some a → old = some b → a.owner ≠ b.owner) ∧
      (∀ a, cur = some a → a.live → w.Available a.owner) ∧ ∀ a, old = some a → w.Available a.owner := by
  have hok := h.queues q
  have hav := h.available q
  rw [hq] at hok hav
  refine ⟨fun a ha => ⟨hok.inst a (.inl ha), ?_⟩, fun a ha => ⟨hok.inst a (.inr ha), hok.leaving a ha⟩, ?_, hok.differ,
    fun a ha => hav a (.inl ha), fun a ha => hav a (.inr ha) (hok.leaving a ha)⟩
  · rw [hok.current a ha, Elevators.failed_mk]
  · rintro rfl a ha
    exact hok.starting a old ha rfl

theorem startThread_inv (h : Inv w) (hq : w.queues q = ⟨some a, some ⟨old, .starting⟩⟩) (ok : Bool) :
    Inv (w.startThread q a old ok) := by
  obtain ⟨hcur, hold, hstart, hdiff, hav, havold⟩ := h.in_switch hq
  obtain ⟨haok, hlive⟩ := hcur a rfl
  have hquiet := hstart rfl a rfl
  have hreg := hquiet.registered
  have hlive : a.live := hlive.mpr (by decide)
  have hsame : ∀ (b : Inst) (st : Stage), b.registered = false → ∀ m',
      (⟨some b, some ⟨old, st⟩⟩ : Elevators).Registers m' ↔ (w.queues q).Registers m' := by
    intro b st hb m'
    simp [hq, Elevators.registers_iff, Elevators.Reg, Elevators.leaving, hb, hreg]
  unfold World.startThread
  split
  · refine h.setQueue (Elevators.ok_switch ?_ hold ?_ ?_) (hsame _ _ hreg) ?_
    · rintro b ⟨⟩
      exact ⟨⟨haok.registered, fun _ => hlive, haok.timers⟩, iff_of_true hlive (by decide)⟩
    · rintro - b ⟨⟩
      exact ⟨hreg, hquiet.timers⟩
    · rintro b c ⟨⟩ hc
      exact hdiff a c rfl hc
    · rintro b (hb | hb) hlive
      · cases hb
        exact hav a rfl hlive
      · exact havold b hb
  · refine h.setQueue (Elevators.ok_switch ?_ hold nofun ?_) (hsame _ _ hreg) ?_
    · rintro b ⟨⟩
      refine ⟨⟨fun hr => ?_, nofun, fun t ht => ?_⟩, by simp⟩
      · simp [hreg] at hr
      · simp [hquiet.timers t] at ht
    · rintro b c ⟨⟩ hc
      exact hdiff a c rfl hc
    · rintro b (hb | hb) hlive
      · cases hb
        cases hlive
      · exact havold b hb

theorem registerDisk_inv (h : Inv w) (hq : w.queues q = ⟨some a, some ⟨old, .starting⟩⟩) {ok : Bool}
    (hok : w.registerDisk q a old ok = .ok w') : Inv w' := by
  obtain ⟨hcur, hold, hstart, hdiff, hav, havold⟩ := h.in_switch hq
  obtain ⟨haok, hlive⟩ := hcur a rfl
  have hquiet := hstart rfl a rfl
  have hlive : a.live := hlive.mpr (by decide)
  have havail : ∀ b, (⟨some { a with registered := b }, some ⟨old, .installed⟩⟩ : Elevators).Ok ∧
      ∀ c, (⟨some { a with registered := b }, some ⟨old, .installed⟩⟩ : Elevators).Has c → c.live →
        w.Available c.owner := by
    intro b
    refine ⟨Elevators.ok_switch ?_ hold nofun ?_, ?_⟩
    · rintro c ⟨⟩
      exact ⟨⟨fun _ => hlive, haok.threads, haok.timers⟩, iff_of_true hlive (by decide)⟩
    · rintro c d ⟨⟩ hd
      exact hdiff a d rfl hd
    · rintro c (hc | hc) -
      · cases hc
        exact hav a rfl hlive
      · exact havold c hc
  unfold World.registerDisk at hok
  split at hok
  · split at hok
    · rename_i hready
      cases hok
      have hnot : q ∉ w.disks a.owner := by
        rw [h.disks, hq, Elevators.registers_iff]
        rintro (⟨c, hc, hreg, -⟩ | ⟨c, hc, -, howner⟩)
        · cases hc
          simp [hquiet.registered] at hreg
        · exact hdiff a c rfl hc howner.symm
      refine h.update (havail true).1 ?_ ?_ ?_ ?_ (havail true).2 fun _ => hready
      · exact List.nodup_append.mpr ⟨h.nodup _, List.nodup_singleton q, by grind⟩
      · intro q' hne
        simp [hne]
      · refine iff_of_true (by simp) ⟨_, .inl rfl, rfl, rfl⟩
      · intro m' hne
        simp [hq, Elevators.registers_iff, Elevators.Reg, Elevators.leaving, hquiet.registered, hne.symm]
    · cases hok
  · cases hok
    have hfalse := havail false
    rw [← hquiet.registered] at hfalse
    refine h.setQueue hfalse.1 ?_ hfalse.2
    intro m'
    simp [hq, Elevators.registers_iff, Elevators.Reg, Elevators.leaving]

theorem restore_inv (h : Inv w) (hq : w.queues q = ⟨cur, some ⟨old, .failed⟩⟩) :
    Inv { w.setQueue q ⟨old, none⟩ with gone := w.gone ++ cur.toList } := by
  obtain ⟨hcur, hold, -, -, -, havold⟩ := h.in_switch hq
  have hinv : Inv (w.setQueue q ⟨old, none⟩) := by
    refine h.setQueue (Elevators.ok_none hold) ?_ ?_
    · intro m'
      have hnot : ¬Elevators.Reg cur m' := by
        rintro ⟨b, hb, hreg, -⟩
        obtain ⟨hbok, hlive⟩ := hcur b hb
        exact hlive.mp (hbok.registered hreg) rfl
      simp [hq, Elevators.registers_iff, Elevators.leaving, hnot, Elevators.reg_none]
    · rintro b (hb | hb) -
      · exact havold b hb
      · cases hb
  refine hinv.setGone fun b hb => ?_
  rcases List.mem_append.mp hb with hb | hb
  · exact h.gone b hb
  · obtain ⟨hbok, hlive⟩ := hcur b (Option.mem_toList.mp hb)
    exact ⟨hbok, by simpa using hlive⟩

theorem dispatch_inv (h : Inv w) (hq : w.queues q = ⟨some a, none⟩) :
    Inv (w.setQueue q ⟨some a.armed, none⟩) := by
  have hok := h.queues q
  rw [hq] at hok
  obtain ⟨haok, hlive⟩ := hok.current_live (a := a) rfl rfl
  refine h.setQueue (Elevators.ok_none ?_) ?_ ?_
  · rintro b ⟨⟩
    exact ⟨haok.armed hlive, by simpa using hlive⟩
  · intro m'
    simp [hq, Elevators.registers_iff, Elevators.Reg, Elevators.leaving]
  · rintro b (hb | hb) -
    · cases hb
      rw [Inst.armed_owner]
      exact h.available q a (.inl (by rw [hq])) hlive
    · cases hb

theorem exitQueue_ok {a : Option Inst} (h : w.exitQueue q a = .ok w') :
    a = none ∧ w' = w ∨ ∃ b, a = some b ∧ q ∈ w.disks b.owner ∧ w' = w.setDisks b.owner ((w.disks b.owner).erase q) := by
  cases a with
  | none =>
    cases h
    exact .inl ⟨rfl, rfl⟩
  | some b =>
    simp only [World.exitQueue, World.unregisterDisk] at h
    split at h
    · rename_i hmem
      cases h
      exact .inr ⟨b, rfl, hmem, rfl⟩
    · cases h

/-- The instance of `m` leaves the queue, and its entry the list. -/
theorem Inv.leave (h : Inv w) {e : Elevators} (he : e.Ok) (hno : ¬e.Registers m)
    (hsame : ∀ m' ≠ m, (e.Registers m' ↔ (w.queues q).Registers m'))
    (hav : ∀ a, e.Has a → a.live → w.Available a.owner) (hmem : q ∈ w.disks m) :
    Inv ((w.setQueue q e).setDisks m ((w.disks m).erase q)) := by
  refine h.update he ((h.nodup m).erase q) ?_ ?_ hsame hav ?_
  · intro q' hne
    exact List.mem_erase_of_ne hne
  · exact iff_of_false (h.nodup m).not_mem_erase hno
  · intro _
    exact h.listed m (List.ne_nil_of_mem hmem)

theorem finish_inv (h : Inv w) (hq : w.queues q = ⟨cur, some ⟨old, .installed⟩⟩) {w₁ : World n}
    (hok : w.exitQueue q old = .ok w₁) :
    Inv { w₁.setQueue q ⟨cur, none⟩ with gone := w₁.gone ++ (old.map Inst.exited).toList } := by
  obtain ⟨hcur, hold, -, hdiff, hav, -⟩ := h.in_switch hq
  have hlive : ∀ a, cur = some a → a.live := fun a ha => (hcur a ha).2.mpr (by decide)
  have he : (⟨cur, none⟩ : Elevators).Ok := Elevators.ok_none fun a ha => ⟨(hcur a ha).1, hlive a ha⟩
  have havail : ∀ a, (⟨cur, none⟩ : Elevators).Has a → a.live → w.Available a.owner := by
    rintro a (ha | ha) hl
    · exact hav a ha hl
    · cases ha
  have hregs : ∀ m', (⟨cur, none⟩ : Elevators).Registers m' ↔ Elevators.Reg cur m' := by
    simp [Elevators.registers_iff, Elevators.leaving, Elevators.reg_none]
  rcases exitQueue_ok hok with ⟨rfl, rfl⟩ | ⟨b, rfl, hmem, rfl⟩
  · have hinv : Inv (w₁.setQueue q ⟨cur, none⟩) := by
      refine h.setQueue he ?_ havail
      intro m'
      simp [hq, hregs, Elevators.registers_iff, Elevators.leaving, Elevators.reg_none]
    exact hinv.setGone (by simpa [World.setQueue] using h.gone)
  · have hinv := h.leave (q := q) (m := b.owner) he ?_ ?_ havail hmem
    · refine hinv.setGone fun c hc => ?_
      rcases List.mem_append.mp hc with hc | hc
      · exact h.gone c hc
      · cases List.mem_singleton.mp hc
        exact ⟨(hold b rfl).1.exited, rfl⟩
    · rw [hregs]
      rintro ⟨c, hc, -, howner⟩
      exact hdiff c b hc rfl howner
    · intro m' hne
      simp [hq, hregs, Elevators.registers_iff, Elevators.leaving, Elevators.reg_some, hne.symm]

theorem abandon_inv (h : Inv w) (hq : w.queues q = ⟨cur, some ⟨old, .installed⟩⟩) {w₁ : World n}
    (hok : w.exitQueue q cur = .ok w₁) : Inv (w₁.setQueue q ⟨cur.map Inst.exited, some ⟨old, .failed⟩⟩) := by
  obtain ⟨hcur, hold, -, hdiff, -, havold⟩ := h.in_switch hq
  have he : (⟨cur.map Inst.exited, some ⟨old, .failed⟩⟩ : Elevators).Ok := by
    refine Elevators.ok_switch ?_ hold nofun ?_
    · intro a ha
      obtain ⟨b, hb, rfl⟩ := Option.map_eq_some_iff.mp ha
      exact ⟨(hcur b hb).1.exited, by simp [Inst.exited]⟩
    · intro a c ha hc
      obtain ⟨b, hb, rfl⟩ := Option.map_eq_some_iff.mp ha
      exact hdiff b c hb hc
  have hregs : ∀ m', (⟨cur.map Inst.exited, some ⟨old, .failed⟩⟩ : Elevators).Registers m' ↔ Elevators.Reg old m' := by
    intro m'
    have hnot : ¬Elevators.Reg (cur.map Inst.exited) m' := by
      rintro ⟨a, ha, hreg, -⟩
      obtain ⟨b, -, rfl⟩ := Option.map_eq_some_iff.mp ha
      cases hreg
    simp [Elevators.registers_iff, Elevators.leaving, hnot]
  have havail : ∀ a, (⟨cur.map Inst.exited, some ⟨old, .failed⟩⟩ : Elevators).Has a → a.live → w.Available a.owner := by
    rintro a (ha | ha) hl
    · obtain ⟨b, -, rfl⟩ := Option.map_eq_some_iff.mp ha
      cases hl
    · exact havold a ha
  rcases exitQueue_ok hok with ⟨rfl, rfl⟩ | ⟨b, rfl, hmem, rfl⟩
  · refine h.setQueue he ?_ havail
    intro m'
    rw [hregs, hq, Elevators.registers_iff]
    simp [Elevators.leaving, Elevators.reg_none]
  · refine h.leave he ?_ ?_ havail hmem
    · rw [hregs]
      rintro ⟨c, hc, -, howner⟩
      exact hdiff b c rfl hc howner.symm
    · intro m' hne
      rw [hregs, hq, Elevators.registers_iff]
      simp [Elevators.leaving, Elevators.reg_some, hne.symm]

/-- Nothing changes for the queue but what timers and messages do to its current elevator. -/
theorem Inv.setCurrent (h : Inv w) (hq : (w.queues q).current = some a) (hb : b.Ok) (howner : b.owner = a.owner)
    (hlive : b.live = a.live) (hreg : b.registered = a.registered) (htimers : ∀ t, b.timers t → a.timers t) :
    Inv (w.setQueue q { w.queues q with current := some b }) := by
  have hok := h.queues q
  refine h.setQueue ⟨?_, hok.leaving, ?_, ?_, ?_⟩ ?_ ?_
  · rintro c (hc | hc)
    · cases hc
      exact hb
    · exact hok.inst c (.inr hc)
  · rintro c ⟨⟩
    rw [hlive]
    exact hok.current a hq
  · rintro c old ⟨⟩ hs
    have hquiet := hok.starting a old hq hs
    refine ⟨hreg.trans hquiet.registered, fun t => ?_⟩
    have ht := htimers t
    rw [hquiet.timers t] at ht
    simpa using ht
  · rintro c d ⟨⟩ hd
    rw [howner]
    exact hok.differ a d hq hd
  · intro m'
    simp [Elevators.registers_iff, Elevators.reg_some, Elevators.leaving, hq, howner, hreg]
  · rintro c (hc | hc) hl
    · cases hc
      rw [howner]
      exact h.available q a (.inl hq) (hlive ▸ hl)
    · exact h.available q c (.inr hc) hl

theorem Inv.setLeaving (h : Inv w) (hq : (w.queues q).leaving = some a) (hb : b.Ok) (howner : b.owner = a.owner)
    (hlive : b.live = a.live) (hreg : b.registered = a.registered) :
    Inv (w.put b (.leaving q)) := by
  obtain ⟨s, hs, hold⟩ := Option.bind_eq_some_iff.mp hq
  obtain ⟨cur, hcur⟩ : ∃ cur, cur = (w.queues q).current := ⟨_, rfl⟩
  have hw : w.put b (.leaving q) = w.setQueue q ⟨cur, some ⟨some b, s.stage⟩⟩ := by
    simp [World.put, hs, hcur]
  have he : w.queues q = ⟨cur, some ⟨some a, s.stage⟩⟩ := by
    rw [← hold, hcur, ← hs]
  obtain ⟨hc, ho, hstart, hdiff, havc, havo⟩ := h.in_switch he
  rw [hw]
  refine h.setQueue (Elevators.ok_switch hc ?_ hstart ?_) ?_ ?_
  · rintro c ⟨⟩
    exact ⟨hb, hlive ▸ (ho a rfl).2⟩
  · rintro c d hc' ⟨⟩
    rw [howner]
    exact hdiff c a hc' rfl
  · intro m'
    simp [he, Elevators.registers_iff, Elevators.reg_some, Elevators.leaving, howner, hreg]
  · rintro c (hc' | hc') hl
    · exact havc c hc' hl
    · cases hc'
      rw [howner]
      exact havo a rfl

theorem fires_inv (h : Inv w) {p : Place n} (ha : w.look p = some a) (t : Timer) :
    Inv (w.put { a with timers := Function.update a.timers t false } p) := by
  have hsub : ∀ t', Function.update a.timers t false t' → a.timers t' := by
    intro t' ht'
    by_cases he : t' = t
    · subst he
      simp at ht'
    · simpa [he] using ht'
  cases p with
  | current q => exact h.setCurrent ha (((h.queues q).inst a (.inl ha)).cleared t) rfl rfl rfl hsub
  | leaving q => exact h.setLeaving ha (((h.queues q).inst a (.inr ha)).cleared t) rfl rfl rfl
  | gone k =>
    have hmem := List.mem_of_getElem? ha
    refine h.setGone fun b hb => ?_
    rcases List.mem_or_eq_of_mem_set hb with hb | rfl
    · exact h.gone b hb
    · exact ⟨(h.gone a hmem).1.cleared t, (h.gone a hmem).2⟩

end Queues

end Lifecycle
end SplitSched
