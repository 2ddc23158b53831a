import SplitSched.Deadline.Queues

/-!
# SplitSched.Deadline.Expiry

The fifo of a direction is sorted by expiry time, so `deadline_check_fifo` may look at its head only.

The scheduler keeps expiry times modulo `2 ^ 64`. `Timed` adds the times themselves, which do not wrap:
`due r` is the time at which `r` expires.

* `timeAfter_iff`: within half the range, `time_after` compares the times.
* `Timely`: the invariant. A fifo that loses requests stays sorted (`Timely.shrink`); a request that is
  merged takes the place of the other together with its expiry time (`listAdd_erase`).
* `fifo_sorted_by_expiry`: what holds along every run.
-/

namespace SplitSched
namespace Deadline

variable {P : Platform} {r next : Nat}

/-! ## Times -/

theorem timeAfter_iff (hP : P.IsLp64) {x y a b : Int} (hx : x % 2 ^ 64 = a % 2 ^ 64)
    (hy : y % 2 ^ 64 = b % 2 ^ 64) (h : |a - b| < 2 ^ 63) : timeAfter P x y = true ↔ b < a := by
  have hsplit := Int.bmod_add_bdiv (y - x) (2 ^ 64)
  have hlt := hP.long_lt (y - x)
  have hle := hP.le_long (y - x)
  rw [← hP.long] at hsplit
  rw [timeAfter, decide_eq_true_iff]
  rw [abs_lt] at h
  omega

theorem ulong_mod (hP : P.IsLp64) (x : Int) : P.ulong x % 2 ^ 64 = x % 2 ^ 64 := by
  rw [hP.ulong_emod, Int.emod_emod_of_dvd x (dvd_refl _)]

/-! ## The place of a merged request -/

/-- Once `next` is gone, `r` is in its place. -/
theorem listAdd_erase {rqs : List Nat} (hnd : rqs.Nodup) (h : next ∈ rqs) :
    (listAdd r next rqs).erase next = rqs.map fun x => if x = next then r else x := by
  induction rqs with
  | nil => cases h
  | cons y ys ih =>
    obtain ⟨hy, hnd⟩ := List.nodup_cons.mp hnd
    by_cases hyn : y = next
    · subst hyn
      have hsame : (ys.map fun x => if x = y then r else x) = ys := by
        refine (List.map_congr_left fun x hx => if_neg ?_).trans (List.map_id ys)
        rintro rfl
        exact hy hx
      rw [listAdd_cons_self hy, List.erase_cons_head, List.map_cons, if_pos rfl, hsame]
    · have htail : next ∈ ys := (List.mem_cons.mp h).resolve_left (Ne.symm hyn)
      rw [listAdd_cons_of_ne hyn, List.erase_cons_tail (by simpa using hyn), ih hnd htail,
        List.map_cons, if_neg hyn]

theorem deadlineMergedRequests_moved {s : State} (hd : s.dir next = s.dir r)
    (hr : r ∈ s.fifoList (s.dir r)) (hnext : next ∈ s.fifoList (s.dir r))
    (hnd : (s.fifoList (s.dir r)).Nodup) (hne : next ≠ r)
    (hafter : timeAfter P (s.expires r) (s.expires next) = true) :
    (deadlineMergedRequests P s r next).fifoList = Function.update s.fifoList (s.dir r)
      (((s.fifoList (s.dir r)).erase r).map fun x => if x = next then r else x) ∧
    (deadlineMergedRequests P s r next).expires = Function.update s.expires r (s.expires next) ∧
    (deadlineMergedRequests P s r next).fifoExpire = s.fifoExpire ∧
    (deadlineMergedRequests P s r next).mem = s.mem := by
  have hmove : (listMove s r next).fifoList = _ := listMove_fifoList hd
  have hlist := listAdd_erase (r := r) (hnd.erase r) ((List.mem_erase_of_ne hne).mpr hnext)
  unfold deadlineMergedRequests
  rw [if_pos ⟨hr, by rwa [hd]⟩, if_pos hafter, deadlineRemoveRequest_eq]
  refine ⟨?_, rfl, rfl, rfl⟩
  show Function.update (listMove s r next).fifoList (s.dir next)
    (((listMove s r next).fifoList (s.dir next)).erase next) = _
  rw [hd, hmove, Function.update_self, Function.update_idem, hlist]

theorem deadlineMergedRequests_kept {s : State}
    (hafter : timeAfter P (s.expires r) (s.expires next) ≠ true) :
    deadlineMergedRequests P s r next = deadlineRemoveRequest s next := by
  unfold deadlineMergedRequests
  rw [if_neg hafter, ite_self]

/-! ## Runs -/

/-- The ledger, and the time at which each request expires. The clock does not wrap here; the scheduler
only looks at it modulo `2 ^ 64`. -/
structure Timed where
  led : Ledger
  due : Nat → Int

namespace Timed

def now (w : Timed) : Int := w.led.dd.mem.jiffies

def fifo (w : Timed) (d : DataDir) : List Nat := w.led.dd.fifoList d

/-- A merged request takes over the expiry time with the place. -/
def dueAfter (P : Platform) (w : Timed) : Ledger.Event → Nat → Int
  | .add r => Function.update w.due r (w.now + w.led.dd.fifoExpire (w.led.dd.dir r))
  | .mergedRequests r next =>
    if timeAfter P (w.led.dd.expires r) (w.led.dd.expires next) then
      Function.update w.due r (w.due next)
    else w.due
  | _ => w.due

/-- The clock does not go back. -/
def forward (w : Timed) : Ledger.Event → Bool
  | .tick jiffies => decide (w.now ≤ jiffies)
  | _ => true

def step (P : Platform) (w : Timed) (e : Ledger.Event) : Option Timed :=
  if w.forward e then (Ledger.step P w.led e).map fun led => ⟨led, w.dueAfter P e⟩ else none

def init (s : State) : Timed := ⟨.init s, fun _ => 0⟩

def live (w : Timed) : List Nat := w.fifo .read ++ w.fifo .write

/-- The expiry times of all queued requests are within half the range of the clock, of each other and of the
present. -/
def HalfRange (w : Timed) : Prop :=
  ∀ r ∈ w.live, |w.now - w.due r| < 2 ^ 63 ∧ ∀ r' ∈ w.live, |w.due r - w.due r'| < 2 ^ 63

instance (w : Timed) : Decidable w.HalfRange := inferInstanceAs (Decidable (∀ r ∈ w.live, _))

/-- No request of a direction is due later than one that is added now. -/
structure Timely (P : Platform) (w : Timed) : Prop where
  accounted : w.led.Accounted
  expires : ∀ d, ∀ r ∈ w.fifo d, w.led.dd.expires r = P.ulong (w.due r)
  sorted : ∀ d, (w.fifo d).Pairwise fun r r' => w.due r ≤ w.due r'
  latest : ∀ d, ∀ r ∈ w.fifo d, w.due r ≤ w.now + w.led.dd.fifoExpire d

variable {w w' : Timed}

theorem mem_live {d : DataDir} (h : r ∈ w.fifo d) : r ∈ w.live := by
  cases d with
  | read => exact List.mem_append_left _ h
  | write => exact List.mem_append_right _ h

/-- Requests leave, or hand their place and their expiry time to others, and time goes on. -/
theorem Timely.relabel (h : Timely P w) (hacc : w'.led.Accounted)
    (hfifo : ∀ d, ∃ (rqs : List Nat) (f : Nat → Nat), rqs.Sublist (w.fifo d) ∧ w'.fifo d = rqs.map f ∧
      ∀ x ∈ rqs, w'.due (f x) = w.due x ∧ w'.led.dd.expires (f x) = w.led.dd.expires x)
    (hset : w'.led.dd.fifoExpire = w.led.dd.fifoExpire) (hnow : w.now ≤ w'.now) : Timely P w' := by
  refine ⟨hacc, fun d r hr => ?_, fun d => ?_, fun d r hr => ?_⟩
  · obtain ⟨rqs, f, hsub, heq, hf⟩ := hfifo d
    rw [heq] at hr
    obtain ⟨x, hx, rfl⟩ := List.mem_map.mp hr
    rw [(hf x hx).1, (hf x hx).2]
    exact h.expires d x (hsub.subset hx)
  · obtain ⟨rqs, f, hsub, heq, hf⟩ := hfifo d
    rw [heq, List.pairwise_map]
    refine ((h.sorted d).sublist hsub).imp_of_mem fun {a b} ha hb hle => ?_
    rw [(hf a ha).1, (hf b hb).1]
    exact hle
  · obtain ⟨rqs, f, hsub, heq, hf⟩ := hfifo d
    rw [heq] at hr
    obtain ⟨x, hx, rfl⟩ := List.mem_map.mp hr
    have hlatest := h.latest d x (hsub.subset hx)
    rw [(hf x hx).1, hset]
    omega

theorem Timely.shrink (h : Timely P w) (hacc : w'.led.Accounted)
    (hfifo : ∀ d, (w'.fifo d).Sublist (w.fifo d)) (hdue : w'.due = w.due)
    (hexp : w'.led.dd.expires = w.led.dd.expires) (hset : w'.led.dd.fifoExpire = w.led.dd.fifoExpire)
    (hnow : w.now ≤ w'.now) : Timely P w' := by
  refine h.relabel hacc (fun d => ⟨w'.fifo d, id, hfifo d, (List.map_id _).symm, fun x _ => ?_⟩) hset hnow
  exact ⟨congrFun hdue x, congrFun hexp x⟩

theorem not_queued (h : w.led.Accounted) (hr : r ∉ w.led.added) (d : DataDir) : r ∉ w.fifo d := by
  intro hmem
  apply hr
  rw [← Multiset.mem_coe, h.places]
  have hq : r ∈ Ledger.queued w.led.dd := by
    rw [Ledger.QueueOk.mem_queued h.queues, h.queues.dir d r hmem]
    exact hmem
  simp [hq]

/-- A request is queued with the latest expiry time of its direction. -/
theorem Timely.append (h : Timely P w) (hacc : w'.led.Accounted) (hnot : ∀ d, r ∉ w.fifo d) {d : DataDir}
    (hfifo : w'.led.dd.fifoList = Function.update w.led.dd.fifoList d (w.fifo d ++ [r]))
    (hdue : w'.due = Function.update w.due r (w.now + w.led.dd.fifoExpire d))
    (hexp : w'.led.dd.expires = Function.update w.led.dd.expires r
      (P.ulong (w.now + w.led.dd.fifoExpire d)))
    (hset : w'.led.dd.fifoExpire = w.led.dd.fifoExpire) (hnow : w'.now = w.now) : Timely P w' := by
  have hsame : ∀ d', ∀ x ∈ w.fifo d', w'.due x = w.due x ∧
      w'.led.dd.expires x = w.led.dd.expires x := by
    intro d' x hx
    have hne : x ≠ r := fun e => hnot d' (e ▸ hx)
    rw [hdue, hexp, Function.update_of_ne hne, Function.update_of_ne hne]
    exact ⟨rfl, rfl⟩
  have hnew : w'.due r = w.now + w.led.dd.fifoExpire d := by rw [hdue, Function.update_self]
  have hmem : ∀ d', ∀ x ∈ w'.fifo d', x ∈ w.fifo d' ∨ x = r ∧ d' = d := by
    intro d' x hx
    rw [fifo, hfifo] at hx
    by_cases hd : d' = d
    · subst hd
      rw [Function.update_self] at hx
      rcases List.mem_append.mp hx with hold | hlast
      · exact .inl hold
      · exact .inr ⟨List.mem_singleton.mp hlast, rfl⟩
    · rw [Function.update_of_ne hd] at hx
      exact .inl hx
  have hsorted : ∀ d', (w.fifo d').Pairwise fun x y => w'.due x ≤ w'.due y := fun d' =>
    (h.sorted d').imp_of_mem fun hx hy hle => by rwa [(hsame d' _ hx).1, (hsame d' _ hy).1]
  refine ⟨hacc, fun d' x hx => ?_, fun d' => ?_, fun d' x hx => ?_⟩
  · rcases hmem d' x hx with hold | ⟨rfl, rfl⟩
    · rw [(hsame d' x hold).1, (hsame d' x hold).2]
      exact h.expires d' x hold
    · rw [hnew, hexp, Function.update_self]
  · rw [fifo, hfifo]
    by_cases hd : d' = d
    · subst hd
      rw [Function.update_self]
      refine List.pairwise_append.mpr ⟨hsorted d', List.pairwise_singleton _ _, fun x hx y hy => ?_⟩
      rw [List.mem_singleton.mp hy, hnew, (hsame d' x hx).1]
      exact h.latest d' x hx
    · rw [Function.update_of_ne hd]
      exact hsorted d'
  · rw [hset, hnow]
    rcases hmem d' x hx with hold | ⟨rfl, rfl⟩
    · rw [(hsame d' x hold).1]
      exact h.latest d' x hold
    · exact hnew.le

/-- The merged request has the place and the expiry time of the one that goes. -/
theorem Timely.merge (h : Timely P w) (hacc : w'.led.Accounted) (hr : r ∈ w.fifo (w.led.dd.dir r))
    (hfifo : w'.led.dd.fifoList = Function.update w.led.dd.fifoList (w.led.dd.dir r)
      (((w.fifo (w.led.dd.dir r)).erase r).map fun x => if x = next then r else x))
    (hdue : w'.due = Function.update w.due r (w.due next))
    (hexp : w'.led.dd.expires = Function.update w.led.dd.expires r (w.led.dd.expires next))
    (hset : w'.led.dd.fifoExpire = w.led.dd.fifoExpire) (hnow : w'.now = w.now) : Timely P w' := by
  have hother : ∀ x ≠ r, w'.due x = w.due x ∧ w'.led.dd.expires x = w.led.dd.expires x := by
    intro x hx
    rw [hdue, hexp, Function.update_of_ne hx, Function.update_of_ne hx]
    exact ⟨rfl, rfl⟩
  refine h.relabel hacc (fun d => ?_) hset hnow.ge
  by_cases hd : d = w.led.dd.dir r
  · subst hd
    refine ⟨_, _, List.erase_sublist, (congrFun hfifo _).trans (Function.update_self ..), fun x hx => ?_⟩
    by_cases hxn : x = next
    · rw [if_pos hxn, hdue, hexp, Function.update_self, Function.update_self, hxn]
      exact ⟨rfl, rfl⟩
    · rw [if_neg hxn]
      refine hother x ?_
      rintro rfl
      exact (h.accounted.queues.nodup _).not_mem_erase hx
  · refine ⟨w.fifo d, id, List.Sublist.refl _, ?_, fun x hx => hother x ?_⟩
    · rw [List.map_id]
      exact (congrFun hfifo d).trans (Function.update_of_ne hd ..)
    · rintro rfl
      exact hd (h.accounted.queues.dir d x hx).symm

/-! ### One step -/

theorem HalfRange.timeAfter_iff (hP : P.IsLp64) (h : Timely P w) (hw : w.HalfRange) {d : DataDir}
    (hr : r ∈ w.fifo d) (hnext : next ∈ w.fifo d) :
    timeAfter P (w.led.dd.expires r) (w.led.dd.expires next) = true ↔ w.due next < w.due r := by
  rw [h.expires d r hr, h.expires d next hnext]
  exact Deadline.timeAfter_iff hP (ulong_mod hP _) (ulong_mod hP _)
    ((hw r (mem_live hr)).2 next (mem_live hnext))

theorem HalfRange.expired_iff (hP : P.IsLp64) (h : Timely P w) (hw : w.HalfRange) {d : DataDir}
    (hr : r ∈ w.fifo d) : timeAfter P w.now (w.led.dd.expires r) = true ↔ w.due r < w.now := by
  rw [h.expires d r hr]
  exact Deadline.timeAfter_iff hP rfl (ulong_mod hP _) (hw r (mem_live hr)).1

theorem step_some {e : Ledger.Event} (h : step P w e = some w') :
    w.forward e = true ∧ Ledger.step P w.led e = some w'.led ∧ w'.due = w.dueAfter P e := by
  simp only [step, Option.ite_none_right_eq_some] at h
  obtain ⟨hforward, h⟩ := h
  obtain ⟨led, hled, rfl⟩ := Option.map_eq_some_iff.mp h
  exact ⟨hforward, hled, rfl⟩

theorem sublist_of_erase {f f' : DataDir → List Nat} {d : DataDir} {x : Nat}
    (h : f' = Function.update f d ((f d).erase x)) (d' : DataDir) : (f' d').Sublist (f d') := by
  rw [h]
  by_cases hd : d' = d
  · subst hd
    rw [Function.update_self]
    exact List.erase_sublist
  · rw [Function.update_of_ne hd]

theorem mergedRequests_timely (h : Timely P w) (hr : r ∈ w.fifo (w.led.dd.dir r))
    (hnext : next ∈ w.fifo (w.led.dd.dir r)) (hne : next ≠ r) (hacc : w'.led.Accounted) {rq : Request}
    (hdd : w'.led.dd = deadlineMergedRequests P (Ledger.setRq w.led.dd r rq) r next)
    (hwrite : rq.write = (w.led.dd.rq r).write)
    (hdue : w'.due = w.dueAfter P (.mergedRequests r next)) : Timely P w' := by
  have hdir := Ledger.setRq_dir (s := w.led.dd) (r := r) hwrite
  have hd : w.led.dd.dir next = w.led.dd.dir r := h.accounted.queues.dir _ next hnext
  by_cases hafter : timeAfter P (w.led.dd.expires r) (w.led.dd.expires next) = true
  · have hd' : (Ledger.setRq w.led.dd r rq).dir next = (Ledger.setRq w.led.dd r rq).dir r := by
      rw [hdir, hdir, hd]
    obtain ⟨hfifo, hexp, hset, hmem⟩ := deadlineMergedRequests_moved hd' (by rw [hdir]; exact hr)
      (by rw [hdir]; exact hnext) (h.accounted.queues.nodup _) hne hafter
    rw [← hdd] at hfifo hexp hset hmem
    rw [hdir] at hfifo
    have hnow : w'.now = w.now := by rw [now, hmem]; rfl
    exact h.merge hacc hr hfifo (hdue.trans (if_pos hafter)) hexp hset hnow
  · rw [deadlineMergedRequests_kept (s := Ledger.setRq w.led.dd r rq) hafter,
      deadlineRemoveRequest_eq] at hdd
    have hfifo : w'.led.dd.fifoList = Function.update w.led.dd.fifoList
        ((Ledger.setRq w.led.dd r rq).dir next)
        ((w.led.dd.fifoList ((Ledger.setRq w.led.dd r rq).dir next)).erase next) := by
      rw [hdd]
      rfl
    refine h.shrink hacc (sublist_of_erase hfifo) (hdue.trans (if_neg hafter)) ?_ ?_ ?_
    · rw [hdd]
      rfl
    · rw [hdd]
      rfl
    · rw [now, now, hdd]
      exact le_refl _

theorem dispatch_timely (h : Timely P w) {o : Bool × State}
    (ho : deadlineDispatchRequests P w.led.dd = some o) (hacc : w'.led.Accounted)
    (hdd : w'.led.dd = o.2) (hdue : w'.due = w.due) : Timely P w' := by
  rcases deadlineDispatchRequests_choice P h.accounted.queues with ⟨-, -, hnone⟩ | ⟨t, r, hc, heq⟩
  · cases hnone.symm.trans ho
    exact h.shrink hacc (fun d => by rw [fifo, hdd, fifo]) hdue (by rw [hdd]) (by rw [hdd])
      (by rw [now, now, hdd])
  · cases heq.symm.trans ho
    have hpace : (w'.led.dd.expires, w'.led.dd.fifoExpire, w'.led.dd.mem.jiffies) =
        (w.led.dd.expires, w.led.dd.fifoExpire, w.led.dd.mem.jiffies) := by
      rw [hdd]
      refine (congrArg Prod.fst (deadlineMoveRequest_pace P _ r)).trans ?_
      cases hc <;> rfl
    simp only [Prod.mk.injEq] at hpace
    obtain ⟨hexp, hset, hnow⟩ := hpace
    have ht : QueueOk { t with batching := t.batching + 1 } :=
      h.accounted.queues.of_queues hc.queues
    obtain ⟨hfifo, -⟩ := State.queues_eq_iff.mp hc.queues
    refine h.shrink hacc (fun d => ?_) hdue hexp hset (by rw [now, now, hnow])
    have hsub := sublist_of_erase (deadlineMoveRequest_ok P ht r).2.1 d
    rw [fifo, hdd, fifo, ← hfifo]
    exact hsub

theorem step_timely {e : Ledger.Event} (hs : step P w e = some w') (h : Timely P w) : Timely P w' := by
  obtain ⟨hforward, hled, hdue⟩ := step_some hs
  have hacc := Ledger.step_accounted h.accounted hled
  obtain ⟨led', due'⟩ := w'
  cases e with
  | add r =>
    simp only [Ledger.step, Option.ite_none_right_eq_some, Option.some.injEq] at hled
    obtain ⟨hr, rfl⟩ := hled
    exact h.append hacc (not_queued h.accounted hr) rfl hdue rfl rfl rfl
  | merged r type bio =>
    simp only [Ledger.step, Option.ite_none_right_eq_some, Option.some.injEq] at hled
    obtain ⟨-, rfl⟩ := hled
    cases type with
    | front => exact h.shrink hacc (fun d => List.Sublist.refl _) hdue rfl rfl (le_refl _)
    | back => exact h.shrink hacc (fun d => List.Sublist.refl _) hdue rfl rfl (le_refl _)
  | mergedRequests r next =>
    simp only [Ledger.step, Option.ite_none_right_eq_some, Option.some.injEq] at hled
    obtain ⟨⟨hr, hnext, hne⟩, rfl⟩ := hled
    exact mergedRequests_timely h hr hnext hne hacc rfl rfl hdue
  | dispatch =>
    obtain ⟨o, ho, rfl⟩ := Option.map_eq_some_iff.mp hled
    exact dispatch_timely h ho hacc rfl hdue
  | tick jiffies =>
    cases hled
    exact h.shrink hacc (fun d => List.Sublist.refl _) hdue rfl rfl (of_decide_eq_true hforward)

theorem init_timely {s : State} (h : Ledger.Idle s) : Timely P (init s) := by
  refine ⟨Ledger.init_accounted h, fun d r hr => ?_, fun d => ?_, fun d r hr => ?_⟩
  · simp [fifo, init, Ledger.init, h.fifoList] at hr
  · simp [fifo, init, Ledger.init, h.fifoList]
  · simp [fifo, init, Ledger.init, h.fifoList] at hr

/-- In every state of a run in which the expiry times are within half the range of the clock, the fifos are
sorted by expiry time, as `time_after` compares them and in fact, and `deadline_check_fifo` finds out from the
head whether any request of the direction has expired. -/
theorem fifo_sorted_by_expiry (hP : P.IsLp64) {s : State} {es : List Ledger.Event}
    (h0 : Ledger.Idle s) (hr : run (step P) (init s) es = some w) (hw : w.HalfRange) (d : DataDir) :
    (w.fifo d).Pairwise (fun r r' => w.due r ≤ w.due r' ∧
      timeAfter P (w.led.dd.expires r) (w.led.dd.expires r') = false) ∧
    (∀ r ∈ w.fifo d, timeAfter P w.now (w.led.dd.expires r) = true ↔ w.due r < w.now) ∧
    ∀ head rest, w.fifo d = head :: rest →
      (deadlineCheckFifo P w.led.dd head = true ↔
        ∃ r ∈ w.fifo d, timeAfter P w.now (w.led.dd.expires r) = true) := by
  have h : Timely P w := run_invariant (fun _ _ _ hs => step_timely hs) hr (init_timely h0)
  refine ⟨?_, fun r hr => hw.expired_iff hP h hr, fun head rest hfifo => ⟨fun hhead => ?_, ?_⟩⟩
  · refine (h.sorted d).imp_of_mem fun {r r'} hr hr' hle => ⟨hle, ?_⟩
    rw [Bool.eq_false_iff, Ne, hw.timeAfter_iff hP h hr hr']
    exact not_lt.mpr hle
  · exact ⟨head, hfifo ▸ List.mem_cons_self, hhead⟩
  · rintro ⟨r, hr, hexpired⟩
    have hhead : head ∈ w.fifo d := hfifo ▸ List.mem_cons_self
    -- the head expires first
    have hfirst : w.due head ≤ w.due r := by
      have hsorted := h.sorted d
      rw [hfifo] at hr hsorted
      rcases List.mem_cons.mp hr with rfl | hrest
      · exact le_refl _
      · exact (List.pairwise_cons.mp hsorted).1 r hrest
    exact (hw.expired_iff hP h hhead).mpr (hfirst.trans_lt ((hw.expired_iff hP h hr).mp hexpired))

/-- Two reads wait when the third takes over the place of the first; the clock runs past its expiry time. -/
def overdueReads : List Ledger.Event :=
  [.add 3, .tick 10, .add 2, .add 1, .mergedRequests 1 3, .tick 100000]

theorem fifo_sorted_by_expiry_overdue :
    ∃ w, run (step .lp64) (init (deadlineInitQueue .lp64 sampleMem sampleEnv 7)) overdueReads = some w ∧
      w.fifo .read = [1, 2] ∧ w.HalfRange ∧ deadlineCheckFifo .lp64 w.led.dd 1 = true ∧
      ((w.fifo .read).Pairwise (fun r r' => w.due r ≤ w.due r' ∧
        timeAfter .lp64 (w.led.dd.expires r) (w.led.dd.expires r') = false) ∧
      (∀ r ∈ w.fifo .read, timeAfter .lp64 w.now (w.led.dd.expires r) = true ↔ w.due r < w.now) ∧
      ∀ head rest, w.fifo .read = head :: rest →
        (deadlineCheckFifo .lp64 w.led.dd head = true ↔
          ∃ r ∈ w.fifo .read, timeAfter .lp64 w.now (w.led.dd.expires r) = true)) := by
  have h : (run (step .lp64) (init (deadlineInitQueue .lp64 sampleMem sampleEnv 7)) overdueReads).any
      (fun w => decide (w.fifo .read = [1, 2] ∧ w.HalfRange ∧
        deadlineCheckFifo .lp64 w.led.dd 1 = true)) = true := by
    decide +kernel
  obtain ⟨w, hw, hok⟩ := (Option.any_eq_true _ _).mp h
  obtain ⟨hfifo, hhalf, hcheck⟩ := of_decide_eq_true hok
  exact ⟨w, hw, hfifo, hhalf, hcheck, fifo_sorted_by_expiry Platform.isLp64_lp64
    (Ledger.deadlineInitQueue_idle .lp64 sampleMem sampleEnv 7) hw hhalf .read⟩

end Timed

end Deadline
end SplitSched
