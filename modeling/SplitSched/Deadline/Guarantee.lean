import SplitSched.Deadline.Expiry
import SplitSched.Deadline.WriteStarvation

/-!
# SplitSched.Deadline.Guarantee

How long a request waits after it has expired. A batch starts at the head of its fifo as soon as the head has
expired, so every batch of the request's own direction brings the request one place forward; and the other
direction cannot have all the batches.

* `State.wait s d p`: how many calls of `deadline_dispatch_requests` may pass before the request at place `p` of
  the fifo `d` is dispatched. A call costs at least one (`deadlineDispatchRequests_wait`); nothing else
  raises it, as no other event moves a request back (`step_place`).
* `expired_dispatched_in_time`: the bound along any stretch of a run.
* `drained_queue_exits`: as many calls as there are requests empty the queues.
-/

namespace SplitSched
namespace Deadline

variable {P : Platform} {s t : State} {d : DataDir} {r x : Nat}

/-! ## Which batch is next -/

/-- The direction of the next batch, with `starved` as it is counted. -/
inductive Selects (s : State) : DataDir → State → Prop where
  | reads (hread : s.fifoList .read ≠ []) (hwrite : s.fifoList .write = []) : Selects s .read s
  | starve (hread : s.fifoList .read ≠ []) (hwrite : s.fifoList .write ≠ [])
      (hstarved : s.starved < uint s.writesStarved) : Selects s .read { s with starved := s.starved + 1 }
  | writes (hwrite : s.fifoList .write ≠ [])
      (hturn : s.fifoList .read = [] ∨ uint s.writesStarved ≤ s.starved) :
      Selects s .write { s with starved := 0 }

theorem dispatchSelect_selects (P : Platform) (h : QueueOk s) :
    (s.fifoList .read = [] ∧ s.fifoList .write = [] ∧ dispatchSelect P s = some (false, s)) ∨
    ∃ d t, Selects s d t ∧ dispatchSelect P s = dispatchFindRequest P t d := by
  unfold dispatchSelect
  by_cases hread : s.fifoList .read = []
  · rw [if_neg (not_not_intro hread)]
    by_cases hwrite : s.fifoList .write = []
    · rw [if_neg (not_not_intro hwrite)]
      exact .inl ⟨hread, hwrite, rfl⟩
    · rw [if_pos hwrite, dispatchWrites, if_neg (h.sortList_ne_nil hwrite)]
      exact .inr ⟨_, _, .writes hwrite (.inl hread), rfl⟩
  · rw [if_pos hread, if_neg (h.sortList_ne_nil hread)]
    right
    by_cases hwrite : s.fifoList .write = []
    · rw [if_neg (not_not_intro hwrite)]
      exact ⟨_, _, .reads hread hwrite, rfl⟩
    · rw [if_pos hwrite]
      by_cases hturn : uint s.writesStarved ≤ s.starved
      · simp only [if_pos hturn, dispatchWrites, if_neg (h.sortList_ne_nil hwrite)]
        exact ⟨_, _, .writes hwrite (.inr hturn), rfl⟩
      · simp only [if_neg hturn]
        exact ⟨_, _, .starve hread hwrite (not_le.mp hturn), rfl⟩

theorem Selects.queues (h : Selects s d t) : t.queues = s.queues := by
  cases h <;> rfl

theorem Selects.fifoList_ne_nil (h : Selects s d t) : t.fifoList d ≠ [] := by
  cases h with
  | reads hread _ => exact hread
  | starve hread _ _ => exact hread
  | writes hwrite _ => exact hwrite

/-- A batch starts at the head that has expired. -/
theorem dispatchFindRequest_expired {head : Nat} {rest : List Nat} (hf : s.fifoList d = head :: rest)
    (hexp : deadlineCheckFifo P s head = true) :
    dispatchFindRequest P s d = some (dispatchRequest P { s with batching := 0 } head) := by
  unfold dispatchFindRequest
  rw [hf]
  cases s.nextRq d with
  | none => rfl
  | some next => simp only [if_pos hexp]

/-! ## Places -/

theorem idxOf_erase_le {rqs : List Nat} (hne : x ≠ r) : (rqs.erase r).idxOf x ≤ rqs.idxOf x := by
  induction rqs with
  | nil => exact le_refl _
  | cons y ys ih =>
    by_cases hyr : y = r
    · subst hyr
      rw [List.erase_cons_head, List.idxOf_cons_ne _ (Ne.symm hne)]
      exact Nat.le_succ _
    · rw [List.erase_cons_tail (by simpa using hyr)]
      by_cases hyx : y = x
      · subst hyx
        rw [List.idxOf_cons_self, List.idxOf_cons_self]
      · rw [List.idxOf_cons_ne _ hyx, List.idxOf_cons_ne _ hyx]
        exact Nat.succ_le_succ ih

theorem idxOf_map {rqs : List Nat} {f : Nat → Nat} (hf : ∀ y, f y = x ↔ y = x) :
    (rqs.map f).idxOf x = rqs.idxOf x := by
  induction rqs with
  | nil => rfl
  | cons y ys ih =>
    rw [List.map_cons]
    by_cases hyx : y = x
    · rw [(hf y).mpr hyx, hyx, List.idxOf_cons_self, List.idxOf_cons_self]
    · rw [List.idxOf_cons_ne _ fun h => hyx ((hf y).mp h), List.idxOf_cons_ne _ hyx, ih]

/-- A request that takes over the place of one that expires earlier moves forward. -/
theorem idxOf_taken_le {rqs : List Nat} {next : Nat} {due : Nat → Int}
    (hsorted : rqs.Pairwise fun a b => due a ≤ due b) (hnext : next ∈ rqs) (hlt : due next < due r) :
    ((rqs.erase r).map fun y => if y = next then r else y).idxOf r ≤ rqs.idxOf r := by
  have hne : next ≠ r := by
    rintro rfl
    exact lt_irrefl _ hlt
  induction rqs with
  | nil => cases hnext
  | cons y ys ih =>
    obtain ⟨hfirst, hsorted⟩ := List.pairwise_cons.mp hsorted
    by_cases hyn : y = next
    · subst hyn
      rw [List.erase_cons_tail (by simpa using hne), List.map_cons, if_pos rfl, List.idxOf_cons_self]
      exact Nat.zero_le _
    · have htail : next ∈ ys := (List.mem_cons.mp hnext).resolve_left (Ne.symm hyn)
      have hyr : y ≠ r := by
        rintro rfl
        exact absurd (hfirst next htail) (not_le.mpr hlt)
      rw [List.erase_cons_tail (by simpa using hyr), List.map_cons, if_neg hyn,
        List.idxOf_cons_ne _ hyr, List.idxOf_cons_ne _ hyr]
      exact Nat.succ_le_succ (ih hsorted htail)

/-! ## What a dispatch costs -/

/-- Among so many batches there is one of the direction. -/
def State.period (s : State) : DataDir → Nat
  | .read => 2
  | .write => s.writesStarved.toNat + 1

/-- How many batches of the other direction may come before the next of this one. -/
def State.turns (s : State) : DataDir → Nat
  | .read => if s.starved < s.writesStarved.toNat then 0 else 1
  | .write => s.batchCredit

/-- How many calls may pass before the request at place `p` is dispatched: what is left of the current batch, and
whole batches. -/
def State.wait (s : State) (d : DataDir) (p : Nat) : Nat :=
  (s.fifoBatch.toNat - s.batching) + s.batchMax * (s.period d * p + s.turns d)

theorem turns_lt (s : State) (d : DataDir) : s.turns d < s.period d := by
  cases d with
  | read =>
    show (if s.starved < s.writesStarved.toNat then 0 else 1) < 2
    split <;> decide
  | write => exact Nat.lt_succ_of_le (Nat.sub_le ..)

theorem wait_le (s : State) (d : DataDir) (p : Nat) : s.wait d p ≤ s.period d * s.batchMax * (p + 1) := by
  have hrest : s.fifoBatch.toNat - s.batching ≤ s.batchMax :=
    (Nat.sub_le ..).trans (le_max_right 1 s.fifoBatch.toNat)
  have hturns : s.period d * p + s.turns d + 1 ≤ s.period d * (p + 1) := by
    have hlt := turns_lt s d
    rw [Nat.mul_succ]
    omega
  calc s.wait d p ≤ s.batchMax + s.batchMax * (s.period d * p + s.turns d) := Nat.add_le_add_right hrest _
    _ = s.batchMax * (s.period d * p + s.turns d + 1) := by ring
    _ ≤ s.batchMax * (s.period d * (p + 1)) := Nat.mul_le_mul_left _ hturns
    _ = s.period d * s.batchMax * (p + 1) := by ring

theorem wait_mono (s : State) (d : DataDir) {p p' : Nat} (h : p' ≤ p) : s.wait d p' ≤ s.wait d p := by
  unfold State.wait
  gcongr

theorem wait_congr (h : s.pace.2 = t.pace.2) (d : DataDir) (p : Nat) : s.wait d p = t.wait d p := by
  have hcredit := (credit_congr h).2
  simp only [State.pace, Prod.mk.injEq] at h
  obtain ⟨hbatching, hstarved, hfifo, hwrites⟩ := h
  cases d <;> simp only [State.wait, State.turns, State.period, State.batchMax, hbatching, hstarved, hfifo,
    hwrites, hcredit]

theorem period_congr (h : t.writesStarved = s.writesStarved) : t.period d = s.period d := by
  cases d with
  | read => rfl
  | write => rw [State.period, State.period, h]

/-- A new batch has been paid for. -/
theorem wait_newBatch (hfifo : t.fifoBatch = s.fifoBatch) (hwrites : t.writesStarved = s.writesStarved)
    {p p' : Nat} (hturns : s.period d * p' + t.turns d + 1 ≤ s.period d * p + s.turns d) :
    1 + ({ t with batching := 1 } : State).wait d p' ≤ s.wait d p := by
  have hmax : t.batchMax = s.batchMax := by rw [State.batchMax, State.batchMax, hfifo]
  have hperiod : t.period d = s.period d := period_congr hwrites
  -- what is left of the batch that has just begun
  have hrest : 1 + (t.fifoBatch.toNat - 1) ≤ s.batchMax := by
    rw [← hmax, State.batchMax]
    omega
  have hturns' : ({ t with batching := 1 } : State).turns d = t.turns d := by
    cases d <;> rfl
  calc 1 + ({ t with batching := 1 } : State).wait d p'
      = 1 + (t.fifoBatch.toNat - 1) + s.batchMax * (s.period d * p' + t.turns d) := by
        rw [← hmax, ← hperiod, ← hturns', Nat.add_assoc]
        rfl
    _ ≤ s.batchMax + s.batchMax * (s.period d * p' + t.turns d) := Nat.add_le_add_right hrest _
    _ = s.batchMax * (s.period d * p' + t.turns d + 1) := by ring
    _ ≤ s.batchMax * (s.period d * p + s.turns d) := Nat.mul_le_mul_left _ hturns
    _ ≤ s.wait d p := Nat.le_add_left ..

/-- A batch of the other direction uses up one of its turns. -/
theorem Selects.turns_lt {d' : DataDir} (h : Selects s d' t) (htuned : s.Tuned)
    (hread : d = .read → 0 < s.writesStarved) (hx : x ∈ s.fifoList d) (hd : d' ≠ d) :
    t.turns d + 1 ≤ s.turns d := by
  cases h with
  | reads _ hwrite =>
    cases d with
    | read => exact absurd rfl hd
    | write =>
      rw [hwrite] at hx
      cases hx
  | starve _ _ hstarved =>
    cases d with
    | read => exact absurd rfl hd
    | write =>
      rw [lt_uint_iff htuned.writesStarved htuned.writesStarved_lt] at hstarved
      simp only [State.turns, State.batchCredit]
      omega
  | writes _ hturn =>
    cases d with
    | write => exact absurd rfl hd
    | read =>
      have hpos := hread rfl
      have hstarved : ¬ s.starved < s.writesStarved.toNat := by
        rcases hturn with hnone | hturn
        · rw [hnone] at hx
          cases hx
        · rw [← lt_uint_iff htuned.writesStarved htuned.writesStarved_lt]
          exact not_lt.mpr hturn
      have hfirst : 0 < s.writesStarved.toNat := by omega
      simp only [State.turns, if_neg hstarved, if_pos hfirst]
      exact le_refl _

theorem dispatchRequest_fifoList (P : Platform) (h : QueueOk t) (r : Nat) :
    (dispatchRequest P t r).2.fifoList =
      Function.update t.fifoList (t.dir r) ((t.fifoList (t.dir r)).erase r) :=
  (deadlineMoveRequest_ok (s := { t with batching := t.batching + 1 }) P
    (h.congr rfl rfl rfl fun _ => rfl) r).2.1

theorem dispatchRequest_wait (P : Platform) (t : State) (r : Nat) (d : DataDir) (p : Nat) :
    (dispatchRequest P t r).2.wait d p = ({ t with batching := t.batching + 1 } : State).wait d p :=
  wait_congr (congrArg Prod.snd (deadlineMoveRequest_pace P { t with batching := t.batching + 1 } r)) d p

/-- The requests that stay do not move back. -/
theorem dispatchRequest_place (P : Platform) (h : QueueOk t) (r : Nat)
    (hx : x ∈ (dispatchRequest P t r).2.fifoList d) :
    ((dispatchRequest P t r).2.fifoList d).idxOf x ≤ (t.fifoList d).idxOf x := by
  rw [dispatchRequest_fifoList P h] at hx ⊢
  by_cases hd : d = t.dir r
  · subst hd
    rw [Function.update_self] at hx ⊢
    refine idxOf_erase_le ?_
    rintro rfl
    exact (h.nodup _).not_mem_erase hx
  · rw [Function.update_of_ne hd]

/-- The batch goes on, with one request less to go. -/
theorem goOn_wait (h : QueueOk s) (htuned : s.Tuned) (hbatch : s.batching < uint s.fifoBatch)
    (hx' : x ∈ (dispatchRequest P s r).2.fifoList d) :
    1 + (dispatchRequest P s r).2.wait d (((dispatchRequest P s r).2.fifoList d).idxOf x) ≤
      s.wait d ((s.fifoList d).idxOf x) := by
  have hlt := (lt_uint_iff htuned.fifoBatch htuned.fifoBatch_lt s.batching).mp hbatch
  rw [dispatchRequest_wait]
  refine le_trans ?_ (wait_mono s d (dispatchRequest_place P h r hx'))
  have hturns : ({ s with batching := s.batching + 1 } : State).turns d = s.turns d := by
    cases d <;> rfl
  have hperiod : ({ s with batching := s.batching + 1 } : State).period d = s.period d := by
    cases d <;> rfl
  simp only [State.wait, State.batchMax, hturns, hperiod]
  omega

section

variable {d' : DataDir} (h : QueueOk s) (hsel : Selects s d' t)

include hsel

theorem Selects.tunables : t.fifoBatch = s.fifoBatch ∧ t.writesStarved = s.writesStarved := by
  cases hsel <;> exact ⟨rfl, rfl⟩

include h

/-- A batch of its own direction brings the request one place forward. -/
theorem Selects.own_wait {head : Nat} {rest : List Nat} (hf : s.fifoList d' = head :: rest)
    (hexp : deadlineCheckFifo P s head = true) {o : Bool × State}
    (ho : dispatchFindRequest P t d' = some o) (hx' : x ∈ o.2.fifoList d') :
    1 + o.2.wait d' ((o.2.fifoList d').idxOf x) ≤ s.wait d' ((s.fifoList d').idxOf x) := by
  obtain ⟨hfifo, -⟩ := State.queues_eq_iff.mp hsel.queues
  have ht : QueueOk t := h.of_queues hsel.queues
  have hf' : t.fifoList d' = head :: rest := by rw [hfifo, hf]
  have hexp' : deadlineCheckFifo P t head = true := by
    cases hsel <;> exact hexp
  rw [dispatchFindRequest_expired hf' hexp'] at ho
  cases ho
  have hdir : t.dir head = d' := ht.dir d' head (hf' ▸ List.mem_cons_self)
  have hlist : (dispatchRequest P { t with batching := 0 } head).2.fifoList d' = rest := by
    have ht0 : QueueOk { t with batching := 0 } := ht.congr rfl rfl rfl fun _ => rfl
    rw [dispatchRequest_fifoList P ht0 head]
    show Function.update t.fifoList (t.dir head) ((t.fifoList (t.dir head)).erase head) d' = rest
    rw [hdir, Function.update_self, hf', List.erase_cons_head]
  rw [hlist] at hx' ⊢
  have hne : head ≠ x := by
    have hnd := h.nodup d'
    rw [hf] at hnd
    rintro rfl
    exact (List.nodup_cons.mp hnd).1 hx'
  obtain ⟨hbatch, hwrites⟩ := hsel.tunables
  rw [dispatchRequest_wait, hf, List.idxOf_cons_ne _ hne]
  refine wait_newBatch hbatch hwrites ?_
  have hlt := Deadline.turns_lt t d'
  rw [period_congr hwrites] at hlt
  rw [Nat.mul_succ]
  omega

theorem Selects.other_wait (htuned : s.Tuned) (hread : d = .read → 0 < s.writesStarved)
    (hd : d' ≠ d) {o : Bool × State} (ho : dispatchFindRequest P t d' = some o)
    (hx : x ∈ s.fifoList d) (hx' : x ∈ o.2.fifoList d) :
    1 + o.2.wait d ((o.2.fifoList d).idxOf x) ≤ s.wait d ((s.fifoList d).idxOf x) := by
  obtain ⟨hfifo, -⟩ := State.queues_eq_iff.mp hsel.queues
  have ht : QueueOk t := h.of_queues hsel.queues
  obtain ⟨r, -, hfind⟩ := dispatchFindRequest_eq P ht hsel.fifoList_ne_nil
  rw [hfind] at ho
  cases ho
  have ht0 : QueueOk { t with batching := 0 } := ht.congr rfl rfl rfl fun _ => rfl
  have hlist : ({ t with batching := 0 } : State).fifoList d = s.fifoList d := congrFun hfifo d
  have hplace := dispatchRequest_place P ht0 r hx'
  rw [hlist] at hplace
  obtain ⟨hbatch, hwrites⟩ := hsel.tunables
  rw [dispatchRequest_wait]
  refine le_trans (wait_newBatch hbatch hwrites ?_) (wait_mono s d hplace)
  have hturn := hsel.turns_lt htuned hread hx hd
  omega

end

theorem deadlineDispatchRequests_of_not_goesOn (hgo : ¬ goesOn s = true) :
    deadlineDispatchRequests P s = dispatchSelect P s := by
  unfold deadlineDispatchRequests
  cases hn : (s.nextRq .write).or (s.nextRq .read) with
  | none => rfl
  | some r =>
    simp only [goesOn, hn, Option.isSome_some, Bool.true_and, decide_eq_true_iff] at hgo
    simp only [if_neg hgo]

/-- While the request waits and the head of its fifo has expired, every call counts. -/
theorem deadlineDispatchRequests_wait (h : QueueOk s) (htuned : s.Tuned)
    (hread : d = .read → 0 < s.writesStarved) {head : Nat} {rest : List Nat}
    (hf : s.fifoList d = head :: rest) (hexp : deadlineCheckFifo P s head = true) {o : Bool × State}
    (ho : deadlineDispatchRequests P s = some o) (hx : x ∈ s.fifoList d) (hx' : x ∈ o.2.fifoList d) :
    1 + o.2.wait d ((o.2.fifoList d).idxOf x) ≤ s.wait d ((s.fifoList d).idxOf x) := by
  by_cases hgo : goesOn s = true
  · simp only [goesOn, Bool.and_eq_true, decide_eq_true_iff] at hgo
    obtain ⟨r, hn⟩ := Option.isSome_iff_exists.mp hgo.1
    simp only [deadlineDispatchRequests, hn, if_pos hgo.2, Option.some.injEq] at ho
    subst ho
    exact goOn_wait h htuned hgo.2 hx'
  · rw [deadlineDispatchRequests_of_not_goesOn hgo] at ho
    rcases dispatchSelect_selects P h with ⟨hr, hw, -⟩ | ⟨d', t, hsel, heq⟩
    · have hnil : s.fifoList d = [] := by
        cases d with
        | read => exact hr
        | write => exact hw
      rw [hnil] at hf
      cases hf
    · rw [heq] at ho
      by_cases hd : d' = d
      · subst hd
        exact hsel.own_wait h hf hexp ho hx'
      · exact hsel.other_wait h htuned hread hd ho hx hx'

/-! ## Steps -/

def Ledger.Event.isDispatch : Ledger.Event → Bool
  | .dispatch => true
  | _ => false

namespace Timed

variable {w w' : Timed} {e : Ledger.Event}

/-- A request that is kept does not move back when two others, or it and another, are merged, and does not
expire later. -/
theorem mergedRequests_place (hP : P.IsLp64) (h : Timely P w) (hhalf : w.HalfRange) {next : Nat}
    (hr : r ∈ w.fifo (w.led.dd.dir r)) (hnext : next ∈ w.fifo (w.led.dd.dir r)) (hne : next ≠ r)
    (hx' : x ∈ w'.fifo d) {rq : Request}
    (hdd : w'.led.dd = deadlineMergedRequests P (Ledger.setRq w.led.dd r rq) r next)
    (hwrite : rq.write = (w.led.dd.rq r).write)
    (hdue : w'.due = w.dueAfter P (.mergedRequests r next)) :
    (w'.fifo d).idxOf x ≤ (w.fifo d).idxOf x ∧ w'.due x ≤ w.due x := by
  have hdir := Ledger.setRq_dir (s := w.led.dd) (r := r) hwrite
  have hd : w.led.dd.dir next = w.led.dd.dir r := h.accounted.queues.dir _ next hnext
  by_cases hafter : timeAfter P (w.led.dd.expires r) (w.led.dd.expires next) = true
  · have hlt := (hhalf.timeAfter_iff hP h hr hnext).mp hafter
    have hd' : (Ledger.setRq w.led.dd r rq).dir next = (Ledger.setRq w.led.dd r rq).dir r := by
      rw [hdir, hdir, hd]
    obtain ⟨hfifo, -⟩ := deadlineMergedRequests_moved hd' (by rw [hdir]; exact hr)
      (by rw [hdir]; exact hnext) (h.accounted.queues.nodup _) hne hafter
    rw [← hdd, hdir] at hfifo
    replace hfifo : w'.led.dd.fifoList = Function.update w.led.dd.fifoList (w.led.dd.dir r)
        (((w.fifo (w.led.dd.dir r)).erase r).map fun y => if y = next then r else y) := hfifo
    have hdue' : w'.due = Function.update w.due r (w.due next) := hdue.trans (if_pos hafter)
    constructor
    · rw [fifo, hfifo] at hx' ⊢
      by_cases hdr : d = w.led.dd.dir r
      · subst hdr
        rw [Function.update_self] at hx' ⊢
        by_cases hxr : x = r
        · subst hxr
          exact idxOf_taken_le (h.sorted _) hnext hlt
        · have hxn : x ≠ next := by
            rintro rfl
            obtain ⟨y, -, hy⟩ := List.mem_map.mp hx'
            split at hy
            · exact hxr hy.symm
            · contradiction
          rw [idxOf_map fun y => ?_]
          · exact idxOf_erase_le hxr
          · split
            · rename_i hyn
              subst hyn
              exact ⟨fun hrx => absurd hrx.symm hxr, fun hyx => absurd hyx.symm hxn⟩
            · exact Iff.rfl
      · rw [Function.update_of_ne hdr]
        exact le_refl _
    · rw [hdue']
      by_cases hxr : x = r
      · subst hxr
        rw [Function.update_self]
        exact hlt.le
      · rw [Function.update_of_ne hxr]
  · rw [deadlineMergedRequests_kept (s := Ledger.setRq w.led.dd r rq) hafter,
      deadlineRemoveRequest_eq] at hdd
    have hfifo : w'.led.dd.fifoList = Function.update w.led.dd.fifoList (w.led.dd.dir next)
        ((w.led.dd.fifoList (w.led.dd.dir next)).erase next) := by
      rw [hdd, ← hdir next]
      rfl
    have hdue' : w'.due = w.due := hdue.trans (if_neg hafter)
    refine ⟨?_, by rw [hdue']⟩
    rw [fifo, hfifo] at hx' ⊢
    by_cases hdn : d = w.led.dd.dir next
    · subst hdn
      rw [Function.update_self] at hx' ⊢
      refine idxOf_erase_le ?_
      rintro rfl
      exact (h.accounted.queues.nodup _).not_mem_erase hx'
    · rw [Function.update_of_ne hdn]
      exact le_refl _

/-- Only a dispatch changes the turn; and no event moves a request back, lets it expire later or turns back
the clock. -/
theorem step_place (hP : P.IsLp64) (h : Timely P w) (hhalf : w.HalfRange) (hs : step P w e = some w')
    (hx : x ∈ w.fifo d) (hx' : x ∈ w'.fifo d) :
    (e.isDispatch = false → (w'.fifo d).idxOf x ≤ (w.fifo d).idxOf x) ∧ w'.due x ≤ w.due x ∧
      w.now ≤ w'.now := by
  obtain ⟨hforward, hled, hdue⟩ := step_some hs
  obtain ⟨led', due'⟩ := w'
  cases e with
  | add r =>
    simp only [Ledger.step, Option.ite_none_right_eq_some, Option.some.injEq] at hled
    obtain ⟨hr, rfl⟩ := hled
    have hne : x ≠ r := by
      rintro rfl
      exact not_queued h.accounted hr d hx
    refine ⟨fun _ => ?_, ?_, le_refl _⟩
    · show (Function.update w.led.dd.fifoList (w.led.dd.dir r)
        (w.led.dd.fifoList (w.led.dd.dir r) ++ [r]) d).idxOf x ≤ (w.led.dd.fifoList d).idxOf x
      by_cases hd : d = w.led.dd.dir r
      · subst hd
        rw [Function.update_self]
        exact (List.idxOf_append_of_mem hx).le
      · rw [Function.update_of_ne hd]
    · rw [hdue]
      exact (Function.update_of_ne hne ..).le
  | merged r type bio =>
    simp only [Ledger.step, Option.ite_none_right_eq_some, Option.some.injEq] at hled
    obtain ⟨-, rfl⟩ := hled
    cases type <;> exact ⟨fun _ => le_refl _, by rw [hdue]; exact le_refl _, le_refl _⟩
  | mergedRequests r next =>
    simp only [Ledger.step, Option.ite_none_right_eq_some, Option.some.injEq] at hled
    obtain ⟨⟨hr, hnext, hne⟩, rfl⟩ := hled
    obtain ⟨hplace, hlate⟩ := mergedRequests_place hP h hhalf hr hnext hne hx' rfl rfl hdue
    refine ⟨fun _ => hplace, hlate, ?_⟩
    have hmem := (Ledger.deadlineMergedRequests_keeps P (Ledger.setRq w.led.dd r { w.led.dd.rq r with
      bios := (w.led.dd.rq r).bios ++ (w.led.dd.rq next).bios
      bytes := (w.led.dd.rq r).bytes + (w.led.dd.rq next).bytes }) r next).2.2
    show w.led.dd.mem.jiffies ≤ (deadlineMergedRequests P _ r next).mem.jiffies
    rw [hmem]
    exact le_refl _
  | dispatch =>
    obtain ⟨o, ho, rfl⟩ := Option.map_eq_some_iff.mp hled
    refine ⟨fun hno => absurd hno (by decide), by rw [hdue]; exact le_refl _, ?_⟩
    rcases deadlineDispatchRequests_choice P h.accounted.queues with ⟨-, -, hnone⟩ | ⟨t, r, hc, heq⟩
    · cases hnone.symm.trans ho
      exact le_refl _
    · cases heq.symm.trans ho
      have hpace := deadlineMoveRequest_pace P { t with batching := t.batching + 1 } r
      have hnow : (deadlineMoveRequest P { t with batching := t.batching + 1 } r).mem.jiffies =
          t.mem.jiffies := congrArg (fun p => p.1.2.2) hpace
      show w.led.dd.mem.jiffies ≤ (deadlineMoveRequest P { t with batching := t.batching + 1 } r).mem.jiffies
      rw [hnow]
      cases hc <;> exact le_refl _
  | tick jiffies =>
    cases hled
    exact ⟨fun _ => le_refl _, by rw [hdue]; exact le_refl _, of_decide_eq_true hforward⟩

/-- The head of the fifo has expired as well. -/
theorem Timely.head_expired (hP : P.IsLp64) (h : Timely P w) (hhalf : w.HalfRange) (hx : x ∈ w.fifo d)
    (hexp : w.due x < w.now) {head : Nat} {rest : List Nat} (hf : w.fifo d = head :: rest) :
    deadlineCheckFifo P w.led.dd head = true := by
  have hhead : head ∈ w.fifo d := hf ▸ List.mem_cons_self
  have hfirst : w.due head ≤ w.due x := by
    have hsorted := h.sorted d
    rw [hf] at hx hsorted
    rcases List.mem_cons.mp hx with rfl | hrest
    · exact le_refl _
    · exact (List.pairwise_cons.mp hsorted).1 x hrest
  exact (hhalf.expired_iff hP h hhead).mpr (hfirst.trans_lt hexp)

/-- What is known of a request that has expired. -/
structure Overdue (P : Platform) (s : State) (d : DataDir) (x : Nat) (w : Timed) : Prop where
  timely : Timely P w
  tuned : w.led.dd.Tuned
  fifoBatch : w.led.dd.fifoBatch = s.fifoBatch
  writesStarved : w.led.dd.writesStarved = s.writesStarved
  expired : w.due x < w.now

theorem step_overdue (hP : P.IsLp64) (hread : d = .read → 0 < s.writesStarved)
    (hs : step P w e = some w') (hw : w.HalfRange ∧ x ∈ w.fifo d) (hw' : w'.HalfRange ∧ x ∈ w'.fifo d)
    (h : Overdue P s d x w) :
    Overdue P s d x w' ∧ e.isDispatch.toNat + w'.led.dd.wait d ((w'.fifo d).idxOf x) ≤
      w.led.dd.wait d ((w.fifo d).idxOf x) := by
  obtain ⟨-, hled, -⟩ := step_some hs
  have hq := h.timely.accounted.queues
  obtain ⟨hplace, hdue, hnow⟩ := step_place hP h.timely hw.1 hs hw.2 hw'.2
  obtain ⟨hfifo, hwrites, -⟩ := Ledger.step_tunables hq hled
  refine ⟨⟨step_timely hs h.timely, Ledger.step_tuned hq hled h.tuned, hfifo.trans h.fifoBatch,
    hwrites.trans h.writesStarved, hdue.trans_lt (h.expired.trans_le hnow)⟩, ?_⟩
  by_cases he : e = .dispatch
  · subst he
    obtain ⟨o, ho, hled⟩ := Option.map_eq_some_iff.mp hled
    have hdd : w'.led.dd = o.2 := by rw [← hled]
    have hmem := hw.2
    cases hf : w.fifo d with
    | nil =>
      rw [hf] at hmem
      cases hmem
    | cons head rest =>
      have hexp := h.timely.head_expired hP hw.1 hmem h.expired hf
      have hcost := deadlineDispatchRequests_wait hq h.tuned (by rwa [h.writesStarved]) hf hexp ho hmem
        (by rw [← hdd]; exact hw'.2)
      rw [← hdd] at hcost
      rw [← hf]
      exact hcost
  · have hno : e.isDispatch = false := by
      cases e with
      | dispatch => exact absurd rfl he
      | _ => rfl
    rw [hno, wait_congr (Ledger.step_keeps hled he).1]
    simpa using wait_mono w.led.dd d (hplace hno)

/-- A request that has expired is dispatched soon, whatever is added, merged or already queued: while it waits at
place `p` of its fifo, `deadline_dispatch_requests` is called at most `2 * max 1 fifo_batch * (p + 1)` times for a
read and `(writes_starved + 1) * max 1 fifo_batch * (p + 1)` times for a write. The tunables are not negative
and are not changed, and the clock and the expiry times of the queued requests are within half the range of
`jiffies` of each other. A read needs `writes_starved` to be positive. -/
theorem expired_dispatched_in_time (hP : P.IsLp64) (h0 : Ledger.Idle s) (htuned : s.Tuned)
    {es es' : List Ledger.Event} (hr : run (step P) (init s) es = some w)
    (hr' : run (step P) w es' = some w') (hread : d = .read → 0 < s.writesStarved)
    (hexp : w.due x < w.now) (hwait : Always (step P) (fun w => w.HalfRange ∧ x ∈ w.fifo d) w es') :
    es'.countP Ledger.Event.isDispatch ≤
      s.period d * max 1 s.fifoBatch.toNat * ((w.fifo d).idxOf x + 1) := by
  obtain ⟨htimely, htuned', hfifo, hwrites⟩ := run_invariant
    (I := fun w => Timely P w ∧ w.led.dd.Tuned ∧ w.led.dd.fifoBatch = s.fifoBatch ∧
      w.led.dd.writesStarved = s.writesStarved)
    (fun v e v' hs ⟨ht, htun, hf, hw⟩ => by
      obtain ⟨-, hled, -⟩ := step_some hs
      obtain ⟨hfifo, hwrites, -⟩ := Ledger.step_tunables ht.accounted.queues hled
      exact ⟨step_timely hs ht, Ledger.step_tuned ht.accounted.queues hled htun, hfifo.trans hf,
        hwrites.trans hw⟩)
    hr ⟨init_timely h0, htuned, rfl, rfl⟩
  have hspent := runCost_le (Φ := fun w => w.led.dd.wait d ((w.fifo d).idxOf x))
    (fun v e v' _ hs => step_overdue hP hread hs) hr' (fun _ _ => trivial) hwait
    ⟨htimely, htuned', hfifo, hwrites, hexp⟩
  rw [runCost_eq_countP hr'] at hspent
  have hbound := wait_le w.led.dd d ((w.fifo d).idxOf x)
  rw [period_congr hwrites, State.batchMax, hfifo] at hbound
  omega

/-- Two reads and a write wait; the write and the second read have expired when the batch of two goes on. -/
def overdueQueue : List Ledger.Event := [.add 1, .add 0, .add 2, .dispatch, .tick 100000]

/-- Batches of two requests, and two of them before a write. -/
def batchesOfTwo : State := { Ledger.tunedQueue with fifoBatch := 2 }

/-- The write waits while a batch of reads goes on and another read is added. -/
theorem expired_dispatched_in_time_write :
    ∃ w w', run (step .lp64) (init batchesOfTwo) overdueQueue = some w ∧
      run (step .lp64) w [.dispatch, .add 3, .dispatch] = some w' ∧ w.due 0 < w.now ∧
      w'.led.dd.dispatched = [1, 2, 3] ∧ (w.fifo .write).idxOf 0 = 0 ∧
      ([.dispatch, .add 3, .dispatch] : List Ledger.Event).countP Ledger.Event.isDispatch ≤
        batchesOfTwo.period .write * max 1 batchesOfTwo.fifoBatch.toNat *
          ((w.fifo .write).idxOf 0 + 1) := by
  have h : (run (step .lp64) (init batchesOfTwo) overdueQueue).any
      (fun w => (run (step .lp64) w [.dispatch, .add 3, .dispatch]).any (fun w' =>
        decide (w.due 0 < w.now ∧ w'.led.dd.dispatched = [1, 2, 3] ∧ (w.fifo .write).idxOf 0 = 0 ∧
          Meets (step .lp64) (fun w _ => w.HalfRange ∧ 0 ∈ w.fifo .write) w
            [.dispatch, .add 3, .dispatch] ∧ w'.HalfRange ∧ 0 ∈ w'.fifo .write))) = true := by
    decide +kernel
  obtain ⟨w, hw, hok⟩ := (Option.any_eq_true _ _).mp h
  obtain ⟨w', hw', hok⟩ := (Option.any_eq_true _ _).mp hok
  obtain ⟨hexp, hdisp, hplace, hmeets, hlast⟩ := of_decide_eq_true hok
  have hidle : Ledger.Idle batchesOfTwo := ⟨fun _ => rfl, fun _ => rfl, fun _ => rfl, rfl⟩
  exact ⟨w, w', hw, hw', hexp, hdisp, hplace,
    expired_dispatched_in_time Platform.isLp64_lp64 hidle ⟨by decide, by decide, by decide, by decide⟩
      hw hw' (fun hd => by cases hd) hexp ((always_iff_meets_last hw').mpr ⟨hmeets, hlast⟩)⟩

end Timed

/-! ## Before the exit -/

/-- The block layer calls `deadline_dispatch_requests` until it returns 0, before it lets the scheduler go. -/
def drain (P : Platform) : Nat → State → Option State
  | 0, _ => none
  | fuel + 1, s =>
    match deadlineDispatchRequests P s with
    | none => none
    | some (true, s) => drain P fuel s
    | some (false, s) => some s

/-- The `BUG_ON`s of `deadline_exit_queue`. -/
def deadlineExitQueue (s : State) : Option Unit :=
  if s.fifoList .read ≠ [] then none
  else if s.fifoList .write ≠ [] then none
  else some ()

namespace Ledger

/-- A call moves one request to the dispatch queue. -/
theorem deadlineDispatchRequests_moves (P : Platform) (h : QueueOk s) (hne : queued s ≠ 0) :
    ∃ t r, deadlineDispatchRequests P s = some (true, t) ∧ QueueOk t ∧ queued s = queued t + {r} ∧
      t.dispatched = s.dispatched ++ [r] := by
  rcases deadlineDispatchRequests_cases P h with ⟨hread, hwrite, -⟩ | ⟨t, d, r, hr, heq, hq⟩
  · refine absurd ?_ hne
    rw [queued, hread, hwrite]
    rfl
  · have ht := h.of_queues hq
    obtain ⟨hfifo, -, -, hdisp, -⟩ := State.queues_eq_iff.mp hq
    obtain ⟨hok, hmoved, hdispatched⟩ := deadlineMoveRequest_ok P ht r
    rw [← hfifo] at hr
    rw [← ht.dir d r hr] at hr
    refine ⟨_, r, heq, hok, ?_, hdispatched.trans (by rw [hdisp])⟩
    rw [← queued_erase hmoved hr, queued, queued, hfifo]

theorem deadlineDispatchRequests_idle (P : Platform) (h : QueueOk s) (hnone : queued s = 0) :
    deadlineDispatchRequests P s = some (false, s) ∧ deadlineExitQueue s = some () := by
  have hnil : s.fifoList .read = [] ∧ s.fifoList .write = [] := by
    have hlen := congrArg Multiset.card hnone
    simp only [queued, Multiset.card_add, Multiset.coe_card, Multiset.card_zero, Nat.add_eq_zero_iff,
      List.length_eq_zero_iff] at hlen
    exact hlen
  rcases deadlineDispatchRequests_cases P h with ⟨-, -, heq⟩ | ⟨t, d, r, hr, -, -⟩
  · exact ⟨heq, by simp [deadlineExitQueue, hnil]⟩
  · cases d with
    | read =>
      rw [hnil.1] at hr
      cases hr
    | write =>
      rw [hnil.2] at hr
      cases hr

theorem drain_queued (P : Platform) (n : Nat) : ∀ {s : State}, QueueOk s → (queued s).card = n →
    ∃ s', (∀ fuel, drain P fuel s = if fuel ≤ n then none else some s') ∧
      deadlineExitQueue s' = some () ∧
      (s'.dispatched : Multiset Nat) = s.dispatched + queued s := by
  induction n with
  | zero =>
    intro s h hcard
    have hnone : queued s = 0 := Multiset.card_eq_zero.mp hcard
    obtain ⟨heq, hexit⟩ := deadlineDispatchRequests_idle P h hnone
    refine ⟨s, fun fuel => ?_, hexit, by rw [hnone, add_zero]⟩
    cases fuel with
    | zero => rfl
    | succ fuel => simp [drain, heq]
  | succ n ih =>
    intro s h hcard
    have hne : queued s ≠ 0 := by
      intro hnone
      rw [hnone] at hcard
      cases hcard
    obtain ⟨t, r, heq, ht, hqueued, hdisp⟩ := deadlineDispatchRequests_moves P h hne
    obtain ⟨s', hdrain, hexit, hdispatched⟩ := ih ht (by
      rw [hqueued, Multiset.card_add, Multiset.card_singleton] at hcard
      omega)
    refine ⟨s', fun fuel => ?_, hexit, ?_⟩
    · cases fuel with
      | zero => rfl
      | succ fuel => simp only [drain, heq, hdrain, Nat.succ_le_succ_iff]
    · rw [hdispatched, hdisp, hqueued, ← Multiset.coe_add, Multiset.coe_singleton]
      abel

/-- From every reachable state, one call for each queued request and one more that returns 0 empty the queues, so
`deadline_exit_queue` passes its `BUG_ON`s; and every request that was ever added has been dispatched once or was
merged into another. -/
theorem drained_queue_exits (h0 : Idle s) {es : List Event} {w : Ledger}
    (hr : run (step P) (init s) es = some w) :
    ∃ s', (∀ fuel, drain P fuel w.dd = if fuel ≤ (queued w.dd).card then none else some s') ∧
      deadlineExitQueue s' = some () ∧ w.added.Nodup ∧
      w.added.Perm (s'.dispatched ++ w.mergedAway) := by
  have hacc : Accounted w :=
    run_invariant (fun _ _ _ hs h => step_accounted h hs) hr (init_accounted h0)
  obtain ⟨s', hdrain, hexit, hdispatched⟩ := drain_queued P _ hacc.queues rfl
  refine ⟨s', hdrain, hexit, hacc.nodup, Multiset.coe_eq_coe.mp ?_⟩
  rw [hacc.places, ← Multiset.coe_add, hdispatched]
  abel

/-- Three requests are queued and one was merged away when the queue is drained. -/
theorem drained_queue_exits_merged :
    ∃ w, run (step .lp64) (init tunedQueue) [.add 1, .add 0, .add 2, .add 3, .mergedRequests 3 1] =
        some w ∧ (queued w.dd).card = 3 ∧
      ∃ s', (∀ fuel, drain .lp64 fuel w.dd = if fuel ≤ (queued w.dd).card then none else some s') ∧
        deadlineExitQueue s' = some () ∧ w.added.Nodup ∧
        w.added.Perm (s'.dispatched ++ w.mergedAway) := by
  have h : (run (step .lp64) (init tunedQueue)
      [.add 1, .add 0, .add 2, .add 3, .mergedRequests 3 1]).any
      (fun w => decide ((queued w.dd).card = 3)) = true := by
    decide +kernel
  obtain ⟨w, hw, hcard⟩ := (Option.any_eq_true _ _).mp h
  exact ⟨w, hw, of_decide_eq_true hcard,
    drained_queue_exits ⟨fun _ => rfl, fun _ => rfl, fun _ => rfl, rfl⟩ hw⟩

end Ledger

end Deadline
end SplitSched
