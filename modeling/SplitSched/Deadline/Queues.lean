import SplitSched.Deadline.Sched
import SplitSched.Lib.Run

/-!
# SplitSched.Deadline.Queues

The two structures of the split-deadline scheduler hold the same requests, and the cached `next_rq` is
one of them.

* `QueueOk`: the invariant. `deadlineRemoveRequest_ok`, `deadlineAddRequest_ok` and their like say that
  every function keeps it.
* `deadlineDispatchRequests_choice`: one call dispatches one queued request, or there is none; `Choice` lists
  the ways to choose it.
* `Ledger`, `step`: requests are added, merged and dispatched, with a record of what was added and what
  was merged away.
* `deadline_queues_agree`: what holds along every run.
-/

namespace SplitSched
namespace Deadline

variable {P : Platform} {s s' : State} {r next : Nat} {d : DataDir}

/-! ## Lists of requests -/

theorem rbNext_mem {rqs : List Nat} {x : Nat} (h : rbNext rqs r = some x) : x ∈ rqs := by
  induction rqs with
  | nil => cases h
  | cons y ys ih =>
    unfold rbNext at h
    split at h
    · exact List.mem_cons_of_mem y (List.mem_of_mem_head? h)
    · exact List.mem_cons_of_mem y (ih h)

theorem rbNext_ne {rqs : List Nat} {x : Nat} (hnd : rqs.Nodup) (h : rbNext rqs r = some x) :
    x ≠ r := by
  induction rqs with
  | nil => cases h
  | cons y ys ih =>
    obtain ⟨hy, hnd⟩ := List.nodup_cons.mp hnd
    unfold rbNext at h
    split at h
    · rename_i hyr
      subst hyr
      rintro rfl
      exact hy (List.mem_of_mem_head? h)
    · exact ih hnd h

theorem elvRbAdd_perm (s : State) (r : Nat) (rqs : List Nat) :
    (elvRbAdd s r rqs).Perm (r :: rqs) :=
  List.perm_orderedInsert _ r rqs

theorem listAdd_of_not_mem {rqs : List Nat} (h : next ∉ rqs) : listAdd r next rqs = rqs := by
  unfold listAdd
  rw [List.flatMap_congr (g := fun x => [x])]
  · exact List.flatMap_singleton' rqs
  · intro x hx
    rw [if_neg]
    rintro rfl
    exact h hx

theorem listAdd_cons_self {rqs : List Nat} (h : next ∉ rqs) :
    listAdd r next (next :: rqs) = next :: r :: rqs := by
  have hcons : listAdd r next (next :: rqs) = next :: r :: listAdd r next rqs := by simp [listAdd]
  rw [hcons, listAdd_of_not_mem h]

theorem listAdd_cons_of_ne {rqs : List Nat} {x : Nat} (h : x ≠ next) :
    listAdd r next (x :: rqs) = x :: listAdd r next rqs := by
  simp [listAdd, h]

theorem listAdd_perm {rqs : List Nat} (hnd : rqs.Nodup) (h : next ∈ rqs) :
    (listAdd r next rqs).Perm (r :: rqs) := by
  induction rqs with
  | nil => cases h
  | cons y ys ih =>
    obtain ⟨hy, hnd⟩ := List.nodup_cons.mp hnd
    by_cases hyn : y = next
    · subst hyn
      rw [listAdd_cons_self hy]
      exact List.Perm.swap r y ys
    · have htail : next ∈ ys := (List.mem_cons.mp h).resolve_left (Ne.symm hyn)
      rw [listAdd_cons_of_ne hyn]
      exact ((ih hnd htail).cons y).trans (List.Perm.swap r y ys)

/-! ## The invariant -/

structure QueueOk (s : State) : Prop where
  nodup : ∀ d, (s.fifoList d).Nodup
  perm : ∀ d, (s.sortList d).Perm (s.fifoList d)
  dir : ∀ d, ∀ r ∈ s.fifoList d, s.dir r = d
  next : ∀ d r, s.nextRq d = some r → r ∈ s.fifoList d
  one : s.nextRq .read = none ∨ s.nextRq .write = none

/-- Only the queues and the directions of the requests matter. -/
theorem QueueOk.congr (h : QueueOk s) (hfifo : s'.fifoList = s.fifoList)
    (hsort : s'.sortList = s.sortList) (hnext : s'.nextRq = s.nextRq)
    (hdir : ∀ r, s'.dir r = s.dir r) : QueueOk s' := by
  refine ⟨?_, ?_, ?_, ?_, ?_⟩
  · rw [hfifo]
    exact h.nodup
  · rw [hfifo, hsort]
    exact h.perm
  · intro d r hr
    rw [hdir]
    exact h.dir d r (hfifo ▸ hr)
  · rw [hfifo, hnext]
    exact h.next
  · rw [hnext]
    exact h.one

theorem QueueOk.sortList_ne_nil (h : QueueOk s) (hd : s.fifoList d ≠ []) : s.sortList d ≠ [] := by
  intro hnil
  have hperm := h.perm d
  rw [hnil] at hperm
  exact hd (List.nil_perm.mp hperm)

/-- Only the queues of one direction change. -/
theorem QueueOk.change (h : QueueOk s) {d : DataDir} {fifo sort : List Nat}
    (hfifo : s'.fifoList = Function.update s.fifoList d fifo)
    (hsort : s'.sortList = Function.update s.sortList d sort) (hdir : ∀ r, s'.dir r = s.dir r)
    (hnd : fifo.Nodup) (hperm : sort.Perm fifo) (hd : ∀ r ∈ fifo, s.dir r = d)
    (hnext : ∀ d' r, s'.nextRq d' = some r → r ∈ s'.fifoList d')
    (hone : s'.nextRq .read = none ∨ s'.nextRq .write = none) : QueueOk s' := by
  refine ⟨fun d' => ?_, fun d' => ?_, fun d' r hr => ?_, hnext, hone⟩
  · by_cases he : d' = d
    · subst he
      rw [hfifo, Function.update_self]
      exact hnd
    · rw [hfifo, Function.update_of_ne he]
      exact h.nodup d'
  · by_cases he : d' = d
    · subst he
      rw [hfifo, hsort, Function.update_self, Function.update_self]
      exact hperm
    · rw [hfifo, hsort, Function.update_of_ne he, Function.update_of_ne he]
      exact h.perm d'
  · rw [hdir]
    by_cases he : d' = d
    · subst he
      rw [hfifo, Function.update_self] at hr
      exact hd r hr
    · rw [hfifo, Function.update_of_ne he] at hr
      exact h.dir d' r hr

/-! ### Adding and removing -/

theorem deadlineAddRequest_ok (h : QueueOk s) (hr : r ∉ s.fifoList (s.dir r)) :
    QueueOk (deadlineAddRequest P s r) := by
  have hfifo : (deadlineAddRequest P s r).fifoList =
      Function.update s.fifoList (s.dir r) (s.fifoList (s.dir r) ++ [r]) := rfl
  refine h.change (d := s.dir r) hfifo rfl (fun _ => rfl) ?_ ?_ ?_ ?_ h.one
  · refine List.nodup_append.mpr ⟨h.nodup _, List.nodup_singleton r, ?_⟩
    intro a ha b hb hab
    rw [hab, List.mem_singleton.mp hb] at ha
    exact hr ha
  · exact (elvRbAdd_perm _ r _).trans (((h.perm _).cons r).trans
      (List.perm_append_singleton r _).symm)
  · intro x hx
    rcases List.mem_append.mp hx with hold | hnew
    · exact h.dir _ x hold
    · rw [List.mem_singleton.mp hnew]
  · intro d x hx
    have hold := h.next d x hx
    rw [hfifo]
    by_cases hd : d = s.dir r
    · subst hd
      rw [Function.update_self]
      exact List.mem_append_left _ hold
    · rw [Function.update_of_ne hd]
      exact hold

theorem deadlineRemoveRequest_eq (s : State) (r : Nat) : deadlineRemoveRequest s r =
    { s with
      fifoList := Function.update s.fifoList (s.dir r) ((s.fifoList (s.dir r)).erase r)
      sortList := Function.update s.sortList (s.dir r) ((s.sortList (s.dir r)).erase r)
      nextRq := if s.nextRq (s.dir r) = some r then
        Function.update s.nextRq (s.dir r) (rbNext (s.sortList (s.dir r)) r) else s.nextRq } := by
  unfold deadlineRemoveRequest deadlineDelRqRb
  by_cases hnext : s.nextRq (s.dir r) = some r
  · have hnext' : (rqFifoClear s r).nextRq ((rqFifoClear s r).dir r) = some r := hnext
    simp only [if_pos hnext, if_pos hnext']
    rfl
  · have hnext' : ¬ (rqFifoClear s r).nextRq ((rqFifoClear s r).dir r) = some r := hnext
    simp only [if_neg hnext, if_neg hnext']
    rfl

/-- The request after the removed one, if that was cached, and otherwise the cached one. -/
theorem deadlineRemoveRequest_next (h : QueueOk s) {x : Nat}
    (hx : (deadlineRemoveRequest s r).nextRq d = some x) : x ∈ s.fifoList d ∧ x ≠ r := by
  rw [deadlineRemoveRequest_eq] at hx
  by_cases hnext : s.nextRq (s.dir r) = some r
  · simp only [if_pos hnext] at hx
    by_cases hd : d = s.dir r
    · subst hd
      rw [Function.update_self] at hx
      have hnd : (s.sortList (s.dir r)).Nodup := (h.perm _).nodup_iff.mpr (h.nodup _)
      exact ⟨(h.perm _).mem_iff.mp (rbNext_mem hx), rbNext_ne hnd hx⟩
    · rw [Function.update_of_ne hd] at hx
      refine ⟨h.next d x hx, ?_⟩
      rintro rfl
      exact hd (h.dir d x (h.next d x hx)).symm
  · simp only [if_neg hnext] at hx
    have hmem := h.next d x hx
    refine ⟨hmem, ?_⟩
    rintro rfl
    rw [h.dir d x hmem] at hnext
    exact hnext hx

theorem deadlineRemoveRequest_next_none (h : s.nextRq d = none) :
    (deadlineRemoveRequest s r).nextRq d = none := by
  rw [deadlineRemoveRequest_eq]
  by_cases hnext : s.nextRq (s.dir r) = some r
  · have hd : d ≠ s.dir r := by
      rintro rfl
      rw [h] at hnext
      cases hnext
    simp only [if_pos hnext, Function.update_of_ne hd]
    exact h
  · simp only [if_neg hnext]
    exact h

theorem deadlineRemoveRequest_fifoList (s : State) (r : Nat) : (deadlineRemoveRequest s r).fifoList =
    Function.update s.fifoList (s.dir r) ((s.fifoList (s.dir r)).erase r) := by
  rw [deadlineRemoveRequest_eq]

theorem deadlineRemoveRequest_ok (h : QueueOk s) (r : Nat) :
    QueueOk (deadlineRemoveRequest s r) := by
  have hfifo := deadlineRemoveRequest_fifoList s r
  have hsort : (deadlineRemoveRequest s r).sortList =
      Function.update s.sortList (s.dir r) ((s.sortList (s.dir r)).erase r) := by
    rw [deadlineRemoveRequest_eq]
  have hdir : ∀ x, (deadlineRemoveRequest s r).dir x = s.dir x := by
    intro x
    rw [deadlineRemoveRequest_eq]
    rfl
  refine h.change hfifo hsort hdir ((h.nodup _).erase r) ((h.perm _).erase r) ?_ ?_ ?_
  · intro x hx
    exact h.dir _ x (List.mem_of_mem_erase hx)
  · intro d x hx
    obtain ⟨hmem, hne⟩ := deadlineRemoveRequest_next h hx
    rw [hfifo]
    by_cases hd : d = s.dir r
    · subst hd
      rw [Function.update_self]
      exact (List.mem_erase_of_ne hne).mpr hmem
    · rw [Function.update_of_ne hd]
      exact hmem
  · exact h.one.imp deadlineRemoveRequest_next_none deadlineRemoveRequest_next_none

/-! ### Merging -/

/-- A front merge has changed the start sector; the request finds its new place. -/
theorem deadlineMergedRequest_ok (h : QueueOk s) (hr : r ∈ s.fifoList (s.dir r)) (type : MergeType) :
    QueueOk (deadlineMergedRequest s r type) := by
  cases type with
  | back => exact h
  | front =>
    have hsort : (deadlineMergedRequest s r .front).sortList = Function.update s.sortList (s.dir r)
        (elvRbAdd s r ((s.sortList (s.dir r)).erase r)) := by
      have hd : ∀ rqs, (elvRbDel s r).sortList (s.dir r) = rqs →
          (deadlineAddRqRb (elvRbDel s r) r).sortList =
            Function.update (elvRbDel s r).sortList (s.dir r) (elvRbAdd s r rqs) := by
        rintro rqs rfl
        rfl
      refine (hd _ (Function.update_self ..)).trans ?_
      exact Function.update_idem ..
    refine h.change (Function.update_eq_self (s.dir r) s.fifoList).symm hsort (fun _ => rfl)
      (h.nodup _) ?_ (h.dir _) h.next h.one
    have hmem : r ∈ s.sortList (s.dir r) := (h.perm _).mem_iff.mpr hr
    exact (elvRbAdd_perm s r _).trans ((List.perm_cons_erase hmem).symm.trans (h.perm _))

theorem listMove_fifoList (hd : s.dir next = s.dir r) : (listMove s r next).fifoList =
    Function.update s.fifoList (s.dir r)
      (listAdd r next ((s.fifoList (s.dir r)).erase r)) := by
  have hdir : (rqFifoClear s r).dir next = s.dir r := hd
  unfold listMove
  simp only [hdir]
  unfold rqFifoClear
  simp only [Function.update_self, Function.update_idem]

theorem listMove_perm (h : QueueOk s) (hr : r ∈ s.fifoList (s.dir r))
    (hnext : next ∈ s.fifoList (s.dir r)) (hne : next ≠ r) :
    (listAdd r next ((s.fifoList (s.dir r)).erase r)).Perm (s.fifoList (s.dir r)) :=
  (listAdd_perm ((h.nodup _).erase r) ((List.mem_erase_of_ne hne).mpr hnext)).trans
    (List.perm_cons_erase hr).symm

/-- The place in the fifo may change, before `next` is removed. -/
theorem deadlineMergedRequests_eq (P : Platform) (h : QueueOk s) (hr : r ∈ s.fifoList (s.dir r))
    (hnext : next ∈ s.fifoList (s.dir r)) (hne : next ≠ r) :
    ∃ t, deadlineMergedRequests P s r next = deadlineRemoveRequest t next ∧ QueueOk t ∧
      (∀ d, (t.fifoList d).Perm (s.fifoList d)) ∧ (∀ x, t.dir x = s.dir x) ∧
      t.dispatched = s.dispatched := by
  have hd : s.dir next = s.dir r := h.dir _ next hnext
  unfold deadlineMergedRequests
  split_ifs with hqueued hbefore
  · have hperm := listMove_perm h hr hnext hne
    have hmove : (listMove s r next).fifoList = _ := listMove_fifoList hd
    refine ⟨_, rfl, ?_, fun d => ?_, fun _ => rfl, rfl⟩
    · refine h.change hmove
        (Function.update_eq_self (s.dir r) s.sortList).symm (fun _ => rfl)
        (hperm.nodup_iff.mpr (h.nodup _)) ((h.perm _).trans hperm.symm) ?_ ?_ h.one
      · intro x hx
        exact h.dir _ x (hperm.mem_iff.mp hx)
      · intro d x hx
        have hold := h.next d x hx
        simp only [hmove]
        by_cases he : d = s.dir r
        · subst he
          rw [Function.update_self]
          exact hperm.mem_iff.mpr hold
        · rw [Function.update_of_ne he]
          exact hold
    · simp only [hmove]
      by_cases he : d = s.dir r
      · subst he
        rw [Function.update_self]
        exact hperm
      · rw [Function.update_of_ne he]
  · exact ⟨s, rfl, h, fun _ => .rfl, fun _ => rfl, rfl⟩
  · exact ⟨s, rfl, h, fun _ => .rfl, fun _ => rfl, rfl⟩

/-! ### Dispatching -/

/-- What the queues consist of. -/
def State.queues (s : State) : (DataDir → List Nat) × (DataDir → List Nat) ×
    (DataDir → Option Nat) × List Nat × (Nat → Request) :=
  (s.fifoList, s.sortList, s.nextRq, s.dispatched, s.mem.rqs)

theorem State.queues_eq_iff : s'.queues = s.queues ↔ s'.fifoList = s.fifoList ∧ s'.sortList = s.sortList ∧
    s'.nextRq = s.nextRq ∧ s'.dispatched = s.dispatched ∧ s'.mem.rqs = s.mem.rqs := by
  simp only [State.queues, Prod.mk.injEq]

theorem QueueOk.of_queues (h : QueueOk s) (hq : s'.queues = s.queues) : QueueOk s' := by
  obtain ⟨hfifo, hsort, hnext, -, hrqs⟩ := State.queues_eq_iff.mp hq
  refine h.congr hfifo hsort hnext fun r => ?_
  unfold State.dir State.rq
  rw [hrqs]

/-- The expiry times and the clock, and how far the batch and the starvation of writes have come. -/
def State.pace (s : State) : ((Nat → Int) × (DataDir → Int) × Int) × Nat × Nat × Int × Int :=
  ((s.expires, s.fifoExpire, s.mem.jiffies), s.batching, s.starved, s.fifoBatch, s.writesStarved)

section Pages

variable {β : Type} {g : State → β}

/-- What does not depend on the numbers of dirty pages. -/
def PagesBlind (g : State → β) : Prop :=
  ∀ s m inode calls, m.rqs = s.mem.rqs → m.jiffies = s.mem.jiffies →
    g { s with mem := m, inode := inode, pageCalls := calls } = g s

theorem queues_blind : PagesBlind State.queues := fun _ _ _ _ hrqs _ =>
  State.queues_eq_iff.mpr ⟨rfl, rfl, rfl, rfl, hrqs⟩

theorem pace_blind : PagesBlind State.pace := by
  intro s m inode calls _ hjiffies
  simp only [State.pace, hjiffies]

theorem inodeDecDirtyPages_keeps (hg : PagesBlind g) (P : Platform) (s : State) (inode : Nat)
    (num : Int) : g (inodeDecDirtyPages P s inode num) = g s := by
  unfold inodeDecDirtyPages inodeIncDirtyPages checkDirtyNumber
  simp only
  split_ifs <;> exact hg s _ _ _ rfl rfl

theorem decDirtyForCauses_keeps (hg : PagesBlind g) (P : Platform) (s : State) (l : Nat) :
    g (decDirtyForCauses P s l) = g s := by
  unfold decDirtyForCauses
  cases s.inode l with
  | none => exact hg s _ _ _ rfl rfl
  | some inode =>
    refine Eq.trans (hg (inodeDecDirtyPages P s inode 1) _ _ _ ?_ ?_)
      (inodeDecDirtyPages_keeps hg P s inode 1)
    · rfl
    · rfl

theorem inodeDecDirtyForSubmittedRq_keeps (hg : PagesBlind g) (P : Platform) (s : State) (r : Nat) :
    g (inodeDecDirtyForSubmittedRq P s r) = g s := by
  unfold inodeDecDirtyForSubmittedRq
  split
  · rfl
  · refine foldl_keeps (g := g) (fun s bio => ?_) _ s
    cases bio.cll with
    | none => rfl
    | some cll => exact foldl_keeps (decDirtyForCauses_keeps hg P) cll.items s

end Pages

theorem deadlineMoveToDispatch_queues (P : Platform) (s : State) (r : Nat) :
    (deadlineMoveToDispatch P s r).queues =
      { deadlineRemoveRequest s r with dispatched := s.dispatched ++ [r] }.queues := by
  have hq := inodeDecDirtyForSubmittedRq_keeps queues_blind P (deadlineRemoveRequest s r) r
  have hdisp : (deadlineRemoveRequest s r).dispatched = s.dispatched := by
    rw [deadlineRemoveRequest_eq]
  obtain ⟨hfifo, hsort, hnext, hdispatched, hrqs⟩ := State.queues_eq_iff.mp hq
  rw [hdisp] at hdispatched
  exact State.queues_eq_iff.mpr ⟨hfifo, hsort, hnext, congrArg (· ++ [r]) hdispatched, hrqs⟩

/-- The request leaves its queues, and the one after it is cached. -/
theorem deadlineMoveRequest_ok (P : Platform) (h : QueueOk s) (r : Nat) :
    QueueOk (deadlineMoveRequest P s r) ∧
    (deadlineMoveRequest P s r).fifoList =
      Function.update s.fifoList (s.dir r) ((s.fifoList (s.dir r)).erase r) ∧
    (deadlineMoveRequest P s r).dispatched = s.dispatched ++ [r] := by
  unfold deadlineMoveRequest
  simp only
  generalize ht : ({ s with
    nextRq := Function.update (fun _ => none) (s.dir r) (deadlineLatterRequest s r)
    lastSector := (s.rq r).pos + (s.rq r).bytes / 512 } : State) = t
  have hok : QueueOk t := by
    subst ht
    refine ⟨h.nodup, h.perm, h.dir, fun d x hx => ?_, ?_⟩
    · by_cases hd : d = s.dir r
      · subst hd
        simp only [Function.update_self] at hx
        exact (h.perm _).mem_iff.mp (rbNext_mem hx)
      · simp only [Function.update_of_ne hd] at hx
        cases hx
    · cases hd : s.dir r with
      | read => exact .inr rfl
      | write => exact .inl rfl
  have hq := deadlineMoveToDispatch_queues P t r
  obtain ⟨hfifo, -, -, hdisp, -⟩ := State.queues_eq_iff.mp hq
  have hremoved := deadlineRemoveRequest_ok hok r
  refine ⟨QueueOk.of_queues (s := { deadlineRemoveRequest t r with dispatched := _ }) ?_ hq, ?_, ?_⟩
  · exact hremoved.congr rfl rfl rfl fun _ => rfl
  · rw [hfifo]
    subst ht
    exact deadlineRemoveRequest_fifoList _ r
  · rw [hdisp]
    subst ht
    rfl

theorem deadlineMoveRequest_pace (P : Platform) (s : State) (r : Nat) :
    (deadlineMoveRequest P s r).pace = s.pace := by
  unfold deadlineMoveRequest deadlineMoveToDispatch
  refine Eq.trans (inodeDecDirtyForSubmittedRq_keeps pace_blind P _ r) ?_
  rw [deadlineRemoveRequest_eq]
  rfl

/-- What one dispatch decides: the request `r`, and the counts `t` of the batch it belongs to. -/
inductive Choice (s : State) : State → Nat → Prop where
  /-- The batch goes on. -/
  | goOn {r : Nat} (hr : (s.nextRq .write).or (s.nextRq .read) = some r)
      (hbatch : s.batching < uint s.fifoBatch) : Choice s s r
  | reads {r : Nat} (hr : r ∈ s.fifoList .read) (hwrite : s.fifoList .write = []) :
      Choice s { s with batching := 0 } r
  /-- A batch of reads, while writes wait. -/
  | starve {r : Nat} (hr : r ∈ s.fifoList .read) (hwrite : s.fifoList .write ≠ [])
      (hstarved : s.starved < uint s.writesStarved) :
      Choice s { s with starved := s.starved + 1, batching := 0 } r
  | writes {r : Nat} (hr : r ∈ s.fifoList .write) : Choice s { s with starved := 0, batching := 0 } r

theorem Choice.queues {t : State} (h : Choice s t r) : t.queues = s.queues := by
  cases h <;> rfl

theorem Choice.mem {t : State} (h : Choice s t r) (hs : QueueOk s) : ∃ d, r ∈ s.fifoList d := by
  cases h with
  | goOn hr _ =>
    rcases Option.or_eq_some_iff.mp hr with hw | ⟨-, hrd⟩
    · exact ⟨_, hs.next _ r hw⟩
    · exact ⟨_, hs.next _ r hrd⟩
  | reads hr _ => exact ⟨_, hr⟩
  | starve hr _ _ => exact ⟨_, hr⟩
  | writes hr => exact ⟨_, hr⟩

theorem dispatchFindRequest_eq (P : Platform) (h : QueueOk s) (hd : s.fifoList d ≠ []) :
    ∃ r ∈ s.fifoList d,
      dispatchFindRequest P s d = some (dispatchRequest P { s with batching := 0 } r) := by
  unfold dispatchFindRequest
  cases hf : s.fifoList d with
  | nil => exact absurd hf hd
  | cons head rest =>
    cases hn : s.nextRq d with
    | none => exact ⟨head, List.mem_cons_self, rfl⟩
    | some next =>
      have hmem := h.next d next hn
      rw [hf] at hmem
      refine ⟨_, ?_, rfl⟩
      simp only
      split
      · exact List.mem_cons_self
      · exact hmem

theorem dispatchWrites_eq (P : Platform) (h : QueueOk s) (hd : s.fifoList .write ≠ []) :
    ∃ r ∈ s.fifoList .write, dispatchWrites P s =
      some (dispatchRequest P { s with starved := 0, batching := 0 } r) := by
  unfold dispatchWrites
  rw [if_neg (h.sortList_ne_nil hd)]
  exact dispatchFindRequest_eq (s := { s with starved := 0 }) P (h.congr rfl rfl rfl fun _ => rfl) hd

theorem dispatchSelect_choice (P : Platform) (h : QueueOk s) :
    (s.fifoList .read = [] ∧ s.fifoList .write = [] ∧ dispatchSelect P s = some (false, s)) ∨
    ∃ t r, Choice s t r ∧ dispatchSelect P s = some (dispatchRequest P t r) := by
  unfold dispatchSelect
  by_cases hread : s.fifoList .read = []
  · rw [if_neg (not_not_intro hread)]
    by_cases hwrite : s.fifoList .write = []
    · rw [if_neg (not_not_intro hwrite)]
      exact .inl ⟨hread, hwrite, rfl⟩
    · rw [if_pos hwrite]
      obtain ⟨r, hr, heq⟩ := dispatchWrites_eq P h hwrite
      exact .inr ⟨_, r, .writes hr, heq⟩
  · rw [if_pos hread, if_neg (h.sortList_ne_nil hread)]
    right
    by_cases hwrite : s.fifoList .write = []
    · rw [if_neg (not_not_intro hwrite)]
      obtain ⟨r, hr, heq⟩ := dispatchFindRequest_eq P h hread
      exact ⟨_, r, .reads hr hwrite, heq⟩
    · rw [if_pos hwrite]
      have hstarved : QueueOk { s with starved := s.starved + 1 } :=
        h.congr rfl rfl rfl fun _ => rfl
      simp only
      split
      · obtain ⟨r, hr, heq⟩ := dispatchWrites_eq P hstarved hwrite
        exact ⟨_, r, .writes hr, heq⟩
      · rename_i hlt
        obtain ⟨r, hr, heq⟩ := dispatchFindRequest_eq P hstarved hread
        exact ⟨_, r, .starve hr hwrite (not_le.mp hlt), heq⟩

/-- One request is chosen, or there is none. No `BUG_ON` is reached. -/
theorem deadlineDispatchRequests_choice (P : Platform) (h : QueueOk s) :
    (s.fifoList .read = [] ∧ s.fifoList .write = [] ∧
      deadlineDispatchRequests P s = some (false, s)) ∨
    ∃ t r, Choice s t r ∧ deadlineDispatchRequests P s = some (dispatchRequest P t r) := by
  unfold deadlineDispatchRequests
  cases hn : (s.nextRq .write).or (s.nextRq .read) with
  | none => exact dispatchSelect_choice P h
  | some r =>
    simp only
    split
    · rename_i hbatch
      exact .inr ⟨s, r, .goOn hn hbatch, rfl⟩
    · exact dispatchSelect_choice P h

/-- A queued request is dispatched. -/
def Dispatches (P : Platform) (s : State) (o : Option (Bool × State)) : Prop :=
  ∃ t d, ∃ r ∈ s.fifoList d, o = some (true, deadlineMoveRequest P t r) ∧ t.queues = s.queues

theorem deadlineDispatchRequests_cases (P : Platform) (h : QueueOk s) :
    (s.fifoList .read = [] ∧ s.fifoList .write = [] ∧
      deadlineDispatchRequests P s = some (false, s)) ∨
    Dispatches P s (deadlineDispatchRequests P s) := by
  rcases deadlineDispatchRequests_choice P h with hnone | ⟨t, r, hc, heq⟩
  · exact .inl hnone
  · obtain ⟨d, hr⟩ := hc.mem h
    exact .inr ⟨{ t with batching := t.batching + 1 }, d, r, hr, heq, hc.queues⟩

/-! ## Runs -/

/-- The scheduler, with the requests that were added to it and those that were merged away. -/
structure Ledger where
  dd : State
  added : List Nat
  mergedAway : List Nat

namespace Ledger

/-- A bio joins a request, before the scheduler is told. -/
def bioMerged (r : Request) (type : MergeType) (bio : Bio) : Request :=
  match type with
  | .front => { r with bios := bio :: r.bios, bytes := r.bytes + bio.biSize, pos := bio.biSector }
  | .back => { r with bios := r.bios ++ [bio], bytes := r.bytes + bio.biSize }

def setRq (s : State) (r : Nat) (rq : Request) : State :=
  { s with mem := { s.mem with rqs := Function.update s.mem.rqs r rq } }

inductive Event where
  | add (r : Nat)
  | merged (r : Nat) (type : MergeType) (bio : Bio)
  /-- The bios of `next` join `r`, and `next` is a goner. -/
  | mergedRequests (r next : Nat)
  | dispatch
  | tick (jiffies : Int)

/-- A request is added once, and merged while it is queued; only requests of one direction are merged
with each other. -/
def step (P : Platform) (w : Ledger) : Event → Option Ledger
  | .add r =>
    if r ∉ w.added then
      some { w with dd := deadlineAddRequest P w.dd r, added := w.added ++ [r] }
    else none
  | .merged r type bio =>
    if r ∈ w.dd.fifoList (w.dd.dir r) then
      let dd := setRq w.dd r (bioMerged (w.dd.rq r) type bio)
      some { w with dd := deadlineMergedRequest dd r type }
    else none
  | .mergedRequests r next =>
    if r ∈ w.dd.fifoList (w.dd.dir r) ∧ next ∈ w.dd.fifoList (w.dd.dir r) ∧ next ≠ r then
      let dd := setRq w.dd r { w.dd.rq r with
        bios := (w.dd.rq r).bios ++ (w.dd.rq next).bios
        bytes := (w.dd.rq r).bytes + (w.dd.rq next).bytes }
      some { w with
        dd := deadlineMergedRequests P dd r next
        mergedAway := w.mergedAway ++ [next] }
    else none
  | .dispatch => (deadlineDispatchRequests P w.dd).map fun x => { w with dd := x.2 }
  | .tick jiffies => some { w with dd.mem.jiffies := jiffies }

def init (s : State) : Ledger := ⟨s, [], []⟩

variable {w w' : Ledger} {e : Event}

def queued (s : State) : Multiset Nat := s.fifoList .read + s.fifoList .write

theorem queued_update {fifo : List Nat} (h : s'.fifoList = Function.update s.fifoList d fifo) :
    queued s' + s.fifoList d = queued s + fifo := by
  unfold queued
  rw [h]
  cases d with
  | read =>
    rw [Function.update_self, Function.update_of_ne (by decide)]
    abel
  | write =>
    rw [Function.update_self, Function.update_of_ne (by decide)]
    abel

theorem queued_append (h : s'.fifoList = Function.update s.fifoList d (s.fifoList d ++ [r])) :
    queued s' = queued s + {r} := by
  have hupd := queued_update h
  rw [← Multiset.coe_add, ← add_assoc, add_right_comm] at hupd
  exact add_right_cancel hupd

theorem queued_erase (h : s'.fifoList = Function.update s.fifoList d ((s.fifoList d).erase r))
    (hr : r ∈ s.fifoList d) : queued s = queued s' + {r} := by
  have hupd := queued_update h
  have herase : ((s.fifoList d : List Nat) : Multiset Nat) =
      {r} + (((s.fifoList d).erase r : List Nat) : Multiset Nat) :=
    Multiset.coe_eq_coe.mpr (List.perm_cons_erase hr)
  rw [herase, ← add_assoc] at hupd
  exact (add_right_cancel hupd).symm

theorem QueueOk.mem_queued (h : QueueOk s) : r ∈ queued s ↔ r ∈ s.fifoList (s.dir r) := by
  unfold queued
  rw [Multiset.mem_add, Multiset.mem_coe, Multiset.mem_coe]
  constructor
  · rintro (hr | hr)
    · rw [h.dir _ r hr]
      exact hr
    · rw [h.dir _ r hr]
      exact hr
  · intro hr
    cases hd : s.dir r with
    | read => exact .inl (hd ▸ hr)
    | write => exact .inr (hd ▸ hr)

/-- Every request that was added is in one place. -/
structure Accounted (w : Ledger) : Prop where
  queues : QueueOk w.dd
  nodup : w.added.Nodup
  places : (w.added : Multiset Nat) = queued w.dd + w.dd.dispatched + w.mergedAway

theorem setRq_dir {rq : Request} (hw : rq.write = (s.rq r).write) (x : Nat) :
    (setRq s r rq).dir x = s.dir x := by
  unfold State.dir State.rq setRq rqDataDir
  by_cases hx : x = r
  · subst hx
    simp only [Function.update_self, hw]
    rfl
  · simp only [Function.update_of_ne hx]

theorem setRq_ok {rq : Request} (h : QueueOk s) (hw : rq.write = (s.rq r).write) :
    QueueOk (setRq s r rq) :=
  h.congr rfl rfl rfl (setRq_dir hw)

theorem add_accounted (P : Platform) (h : Accounted w) (hr : r ∉ w.added) :
    Accounted { w with dd := deadlineAddRequest P w.dd r, added := w.added ++ [r] } := by
  have hnew : r ∉ w.dd.fifoList (w.dd.dir r) := by
    intro hmem
    apply hr
    rw [← Multiset.mem_coe, h.places]
    simp [(QueueOk.mem_queued h.queues).mpr hmem]
  refine ⟨deadlineAddRequest_ok h.queues hnew, ?_, ?_⟩
  · exact List.nodup_append.mpr ⟨h.nodup, List.nodup_singleton r, fun a ha b hb hab =>
      hr (List.mem_singleton.mp hb ▸ hab ▸ ha)⟩
  · have hq : queued (deadlineAddRequest P w.dd r) = queued w.dd + {r} :=
      queued_append (d := w.dd.dir r) rfl
    have hdisp : (deadlineAddRequest P w.dd r).dispatched = w.dd.dispatched := rfl
    rw [hq, hdisp, ← Multiset.coe_add, h.places, Multiset.coe_singleton]
    abel

theorem merged_accounted (h : Accounted w) (hr : r ∈ w.dd.fifoList (w.dd.dir r)) (type : MergeType)
    {rq : Request} (hw : rq.write = (w.dd.rq r).write) :
    Accounted { w with dd := deadlineMergedRequest (setRq w.dd r rq) r type } := by
  have hqueued : r ∈ (setRq w.dd r rq).fifoList ((setRq w.dd r rq).dir r) := by
    rw [setRq_dir hw]
    exact hr
  refine ⟨deadlineMergedRequest_ok (setRq_ok h.queues hw) hqueued type, h.nodup, ?_⟩
  cases type with
  | front => exact h.places
  | back => exact h.places

theorem mergedRequests_accounted (P : Platform) (h : Accounted w)
    (hr : r ∈ w.dd.fifoList (w.dd.dir r)) (hnext : next ∈ w.dd.fifoList (w.dd.dir r))
    (hne : next ≠ r) {rq : Request} (hw : rq.write = (w.dd.rq r).write) :
    Accounted ⟨deadlineMergedRequests P (setRq w.dd r rq) r next, w.added,
      w.mergedAway ++ [next]⟩ := by
  have hdir := setRq_dir hw
  have hr' : r ∈ (setRq w.dd r rq).fifoList ((setRq w.dd r rq).dir r) := by
    rw [hdir]
    exact hr
  have hnext' : next ∈ (setRq w.dd r rq).fifoList ((setRq w.dd r rq).dir r) := by
    rw [hdir]
    exact hnext
  obtain ⟨t, heq, hok, hperm, htdir, hdisp⟩ :=
    deadlineMergedRequests_eq P (setRq_ok h.queues hw) hr' hnext' hne
  have htqueued : queued t = queued w.dd := by
    unfold queued
    rw [Multiset.coe_eq_coe.mpr (hperm .read), Multiset.coe_eq_coe.mpr (hperm .write)]
    rfl
  have htnext : next ∈ t.fifoList (t.dir next) := by
    rw [htdir, hdir, h.queues.dir _ next hnext, (hperm _).mem_iff]
    exact hnext
  have hremoved := queued_erase (deadlineRemoveRequest_fifoList t next) htnext
  have hdisp' : (deadlineRemoveRequest t next).dispatched = w.dd.dispatched := by
    rw [deadlineRemoveRequest_eq]
    exact hdisp
  refine ⟨?_, h.nodup, ?_⟩
  · rw [heq]
    exact deadlineRemoveRequest_ok hok next
  · rw [heq, hdisp', h.places, ← htqueued, hremoved, ← Multiset.coe_add, Multiset.coe_singleton]
    abel

theorem dispatch_accounted (P : Platform) (h : Accounted w) {o : Bool × State}
    (ho : deadlineDispatchRequests P w.dd = some o) : Accounted { w with dd := o.2 } := by
  rcases deadlineDispatchRequests_cases P h.queues with ⟨-, -, hnone⟩ | ⟨t, d, r, hr, heq, hq⟩
  · rw [hnone] at ho
    cases ho
    exact h
  · rw [heq] at ho
    cases ho
    have ht := h.queues.of_queues hq
    obtain ⟨hfifo, -, -, hdisp, -⟩ := State.queues_eq_iff.mp hq
    rw [← hfifo] at hr
    rw [← ht.dir d r hr] at hr
    obtain ⟨hok, hmoved, hdispatched⟩ := deadlineMoveRequest_ok P ht r
    have hqueued : queued w.dd = queued t := by
      unfold queued
      rw [hfifo]
    refine ⟨hok, h.nodup, ?_⟩
    rw [hdispatched, h.places, hqueued, queued_erase hmoved hr, hdisp, ← Multiset.coe_add,
      Multiset.coe_singleton]
    abel

theorem step_accounted (h : Accounted w) (hs : step P w e = some w') : Accounted w' := by
  cases e with
  | add r =>
    simp only [step, Option.ite_none_right_eq_some, Option.some.injEq] at hs
    exact hs.2 ▸ add_accounted P h hs.1
  | merged r type bio =>
    simp only [step, Option.ite_none_right_eq_some, Option.some.injEq] at hs
    have hw : (bioMerged (w.dd.rq r) type bio).write = (w.dd.rq r).write := by
      cases type with
      | front => rfl
      | back => rfl
    exact hs.2 ▸ merged_accounted h hs.1 type hw
  | mergedRequests r next =>
    simp only [step, Option.ite_none_right_eq_some, Option.some.injEq] at hs
    obtain ⟨⟨hr, hnext, hne⟩, rfl⟩ := hs
    exact mergedRequests_accounted P h hr hnext hne rfl
  | dispatch =>
    obtain ⟨o, ho, rfl⟩ := Option.map_eq_some_iff.mp hs
    exact dispatch_accounted P h ho
  | tick jiffies =>
    cases hs
    exact ⟨h.queues.congr rfl rfl rfl fun _ => rfl, h.nodup, h.places⟩

/-- No request is queued and none was dispatched; the settings may be any. -/
structure Idle (s : State) : Prop where
  fifoList : ∀ d, s.fifoList d = []
  sortList : ∀ d, s.sortList d = []
  nextRq : ∀ d, s.nextRq d = none
  dispatched : s.dispatched = []

theorem deadlineInitQueue_idle (P : Platform) (m : Mem) (env : Env) (magic : BitVec 8) :
    Idle (deadlineInitQueue P m env magic) := ⟨fun _ => rfl, fun _ => rfl, fun _ => rfl, rfl⟩

theorem init_accounted (h : Idle s) : Accounted (init s) := by
  refine ⟨⟨fun d => ?_, fun d => ?_, fun d r hr => ?_, fun d r hr => ?_, .inl (h.nextRq _)⟩,
    List.nodup_nil, ?_⟩
  · simp [init, h.fifoList]
  · simp [init, h.fifoList, h.sortList]
  · simp [init, h.fifoList] at hr
  · simp [init, h.nextRq] at hr
  · simp [init, queued, h.fifoList, h.dispatched]

/-- In every run the two structures of a direction hold the same requests, once each, and at most one
`next_rq` is set, to one of them. So the next dispatch reaches no `BUG_ON` and returns 0 only if nothing
is queued; and a request that was not merged away is dispatched once, and queued until then. -/
theorem deadline_queues_agree (P : Platform) (s : State) (es : List Event) (w : Ledger) (h0 : Idle s)
    (h : run (step P) (init s) es = some w) :
    (∀ d, (w.dd.fifoList d).Nodup ∧ (w.dd.sortList d).Nodup ∧
      ∀ r, r ∈ w.dd.fifoList d ↔ r ∈ w.dd.sortList d) ∧
    (∀ d r, w.dd.nextRq d = some r → r ∈ w.dd.sortList d) ∧
    (w.dd.nextRq .read = none ∨ w.dd.nextRq .write = none) ∧
    (∃ issued s', deadlineDispatchRequests P w.dd = some (issued, s') ∧
      (issued = false ↔ w.dd.fifoList .read = [] ∧ w.dd.fifoList .write = [])) ∧
    (∀ r ∈ w.added, r ∉ w.mergedAway → w.dd.dispatched.count r ≤ 1 ∧
      (r ∉ w.dd.dispatched ↔ r ∈ w.dd.fifoList (w.dd.dir r))) := by
  have hw : Accounted w := run_invariant (I := Accounted)
    (fun _ _ _ hs hI => step_accounted hI hs) h (init_accounted h0)
  have hq := hw.queues
  refine ⟨fun d => ⟨hq.nodup d, (hq.perm d).nodup_iff.mpr (hq.nodup d), fun r => ?_⟩,
    fun d r hr => ?_, hq.one, ?_, fun r hr hm => ?_⟩
  · exact (hq.perm d).mem_iff.symm
  · exact (hq.perm d).mem_iff.mpr (hq.next d r hr)
  · rcases deadlineDispatchRequests_cases P hq with ⟨hread, hwrite, hnone⟩ | ⟨t, d, r, hr, heq, -⟩
    · exact ⟨_, _, hnone, by simp [hread, hwrite]⟩
    · refine ⟨_, _, heq, fun hfalse => (by cases hfalse), ?_⟩
      rintro ⟨hread, hwrite⟩
      cases d with
      | read => simp [hread] at hr
      | write => simp [hwrite] at hr
  · -- the places of the added requests are disjoint
    have hnd : (queued w.dd + w.dd.dispatched + w.mergedAway).Nodup := by
      rw [← hw.places]
      exact hw.nodup
    obtain ⟨hnd, -, -⟩ := Multiset.nodup_add.mp hnd
    obtain ⟨-, hdisp, hdisj⟩ := Multiset.nodup_add.mp hnd
    have hplace : r ∈ queued w.dd + w.dd.dispatched + w.mergedAway := by
      rw [← hw.places]
      exact hr
    refine ⟨List.nodup_iff_count_le_one.mp hdisp r, ?_⟩
    rw [← QueueOk.mem_queued hq]
    constructor
    · intro hnot
      simpa [hnot, hm] using hplace
    · intro hqueued hmem
      exact Multiset.disjoint_left.mp hdisj hqueued hmem

/-- Three reads: one takes a bio in front, two become one, and two are left to dispatch. -/
theorem deadline_queues_agree_three_reads :
    ∃ w, run (step .lp64) (init (deadlineInitQueue .lp64 sampleMem sampleEnv 7))
        [.add 3, .add 2, .add 1, .merged 3 .front ⟨none, 0, 4096⟩, .mergedRequests 1 2, .dispatch,
          .tick 100, .dispatch, .dispatch] = some w ∧
      (∀ d, (w.dd.fifoList d).Nodup ∧ (w.dd.sortList d).Nodup ∧
        ∀ r, r ∈ w.dd.fifoList d ↔ r ∈ w.dd.sortList d) ∧
      (∀ d r, w.dd.nextRq d = some r → r ∈ w.dd.sortList d) ∧
      (w.dd.nextRq .read = none ∨ w.dd.nextRq .write = none) ∧
      (∃ issued s', deadlineDispatchRequests .lp64 w.dd = some (issued, s') ∧
        (issued = false ↔ w.dd.fifoList .read = [] ∧ w.dd.fifoList .write = [])) ∧
      (∀ r ∈ w.added, r ∉ w.mergedAway → w.dd.dispatched.count r ≤ 1 ∧
        (r ∉ w.dd.dispatched ↔ r ∈ w.dd.fifoList (w.dd.dir r))) := by
  have h : (run (step .lp64) (init (deadlineInitQueue .lp64 sampleMem sampleEnv 7))
      [.add 3, .add 2, .add 1, .merged 3 .front ⟨none, 0, 4096⟩, .mergedRequests 1 2, .dispatch,
        .tick 100, .dispatch, .dispatch]).isSome = true := by
    decide +kernel
  obtain ⟨w, hw⟩ := Option.isSome_iff_exists.mp h
  exact ⟨w, hw, deadline_queues_agree .lp64 _ _ w (deadlineInitQueue_idle .lp64 sampleMem sampleEnv 7) hw⟩

end Ledger

end Deadline
end SplitSched
