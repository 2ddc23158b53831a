import SplitSched.Deadline.Sched
import SplitSched.Lib.Outstanding
import SplitSched.Lib.Run

/-!
# SplitSched.Deadline.DirtyPages

The pages of an inode that the split-deadline scheduler counts as dirty. A page is counted when the
first account dirties it, and the inode is remembered in its cause list; it is no longer counted when a
write with the list is dispatched, or else when the list is freed.

* `Tracked`, `step`: the scheduler with the cause lists that exist.
* `Counted`: the calls made for an inode balance the lists that remember it, and a list that remembers
  an inode has a callback, so that the scheduler hears when it is freed.
* `dirty_pages_counted`: this holds along every run.
-/

namespace SplitSched
namespace Deadline

variable {P : Platform} {s s' : State} {l : Nat}

/-! ## The dirty hook and the tag of a list -/

/-- The scheduler is told when the list is freed. -/
def Tagged (m : Mem) (l : Nat) : Prop :=
  (m.lists l).callbackQ ≠ none ∧ (m.lists l).schedUniq = m.schedUniq

theorem freeNotifies_iff (m : Mem) (l : Nat) : freeNotifies m l = true ↔ Tagged m l := by
  unfold freeNotifies Tagged isCurrent
  cases (m.lists l).callbackQ with
  | none => simp
  | some q => simp [eq_comm]

/-- The part of a cause list that ties it to a scheduler. -/
def causesTag (c : CauseList) : Option Nat × Int := (c.callbackQ, c.schedUniq)

theorem causeListAddId_tag (env : Env) (c : CauseList) (id : Int) :
    causesTag (causeListAddId env c id).2.1 = causesTag c := by
  unfold causeListAddId
  split
  · rfl
  · simp only
    split <;> rfl

theorem causeListCopyItems_tag (ids : List Int) : ∀ (env : Env) (c : CauseList),
    causesTag (causeListCopyItems env ids c).2.1 = causesTag c := by
  induction ids with
  | nil =>
    intro env c
    rfl
  | cons id ids ih =>
    intro env c
    exact (ih _ _).trans (causeListAddId_tag env c id)

theorem causeListAdd_tag (env : Env) (m : Mem) (l : Nat) (task : Task) :
    causesTag (causeListAdd env m l task).2.1 = causesTag (m.lists l) := by
  unfold causeListAdd
  cases task.causes with
  | none => exact causeListAddId_tag env _ _
  | some p => exact causeListCopyItems_tag _ env _

/-- The hook calls the scheduler for a list with its tag, and otherwise leaves the tag as it is. -/
theorem commitWriteHook_tag (env : Env) (m : Mem) (q l : Nat) (task : Task) (bSize : Nat) :
    ∃ c, (commitWriteHook env m q l task bSize).2.1 = m.setList l c ∧
      ((commitWriteHook env m q l task bSize).1 = true →
        c.callbackQ ≠ none ∧ c.schedUniq = m.schedUniq) ∧
      ((commitWriteHook env m q l task bSize).1 = false →
        causesTag c = causesTag (m.lists l)) := by
  have htag := causeListAdd_tag env m l task
  unfold commitWriteHook
  generalize causeListAdd env m l task = r at htag
  by_cases hadd : r.1 = 0
  · simp only [hadd, if_true]
    exact ⟨_, rfl, fun h => (by cases h), fun _ => htag⟩
  · simp only [hadd, if_false]
    by_cases hq : (setCauseListType r.2.1 .data).callbackQ = none
    · simp only [hq, if_true]
      refine ⟨_, rfl, fun _ => ⟨by simp, rfl⟩, fun h => ?_⟩
      simp [isCurrent] at h
    · simp only [hq, if_false]
      refine ⟨_, rfl, fun h => ⟨hq, ?_⟩, fun _ => htag⟩
      exact (of_decide_eq_true h).symm

/-! ## Counting -/

/-- The calls of `inode_inc_dirty_pages(inode, 1)` less those of `inode_dec_dirty_pages(inode, 1)`. -/
def pageBalance (s : State) (inode : Nat) : Int :=
  s.pageCalls.count (inode, 1) - s.pageCalls.count (inode, -1)

theorem pageBalance_append {num : Int} {i j : Nat} (hnum : num = 1 ∨ num = -1)
    (h : s'.pageCalls = s.pageCalls ++ [(j, num)]) :
    pageBalance s' i = pageBalance s i + if j = i then num else 0 := by
  unfold pageBalance
  rw [h]
  rcases hnum with rfl | rfl
  · by_cases hij : j = i
    · subst hij
      simp
      ring
    · simp [hij]
  · by_cases hij : j = i
    · subst hij
      simp
      ring
    · simp [hij]

/-- What the calls of the page counter leave alone, and what they record. -/
theorem inodeIncDirtyPages_spec (P : Platform) (s : State) (inode : Nat) (num : Int) :
    (inodeIncDirtyPages P s inode num).pageCalls = s.pageCalls ++ [(inode, num)] ∧
    (inodeIncDirtyPages P s inode num).inode = s.inode ∧
    (inodeIncDirtyPages P s inode num).mem.lists = s.mem.lists ∧
    (inodeIncDirtyPages P s inode num).mem.schedUniq = s.mem.schedUniq := by
  unfold inodeIncDirtyPages checkDirtyNumber
  simp only
  split_ifs <;> exact ⟨rfl, rfl, rfl, rfl⟩

theorem inodeDecDirtyPages_spec (P : Platform) (s : State) (inode : Nat) :
    (inodeDecDirtyPages P s inode 1).pageCalls = s.pageCalls ++ [(inode, -1)] ∧
    (inodeDecDirtyPages P s inode 1).inode = s.inode ∧
    (inodeDecDirtyPages P s inode 1).mem.lists = s.mem.lists ∧
    (inodeDecDirtyPages P s inode 1).mem.schedUniq = s.mem.schedUniq := by
  have hneg : P.int (-1) = -1 := P.int_fits _ (by norm_num) (by norm_num)
  have hspec := inodeIncDirtyPages_spec P s inode (P.int (-1))
  rw [hneg] at hspec
  unfold inodeDecDirtyPages
  rw [hneg]
  exact hspec

/-- What a list adds to the count of an inode. -/
def mark (s : State) (l i : Nat) : Int := if s.inode l = some i then 1 else 0

structure Counted (live : Finset Nat) (s : State) : Prop where
  balance : ∀ i, pageBalance s i = ∑ l ∈ live, mark s l i
  tagged : ∀ l ∈ live, s.inode l ≠ none → Tagged s.mem l

/-- Only the list `l` is worked on, and the calls make up for what it adds. -/
theorem Counted.change {live live' : Finset Nat} (h : Counted live s)
    (hlive : ∀ l', l' ≠ l → (l' ∈ live' ↔ l' ∈ live)) (hinode : ∀ l', l' ≠ l → s'.inode l' = s.inode l')
    (hlists : ∀ l', l' ≠ l → s'.mem.lists l' = s.mem.lists l')
    (huniq : s'.mem.schedUniq = s.mem.schedUniq)
    (hcalls : ∀ i, pageBalance s' i = pageBalance s i +
      ((if l ∈ live' then mark s' l i else 0) - if l ∈ live then mark s l i else 0))
    (htag : l ∈ live' → s'.inode l ≠ none → Tagged s'.mem l) : Counted live' s' := by
  refine ⟨fun i => ?_, fun l' hl' hi => ?_⟩
  · rw [hcalls, h.balance]
    refine (sum_change (f := fun l => mark s l i) (g := fun l => mark s' l i) hlive ?_).symm
    intro l' hl'
    unfold mark
    rw [hinode l' hl']
  · by_cases he : l' = l
    · subst he
      exact htag hl' hi
    · rw [hinode l' he] at hi
      unfold Tagged
      rw [hlists l' he, huniq]
      exact h.tagged l' ((hlive l' he).mp hl') hi

/-! ## One function after the other -/

section

variable {live : Finset Nat}

/-- A list that is tagged starts to remember the inode, if it does not remember one. -/
theorem deadlineCausesDirty_counted (h : Counted live s) (hl : l ∈ live) (htag : Tagged s.mem l)
    (inode : Nat) : Counted live (deadlineCausesDirty P s l inode) := by
  unfold deadlineCausesDirty
  cases hi : s.inode l with
  | some i => exact h
  | none =>
    obtain ⟨hcalls, hinode, hlists, huniq⟩ := inodeIncDirtyPages_spec P
      { s with inode := Function.update s.inode l (some inode) } inode 1
    refine h.change (l := l) (fun _ _ => Iff.rfl) (fun l' hl' => ?_) (fun l' _ => congrFun hlists l')
      huniq (fun i => ?_) fun _ _ => ?_
    · rw [hinode]
      exact Function.update_of_ne hl' _ _
    · rw [if_pos hl, if_pos hl]
      refine (pageBalance_append (s := s) (.inl rfl) hcalls).trans ?_
      unfold mark
      rw [hinode]
      by_cases hii : inode = i
      · subst hii
        simp [hi]
      · simp [hi, hii]
    · unfold Tagged
      rw [hlists, huniq]
      exact htag

theorem setList_counted (h : Counted live s) (c : CauseList) (env : Env)
    (htag : l ∈ live → s.inode l ≠ none → Tagged (s.mem.setList l c) l) :
    Counted live { s with mem := s.mem.setList l c, env := env } := by
  refine h.change (l := l) (fun _ _ => Iff.rfl) (fun _ _ => rfl) (fun l' hl' => ?_) rfl (fun i => ?_) htag
  · exact Mem.setList_lists_of_ne _ _ hl'
  · have hmark : mark { s with mem := s.mem.setList l c, env := env } l i = mark s l i := rfl
    rw [hmark, sub_self, add_zero]
    rfl

theorem dirtyBuffer_counted (h : Counted live s) (hl : l ∈ live) (q : Nat) (task : Task)
    (bSize inode : Nat) : Counted live (dirtyBuffer P s q l task bSize inode) := by
  obtain ⟨c, hmem, htrue, hfalse⟩ := commitWriteHook_tag s.env s.mem q l task bSize
  unfold dirtyBuffer
  simp only [hmem]
  generalize (commitWriteHook s.env s.mem q l task bSize).2.2 = env
  by_cases hcalled : (commitWriteHook s.env s.mem q l task bSize).1 = true
  · rw [if_pos hcalled]
    have htag : Tagged (s.mem.setList l c) l := by
      unfold Tagged
      rw [Mem.setList_lists_self]
      exact htrue hcalled
    exact deadlineCausesDirty_counted (setList_counted h c env fun _ _ => htag) hl htag inode
  · rw [if_neg hcalled]
    refine setList_counted h c env fun _ hi => ?_
    obtain ⟨hq, hu⟩ := h.tagged l hl hi
    obtain ⟨hcq, hcu⟩ := Prod.mk.inj (hfalse (Bool.eq_false_of_not_eq_true hcalled))
    unfold Tagged
    rw [Mem.setList_lists_self, hcq, hcu]
    exact ⟨hq, hu⟩

/-- A dispatched list is forgotten, and its page is no longer counted. -/
theorem decDirtyForCauses_counted (h : Counted live s) (hl : l ∈ live) :
    Counted live (decDirtyForCauses P s l) := by
  unfold decDirtyForCauses
  cases hi : s.inode l with
  | none =>
    refine h.change (l := l) (fun _ _ => Iff.rfl) (fun l' hl' => Function.update_of_ne hl' _ _)
      (fun l' hl' => Mem.setList_lists_of_ne _ _ hl') rfl (fun i => ?_) fun _ hn => ?_
    · rw [if_pos hl, if_pos hl]
      simp [mark, hi]
      rfl
    · simp at hn
  | some inode =>
    obtain ⟨hcalls, hinode, hlists, huniq⟩ := inodeDecDirtyPages_spec P s inode
    refine h.change (l := l) (fun _ _ => Iff.rfl) (fun l' hl' => ?_) (fun l' hl' => ?_) huniq
      (fun i => ?_) fun _ hn => ?_
    · simp only [Function.update_of_ne hl', hinode]
    · simp only [Mem.setList_lists_of_ne _ _ hl', hlists]
    · rw [if_pos hl, if_pos hl]
      refine (pageBalance_append (.inr rfl) hcalls).trans ?_
      by_cases hii : inode = i
      · subst hii
        simp [mark, hi]
      · simp [mark, hi, hii]
    · simp at hn

theorem foldl_decDirtyForCauses_counted {ls : List Nat} (hls : ∀ l ∈ ls, l ∈ live) : ∀ {s : State},
    Counted live s → Counted live (ls.foldl (decDirtyForCauses P) s) := by
  induction ls with
  | nil =>
    intro s h
    exact h
  | cons l ls ih =>
    intro s h
    rw [List.foldl_cons]
    exact ih (fun l' hl' => hls l' (List.mem_cons_of_mem l hl'))
      (decDirtyForCauses_counted h (hls l List.mem_cons_self))

/-- The cause lists of a request. -/
def rqLists (rq : Request) : List Nat := rq.bios.flatMap fun bio => bio.cll.elim [] (·.items)

/-- The two loops go over the lists of the request, one after the other. -/
theorem inodeDecDirtyForSubmittedRq_eq (P : Platform) (s : State) (r : Nat) :
    inodeDecDirtyForSubmittedRq P s r =
      if s.dir r = .read then s else (rqLists (s.rq r)).foldl (decDirtyForCauses P) s := by
  unfold inodeDecDirtyForSubmittedRq rqLists
  rw [List.foldl_flatMap]
  congr 1
  refine congrArg (fun f => List.foldl f s (s.rq r).bios) (funext fun s => funext fun bio => ?_)
  cases bio.cll <;> rfl

theorem inodeDecDirtyForSubmittedRq_counted (h : Counted live s) {r : Nat}
    (hr : ∀ l ∈ rqLists (s.rq r), l ∈ live) : Counted live (inodeDecDirtyForSubmittedRq P s r) := by
  rw [inodeDecDirtyForSubmittedRq_eq]
  split
  · exact h
  · exact foldl_decDirtyForCauses_counted hr h

/-- What is dispatched is forgotten. -/
theorem foldl_decDirtyForCauses_inode (P : Platform) (ls : List Nat) : ∀ (s : State) (l : Nat),
    (ls.foldl (decDirtyForCauses P) s).inode l = if l ∈ ls then none else s.inode l := by
  induction ls with
  | nil =>
    intro s l
    rfl
  | cons l' ls ih =>
    intro s l
    have hinode : (decDirtyForCauses P s l').inode = Function.update s.inode l' none := by
      unfold decDirtyForCauses
      cases s.inode l' with
      | none => rfl
      | some inode => simp only [(inodeDecDirtyPages_spec P s inode).2.1]
    rw [List.foldl_cons, ih, hinode]
    by_cases hl : l = l'
    · simp [hl]
    · simp [hl]

/-- A list that still remembers an inode is tagged, so the scheduler hears of its end. -/
theorem freeCauseList_counted (h : Counted live s) (hl : l ∈ live) :
    Counted (live.erase l) (freeCauseList P s l) := by
  have herase : ∀ l', l' ≠ l → (l' ∈ live.erase l ↔ l' ∈ live) := by
    intro l' hl'
    simp [hl']
  have hgone : l ∉ live.erase l := Finset.notMem_erase l live
  unfold freeCauseList deadlineCausesFree
  cases hi : s.inode l with
  | none =>
    rw [ite_self]
    refine h.change herase (fun _ _ => rfl) (fun _ _ => rfl) rfl (fun i => ?_)
      fun hl' => absurd hl' hgone
    rw [if_neg hgone, if_pos hl]
    simp [mark, hi]
  | some inode =>
    have hnotify : freeNotifies s.mem l = true :=
      (freeNotifies_iff s.mem l).mpr (h.tagged l hl (by simp [hi]))
    obtain ⟨hcalls, hinode, hlists, huniq⟩ := inodeDecDirtyPages_spec P s inode
    rw [if_pos hnotify]
    refine h.change herase (fun l' _ => congrFun hinode l') (fun l' _ => congrFun hlists l') huniq
      (fun i => ?_) fun hl' => absurd hl' hgone
    rw [if_neg hgone, if_pos hl, pageBalance_append (.inr rfl) hcalls]
    by_cases hii : inode = i
    · subst hii
      simp [mark, hi]
    · simp [mark, hi, hii]

end

/-! ## Runs -/

structure Tracked where
  dd : State
  /-- The cause lists that exist. -/
  live : Finset Nat

namespace Tracked

inductive Event where
  | new (l : Nat)
  /-- A task dirties a buffer of `inode` with the cause list `l`. -/
  | dirty (q l : Nat) (task : Task) (bSize inode : Nat)
  /-- The request `r`, as the block layer has built it, is moved to the dispatch queue. -/
  | submit (r : Nat) (rq : Request)
  | free (l : Nat)

/-- Only lists that exist are worked on. -/
def step (P : Platform) (w : Tracked) : Event → Option Tracked
  | .new l =>
    if l ∉ w.live then
      some ⟨{ w.dd with
        inode := Function.update w.dd.inode l none
        mem := w.dd.mem.setList l .new }, insert l w.live⟩
    else none
  | .dirty q l task bSize inode =>
    if l ∈ w.live then some { w with dd := dirtyBuffer P w.dd q l task bSize inode } else none
  | .submit r rq =>
    if ∀ l ∈ rqLists rq, l ∈ w.live then
      let dd := { w.dd with mem.rqs := Function.update w.dd.mem.rqs r rq }
      some { w with dd := deadlineMoveToDispatch P dd r }
    else none
  | .free l => if l ∈ w.live then some ⟨freeCauseList P w.dd l, w.live.erase l⟩ else none

variable {w w' : Tracked} {e : Event}

theorem new_counted (h : Counted w.live w.dd) (hl : l ∉ w.live) :
    Counted (insert l w.live) { w.dd with
      inode := Function.update w.dd.inode l none
      mem := w.dd.mem.setList l .new } := by
  refine h.change (l := l) (fun l' hl' => by simp [hl']) (fun l' hl' => Function.update_of_ne hl' _ _)
    (fun l' hl' => Mem.setList_lists_of_ne _ _ hl') rfl (fun i => ?_) fun _ hn => ?_
  · rw [if_neg hl]
    simp [mark]
    rfl
  · simp at hn

theorem deadlineRemoveRequest_eq (s : State) (r : Nat) : ∃ fifo sort next,
    deadlineRemoveRequest s r = { s with fifoList := fifo, sortList := sort, nextRq := next } := by
  unfold deadlineRemoveRequest deadlineDelRqRb rqFifoClear elvRbDel
  simp only
  split
  · exact ⟨_, _, _, rfl⟩
  · exact ⟨_, _, _, rfl⟩

theorem deadlineMoveToDispatch_counted {live : Finset Nat} (h : Counted live s) {r : Nat}
    (hr : ∀ l ∈ rqLists (s.rq r), l ∈ live) : Counted live (deadlineMoveToDispatch P s r) := by
  obtain ⟨fifo, sort, next, heq⟩ := deadlineRemoveRequest_eq s r
  have hremoved : Counted live (deadlineRemoveRequest s r) := by
    rw [heq]
    exact ⟨h.balance, h.tagged⟩
  have hsent : Counted live (inodeDecDirtyForSubmittedRq P (deadlineRemoveRequest s r) r) := by
    refine inodeDecDirtyForSubmittedRq_counted hremoved ?_
    rw [heq]
    exact hr
  exact ⟨hsent.balance, hsent.tagged⟩

theorem deadlineMoveToDispatch_inode {r : Nat} (hr : s.dir r = .write) {l : Nat}
    (hl : l ∈ rqLists (s.rq r)) : (deadlineMoveToDispatch P s r).inode l = none := by
  obtain ⟨fifo, sort, next, heq⟩ := deadlineRemoveRequest_eq s r
  have hdir : (deadlineRemoveRequest s r).dir r = .write := by
    rw [heq]
    exact hr
  have hlists : l ∈ rqLists ((deadlineRemoveRequest s r).rq r) := by
    rw [heq]
    exact hl
  change (inodeDecDirtyForSubmittedRq P (deadlineRemoveRequest s r) r).inode l = none
  rw [inodeDecDirtyForSubmittedRq_eq, hdir, if_neg (by decide), foldl_decDirtyForCauses_inode,
    if_pos hlists]

theorem step_counted (h : Counted w.live w.dd) (hs : step P w e = some w') :
    Counted w'.live w'.dd := by
  cases e with
  | new l =>
    simp only [step, Option.ite_none_right_eq_some, Option.some.injEq] at hs
    exact hs.2 ▸ new_counted h hs.1
  | dirty q l task bSize inode =>
    simp only [step, Option.ite_none_right_eq_some, Option.some.injEq] at hs
    exact hs.2 ▸ dirtyBuffer_counted h hs.1 q task bSize inode
  | submit r rq =>
    simp only [step, Option.ite_none_right_eq_some, Option.some.injEq] at hs
    obtain ⟨hlive, rfl⟩ := hs
    have hbuilt : Counted w.live { w.dd with mem.rqs := Function.update w.dd.mem.rqs r rq } :=
      ⟨h.balance, h.tagged⟩
    refine deadlineMoveToDispatch_counted hbuilt ?_
    simpa only [State.rq, Function.update_self] using hlive
  | free l =>
    simp only [step, Option.ite_none_right_eq_some, Option.some.injEq] at hs
    exact hs.2 ▸ freeCauseList_counted h hs.1

theorem run_counted (es : List Event) (h0 : Counted w.live w.dd)
    (h : run (step P) w es = some w') : Counted w'.live w'.dd :=
  run_invariant (I := fun w => Counted w.live w.dd) (fun _ _ _ hs hi => step_counted hi hs) h h0

/-- No list remembers an inode yet. -/
theorem counted_of_idle {live : Finset Nat} (hi : ∀ l, s.inode l = none) (hc : s.pageCalls = []) :
    Counted live s := by
  refine ⟨fun i => ?_, fun l _ hl => absurd (hi l) hl⟩
  unfold pageBalance mark
  simp [hi, hc]

theorem freeCauseList_calls {live : Finset Nat} (h : Counted live s) (hl : l ∈ live) :
    (freeCauseList P s l).pageCalls = s.pageCalls ++ (s.inode l).toList.map fun i => (i, -1) := by
  unfold freeCauseList deadlineCausesFree
  cases hi : s.inode l with
  | none => simp
  | some inode =>
    have hnotify := (freeNotifies_iff s.mem l).mpr (h.tagged l hl (by simp [hi]))
    rw [if_pos hnotify]
    exact (inodeDecDirtyPages_spec P s inode).1

/-- The pages counted for an inode are the lists that remember it, and each of these is taken back
once: a write that is dispatched leaves none of its lists to be counted, and the end of a list is
reported if and only if it still remembers its inode. -/
theorem dirty_pages_counted (P : Platform) (w w' : Tracked) (es : List Event)
    (h0 : ∀ l, w.dd.inode l = none) (hc : w.dd.pageCalls = []) (h : run (step P) w es = some w') :
    (∀ i, (w'.dd.pageCalls.count (i, 1) : Int) - w'.dd.pageCalls.count (i, -1) =
        (w'.live.filter fun l => w'.dd.inode l = some i).card) ∧
      (∀ l ∈ w'.live, w'.dd.inode l ≠ none → (w'.dd.mem.lists l).callbackQ ≠ none) ∧
      (∀ l ∈ w'.live, (freeCauseList P w'.dd l).pageCalls =
        w'.dd.pageCalls ++ (w'.dd.inode l).toList.map fun i => (i, -1)) ∧
      (∀ r rq w'', rqDataDir rq = .write → step P w' (.submit r rq) = some w'' →
        ∀ l ∈ rqLists rq, w''.dd.inode l = none) := by
  have hcounted := run_counted es (counted_of_idle h0 hc) h
  refine ⟨fun i => ?_, fun l hl hi => (hcounted.tagged l hl hi).1,
    fun l hl => freeCauseList_calls hcounted hl, fun r rq w'' hwrite hs l hl => ?_⟩
  · refine (hcounted.balance i).trans ?_
    unfold mark
    rw [Finset.sum_boole]
  · simp only [step, Option.ite_none_right_eq_some, Option.some.injEq] at hs
    obtain ⟨-, rfl⟩ := hs
    refine deadlineMoveToDispatch_inode ?_ ?_
    · simpa only [State.dir, State.rq, Function.update_self] using hwrite
    · simpa only [State.rq, Function.update_self] using hl

/-- Two buffers of inode 5, one dirtied by two tasks: the first is written, with its list twice in the
bio, and the second goes away with its page still dirty. -/
theorem dirty_pages_counted_two_buffers :
    ∃ w, run (step .lp64) ⟨deadlineInitQueue .lp64 sampleMem sampleEnv 7, ∅⟩
        [.new 1, .new 2, .dirty 0 1 ⟨7, none⟩ 4096 5, .dirty 0 1 ⟨8, none⟩ 4096 5,
          .dirty 0 2 ⟨7, none⟩ 4096 5, .submit 3 ⟨[⟨some ⟨9, 8192, [1, 1], 2⟩, 0, 8192⟩], true, 8192, 0, none⟩,
          .free 2] = some w ∧
      w.dd.pageCalls = [(5, 1), (5, 1), (5, -1), (5, -1)] ∧
      (∀ i, (w.dd.pageCalls.count (i, 1) : Int) - w.dd.pageCalls.count (i, -1) =
        (w.live.filter fun l => w.dd.inode l = some i).card) := by
  have h : ((run (step .lp64) ⟨deadlineInitQueue .lp64 sampleMem sampleEnv 7, ∅⟩
        [.new 1, .new 2, .dirty 0 1 ⟨7, none⟩ 4096 5, .dirty 0 1 ⟨8, none⟩ 4096 5,
          .dirty 0 2 ⟨7, none⟩ 4096 5, .submit 3 ⟨[⟨some ⟨9, 8192, [1, 1], 2⟩, 0, 8192⟩], true, 8192, 0, none⟩,
          .free 2]).any fun w => decide (w.dd.pageCalls = [(5, 1), (5, 1), (5, -1), (5, -1)])) = true := by
    decide +kernel
  obtain ⟨w, hw, hcalls⟩ := (Option.any_eq_true _ _).mp h
  refine ⟨w, hw, of_decide_eq_true hcalls, ?_⟩
  exact (dirty_pages_counted .lp64 _ w _ (fun _ => rfl) rfl hw).1

end Tracked

end Deadline
end SplitSched
