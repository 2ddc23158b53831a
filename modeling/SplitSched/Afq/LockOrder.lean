import SplitSched.Lib.LockOrder
import SplitSched.Afq.Locking

/-!
# SplitSched.Afq.LockOrder

The AFQ scheduler takes `afq_data->lock` after the lock of the request queue, or alone: `basic_sched_write_entry`
gives the first back before it takes the second. So its hooks cannot block each other for good, as long as none of
them keeps a lock (`SplitSched.Afq.Locking`).

* `hookCode_ordered`: the order, for every hook.
* `hooks_never_deadlock`: a hook that waits for a lock waits for one that can go on, perhaps through another. Where no
  hook can go on, all of them have returned or wait to be woken, and both locks are free.
-/

namespace SplitSched
namespace Afq
namespace Locking

open Locks Relation

def LockId.rank : LockId → Fin 2
  | .queue => 0
  | .afq => 1

variable {P : Platform} {held : Set LockId} {next : HookCode}

/-- The code keeps to the order, as long as the write hooks find their scheduler. -/
abbrev InOrder (P : Platform) (c : HookCode) (held : Set LockId) : Prop := c.Ordered (UniqGuard P) LockId.rank held

/-- Locks after which `afq_data->lock` may be taken. -/
def BelowAfq (held : Set LockId) : Prop := .afq ∉ held

theorem BelowAfq.rank (h : BelowAfq held) : ∀ l ∈ held, LockId.rank l < LockId.rank .afq := by
  intro l hl
  cases l with
  | queue => decide
  | afq => exact absurd hl h

theorem belowAfq_queue : BelowAfq {.queue} := by simp [BelowAfq]

theorem bracket_afq_ordered {f : State → Option State} {next : State → HookCode} (hl : BelowAfq held)
    (h : ∀ s, InOrder P (next s) held) :
    InOrder P (.lock .afq <| .act f fun s => .unlock .afq (next s)) held := .bracket hl hl.rank h

theorem wantDispatch_ordered {next : Int → HookCode} (hl : BelowAfq held) (h : ∀ r, InOrder P (next r) held) :
    InOrder P (wantDispatch next) held := by
  refine bracket_afq_ordered hl fun s => ?_
  split_ifs
  · exact h 0
  · exact h 1
  · refine .act fun now _ => ?_
    split
    · exact h 2
    · exact h 0

theorem submitIoWork_ordered (b : Nat) (hl : BelowAfq held) (h : InOrder P next held) :
    InOrder P (submitIoWork P b next) held :=
  .act fun _ _ => bracket_afq_ordered hl fun _ => .act fun _ _ => h

theorem dispatch_ordered {next : Int → HookCode} (hl : BelowAfq held) (h : ∀ r, InOrder P (next r) held) :
    InOrder P (dispatch P next) held := by
  refine wantDispatch_ordered hl fun ret => ?_
  split
  · exact h 0
  · refine .act fun s _ => ?_
    split
    · exact submitIoWork_ordered _ hl (h 1)
    · exact h 0

theorem blkRunQueue_ordered (runs : Nat) (hl : BelowAfq held) (h : InOrder P next held) :
    InOrder P (blkRunQueue P runs next) held := by
  induction runs with
  | zero => exact h
  | succ runs ih => exact dispatch_ordered hl fun _ => ih

/-- The queue is run with its lock held, which is then given back. -/
theorem blkRunQueue_unlock_ordered (runs : Nat) (h : InOrder P next ∅) :
    InOrder P (blkRunQueue P runs <| .unlock .queue next) {.queue} :=
  blkRunQueue_ordered runs belowAfq_queue (.unlock h)

/-- A lock that is taken alone. -/
theorem lock_alone_ordered {l : LockId} (h : InOrder P next {l}) : InOrder P (.lock l next) ∅ := by
  refine ⟨fun _ hl => absurd hl (Set.notMem_empty _), ?_⟩
  rw [insert_empty_eq]
  exact h

theorem block_ordered (work : WorkId) (acct : Int) (runs : Nat) : InOrder P (block P work acct runs) ∅ := by
  refine .act fun s _ => ?_
  split
  · exact .act fun _ _ => lock_alone_ordered (.act fun _ _ => blkRunQueue_unlock_ordered runs ⟨rfl, trivial⟩)
  · trivial

theorem writeEntryFor_ordered (n : Nat) (direct : Bool) (runs : Nat) (acct : Option Int) :
    InOrder P (writeEntryFor P n direct runs acct) ∅ := by
  unfold writeEntryFor
  cases acct with
  | none => trivial
  | some acct =>
    simp only
    split
    · trivial
    · refine .act fun _ _ => .act fun s _ => ?_
      split
      · exact .act fun _ _ => trivial
      · exact .act fun _ _ => block_ordered _ _ _

theorem writeEntry_ordered (n : Nat) (cur : Int) (direct : Bool) (uniq : Int) (runs : Nat) :
    InOrder P (writeEntry P n cur direct uniq runs) ∅ := by
  refine lock_alone_ordered (.act fun s hg => ?_)
  rw [if_pos (hg n cur direct uniq runs rfl)]
  exact .unlock (writeEntryFor_ordered n direct runs _)

theorem mkdirEntry_ordered (n : Nat) (cur uniq : Int) (runs : Nat) :
    InOrder P (mkdirEntry P n cur uniq runs) ∅ := by
  refine lock_alone_ordered (.act fun s _ => .unlock ?_)
  split
  · split
    · trivial
    · split
      · trivial
      · refine .act fun s _ => ?_
        split
        · trivial
        · exact block_ordered _ _ _
  · trivial

theorem fsyncEntry_ordered (n : Nat) (cur uniq : Int) (runs : Nat) :
    InOrder P (fsyncEntry P n cur uniq runs) ∅ := by
  refine .act fun s _ => ?_
  split
  · refine lock_alone_ordered (.act fun s _ => ?_)
    split
    · split
      · exact .unlock trivial
      · split
        · exact .unlock trivial
        · exact .act fun _ _ => .act fun _ _ => blkRunQueue_unlock_ordered runs ⟨rfl, trivial⟩
    · exact .unlock trivial
  · trivial

theorem decCheckCleanup_ordered (current : Bool) (b : Nat) (hl : BelowAfq held) (h : InOrder P next held) :
    InOrder P (decCheckCleanup current b next) held := by
  refine .act fun s _ => ?_
  split
  · split
    · exact bracket_afq_ordered hl fun _ => .act fun _ _ => h
    · exact .act fun _ _ => h
  · exact h

theorem schedReturnCode_ordered (work : Option WorkId) (uniq : Int) :
    InOrder P (schedReturnCode work uniq) ∅ := by
  cases work with
  | none => trivial
  | some work =>
    refine lock_alone_ordered (.act fun s _ => ?_)
    split
    · exact .unlock trivial
    · exact decCheckCleanup_ordered _ _ belowAfq_queue (.unlock trivial)

theorem complteRequest_ordered (rq : Nat) : InOrder P (complteRequest rq) {.queue} := by
  refine .act fun _ _ => .act fun s _ => ?_
  split
  · trivial
  · exact decCheckCleanup_ordered _ _ belowAfq_queue trivial

theorem locked_ordered (l : LockId) (f : State → State) : InOrder P (locked l f) ∅ :=
  lock_alone_ordered (.act fun _ _ => .unlock trivial)

theorem hookCode_ordered (h : Hook) : InOrder P (hookCode P h) {l | l ∈ hookBase h} := by
  have hnil : {l : LockId | l ∈ ([] : List LockId)} = ∅ := by simp
  have hqueue : {l : LockId | l ∈ [LockId.queue]} = {.queue} := by simp
  cases h with simp only [hookBase, hnil, hqueue]
  | writeEntry n cur direct uniq runs => exact writeEntry_ordered n cur direct uniq runs
  | mkdirEntry n cur uniq runs => exact mkdirEntry_ordered n cur uniq runs
  | fsyncEntry n cur uniq runs => exact fsyncEntry_ordered n cur uniq runs
  | writeReturn n uniq => exact schedReturnCode_ordered _ uniq
  | mkdirReturn n uniq => exact schedReturnCode_ordered _ uniq
  | fsyncReturn n uniq => exact schedReturnCode_ordered _ uniq
  | dispatch => exact dispatch_ordered belowAfq_queue fun _ => trivial
  | add rq cur => exact fun _ _ => trivial
  | complete rq => exact complteRequest_ordered rq
  | causesDirty l newId inode pos => exact fun _ _ => trivial
  | causesFree l => exact fun _ _ => trivial
  | waitTimer => exact locked_ordered _ _
  | deadTimer => exact locked_ordered _ _
  | kvSet id key val => exact locked_ordered _ _
  | schedThread runs => exact lock_alone_ordered (blkRunQueue_unlock_ordered runs trivial)
  | minThread => exact locked_ordered _ _

theorem run_in_order {s : State} {es : List (Locks.Event Hook Mem)} {m : Machine State LockId Int}
    (h : run (step P) (.init s) es = some m) (hg : Meets (step P) (Guarded (UniqGuard P)) (.init s) es) :
    m.Disciplined (UniqGuard P) ∧ m.InOrder (UniqGuard P) LockId.rank :=
  run_invariant_of_meets (I := fun m => m.Disciplined (UniqGuard P) ∧ m.InOrder (UniqGuard P) LockId.rank)
    (fun m e m' hs hg hI => ⟨step_disciplined hookCode_releases m e m' hs hg hI.1,
      step_in_order hookCode_ordered m e m' hs hg hI.1 hI.2⟩)
    h hg ⟨Machine.init_disciplined s, Machine.init_in_order s⟩

/-- Hooks called at any time with any arguments, of which none finds another scheduler than its own: one that has
neither returned nor waits to be woken can go on, or the hook that has the lock it wants can, or that one wants a lock
whose owner can; or the hook at the end of this chain faults. So where no hook can go on, all have returned or wait
to be woken, and both locks are free, or a hook faults. -/
theorem hooks_never_deadlock (P : Platform) (s : State) (es : List (Locks.Event Hook Mem))
    (m : Machine State LockId Int) (h : run (step P) (.init s) es = some m)
    (hg : Meets (step P) (Guarded (UniqGuard P)) (.init s) es) :
    (∀ t th, m.threads[t]? = some th → ¬th.code.AtRest →
      ∃ u, ReflTransGen m.WaitsFor t u ∧ ((∃ m', step P m (.move u) = some m') ∨ m.FaultsAt u)) ∧
    ((∀ t, step P m (.move t) = none) → m.Quiet ∨ ∃ t, m.FaultsAt t) := by
  obtain ⟨hd, ho⟩ := run_in_order h hg
  constructor
  · intro t th ht hrest
    obtain ⟨u, hchain, hu⟩ := Machine.thread_goes_on hd ho ht hrest
    exact ⟨u, hchain, hu.imp_left goesOn_iff.mp⟩
  · intro hhalt
    refine Machine.halted_quiet hd ho fun t hgoes => ?_
    obtain ⟨m', hm'⟩ := goesOn_iff.mp hgoes
    cases (hhalt t).symm.trans hm'

theorem uniqGuard_lock {l : LockId} {next : HookCode} {s : State} : UniqGuard P (.lock l next) s := by
  intro n cur direct uniq runs hcode
  cases hcode

/-- The scheduler thread has the lock of the queue and wants `afq_data->lock`, which the timer has; the other thread
wants the lock of the queue. -/
def queueRun : List (Locks.Event Hook Mem) :=
  [.call (.schedThread 1), .move 0, .call .waitTimer, .move 1, .call .minThread]

/-- The third hook waits for the first, which waits for the second, which can go on. -/
theorem hooks_never_deadlock_chain :
    ∃ s m, basicSchedInitData .lp64 sampleMem sampleEnv = some s ∧ run (step .lp64) (.init s) queueRun = some m ∧
      m.WaitsFor 2 0 ∧ m.WaitsFor 0 1 ∧ step .lp64 m (.move 2) = none ∧ step .lp64 m (.move 0) = none ∧
      ∃ u, ReflTransGen m.WaitsFor 2 u ∧ ((∃ m', step .lp64 m (.move u) = some m') ∨ m.FaultsAt u) := by
  obtain ⟨s, hs⟩ := Option.isSome_iff_exists.mp
    (show (basicSchedInitData .lp64 sampleMem sampleEnv).isSome = true by decide +kernel)
  obtain ⟨m, hm⟩ : ∃ m, run (step .lp64) (.init s) queueRun = some m := ⟨_, rfl⟩
  have hmeets : Meets (step .lp64) (Guarded (UniqGuard .lp64)) (.init s) queueRun := by
    refine ⟨trivial, fun m₁ h₁ => ?_⟩
    obtain rfl := Option.some.inj h₁
    refine ⟨fun th hth => ?_, fun m₂ h₂ => ?_⟩
    · obtain rfl := Option.some.inj hth
      exact uniqGuard_lock
    obtain rfl := Option.some.inj h₂
    refine ⟨trivial, fun m₃ h₃ => ?_⟩
    obtain rfl := Option.some.inj h₃
    refine ⟨fun th hth => ?_, fun _ _ => ⟨trivial, fun _ _ => trivial⟩⟩
    obtain rfl := Option.some.inj hth
    exact uniqGuard_lock
  cases hm
  exact ⟨s, _, hs, rfl, ⟨_, _, _, rfl, rfl⟩, ⟨_, _, _, rfl, rfl⟩, rfl, rfl,
    (hooks_never_deadlock .lp64 s queueRun _ rfl hmeets).1 2 _ rfl id⟩

end Locking
end Afq
end SplitSched
