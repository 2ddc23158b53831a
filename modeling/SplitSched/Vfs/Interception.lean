import Mathlib.Data.List.Perm.Basic
import Mathlib.Data.List.Count
import Mathlib.Tactic

/-!
# SplitSched.Vfs.Interception

The system calls that the scheduler intercepts, as the patches of Linux 4.5 leave them. Each call takes a
reference on the scheduler's module, runs an entry hook, does its work and runs a return hook.

* `vfsWrite`, `vfsFsyncRange`, `vfsCreate`, `vfsMkdir`: the calls, over the outcome of every function they
  call. They record what they do to the scheduler (`Call`).
* `Balanced`: the hooks and the references of one call come in pairs.
* `interception_balanced_iff`: every call is balanced but a `vfs_mkdir` in a directory with too many links.
* `references_left`: what is left of the references when any calls have finished, in any interleaving.
-/

namespace SplitSched
namespace Vfs

/-! ## The elevator -/

/-- The system calls with hooks. -/
inductive Syscall where
  | read
  | write
  | fsync
  | mkdir
  | create
  deriving DecidableEq, Repr

/-- What a call of an entry hook results in: its value, and the pointer it leaves in `*opaque`. -/
structure EntryResult where
  ret : Int
  ptr : Option Nat
  deriving DecidableEq, Repr

/-- The hooks of `struct elevator_ops` that are set. -/
structure ElevatorOps where
  entryFn : Syscall → Option EntryResult
  returnFn : Syscall → Bool

structure ElevatorType where
  elevatorOwner : Option Nat
  /-- Whether `try_module_get` succeeds. -/
  tryModuleGet : Bool
  ops : ElevatorOps

structure RequestQueue where
  id : Nat
  /-- `elevator->type`; the outer `none` is a queue without an elevator. -/
  elevator : Option (Option ElevatorType)
  schedUniq : Int

structure SuperBlock where
  typeName : Option String
  /-- `s_bdev`, and the queue of the device. -/
  bdev : Option (Option RequestQueue)

structure Inode where
  isReg : Bool
  isDir : Bool
  iSb : Option SuperBlock
  /-- `btrfs_inode_to_bdev`, and the queue of the device. -/
  btrfsBdev : Option (Option RequestQueue)

structure File where
  /-- `f_mapping->host`. -/
  fMapping : Option (Option Inode)

/-- `struct elevator_syscall_ops`. -/
structure ElevatorSyscallOps extends ElevatorOps where
  schedUniq : Int

/-- After `memset`. -/
def ElevatorSyscallOps.zero : ElevatorSyscallOps := ⟨⟨fun _ => none, fun _ => false⟩, 0⟩

/-- What `get_elevator_call_info` hands back. -/
structure CallInfo where
  rq : Option RequestQueue
  module : Option Nat
  sops : ElevatorSyscallOps

def CallInfo.skip : CallInfo := ⟨none, none, .zero⟩

/-! ## The calls -/

/-- What a system call does to the scheduler. -/
inductive Call where
  | moduleGet (module : Nat)
  | modulePut (module : Nat)
  | entry (call : Syscall) (rq : Option Nat) (result : EntryResult) (schedUniq : Int)
  | ret (call : Syscall) (rq : Option Nat) (ptr : Option Nat) (rv : Int) (schedUniq : Int)
  /-- `BUG_ON(!module)`. -/
  | bug
  deriving DecidableEq, Repr

abbrev Kernel := StateM (List Call)

def log (c : Call) : Kernel Unit := modify (· ++ [c])

/-- The value of `m` and what is recorded, after `tr`. -/
def after {α : Type} (m : Kernel α) (tr : List Call) : α × List Call := (StateT.run m tr).run

section

variable {α β : Type} (tr : List Call)

@[simp] theorem after_pure (a : α) : after (pure a) tr = (a, tr) := rfl

@[simp] theorem after_bind (m : Kernel α) (f : α → Kernel β) :
    after (m >>= f) tr = after (f (after m tr).1) (after m tr).2 := rfl

@[simp] theorem after_map (m : Kernel α) (f : α → β) :
    after (f <$> m) tr = (f (after m tr).1, (after m tr).2) := rfl

@[simp] theorem after_log (c : Call) : after (log c) tr = ((), tr ++ [c]) := rfl

end

def inodeToRequestQueue (inode : Option Inode) : Option RequestQueue := do
  let inode ← inode
  guard (inode.isReg || inode.isDir)
  let sb ← inode.iSb
  let queue ← if sb.typeName = some "btrfs" then inode.btrfsBdev else sb.bdev
  let rq ← queue
  let elevator ← rq.elevator
  let _ ← elevator
  return rq

def getElevatorCallInfoFromInode (inode : Option Inode) : Kernel CallInfo :=
  match inodeToRequestQueue inode with
  | none => return .skip
  | some rq =>
    match rq.elevator.join with
    -- a queue without an elevator is not returned
    | none => return .skip
    | some type =>
      match type.elevatorOwner with
      | none => return .skip
      | some module => do
        if type.tryModuleGet then
          log (.moduleGet module)
          return ⟨some rq, some module, ⟨type.ops, rq.schedUniq⟩⟩
        else return .skip

def getElevatorCallInfo (filp : Option File) : Kernel CallInfo :=
  match filp.bind fun f => f.fMapping.join with
  | none => return .skip
  | some host => getElevatorCallInfoFromInode (some host)

/-- "intercept entry": the error of the hook, or the pointer to hand to the return hook. -/
def interceptEntry (call : Syscall) (info : CallInfo) : Kernel (Except Int (Option Nat)) :=
  match info.sops.entryFn call with
  | none => return .ok none
  | some result => do
    log (.entry call (info.rq.map (·.id)) result info.sops.schedUniq)
    if result.ret ≠ 0 then
      match info.module with
      | none => log .bug
      | some module => log (.modulePut module)
      return .error result.ret
    else return .ok result.ptr

/-- "intercept exit". -/
def interceptExit (call : Syscall) (info : CallInfo) (ptr : Option Nat) (rv : Int) : Kernel Unit := do
  if info.sops.returnFn call then
    log (.ret call (info.rq.map (·.id)) ptr rv info.sops.schedUniq)
  match info.module with
  | none => return
  | some module => log (.modulePut module)

def eperm : Int := 1
def ebadf : Int := 9
def eacces : Int := 13
def efault : Int := 14
def einval : Int := 22
def emlink : Int := 31

/-- A call of `vfs_write`, with the outcome of what it calls. -/
structure WriteCall where
  file : File
  fmodeWrite : Bool
  fmodeCanWrite : Bool
  accessOk : Bool
  rwVerifyArea : Int
  /-- `__vfs_write`. -/
  written : Int

def vfsWrite (c : WriteCall) : Kernel Int := do
  if c.fmodeWrite = false then return -ebadf
  if c.fmodeCanWrite = false then return -einval
  if c.accessOk = false then return -efault
  let info ← getElevatorCallInfo (some c.file)
  match ← interceptEntry .write info with
  | .error ret => return ret
  | .ok ptr =>
    let ret := if 0 ≤ c.rwVerifyArea then c.written else c.rwVerifyArea
    interceptExit .write info ptr ret
    return ret

structure FsyncCall where
  file : File
  /-- `f_op->fsync`, if it is set. -/
  fsync : Option Int

def vfsFsyncRange (c : FsyncCall) : Kernel Int :=
  match c.fsync with
  | none => return -einval
  | some synced => do
    let info ← getElevatorCallInfo (some c.file)
    match ← interceptEntry .fsync info with
    | .error rv => return rv
    | .ok ptr =>
      interceptExit .fsync info ptr synced
      return synced

structure CreateCall where
  dir : Inode
  mayCreate : Int
  securityInodeCreate : Int
  /-- `i_op->create`, if it is set. -/
  create : Option Int

def vfsCreate (c : CreateCall) : Kernel Int := do
  let info ← getElevatorCallInfoFromInode (some c.dir)
  match ← interceptEntry .create info with
  | .error error => return error
  | .ok ptr =>
    let error :=
      if c.mayCreate ≠ 0 then c.mayCreate
      else
        match c.create with
        | none => -eacces
        | some created => if c.securityInodeCreate ≠ 0 then c.securityInodeCreate else created
    interceptExit .create info ptr error
    return error

structure MkdirCall where
  dir : Inode
  mayCreate : Int
  sMaxLinks : Nat
  /-- The links of the directory when the limit is checked. -/
  iNlink : Nat
  securityInodeMkdir : Int
  /-- `i_op->mkdir`, if it is set. -/
  mkdir : Option Int

def vfsMkdir (c : MkdirCall) : Kernel Int := do
  if c.mayCreate ≠ 0 then return c.mayCreate
  match c.mkdir with
  | none => return -eperm
  | some made =>
    let info ← getElevatorCallInfoFromInode (some c.dir)
    match ← interceptEntry .mkdir info with
    | .error error => return error
    | .ok ptr =>
      if c.securityInodeMkdir ≠ 0 then
        interceptExit .mkdir info ptr c.securityInodeMkdir
        return c.securityInodeMkdir
      else if c.sMaxLinks ≠ 0 ∧ c.sMaxLinks ≤ c.iNlink then
        -- this exit was not moved to the label `out`
        return -emlink
      else
        interceptExit .mkdir info ptr made
        return made

/-- An intercepted system call. -/
inductive Invocation where
  | write (c : WriteCall)
  | fsync (c : FsyncCall)
  | create (c : CreateCall)
  | mkdir (c : MkdirCall)

namespace Invocation

def syscall : Invocation → Syscall
  | .write _ => .write
  | .fsync _ => .fsync
  | .create _ => .create
  | .mkdir _ => .mkdir

def exec : Invocation → Kernel Int
  | .write c => vfsWrite c
  | .fsync c => vfsFsyncRange c
  | .create c => vfsCreate c
  | .mkdir c => vfsMkdir c

/-- What the scheduler sees of the call. -/
def trace (c : Invocation) : List Call := (after c.exec []).2

/-- The elevator the call is intercepted by. -/
def info : Invocation → CallInfo
  | .write c => (after (getElevatorCallInfo (some c.file)) []).1
  | .fsync c => (after (getElevatorCallInfo (some c.file)) []).1
  | .create c => (after (getElevatorCallInfoFromInode (some c.dir)) []).1
  | .mkdir c => (after (getElevatorCallInfoFromInode (some c.dir)) []).1

end Invocation

/-! ## What a call records -/

section Records

/-- The modules that a reference is taken on. -/
def gets (tr : List Call) : List Nat := tr.filterMap fun | .moduleGet module => some module | _ => none

def puts (tr : List Call) : List Nat := tr.filterMap fun | .modulePut module => some module | _ => none

/-- The pointers left by the entry hooks that let the call go on. -/
def passed (call : Syscall) (tr : List Call) : List (Option Nat) :=
  tr.filterMap fun
    | .entry call' _ result _ => if call' = call ∧ result.ret = 0 then some result.ptr else none
    | _ => none

/-- The pointers the return hooks are called with. -/
def returns (call : Syscall) (tr : List Call) : List (Option Nat) :=
  tr.filterMap fun
    | .ret call' _ ptr _ _ => if call' = call then some ptr else none
    | _ => none

structure Balanced (call : Syscall) (sops : ElevatorSyscallOps) (tr : List Call) : Prop where
  /-- An entry hook that let the call go on is followed by one return hook, if there is one. -/
  returned : sops.returnFn call = true → ∀ ptr ∈ passed call tr, returns call tr = [ptr]
  /-- The module is put if and only if it was taken. -/
  module : puts tr = gets tr
  once : (gets tr).length ≤ 1

end Records

/-! ## Runs of the pieces -/

section Pieces

variable (tr : List Call) (call : Syscall) (info : CallInfo)

/-- Without a reference there are no hooks. -/
def CallInfo.Sound : Prop := info.module = none → info.sops = .zero

/-- The reference taken for `info`. -/
def getTrace : List Call := info.module.toList.map .moduleGet

def entryOutcome : Except Int (Option Nat) :=
  match info.sops.entryFn call with
  | none => .ok none
  | some result => if result.ret ≠ 0 then .error result.ret else .ok result.ptr

def putTrace : List Call := info.module.toList.map .modulePut

def entryTrace : List Call :=
  match info.sops.entryFn call with
  | none => []
  | some result =>
    .entry call (info.rq.map (·.id)) result info.sops.schedUniq ::
      if result.ret ≠ 0 then if info.module = none then [.bug] else putTrace info else []

def exitTrace (ptr : Option Nat) (rv : Int) : List Call :=
  (if info.sops.returnFn call then [.ret call (info.rq.map (·.id)) ptr rv info.sops.schedUniq]
    else []) ++ putTrace info

theorem interceptEntry_run :
    after (interceptEntry call info) tr = (entryOutcome call info, tr ++ entryTrace call info) := by
  unfold interceptEntry entryOutcome entryTrace putTrace
  cases info.sops.entryFn call with
  | none => simp
  | some result =>
    by_cases h : result.ret = 0
    · simp [h]
    · cases info.module with
      | none => simp [h]
      | some module => simp [h]

theorem interceptExit_run (ptr : Option Nat) (rv : Int) :
    after (interceptExit call info ptr rv) tr = ((), tr ++ exitTrace call info ptr rv) := by
  unfold interceptExit exitTrace putTrace
  cases info.sops.returnFn call <;> cases info.module <;> simp

/-- What is known about a query for the elevator that ends with `info`. -/
def Queries (get : Kernel CallInfo) (info : CallInfo) : Prop :=
  info.Sound ∧ ∀ tr, after get tr = (info, tr ++ getTrace info)

theorem queries_skip : Queries (return .skip) .skip :=
  ⟨fun _ => rfl, fun tr => by simp [getTrace, CallInfo.skip]⟩

theorem getElevatorCallInfoFromInode_queries (inode : Option Inode) :
    ∃ info, Queries (getElevatorCallInfoFromInode inode) info := by
  unfold getElevatorCallInfoFromInode
  split
  · exact ⟨_, queries_skip⟩
  · rename_i rq _
    cases rq.elevator.join with
    | none => exact ⟨_, queries_skip⟩
    | some type =>
      cases hm : type.elevatorOwner with
      | none => exact ⟨_, by simpa only [hm] using queries_skip⟩
      | some module =>
        cases ht : type.tryModuleGet with
        | false => exact ⟨_, by simpa [hm, ht] using queries_skip⟩
        | true =>
          refine ⟨⟨some rq, some module, ⟨type.ops, rq.schedUniq⟩⟩, fun h => (by cases h), fun tr => ?_⟩
          simp [hm, ht, getTrace]

theorem getElevatorCallInfo_queries (filp : Option File) :
    ∃ info, Queries (getElevatorCallInfo filp) info := by
  unfold getElevatorCallInfo
  split
  · exact ⟨_, queries_skip⟩
  · exact getElevatorCallInfoFromInode_queries _

end Pieces

/-! ## Balance -/

section Balance

variable {call : Syscall} {info : CallInfo} {get : Kernel CallInfo}

/-- The interception, around work that ends with `rv`. -/
def intercepted (call : Syscall) (info : CallInfo) (rv : Int) : List Call :=
  getTrace info ++ entryTrace call info ++
    match entryOutcome call info with
    | .error _ => []
    | .ok ptr => exitTrace call info ptr rv

theorem balanced_nil (sops : ElevatorSyscallOps) : Balanced call sops [] :=
  ⟨fun _ _ h => absurd h List.not_mem_nil, rfl, Nat.zero_le 1⟩

theorem intercepted_balanced (h : info.Sound) (rv : Int) :
    Balanced call info.sops (intercepted call info rv) := by
  unfold intercepted getTrace entryTrace entryOutcome exitTrace putTrace
  cases hm : info.module with
  | none =>
    rw [h hm]
    exact balanced_nil _
  | some module =>
    cases he : info.sops.entryFn call with
    | none =>
      constructor
      · cases hr : info.sops.returnFn call <;> simp [passed]
      · cases hr : info.sops.returnFn call <;> simp [puts, gets]
      · cases hr : info.sops.returnFn call <;> simp [gets]
    | some result =>
      by_cases hret : result.ret = 0
      · constructor
        · intro hr
          simp [hret, hr, passed, returns]
        · cases hr : info.sops.returnFn call <;> simp [hret, puts, gets]
        · cases hr : info.sops.returnFn call <;> simp [hret, gets]
      · constructor
        · simp [hret, passed]
        · simp [hret, puts, gets]
        · simp [hret, gets]

/-- The return in the middle gives nothing back. -/
theorem abandoned_references {ptr : Option Nat} (hok : entryOutcome call info = .ok ptr) :
    gets (getTrace info ++ entryTrace call info) = info.module.toList ∧
      puts (getTrace info ++ entryTrace call info) = [] := by
  unfold entryOutcome at hok
  unfold getTrace entryTrace
  cases he : info.sops.entryFn call with
  | none => cases info.module <;> simp [puts, gets]
  | some result =>
    by_cases hret : result.ret = 0
    · cases info.module <;> simp [hret, puts, gets]
    · simp [he, hret] at hok

theorem abandoned_balanced_iff (h : info.Sound) {ptr : Option Nat}
    (hok : entryOutcome call info = .ok ptr) :
    Balanced call info.sops (getTrace info ++ entryTrace call info) ↔ info.module = none := by
  obtain ⟨hgets, hputs⟩ := abandoned_references hok
  constructor
  · intro hb
    have hmodule := hb.module
    rw [hgets, hputs] at hmodule
    exact Option.toList_eq_nil_iff.mp hmodule.symm
  · intro hm
    unfold getTrace entryTrace
    rw [h hm, hm]
    exact balanced_nil _

end Balance

/-! ## The four calls -/

theorem vfsWrite_trace {c : WriteCall} {info : CallInfo}
    (h : Queries (getElevatorCallInfo (some c.file)) info) :
    (after (vfsWrite c) []).2 = [] ∨ ∃ rv, (after (vfsWrite c) []).2 = intercepted .write info rv := by
  unfold vfsWrite intercepted
  by_cases hw : c.fmodeWrite = false
  · simp [hw]
  by_cases hc : c.fmodeCanWrite = false
  · simp [hw, hc]
  by_cases ha : c.accessOk = false
  · simp [hw, hc, ha]
  refine .inr ⟨if 0 ≤ c.rwVerifyArea then c.written else c.rwVerifyArea, ?_⟩
  cases ho : entryOutcome .write info with
  | error e => simp [hw, hc, ha, h.2, interceptEntry_run, ho]
  | ok ptr => simp [hw, hc, ha, h.2, interceptEntry_run, interceptExit_run, ho]

theorem vfsFsyncRange_trace {c : FsyncCall} {info : CallInfo}
    (h : Queries (getElevatorCallInfo (some c.file)) info) :
    (after (vfsFsyncRange c) []).2 = [] ∨
      ∃ rv, (after (vfsFsyncRange c) []).2 = intercepted .fsync info rv := by
  unfold vfsFsyncRange intercepted
  cases c.fsync with
  | none => exact .inl rfl
  | some synced =>
    refine .inr ⟨synced, ?_⟩
    cases ho : entryOutcome .fsync info with
    | error e => simp [h.2, interceptEntry_run, ho]
    | ok ptr => simp [h.2, interceptEntry_run, interceptExit_run, ho]

theorem vfsCreate_trace {c : CreateCall} {info : CallInfo}
    (h : Queries (getElevatorCallInfoFromInode (some c.dir)) info) :
    ∃ rv, (after (vfsCreate c) []).2 = intercepted .create info rv := by
  unfold vfsCreate intercepted
  cases ho : entryOutcome .create info with
  | error e => simp [h.2, interceptEntry_run, ho]
  | ok ptr =>
    simp only [after_bind, h.2, interceptEntry_run, interceptExit_run, ho, after_pure]
    exact ⟨_, rfl⟩

/-- The call gets as far as the check of the link limit, and ends there. -/
def MkdirCall.AtLinkLimit (c : MkdirCall) (info : CallInfo) : Prop :=
  c.mayCreate = 0 ∧ c.mkdir.isSome = true ∧
    (info.sops.entryFn .mkdir).all (fun result => decide (result.ret = 0)) = true ∧
    c.securityInodeMkdir = 0 ∧ c.sMaxLinks ≠ 0 ∧ c.sMaxLinks ≤ c.iNlink

instance (c : MkdirCall) (info : CallInfo) : Decidable (c.AtLinkLimit info) :=
  inferInstanceAs (Decidable (_ ∧ _))

theorem entryOutcome_ok {call : Syscall} {info : CallInfo}
    (h : (info.sops.entryFn call).all (fun result => decide (result.ret = 0)) = true) :
    ∃ ptr, entryOutcome call info = .ok ptr := by
  unfold entryOutcome
  cases he : info.sops.entryFn call with
  | none => exact ⟨none, rfl⟩
  | some result => exact ⟨result.ptr, by simpa [he] using h⟩

theorem entryOutcome_error {call : Syscall} {info : CallInfo}
    (h : (info.sops.entryFn call).all (fun result => decide (result.ret = 0)) ≠ true) :
    ∃ e, entryOutcome call info = .error e := by
  unfold entryOutcome
  cases he : info.sops.entryFn call with
  | none => simp [he] at h
  | some result => exact ⟨result.ret, by simpa [he] using h⟩

theorem vfsMkdir_limit {c : MkdirCall} {info : CallInfo}
    (h : Queries (getElevatorCallInfoFromInode (some c.dir)) info) (hc : c.AtLinkLimit info) :
    (after (vfsMkdir c) []).2 = getTrace info ++ entryTrace .mkdir info := by
  obtain ⟨hmay, hmk, he, hsec, hmax, hlink⟩ := hc
  obtain ⟨made, hmade⟩ := Option.isSome_iff_exists.mp hmk
  obtain ⟨ptr, ho⟩ := entryOutcome_ok he
  simp [vfsMkdir, hmay, hmade, h.2, interceptEntry_run, ho, hsec, hmax, hlink]

theorem vfsMkdir_trace {c : MkdirCall} {info : CallInfo}
    (h : Queries (getElevatorCallInfoFromInode (some c.dir)) info) (hc : ¬c.AtLinkLimit info) :
    (after (vfsMkdir c) []).2 = [] ∨ ∃ rv, (after (vfsMkdir c) []).2 = intercepted .mkdir info rv := by
  unfold vfsMkdir intercepted
  by_cases hmay : c.mayCreate = 0
  swap
  · simp [hmay]
  cases hmade : c.mkdir with
  | none => simp [hmay]
  | some made =>
    by_cases he : (info.sops.entryFn .mkdir).all (fun result => decide (result.ret = 0)) = true
    swap
    · obtain ⟨e, ho⟩ := entryOutcome_error he
      simp [hmay, h.2, interceptEntry_run, ho]
    obtain ⟨ptr, ho⟩ := entryOutcome_ok he
    by_cases hsec : c.securityInodeMkdir = 0
    swap
    · exact .inr ⟨c.securityInodeMkdir, by simp [hmay, h.2, interceptEntry_run, interceptExit_run, ho, hsec]⟩
    have hlink : ¬(c.sMaxLinks ≠ 0 ∧ c.sMaxLinks ≤ c.iNlink) := by
      intro hlink
      exact hc ⟨hmay, by simp [hmade], he, hsec, hlink⟩
    refine .inr ⟨made, ?_⟩
    simp only [hmay, h.2, interceptEntry_run, interceptExit_run, ho, hsec, hlink, after_bind, after_pure,
      ne_eq, not_true_eq_false, if_false, List.nil_append]

namespace Invocation

/-- The module on which the call leaves a reference behind. -/
def leaked (c : Invocation) : Option Nat :=
  match c with
  | .mkdir call => if call.AtLinkLimit c.info then c.info.module else none
  | _ => none

theorem info_eq {get : Kernel CallInfo} {info : CallInfo} (h : Queries get info) :
    (after get []).1 = info := by
  rw [h.2]

/-- A call that is not abandoned gives nothing to the scheduler, or brackets its work. -/
theorem trace_cases (c : Invocation) : c.info.Sound ∧
    ((c.trace = [] ∨ ∃ rv, c.trace = intercepted c.syscall c.info rv) ∧ c.leaked = none ∨
      c.trace = getTrace c.info ++ entryTrace c.syscall c.info ∧ c.leaked = c.info.module ∧
        ∃ ptr, entryOutcome c.syscall c.info = .ok ptr) := by
  cases c with
  | write c =>
    obtain ⟨info, h⟩ := getElevatorCallInfo_queries (some c.file)
    have hinfo : (Invocation.write c).info = info := info_eq h
    rw [hinfo]
    exact ⟨h.1, .inl ⟨vfsWrite_trace h, rfl⟩⟩
  | fsync c =>
    obtain ⟨info, h⟩ := getElevatorCallInfo_queries (some c.file)
    have hinfo : (Invocation.fsync c).info = info := info_eq h
    rw [hinfo]
    exact ⟨h.1, .inl ⟨vfsFsyncRange_trace h, rfl⟩⟩
  | create c =>
    obtain ⟨info, h⟩ := getElevatorCallInfoFromInode_queries (some c.dir)
    have hinfo : (Invocation.create c).info = info := info_eq h
    rw [hinfo]
    exact ⟨h.1, .inl ⟨.inr (vfsCreate_trace h), rfl⟩⟩
  | mkdir c =>
    obtain ⟨info, h⟩ := getElevatorCallInfoFromInode_queries (some c.dir)
    have hinfo : (Invocation.mkdir c).info = info := info_eq h
    unfold leaked
    rw [hinfo]
    refine ⟨h.1, ?_⟩
    by_cases hc : c.AtLinkLimit info
    · exact .inr ⟨vfsMkdir_limit h hc, if_pos hc, entryOutcome_ok hc.2.2.1⟩
    · exact .inl ⟨vfsMkdir_trace h hc, if_neg hc⟩

/-- For every call and every outcome of what it calls: the hooks and the references come in pairs, but
for a directory made where there are too many links. -/
theorem interception_balanced_iff (c : Invocation) :
    Balanced c.syscall c.info.sops c.trace ↔ c.leaked = none := by
  obtain ⟨hsound, ⟨htrace, hleaked⟩ | ⟨htrace, hleaked, ptr, hok⟩⟩ := c.trace_cases
  · refine iff_of_true ?_ hleaked
    rcases htrace with htrace | ⟨rv, htrace⟩
    · rw [htrace]
      exact balanced_nil _
    · rw [htrace]
      exact intercepted_balanced hsound rv
  · rw [htrace, hleaked]
    exact abandoned_balanced_iff hsound hok

/-- A directory with as many links as its file system allows, on a disk whose scheduler is in the
module 1. The hooks of this scheduler let the call go on with the pointer 5. -/
def fullDirectory : MkdirCall where
  dir :=
    { isReg := false, isDir := true, btrfsBdev := none
      iSb := some ⟨some "ext4", some (some ⟨0, some (some
        ⟨some 1, true, ⟨fun _ => some ⟨0, some 5⟩, fun _ => true⟩⟩), 1000⟩)⟩ }
  mayCreate := 0
  sMaxLinks := 65000
  iNlink := 65000
  securityInodeMkdir := 0
  mkdir := some 0

theorem mkdir_keeps_reference :
    (Invocation.mkdir fullDirectory).trace =
        [.moduleGet 1, .entry .mkdir (some 0) ⟨0, some 5⟩ 1000] ∧
      ¬Balanced .mkdir (Invocation.mkdir fullDirectory).info.sops (Invocation.mkdir fullDirectory).trace := by
  have htrace : (Invocation.mkdir fullDirectory).trace =
      [.moduleGet 1, .entry .mkdir (some 0) ⟨0, some 5⟩ 1000] := by decide
  refine ⟨htrace, fun hb => ?_⟩
  have hmodule := hb.module
  simp [htrace, puts, gets] at hmodule

theorem gets_trace (c : Invocation) : gets c.trace = puts c.trace ++ c.leaked.toList := by
  obtain ⟨hsound, ⟨htrace, hleaked⟩ | ⟨htrace, hleaked, ptr, hok⟩⟩ := c.trace_cases
  · rw [hleaked, Option.toList_none, List.append_nil]
    rcases htrace with htrace | ⟨rv, htrace⟩
    · rw [htrace]
      rfl
    · rw [htrace]
      exact (intercepted_balanced hsound rv).module.symm
  · obtain ⟨hgets, hputs⟩ := abandoned_references hok
    rw [htrace, hleaked, hgets, hputs, List.nil_append]

/-- When the calls have finished, in whatever order their steps came, the references that are left on a
module are those of the directories that were not made for want of links. -/
theorem references_left (calls : List Invocation) {tr : List Call}
    (h : tr.Perm (calls.flatMap trace)) (m : Nat) :
    (gets tr).count m = (puts tr).count m + (calls.filterMap leaked).count m := by
  have hgets : (gets tr).Perm (gets (calls.flatMap trace)) := h.filterMap _
  have hputs : (puts tr).Perm (puts (calls.flatMap trace)) := h.filterMap _
  rw [hgets.count_eq, hputs.count_eq]
  clear h hgets hputs
  induction calls with
  | nil => rfl
  | cons c calls ih =>
    have hg : gets ((c :: calls).flatMap trace) = gets c.trace ++ gets (calls.flatMap trace) := by
      simp [gets]
    have hp : puts ((c :: calls).flatMap trace) = puts c.trace ++ puts (calls.flatMap trace) := by
      simp [puts]
    rw [hg, hp, List.count_append, List.count_append, ih, gets_trace, List.count_append,
      List.filterMap_cons]
    cases c.leaked with
    | none => simp; omega
    | some module => simp [List.count_cons]; omega

end Invocation

end Vfs
end SplitSched
