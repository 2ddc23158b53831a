import SplitSched.Ioctl
import SplitSched.Lib.Run

/-!
# SplitSched.Lifecycle.Steps

The life of scheduler instances: modules are loaded and unloaded, queues switch between elevators, timers and threads of
an instance run, and control messages go to every disk that is registered.

Each of the three modules links its own copy of ioctl_helper.c, so each has its own `disk_info_list`. All of them ask for
the same character device, and `kv_set_all` finds the data of a scheduler through `q->elevator`, which the init function
of the next scheduler changes before the exit function of the last one runs.

`World.exec` has one step for each piece of code that no other step can interrupt. Of what an instance does, dispatches,
threads, timers and messages are steps; the hooks in system calls, in the page cache and in merging and completing requests
are not. A step that goes wrong gives a `Fault`.
-/

namespace SplitSched
namespace Lifecycle

inductive Module where
  | tb
  | afq
  | deadline
  deriving DecidableEq, Repr

inductive Timer where
  /-- tb's `dispatch_nudger`. -/
  | dispatchNudger
  /-- afq's timers. -/
  | batchWait
  | batchDead
  deriving DecidableEq, Repr

def Timer.owner : Timer → Module
  | .dispatchNudger => .tb
  | .batchWait => .afq
  | .batchDead => .afq

def Module.threads : Module → Nat
  | .tb => 0
  | .afq => 2
  | .deadline => 1

structure Setting where
  id : Int
  key : List UInt8
  val : Int
  deriving DecidableEq, Repr

/-- A scheduler instance, with the data in `elevator_data`. -/
structure Inst where
  owner : Module
  /-- The data is not freed. -/
  live : Bool
  /-- The call of `ioctl_helper_register_disk` succeeded, and the instance has not left. -/
  registered : Bool
  threads : Nat
  /-- The timers that are pending. -/
  timers : Timer → Bool
  received : List Setting

namespace Inst

/-- What an init function has made when it sets `q->elevator`. `deadline_init_queue` has started its thread by then. -/
def new (m : Module) : Inst := ⟨m, true, false, if m = .deadline then 1 else 0, fun _ => false, []⟩

/-- The timers that a dispatch starts: `tbucket_dispatch` and `basic_sched_submit_io_work`. -/
def armed (a : Inst) : Inst :=
  match a.owner with
  | .tb => { a with timers := Function.update a.timers .dispatchNudger true }
  | .afq => { a with timers := Function.update (Function.update a.timers .batchWait true) .batchDead true }
  | .deadline => a

/-- The `del_timer` calls of the exit functions. `basic_sched_exit_data` names `batch_dead_timer` twice. -/
def delTimers (m : Module) (timers : Timer → Bool) : Timer → Bool :=
  match m with
  | .tb => Function.update timers .dispatchNudger false
  | .afq =>
    let timers := if timers .batchDead then Function.update timers .batchDead false else timers
    if timers .batchWait then Function.update timers .batchDead false else timers
  | .deadline => timers

/-- After `tbucket_exit_queue`, `basic_sched_exit_data` or `deadline_exit_queue`: threads are stopped, data is freed. -/
def exited (a : Inst) : Inst :=
  { a with timers := delTimers a.owner a.timers, threads := 0, registered := false, live := false }

end Inst

/-- How far `elevator_switch` got with the new elevator. -/
inductive Stage where
  /-- `q->elevator` is set, and the init function goes on. -/
  | starting
  /-- The new elevator is given up, and its data is freed. -/
  | failed
  /-- The init function has returned. -/
  | installed
  deriving DecidableEq, Repr

structure Switch where
  /-- The elevator before the switch. -/
  old : Option Inst
  stage : Stage

/-- The elevators of a queue. `none` stands for one that is not from these modules. -/
structure Elevators where
  /-- `q->elevator`. -/
  current : Option Inst
  switch : Option Switch

def Elevators.leaving (e : Elevators) : Option Inst := e.switch.bind (·.old)

inductive Load where
  | unloaded
  /-- After the first call of the module's init function. -/
  | half
  | loaded
  /-- After the first call of its exit function. -/
  | going
  deriving DecidableEq, Repr

/-- The elevator of the module is registered, and `try_module_get` succeeds. -/
def Load.Available (l : Load) (m : Module) : Prop := l = .loaded ∨ m = .tb ∧ l = .half

structure Handle where
  owner : Module
  /-- The module was unloaded. The `file_operations` have no owner, so an open file does not keep it. -/
  stale : Bool
  deriving DecidableEq, Repr

structure World (n : Nat) where
  load : Module → Load
  /-- The module whose `file_operations` the device `IOCTL_MAJOR` has. -/
  device : Option Module
  handles : List Handle
  /-- `INIT_LIST_HEAD(&disk_info_list)` was done. -/
  ready : Module → Bool
  /-- `disk_info_list`. -/
  disks : Module → List (Fin n)
  /-- References to the module that a failed init function has kept. -/
  leaks : Module → Nat
  queues : Fin n → Elevators
  /-- The instances that have left. -/
  gone : List Inst

inductive Fault where
  /-- A `BUG_ON`. -/
  | bug
  /-- An access to data or a call of code that was freed. -/
  | freed
  /-- A callback gets the data of another scheduler. -/
  | confused
  /-- A list head that is not initialised. -/
  | wild
  deriving DecidableEq, Repr

namespace World

variable {n : Nat}

def boot (n : Nat) : World n where
  load _ := .unloaded
  device := none
  handles := []
  ready _ := false
  disks _ := []
  leaks _ := 0
  queues _ := ⟨none, none⟩
  gone := []

def setQueue (w : World n) (q : Fin n) (e : Elevators) : World n :=
  { w with queues := Function.update w.queues q e }

def setDisks (w : World n) (m : Module) (qs : List (Fin n)) : World n :=
  { w with disks := Function.update w.disks m qs }

def setLoad (w : World n) (m : Module) (l : Load) : World n := { w with load := Function.update w.load m l }

/-! ## Modules -/

/-- `ioctl_helper_init` and what the module does with its result. `register_chrdev` succeeds if none of these modules
has the device and it does not fail for another reason (`ok`). -/
def helperInit (w : World n) (m : Module) (ok : Bool) : Except Fault (World n) :=
  let w := { w with ready := Function.update w.ready m true }.setDisks m []
  match w.device, ok with
  | none, true => .ok { w with device := some m }
  -- `register_chrdev` fails: `tbucket_init` has a `BUG_ON`, the others a `WARN_ON`
  | _, _ => if m = .tb then .error .bug else .ok w

/-- The calls of the module's init function. `tbucket_init` registers its elevator first, the others last. -/
def moduleInit (w : World n) (m : Module) (ok : Bool) : Option (Except Fault (World n)) :=
  match w.load m with
  | .unloaded =>
    some (if m = .tb then .ok (w.setLoad m .half) else (w.setLoad m .half).helperInit m ok)
  | .half =>
    some (if m = .tb then (w.setLoad m .loaded).helperInit m ok else .ok (w.setLoad m .loaded))
  | _ => none

def Available (w : World n) (m : Module) : Prop := (w.load m).Available m

/-- An instance of the module is on one of the queues, or a reference was kept. -/
def InUse (w : World n) (m : Module) : Prop :=
  w.leaks m ≠ 0 ∨ ∃ q, ∃ a ∈ (w.queues q).current.toList ++ (w.queues q).leaving.toList, a.live ∧ a.owner = m

instance (w : World n) (m : Module) : Decidable (w.Available m) := inferInstanceAs (Decidable (_ ∨ _))

instance (w : World n) (m : Module) : Decidable (w.InUse m) := inferInstanceAs (Decidable (_ ∨ _))

/-- `ioctl_helper_cleanup`. The device is removed by its number, whoever has it. -/
def helperCleanup (w : World n) (m : Module) : Except Fault (World n) :=
  if w.disks m ≠ [] then .error .bug else .ok { w with device := none }

/-- The module's exit function, which is called if nothing holds a reference. -/
def moduleExit (w : World n) (m : Module) : Option (Except Fault (World n)) :=
  match w.load m with
  | .loaded => if w.InUse m then none else some ((w.setLoad m .going).helperCleanup m)
  | .going =>
    some (.ok { w.setLoad m .unloaded with
      ready := Function.update w.ready m false
      handles := w.handles.map fun h => if h.owner = m then { h with stale := true } else h })
  | _ => none

/-! ## Elevators -/

/-- `start_sched_thread` and `start_min_thread` of `basic_sched_init_data`. If one fails, what was started is stopped
and the data is freed. -/
def startThread (w : World n) (q : Fin n) (a : Inst) (old : Option Inst) (ok : Bool) : World n :=
  if ok then w.setQueue q ⟨some { a with threads := a.threads + 1 }, some ⟨old, .starting⟩⟩
  else w.setQueue q ⟨some { a with threads := 0, live := false }, some ⟨old, .failed⟩⟩

/-- `ioctl_helper_register_disk`, whose result the init functions ignore. -/
def registerDisk (w : World n) (q : Fin n) (a : Inst) (old : Option Inst) (ok : Bool) : Except Fault (World n) :=
  if ok then
    if w.ready a.owner then
      .ok ((w.setQueue q ⟨some { a with registered := true }, some ⟨old, .installed⟩⟩).setDisks a.owner
        (w.disks a.owner ++ [q]))
    else .error .wild
  else .ok (w.setQueue q ⟨some a, some ⟨old, .installed⟩⟩)

def unregisterDisk (w : World n) (m : Module) (q : Fin n) : Except Fault (World n) :=
  if q ∈ w.disks m then .ok (w.setDisks m ((w.disks m).erase q)) else .error .bug

/-- The exit function of an elevator of the queue, as far as others see it. -/
def exitQueue (w : World n) (q : Fin n) : Option Inst → Except Fault (World n)
  | none => .ok w
  | some a => w.unregisterDisk a.owner q

/-! ## Messages -/

/-- A `kv_set` callback of the module `m`, which takes the data from `q->elevator`. -/
def kvSet (m : Module) (s : Setting) (w : World n) (q : Fin n) : Except Fault (World n) :=
  match (w.queues q).current with
  | none => .error .confused
  | some a =>
    if a.live then
      if a.owner = m then
        .ok (w.setQueue q { w.queues q with current := some { a with received := a.received ++ [s] } })
      else .error .confused
    else .error .freed

def kvSetAll (w : World n) (m : Module) (s : Setting) : Except Fault (World n) := (w.disks m).foldlM (kvSet m s) w

end World

/-! ## Steps -/

inductive Place (n : Nat) where
  | current (q : Fin n)
  | leaving (q : Fin n)
  | gone (k : Nat)

inductive Event (n : Nat) where
  /-- The next call of the module's init or exit function. There may be no memory for the device, or another driver
  may have its number, and then `ok` is false. -/
  | load (m : Module) (ok : Bool)
  | unload (m : Module)
  /-- The init function fails before it sets `q->elevator`, with or without an `elevator_queue`. -/
  | initFails (m : Module) (eq : Bool)
  | publish (m : Module) (q : Fin n)
  /-- An elevator that is not from these modules is installed. -/
  | publishOther (q : Fin n)
  | startThread (q : Fin n) (ok : Bool)
  | registerDisk (q : Fin n) (ok : Bool)
  /-- `elevator_switch` calls the exit function of the old elevator. -/
  | finish (q : Fin n)
  /-- `elv_register_queue` fails, and `elevator_switch` calls the exit function of the new elevator. -/
  | abandon (q : Fin n)
  /-- `elevator_switch` puts the old elevator back. -/
  | restore (q : Fin n)
  | dispatch (q : Fin n)
  | fires (p : Place n) (t : Timer)
  /-- A thread of the instance runs. -/
  | thread (p : Place n)
  | openDevice
  /-- A call of `device_ioctl` on an open file, with what is on the stack. -/
  | ioctl (k : Nat) (msg : List UInt8) (id₀ val₀ : Int)

namespace World

open Ioctl

variable {n : Nat}

def look (w : World n) : Place n → Option Inst
  | .current q => (w.queues q).current
  | .leaving q => (w.queues q).leaving
  | .gone k => w.gone[k]?

def put (w : World n) (a : Inst) : Place n → World n
  | .current q => w.setQueue q { w.queues q with current := some a }
  | .leaving q =>
    w.setQueue q { w.queues q with switch := (w.queues q).switch.map fun s => { s with old := some a } }
  | .gone k => { w with gone := w.gone.set k a }

def setting (C : CArith.CInts) (msg : List UInt8) (id₀ val₀ : Int) : Option Setting :=
  match deviceIoctl C msg id₀ val₀ with
  | some (_, some (.kvSetAll id key val)) => some ⟨id, key, val⟩
  | _ => none

/-- One step; `none` where it cannot be taken. The kernel ignores a switch to an elevator of the type that is
installed. -/
def exec (C : CArith.CInts) (w : World n) : Event n → Option (Except Fault (World n))
  | .load m ok => w.moduleInit m ok
  | .unload m => w.moduleExit m
  | .initFails m eq =>
    if w.Available m then
      -- `deadline_init_queue` keeps the `elevator_queue`, which holds a reference to the module
      some (.ok (if eq ∧ m = .deadline then { w with leaks := Function.update w.leaks m (w.leaks m + 1) } else w))
    else none
  | .publish m q =>
    if w.Available m ∧ (w.queues q).switch.isNone ∧ (w.queues q).current.map (·.owner) ≠ some m then
      some (.ok (w.setQueue q ⟨some (.new m), some ⟨(w.queues q).current, .starting⟩⟩))
    else none
  | .publishOther q =>
    if (w.queues q).switch.isNone then
      some (.ok (w.setQueue q ⟨none, some ⟨(w.queues q).current, .installed⟩⟩))
    else none
  | .startThread q ok =>
    match w.queues q with
    | ⟨some a, some ⟨old, .starting⟩⟩ =>
      if a.threads < a.owner.threads then some (.ok (w.startThread q a old ok)) else none
    | _ => none
  | .registerDisk q ok =>
    match w.queues q with
    | ⟨some a, some ⟨old, .starting⟩⟩ =>
      if a.threads = a.owner.threads then some (w.registerDisk q a old ok) else none
    | _ => none
  | .finish q =>
    match w.queues q with
    | ⟨new, some ⟨old, .installed⟩⟩ =>
      some ((w.exitQueue q old).map fun w =>
        { w.setQueue q ⟨new, none⟩ with gone := w.gone ++ (old.map Inst.exited).toList })
    | _ => none
  | .abandon q =>
    match w.queues q with
    | ⟨new, some ⟨old, .installed⟩⟩ =>
      some ((w.exitQueue q new).map (·.setQueue q ⟨new.map Inst.exited, some ⟨old, .failed⟩⟩))
    | _ => none
  | .restore q =>
    match w.queues q with
    | ⟨new, some ⟨old, .failed⟩⟩ => some (.ok { w.setQueue q ⟨old, none⟩ with gone := w.gone ++ new.toList })
    | _ => none
  | .dispatch q =>
    match w.queues q with
    | ⟨some a, none⟩ => some (.ok (w.setQueue q ⟨some a.armed, none⟩))
    | _ => none
  | .fires p t =>
    (w.look p).bind fun a =>
      if a.timers t then
        some (if a.live then .ok (w.put { a with timers := Function.update a.timers t false } p) else .error .freed)
      else none
  | .thread p =>
    (w.look p).bind fun a =>
      if 0 < a.threads then some (if a.live then .ok w else .error .freed) else none
  | .openDevice => w.device.map fun m => .ok { w with handles := w.handles ++ [⟨m, false⟩] }
  | .ioctl k msg id₀ val₀ =>
    w.handles[k]?.map fun h =>
      if h.stale then .error .freed
      else
        match setting C msg id₀ val₀ with
        | some s => w.kvSetAll h.owner s
        | none => .ok w

def step (C : CArith.CInts) (w : World n) (e : Event n) : Option (World n) := (w.exec C e).bind (·.toOption)

end World

end Lifecycle
end SplitSched
