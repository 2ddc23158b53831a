import SplitSched.Tb.Frame
import SplitSched.Block.Shares

/-!
# SplitSched.Tb.Hooks

The hooks of the token-bucket scheduler outside dispatching (tbucket.c): the dirty and free hooks
that charge and refund a cause list, the control messages, and the throttle of system calls.
`dirtyBuffer` and `freeCauseList` put the dirty hook and the free hook behind the kernel code that
calls them.
-/

namespace SplitSched
namespace Tb

open CArith

/-! ## Charging dirty buffers -/

def tbucketCausesDirty (P : Platform) (s : State) (l : Nat) (newId : Int) (inode : Nat)
    (pos : Int) : State :=
  let causes := s.mem.lists l
  let totCost := dirtyCost P s.mem l inode pos
  causes.items.foldl (chargeEstimate P (dirtyCharge P totCost causes.itemCount newId))
    { s with mem := dirtyMem P s.mem l inode pos }

def tbucketCausesFree (P : Platform) (s : State) (l : Nat) : State :=
  let causes := s.mem.lists l
  causes.items.foldl (chargeEstimate P fun _ => -freeRefund P causes) s

/-- A task dirties a buffer of `bSize` bytes whose cause list is `l`. -/
def dirtyBuffer (P : Platform) (s : State) (q l : Nat) (task : Task) (bSize inode : Nat)
    (pos : Int) : State :=
  let r := commitWriteHook s.env s.mem q l task bSize
  let s := { s with mem := r.2.1, env := r.2.2 }
  if r.1 then tbucketCausesDirty P s l task.accountId inode pos else s

/-- `free_cause_list`, up to the release of the memory. -/
def freeCauseList (P : Platform) (s : State) (l : Nat) : State :=
  if freeNotifies s.mem l then tbucketCausesFree P s l else s

/-! ## Control messages and the throttle -/

def kvApply (P : Platform) (key : String) (val : Int) (a : Account) : Account :=
  if key = "rate" then saturateCounts P { a with rate := val }
  else if key = "limit" then saturateCounts P { a with limit := val }
  else if key = "count" then
    saturateCounts P { a with credit := P.long (a.credit + (val - count P a)) }
  else a

def tbucketKvSet (P : Platform) (s : State) (id : Int) (key : String) (val : Int) : State :=
  if key = "debug" then s
  else if id ≠ 0 then
    let r := getAccount P s id
    if r.1 = id then r.2.modifyAccount r.1 (kvApply P key val) else r.2
  else s

/-- `refresh_count` on an account of the state; `none` is its `BUG_ON`. -/
def refreshAccount (P : Platform) (s : State) (id : Int) : Option State :=
  let now := s.env.getnstimeofday
  match s.accounts.find id with
  | none => none
  | some a =>
    match refreshCount P now.1 a with
    | none => none
    | some a' => some { s.modifyAccount id (fun _ => a') with env := now.2 }

/-- `maybe_sleep` of a task: how long it sleeps, if it does, and the state. -/
def maybeSleep (P : Platform) (s : State) (accountId schedUniq : Int) :
    Option (Option Int × State) :=
  let s := { s with env := s.env.getnstimeofday.2 }
  if s.mem.schedUniq ≠ schedUniq then some (none, s)
  else
    let r := getAccount P s accountId
    match refreshAccount P r.2 r.1 with
    | none => none
    | some s =>
      if s.accounts.val (fun a => decide (count P a < 0) && decide (0 < a.rate)) false r.1 then
        some (some (min (s.accounts.val (estimateWaitUsecs P) 0 r.1) 5000000), s)
      else some (none, s)

/-! ## Frame -/

variable {P : Platform} {s : State}

theorem kvApply_queue (key : String) (val : Int) (a : Account) :
    (kvApply P key val a).queue = a.queue := by
  unfold kvApply
  split_ifs <;> first | rfl | (rw [saturateCounts_queue]; rfl)

theorem tbucketKvSet_grows (P : Platform) (s : State) (id : Int) (key : String) (val : Int) :
    Grows s (tbucketKvSet P s id key val) := by
  simp only [tbucketKvSet]
  split_ifs
  · exact .refl s
  · exact (getAccount_grows P s id).trans (modifyAccount_grows (kvApply_queue key val))
  · exact getAccount_grows P s id
  · exact .refl s

theorem refreshAccount_grows {id : Int} {s' : State} (h : refreshAccount P s id = some s') :
    Grows s s' := by
  simp only [refreshAccount] at h
  split at h
  · cases h
  · rename_i a ha
    split at h
    · cases h
    · rename_i a' ha'
      cases h
      have hq : (s.modifyAccount id fun _ => a').queue = s.queue := by
        funext ref
        by_cases hr : ref.1 = id
        · subst hr
          simp [State.queue, State.modifyAccount, Registry.modify, Registry.val, ha,
            (refreshCount_same P ha').queue]
        · simp [State.queue, State.modifyAccount, Registry.modify, Registry.val, hr]
      exact ⟨⟨[], by simp [State.modifyAccount]⟩, hq, rfl, rfl, rfl, rfl, rfl, rfl, rfl, rfl,
        fun _ => rfl, fun _ => rfl, rfl⟩

theorem maybeSleep_grows {accountId schedUniq : Int} {r : Option Int × State}
    (h : maybeSleep P s accountId schedUniq = some r) : Grows s r.2 := by
  have hclock : Grows s { s with env := s.env.getnstimeofday.2 } :=
    ⟨⟨[], by simp⟩, rfl, rfl, rfl, rfl, rfl, rfl, rfl, rfl, rfl, fun _ => rfl, fun _ => rfl, rfl⟩
  simp only [maybeSleep] at h
  split at h
  · cases h
    exact hclock
  · split at h
    · cases h
    · rename_i s' hs'
      have hg := hclock.trans ((getAccount_grows P _ accountId).trans (refreshAccount_grows hs'))
      split at h <;> · cases h; exact hg

theorem tbucketCausesFree_grows (P : Platform) (s : State) (l : Nat) :
    Grows s (tbucketCausesFree P s l) := foldl_chargeEstimate_grows P _ _ s

theorem freeCauseList_grows (P : Platform) (s : State) (l : Nat) :
    Grows s (freeCauseList P s l) := by
  unfold freeCauseList
  split
  · exact tbucketCausesFree_grows P s l
  · exact .refl s

end Tb
end SplitSched
