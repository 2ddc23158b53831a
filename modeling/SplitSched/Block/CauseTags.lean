import SplitSched.Block.Platform

/-!
# SplitSched.Block.CauseTags

Cause lists (cause_tags.c and cause_tags.h of the 4.5 patch set) and the objects of the block layer
that point to them. A cause list names the accounts on whose behalf a buffer was written; a bio
carries a list of cause lists, one for each buffer it holds; a request is a chain of bios with a
cause list of its own to fall back on.

`CauseList` carries its representation invariant: the account ids are pairwise distinct and
`item_count` is their number. Pointers are numbers into the heap `Mem`. Reference counts and the
allocation counters are not part of this model.
-/

namespace SplitSched

inductive SplitType where
  | unknown
  | data
  | journal
  | checkpoint
  | zero
  | journalMeta
  deriving DecidableEq, Repr

/-- `struct cause_list`. `priv` is the field `private`, where the schedulers keep a cost. -/
structure CauseList where
  type : SplitType
  items : List Int
  itemCount : Int
  callbackQ : Option Nat
  schedUniq : Int
  size : Nat
  priv : Int
  nodup : items.Nodup
  count_eq : itemCount = items.length

namespace CauseList

/-- `new_cause_list`, when the allocation succeeds. -/
def new : CauseList where
  type := .unknown
  items := []
  itemCount := 0
  callbackQ := none
  schedUniq := 0
  size := 0
  priv := -1
  nodup := List.nodup_nil
  count_eq := rfl

/-- Append an account that is not listed yet. -/
def push (c : CauseList) (id : Int) (h : id ∉ c.items) : CauseList :=
  { c with
    items := c.items ++ [id]
    itemCount := c.itemCount + 1
    nodup := by
      rw [List.nodup_append]
      refine ⟨c.nodup, List.nodup_singleton id, ?_⟩
      intro a ha b hb
      rw [List.mem_singleton.mp hb]
      exact fun e => h (e ▸ ha)
    count_eq := by rw [c.count_eq, List.length_append, List.length_singleton]; push_cast; rfl }

end CauseList

def causesSetCost (c : CauseList) (cost : Int) : CauseList := { c with priv := cost }

def causesGetCost (c : CauseList) : Int := c.priv

def setCauseListType (c : CauseList) (type : SplitType) : CauseList := { c with type := type }

/-- `__cause_list_add`: the number of accounts added and the list. -/
def causeListAddId (env : Env) (c : CauseList) (id : Int) : Nat × CauseList × Env :=
  if h : id ∈ c.items then (0, c, env)
  else
    let m := env.kmalloc
    if m.1 then (1, c.push id h, m.2) else (0, c, m.2)

/-- The loop of `cause_list_copy` over the accounts of the source list. -/
def causeListCopyItems (env : Env) : List Int → CauseList → Nat × CauseList × Env
  | [], c => (0, c, env)
  | id :: ids, c =>
    let r := causeListAddId env c id
    let r' := causeListCopyItems r.2.2 ids r.2.1
    (r.1 + r'.1, r'.2)

def causeListCopy (env : Env) (source target : CauseList) : Nat × CauseList × Env :=
  causeListCopyItems env source.items target

/-! ## Objects of the block layer -/

structure Task where
  accountId : Int
  /-- Set while the task works on behalf of others. -/
  causes : Option Nat

structure CauseListList where
  uniqCauses : Nat
  size : Nat
  items : List Nat
  itemCapacity : Nat

structure Bio where
  cll : Option CauseListList
  biSector : Nat
  biSize : Nat

/-- `struct request`: `write` is `rq_data_dir`, `bytes` is `blk_rq_bytes`, `pos` is `blk_rq_pos` and
`causes` is the list `RQ_CAUSES` points to. -/
structure Request where
  bios : List Bio
  write : Bool
  bytes : Nat
  pos : Nat
  causes : Option Nat

/-- The heap. `inodePos` is the field `i_private1`; `schedUniq` belongs to the request queue. -/
structure Mem where
  lists : Nat → CauseList
  rqs : Nat → Request
  inodePos : Nat → Int
  schedUniq : Int
  jiffies : Int

namespace Mem

def setList (m : Mem) (l : Nat) (c : CauseList) : Mem :=
  { m with lists := Function.update m.lists l c }

@[simp] theorem setList_lists_self (m : Mem) (l : Nat) (c : CauseList) :
    (m.setList l c).lists l = c := by simp [setList]

theorem setList_lists_of_ne (m : Mem) {l l' : Nat} (c : CauseList) (h : l' ≠ l) :
    (m.setList l c).lists l' = m.lists l' := by simp [setList, h]

@[simp] theorem setList_self (m : Mem) (l : Nat) : m.setList l (m.lists l) = m := by simp [setList]

@[simp] theorem setList_rqs (m : Mem) (l : Nat) (c : CauseList) : (m.setList l c).rqs = m.rqs := rfl

@[simp] theorem setList_inodePos (m : Mem) (l : Nat) (c : CauseList) :
    (m.setList l c).inodePos = m.inodePos := rfl

@[simp] theorem setList_schedUniq (m : Mem) (l : Nat) (c : CauseList) :
    (m.setList l c).schedUniq = m.schedUniq := rfl

end Mem

def inodeSetPos (m : Mem) (inode : Nat) (pos : Int) : Mem :=
  { m with inodePos := Function.update m.inodePos inode pos }

def inodeGetPos (m : Mem) (inode : Nat) : Int := m.inodePos inode

/-- `cause_list_add` on the list `l`: the task itself, or the tasks it works for. -/
def causeListAdd (env : Env) (m : Mem) (l : Nat) (task : Task) : Nat × CauseList × Env :=
  match task.causes with
  | some p => causeListCopy env (m.lists p) (m.lists l)
  | none => causeListAddId env (m.lists l) task.accountId

/-! A small memory and environment, for runs on fixed inputs. -/

/-- Request `r` is a read of 4 KiB at sector `8 * r`, with the cause list `r` of its own. -/
def sampleMem : Mem where
  lists _ := .new
  rqs r := ⟨[⟨none, 8 * r, 4096⟩], false, 4096, 8 * r, some r⟩
  inodePos _ := 0
  schedUniq := 1000
  jiffies := 0

/-- Account 7 has dirtied every page. -/
def pagesOfSeven : Mem where
  __ := sampleMem
  lists _ := ⟨.unknown, [7], 1, none, 0, 4096, -1, List.nodup_singleton 7, rfl⟩

/-- A stopped clock, and memory to spare. -/
def sampleEnv : Env := ⟨fun _ => ⟨1, 0⟩, fun _ => true, 0⟩

end SplitSched
