import SplitSched.Block.Extents
import SplitSched.Lib.RefCount
import SplitSched.Lib.Run

/-!
# SplitSched.Block.CauseRefs

Who holds a reference to a cause list (cause_tags.c and buffer.c of the 4.5 patch set). A list is
shared by buffers, journal heads, transactions, tasks, bios and requests; it is freed when its
reference count drops to 0. Every allocation may fail.

* `CauseRefs`: the counts of the lists and the pointers to them.
* `holders`: a reference for every pointer, among them the items and `uniq_causes` of the lists of
  cause lists and the queued works of `put_cause_list_safe`.
* `Sound`: the counts are the holders, what is in local variables, and what was lost because
  `put_cause_list_safe` found no memory. Every function keeps it, and says what it takes from its
  caller and leaves to it.
* `refcount_counts_holders`: in every run, no list is freed as long as it has a holder.

`cause_list_check` returns 0 in the configuration of cause_tags.h. The scheduler's hook in
`free_cause_list` takes no references; it is modelled with the schedulers.
-/

namespace SplitSched

/-- A pointer to a cause list: the field `causes` of a buffer head, a journal head, a transaction or a
task; the pointers of a btrfs page, of a request, and of a journal commit that is under way. -/
inductive Slot where
  | bh (i : Nat)
  | jh (i : Nat)
  | transaction (i : Nat)
  | task (i : Nat)
  | page (i : Nat)
  | rq (i : Nat)
  | commit (i : Nat)
  deriving DecidableEq, Repr

/-- `struct cause_list_mem_desc`. -/
structure CauseListMemDesc where
  causeListAlloc : Nat
  causeListFree : Nat
  causeItemAlloc : Nat
  causeItemFree : Nat
  deriving DecidableEq, Repr

structure CauseRefs where
  mem : Mem
  env : Env
  refcount : Krefs
  slots : AList fun _ : Slot => Nat
  /-- The field `cll` of the bios. -/
  clls : AList fun _ : Nat => CauseListList
  /-- The queued `put_cause_list_work`s. -/
  works : List (Option Nat)
  /-- The arguments of the calls of `put_cause_list_safe` that found no memory. -/
  lost : List (Option Nat)
  desc : CauseListMemDesc

namespace CauseRefs

def init (m : Mem) (env : Env) : CauseRefs := ⟨m, env, .empty, ∅, ∅, [], [], ⟨0, 0, 0, 0⟩⟩

/-! ## The functions -/

def causes (s : CauseRefs) (i : Slot) : Option Nat := s.slots.lookup i

def setCauses (s : CauseRefs) (i : Slot) : Option Nat → CauseRefs
  | some l => { s with slots := s.slots.insert i l }
  | none => { s with slots := s.slots.erase i }

/-- The counter `cause_item_alloc` counts the attempts. -/
def allocItems (s : CauseRefs) (n : Nat) : CauseRefs :=
  { s with desc := { s.desc with causeItemAlloc := s.desc.causeItemAlloc + n } }

def newCauseList (s : CauseRefs) : Option Nat × CauseRefs :=
  let m := s.env.kmalloc
  if m.1 then
    (some s.refcount.next,
      { s with
        env := m.2
        refcount := s.refcount.alloc
        mem := s.mem.setList s.refcount.next .new
        desc := { s.desc with causeListAlloc := s.desc.causeListAlloc + 1 } })
  else (none, { s with env := m.2 })

def freeCauseList (s : CauseRefs) (l : Nat) : CauseRefs :=
  { s with
    refcount := s.refcount.release l
    desc := { s.desc with
      causeItemFree := s.desc.causeItemFree + (s.mem.lists l).items.length
      causeListFree := s.desc.causeListFree + 1 } }

def getCauseList (s : CauseRefs) : Option Nat → Option Nat × CauseRefs
  | none => (none, s)
  | some l => (some l, { s with refcount := s.refcount.get l })

def putCauseList (s : CauseRefs) : Option Nat → CauseRefs
  | none => s
  | some l =>
    -- `kref_put`
    let s' := { s with refcount := s.refcount.drop l }
    if s'.refcount.count l = 0 then freeCauseList s' l else s'

def putCauseListSafe (s : CauseRefs) (p : Option Nat) : CauseRefs :=
  let m := s.env.kmalloc
  if m.1 then { s with env := m.2, works := s.works ++ [p] }
  else { s with env := m.2, lost := s.lost ++ [p] }

def doPutCauseListWork (s : CauseRefs) (p : Option Nat) : CauseRefs :=
  putCauseList { s with works := s.works.erase p } p

/-- `__cause_list_add`. -/
def causeListAddId (s : CauseRefs) (p : Option Nat) (id : Int) : Nat × CauseRefs :=
  match p with
  | none => (0, s)
  | some l =>
    let r := SplitSched.causeListAddId s.env (s.mem.lists l) id
    (r.1, { s with mem := s.mem.setList l r.2.1, env := r.2.2 }.allocItems
      (if id ∈ (s.mem.lists l).items then 0 else 1))

/-- How often the loop of `cause_list_copy` asks for memory. -/
def itemAllocs (env : Env) : List Int → CauseList → Nat
  | [], _ => 0
  | id :: ids, c =>
    let r := SplitSched.causeListAddId env c id
    (if id ∈ c.items then 0 else 1) + itemAllocs r.2.2 ids r.2.1

/-- `if (!*to) *to = new_cause_list();` -/
def ensureCauses (s : CauseRefs) (i : Slot) : CauseRefs :=
  match s.causes i with
  | some _ => s
  | none =>
    let r := newCauseList s
    r.2.setCauses i r.1

def causeListCopy (s : CauseRefs) (p : Option Nat) (i : Slot) : Nat × CauseRefs :=
  let s := s.ensureCauses i
  match p, s.causes i with
  | some source, some target =>
    let r := SplitSched.causeListCopy s.env (s.mem.lists source) (s.mem.lists target)
    (r.1, { s with mem := s.mem.setList target r.2.1, env := r.2.2 }.allocItems
      (itemAllocs s.env (s.mem.lists source).items (s.mem.lists target)))
  | _, _ => (0, s)

def causeListAdd (s : CauseRefs) (i : Slot) (task : Nat) (accountId : Int) : Nat × CauseRefs :=
  let s := s.ensureCauses i
  match s.causes (.task task) with
  | some p => causeListCopy s (some p) i
  | none => causeListAddId s (s.causes i) accountId

def newCauseListList (s : CauseRefs) (itemCapacity : Int) : Option CauseListList × CauseRefs :=
  if itemCapacity < 0 then (none, s)
  else
    let m := s.env.kmalloc
    let r := newCauseList { s with env := m.2 }
    match r.1 with
    | none => (none, r.2)
    | some uniq =>
      if m.1 then (some (SplitSched.newCauseListList r.2.mem uniq itemCapacity.toNat).1, r.2)
      -- `kfree(uniq_causes)`
      else (none, { r.2 with refcount := r.2.refcount.discard uniq })

/-- `if (!bio->cll) bio->cll = new_cause_list_list(..);` -/
def ensureCll (s : CauseRefs) (bio : Nat) (itemCapacity : Int) : CauseRefs :=
  match s.clls.lookup bio with
  | some _ => s
  | none =>
    let r := newCauseListList s itemCapacity
    match r.1 with
    | some cll => { r.2 with clls := r.2.clls.insert bio cll }
    | none => r.2

/-- `cause_list_list_add(bio->cll, cl)`. -/
def causeListListAdd (s : CauseRefs) (bio : Nat) (p : Option Nat) : CauseRefs :=
  match s.clls.lookup bio, p with
  | some cll, some l =>
    if cll.items.length = cll.itemCapacity then s
    else
      let r := SplitSched.causeListListAdd s.env s.mem cll l
      { s with
        mem := r.2.1
        env := r.2.2
        clls := s.clls.insert bio r.1
        refcount := s.refcount.get l }.allocItems
          (if cll.items.getLast? ≠ some l then
            itemAllocs s.env (s.mem.lists l).items (s.mem.lists cll.uniqCauses) else 0)
  | _, _ => s

/-- `del_cause_list_list(bio->cll)`, after which the bio is freed. -/
def delCauseListList (s : CauseRefs) (bio : Nat) : CauseRefs :=
  match s.clls.lookup bio with
  | none => s
  | some cll =>
    let s := cll.items.foldl (fun s l => putCauseList s (some l)) s
    let s := putCauseList s (some cll.uniqCauses)
    { s with clls := s.clls.erase bio }

/-- `maxSectors` is `queue_max_sectors` of the bio's queue. -/
def addCausesZeroToBio (s : CauseRefs) (bio size maxSectors : Nat) : CauseRefs :=
  let s := s.ensureCll bio (maxSectors / 8 : Nat)
  match s.clls.lookup bio with
  | none => s
  | some _ =>
    let r := newCauseList s
    match r.1 with
    | none => r.2
    | some l =>
      let c := { setCauseListType (r.2.mem.lists l) .zero with size := size }
      let s := { r.2 with mem := r.2.mem.setList l c }
      putCauseList (causeListListAdd s bio (some l)) (some l)

def moveCausesBhToBio (s : CauseRefs) (bh bSize bio maxSectors : Nat) : CauseRefs :=
  match s.causes (.bh bh) with
  | none => s
  | some l =>
    let s := s.ensureCll bio (maxSectors / 8 : Nat)
    let s := { s with mem := s.mem.setList l { s.mem.lists l with size := bSize } }
    let s := causeListListAdd s bio (some l)
    (putCauseList s (some l)).setCauses (.bh bh) none

def freeBufferHead (s : CauseRefs) (bh : Nat) : CauseRefs :=
  (putCauseList s (s.causes (.bh bh))).setCauses (.bh bh) none

/-! ## Runs -/

/-- The pointers in a list of cause lists. -/
def cllPointers (cll : CauseListList) : List Nat := cll.uniqCauses :: cll.items

/-- A reference for every pointer to a list. -/
def holders (s : CauseRefs) : Multiset Nat :=
  contents (fun l => [l]) s.slots + contents cllPointers s.clls + (s.works.reduceOption : List Nat)

/-- `p` is a pointer that somebody holds, or `NULL`. -/
def Held (s : CauseRefs) (p : Option Nat) : Prop := ∀ l ∈ p, l ∈ s.holders

instance (s : CauseRefs) (p : Option Nat) : Decidable (s.Held p) := by
  unfold Held; infer_instance

inductive Event where
  /-- The pointer was `NULL` and is set to a new list. -/
  | new (i : Slot)
  | add (i : Slot) (task : Nat) (accountId : Int)
  | copy (p : Option Nat) (i : Slot)
  /-- The pointer was `NULL` and is set to `p`, with a reference of its own. -/
  | get (p : Option Nat) (i : Slot)
  /-- The pointer is given up. -/
  | put (i : Slot)
  | putSafe (i : Slot)
  | work (p : Option Nat)
  | newCll (bio : Nat) (itemCapacity : Int)
  | cllAdd (bio : Nat) (p : Option Nat)
  | delCll (bio : Nat)
  | zeroToBio (bio size maxSectors : Nat)
  | moveBhToBio (bh bSize bio maxSectors : Nat)
  | freeBufferHead (bh : Nat)

def step (s : CauseRefs) : Event → Option CauseRefs
  | .new i => if s.causes i = none then some (s.ensureCauses i) else none
  | .add i task accountId => some (causeListAdd s i task accountId).2
  | .copy p i => if s.Held p then some (causeListCopy s p i).2 else none
  | .get p i =>
    if s.causes i = none ∧ s.Held p then
      let r := getCauseList s p
      some (r.2.setCauses i r.1)
    else none
  | .put i => some ((putCauseList s (s.causes i)).setCauses i none)
  | .putSafe i => some ((putCauseListSafe s (s.causes i)).setCauses i none)
  | .work p => if p ∈ s.works then some (doPutCauseListWork s p) else none
  | .newCll bio itemCapacity =>
    if s.clls.lookup bio = none then some (s.ensureCll bio itemCapacity) else none
  | .cllAdd bio p => if s.Held p then some (causeListListAdd s bio p) else none
  | .delCll bio => some (delCauseListList s bio)
  | .zeroToBio bio size maxSectors => some (addCausesZeroToBio s bio size maxSectors)
  | .moveBhToBio bh bSize bio maxSectors => some (moveCausesBhToBio s bh bSize bio maxSectors)
  | .freeBufferHead bh => some (freeBufferHead s bh)

/-! ## References and their owners -/

def refs (s : CauseRefs) : Multiset Nat := s.holders + (s.lost.reduceOption : List Nat)

/-- The counts are right, if the local variables of the caller hold `owned`. -/
def Sound (owned : Multiset Nat) (s : CauseRefs) : Prop := s.refcount.Balanced (owned + s.refs)

variable {s : CauseRefs} {owned : Multiset Nat} {i : Slot} {p : Option Nat} {l bio : Nat}

theorem init_sound (m : Mem) (env : Env) : (init m env).Sound 0 := Krefs.empty_balanced

theorem refs_setCauses (s : CauseRefs) (i : Slot) (p : Option Nat) :
    (s.setCauses i p).refs = p.toList + (s.setCauses i none).refs := by
  cases p with
  | none => simp
  | some l =>
    unfold refs holders
    simp only [setCauses, contents_insert, Option.toList_some]
    abel

theorem refs_eq_causes_add (s : CauseRefs) (i : Slot) :
    s.refs = (s.causes i).toList + (s.setCauses i none).refs := by
  have hlist : ((s.slots.lookup i).elim [] fun l => [l]) = (s.causes i).toList := by
    unfold causes
    cases s.slots.lookup i <;> rfl
  unfold refs holders
  simp only [setCauses]
  rw [contents_erase s.slots i, hlist]
  abel

theorem mem_refs_of_causes (h : s.causes i = some l) : l ∈ s.refs := by
  rw [refs_eq_causes_add s i, h]
  simp

/-- A reference moves from a local variable to a pointer that was `NULL`. -/
theorem Sound.setCauses (h : s.Sound (p.toList + owned)) (hi : s.causes i = none) :
    (s.setCauses i p).Sound owned := by
  unfold Sound at h ⊢
  have hrefs : p.toList + owned + s.refs = owned + (s.setCauses i p).refs := by
    rw [refs_setCauses, refs_eq_causes_add s i, hi, Option.toList_none, Multiset.coe_nil, zero_add]
    abel
  rw [hrefs] at h
  cases p with
  | none => exact h
  | some l => exact h

/-- A reference moves from a pointer to a local variable. -/
theorem Sound.clearCauses (h : s.Sound owned) (i : Slot) :
    (s.setCauses i none).Sound ((s.causes i).toList + owned) := by
  unfold Sound at h ⊢
  rw [refs_eq_causes_add s i, add_left_comm, ← add_assoc] at h
  exact h

/-! ## One function after the other -/

theorem newCauseList_cases (s : CauseRefs) :
    (∃ env, newCauseList s = (none, { s with env := env }) ∧ ¬s.env.Plenty) ∨
    ∃ env d, newCauseList s = (some s.refcount.next,
        { s with
          env := env, refcount := s.refcount.alloc, mem := s.mem.setList s.refcount.next .new, desc := d }) ∧
      (s.env.Plenty → env.Plenty) := by
  unfold newCauseList
  by_cases hm : s.env.kmalloc.1
  · simp only [hm, if_true]
    exact .inr ⟨_, _, rfl, fun henv => henv⟩
  · simp only [hm, if_false, Bool.false_eq_true]
    exact .inl ⟨_, rfl, fun henv => hm henv.kmalloc⟩

theorem newCauseList_sound (h : s.Sound owned) :
    (newCauseList s).2.Sound ((newCauseList s).1.toList + owned) := by
  rcases newCauseList_cases s with ⟨env, hnew, -⟩ | ⟨env, d, hnew, -⟩
  · rw [hnew, Option.toList_none, Multiset.coe_nil, zero_add]
    exact h
  · rw [hnew]
    have halloc := Krefs.Balanced.alloc h
    rw [← Multiset.cons_add] at halloc
    exact halloc

theorem getCauseList_sound (h : s.Sound owned) (hp : ∀ l ∈ p, l ∈ owned + s.refs) :
    (getCauseList s p).2.Sound ((getCauseList s p).1.toList + owned) := by
  cases p with
  | none =>
    unfold getCauseList
    rw [Option.toList_none, Multiset.coe_nil, zero_add]
    exact h
  | some l =>
    have hget := Krefs.Balanced.get h (hp l rfl)
    rw [← Multiset.cons_add] at hget
    exact hget

/-- Only the counts change. -/
theorem putCauseList_eq (s : CauseRefs) (l : Nat) :
    ∃ d, putCauseList s (some l) = { s with refcount := s.refcount.put l, desc := d } := by
  unfold putCauseList Krefs.put freeCauseList
  by_cases hz : (s.refcount.drop l).count l = 0
  · simp only [hz, if_true]
    exact ⟨_, rfl⟩
  · simp only [hz, if_false]
    exact ⟨_, rfl⟩

theorem putCauseList_sound (h : s.Sound (p.toList + owned)) : (putCauseList s p).Sound owned := by
  cases p with
  | none =>
    rw [Option.toList_none, Multiset.coe_nil, zero_add] at h
    exact h
  | some l =>
    obtain ⟨d, hput⟩ := putCauseList_eq s l
    rw [hput]
    unfold Sound at h ⊢
    rw [Option.toList_some, Multiset.coe_singleton, Multiset.singleton_add, Multiset.cons_add] at h
    exact h.put

/-- A pointer is given up; the assignment comes after `put_cause_list`. -/
theorem giveUp_sound (h : s.Sound owned) (i : Slot) :
    ((putCauseList s (s.causes i)).setCauses i none).Sound owned := by
  have hclear := h.clearCauses i
  cases hp : s.causes i with
  | none =>
    rw [hp, Option.toList_none, Multiset.coe_nil, zero_add] at hclear
    exact hclear
  | some l =>
    obtain ⟨d, hput⟩ := putCauseList_eq s l
    rw [hput]
    rw [hp, Option.toList_some, Multiset.coe_singleton, Multiset.singleton_add] at hclear
    unfold Sound at hclear ⊢
    rw [Multiset.cons_add] at hclear
    exact hclear.put

theorem refs_putCauseListSafe (s : CauseRefs) (p : Option Nat) :
    (putCauseListSafe s p).refs = p.toList + s.refs := by
  have hlast : ∀ ps : List (Option Nat),
      ((ps ++ [p]).reduceOption : Multiset Nat) = p.toList + (ps.reduceOption : Multiset Nat) := by
    intro ps
    rw [List.reduceOption_append, ← Multiset.coe_add, add_comm]
    cases p <;> rfl
  unfold putCauseListSafe refs holders
  by_cases hm : s.env.kmalloc.1
  · simp only [hm, if_true, hlast]
    abel
  · simp only [hm, if_false, Bool.false_eq_true, hlast]
    abel

/-- The reference goes to the queued work, or it is lost. -/
theorem putCauseListSafe_sound (h : s.Sound (p.toList + owned)) :
    (putCauseListSafe s p).Sound owned := by
  have hcount : (putCauseListSafe s p).refcount = s.refcount := by
    unfold putCauseListSafe
    by_cases hm : s.env.kmalloc.1
    · simp only [hm, if_true]
    · simp only [hm, if_false, Bool.false_eq_true]
  unfold Sound at h ⊢
  rw [hcount, refs_putCauseListSafe]
  rwa [add_comm (p.toList : Multiset Nat), add_assoc] at h

theorem giveUpSafe_sound (h : s.Sound owned) (i : Slot) :
    ((putCauseListSafe s (s.causes i)).setCauses i none).Sound owned := by
  have hclear : (putCauseListSafe s (s.causes i)).setCauses i none =
      putCauseListSafe (s.setCauses i none) (s.causes i) := by
    unfold putCauseListSafe
    by_cases hm : s.env.kmalloc.1
    · simp only [setCauses, hm, if_true]
    · simp only [setCauses, hm, if_false, Bool.false_eq_true]
  rw [hclear]
  exact putCauseListSafe_sound (h.clearCauses i)

theorem doPutCauseListWork_sound (h : s.Sound owned) (hp : p ∈ s.works) :
    (doPutCauseListWork s p).Sound owned := by
  have hworks : (s.works.reduceOption : Multiset Nat) =
      p.toList + ((s.works.erase p).reduceOption : Multiset Nat) := by
    have hperm := Multiset.coe_eq_coe.mpr ((List.perm_cons_erase hp).filterMap id)
    cases p with
    | none => exact hperm
    | some l => exact hperm
  apply putCauseList_sound
  unfold Sound refs holders at h ⊢
  rw [hworks] at h
  convert h using 1
  abel

theorem ensureCauses_sound (h : s.Sound owned) (i : Slot) : (s.ensureCauses i).Sound owned := by
  unfold ensureCauses
  cases hi : s.causes i with
  | some l => exact h
  | none =>
    refine (newCauseList_sound h).setCauses ?_
    rcases newCauseList_cases s with ⟨env, hnew, -⟩ | ⟨env, d, hnew, -⟩
    · rw [hnew]
      exact hi
    · rw [hnew]
      exact hi

theorem causeListAddId_sound (h : s.Sound owned) (p : Option Nat) (id : Int) :
    (causeListAddId s p id).2.Sound owned := by
  unfold causeListAddId
  cases p with
  | none => exact h
  | some l => exact h

theorem causeListCopy_sound (h : s.Sound owned) (p : Option Nat) (i : Slot) :
    (causeListCopy s p i).2.Sound owned := by
  have he := ensureCauses_sound h i
  unfold causeListCopy
  cases p with
  | none => exact he
  | some source =>
    cases ht : (s.ensureCauses i).causes i with
    | none => 
      simp only [ht]
      exact he
    | some target => 
      simp only [ht]
      exact he

theorem causeListAdd_sound (h : s.Sound owned) (i : Slot) (task : Nat) (accountId : Int) :
    (causeListAdd s i task accountId).2.Sound owned := by
  have he := ensureCauses_sound h i
  unfold causeListAdd
  cases ht : (s.ensureCauses i).causes (.task task) with
  | none =>
    simp only [ht]
    exact causeListAddId_sound he _ _
  | some p =>
    simp only [ht]
    exact causeListCopy_sound he _ _

/-- A list of cause lists comes with a new list; if it cannot be had, no list is left over. -/
theorem newCauseListList_cases (s : CauseRefs) (itemCapacity : Int) :
    (∃ env m d c, newCauseListList s itemCapacity = (none,
        { s with env := env, refcount := c, mem := m, desc := d }) ∧
      (c = s.refcount ∨ c = s.refcount.alloc.discard s.refcount.next) ∧
      (∀ k, k ≠ s.refcount.next → m.lists k = s.mem.lists k) ∧ (s.env.Plenty → env.Plenty)) ∨
    ∃ env d, newCauseListList s itemCapacity = (some ⟨s.refcount.next, 0, [], itemCapacity.toNat⟩,
        { s with
          env := env, refcount := s.refcount.alloc, mem := s.mem.setList s.refcount.next .new, desc := d }) ∧
      (s.env.Plenty → env.Plenty) := by
  unfold newCauseListList
  by_cases hneg : itemCapacity < 0
  · simp only [hneg, if_true]
    exact .inl ⟨_, _, _, _, rfl, .inl rfl, fun _ _ => rfl, fun henv => henv⟩
  simp only [hneg, if_false]
  rcases newCauseList_cases { s with env := s.env.kmalloc.2 } with
    ⟨env, hnew, hshort⟩ | ⟨env, d, hnew, henv⟩
  · simp only [hnew]
    exact .inl ⟨_, _, _, _, rfl, .inl rfl, fun _ _ => rfl, fun henv => absurd henv hshort⟩
  · simp only [hnew]
    by_cases hm : s.env.kmalloc.1
    · simp only [hm, if_true]
      exact .inr ⟨_, _, rfl, henv⟩
    · simp only [hm, if_false, Bool.false_eq_true]
      exact .inl ⟨_, _, _, _, rfl, .inr rfl, fun _ => Mem.setList_lists_of_ne _ _, henv⟩

/-- The references of a list of cause lists move from a local variable to the bio. -/
theorem Sound.setCll {cll : CauseListList} (h : s.Sound (cllPointers cll + owned))
    (hb : s.clls.lookup bio = none) :
    ({ s with clls := s.clls.insert bio cll } : CauseRefs).Sound owned := by
  unfold Sound refs holders at h ⊢
  rw [contents_erase s.clls bio, hb] at h
  rw [contents_insert]
  convert h using 1
  simp only [Option.elim_none, Multiset.coe_nil]
  abel

theorem ensureCll_sound (h : s.Sound owned) (bio : Nat) (itemCapacity : Int) :
    (s.ensureCll bio itemCapacity).Sound owned := by
  unfold ensureCll
  cases hb : s.clls.lookup bio with
  | some cll => exact h
  | none =>
    rcases newCauseListList_cases s itemCapacity with
      ⟨env, m, d, c, hnew, rfl | rfl, -⟩ | ⟨env, d, hnew, -⟩
    · simp only [hnew]
      exact h
    · simp only [hnew]
      exact h.alloc.discard h.next_notMem
    · simp only [hnew]
      refine Sound.setCll (s := { s with env := env, refcount := _, mem := _, desc := d }) ?_ hb
      unfold Sound
      have halloc := h.alloc
      rw [← Multiset.cons_add] at halloc
      exact halloc

/-- The list of cause lists takes a reference of its own, or nothing changes. -/
theorem causeListListAdd_sound (h : s.Sound owned) (bio : Nat)
    (hp : ∀ l ∈ p, l ∈ owned + s.refs) : (causeListListAdd s bio p).Sound owned := by
  unfold causeListListAdd
  cases hb : s.clls.lookup bio with
  | none => exact h
  | some cll =>
    cases p with
    | none => exact h
    | some l =>
      by_cases hfull : cll.items.length = cll.itemCapacity
      · simp only [hfull, if_true]
        exact h
      simp only [hfull, if_false]
      have hget := Krefs.Balanced.get h (hp l rfl)
      have hlists : cllPointers (SplitSched.causeListListAdd s.env s.mem cll l).1 =
          cllPointers cll ++ [l] := by
        unfold cllPointers SplitSched.causeListListAdd
        simp only [hfull, if_false, List.cons_append]
      unfold Sound refs holders allocItems
      simp only
      rw [contents_insert, hlists]
      unfold refs holders at hget
      rw [contents_erase s.clls bio, hb] at hget
      convert hget using 1
      rw [Option.elim_some, ← Multiset.coe_add, Multiset.coe_singleton, ← Multiset.singleton_add]
      abel

theorem foldl_putCauseList_eq (ls : List Nat) : ∀ s : CauseRefs,
    ∃ d, ls.foldl (fun s l => putCauseList s (some l)) s =
      { s with refcount := ls.foldl Krefs.put s.refcount, desc := d } := by
  induction ls with
  | nil =>
    intro s
    exact ⟨_, rfl⟩
  | cons l ls ih =>
    intro s
    obtain ⟨d, hput⟩ := putCauseList_eq s l
    obtain ⟨d', hrest⟩ := ih { s with refcount := s.refcount.put l, desc := d }
    exact ⟨d', by rw [List.foldl_cons, hput, hrest]; rfl⟩

theorem delCauseListList_sound (h : s.Sound owned) (bio : Nat) :
    (delCauseListList s bio).Sound owned := by
  unfold delCauseListList
  cases hb : s.clls.lookup bio with
  | none => exact h
  | some cll =>
    obtain ⟨d, hloop⟩ := foldl_putCauseList_eq cll.items s
    obtain ⟨d', hput⟩ := putCauseList_eq
      { s with refcount := cll.items.foldl Krefs.put s.refcount, desc := d } cll.uniqCauses
    simp only [hloop, hput]
    unfold Sound refs holders at h ⊢
    rw [contents_erase s.clls bio, hb] at h
    apply Krefs.Balanced.put
    apply Krefs.Balanced.putAll cll.items
    convert h using 1
    simp only [Option.elim_some, cllPointers, ← Multiset.cons_coe, ← Multiset.singleton_add]
    abel

theorem addCausesZeroToBio_sound (h : s.Sound owned) (bio size maxSectors : Nat) :
    (addCausesZeroToBio s bio size maxSectors).Sound owned := by
  have hcll := ensureCll_sound h bio (maxSectors / 8 : Nat)
  unfold addCausesZeroToBio
  generalize s.ensureCll bio (maxSectors / 8 : Nat) = s at hcll
  cases hb : s.clls.lookup bio with
  | none => 
    simp only [hb]
    exact hcll
  | some cll =>
    have hlist := newCauseList_sound hcll
    simp only [hb]
    cases hnew : (newCauseList s).1 with
    | none =>
      rw [hnew, Option.toList_none, Multiset.coe_nil, zero_add] at hlist
      exact hlist
    | some l =>
      rw [hnew] at hlist
      apply putCauseList_sound
      refine causeListListAdd_sound ?_ bio ?_
      · exact hlist
      · rintro l' ⟨⟩
        simp

theorem causeListListAdd_causes (s : CauseRefs) (bio : Nat) (p : Option Nat) :
    (causeListListAdd s bio p).causes = s.causes := by
  unfold causeListListAdd
  split
  · split <;> rfl
  · rfl

theorem ensureCll_causes (s : CauseRefs) (bio : Nat) (itemCapacity : Int) :
    (s.ensureCll bio itemCapacity).causes = s.causes := by
  unfold ensureCll
  cases s.clls.lookup bio with
  | some cll => rfl
  | none =>
    rcases newCauseListList_cases s itemCapacity with
      ⟨env, m, d, c, hnew, -⟩ | ⟨env, d, hnew, -⟩
    · simp only [hnew]
      rfl
    · simp only [hnew]
      rfl

theorem moveCausesBhToBio_sound (h : s.Sound owned) (bh bSize bio maxSectors : Nat) :
    (moveCausesBhToBio s bh bSize bio maxSectors).Sound owned := by
  unfold moveCausesBhToBio
  cases hl : s.causes (.bh bh) with
  | none => exact h
  | some l =>
    have hcll := ensureCll_sound h bio (maxSectors / 8 : Nat)
    have hsame := ensureCll_causes s bio (maxSectors / 8 : Nat)
    simp only
    generalize s.ensureCll bio (maxSectors / 8 : Nat) = t at hcll hsame
    generalize hm : t.mem.setList l { t.mem.lists l with size := bSize } = m
    have hheld : ({ t with mem := m } : CauseRefs).causes (.bh bh) = some l :=
      (congrFun hsame _).trans hl
    have hadd := causeListListAdd_sound (s := { t with mem := m }) (p := some l) hcll bio
      (by
        rintro l' ⟨⟩
        exact Multiset.mem_add.mpr (.inr (mem_refs_of_causes hheld)))
    have hgive := giveUp_sound hadd (.bh bh)
    rw [causeListListAdd_causes, hheld] at hgive
    exact hgive

theorem step_sound {s' : CauseRefs} {e : Event} (h : s.Sound 0) (hs : step s e = some s') :
    s'.Sound 0 := by
  have hheld : ∀ {p}, s.Held p → ∀ l ∈ p, l ∈ 0 + s.refs := by
    intro p hp l hl
    rw [zero_add]
    exact Multiset.mem_add.mpr (.inl (hp l hl))
  cases e with
  | new i =>
    simp only [step, Option.ite_none_right_eq_some, Option.some.injEq] at hs
    exact hs.2 ▸ ensureCauses_sound h i
  | add i task accountId =>
    cases hs
    exact causeListAdd_sound h i task accountId
  | copy p i =>
    simp only [step, Option.ite_none_right_eq_some, Option.some.injEq] at hs
    exact hs.2 ▸ causeListCopy_sound h p i
  | get p i =>
    simp only [step, Option.ite_none_right_eq_some, Option.some.injEq] at hs
    obtain ⟨⟨hi, hp⟩, rfl⟩ := hs
    refine (getCauseList_sound h (hheld hp)).setCauses ?_
    cases p with
    | none => exact hi
    | some l => exact hi
  | put i =>
    cases hs
    exact giveUp_sound h i
  | putSafe i =>
    cases hs
    exact giveUpSafe_sound h i
  | work p =>
    simp only [step, Option.ite_none_right_eq_some, Option.some.injEq] at hs
    exact hs.2 ▸ doPutCauseListWork_sound h hs.1
  | newCll bio itemCapacity =>
    simp only [step, Option.ite_none_right_eq_some, Option.some.injEq] at hs
    exact hs.2 ▸ ensureCll_sound h bio itemCapacity
  | cllAdd bio p =>
    simp only [step, Option.ite_none_right_eq_some, Option.some.injEq] at hs
    exact hs.2 ▸ causeListListAdd_sound h bio (hheld hs.1)
  | delCll bio =>
    cases hs
    exact delCauseListList_sound h bio
  | zeroToBio bio size maxSectors =>
    cases hs
    exact addCausesZeroToBio_sound h bio size maxSectors
  | moveBhToBio bh bSize bio maxSectors =>
    cases hs
    exact moveCausesBhToBio_sound h bh bSize bio maxSectors
  | freeBufferHead bh =>
    cases hs
    exact giveUp_sound h (.bh bh)

/-- In every run each list has at least as many references as holders, and exactly as many as long as
`put_cause_list_safe` finds memory. A list is not freed while it is held, and not freed twice. -/
theorem refcount_counts_holders (m : Mem) (env : Env) (es : List Event) (s : CauseRefs)
    (h : run step (init m env) es = some s) :
    (∀ l, s.refcount.live l = true → (s.holders.count l : Int) ≤ s.refcount.count l) ∧
    (∀ l ∈ s.holders, s.refcount.live l = true) ∧
    (∀ l, s.refcount.releases l ≤ 1) ∧
    (s.lost = [] → ∀ l, s.refcount.live l = true → s.refcount.count l = s.holders.count l) := by
  have hs : s.refcount.Balanced s.refs := by
    have hsound := run_invariant (I := Sound 0) (fun _ _ _ hstep hI => step_sound hI hstep) h
      (init_sound m env)
    unfold Sound at hsound
    rwa [zero_add] at hsound
  have hcount : ∀ l, s.refcount.live l = true →
      s.refcount.count l = s.holders.count l + (s.lost.reduceOption : Multiset Nat).count l := by
    intro l hl
    rw [hs.count l hl, refs, Multiset.count_add]
    push_cast
    rfl
  refine ⟨fun l hl => ?_, fun l hl => ?_, hs.releases_le_one, fun hlost l hl => ?_⟩
  · have := hcount l hl
    omega
  · exact (hs.live_iff l).mpr (Multiset.mem_add.mpr (.inl hl))
  · have := hcount l hl
    rw [hlost] at this
    simpa using this

/-- Two buffers share a list; one of them is written, and a request comes and goes. -/
theorem refcount_counts_two_buffers :
    ∃ s, run step (init sampleMem sampleEnv) [.add (.bh 0) 1 7, .get (some 0) (.bh 1),
        .moveBhToBio 0 4096 0 1024, .zeroToBio 0 4096 1024, .new (.rq 0), .putSafe (.rq 0),
        .work (some 3), .delCll 0, .freeBufferHead 1] = some s ∧
      (∀ l, s.refcount.live l = true → (s.holders.count l : Int) ≤ s.refcount.count l) ∧
      (∀ l ∈ s.holders, s.refcount.live l = true) ∧
      (∀ l, s.refcount.releases l ≤ 1) ∧
      (s.lost = [] → ∀ l, s.refcount.live l = true →
        s.refcount.count l = s.holders.count l) := by
  have h : (run step (init sampleMem sampleEnv) [.add (.bh 0) 1 7, .get (some 0) (.bh 1),
      .moveBhToBio 0 4096 0 1024, .zeroToBio 0 4096 1024, .new (.rq 0), .putSafe (.rq 0),
      .work (some 3), .delCll 0, .freeBufferHead 1]).isSome = true := by
    decide +kernel
  obtain ⟨s, hs⟩ := Option.isSome_iff_exists.mp h
  exact ⟨s, hs, refcount_counts_holders sampleMem sampleEnv _ s hs⟩

end CauseRefs

end SplitSched
