import SplitSched.Block.CauseIds

/-!
# SplitSched.Block.CauseSets

Cause lists below their representation invariant (cause_tags.c of the 4.5 patch set). Here a list is its
items and whatever is in `item_count`. The loops are those of the code: `__cause_list_add` goes through the
items until it finds the account, and `cause_list_copy` goes through the items of the source as they are at
that moment, also when it adds to the list that it goes through.

* `Heap.IsSets`: every list has distinct accounts and counts them.
* `copyLoop_eq`: the loop of `cause_list_copy` ends, after the items that the source had at the beginning.
* `cause_lists_are_sets`: what holds in every run.
* `causeListCopy_refines`, `causeListAdd_refines`, `causeListAddId_refines`: on lists that are sets, the
  functions do what those of `CauseRefs` do.
-/

namespace SplitSched
namespace CauseSets

structure ItemList where
  items : List Int
  itemCount : Int
  deriving DecidableEq, Repr

namespace ItemList

structure IsSet (c : ItemList) : Prop where
  nodup : c.items.Nodup
  count_eq : c.itemCount = c.items.length

/-- The accounts are added one after the other. -/
def append (c : ItemList) (ids : List Int) : ItemList := ⟨c.items ++ ids, c.itemCount + ids.length⟩

theorem append_nil (c : ItemList) : c.append [] = c := by
  simp [append]

theorem append_append (c : ItemList) (ids ids' : List Int) :
    (c.append ids).append ids' = c.append (ids ++ ids') := by
  simp only [append, List.append_assoc, List.length_append, mk.injEq, true_and]
  push_cast
  ring

theorem IsSet.append {c : ItemList} (h : c.IsSet) {ids : List Int} (hids : (c.items ++ ids).Nodup) :
    (c.append ids).IsSet := by
  refine ⟨hids, ?_⟩
  simp [ItemList.append, h.count_eq]

end ItemList

/-- `lists` below `next` have been allocated; `pointers` are the variables of type
`struct cause_list *`. -/
structure Heap where
  lists : Nat → ItemList
  next : Nat
  pointers : Slot → Option Nat
  env : Env

/-- Have we already listed this cause? -/
def alreadyExists (accountId : Int) : List Int → Bool
  | [] => false
  | id :: ids => if id = accountId then true else alreadyExists accountId ids

namespace Heap

def newCauseList (h : Heap) : Option Nat × Heap :=
  let m := h.env.kmalloc
  if m.1 then
    (some h.next,
      { h with env := m.2, next := h.next + 1, lists := Function.update h.lists h.next ⟨[], 0⟩ })
  else (none, { h with env := m.2 })

/-- `if (!*to) *to = new_cause_list();` -/
def ensureCauses (h : Heap) (i : Slot) : Heap :=
  match h.pointers i with
  | some _ => h
  | none =>
    let r := newCauseList h
    { r.2 with pointers := Function.update r.2.pointers i r.1 }

/-- `__cause_list_add`. -/
def causeListAddId (h : Heap) (p : Option Nat) (accountId : Int) : Int × Heap :=
  match p with
  | none => (0, h)
  | some l =>
    if alreadyExists accountId (h.lists l).items then (0, h)
    else
      let m := h.env.kmalloc
      if m.1 then
        (1, { h with env := m.2, lists := Function.update h.lists l ((h.lists l).append [accountId]) })
      else (0, { h with env := m.2 })

/-- The loop of `cause_list_copy`, from the item `i` of the source on. -/
def copyLoop : Nat → Heap → Nat → Nat → Nat → Int → Option (Int × Heap)
  | 0, _, _, _, _, _ => none
  | fuel + 1, h, source, target, i, rv =>
    match (h.lists source).items[i]? with
    | none => some (rv, h)
    | some accountId =>
      let r := causeListAddId h (some target) accountId
      copyLoop fuel r.2 source target (i + 1) (rv + r.1)

/-- `none` if the loop does not end; `copyLoop_eq` shows that it does. -/
def causeListCopy (h : Heap) (p : Option Nat) (i : Slot) : Option (Int × Heap) :=
  let h := h.ensureCauses i
  match p, h.pointers i with
  | some source, some target => copyLoop ((h.lists source).items.length + 1) h source target 0 0
  | _, _ => some (0, h)

def causeListAdd (h : Heap) (i : Slot) (task : Nat) (accountId : Int) : Option (Int × Heap) :=
  let h := h.ensureCauses i
  match h.pointers (.task task) with
  | some p => causeListCopy h (some p) i
  | none => some (causeListAddId h (h.pointers i) accountId)

/-! ## Runs -/

/-- `NULL`, or the address of a list. -/
def Valid (h : Heap) (p : Option Nat) : Prop := ∀ l ∈ p, l < h.next

instance (h : Heap) (p : Option Nat) : Decidable (h.Valid p) := by
  unfold Valid; infer_instance

structure IsSets (h : Heap) : Prop where
  lists : ∀ l, (h.lists l).IsSet
  pointers : ∀ i, h.Valid (h.pointers i)

/-- The accounts in the list that a pointer leads to. -/
def accounts (h : Heap) (p : Option Nat) : List Int := p.elim [] fun l => (h.lists l).items

end Heap

inductive Call where
  | addId (p : Option Nat) (accountId : Int)
  | add (i : Slot) (task : Nat) (accountId : Int)
  | copy (p : Option Nat) (i : Slot)

namespace Call

def Valid (h : Heap) : Call → Prop
  | .addId p _ => h.Valid p
  | .add _ _ _ => True
  | .copy p _ => h.Valid p

instance (h : Heap) (c : Call) : Decidable (c.Valid h) := by
  cases c <;> unfold Valid <;> infer_instance

/-- The list that is added to. -/
def target (h : Heap) : Call → Option Nat
  | .addId p _ => p
  | .add i _ _ => h.pointers i
  | .copy _ i => h.pointers i

def perform (h : Heap) : Call → Option (Int × Heap)
  | .addId p accountId => some (h.causeListAddId p accountId)
  | .add i task accountId => h.causeListAdd i task accountId
  | .copy p i => h.causeListCopy p i

end Call

inductive Event where
  | call (c : Call)
  /-- A pointer is set to a list that exists, or to `NULL`. -/
  | assign (i : Slot) (p : Option Nat)

def step (h : Heap) : Event → Option Heap
  | .call c => if c.Valid h then (c.perform h).map Prod.snd else none
  | .assign i p =>
    if h.Valid p then some { h with pointers := Function.update h.pointers i p } else none

/-! ## One account -/

theorem alreadyExists_iff (accountId : Int) (ids : List Int) :
    alreadyExists accountId ids = true ↔ accountId ∈ ids := by
  induction ids with
  | nil => simp [alreadyExists]
  | cons id ids ih =>
    unfold alreadyExists
    rw [List.mem_cons]
    split
    · rename_i hid
      exact iff_of_true rfl (.inl hid.symm)
    · rename_i hid
      rw [ih, or_iff_right (Ne.symm hid)]

namespace Heap

variable {h : Heap} {i : Slot} {p : Option Nat} {source target l : Nat}

/-- The list `target` gets the accounts `added`. -/
def appended (h : Heap) (target : Nat) (added : List Int) (env : Env) : Heap :=
  { h with env := env, lists := Function.update h.lists target ((h.lists target).append added) }

theorem appended_nil (h : Heap) (target : Nat) : h.appended target [] h.env = h := by
  simp [appended, ItemList.append_nil]

theorem appended_appended (h : Heap) (target : Nat) (ids ids' : List Int) (env env' : Env) :
    (h.appended target ids env).appended target ids' env' = h.appended target (ids ++ ids') env' := by
  simp [appended, ItemList.append_append]

theorem appended_lists_self (h : Heap) (target : Nat) (ids : List Int) (env : Env) :
    (h.appended target ids env).lists target = (h.lists target).append ids := Function.update_self _ _ _

theorem appended_lists_of_ne (h : Heap) {l : Nat} (hl : l ≠ target) (ids : List Int) (env : Env) :
    (h.appended target ids env).lists l = h.lists l := Function.update_of_ne hl _ _

/-- What `__cause_list_add` does: the account is there, or there is no memory, or it is added. -/
theorem causeListAddId_cases (h : Heap) (l : Nat) (accountId : Int) :
    (accountId ∈ (h.lists l).items ∧ h.causeListAddId (some l) accountId = (0, h)) ∨
    (accountId ∉ (h.lists l).items ∧ ¬ h.env.Plenty ∧
      ∃ env, h.causeListAddId (some l) accountId = (0, h.appended l [] env)) ∨
    (accountId ∉ (h.lists l).items ∧
      ∃ env, (h.env.Plenty → env.Plenty) ∧
        h.causeListAddId (some l) accountId = (1, h.appended l [accountId] env)) := by
  unfold causeListAddId
  by_cases hmem : accountId ∈ (h.lists l).items
  · exact .inl ⟨hmem, if_pos ((alreadyExists_iff _ _).mpr hmem)⟩
  have hscan : ¬ alreadyExists accountId (h.lists l).items = true :=
    fun hscan => hmem ((alreadyExists_iff _ _).mp hscan)
  simp only [if_neg hscan]
  by_cases hm : h.env.kmalloc.1 = true
  · simp only [if_pos hm]
    exact .inr (.inr ⟨hmem, h.env.kmalloc.2, fun henv => henv, rfl⟩)
  · simp only [if_neg hm]
    refine .inr (.inl ⟨hmem, fun henv => hm henv.kmalloc, h.env.kmalloc.2, ?_⟩)
    simp only [appended, ItemList.append_nil, Function.update_eq_self]

/-- An account of the source does not change the source, even if it is the target. -/
theorem causeListAddId_source {accountId : Int} (hid : accountId ∈ (h.lists source).items)
    (target : Nat) :
    (h.causeListAddId (some target) accountId).2.lists source = h.lists source := by
  rcases causeListAddId_cases h target accountId with ⟨-, heq⟩ | ⟨-, -, env, heq⟩ | ⟨hmem, env, -, heq⟩
  · rw [heq]
  · rw [heq]
    by_cases hst : source = target
    · rw [hst, appended_lists_self, ItemList.append_nil]
    · exact appended_lists_of_ne h hst _ _
  · have hst : source ≠ target := by
      rintro rfl
      exact hmem hid
    rw [heq]
    exact appended_lists_of_ne h hst _ _

/-! ## The loop of cause_list_copy -/

/-- The accounts `ids` are added one after the other. -/
def addAll (target : Nat) : List Int → Heap → Int → Int × Heap
  | [], h, rv => (rv, h)
  | id :: ids, h, rv =>
    let r := h.causeListAddId (some target) id
    addAll target ids r.2 (rv + r.1)

/-- The loop ends, and it goes through the items that the source has at the beginning. -/
theorem copyLoop_eq (fuel : Nat) : ∀ (h : Heap) (n : Nat) (rv : Int), n ≤ (h.lists source).items.length →
    (h.lists source).items.length < fuel + n →
    copyLoop fuel h source target n rv = some (addAll target ((h.lists source).items.drop n) h rv) := by
  induction fuel with
  | zero =>
    intro h n rv hn hfuel
    omega
  | succ fuel ih =>
    intro h n rv hn hfuel
    unfold copyLoop
    by_cases hend : n = (h.lists source).items.length
    · rw [hend, List.getElem?_eq_none le_rfl, List.drop_length]
      rfl
    · have hlt : n < (h.lists source).items.length := by omega
      rw [List.getElem?_eq_getElem hlt, List.drop_eq_getElem_cons hlt]
      have hsource := causeListAddId_source (List.getElem_mem hlt) target
      simp only
      rw [ih _ (n + 1) _ (by rw [hsource]; omega) (by rw [hsource]; omega), hsource]
      rfl

/-- Accounts that are there already are not added again. -/
theorem addAll_of_mem (ids : List Int) (hids : ∀ id ∈ ids, id ∈ (h.lists target).items) (rv : Int) :
    addAll target ids h rv = (rv, h) := by
  induction ids with
  | nil => rfl
  | cons id ids ih =>
    have hid := hids id List.mem_cons_self
    have hone : h.causeListAddId (some target) id = (0, h) := if_pos ((alreadyExists_iff _ _).mpr hid)
    unfold addAll
    rw [hone]
    simp only [add_zero]
    exact ih fun id' hid' => hids id' (List.mem_cons_of_mem id hid')

/-- Each account of `ids` is added at most once, and all of them if there is memory. -/
theorem addAll_spec (target : Nat) (ids : List Int) : ∀ (h : Heap) (rv : Int), ∃ added env,
    addAll target ids h rv = (rv + added.length, h.appended target added env) ∧
    ((h.lists target).items.Nodup → ((h.lists target).items ++ added).Nodup) ∧
    (∀ id ∈ added, id ∈ ids) ∧
    (h.env.Plenty → env.Plenty ∧ ∀ id ∈ ids, id ∈ (h.lists target).items ++ added) := by
  induction ids with
  | nil =>
    intro h rv
    refine ⟨[], h.env, ?_, ?_, fun id hid => hid, fun henv => ⟨henv, fun id hid => (List.not_mem_nil hid).elim⟩⟩
    · rw [appended_nil]
      simp [addAll]
    · rw [List.append_nil]
      exact id
  | cons id ids ih =>
    intro h rv
    rcases causeListAddId_cases h target id with ⟨hmem, heq⟩ | ⟨-, hfail, env₁, heq⟩ |
      ⟨hmem, env₁, hplenty₁, heq⟩
    · obtain ⟨added, env, hadd, hnodup, hsub, hplenty⟩ := ih h rv
      refine ⟨added, env, ?_, hnodup, fun x hx => List.mem_cons_of_mem id (hsub x hx), fun henv => ?_⟩
      · unfold addAll
        rw [heq]
        simp only [add_zero]
        exact hadd
      · obtain ⟨henv', hall⟩ := hplenty henv
        refine ⟨henv', fun x hx => ?_⟩
        rcases List.mem_cons.mp hx with rfl | hx
        · exact List.mem_append_left _ hmem
        · exact hall x hx
    · obtain ⟨added, env, hadd, hnodup, hsub, -⟩ := ih (h.appended target [] env₁) rv
      rw [appended_lists_self, ItemList.append_nil] at hnodup
      refine ⟨added, env, ?_, hnodup, fun x hx => List.mem_cons_of_mem id (hsub x hx),
        fun henv => (hfail henv).elim⟩
      unfold addAll
      rw [heq]
      simp only [add_zero]
      rw [hadd, appended_appended, List.nil_append]
    · obtain ⟨added, env, hadd, hnodup, hsub, hplenty⟩ := ih (h.appended target [id] env₁) (rv + 1)
      rw [appended_lists_self] at hnodup hplenty
      simp only [ItemList.append, List.append_assoc] at hnodup hplenty
      refine ⟨id :: added, env, ?_, fun hd => ?_, fun x hx => ?_, fun henv => ?_⟩
      · unfold addAll
        rw [heq]
        simp only
        rw [hadd, appended_appended, List.length_cons]
        push_cast
        rw [add_assoc, add_comm (1 : Int)]
        rfl
      · refine hnodup (List.nodup_append.mpr ⟨hd, List.nodup_singleton id, ?_⟩)
        intro a ha b hb hab
        rw [List.mem_singleton.mp hb] at hab
        exact hmem (hab ▸ ha)
      · rcases List.mem_cons.mp hx with rfl | hx
        · exact List.mem_cons_self
        · exact List.mem_cons_of_mem id (hsub x hx)
      · obtain ⟨henv', hall⟩ := hplenty (hplenty₁ henv)
        refine ⟨henv', fun x hx => ?_⟩
        rcases List.mem_cons.mp hx with rfl | hx
        · exact List.mem_append_right _ List.mem_cons_self
        · exact hall x hx

/-! ## The functions -/

theorem IsSets.appended (hs : h.IsSets) {added : List Int}
    (hadded : ((h.lists target).items ++ added).Nodup) (env : Env) : (h.appended target added env).IsSets := by
  refine ⟨fun l => ?_, hs.pointers⟩
  by_cases hl : l = target
  · rw [hl, appended_lists_self]
    exact (hs.lists target).append hadded
  · rw [appended_lists_of_ne h hl]
    exact hs.lists l

theorem ensureCauses_of_some (hi : h.pointers i = some l) : h.ensureCauses i = h := by
  unfold ensureCauses
  rw [hi]

/-- A pointer that is `NULL` gets a new list, which is empty, or stays `NULL`. No other list changes. -/
theorem ensureCauses_spec (hs : h.IsSets) (i : Slot) :
    (h.ensureCauses i).IsSets ∧
    (∀ l < h.next, (h.ensureCauses i).lists l = h.lists l ∧ l < (h.ensureCauses i).next) ∧
    (h.ensureCauses i).accounts ((h.ensureCauses i).pointers i) = h.accounts (h.pointers i) ∧
    (∀ l, some l ≠ (h.ensureCauses i).pointers i → (h.ensureCauses i).lists l = h.lists l) ∧
    (h.env.Plenty → (h.ensureCauses i).env.Plenty ∧ (h.ensureCauses i).pointers i ≠ none) := by
  cases hi : h.pointers i with
  | some l =>
    rw [ensureCauses_of_some hi, hi]
    exact ⟨hs, fun l hl => ⟨rfl, hl⟩, rfl, fun _ _ => rfl, fun henv => ⟨henv, Option.some_ne_none l⟩⟩
  | none =>
    unfold ensureCauses newCauseList
    by_cases hm : h.env.kmalloc.1 = true
    · simp only [hi, if_pos hm, Function.update_self]
      refine ⟨⟨fun l => ?_, fun j l hl => ?_⟩, fun l hl => ⟨?_, Nat.lt_succ_of_lt hl⟩, ?_, fun l hl => ?_,
        fun henv => ⟨henv, Option.some_ne_none _⟩⟩
      · by_cases hl : l = h.next
        · simp only [hl, Function.update_self]
          exact ⟨List.nodup_nil, rfl⟩
        · simp only [Function.update_of_ne hl]
          exact hs.lists l
      · by_cases hj : j = i
        · simp only [hj, Function.update_self, Option.mem_def, Option.some.injEq] at hl
          exact hl ▸ Nat.lt_succ_self _
        · simp only [Function.update_of_ne hj] at hl
          exact Nat.lt_succ_of_lt (hs.pointers j l hl)
      · exact Function.update_of_ne (Nat.ne_of_lt hl) _ _
      · simp [accounts]
      · refine Function.update_of_ne ?_ _ _
        rintro rfl
        exact hl rfl
    · simp only [hi, if_neg hm, Function.update_self]
      refine ⟨⟨hs.lists, fun j l hl => ?_⟩, fun l hl => ⟨trivial, hl⟩, rfl, fun _ _ => trivial,
        fun henv => (hm henv.kmalloc).elim⟩
      by_cases hj : j = i
      · simp only [hj, Function.update_self] at hl
        cases hl
      · simp only [Function.update_of_ne hj] at hl
        exact hs.pointers j l hl

/-- What a call leaves: the list that it adds to ends with the accounts `added`. -/
structure Leaves (h : Heap) (p : Option Nat) (added : List Int) (h' : Heap) (p' : Option Nat) : Prop where
  isSets : h'.IsSets
  accounts : h'.accounts p' = h.accounts p ++ added
  others : ∀ l, some l ≠ p' → h'.lists l = h.lists l

theorem IsSets.leaves (hs : h.IsSets) (p : Option Nat) : h.Leaves p [] h p :=
  ⟨hs, (List.append_nil _).symm, fun _ _ => rfl⟩

theorem IsSets.leaves_appended (hs : h.IsSets) {added : List Int}
    (hadded : ((h.lists target).items ++ added).Nodup) (env : Env) :
    h.Leaves (some target) added (h.appended target added env) (some target) := by
  refine ⟨hs.appended hadded env, ?_, fun l hl => ?_⟩
  · unfold Heap.accounts
    rw [Option.elim_some, Option.elim_some, appended_lists_self]
    rfl
  · exact appended_lists_of_ne h (fun heq => hl (congrArg some heq)) added env

/-- The pointer is set before accounts are added. -/
theorem Leaves.of_ensureCauses {h' : Heap} {added : List Int} (hs : h.IsSets)
    (hleaves : (h.ensureCauses i).Leaves ((h.ensureCauses i).pointers i) added h' (h'.pointers i))
    (hkept : ∀ l, (h.ensureCauses i).pointers i = some l → h'.pointers i = some l) :
    h.Leaves (h.pointers i) added h' (h'.pointers i) := by
  obtain ⟨-, -, haccounts, hothers, -⟩ := ensureCauses_spec hs i
  refine ⟨hleaves.isSets, by rw [hleaves.accounts, haccounts], fun l hl => ?_⟩
  rw [hleaves.others l hl]
  exact hothers l fun heq => hl (hkept l heq.symm).symm

theorem causeListAddId_spec (hs : h.IsSets) (p : Option Nat) (accountId : Int) :
    ∃ added h', h.causeListAddId p accountId = ((added.length : Int), h') ∧ h.Leaves p added h' p ∧
      h'.pointers = h.pointers := by
  cases p with
  | none => exact ⟨[], h, rfl, hs.leaves none, rfl⟩
  | some l =>
    obtain ⟨added, env, hadd, hnodup, -⟩ := addAll_spec l [accountId] h 0
    have hone : addAll l [accountId] h 0 = h.causeListAddId (some l) accountId := by
      unfold addAll addAll
      simp only [zero_add]
    rw [hone, zero_add] at hadd
    exact ⟨added, _, hadd, hs.leaves_appended (hnodup (hs.lists l).nodup) env, rfl⟩

/-- `cause_list_copy` after the pointer is set. -/
theorem copyLoop_spec (hs : h.IsSets) (source target : Nat) : ∃ added env,
    copyLoop ((h.lists source).items.length + 1) h source target 0 0 =
      some ((added.length : Int), h.appended target added env) ∧
    h.Leaves (some target) added (h.appended target added env) (some target) ∧
    (∀ id ∈ added, id ∈ (h.lists source).items) ∧
    (h.env.Plenty → env.Plenty ∧ ∀ id ∈ (h.lists source).items, id ∈ (h.lists target).items ++ added) := by
  obtain ⟨added, env, hadd, hnodup, hsub, hplenty⟩ := addAll_spec target (h.lists source).items h 0
  refine ⟨added, env, ?_, hs.leaves_appended (hnodup (hs.lists target).nodup) env, hsub, hplenty⟩
  rw [copyLoop_eq _ h 0 0 (Nat.zero_le _) (Nat.lt_succ_self _), List.drop_zero, hadd, zero_add]

theorem causeListCopy_spec (hs : h.IsSets) (p : Option Nat) (i : Slot) :
    ∃ added h', h.causeListCopy p i = some ((added.length : Int), h') ∧
      h.Leaves (h.pointers i) added h' (h'.pointers i) ∧
      ∀ l, h.pointers i = some l → h'.pointers i = some l := by
  have hkept : ∀ l, h.pointers i = some l → (h.ensureCauses i).pointers i = some l := by
    intro l hi
    rw [ensureCauses_of_some hi, hi]
  obtain ⟨hsets, -⟩ := ensureCauses_spec hs i
  unfold causeListCopy
  simp only
  cases p with
  | none => exact ⟨[], _, rfl, .of_ensureCauses hs (hsets.leaves _) fun _ hi => hi, hkept⟩
  | some source =>
    cases hi : (h.ensureCauses i).pointers i with
    | none => exact ⟨[], _, rfl, .of_ensureCauses hs (hsets.leaves _) fun _ hi => hi, hkept⟩
    | some target =>
      obtain ⟨added, env, hloop, hleaves, -⟩ := copyLoop_spec hsets source target
      refine ⟨added, _, hloop, .of_ensureCauses hs ?_ fun _ hi => hi, hkept⟩
      change Leaves _ _ _ _ ((h.ensureCauses i).pointers i)
      rw [hi]
      exact hleaves

/-- With memory the target has the accounts of both lists, and copying again changes nothing. -/
theorem causeListCopy_plenty (hs : h.IsSets) (henv : h.env.Plenty) (hp : h.Valid p) (i : Slot) :
    ∃ rv h', h.causeListCopy p i = some (rv, h') ∧
      (∀ id, id ∈ h'.accounts (h'.pointers i) ↔ id ∈ h.accounts (h.pointers i) ∨ id ∈ h.accounts p) ∧
      h'.causeListCopy p i = some (0, h') := by
  obtain ⟨hsets, hold, haccounts, -, hplenty⟩ := ensureCauses_spec hs i
  obtain ⟨henv', hne⟩ := hplenty henv
  obtain ⟨target, htarget⟩ := Option.ne_none_iff_exists'.mp hne
  rw [← haccounts, htarget]
  cases p with
  | none =>
    refine ⟨0, h.ensureCauses i, rfl, fun id => ?_, ?_⟩
    · rw [htarget]
      simp [accounts]
    · unfold causeListCopy
      simp only [ensureCauses_of_some htarget]
  | some source =>
    obtain ⟨hsource, -⟩ := hold source (hp source rfl)
    obtain ⟨added, env, hloop, hleaves, hsub, hall⟩ := copyLoop_spec hsets source target
    obtain ⟨-, hall⟩ := hall henv'
    rw [hsource] at hsub hall
    have htarget' : ((h.ensureCauses i).appended target added env).pointers i = some target := htarget
    have haccounts' := hleaves.accounts
    have hcopy : h.causeListCopy (some source) i =
        some ((added.length : Int), (h.ensureCauses i).appended target added env) := by
      unfold causeListCopy
      simp only [htarget]
      exact hloop
    refine ⟨_, _, hcopy, fun id => ?_, ?_⟩
    · rw [htarget', haccounts', List.mem_append]
      change _ ↔ _ ∨ id ∈ (h.lists source).items
      constructor
      · exact Or.imp_right (hsub id)
      · rintro (hid | hid)
        · exact .inl hid
        · exact List.mem_append.mp (hall id hid)
    · -- the second copy finds every account
      unfold causeListCopy
      simp only [ensureCauses_of_some htarget', htarget']
      rw [copyLoop_eq _ _ 0 0 (Nat.zero_le _) (Nat.lt_succ_self _), List.drop_zero, addAll_of_mem]
      intro id hid
      have hitems : (((h.ensureCauses i).appended target added env).lists target).items =
          ((h.ensureCauses i).lists target).items ++ added := haccounts'
      by_cases hst : source = target
      · rwa [hst] at hid
      · rw [appended_lists_of_ne _ hst, hsource] at hid
        rw [hitems]
        exact hall id hid

end Heap

/-! ## Runs keep lists sets -/

open Heap

variable {h : Heap}

/-- Every call ends. It returns how many accounts it has added, and adds them at the end of one list. -/
theorem perform_spec (hs : h.IsSets) (c : Call) :
    ∃ added h', c.perform h = some ((added.length : Int), h') ∧
      h.Leaves (c.target h) added h' (c.target h') := by
  cases c with
  | addId p accountId =>
    obtain ⟨added, h', hadd, hleaves, -⟩ := causeListAddId_spec hs p accountId
    exact ⟨added, h', congrArg some hadd, hleaves⟩
  | copy p i =>
    obtain ⟨added, h', hcopy, hleaves, -⟩ := causeListCopy_spec hs p i
    exact ⟨added, h', hcopy, hleaves⟩
  | add i task accountId =>
    obtain ⟨hsets, -⟩ := ensureCauses_spec hs i
    change ∃ added h', h.causeListAdd i task accountId = _ ∧ _
    unfold Heap.causeListAdd
    simp only
    cases (h.ensureCauses i).pointers (.task task) with
    | none =>
      obtain ⟨added, h', hadd, hleaves, hpointers⟩ :=
        causeListAddId_spec hsets ((h.ensureCauses i).pointers i) accountId
      refine ⟨added, h', congrArg some hadd, .of_ensureCauses hs ?_ fun l hi => ?_⟩
      · rw [hpointers]
        exact hleaves
      · rw [hpointers, hi]
    | some p =>
      obtain ⟨added, h', hcopy, hleaves, hkept⟩ := causeListCopy_spec hsets (some p) i
      exact ⟨added, h', hcopy, .of_ensureCauses hs hleaves hkept⟩

theorem step_isSets (h : Heap) (e : Event) (h' : Heap) (hstep : step h e = some h') (hs : h.IsSets) :
    h'.IsSets := by
  cases e with
  | call c =>
    obtain ⟨added, h₁, hperform, hleaves⟩ := perform_spec hs c
    unfold step at hstep
    simp only [hperform, Option.map_some] at hstep
    split at hstep
    · cases hstep
      exact hleaves.isSets
    · cases hstep
  | assign i p =>
    unfold step at hstep
    simp only at hstep
    split at hstep
    · rename_i hp
      cases hstep
      refine ⟨hs.lists, fun j => ?_⟩
      by_cases hj : j = i
      · simp only [hj, Function.update_self]
        exact hp
      · simp only [Function.update_of_ne hj]
        exact hs.pointers j
    · cases hstep

/-- In every run, with any allocation failing, all lists have distinct accounts and count them. Every call
returns the number of accounts that it adds, at the end of one list. With memory, `cause_list_copy` gives the
target the accounts of both lists, the old ones first, and changes nothing the second time. -/
theorem cause_lists_are_sets (h₀ : Heap) (hs : h₀.IsSets) (events : List Event) (h : Heap)
    (hrun : run step h₀ events = some h) :
    (∀ l, (h.lists l).items.Nodup ∧ (h.lists l).itemCount = (h.lists l).items.length) ∧
    (∀ c : Call, ∃ added h', c.perform h = some ((added.length : Int), h') ∧
      h'.accounts (c.target h') = h.accounts (c.target h) ++ added ∧
      ∀ l, some l ≠ c.target h' → h'.lists l = h.lists l) ∧
    (h.env.Plenty → ∀ p i, h.Valid p → ∃ rv h', h.causeListCopy p i = some (rv, h') ∧
      (∀ id, id ∈ h'.accounts (h'.pointers i) ↔ id ∈ h.accounts (h.pointers i) ∨ id ∈ h.accounts p) ∧
      h.accounts (h.pointers i) <+: h'.accounts (h'.pointers i) ∧
      h'.causeListCopy p i = some (0, h')) := by
  have hs' : h.IsSets := run_invariant step_isSets hrun hs
  refine ⟨fun l => ⟨(hs'.lists l).nodup, (hs'.lists l).count_eq⟩, fun c => ?_, fun henv p i hp => ?_⟩
  · obtain ⟨added, h', hperform, hleaves⟩ := perform_spec hs' c
    exact ⟨added, h', hperform, hleaves.accounts, hleaves.others⟩
  · obtain ⟨rv, h', hcopy, hunion, hagain⟩ := causeListCopy_plenty hs' henv hp i
    obtain ⟨added, h₁, hcopy', hleaves, -⟩ := causeListCopy_spec hs' p i
    rw [hcopy] at hcopy'
    cases hcopy'
    exact ⟨_, h', hcopy, hunion, ⟨added, hleaves.accounts.symm⟩, hagain⟩

/-- No list, and all pointers `NULL`. -/
def emptyHeap (env : Env) : Heap := ⟨fun _ => ⟨[], 0⟩, 0, fun _ => none, env⟩

theorem emptyHeap_isSets (env : Env) : (emptyHeap env).IsSets :=
  ⟨fun _ => ⟨List.nodup_nil, rfl⟩, fun _ l hl => (by cases hl)⟩

/-- Two pages, one copied to the other, and a task that works for the accounts of the second page and
dirties it. -/
def sharedRun : List Event :=
  [.call (.add (.page 0) 1 7), .call (.add (.page 1) 1 8), .call (.copy (some 0) (.page 1)),
    .assign (.task 2) (some 1), .call (.add (.page 1) 2 9), .call (.addId none 9)]

theorem cause_lists_are_sets_shared :
    ∃ h, run step (emptyHeap sampleEnv) sharedRun = some h ∧ h.accounts (some 1) = [8, 7] ∧
      (h.lists 1).items.Nodup ∧ (h.lists 1).itemCount = (h.lists 1).items.length := by
  have hany : (run step (emptyHeap sampleEnv) sharedRun).any
      (fun h => decide (h.accounts (some 1) = [8, 7])) = true := by decide +kernel
  obtain ⟨h, hrun, haccounts⟩ := (Option.any_eq_true _ _).mp hany
  exact ⟨h, hrun, of_decide_eq_true haccounts,
    (cause_lists_are_sets _ (emptyHeap_isSets sampleEnv) sharedRun h hrun).1 1⟩

/-! ## The lists of CauseRefs -/

def ofCauseList (c : CauseList) : ItemList := ⟨c.items, c.itemCount⟩

def ofRefs (s : CauseRefs) : Heap :=
  ⟨fun l => ofCauseList (s.mem.lists l), s.refcount.next, s.causes, s.env⟩

variable {s : CauseRefs}

theorem ofRefs_isSets (hs : s.Sound 0) : (ofRefs s).IsSets := by
  refine ⟨fun l => ⟨(s.mem.lists l).nodup, (s.mem.lists l).count_eq⟩, fun i l hl => ?_⟩
  exact hs.lt_next (Multiset.mem_add.mpr (.inr (CauseRefs.mem_refs_of_causes hl)))

theorem ofRefs_setList (s : CauseRefs) (l : Nat) (c : CauseList) (env : Env) :
    ofRefs { s with mem := s.mem.setList l c, env := env } =
      { ofRefs s with env := env, lists := Function.update (ofRefs s).lists l (ofCauseList c) } := by
  have hlists : (fun l' => ofCauseList ((s.mem.setList l c).lists l')) =
      Function.update (ofRefs s).lists l (ofCauseList c) := by
    funext l'
    by_cases hl : l' = l
    · rw [hl, Mem.setList_lists_self, Function.update_self]
    · rw [Mem.setList_lists_of_ne _ _ hl, Function.update_of_ne hl]
      rfl
  unfold ofRefs at hlists ⊢
  simp only [hlists]
  rfl

/-- One account on a list that is a set. -/
theorem causeListAddId_set {l : Nat} {c : CauseList} (hc : h.lists l = ofCauseList c) (id : Int) :
    h.causeListAddId (some l) id = (((causeListAddId h.env c id).1 : Int),
      { h with
        env := (causeListAddId h.env c id).2.2
        lists := Function.update h.lists l (ofCauseList (causeListAddId h.env c id).2.1) }) := by
  have hitems : (h.lists l).items = c.items := by rw [hc]; rfl
  unfold Heap.causeListAddId SplitSched.causeListAddId
  simp only [hitems, alreadyExists_iff]
  by_cases hmem : id ∈ c.items
  · simp only [hmem, if_true, dif_pos]
    rw [← hc, Function.update_eq_self]
    rfl
  · simp only [hmem, if_false, dif_neg, not_false_eq_true]
    by_cases hm : h.env.kmalloc.1 = true
    · simp only [hm, if_true, hc]
      rfl
    · simp only [hm, if_false, Bool.false_eq_true]
      rw [← hc, Function.update_eq_self]
      rfl

theorem addAll_set {l : Nat} (ids : List Int) : ∀ {h : Heap} {c : CauseList} (rv : Int),
    h.lists l = ofCauseList c →
    addAll l ids h rv = (rv + ((causeListCopyItems h.env ids c).1 : Int),
      { h with
        env := (causeListCopyItems h.env ids c).2.2
        lists := Function.update h.lists l (ofCauseList (causeListCopyItems h.env ids c).2.1) }) := by
  induction ids with
  | nil =>
    intro h c rv hc
    simp only [addAll, causeListCopyItems]
    rw [← hc, Function.update_eq_self]
    simp
  | cons id ids ih =>
    intro h c rv hc
    simp only [addAll, causeListCopyItems]
    rw [causeListAddId_set hc id]
    simp only
    rw [ih _ (Function.update_self _ _ _)]
    simp only [Function.update_idem]
    push_cast
    rw [add_assoc]

theorem causeListAddId_refines (s : CauseRefs) (p : Option Nat) (id : Int) :
    (ofRefs s).causeListAddId p id =
      (((s.causeListAddId p id).1 : Int), ofRefs (s.causeListAddId p id).2) := by
  cases p with
  | none => rfl
  | some l =>
    rw [causeListAddId_set (h := ofRefs s) rfl]
    exact congrArg (Prod.mk _) (ofRefs_setList s l _ _).symm

theorem ofRefs_setCauses (s : CauseRefs) (i : Slot) (p : Option Nat) :
    ofRefs (s.setCauses i p) = { ofRefs s with pointers := Function.update s.causes i p } := by
  have hframe : (s.setCauses i p).mem = s.mem ∧ (s.setCauses i p).refcount = s.refcount ∧
      (s.setCauses i p).env = s.env := by
    cases p <;> exact ⟨rfl, rfl, rfl⟩
  obtain ⟨hmem, hrefcount, henv⟩ := hframe
  unfold ofRefs
  rw [hmem, hrefcount, henv, CauseRefs.causes_setCauses]

theorem newCauseList_refines (s : CauseRefs) :
    (ofRefs s).newCauseList = (s.newCauseList.1, ofRefs s.newCauseList.2) := by
  unfold Heap.newCauseList CauseRefs.newCauseList
  by_cases hm : s.env.kmalloc.1 = true
  · have hlists := ofRefs_setList s s.refcount.next .new s.env
    simp only [ofRefs, Heap.mk.injEq] at hlists ⊢
    simp only [hm, if_true, hlists.1]
    rfl
  · simp only [ofRefs, hm, if_false, Bool.false_eq_true]
    rfl

theorem ensureCauses_refines (s : CauseRefs) (i : Slot) :
    (ofRefs s).ensureCauses i = ofRefs (s.ensureCauses i) := by
  unfold Heap.ensureCauses CauseRefs.ensureCauses
  change (match s.causes i with
    | some _ => _
    | none => _) = _
  cases s.causes i with
  | some l => rfl
  | none =>
    simp only [newCauseList_refines]
    exact (ofRefs_setCauses _ i _).symm

theorem causeListCopy_refines (s : CauseRefs) (p : Option Nat) (i : Slot) :
    (ofRefs s).causeListCopy p i =
      some (((s.causeListCopy p i).1 : Int), ofRefs (s.causeListCopy p i).2) := by
  unfold Heap.causeListCopy CauseRefs.causeListCopy
  simp only [ensureCauses_refines]
  cases p with
  | none => rfl
  | some source =>
    change (match some source, (s.ensureCauses i).causes i with
      | some source, some target => _
      | _, _ => _) = _
    cases (s.ensureCauses i).causes i with
    | none => rfl
    | some target =>
      simp only
      rw [copyLoop_eq _ _ 0 0 (Nat.zero_le _) (Nat.lt_succ_self _), List.drop_zero,
        addAll_set (c := (s.ensureCauses i).mem.lists target) _ _ rfl, zero_add]
      exact congrArg (fun h => some (_, h)) (ofRefs_setList (s.ensureCauses i) target _ _).symm

theorem causeListAdd_refines (s : CauseRefs) (i : Slot) (task : Nat) (accountId : Int) :
    (ofRefs s).causeListAdd i task accountId =
      some (((s.causeListAdd i task accountId).1 : Int), ofRefs (s.causeListAdd i task accountId).2) := by
  unfold Heap.causeListAdd CauseRefs.causeListAdd
  simp only [ensureCauses_refines]
  change (match (s.ensureCauses i).causes (.task task) with
    | some p => _
    | none => _) = _
  cases (s.ensureCauses i).causes (.task task) with
  | none => exact congrArg some (causeListAddId_refines _ _ _)
  | some p => exact causeListCopy_refines _ _ _

end CauseSets
end SplitSched
