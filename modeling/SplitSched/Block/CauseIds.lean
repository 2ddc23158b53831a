import SplitSched.Block.CauseRefs
import SplitSched.Block.UniqCauses

/-!
# SplitSched.Block.CauseIds

The accounts that a pointer to a cause list leads to, and what the functions of cause_tags.c do to
them. Every allocation may fail.

* `ids s i`: the accounts on the list that `i` points to.
* `Apart A s`: the pointers in `A` have lists of their own, so that a change of one of them is seen
  through no other pointer.
* `Adds A s s' i new`: some of the accounts `new` were added at `i`, with memory to spare all of them,
  and nothing else has changed. It holds of `cause_list_add` and `cause_list_copy`.
* `Empties A s s' i`: the pointer `i` has no accounts any more. It holds when a pointer is given up,
  when it is set to a new list, and when its list is moved to a bio.
-/

namespace SplitSched

/-! ## Copying accounts when memory may be short -/

theorem causeListAddId_bounds (env : Env) (c : CauseList) (id : Int) :
    (∀ j ∈ c.items, j ∈ (causeListAddId env c id).2.1.items) ∧
    ∀ j ∈ (causeListAddId env c id).2.1.items, j ∈ c.items ∨ j = id := by
  unfold causeListAddId
  by_cases hid : id ∈ c.items
  · rw [dif_pos hid]
    exact ⟨fun _ hj => hj, fun _ hj => .inl hj⟩
  · rw [dif_neg hid]
    by_cases hm : env.kmalloc.1
    · simp only [hm, if_true]
      refine ⟨fun j hj => List.mem_append_left _ hj, fun j hj => ?_⟩
      simpa [CauseList.push] using hj
    · simp only [hm, if_false, Bool.false_eq_true]
      exact ⟨fun _ hj => hj, fun _ hj => .inl hj⟩

theorem causeListCopyItems_bounds (ids : List Int) : ∀ (env : Env) (c : CauseList),
    (∀ j ∈ c.items, j ∈ (causeListCopyItems env ids c).2.1.items) ∧
    ∀ j ∈ (causeListCopyItems env ids c).2.1.items, j ∈ c.items ∨ j ∈ ids := by
  induction ids with
  | nil =>
    intro env c
    exact ⟨fun _ hj => hj, fun _ hj => .inl hj⟩
  | cons id ids ih =>
    intro env c
    obtain ⟨hkept, honly⟩ := causeListAddId_bounds env c id
    obtain ⟨hkept', honly'⟩ := ih (causeListAddId env c id).2.2 (causeListAddId env c id).2.1
    refine ⟨fun j hj => hkept' j (hkept j hj), fun j hj => ?_⟩
    rcases honly' j hj with hc | hj
    · rcases honly j hc with hc | rfl
      · exact .inl hc
      · exact .inr List.mem_cons_self
    · exact .inr (List.mem_cons_of_mem _ hj)

namespace CauseRefs

/-! ## Pointers and what they lead to -/

def itemsOf (s : CauseRefs) (p : Option Nat) : List Int := p.elim [] fun l => (s.mem.lists l).items

def ids (s : CauseRefs) (i : Slot) : List Int := s.itemsOf (s.causes i)

/-- The accounts a task works for: the ones it is a proxy for, or its own. -/
def standsFor (s : CauseRefs) (task : Nat) (accountId : Int) : List Int :=
  match s.causes (.task task) with
  | some p => (s.mem.lists p).items
  | none => [accountId]

/-- `set_cause_list_type`. -/
def setCauseListType (s : CauseRefs) (p : Option Nat) (type : SplitType) : CauseRefs :=
  match p with
  | none => s
  | some l => { s with mem := s.mem.setList l (SplitSched.setCauseListType (s.mem.lists l) type) }

/-- `put_cause_list(causes); causes = NULL;` -/
def giveUp (s : CauseRefs) (i : Slot) : CauseRefs := (putCauseList s (s.causes i)).setCauses i none

/-- `put_cause_list(causes); causes = new_cause_list();` -/
def renew (s : CauseRefs) (i : Slot) : CauseRefs :=
  let s := putCauseList s (s.causes i)
  let r := newCauseList s
  r.2.setCauses i r.1

/-- The pointers in `A` have lists of their own. -/
structure Apart (A : Set Slot) (s : CauseRefs) : Prop where
  sound : s.Sound 0
  own : ∀ i ∈ A, ∀ j l, s.causes i = some l → s.causes j = some l → j = i
  uniq : ∀ i ∈ A, ∀ bio cll, s.clls.lookup bio = some cll → s.causes i ≠ some cll.uniqCauses

variable {A : Set Slot} {s s' s'' : CauseRefs} {i j : Slot} {l : Nat} {p : Option Nat}

theorem causes_setCauses (s : CauseRefs) (i : Slot) (p : Option Nat) :
    (s.setCauses i p).causes = Function.update s.causes i p := by
  funext j
  unfold causes setCauses
  cases p with
  | none =>
    by_cases hj : j = i
    · subst hj
      simp
    · simp [hj, AList.lookup_erase_ne hj]
  | some l =>
    by_cases hj : j = i
    · subst hj
      simp
    · simp [hj, AList.lookup_insert_ne hj]

theorem init_apart (A : Set Slot) (m : Mem) (env : Env) : (init m env).Apart A :=
  ⟨init_sound m env, fun _ _ _ _ h => (by cases h), fun _ _ _ _ h => (by cases h)⟩

namespace Apart

theorem notMem_refs (h : s.Apart A) : s.refcount.next ∉ s.refs := by
  have hs := h.sound
  unfold Sound at hs
  rw [zero_add] at hs
  exact hs.next_notMem

theorem causes_ne_next (h : s.Apart A) (i : Slot) : s.causes i ≠ some s.refcount.next :=
  fun hi => h.notMem_refs (mem_refs_of_causes hi)

theorem uniq_ne_next (h : s.Apart A) {bio : Nat} {cll : CauseListList}
    (hb : s.clls.lookup bio = some cll) : cll.uniqCauses ≠ s.refcount.next := by
  intro he
  refine h.notMem_refs (he ▸ ?_)
  unfold refs holders
  rw [contents_erase s.clls bio, hb]
  simp [cllPointers]

/-- One pointer is set to `NULL` or to a new list. -/
theorem update (h : s.Apart A) (hs : s'.Sound 0) (hcll : s'.clls = s.clls)
    (hc : s'.causes = Function.update s.causes i p)
    (hp : p = s.causes i ∨ ∀ l ∈ p, l = s.refcount.next) : s'.Apart A := by
  rcases hp with rfl | hp
  · rw [Function.update_eq_self] at hc
    exact ⟨hs, hc ▸ h.own, hc ▸ hcll ▸ h.uniq⟩
  refine ⟨hs, fun k hk j l hkl hjl => ?_, fun k hk bio cll hb => ?_⟩
  · rw [hc] at hkl hjl
    by_cases hki : k = i
    · by_cases hji : j = i
      · rw [hji, hki]
      · rw [hki, Function.update_self] at hkl
        rw [Function.update_of_ne hji, hp l hkl] at hjl
        exact absurd hjl (h.causes_ne_next j)
    · rw [Function.update_of_ne hki] at hkl
      by_cases hji : j = i
      · rw [hji, Function.update_self] at hjl
        rw [hp l hjl] at hkl
        exact absurd hkl (h.causes_ne_next k)
      · rw [Function.update_of_ne hji] at hjl
        exact h.own k hk j l hkl hjl
  · rw [hcll] at hb
    rw [hc]
    by_cases hki : k = i
    · rw [hki, Function.update_self]
      intro hu
      exact h.uniq_ne_next hb (hp _ hu)
    · rw [Function.update_of_ne hki]
      exact h.uniq k hk bio cll hb

end Apart

/-! ## Adding accounts -/

/-- Accounts among `new` were added to the list of `i`. -/
structure Adds (A : Set Slot) (s s' : CauseRefs) (i : Slot) (new : List Int) : Prop where
  apart : s'.Apart A
  causes : ∀ j, j ≠ i → s'.causes j = s.causes j
  others : ∀ j, j ≠ i → s'.ids j = s.ids j
  kept : ∀ id ∈ s.ids i, id ∈ s'.ids i
  only : ∀ id ∈ s'.ids i, id ∈ s.ids i ∨ id ∈ new
  all : s.env.Plenty → s'.env.Plenty ∧ s'.causes i ≠ none ∧ ∀ id ∈ new, id ∈ s'.ids i

namespace Adds

variable {new new' : List Int}

theorem trans (h : Adds A s s' i new) (h' : Adds A s' s'' i new') :
    Adds A s s'' i (new ++ new') := by
  refine ⟨h'.apart, fun j hj => (h'.causes j hj).trans (h.causes j hj),
    fun j hj => (h'.others j hj).trans (h.others j hj), fun id hid => h'.kept id (h.kept id hid),
    fun id hid => ?_, fun henv => ?_⟩
  · rw [List.mem_append, ← or_assoc]
    rcases h'.only id hid with hid | hid
    · exact .inl (h.only id hid)
    · exact .inr hid
  · obtain ⟨henv', -, hall⟩ := h.all henv
    obtain ⟨henv'', hsome, hall'⟩ := h'.all henv'
    refine ⟨henv'', hsome, fun id hid => ?_⟩
    rcases List.mem_append.mp hid with hid | hid
    · exact h'.kept id (hall id hid)
    · exact hall' id hid

/-- Without memory for a list, nothing is added to it. -/
theorem of_null (h : Adds A s s' i []) (hi : s'.causes i = none) (new : List Int) :
    Adds A s s' i new := by
  refine ⟨h.apart, h.causes, h.others, h.kept, fun id hid => ?_, fun henv => ?_⟩
  · rw [ids, hi] at hid
    cases hid
  · exact absurd hi (h.all henv).2.1

/-- A list is written through a pointer that has it for its own. -/
theorem of_setList (h : s.Apart A) (hi : i ∈ A) (hl : s.causes i = some l) (c : CauseList) (env : Env)
    (d : CauseListMemDesc) (hkept : ∀ id ∈ (s.mem.lists l).items, id ∈ c.items)
    (honly : ∀ id ∈ c.items, id ∈ (s.mem.lists l).items ∨ id ∈ new)
    (hall : s.env.Plenty → env.Plenty ∧ ∀ id ∈ new, id ∈ c.items) :
    Adds A s { s with mem := s.mem.setList l c, env := env, desc := d } i new := by
  have hself : ids { s with mem := s.mem.setList l c, env := env, desc := d } i = c.items := by
    change itemsOf _ (s.causes i) = _
    rw [hl]
    simp [itemsOf]
  have hold : s.ids i = (s.mem.lists l).items := by
    rw [ids, hl]
    rfl
  refine ⟨⟨h.sound, h.own, h.uniq⟩, fun j _ => rfl, fun j hj => ?_, fun id hid => ?_, fun id hid => ?_,
    fun henv => ?_⟩
  · change itemsOf _ (s.causes j) = itemsOf _ (s.causes j)
    cases hjl : s.causes j with
    | none => rfl
    | some k =>
      have hkl : k ≠ l := by
        rintro rfl
        exact hj (h.own i hi j k hl hjl)
      simp [itemsOf, Mem.setList_lists_of_ne _ _ hkl]
  · rw [hself]
    exact hkept id (hold ▸ hid)
  · rw [hself] at hid
    rw [hold]
    exact honly id hid
  · obtain ⟨henv', hnew⟩ := hall henv
    refine ⟨henv', ?_, fun id hid => hself ▸ hnew id hid⟩
    change s.causes i ≠ none
    rw [hl]
    exact Option.some_ne_none l

end Adds

/-- The pointer stays, or it is set to a new list that has no accounts. -/
theorem ensureCauses_cases (s : CauseRefs) (i : Slot) :
    (s.ensureCauses i).clls = s.clls ∧ (s.env.Plenty → (s.ensureCauses i).env.Plenty) ∧
    (∀ k, k ≠ s.refcount.next → (s.ensureCauses i).mem.lists k = s.mem.lists k) ∧
    ((s.ensureCauses i).causes = s.causes ∧ (s.env.Plenty → s.causes i ≠ none) ∨
      s.causes i = none ∧ (s.ensureCauses i).causes = Function.update s.causes i (some s.refcount.next) ∧
        (s.ensureCauses i).mem.lists s.refcount.next = .new) := by
  unfold ensureCauses
  cases hi : s.causes i with
  | some l => exact ⟨rfl, fun henv => henv, fun _ _ => rfl, .inl ⟨rfl, fun _ => Option.some_ne_none l⟩⟩
  | none =>
    rcases newCauseList_cases s with ⟨env, hnew, hshort⟩ | ⟨env, d, hnew, henv⟩
    · simp only [hnew]
      refine ⟨rfl, fun henv => absurd henv hshort, fun _ _ => rfl, .inl ⟨?_, fun henv => absurd henv hshort⟩⟩
      rw [causes_setCauses]
      exact (congrArg (Function.update s.causes i) hi.symm).trans (Function.update_eq_self i _)
    · simp only [hnew]
      exact ⟨rfl, henv, fun _ => Mem.setList_lists_of_ne _ _,
        .inr ⟨trivial, causes_setCauses _ _ _, Mem.setList_lists_self _ _ _⟩⟩

theorem ensureCauses_adds (h : s.Apart A) (i : Slot) : Adds A s (s.ensureCauses i) i [] := by
  have hsound := ensureCauses_sound h.sound i
  obtain ⟨hcll, henv, hlists, hcases⟩ := ensureCauses_cases s i
  have hids : ∀ j, (s.ensureCauses i).itemsOf (s.causes j) = s.ids j := by
    intro j
    unfold ids itemsOf
    cases hj : s.causes j with
    | none => rfl
    | some k =>
      have hkn : k ≠ s.refcount.next := fun he => h.causes_ne_next j (he ▸ hj)
      simp only [Option.elim_some, hlists k hkn]
  rcases hcases with ⟨hc, hsome⟩ | ⟨hi, hc, hnew⟩
  · have hsame : ∀ j, (s.ensureCauses i).ids j = s.ids j := by
      intro j
      rw [ids, hc]
      exact hids j
    refine ⟨⟨hsound, hc ▸ h.own, hc ▸ hcll ▸ h.uniq⟩, fun j _ => congrFun hc j, fun j _ => hsame j,
      fun id hid => (hsame i).symm ▸ hid, fun id hid => .inl (hsame i ▸ hid), fun hm => ?_⟩
    exact ⟨henv hm, hc ▸ hsome hm, fun _ hid => (by cases hid)⟩
  · have hself : (s.ensureCauses i).ids i = [] := by
      rw [ids, hc, Function.update_self, itemsOf, Option.elim_some, hnew]
      rfl
    refine ⟨h.update hsound hcll hc (.inr fun l hl => (Option.some.inj hl).symm), fun j hj => ?_,
      fun j hj => ?_, fun id hid => ?_, fun id hid => ?_, fun hm => ⟨henv hm, ?_, fun _ hid => ?_⟩⟩
    · rw [hc, Function.update_of_ne hj]
    · rw [ids, hc, Function.update_of_ne hj]
      exact hids j
    · rw [ids, hi] at hid
      cases hid
    · rw [hself] at hid
      cases hid
    · rw [hc, Function.update_self]
      exact Option.some_ne_none _
    · cases hid

theorem causeListAddId_adds (h : s.Apart A) (hi : i ∈ A) (hl : s.causes i = some l) (id : Int) :
    Adds A s (causeListAddId s (some l) id).2 i [id] := by
  obtain ⟨hkept, honly⟩ := causeListAddId_bounds s.env (s.mem.lists l) id
  refine Adds.of_setList h hi hl _ _ _ hkept (fun j hj => ?_) fun henv => ?_
  · rw [List.mem_singleton]
    exact honly j hj
  · obtain ⟨hmem, henv'⟩ := causeListAddId_mem henv (s.mem.lists l) id
    exact ⟨henv', fun j hj => (hmem j).mpr (.inr (List.mem_singleton.mp hj))⟩

theorem causeListCopy_adds (h : s.Apart A) (hi : i ∈ A) (hp : ∀ l ∈ p, l ≠ s.refcount.next) :
    Adds A s (causeListCopy s p i).2 i (s.itemsOf p) := by
  have hensure := ensureCauses_adds h i
  have hsource : (s.ensureCauses i).itemsOf p = s.itemsOf p := by
    unfold itemsOf
    cases p with
    | none => rfl
    | some l => simp only [Option.elim_some, (ensureCauses_cases s i).2.2.1 l (hp l rfl)]
  unfold causeListCopy
  cases p with
  | none => exact hensure
  | some source =>
    cases ht : (s.ensureCauses i).causes i with
    | none =>
      simp only [ht]
      exact hensure.of_null ht _
    | some target =>
      simp only [ht]
      obtain ⟨hkept, honly⟩ := causeListCopyItems_bounds ((s.ensureCauses i).mem.lists source).items
        (s.ensureCauses i).env ((s.ensureCauses i).mem.lists target)
      rw [← hsource]
      refine hensure.trans (Adds.of_setList hensure.apart hi ht _ _ _ hkept honly fun henv => ?_)
      obtain ⟨hmem, henv'⟩ := causeListCopy_mem henv ((s.ensureCauses i).mem.lists source)
        ((s.ensureCauses i).mem.lists target)
      exact ⟨henv', fun j hj => (hmem j).mpr (.inr hj)⟩

/-- The task itself is added, or the accounts it is a proxy for. -/
theorem causeListAdd_adds (h : s.Apart A) (hi : i ∈ A) {task : Nat} (hne : i ≠ .task task)
    (accountId : Int) :
    Adds A s (causeListAdd s i task accountId).2 i (s.standsFor task accountId) := by
  have hensure := ensureCauses_adds h i
  have htask := hensure.causes (.task task) hne.symm
  have hids := hensure.others (.task task) hne.symm
  unfold causeListAdd standsFor
  rw [← htask]
  cases ht : (s.ensureCauses i).causes (.task task) with
  | some p =>
    simp only [ht]
    have hcopy := causeListCopy_adds (p := some p) hensure.apart hi fun l hl hn =>
      hensure.apart.causes_ne_next (.task task) (by rw [ht, hl, hn])
    have hitems : (s.mem.lists p).items = (s.ensureCauses i).itemsOf (some p) := by
      rw [ids, ids, ht, ← htask, ht] at hids
      exact hids.symm
    rw [hitems]
    exact hensure.trans hcopy
  | none =>
    simp only [ht]
    cases hl : (s.ensureCauses i).causes i with
    | none => exact hensure.of_null hl _
    | some l => exact hensure.trans (causeListAddId_adds hensure.apart hi hl accountId)

/-- Two buffers, dirtied by the accounts `id` and `id'`. -/
def twoBuffers (id id' : Int) : CauseRefs :=
  (causeListAdd (causeListAdd (init sampleMem sampleEnv) (.bh 0) 1 id).2 (.bh 1) 1 id').2

theorem twoBuffers_sound (id id' : Int) : (twoBuffers id id').Sound 0 ∧ (twoBuffers id id').env.Plenty := by
  have hne : ∀ i, Slot.bh i ≠ .task 1 := by simp
  have h₀ := causeListAdd_adds (init_apart Set.univ sampleMem sampleEnv) trivial (hne 0) id
  have h₁ := causeListAdd_adds h₀.apart trivial (hne 1) id'
  exact ⟨h₁.apart.sound, (h₁.all (h₀.all fun _ => rfl).1).1⟩

theorem Adds.setType {new : List Int} (h : Adds A s s' i new) (hi : i ∈ A) (type : SplitType) :
    Adds A s (s'.setCauseListType (s'.causes i) type) i new := by
  unfold setCauseListType
  cases hl : s'.causes i with
  | none => exact h
  | some l =>
    rw [← List.append_nil new]
    exact h.trans (Adds.of_setList h.apart hi hl _ _ _ (fun _ hid => hid) (fun _ hid => .inl hid)
      fun henv => ⟨henv, fun _ hid => (by cases hid)⟩)

/-! ## Giving up a pointer -/

/-- The pointer `i` leads to no accounts any more. -/
structure Empties (A : Set Slot) (s s' : CauseRefs) (i : Slot) : Prop where
  apart : s'.Apart A
  causes : ∀ j, j ≠ i → s'.causes j = s.causes j
  others : ∀ j ∈ A, j ≠ i → s'.ids j = s.ids j
  empty : s'.ids i = []
  plenty : s.env.Plenty → s'.env.Plenty

theorem putCauseList_frame (s : CauseRefs) (p : Option Nat) : ∃ c d,
    putCauseList s p = { s with refcount := c, desc := d } ∧ c.next = s.refcount.next := by
  cases p with
  | none => exact ⟨_, _, rfl, rfl⟩
  | some l =>
    obtain ⟨d, hput⟩ := putCauseList_eq s l
    refine ⟨_, d, hput, ?_⟩
    unfold Krefs.put
    split <;> rfl

theorem giveUp_empties (h : s.Apart A) (i : Slot) : Empties A s (s.giveUp i) i := by
  have hsound := giveUp_sound h.sound i
  obtain ⟨c, d, hput, -⟩ := putCauseList_frame s (s.causes i)
  have hc := causes_setCauses (putCauseList s (s.causes i)) i none
  unfold giveUp
  rw [hput] at hsound hc ⊢
  refine ⟨h.update hsound rfl hc (.inr fun l hl => (by cases hl)), fun j hj => ?_, fun j _ hj => ?_, ?_,
    fun henv => henv⟩
  · rw [hc, Function.update_of_ne hj]
    rfl
  · rw [ids, hc, Function.update_of_ne hj]
    rfl
  · rw [ids, hc, Function.update_self]
    rfl

theorem setCauses_setCauses_none (s : CauseRefs) (i : Slot) (p : Option Nat) :
    (s.setCauses i none).setCauses i p = s.setCauses i p := by
  have hkeys : i ∉ (s.slots.erase i).entries.keys := fun hi => (AList.mem_erase.mp hi).1 rfl
  have herase : (s.slots.erase i).erase i = s.slots.erase i :=
    AList.ext (List.kerase_of_notMem_keys hkeys)
  cases p with
  | none => simp only [setCauses, herase]
  | some l =>
    have hinsert : (s.slots.erase i).insert i l = s.slots.insert i l :=
      AList.ext (congrArg (fun t : AList fun _ => Nat => (⟨i, l⟩ : Sigma fun _ => Nat) :: t.entries) herase)
    simp only [setCauses, hinsert]

theorem newCauseList_setCauses (s : CauseRefs) (i : Slot) :
    newCauseList (s.setCauses i none) =
      ((newCauseList s).1, (newCauseList s).2.setCauses i none) := by
  unfold newCauseList setCauses
  by_cases hm : s.env.kmalloc.1
  · simp only [hm, if_true]
  · simp only [hm, if_false, Bool.false_eq_true]

theorem renew_eq (s : CauseRefs) (i : Slot) : s.renew i = (s.giveUp i).ensureCauses i := by
  have hnull : (s.giveUp i).causes i = none := by
    unfold giveUp
    rw [causes_setCauses, Function.update_self]
  unfold ensureCauses
  rw [hnull]
  unfold giveUp renew
  simp only [newCauseList_setCauses, setCauses_setCauses_none]

theorem renew_empties (h : s.Apart A) (i : Slot) : Empties A s (s.renew i) i ∧
    (s.env.Plenty → (s.renew i).causes i ≠ none) := by
  have hgive := giveUp_empties h i
  have hnew := ensureCauses_adds hgive.apart i
  rw [renew_eq]
  refine ⟨⟨hnew.apart, fun j hj => (hnew.causes j hj).trans (hgive.causes j hj),
    fun j hjA hj => (hnew.others j hj).trans (hgive.others j hjA hj), ?_, fun henv => ?_⟩, fun henv => ?_⟩
  · rw [List.eq_nil_iff_forall_not_mem]
    intro id hid
    rcases hnew.only id hid with hid | hid
    · rw [hgive.empty] at hid
      cases hid
    · cases hid
  · exact (hnew.all (hgive.plenty henv)).1
  · exact (hnew.all (hgive.plenty henv)).2.1

/-! ## Moving a list to a bio -/

/-- Other lists stay as they are, and the pointers stay apart from the list that a new list of cause lists
comes with. -/
theorem ensureCll_spec (h : s.Apart A) (bio : Nat) (itemCapacity : Int) :
    (s.ensureCll bio itemCapacity).Apart A ∧
    (∀ k, k ≠ s.refcount.next → (s.ensureCll bio itemCapacity).mem.lists k = s.mem.lists k) ∧
    (s.env.Plenty → (s.ensureCll bio itemCapacity).env.Plenty) := by
  have hsound := ensureCll_sound h.sound bio itemCapacity
  have hc := ensureCll_causes s bio itemCapacity
  unfold ensureCll at hsound hc ⊢
  cases hlook : s.clls.lookup bio with
  | some cll => exact ⟨h, fun _ _ => rfl, fun henv => henv⟩
  | none =>
    simp only [hlook] at hsound hc ⊢
    rcases newCauseListList_cases s itemCapacity with
      ⟨env, m, d, c, hnew, -, hlists, henv⟩ | ⟨env, d, hnew, henv⟩
    · simp only [hnew] at hsound hc ⊢
      exact ⟨⟨hsound, h.own, h.uniq⟩, hlists, henv⟩
    · simp only [hnew] at hsound hc ⊢
      refine ⟨⟨hsound, h.own, fun i hi bio' cll hb => ?_⟩, fun _ => Mem.setList_lists_of_ne _ _, henv⟩
      by_cases hbio : bio' = bio
      · subst hbio
        rw [AList.lookup_insert] at hb
        cases hb
        exact h.causes_ne_next i
      · rw [AList.lookup_insert_ne hbio] at hb
        exact h.uniq i hi bio' cll hb

section CllAdd

variable {bio : Nat} {cll : CauseListList}

theorem causeListListAdd_lists {k : Nat} (hb : ∀ cll, s.clls.lookup bio = some cll → k ≠ cll.uniqCauses)
    (p : Option Nat) : (causeListListAdd s bio p).mem.lists k = s.mem.lists k := by
  unfold causeListListAdd
  cases hlook : s.clls.lookup bio with
  | none => rfl
  | some cll =>
    cases p with
    | none => rfl
    | some l =>
      by_cases hfull : cll.items.length = cll.itemCapacity
      · simp only [hfull, if_true]
      · simp only [hfull, if_false]
        unfold SplitSched.causeListListAdd
        rw [if_neg hfull]
        exact Mem.setList_lists_of_ne _ _ (hb cll hlook)

theorem causeListListAdd_apart (h : s.Apart A) (bio : Nat) (hp : ∀ l ∈ p, l ∈ s.refs) :
    (causeListListAdd s bio p).Apart A := by
  have hsound := causeListListAdd_sound h.sound bio fun l hl => by
    rw [zero_add]
    exact hp l hl
  have hc := causeListListAdd_causes s bio p
  refine ⟨hsound, hc ▸ h.own, fun i hi bio' cll hb => ?_⟩
  rw [hc]
  unfold causeListListAdd at hb
  cases hlook : s.clls.lookup bio with
  | none =>
    simp only [hlook] at hb
    exact h.uniq i hi bio' cll hb
  | some c =>
    cases p with
    | none =>
      simp only [hlook] at hb
      exact h.uniq i hi bio' cll hb
    | some l =>
      simp only [hlook] at hb
      by_cases hfull : c.items.length = c.itemCapacity
      · simp only [hfull, if_true] at hb
        exact h.uniq i hi bio' cll hb
      · simp only [hfull, if_false] at hb
        by_cases hbio : bio' = bio
        · subst hbio
          have hins := (AList.lookup_insert _).symm.trans hb
          have huniq : cll.uniqCauses = c.uniqCauses := by
            rw [← Option.some.inj hins]
            unfold SplitSched.causeListListAdd
            rw [if_neg hfull]
          rw [huniq]
          exact h.uniq i hi bio' c hlook
        · exact h.uniq i hi bio' cll ((AList.lookup_insert_ne hbio).symm.trans hb)

theorem causeListListAdd_plenty (h : s.env.Plenty) (bio : Nat) (p : Option Nat) :
    (causeListListAdd s bio p).env.Plenty := by
  unfold causeListListAdd
  cases s.clls.lookup bio with
  | none => exact h
  | some cll =>
    cases p with
    | none => exact h
    | some l =>
      simp only
      split
      · exact h
      · rename_i hfull
        unfold SplitSched.causeListListAdd
        rw [if_neg hfull]
        change Env.Plenty (ite _ _ _ : CauseList × Env).2
        split
        · exact (causeListCopy_mem h _ _).2
        · exact h

end CllAdd

theorem moveCausesBhToBio_empties (h : s.Apart A) (bh bSize bio maxSectors : Nat) :
    Empties A s (moveCausesBhToBio s bh bSize bio maxSectors) (.bh bh) := by
  unfold moveCausesBhToBio
  cases hl : s.causes (.bh bh) with
  | none =>
    refine ⟨h, fun _ _ => rfl, fun _ _ _ => rfl, ?_, fun henv => henv⟩
    rw [ids, hl]
    rfl
  | some l =>
    obtain ⟨hcll, hlists, henv⟩ := ensureCll_spec h bio (maxSectors / 8 : Nat)
    have hc := ensureCll_causes s bio (maxSectors / 8 : Nat)
    simp only
    generalize s.ensureCll bio (maxSectors / 8 : Nat) = t at hcll hc hlists henv
    -- the size of the list is set
    obtain ⟨u, hu⟩ : ∃ u : CauseRefs,
        u = { t with mem := t.mem.setList l { t.mem.lists l with size := bSize } } := ⟨_, rfl⟩
    have hsized : u.Apart A := hu ▸ ⟨hcll.sound, hcll.own, hcll.uniq⟩
    have huc : u.causes = s.causes := hu ▸ hc
    have hul : ∀ {k}, k ≠ l → k ≠ s.refcount.next → u.mem.lists k = s.mem.lists k := by
      intro k hkl hkn
      rw [hu, ← hlists k hkn]
      exact Mem.setList_lists_of_ne _ _ hkl
    have hue : s.env.Plenty → u.env.Plenty := hu ▸ henv
    rw [← hu]
    -- it is added to the bio's lists, and the buffer's pointer is given up
    have hadd := causeListListAdd_apart (p := some l) hsized bio fun k hk => by
      cases hk
      exact mem_refs_of_causes ((congrFun huc _).trans hl)
    have hcauses := causeListListAdd_causes u bio (some l)
    have hgive := giveUp_empties hadd (.bh bh)
    unfold giveUp at hgive
    rw [hcauses, huc, hl] at hgive
    refine ⟨hgive.apart, fun j hj => ?_, fun j hjA hj => ?_, hgive.empty, fun hm => ?_⟩
    · rw [hgive.causes j hj, hcauses, huc]
    · rw [hgive.others j hjA hj, ids, ids, hcauses, huc]
      cases hjk : s.causes j with
      | none => rfl
      | some k =>
        have hkl : k ≠ l := by
          rintro rfl
          exact hj (h.own j hjA _ k hjk hl).symm
        have hku : ∀ cll, u.clls.lookup bio = some cll → k ≠ cll.uniqCauses := by
          rintro cll hb rfl
          exact hsized.uniq j hjA bio cll hb ((congrFun huc j).trans hjk)
        unfold itemsOf
        rw [Option.elim_some, Option.elim_some, causeListListAdd_lists hku,
          hul hkl fun he => h.causes_ne_next j (he ▸ hjk)]
    · exact hgive.plenty (causeListListAdd_plenty (hue hm) bio _)

end CauseRefs

end SplitSched
