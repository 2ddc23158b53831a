import SplitSched.Block.CauseIds
import SplitSched.Lib.Outstanding

/-!
# SplitSched.Block.LeakCounters

The counters that should reveal leaks of cause lists (cause_tags.c of the 4.5 patch set): how many lists and
items were allocated, and how many were freed. Two failure paths do not keep the books. `__cause_list_add`
counts an item before it knows whether there is one, and `new_cause_list_list` frees the list `uniq_causes`
with `kfree` when it has no memory for itself.

* `refused`: how often a step goes these ways.
* `step_drifts`: this is by how much the counters are wrong afterwards; nothing else makes them drift, and
  nothing brings them back.
* `leak_counters_iff`: the counters tell the truth in every state of a run if and only if no step goes these
  ways.
-/

namespace SplitSched
namespace CauseRefs

def liveLists (s : CauseRefs) : Finset Nat :=
  (Finset.range s.refcount.next).filter fun l => s.refcount.live l = true

structure CountersTrue (s : CauseRefs) : Prop where
  lists : (s.desc.causeListAlloc : Int) - s.desc.causeListFree = s.liveLists.card
  items : (s.desc.causeItemAlloc : Int) - s.desc.causeItemFree =
    ∑ l ∈ s.liveLists, ((s.mem.lists l).items.length : Int)

/-! ## Allocations that are refused -/

/-- The items that the loop of `cause_list_copy` asks for in vain. -/
def refusedItems (env : Env) : List Int → CauseList → Nat
  | [], _ => 0
  | id :: ids, c =>
    let r := SplitSched.causeListAddId env c id
    (if id ∈ c.items ∨ env.kmalloc.1 = true then 0 else 1) + refusedItems r.2.2 ids r.2.1

def refusedCopy (s : CauseRefs) (p : Option Nat) (i : Slot) : Nat :=
  let s := s.ensureCauses i
  match p, s.causes i with
  | some source, some target => refusedItems s.env (s.mem.lists source).items (s.mem.lists target)
  | _, _ => 0

def refusedAdd (s : CauseRefs) (i : Slot) (task : Nat) (accountId : Int) : Nat :=
  let s := s.ensureCauses i
  match s.causes (.task task) with
  | some p => refusedCopy s (some p) i
  | none =>
    match s.causes i with
    | some l => refusedItems s.env [accountId] (s.mem.lists l)
    | none => 0

def refusedListAdd (s : CauseRefs) (bio : Nat) (p : Option Nat) : Nat :=
  match s.clls.lookup bio, p with
  | some cll, some l =>
    if cll.items.length = cll.itemCapacity ∨ cll.items.getLast? = some l then 0
    else refusedItems s.env (s.mem.lists l).items (s.mem.lists cll.uniqCauses)
  | _, _ => 0

/-- There is memory for `uniq_causes`, but none for the list of cause lists. -/
def refusedCll (s : CauseRefs) (bio : Nat) (itemCapacity : Int) : Nat :=
  if s.clls.lookup bio = none ∧ 0 ≤ itemCapacity ∧ s.env.kmalloc.1 = false ∧
    s.env.kmalloc.2.kmalloc.1 = true then 1 else 0

/-- The size of the data of a list is noted. -/
def setSize (s : CauseRefs) (l size : Nat) : CauseRefs :=
  { s with mem := s.mem.setList l { s.mem.lists l with size := size } }

/-- Items, and lists of cause lists, that a step asks for in vain. -/
def refused (s : CauseRefs) : Event → Nat × Nat
  | .add i task accountId => (s.refusedAdd i task accountId, 0)
  | .copy p i => (s.refusedCopy p i, 0)
  | .newCll bio itemCapacity => (0, s.refusedCll bio itemCapacity)
  | .cllAdd bio p => (s.refusedListAdd bio p, 0)
  | .zeroToBio bio _ maxSectors => (0, s.refusedCll bio (maxSectors / 8 : Nat))
  | .moveBhToBio bh bSize bio maxSectors =>
    match s.causes (.bh bh) with
    | none => (0, 0)
    | some l =>
      (refusedListAdd ((s.ensureCll bio (maxSectors / 8 : Nat)).setSize l bSize) bio (some l),
        s.refusedCll bio (maxSectors / 8 : Nat))
  | _ => (0, 0)

/-! ## How the counters drift -/

def listGap (s : CauseRefs) : Int :=
  (s.desc.causeListAlloc : Int) - s.desc.causeListFree - s.liveLists.card

def itemGap (s : CauseRefs) : Int :=
  (s.desc.causeItemAlloc : Int) - s.desc.causeItemFree -
    ∑ l ∈ s.liveLists, ((s.mem.lists l).items.length : Int)

theorem countersTrue_iff (s : CauseRefs) : s.CountersTrue ↔ s.itemGap = 0 ∧ s.listGap = 0 := by
  unfold itemGap listGap
  rw [sub_eq_zero, sub_eq_zero]
  exact ⟨fun h => ⟨h.items, h.lists⟩, fun h => ⟨h.2, h.1⟩⟩

/-- From `s` to `t` the counters get ahead of the truth by so many items and lists. -/
structure Drifts (s t : CauseRefs) (items lists : Nat) : Prop where
  items : t.itemGap = s.itemGap + items
  lists : t.listGap = s.listGap + lists

variable {s t u : CauseRefs} {owned refs : Multiset Nat} {i : Slot} {p : Option Nat} {l bio : Nat}

theorem Drifts.trans {n n' k k' : Nat} (h : Drifts s t n k) (h' : Drifts t u n' k') :
    Drifts s u (n + n') (k + k') := by
  constructor
  · rw [h'.items, h.items]
    push_cast
    ring
  · rw [h'.lists, h.lists]
    push_cast
    ring

/-- A step that counts nothing, on either side. -/
theorem Drifts.then {n k : Nat} (h : Drifts s t n k) (h' : Drifts t u 0 0) : Drifts s u n k := h.trans h'

theorem Drifts.after {n k : Nat} (h' : Drifts t u n k) (h : Drifts s t 0 0) : Drifts s u n k := by
  have hboth := h.trans h'
  rwa [Nat.zero_add, Nat.zero_add] at hboth

/-- Neither counters nor items change. -/
theorem drifts_of_same (hdesc : t.desc = s.desc) (hlive : t.liveLists = s.liveLists)
    (hitems : ∀ l, (t.mem.lists l).items = (s.mem.lists l).items) : Drifts s t 0 0 := by
  constructor
  · unfold itemGap
    simp only [hdesc, hlive, hitems, Nat.cast_zero, add_zero]
  · unfold listGap
    rw [hdesc, hlive, Nat.cast_zero, add_zero]

theorem Drifts.refl (s : CauseRefs) : Drifts s s 0 0 := drifts_of_same rfl rfl fun _ => rfl

/-- The items of all lists change by those of the one list that changes, comes or goes. -/
theorem itemSum_change (hlive : ∀ l', l' ≠ l → (l' ∈ t.liveLists ↔ l' ∈ s.liveLists))
    (hitems : ∀ l', l' ≠ l → (t.mem.lists l').items = (s.mem.lists l').items) :
    ∑ l' ∈ t.liveLists, ((t.mem.lists l').items.length : Int) =
      ∑ l' ∈ s.liveLists, ((s.mem.lists l').items.length : Int) +
        ((if l ∈ t.liveLists then ((t.mem.lists l).items.length : Int) else 0) -
          if l ∈ s.liveLists then ((s.mem.lists l).items.length : Int) else 0) :=
  sum_change hlive fun l' hl' => by rw [hitems l' hl']

/-- One list changes, after `n` items have been asked for. -/
theorem drifts_of_items {n k : Nat} (hl : l ∈ s.liveLists) (hlive : t.liveLists = s.liveLists)
    (hdesc : t.desc = (s.allocItems n).desc)
    (hother : ∀ l', l' ≠ l → (t.mem.lists l').items = (s.mem.lists l').items)
    (hself : n + (s.mem.lists l).items.length = (t.mem.lists l).items.length + k) : Drifts s t k 0 := by
  have hsum := itemSum_change (fun l' _ => by rw [hlive]) hother
  constructor
  · unfold itemGap
    rw [hsum, hdesc, hlive, if_pos hl, if_pos hl]
    simp only [allocItems]
    push_cast
    omega
  · unfold listGap
    rw [hlive, hdesc, Nat.cast_zero, add_zero]
    rfl

theorem mem_liveLists : l ∈ s.liveLists ↔ l < s.refcount.next ∧ s.refcount.live l = true := by
  unfold liveLists
  rw [Finset.mem_filter, Finset.mem_range]

theorem mem_liveLists_of_balanced (h : s.refcount.Balanced refs) (hl : l ∈ refs) : l ∈ s.liveLists :=
  mem_liveLists.mpr ⟨h.lt_next hl, (h.live_iff l).mpr hl⟩

/-! ## Lists come and go -/

theorem liveLists_alloc (s : CauseRefs) (t : CauseRefs) (ht : t.refcount = s.refcount.alloc) :
    t.liveLists = insert s.refcount.next s.liveLists := by
  ext l
  rw [mem_liveLists, Finset.mem_insert, mem_liveLists, ht]
  unfold Krefs.alloc
  by_cases hl : l = s.refcount.next
  · simp [hl]
  · simp only [Function.update_of_ne hl, hl, false_or]
    constructor
    · rintro ⟨hlt, hlive⟩
      exact ⟨by omega, hlive⟩
    · rintro ⟨hlt, hlive⟩
      exact ⟨by omega, hlive⟩

theorem next_notMem_liveLists (s : CauseRefs) : s.refcount.next ∉ s.liveLists := by
  rw [mem_liveLists]
  omega

theorem liveLists_gone (hnext : t.refcount.next = s.refcount.next)
    (hlive : t.refcount.live = Function.update s.refcount.live l false) :
    t.liveLists = s.liveLists.erase l := by
  ext l'
  rw [mem_liveLists, Finset.mem_erase, mem_liveLists, hnext, hlive]
  by_cases hl : l' = l
  · simp [hl]
  · simp [hl]

/-- A new list is empty and counted. -/
theorem drifts_of_alloc (ht : t.refcount = s.refcount.alloc)
    (hdesc : t.desc = { s.desc with causeListAlloc := s.desc.causeListAlloc + 1 })
    (hmem : t.mem = s.mem.setList s.refcount.next .new) : Drifts s t 0 0 := by
  have hlive := liveLists_alloc s t ht
  have hnew := s.next_notMem_liveLists
  have hsum := itemSum_change (s := s) (t := t) (l := s.refcount.next)
    (fun l' hl' => by rw [hlive, Finset.mem_insert, or_iff_right hl'])
    (fun l' hl' => by rw [hmem, Mem.setList_lists_of_ne _ _ hl'])
  constructor
  · unfold itemGap
    rw [hsum, hdesc, if_neg hnew, hmem, Mem.setList_lists_self]
    simp [CauseList.new]
  · unfold listGap
    rw [hlive, hdesc, Finset.card_insert_of_notMem hnew]
    push_cast
    ring

theorem newCauseList_drifts (s : CauseRefs) : Drifts s (newCauseList s).2 0 0 := by
  unfold newCauseList
  by_cases hm : s.env.kmalloc.1 = true
  · simp only [hm, if_true]
    exact drifts_of_alloc rfl rfl rfl
  · simp only [hm, if_false, Bool.false_eq_true]
    exact drifts_of_same rfl rfl fun _ => rfl

theorem setCauses_drifts (s : CauseRefs) (i : Slot) (p : Option Nat) : Drifts s (s.setCauses i p) 0 0 := by
  cases p with
  | none => exact drifts_of_same rfl rfl fun _ => rfl
  | some l => exact drifts_of_same rfl rfl fun _ => rfl

theorem ensureCauses_drifts (s : CauseRefs) (i : Slot) : Drifts s (s.ensureCauses i) 0 0 := by
  unfold ensureCauses
  cases s.causes i with
  | some l => exact .refl s
  | none => exact (newCauseList_drifts s).then (setCauses_drifts _ i _)

/-- A list that is freed takes its items along. -/
theorem putCauseList_drifts (hl : l ∈ s.liveLists) : Drifts s (putCauseList s (some l)) 0 0 := by
  unfold putCauseList
  simp only
  split
  · generalize ht : freeCauseList { s with refcount := s.refcount.drop l } l = t
    have hlive : t.liveLists = s.liveLists.erase l := by
      rw [← ht]
      exact liveLists_gone rfl rfl
    have hsum := itemSum_change (s := s) (t := t) (l := l)
      (fun l' hl' => by rw [hlive, Finset.mem_erase, and_iff_right hl'])
      (fun l' _ => by rw [← ht]; rfl)
    constructor
    · unfold itemGap
      rw [hsum, if_pos hl, if_neg (by rw [hlive]; exact Finset.notMem_erase l _), ← ht]
      simp only [freeCauseList]
      push_cast
      ring
    · have hcard := Finset.card_erase_add_one hl
      unfold listGap
      rw [hlive, ← ht, ← hcard]
      simp only [freeCauseList]
      push_cast
      ring
  · exact drifts_of_same rfl rfl fun _ => rfl

theorem Sound.mem_liveLists (h : s.Sound owned) (hl : l ∈ owned + s.refs) : l ∈ s.liveLists :=
  mem_liveLists_of_balanced h hl

theorem Sound.causes_mem (h : s.Sound owned) (hi : s.causes i = some l) : l ∈ s.liveLists :=
  h.mem_liveLists (Multiset.mem_add.mpr (.inr (mem_refs_of_causes hi)))

theorem giveUp_drifts (h : s.Sound owned) (i : Slot) :
    Drifts s ((putCauseList s (s.causes i)).setCauses i none) 0 0 := by
  cases hi : s.causes i with
  | none => exact setCauses_drifts s i none
  | some l => exact (putCauseList_drifts (h.causes_mem hi)).then (setCauses_drifts _ i none)

theorem foldl_putCauseList_drifts (ls : List Nat) : ∀ {s : CauseRefs}, s.refcount.Balanced (ls + refs) →
    Drifts s (ls.foldl (fun s l => putCauseList s (some l)) s) 0 0 ∧
      (ls.foldl (fun s l => putCauseList s (some l)) s).refcount.Balanced refs := by
  induction ls with
  | nil =>
    intro s h
    rw [Multiset.coe_nil, zero_add] at h
    exact ⟨.refl s, h⟩
  | cons l ls ih =>
    intro s h
    rw [← Multiset.cons_coe, Multiset.cons_add] at h
    obtain ⟨d, hput⟩ := putCauseList_eq s l
    have hbalanced : (putCauseList s (some l)).refcount.Balanced (ls + refs) := by
      rw [hput]
      exact h.put
    obtain ⟨hdrifts, hrest⟩ := ih hbalanced
    have hl := mem_liveLists_of_balanced h (Multiset.mem_cons_self l _)
    exact ⟨(putCauseList_drifts hl).then hdrifts, hrest⟩

theorem delCauseListList_drifts (h : s.Sound owned) (bio : Nat) :
    Drifts s (delCauseListList s bio) 0 0 := by
  unfold delCauseListList
  cases hb : s.clls.lookup bio with
  | none => exact .refl s
  | some cll =>
    have hpointers : ∃ refs : Multiset Nat,
        s.refcount.Balanced (cll.items + (cll.uniqCauses ::ₘ refs)) := by
      unfold Sound CauseRefs.refs holders at h
      rw [contents_erase s.clls bio, hb] at h
      refine ⟨owned + (contents (fun l => [l]) s.slots + contents cllPointers (s.clls.erase bio) +
        (s.works.reduceOption : List Nat) + (s.lost.reduceOption : List Nat)), ?_⟩
      convert h using 1
      simp only [Option.elim_some, cllPointers, ← Multiset.cons_coe, ← Multiset.singleton_add]
      abel
    obtain ⟨refs, hbalanced⟩ := hpointers
    obtain ⟨hitems, hrest⟩ := foldl_putCauseList_drifts cll.items hbalanced
    have huniq := mem_liveLists_of_balanced hrest (Multiset.mem_cons_self _ _)
    exact (hitems.then (putCauseList_drifts huniq)).then (drifts_of_same rfl rfl fun _ => rfl)

/-! ## Items are added -/

/-- What the loop asks for is what it adds, and what it is refused. -/
theorem itemAllocs_add (ids : List Int) : ∀ (env : Env) (c : CauseList),
    itemAllocs env ids c + c.items.length =
      (causeListCopyItems env ids c).2.1.items.length + refusedItems env ids c := by
  induction ids with
  | nil =>
    intro env c
    exact Nat.zero_add _
  | cons id ids ih =>
    intro env c
    have hrest := ih (SplitSched.causeListAddId env c id).2.2 (SplitSched.causeListAddId env c id).2.1
    have hone : (if id ∈ c.items then 0 else 1) + c.items.length =
        (SplitSched.causeListAddId env c id).2.1.items.length +
          if id ∈ c.items ∨ env.kmalloc.1 = true then 0 else 1 := by
      unfold SplitSched.causeListAddId
      by_cases hid : id ∈ c.items
      · simp only [hid, if_true, dif_pos, true_or]
        omega
      · by_cases hm : env.kmalloc.1 = true
        · simp only [hid, hm, if_true, if_false, dif_neg, not_false_eq_true, or_true, CauseList.push,
            List.length_append, List.length_singleton]
          omega
        · simp only [hid, hm, if_false, dif_neg, not_false_eq_true, or_self, Bool.false_eq_true]
          omega
    simp only [itemAllocs, refusedItems, causeListCopyItems]
    omega

theorem causeListAddId_drifts (hl : l ∈ s.liveLists) (id : Int) :
    Drifts s (causeListAddId s (some l) id).2 (refusedItems s.env [id] (s.mem.lists l)) 0 := by
  have hadd := itemAllocs_add [id] s.env (s.mem.lists l)
  refine drifts_of_items hl rfl rfl (fun l' hl' => ?_) ?_
  · exact congrArg CauseList.items (Mem.setList_lists_of_ne _ _ hl')
  · simp only [causeListAddId, allocItems, Mem.setList_lists_self]
    exact hadd

theorem causeListCopy_drifts (h : s.Sound owned) (p : Option Nat) (i : Slot) :
    Drifts s (causeListCopy s p i).2 (s.refusedCopy p i) 0 := by
  have hensure := ensureCauses_drifts s i
  have hsound := ensureCauses_sound h i
  unfold causeListCopy refusedCopy
  generalize s.ensureCauses i = t at hensure hsound
  cases p with
  | none => exact hensure
  | some source =>
    cases hi : t.causes i with
    | none =>
      simp only [hi]
      exact hensure
    | some target =>
      simp only [hi]
      have hl := hsound.causes_mem hi
      have hitems : Drifts t (allocItems { t with
            mem := t.mem.setList target (SplitSched.causeListCopy t.env (t.mem.lists source)
              (t.mem.lists target)).2.1
            env := (SplitSched.causeListCopy t.env (t.mem.lists source) (t.mem.lists target)).2.2 }
          (itemAllocs t.env (t.mem.lists source).items (t.mem.lists target)))
          (refusedItems t.env (t.mem.lists source).items (t.mem.lists target)) 0 := by
        refine drifts_of_items hl rfl rfl (fun l' hl' => ?_) ?_
        · exact congrArg CauseList.items (Mem.setList_lists_of_ne _ _ hl')
        · simp only [allocItems, Mem.setList_lists_self]
          exact itemAllocs_add _ _ _
      exact hitems.after hensure

theorem causeListAdd_drifts (h : s.Sound owned) (i : Slot) (task : Nat) (accountId : Int) :
    Drifts s (causeListAdd s i task accountId).2 (s.refusedAdd i task accountId) 0 := by
  have hensure := ensureCauses_drifts s i
  have hsound := ensureCauses_sound h i
  unfold causeListAdd refusedAdd
  generalize s.ensureCauses i = t at hensure hsound
  cases htask : t.causes (.task task) with
  | some p =>
    simp only [htask]
    exact (causeListCopy_drifts hsound (some p) i).after hensure
  | none =>
    simp only [htask]
    cases hi : t.causes i with
    | none => exact hensure
    | some l => exact (causeListAddId_drifts (hsound.causes_mem hi) accountId).after hensure

/-! ## Lists of cause lists -/

/-- `uniq_causes` is counted when it comes, but not when it goes. -/
theorem drifts_of_discard (ht : t.refcount = s.refcount.alloc.discard s.refcount.next)
    (hdesc : t.desc = { s.desc with causeListAlloc := s.desc.causeListAlloc + 1 })
    (hmem : t.mem = s.mem.setList s.refcount.next .new) : Drifts s t 0 1 := by
  have hlive : t.liveLists = s.liveLists := by
    have hgone : t.liveLists = (liveLists { s with refcount := s.refcount.alloc }).erase s.refcount.next :=
      liveLists_gone (by rw [ht]; rfl) (by rw [ht]; rfl)
    rw [hgone, liveLists_alloc s _ rfl, Finset.erase_insert s.next_notMem_liveLists]
  constructor
  · have hsum : ∑ l ∈ s.liveLists, ((t.mem.lists l).items.length : Int) =
        ∑ l ∈ s.liveLists, ((s.mem.lists l).items.length : Int) := by
      refine Finset.sum_congr rfl fun l hl => ?_
      have hne : l ≠ s.refcount.next := by
        rintro rfl
        exact s.next_notMem_liveLists hl
      rw [hmem, Mem.setList_lists_of_ne _ _ hne]
    unfold itemGap
    rw [hlive, hsum, hdesc, Nat.cast_zero, add_zero]
  · unfold listGap
    rw [hlive, hdesc]
    push_cast
    ring

theorem ensureCll_drifts (s : CauseRefs) (bio : Nat) (itemCapacity : Int) :
    Drifts s (s.ensureCll bio itemCapacity) 0 (s.refusedCll bio itemCapacity) := by
  unfold ensureCll refusedCll
  cases hb : s.clls.lookup bio with
  | some cll =>
    simp only [reduceCtorEq, false_and, if_false]
    exact .refl s
  | none =>
    unfold newCauseListList
    by_cases hneg : itemCapacity < 0
    · simp only [hneg, if_true, not_le.mpr hneg, false_and, and_false, if_false]
      exact .refl s
    simp only [hneg, if_false, not_lt.mp hneg, true_and, newCauseList]
    by_cases huniq : s.env.kmalloc.2.kmalloc.1 = true
    · by_cases hcll : s.env.kmalloc.1 = true
      · simp only [huniq, hcll, if_true, Bool.true_eq_false, false_and, if_false]
        exact drifts_of_alloc rfl rfl rfl
      · simp only [huniq, hcll, if_true, Bool.false_eq_true, if_false, and_self]
        exact drifts_of_discard rfl rfl rfl
    · simp only [huniq, Bool.false_eq_true, and_false, if_false]
      exact drifts_of_same rfl rfl fun _ => rfl

theorem Sound.uniqCauses_mem {cll : CauseListList} (h : s.Sound owned) (hb : s.clls.lookup bio = some cll) :
    cll.uniqCauses ∈ s.liveLists := by
  refine h.mem_liveLists (Multiset.mem_add.mpr (.inr ?_))
  unfold CauseRefs.refs holders
  rw [contents_erase s.clls bio, hb]
  simp [cllPointers]

theorem causeListListAdd_drifts (h : s.Sound owned) (bio : Nat) (p : Option Nat) :
    Drifts s (causeListListAdd s bio p) (s.refusedListAdd bio p) 0 := by
  unfold causeListListAdd refusedListAdd
  cases hb : s.clls.lookup bio with
  | none => exact .refl s
  | some cll =>
    cases p with
    | none => exact .refl s
    | some l =>
      by_cases hfull : cll.items.length = cll.itemCapacity
      · simp only [hfull, if_true, true_or]
        exact .refl s
      have huniq := h.uniqCauses_mem hb
      simp only [hfull, if_false, false_or]
      refine drifts_of_items huniq rfl rfl (fun l' hl' => ?_) ?_
      · unfold SplitSched.causeListListAdd
        simp only [hfull, if_false, allocItems]
        exact congrArg CauseList.items (Mem.setList_lists_of_ne _ _ hl')
      · unfold SplitSched.causeListListAdd
        simp only [hfull, if_false, allocItems, Mem.setList_lists_self]
        by_cases hlast : cll.items.getLast? = some l
        · simp only [hlast, ne_eq, not_true_eq_false, if_false, if_true]
          omega
        · simp only [hlast, ne_eq, not_false_eq_true, if_true, if_false]
          exact itemAllocs_add _ _ _

theorem setSize_drifts (s : CauseRefs) (l size : Nat) : Drifts s (s.setSize l size) 0 0 := by
  refine drifts_of_same rfl rfl fun l' => ?_
  unfold setSize
  by_cases hl : l' = l
  · rw [hl, Mem.setList_lists_self]
  · rw [Mem.setList_lists_of_ne _ _ hl]

/-- A list without items asks for none. -/
theorem refusedListAdd_new (hl : (s.mem.lists l).items = []) (bio : Nat) :
    s.refusedListAdd bio (some l) = 0 := by
  unfold refusedListAdd
  cases s.clls.lookup bio with
  | none => rfl
  | some cll => simp only [hl, refusedItems, ite_self]

theorem addCausesZeroToBio_drifts (h : s.Sound owned) (bio size maxSectors : Nat) :
    Drifts s (addCausesZeroToBio s bio size maxSectors) 0 (s.refusedCll bio (maxSectors / 8 : Nat)) := by
  have hensure := ensureCll_drifts s bio (maxSectors / 8 : Nat)
  have hsound := ensureCll_sound h bio (maxSectors / 8 : Nat)
  unfold addCausesZeroToBio
  generalize s.ensureCll bio (maxSectors / 8 : Nat) = t at hensure hsound
  cases hb : t.clls.lookup bio with
  | none =>
    simp only [hb]
    exact hensure
  | some cll =>
    have hlist := newCauseList_sound hsound
    have hdrifts := hensure.then (newCauseList_drifts t)
    simp only [hb]
    cases hnew : (newCauseList t).1 with
    | none => exact hdrifts
    | some l =>
      have hitems : ((newCauseList t).2.mem.lists l).items = [] := by
        rcases newCauseList_cases t with ⟨env, heq, -⟩ | ⟨env, d, heq, -⟩
        · rw [heq] at hnew
          cases hnew
        · rw [heq] at hnew ⊢
          cases hnew
          rw [Mem.setList_lists_self]
          rfl
      rw [hnew] at hlist
      generalize (newCauseList t).2 = u at hlist hdrifts hitems
      simp only
      generalize hc : ({ SplitSched.setCauseListType (u.mem.lists l) .zero with size := size } : CauseList) = c
      have hempty : c.items = [] := by
        rw [← hc]
        exact hitems
      have htyped : Drifts u { u with mem := u.mem.setList l c } 0 0 := by
        refine drifts_of_same rfl rfl fun l' => ?_
        by_cases hl : l' = l
        · rw [hl, Mem.setList_lists_self, hempty, hitems]
        · rw [Mem.setList_lists_of_ne _ _ hl]
      have hsound' : ({ u with mem := u.mem.setList l c } : CauseRefs).Sound ((some l).toList + owned) := hlist
      have hadd := causeListListAdd_drifts hsound' bio (some l)
      rw [refusedListAdd_new (by rw [Mem.setList_lists_self]; exact hempty)] at hadd
      have hadded := causeListListAdd_sound (p := some l) hsound' bio (by rintro l' ⟨⟩; simp)
      have hl := hadded.mem_liveLists (l := l) (by simp)
      exact ((hdrifts.then htyped).then hadd).then (putCauseList_drifts hl)

theorem moveCausesBhToBio_drifts (h : s.Sound owned) (bh bSize bio maxSectors : Nat) :
    Drifts s (moveCausesBhToBio s bh bSize bio maxSectors) (s.refused (.moveBhToBio bh bSize bio maxSectors)).1
      (s.refused (.moveBhToBio bh bSize bio maxSectors)).2 := by
  unfold moveCausesBhToBio refused
  cases hl : s.causes (.bh bh) with
  | none =>
    simp only [hl]
    exact .refl s
  | some l =>
    have hsame := ensureCll_causes s bio (maxSectors / 8 : Nat)
    have hcll := ensureCll_sound h bio (maxSectors / 8 : Nat)
    have hsized := (ensureCll_drifts s bio (maxSectors / 8 : Nat)).then (setSize_drifts _ l bSize)
    simp only [hl]
    change Drifts s ((putCauseList (causeListListAdd
      ((s.ensureCll bio (maxSectors / 8 : Nat)).setSize l bSize) bio (some l)) (some l)).setCauses (.bh bh) none) _ _
    have hheld : ((s.ensureCll bio (maxSectors / 8 : Nat)).setSize l bSize).causes (.bh bh) = some l :=
      (congrFun hsame _).trans hl
    have hsound : ((s.ensureCll bio (maxSectors / 8 : Nat)).setSize l bSize).Sound owned := hcll
    generalize (s.ensureCll bio (maxSectors / 8 : Nat)).setSize l bSize = t at hsized hheld hsound
    have hadded := causeListListAdd_sound (p := some l) hsound bio (by
      rintro l' ⟨⟩
      exact Multiset.mem_add.mpr (.inr (mem_refs_of_causes hheld)))
    have hgive := giveUp_drifts hadded (.bh bh)
    rw [causeListListAdd_causes, hheld] at hgive
    have hall := (hsized.trans (causeListListAdd_drifts hsound bio (some l))).then hgive
    rwa [Nat.zero_add] at hall

/-! ## Runs -/

/-- A step makes the counters drift by what it is refused. -/
theorem step_drifts {e : Event} (h : s.Sound 0) (hs : step s e = some t) :
    Drifts s t (s.refused e).1 (s.refused e).2 := by
  cases e with
  | new i =>
    simp only [step, Option.ite_none_right_eq_some, Option.some.injEq] at hs
    exact hs.2 ▸ ensureCauses_drifts s i
  | add i task accountId =>
    cases hs
    exact causeListAdd_drifts h i task accountId
  | copy p i =>
    simp only [step, Option.ite_none_right_eq_some, Option.some.injEq] at hs
    exact hs.2 ▸ causeListCopy_drifts h p i
  | get p i =>
    simp only [step, Option.ite_none_right_eq_some, Option.some.injEq] at hs
    obtain ⟨-, rfl⟩ := hs
    have hget : Drifts s (getCauseList s p).2 0 0 := by
      cases p with
      | none => exact .refl s
      | some l => exact drifts_of_same rfl rfl fun _ => rfl
    exact hget.then (setCauses_drifts _ i _)
  | put i =>
    cases hs
    exact giveUp_drifts h i
  | putSafe i =>
    cases hs
    have hsafe : Drifts s (putCauseListSafe s (s.causes i)) 0 0 := by
      unfold putCauseListSafe
      by_cases hm : s.env.kmalloc.1 = true
      · simp only [hm, if_true]
        exact drifts_of_same rfl rfl fun _ => rfl
      · simp only [hm, if_false, Bool.false_eq_true]
        exact drifts_of_same rfl rfl fun _ => rfl
    exact hsafe.then (setCauses_drifts _ i none)
  | work p =>
    simp only [step, Option.ite_none_right_eq_some, Option.some.injEq] at hs
    obtain ⟨hp, rfl⟩ := hs
    have hworks : Drifts s { s with works := s.works.erase p } 0 0 := drifts_of_same rfl rfl fun _ => rfl
    cases p with
    | none => exact hworks
    | some l =>
      have hl : l ∈ s.liveLists := by
        refine h.mem_liveLists (Multiset.mem_add.mpr (.inr (Multiset.mem_add.mpr (.inl ?_))))
        refine Multiset.mem_add.mpr (.inr ?_)
        exact Multiset.mem_coe.mpr (List.reduceOption_mem_iff.mpr hp)
      exact hworks.then (putCauseList_drifts hl)
  | newCll bio itemCapacity =>
    simp only [step, Option.ite_none_right_eq_some, Option.some.injEq] at hs
    exact hs.2 ▸ ensureCll_drifts s bio itemCapacity
  | cllAdd bio p =>
    simp only [step, Option.ite_none_right_eq_some, Option.some.injEq] at hs
    exact hs.2 ▸ causeListListAdd_drifts h bio p
  | delCll bio =>
    cases hs
    exact delCauseListList_drifts h bio
  | zeroToBio bio size maxSectors =>
    cases hs
    exact addCausesZeroToBio_drifts h bio size maxSectors
  | moveBhToBio bh bSize bio maxSectors =>
    cases hs
    exact moveCausesBhToBio_drifts h bh bSize bio maxSectors
  | freeBufferHead bh =>
    cases hs
    exact giveUp_drifts h (.bh bh)

/-- In a run the counters tell the truth in every state if and only if no item is refused, and no list of
cause lists whose `uniq_causes` could be had. -/
theorem leak_counters_iff (m : Mem) (env : Env) (es : List Event) (s : CauseRefs)
    (hrun : run step (init m env) es = some s) :
    Always step CountersTrue (init m env) es ↔
      Meets step (fun s e => s.refused e = (0, 0)) (init m env) es := by
  refine always_iff_meets (I := fun s => s.Sound 0 ∧ s.CountersTrue) ?_ (fun _ h => h.2) ?_ hrun
    ⟨init_sound m env, rfl, rfl⟩
  · rintro s e t hstep hnone ⟨hsound, htrue⟩
    obtain ⟨hitems, hlists⟩ := (countersTrue_iff s).mp htrue
    have hdrifts := step_drifts hsound hstep
    rw [hnone] at hdrifts
    refine ⟨step_sound hsound hstep, (countersTrue_iff t).mpr ⟨?_, ?_⟩⟩
    · rw [hdrifts.items, hitems]
      rfl
    · rw [hdrifts.lists, hlists]
      rfl
  · rintro s e t hstep hsome ⟨hsound, htrue⟩ htrue'
    obtain ⟨hitems, hlists⟩ := (countersTrue_iff s).mp htrue
    obtain ⟨hitems', hlists'⟩ := (countersTrue_iff t).mp htrue'
    have hdrifts := step_drifts hsound hstep
    have h₁ := hdrifts.items
    have h₂ := hdrifts.lists
    exact hsome (Prod.ext (by simp only; omega) (by simp only; omega))

/-- A buffer and a bio that come and go, with memory to spare. -/
def bufferAndBio : List Event :=
  [.add (.bh 0) 1 7, .newCll 5 4, .cllAdd 5 (some 0), .put (.bh 0), .delCll 5]

theorem leak_counters_iff_plenty :
    ∃ s, run step (init sampleMem sampleEnv) bufferAndBio = some s ∧
      Always step CountersTrue (init sampleMem sampleEnv) bufferAndBio := by
  have hsome : (run step (init sampleMem sampleEnv) bufferAndBio).isSome = true := by decide +kernel
  obtain ⟨s, hrun⟩ := Option.isSome_iff_exists.mp hsome
  exact ⟨s, hrun, (leak_counters_iff _ _ _ s hrun).mpr (by decide +kernel)⟩

/-- The allocations of which `refuse` is one fail. -/
def refusing (refuse : Nat → Bool) : Env := { sampleEnv with memory := fun n => !refuse n }

/-- An item is counted that does not exist, and a list that is gone. -/
theorem refusals_miscounted :
    (∃ s, run step (init sampleMem (refusing (· == 1))) [.add (.bh 0) 1 7] = some s ∧
      s.desc = ⟨1, 0, 1, 0⟩ ∧ s.liveLists = {0} ∧ (s.mem.lists 0).items = []) ∧
    ∃ s, run step (init sampleMem (refusing (· == 0))) [.newCll 5 4] = some s ∧
      s.desc = ⟨1, 0, 0, 0⟩ ∧ s.liveLists = ∅ :=
  ⟨⟨_, rfl, by decide +kernel⟩, ⟨_, rfl, by decide +kernel⟩⟩

end CauseRefs
end SplitSched
