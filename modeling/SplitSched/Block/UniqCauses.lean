import SplitSched.Block.Extents

/-!
# SplitSched.Block.UniqCauses

What a list of cause lists stores besides its items: their total size, and the list `uniq_causes` of
all accounts on them. `cause_list_list_add` keeps both up to date and does not merge a list that it was
given just before.

* `causeListCopy_mem`: with memory to spare, a copy makes the target the union of the two.
* `Represents`: what is stored, in terms of the lists that were accepted.
* `uniq_causes_is_union`: it stays so for any sequence of lists.
-/

namespace SplitSched

variable {env : Env} {c : CauseList}

/-! ## Copying accounts -/

theorem causeListAddId_mem (h : env.Plenty) (c : CauseList) (id : Int) :
    (∀ j, j ∈ (causeListAddId env c id).2.1.items ↔ j ∈ c.items ∨ j = id) ∧
    (causeListAddId env c id).2.2.Plenty := by
  unfold causeListAddId
  by_cases hid : id ∈ c.items
  · rw [dif_pos hid]
    refine ⟨fun j => ⟨.inl, ?_⟩, h⟩
    rintro (hj | rfl)
    · exact hj
    · exact hid
  · rw [dif_neg hid]
    simp only [h.kmalloc, if_true]
    refine ⟨fun j => ?_, h⟩
    simp [CauseList.push]

theorem causeListCopyItems_mem (ids : List Int) : ∀ {env : Env} {c : CauseList}, env.Plenty →
    (∀ j, j ∈ (causeListCopyItems env ids c).2.1.items ↔ j ∈ c.items ∨ j ∈ ids) ∧
    (causeListCopyItems env ids c).2.2.Plenty := by
  induction ids with
  | nil =>
    intro env c h
    exact ⟨fun j => by simp [causeListCopyItems], h⟩
  | cons id ids ih =>
    intro env c h
    obtain ⟨hone, henv⟩ := causeListAddId_mem h c id
    obtain ⟨hrest, henv'⟩ := ih (c := (causeListAddId env c id).2.1) henv
    refine ⟨fun j => ?_, henv'⟩
    rw [List.mem_cons, ← or_assoc, ← hone j]
    exact hrest j

theorem causeListCopy_mem (h : env.Plenty) (source target : CauseList) :
    (∀ j, j ∈ (causeListCopy env source target).2.1.items ↔
      j ∈ target.items ∨ j ∈ source.items) ∧
    (causeListCopy env source target).2.2.Plenty :=
  causeListCopyItems_mem source.items h

/-! ## Adding lists -/

/-- `cause_list_list_add` for one list after the other. -/
def causeListListAddAll (r : CauseListList × Mem × Env) (ls : List Nat) :
    CauseListList × Mem × Env :=
  ls.foldl (fun r l => causeListListAdd r.2.2 r.2.1 r.1 l) r

/-- The lists `accepted` of the heap `m` are in the list of cause lists. -/
structure Represents (m : Mem) (uniq capacity : Nat) (accepted : List Nat)
    (r : CauseListList × Mem × Env) : Prop where
  uniqCauses : r.1.uniqCauses = uniq
  itemCapacity : r.1.itemCapacity = capacity
  items : r.1.items = accepted
  room : accepted.length ≤ capacity
  size : r.1.size = (accepted.map fun l => (m.lists l).size).sum
  uniqSize : (r.2.1.lists uniq).size = r.1.size
  ids : ∀ id, id ∈ (r.2.1.lists uniq).items ↔ ∃ l ∈ accepted, id ∈ (m.lists l).items
  others : ∀ l, l ≠ uniq → r.2.1.lists l = m.lists l
  plenty : r.2.2.Plenty

section

variable {m : Mem} {uniq capacity : Nat} {accepted : List Nat} {r : CauseListList × Mem × Env}
  {l : Nat}

theorem newCauseListList_represents (m : Mem) (h : env.Plenty) (uniq capacity : Nat) :
    Represents m uniq capacity []
      ((newCauseListList m uniq capacity).1, (newCauseListList m uniq capacity).2, env) := by
  refine ⟨rfl, rfl, rfl, Nat.zero_le _, rfl, ?_, fun id => ?_, fun l hl => ?_, h⟩
  · simp [newCauseListList, CauseList.new]
  · simp [newCauseListList, CauseList.new]
  · exact Mem.setList_lists_of_ne _ _ hl

/-- An add beyond the capacity changes nothing. -/
theorem Represents.add_full (h : Represents m uniq capacity accepted r)
    (hfull : accepted.length = capacity) (l : Nat) :
    causeListListAdd r.2.2 r.2.1 r.1 l = r := by
  unfold causeListListAdd
  rw [if_pos (by rw [h.items, h.itemCapacity, hfull])]

theorem Represents.add (h : Represents m uniq capacity accepted r)
    (hroom : accepted.length ≠ capacity) (hl : l ≠ uniq) :
    Represents m uniq capacity (accepted ++ [l]) (causeListListAdd r.2.2 r.2.1 r.1 l) := by
  have hlist : r.2.1.lists l = m.lists l := h.others l hl
  have hle := h.room
  unfold causeListListAdd
  rw [if_neg (by rw [h.items, h.itemCapacity]; exact hroom)]
  -- the accounts of the list are merged now, or they were when it was added before
  have hmerge : (∀ id, id ∈ (if r.1.items.getLast? ≠ some l then
        (causeListCopy r.2.2 (r.2.1.lists l) (r.2.1.lists r.1.uniqCauses)).2
      else (r.2.1.lists r.1.uniqCauses, r.2.2)).1.items ↔
        ∃ l' ∈ accepted ++ [l], id ∈ (m.lists l').items) ∧
      (if r.1.items.getLast? ≠ some l then
        (causeListCopy r.2.2 (r.2.1.lists l) (r.2.1.lists r.1.uniqCauses)).2
      else (r.2.1.lists r.1.uniqCauses, r.2.2)).2.Plenty := by
    have hunion : ∀ id, (∃ l' ∈ accepted ++ [l], id ∈ (m.lists l').items) ↔
        id ∈ (r.2.1.lists uniq).items ∨ id ∈ (m.lists l).items := by
      intro id
      rw [h.ids id]
      simp [or_and_right, exists_or]
    rw [h.uniqCauses, h.items]
    by_cases hlast : accepted.getLast? = some l
    · rw [if_neg (not_not_intro hlast)]
      refine ⟨fun id => ?_, h.plenty⟩
      rw [hunion]
      refine ⟨.inl, ?_⟩
      rintro (hid | hid)
      · exact hid
      · exact (h.ids id).mpr ⟨l, List.mem_of_getLast? hlast, hid⟩
    · rw [if_pos hlast]
      obtain ⟨hcopy, henv⟩ := causeListCopy_mem h.plenty (r.2.1.lists l) (r.2.1.lists uniq)
      refine ⟨fun id => ?_, henv⟩
      rw [hunion, hcopy, hlist]
  refine ⟨h.uniqCauses, h.itemCapacity, ?_, ?_, ?_, ?_, fun id => ?_, fun l' hl' => ?_, hmerge.2⟩
  · simp only [h.items]
  · rw [List.length_append, List.length_singleton]
    omega
  · simp only [hlist, h.size, List.map_append, List.sum_append, List.map_singleton,
      List.sum_singleton]
  · simp only [h.uniqCauses, Mem.setList_lists_self]
  · rw [← hmerge.1 id]
    simp only [h.uniqCauses, Mem.setList_lists_self]
  · rw [h.uniqCauses, Mem.setList_lists_of_ne _ _ hl']
    exact h.others l' hl'

theorem Represents.addAll (ls : List Nat) : ∀ {accepted : List Nat}
    {r : CauseListList × Mem × Env}, Represents m uniq capacity accepted r → uniq ∉ ls →
    Represents m uniq capacity ((accepted ++ ls).take capacity) (causeListListAddAll r ls) := by
  induction ls with
  | nil =>
    intro accepted r h _
    rw [List.append_nil, List.take_of_length_le h.room]
    exact h
  | cons l ls ih =>
    intro accepted r h hls
    obtain ⟨hl, hls⟩ := not_or.mp (mt List.mem_cons.mpr hls)
    have hle := h.room
    by_cases hfull : accepted.length = capacity
    · have hstep := ih h hls
      rw [List.take_append_of_le_length (by omega)] at hstep ⊢
      unfold causeListListAddAll at hstep ⊢
      rw [List.foldl_cons, h.add_full hfull]
      exact hstep
    · have hstep := ih (h.add hfull (Ne.symm hl)) hls
      rw [List.append_assoc, List.singleton_append] at hstep
      exact hstep

end

/-- Any sequence of lists is added to a fresh list of cause lists. It takes as many as it has room for,
in order; the sizes are the sum of theirs, and `uniq_causes` is the union of their accounts. -/
theorem uniq_causes_is_union (env : Env) (m : Mem) (uniq capacity : Nat) (ls : List Nat)
    (cll : CauseListList) (m' : Mem) (env' : Env) (hmem : env.Plenty) (huniq : uniq ∉ ls)
    (h : causeListListAddAll ((newCauseListList m uniq capacity).1,
      (newCauseListList m uniq capacity).2, env) ls = (cll, m', env')) :
    cll.items.length ≤ cll.itemCapacity ∧ cll.itemCapacity = capacity ∧
    cll.items = ls.take capacity ∧
    cll.size = (cll.items.map fun l => (m.lists l).size).sum ∧
    (m'.lists cll.uniqCauses).size = cll.size ∧
    (m'.lists cll.uniqCauses).items.Nodup ∧
    (∀ id, id ∈ (m'.lists cll.uniqCauses).items ↔ ∃ l ∈ cll.items, id ∈ (m.lists l).items) ∧
    (∀ l, cll.items.length = cll.itemCapacity →
      causeListListAdd env' m' cll l = (cll, m', env')) := by
  have hr := (newCauseListList_represents m hmem uniq capacity).addAll ls huniq
  rw [h, List.nil_append] at hr
  have huc : cll.uniqCauses = uniq := hr.uniqCauses
  have hit : cll.items = ls.take capacity := hr.items
  have hcap : cll.itemCapacity = capacity := hr.itemCapacity
  rw [huc, hit, hcap]
  refine ⟨hr.room, rfl, rfl, hr.size, hr.uniqSize, (m'.lists uniq).nodup, hr.ids, fun l hl => ?_⟩
  exact hr.add_full hl l

/-- A page that was written twice in a row, another one, and a third that finds no room. -/
theorem uniq_causes_is_union_three_pages :
    ∃ cll m' env', causeListListAddAll ((newCauseListList pagesOfSeven 9 3).1,
        (newCauseListList pagesOfSeven 9 3).2, sampleEnv) [0, 0, 1, 2] = (cll, m', env') ∧
      cll.items.length ≤ cll.itemCapacity ∧ cll.itemCapacity = 3 ∧
      cll.items = [0, 0, 1, 2].take 3 ∧
      cll.size = (cll.items.map fun l => (pagesOfSeven.lists l).size).sum ∧
      (m'.lists cll.uniqCauses).size = cll.size ∧
      (m'.lists cll.uniqCauses).items.Nodup ∧
      (∀ id, id ∈ (m'.lists cll.uniqCauses).items ↔
        ∃ l ∈ cll.items, id ∈ (pagesOfSeven.lists l).items) ∧
      (∀ l, cll.items.length = cll.itemCapacity →
        causeListListAdd env' m' cll l = (cll, m', env')) :=
  ⟨_, _, _, rfl, uniq_causes_is_union sampleEnv pagesOfSeven 9 3 [0, 0, 1, 2] _ _ _ (fun _ => rfl)
    (by decide) rfl⟩

end SplitSched
