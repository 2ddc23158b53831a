import SplitSched.Block.BioTags

/-!
# SplitSched.Block.CauseFrame

Groups of pointers that share cause lists among themselves, and with nobody else (cause_tags.c and buffer.c of the
4.5 patch set). The journal has such groups: a transaction, and the commit that is under way for it.

* `Foreign F s l`: no pointer of the group `F` leads to `l`.
* `Fenced F s`: a list of the group is no list of another pointer, and no `uniq_causes`.
* `Away F s s'`: the pointers of the group are as they were and lead to the same accounts, and the group is still
  fenced. `step_away` says it of every operation through other pointers.
* `Writes s s' i new`: accounts among `new` were added to the list of `i`, which others may share.

Allocations may fail.
-/

namespace SplitSched
namespace CauseRefs

variable {F : Set Slot} {s s' s'' : CauseRefs} {i j : Slot} {l : Nat} {p : Option Nat} {new new' : List Int}

/-! ## Groups of pointers -/

def Foreign (F : Set Slot) (s : CauseRefs) (l : Nat) : Prop := ∀ i ∈ F, s.causes i ≠ some l

structure Fenced (F : Set Slot) (s : CauseRefs) : Prop where
  fresh : ∀ l, s.refcount.next ≤ l → Foreign F s l
  slots : ∀ j ∉ F, ∀ l, s.causes j = some l → Foreign F s l
  uniq : ∀ bio cll, s.clls.lookup bio = some cll → Foreign F s cll.uniqCauses

structure Away (F : Set Slot) (s s' : CauseRefs) : Prop where
  fenced : Fenced F s'
  causes : ∀ i ∈ F, s'.causes i = s.causes i
  ids : ∀ i ∈ F, s'.ids i = s.ids i
  plenty : s.env.Plenty → s'.env.Plenty

theorem init_fenced (F : Set Slot) (m : Mem) (env : Env) : Fenced F (init m env) := by
  refine ⟨?_, ?_, ?_⟩
  · intro l _ i _ hi
    cases hi
  · intro j _ l hj
    cases hj
  · intro bio cll hb
    cases hb

namespace Fenced

theorem refl (h : Fenced F s) : Away F s s := ⟨h, fun _ _ => rfl, fun _ _ => rfl, id⟩

theorem lt_next (h : Fenced F s) (hl : ¬Foreign F s l) : l < s.refcount.next := by
  by_contra hge
  exact hl (h.fresh l (not_lt.mp hge))

/-- The group keeps its pointers and the items of its lists, and nothing else comes to point there. -/
theorem away (h : Fenced F s) (hnext : s.refcount.next ≤ s'.refcount.next)
    (hcauses : ∀ i ∈ F, s'.causes i = s.causes i)
    (hslots : ∀ j ∉ F, ∀ l, s'.causes j = some l → Foreign F s l)
    (huniq : ∀ bio cll, s'.clls.lookup bio = some cll → Foreign F s cll.uniqCauses)
    (hitems : ∀ l, ¬Foreign F s l → (s'.mem.lists l).items = (s.mem.lists l).items)
    (hplenty : s.env.Plenty → s'.env.Plenty) : Away F s s' := by
  have hforeign : ∀ l, Foreign F s l → Foreign F s' l := by
    intro l hl i hi
    rw [hcauses i hi]
    exact hl i hi
  refine ⟨⟨?_, ?_, ?_⟩, hcauses, ?_, hplenty⟩
  · intro l hl
    exact hforeign l (h.fresh l (hnext.trans hl))
  · intro j hj l hjl
    exact hforeign l (hslots j hj l hjl)
  · intro bio cll hb
    exact hforeign _ (huniq bio cll hb)
  · intro i hi
    unfold CauseRefs.ids
    rw [hcauses i hi]
    unfold itemsOf
    cases hl : s.causes i with
    | none => rfl
    | some l => exact hitems l fun hf => hf i hi hl

/-- No pointer changes. -/
theorem away_of_causes (h : Fenced F s) (hnext : s.refcount.next ≤ s'.refcount.next)
    (hcauses : s'.causes = s.causes) (hclls : s'.clls = s.clls)
    (hitems : ∀ l, ¬Foreign F s l → (s'.mem.lists l).items = (s.mem.lists l).items)
    (hplenty : s.env.Plenty → s'.env.Plenty) : Away F s s' :=
  h.away hnext (fun i _ => congrFun hcauses i) (hcauses ▸ h.slots) (hclls ▸ h.uniq) hitems hplenty

/-- The pointers of the group change among its lists. -/
theorem within (h : Fenced F s) (hnext : s'.refcount.next = s.refcount.next) (hclls : s'.clls = s.clls)
    (hin : ∀ i ∈ F, ∀ l, s'.causes i = some l → ¬Foreign F s l) (hout : ∀ j ∉ F, s'.causes j = s.causes j) :
    Fenced F s' := by
  have hforeign : ∀ l, Foreign F s l → Foreign F s' l := by
    intro l hl i hi hil
    exact hin i hi l hil hl
  refine ⟨?_, ?_, ?_⟩
  · intro l hl
    exact hforeign l (h.fresh l (hnext ▸ hl))
  · intro j hj l hjl
    rw [hout j hj] at hjl
    exact hforeign l (h.slots j hj l hjl)
  · rw [hclls]
    intro bio cll hb
    exact hforeign _ (h.uniq bio cll hb)

end Fenced

theorem Away.trans (h : Away F s s') (h' : Away F s' s'') : Away F s s'' :=
  ⟨h'.fenced, fun i hi => (h'.causes i hi).trans (h.causes i hi), fun i hi => (h'.ids i hi).trans (h.ids i hi),
    fun henv => h'.plenty (h.plenty henv)⟩

/-! ## Adding accounts to a list that may be shared -/

structure Writes (s s' : CauseRefs) (i : Slot) (new : List Int) : Prop where
  next_le : s.refcount.next ≤ s'.refcount.next
  clls : s'.clls = s.clls
  others : ∀ j, j ≠ i → s'.causes j = s.causes j
  /-- The pointer stays, or it was `NULL` and is set to a new list. -/
  pointer : s'.causes i = s.causes i ∨
    s.causes i = none ∧ ∃ l, s'.causes i = some l ∧ s.refcount.next ≤ l ∧ l < s'.refcount.next
  lists : ∀ k < s.refcount.next, s.causes i ≠ some k → s'.mem.lists k = s.mem.lists k
  kept : ∀ id ∈ s.ids i, id ∈ s'.ids i
  only : ∀ id ∈ s'.ids i, id ∈ s.ids i ∨ id ∈ new
  all : s.env.Plenty → s'.env.Plenty ∧ s'.causes i ≠ none ∧ ∀ id ∈ new, id ∈ s'.ids i

namespace Writes

theorem trans (h : Writes s s' i new) (h' : Writes s' s'' i new') : Writes s s'' i (new ++ new') := by
  refine ⟨h.next_le.trans h'.next_le, h'.clls.trans h.clls, ?_, ?_, ?_, ?_, ?_, ?_⟩
  · intro j hj
    exact (h'.others j hj).trans (h.others j hj)
  · rcases h.pointer with hsame | ⟨hnone, l, hnew, hle, hlt⟩
    · rcases h'.pointer with hsame' | ⟨hnone', l, hnew, hle, hlt⟩
      · exact .inl (hsame'.trans hsame)
      · exact .inr ⟨hsame ▸ hnone', l, hnew, h.next_le.trans hle, hlt⟩
    · rcases h'.pointer with hsame' | ⟨hnone', -⟩
      · exact .inr ⟨hnone, l, hsame'.trans hnew, hle, hlt.trans_le h'.next_le⟩
      · rw [hnew] at hnone'
        cases hnone'
  · intro k hk hik
    rw [h'.lists k (hk.trans_le h.next_le) ?_, h.lists k hk hik]
    rcases h.pointer with hsame | ⟨-, l, hnew, hle, -⟩
    · rwa [hsame]
    · rw [hnew]
      intro he
      cases he
      exact absurd hk (not_lt.mpr hle)
  · intro id hid
    exact h'.kept id (h.kept id hid)
  · intro id hid
    rw [List.mem_append, ← or_assoc]
    rcases h'.only id hid with hid | hid
    · exact .inl (h.only id hid)
    · exact .inr hid
  · intro henv
    obtain ⟨henv', -, hall⟩ := h.all henv
    obtain ⟨henv'', hsome, hall'⟩ := h'.all henv'
    refine ⟨henv'', hsome, ?_⟩
    intro id hid
    rcases List.mem_append.mp hid with hid | hid
    · exact h'.kept id (hall id hid)
    · exact hall' id hid

/-- Without memory for a list, nothing is added to it. -/
theorem of_null (h : Writes s s' i []) (hi : s'.causes i = none) (new : List Int) : Writes s s' i new := by
  refine ⟨h.next_le, h.clls, h.others, h.pointer, h.lists, h.kept, ?_, ?_⟩
  · intro id hid
    rw [ids, hi] at hid
    cases hid
  · intro henv
    exact absurd hi (h.all henv).2.1

theorem of_setList (hl : s.causes i = some l) (c : CauseList) (env : Env) (d : CauseListMemDesc)
    (hkept : ∀ id ∈ (s.mem.lists l).items, id ∈ c.items)
    (honly : ∀ id ∈ c.items, id ∈ (s.mem.lists l).items ∨ id ∈ new)
    (hall : s.env.Plenty → env.Plenty ∧ ∀ id ∈ new, id ∈ c.items) :
    Writes s { s with mem := s.mem.setList l c, env := env, desc := d } i new := by
  have hself : ids { s with mem := s.mem.setList l c, env := env, desc := d } i = c.items := by
    change itemsOf _ (s.causes i) = _
    rw [hl]
    simp [itemsOf]
  have hold : s.ids i = (s.mem.lists l).items := by
    rw [ids, hl]
    rfl
  refine ⟨le_rfl, rfl, fun j _ => rfl, .inl rfl, ?_, ?_, ?_, ?_⟩
  · intro k _ hik
    refine Mem.setList_lists_of_ne _ _ ?_
    rintro rfl
    exact hik hl
  · rw [hself, hold]
    exact hkept
  · rw [hself, hold]
    exact honly
  · intro henv
    obtain ⟨henv', hnew⟩ := hall henv
    refine ⟨henv', ?_, hself ▸ hnew⟩
    change s.causes i ≠ none
    rw [hl]
    exact Option.some_ne_none l

/-- A pointer to the same list sees the same accounts. -/
theorem only_through (h : Writes s s' i new) (hj : j ≠ i) (hlt : ∀ l, s.causes j = some l → l < s.refcount.next) :
    ∀ id ∈ s'.ids j, id ∈ s.ids j ∨ id ∈ new := by
  intro id hid
  rw [ids, h.others j hj] at hid
  cases hk : s.causes j with
  | none =>
    rw [hk] at hid
    cases hid
  | some k =>
    rw [hk] at hid
    by_cases hik : s.causes i = some k
    · have hsame : s'.causes i = some k := by
        rcases h.pointer with hsame | ⟨hnone, -⟩
        · rw [hsame, hik]
        · rw [hik] at hnone
          cases hnone
      rw [ids, hk, ← hik]
      exact h.only id (by rw [ids, hsame]; exact hid)
    · refine .inl ?_
      rw [ids, hk]
      rw [itemsOf, Option.elim_some, h.lists k (hlt k hk) hik] at hid
      exact hid

/-- What is written through another pointer is away from a group. -/
theorem away (h : Writes s s' i new) (hf : Fenced F s) (hi : i ∉ F) : Away F s s' := by
  refine hf.away h.next_le ?_ ?_ ?_ ?_ fun henv => (h.all henv).1
  · intro j hj
    refine h.others j ?_
    rintro rfl
    exact hi hj
  · intro j hj l hl
    by_cases hji : j = i
    · subst hji
      rcases h.pointer with hsame | ⟨-, k, hnew, hle, -⟩
      · exact hf.slots j hj l (hsame ▸ hl)
      · rw [hnew] at hl
        cases hl
        exact hf.fresh l hle
    · rw [h.others j hji] at hl
      exact hf.slots j hj l hl
  · rw [h.clls]
    exact hf.uniq
  · intro l hl
    rw [h.lists l (hf.lt_next hl)]
    intro hil
    exact hl (hf.slots i hi l hil)

end Writes

theorem Sound.mem_lt (h : s.Sound 0) (hl : l ∈ s.refs) : l < s.refcount.next := by
  unfold Sound at h
  rw [zero_add] at h
  exact h.lt_next hl

theorem Sound.causes_lt (h : s.Sound 0) (hi : s.causes i = some l) : l < s.refcount.next :=
  h.mem_lt (mem_refs_of_causes hi)

theorem Sound.uniq_lt (h : s.Sound 0) {bio : Nat} {cll : CauseListList} (hb : s.clls.lookup bio = some cll) :
    cll.uniqCauses < s.refcount.next := by
  refine h.mem_lt ?_
  unfold refs holders
  rw [contents_erase s.clls bio, hb]
  simp [cllPointers]

/-- What is written through a pointer of a group leaves the group fenced. -/
theorem Writes.fenced (h : Writes s s' i new) (hs : s.Sound 0) (hf : Fenced F s) (hi : i ∈ F) : Fenced F s' := by
  -- a list that was there before is a list of the group only if it was one
  have hforeign : ∀ l < s.refcount.next, Foreign F s l → Foreign F s' l := by
    intro l hlt hl j hj hjl
    by_cases hji : j = i
    · subst hji
      rcases h.pointer with hsame | ⟨-, k, hnew, hle, -⟩
      · exact hl j hj (hsame ▸ hjl)
      · rw [hnew] at hjl
        cases hjl
        exact absurd hlt (not_lt.mpr hle)
    · rw [h.others j hji] at hjl
      exact hl j hj hjl
  refine ⟨?_, ?_, ?_⟩
  · intro l hle j hj hjl
    by_cases hji : j = i
    · subst hji
      rcases h.pointer with hsame | ⟨-, k, hnew, -, hlt⟩
      · exact hf.fresh l (h.next_le.trans hle) j hj (hsame ▸ hjl)
      · rw [hnew] at hjl
        cases hjl
        exact absurd hlt (not_lt.mpr hle)
    · rw [h.others j hji] at hjl
      exact hf.fresh l (h.next_le.trans hle) j hj hjl
  · intro j hj l hjl
    rw [h.others j fun hji => hj (hji ▸ hi)] at hjl
    exact hforeign l (hs.causes_lt hjl) (hf.slots j hj l hjl)
  · intro bio cll hb
    rw [h.clls] at hb
    exact hforeign _ (hs.uniq_lt hb) (hf.uniq bio cll hb)

theorem ensureCauses_writes (s : CauseRefs) (i : Slot) : Writes s (s.ensureCauses i) i [] := by
  unfold ensureCauses
  cases hi : s.causes i with
  | some l =>
    refine ⟨le_rfl, rfl, fun _ _ => rfl, .inl rfl, fun _ _ _ => rfl, fun _ hid => hid, fun _ hid => .inl hid, ?_⟩
    intro henv
    exact ⟨henv, by simp [hi], fun _ hid => (by cases hid)⟩
  | none =>
    have hold : s.ids i = [] := by
      rw [ids, hi]
      rfl
    rcases newCauseList_cases s with ⟨env, hnew, hshort⟩ | ⟨env, d, hnew, henv⟩
    · simp only [hnew]
      have hc := causes_setCauses { s with env := env } i none
      have hsame : ({ s with env := env }.setCauses i none).causes = s.causes := by
        rw [hc]
        exact (congrArg (Function.update s.causes i) hi.symm).trans (Function.update_eq_self i _)
      have hids : ({ s with env := env }.setCauses i none).ids i = [] := by
        rw [ids, hsame, hi]
        rfl
      refine ⟨le_rfl, rfl, fun j _ => congrFun hsame j, .inl (congrFun hsame i), fun _ _ _ => rfl, ?_, ?_, ?_⟩
      · rw [hold, hids]
        exact fun _ hid => hid
      · rw [hids]
        exact fun _ hid => (by cases hid)
      · exact fun hm => absurd hm hshort
    · simp only [hnew]
      generalize ht : ({ s with
        env := env, refcount := s.refcount.alloc, mem := s.mem.setList s.refcount.next .new,
        desc := d } : CauseRefs) = t
      have hc := causes_setCauses t i (some s.refcount.next)
      have htc : t.causes = s.causes := by rw [← ht]; rfl
      rw [htc] at hc
      have hself : (t.setCauses i (some s.refcount.next)).causes i = some s.refcount.next := by
        rw [hc, Function.update_self]
      have hids : (t.setCauses i (some s.refcount.next)).ids i = [] := by
        rw [ids, hself, ← ht]
        simp [itemsOf, setCauses, CauseList.new]
      refine ⟨?_, ?_, ?_, .inr ⟨hi, _, hself, le_rfl, ?_⟩, ?_, ?_, ?_, ?_⟩
      · rw [← ht]
        exact Nat.le_succ _
      · rw [← ht]
        rfl
      · intro j hj
        rw [hc, Function.update_of_ne hj]
      · rw [← ht]
        exact Nat.lt_succ_self _
      · intro k hk _
        rw [← ht]
        exact Mem.setList_lists_of_ne _ _ hk.ne
      · rw [hold]
        exact fun _ hid => (by cases hid)
      · rw [hids]
        exact fun _ hid => (by cases hid)
      · intro hm
        refine ⟨?_, by simp [hself], fun _ hid => (by cases hid)⟩
        rw [← ht]
        exact henv hm

theorem causeListAddId_writes (hl : s.causes i = some l) (id : Int) :
    Writes s (causeListAddId s (some l) id).2 i [id] := by
  obtain ⟨hkept, honly⟩ := causeListAddId_bounds s.env (s.mem.lists l) id
  refine Writes.of_setList hl _ _ _ hkept ?_ ?_
  · intro j hj
    rw [List.mem_singleton]
    exact honly j hj
  · intro henv
    obtain ⟨hmem, henv'⟩ := causeListAddId_mem henv (s.mem.lists l) id
    exact ⟨henv', fun j hj => (hmem j).mpr (.inr (List.mem_singleton.mp hj))⟩

theorem causeListCopy_writes (hp : ∀ l ∈ p, l < s.refcount.next) (i : Slot) :
    Writes s (causeListCopy s p i).2 i (s.itemsOf p) := by
  have hensure := ensureCauses_writes s i
  unfold causeListCopy
  cases p with
  | none => exact hensure
  | some source =>
    have hsource : (s.ensureCauses i).mem.lists source = s.mem.lists source :=
      (ensureCauses_cases s i).2.2.1 source (hp source rfl).ne
    cases ht : (s.ensureCauses i).causes i with
    | none =>
      simp only [ht]
      exact hensure.of_null ht _
    | some target =>
      simp only [ht, hsource]
      obtain ⟨hkept, honly⟩ := causeListCopyItems_bounds (s.mem.lists source).items
        (s.ensureCauses i).env ((s.ensureCauses i).mem.lists target)
      refine hensure.trans (Writes.of_setList ht _ _ _ hkept honly ?_)
      intro henv
      obtain ⟨hmem, henv'⟩ := causeListCopy_mem henv (s.mem.lists source)
        ((s.ensureCauses i).mem.lists target)
      exact ⟨henv', fun j hj => (hmem j).mpr (.inr hj)⟩

theorem causeListAdd_writes (hs : s.Sound 0) {task : Nat} (hne : i ≠ .task task) (accountId : Int) :
    Writes s (causeListAdd s i task accountId).2 i (s.standsFor task accountId) := by
  have hensure := ensureCauses_writes s i
  have htask := hensure.others (.task task) hne.symm
  unfold causeListAdd standsFor
  rw [← htask]
  cases ht : (s.ensureCauses i).causes (.task task) with
  | some p =>
    simp only [ht]
    have hlt : p < s.refcount.next := hs.causes_lt (htask.symm.trans ht)
    have hitems : (s.mem.lists p).items = (s.ensureCauses i).itemsOf (some p) := by
      rw [itemsOf, Option.elim_some, (ensureCauses_cases s i).2.2.1 p hlt.ne]
    rw [hitems]
    refine hensure.trans (causeListCopy_writes ?_ i)
    rintro _ ⟨⟩
    exact hlt.trans_le hensure.next_le
  | none =>
    simp only [ht]
    cases hl : (s.ensureCauses i).causes i with
    | none => exact hensure.of_null hl _
    | some l => exact hensure.trans (causeListAddId_writes hl accountId)

/-! ## Operations that are away from a group -/

theorem setList_away (h : Fenced F s) {c : CauseList}
    (hl : Foreign F s l ∨ c.items = (s.mem.lists l).items) : Away F s { s with mem := s.mem.setList l c } := by
  refine h.away_of_causes le_rfl rfl rfl ?_ id
  intro k hk
  by_cases hkl : k = l
  · subst hkl
    rw [Mem.setList_lists_self]
    exact hl.resolve_left hk
  · rw [Mem.setList_lists_of_ne _ _ hkl]

theorem setCauses_away (h : Fenced F s) (hi : i ∉ F) (hp : ∀ l ∈ p, Foreign F s l) : Away F s (s.setCauses i p) := by
  have hc := causes_setCauses s i p
  have hsame : ∀ t : CauseRefs, t = s.setCauses i p → t.refcount = s.refcount ∧ t.clls = s.clls ∧ t.mem = s.mem ∧
      t.env = s.env := by
    rintro t rfl
    cases p <;> exact ⟨rfl, rfl, rfl, rfl⟩
  obtain ⟨hcount, hclls, hmem, henv⟩ := hsame _ rfl
  refine h.away (by rw [hcount]) ?_ ?_ ?_ ?_ ?_
  · intro j hj
    rw [hc, Function.update_of_ne]
    rintro rfl
    exact hi hj
  · intro j hj l hl
    rw [hc] at hl
    by_cases hji : j = i
    · subst hji
      rw [Function.update_self] at hl
      exact hp l hl
    · rw [Function.update_of_ne hji] at hl
      exact h.slots j hj l hl
  · rw [hclls]
    exact h.uniq
  · intro l _
    rw [hmem]
  · rw [henv]
    exact id

theorem putCauseList_away (h : Fenced F s) (p : Option Nat) : Away F s (putCauseList s p) := by
  obtain ⟨c, d, hput, hnext⟩ := putCauseList_frame s p
  rw [hput]
  exact h.away_of_causes hnext.ge rfl rfl (fun _ _ => rfl) id

theorem giveUp_away (h : Fenced F s) (hi : i ∉ F) (p : Option Nat) :
    Away F s ((putCauseList s p).setCauses i none) := by
  have hput := putCauseList_away h p
  refine hput.trans (setCauses_away hput.fenced hi ?_)
  intro l hl
  cases hl

theorem giveUp_frame (s : CauseRefs) (i : Slot) :
    (s.giveUp i).causes = Function.update s.causes i none ∧ (s.giveUp i).mem = s.mem ∧
    (s.giveUp i).clls = s.clls ∧ (s.giveUp i).env = s.env ∧
    (s.giveUp i).refcount.next = s.refcount.next := by
  obtain ⟨c, d, hput, hnext⟩ := putCauseList_frame s (s.causes i)
  have hc := causes_setCauses (putCauseList s (s.causes i)) i none
  unfold giveUp
  rw [hput] at hc ⊢
  exact ⟨hc, rfl, rfl, rfl, hnext⟩

/-- A pointer of the group is given up. -/
theorem giveUp_fenced (h : Fenced F s) (hi : i ∈ F) : Fenced F (s.giveUp i) := by
  obtain ⟨hc, -, hclls, -, hnext⟩ := giveUp_frame s i
  refine h.within hnext hclls ?_ ?_
  · intro j hj l hl hf
    rw [hc] at hl
    by_cases hji : j = i
    · rw [hji, Function.update_self] at hl
      cases hl
    · rw [Function.update_of_ne hji] at hl
      exact hf j hj hl
  · intro j hj
    rw [hc, Function.update_of_ne]
    rintro rfl
    exact hj hi

theorem putCauseListSafe_away (h : Fenced F s) (p : Option Nat) : Away F s (putCauseListSafe s p) := by
  unfold putCauseListSafe
  dsimp only
  split
  · exact h.away_of_causes le_rfl rfl rfl (fun _ _ => rfl) id
  · exact h.away_of_causes le_rfl rfl rfl (fun _ _ => rfl) id

theorem foldl_putCauseList_away (ls : List Nat) : ∀ {s : CauseRefs}, Fenced F s →
    Away F s (ls.foldl (fun s l => putCauseList s (some l)) s) := by
  induction ls with
  | nil =>
    intro s h
    exact h.refl
  | cons l ls ih =>
    intro s h
    have hput := putCauseList_away h (some l)
    exact hput.trans (ih hput.fenced)

theorem newCauseList_away (h : Fenced F s) : Away F s (newCauseList s).2 := by
  rcases newCauseList_cases s with ⟨env, hnew, hshort⟩ | ⟨env, d, hnew, henv⟩
  · rw [hnew]
    exact h.away_of_causes le_rfl rfl rfl (fun _ _ => rfl) fun hm => absurd hm hshort
  · rw [hnew]
    refine h.away_of_causes (Nat.le_succ _) rfl rfl ?_ henv
    intro l hl
    exact congrArg _ (Mem.setList_lists_of_ne _ _ (h.lt_next hl).ne)

theorem ensureCll_away (h : Fenced F s) (bio : Nat) (itemCapacity : Int) :
    Away F s (s.ensureCll bio itemCapacity) := by
  unfold ensureCll
  cases hlook : s.clls.lookup bio with
  | some cll => exact h.refl
  | none =>
    rcases newCauseListList_cases s itemCapacity with
      ⟨env, m, d, c, hnew, hc, hlists, henv⟩ | ⟨env, d, hnew, henv⟩
    · simp only [hnew]
      refine h.away_of_causes ?_ rfl rfl ?_ henv
      · rcases hc with rfl | rfl
        · exact le_rfl
        · exact Nat.le_succ _
      · intro l hl
        exact congrArg _ (hlists l (h.lt_next hl).ne)
    · simp only [hnew]
      refine h.away (Nat.le_succ _) (fun _ _ => rfl) h.slots ?_ ?_ henv
      · intro bio' cll hb
        by_cases hbio : bio' = bio
        · subst hbio
          rw [AList.lookup_insert] at hb
          cases hb
          exact h.fresh _ le_rfl
        · rw [AList.lookup_insert_ne hbio] at hb
          exact h.uniq bio' cll hb
      · intro l hl
        exact congrArg _ (Mem.setList_lists_of_ne _ _ (h.lt_next hl).ne)

/-- Only the summary list of the bio changes. -/
theorem causeListListAdd_uniq (s : CauseRefs) (bio : Nat) (p : Option Nat) {b : Nat} {cll : CauseListList}
    (hb : (causeListListAdd s bio p).clls.lookup b = some cll) :
    ∃ cll', s.clls.lookup b = some cll' ∧ cll.uniqCauses = cll'.uniqCauses := by
  unfold causeListListAdd at hb
  cases hlook : s.clls.lookup bio with
  | none =>
    simp only [hlook] at hb
    exact ⟨cll, hb, rfl⟩
  | some c =>
    cases p with
    | none =>
      simp only [hlook] at hb
      exact ⟨cll, hb, rfl⟩
    | some l =>
      simp only [hlook] at hb
      by_cases hfull : c.items.length = c.itemCapacity
      · simp only [hfull, if_true] at hb
        exact ⟨cll, hb, rfl⟩
      · simp only [hfull, if_false] at hb
        by_cases hbio : b = bio
        · subst hbio
          have hins := Option.some.inj ((AList.lookup_insert _).symm.trans hb)
          refine ⟨c, hlook, ?_⟩
          rw [← hins]
          unfold SplitSched.causeListListAdd
          rw [if_neg hfull]
        · exact ⟨cll, (AList.lookup_insert_ne hbio).symm.trans hb, rfl⟩

theorem causeListListAdd_next (s : CauseRefs) (bio : Nat) (p : Option Nat) :
    (causeListListAdd s bio p).refcount.next = s.refcount.next := by
  unfold causeListListAdd
  split
  · split <;> rfl
  · rfl

theorem causeListListAdd_away (h : Fenced F s) (bio : Nat) (p : Option Nat) :
    Away F s (causeListListAdd s bio p) := by
  have hcauses := causeListListAdd_causes s bio p
  refine h.away (causeListListAdd_next s bio p).ge (fun i _ => congrFun hcauses i) (hcauses ▸ h.slots) ?_ ?_
    fun henv => causeListListAdd_plenty henv bio p
  · intro b cll hb
    obtain ⟨cll', hb', huniq⟩ := causeListListAdd_uniq s bio p hb
    rw [huniq]
    exact h.uniq b cll' hb'
  · intro l hl
    rw [causeListListAdd_lists]
    rintro cll hb rfl
    exact hl (h.uniq bio cll hb)

/-- The part of `move_causes_bh_to_bio` before it sets the pointer of the buffer to `NULL`. -/
def handOver (s : CauseRefs) (l bSize bio maxSectors : Nat) : CauseRefs :=
  let s := s.ensureCll bio (maxSectors / 8 : Nat)
  let s := { s with mem := s.mem.setList l { s.mem.lists l with size := bSize } }
  putCauseList (causeListListAdd s bio (some l)) (some l)

theorem moveCausesBhToBio_of_some {bh : Nat} (hl : s.causes (.bh bh) = some l) (bSize bio maxSectors : Nat) :
    moveCausesBhToBio s bh bSize bio maxSectors = (handOver s l bSize bio maxSectors).setCauses (.bh bh) none := by
  unfold moveCausesBhToBio
  rw [hl]
  rfl

/-- The size of the list changes, and it may be one of the group. -/
theorem handOver_away (h : Fenced F s) (l bSize bio maxSectors : Nat) :
    Away F s (handOver s l bSize bio maxSectors) := by
  have hcll := ensureCll_away h bio (maxSectors / 8 : Nat)
  unfold handOver
  generalize s.ensureCll bio (maxSectors / 8 : Nat) = t at hcll
  have hsize := setList_away (l := l) (c := { t.mem.lists l with size := bSize }) hcll.fenced (.inr rfl)
  have hadd := causeListListAdd_away hsize.fenced bio (some l)
  exact ((hcll.trans hsize).trans hadd).trans (putCauseList_away hadd.fenced (some l))

theorem moveCausesBhToBio_away {bh : Nat} (h : Fenced F s) (hbh : .bh bh ∉ F) (bSize bio maxSectors : Nat) :
    Away F s (moveCausesBhToBio s bh bSize bio maxSectors) := by
  cases hl : s.causes (.bh bh) with
  | none =>
    unfold moveCausesBhToBio
    rw [hl]
    exact h.refl
  | some l =>
    have hhand := handOver_away h l bSize bio maxSectors
    rw [moveCausesBhToBio_of_some hl]
    exact hhand.trans (setCauses_away hhand.fenced hbh fun k hk => (by cases hk))

theorem addCausesZeroToBio_away (h : Fenced F s) (bio size maxSectors : Nat) :
    Away F s (addCausesZeroToBio s bio size maxSectors) := by
  have hcll := ensureCll_away h bio (maxSectors / 8 : Nat)
  unfold addCausesZeroToBio
  generalize s.ensureCll bio (maxSectors / 8 : Nat) = t at hcll
  cases hb : t.clls.lookup bio with
  | none =>
    simp only [hb]
    exact hcll
  | some cll =>
    simp only [hb]
    have hlist := newCauseList_away hcll.fenced
    cases hnew : (newCauseList t).1 with
    | none =>
      simp only
      exact hcll.trans hlist
    | some l =>
      simp only
      -- the new list is nobody's
      have hl : Foreign F (newCauseList t).2 l := by
        intro i hi
        rw [hlist.causes i hi]
        refine hcll.fenced.fresh l ?_ i hi
        rcases newCauseList_cases t with ⟨env, hcase, -⟩ | ⟨env, d, hcase, -⟩
        · rw [hcase] at hnew
          cases hnew
        · rw [hcase] at hnew
          exact (Option.some.inj hnew).le
      have hset := setList_away (c := { SplitSched.setCauseListType ((newCauseList t).2.mem.lists l) .zero with
        size := size }) hlist.fenced (.inl hl)
      have hadd := causeListListAdd_away hset.fenced bio (some l)
      exact (((hcll.trans hlist).trans hset).trans hadd).trans (putCauseList_away hadd.fenced (some l))

theorem delCauseListList_away (h : Fenced F s) (bio : Nat) : Away F s (delCauseListList s bio) := by
  unfold delCauseListList
  cases hb : s.clls.lookup bio with
  | none => exact h.refl
  | some cll =>
    have hloop := foldl_putCauseList_away cll.items h
    have hput := putCauseList_away hloop.fenced (some cll.uniqCauses)
    simp only
    refine (hloop.trans hput).trans (hput.fenced.away le_rfl (fun _ _ => rfl) hput.fenced.slots ?_ (fun _ _ => rfl) id)
    intro b c hlook
    by_cases hbio : b = bio
    · subst hbio
      rw [AList.lookup_erase] at hlook
      cases hlook
    · rw [AList.lookup_erase_ne hbio] at hlook
      exact hput.fenced.uniq b c hlook

theorem causeListAdd_away (hs : s.Sound 0) (h : Fenced F s) (hi : i ∉ F) (task : Nat) (accountId : Int) :
    Away F s (causeListAdd s i task accountId).2 := by
  have hensure := (ensureCauses_writes s i).away h hi
  have hsound := ensureCauses_sound hs i
  unfold causeListAdd
  cases ht : (s.ensureCauses i).causes (.task task) with
  | some p =>
    simp only [ht]
    refine hensure.trans ((causeListCopy_writes ?_ i).away hensure.fenced hi)
    rintro _ ⟨⟩
    exact hsound.causes_lt ht
  | none =>
    simp only [ht]
    cases hl : (s.ensureCauses i).causes i with
    | none => exact hensure
    | some l => exact hensure.trans ((causeListAddId_writes hl accountId).away hensure.fenced hi)

theorem get_away (h : Fenced F s) (hi : i ∉ F) (hp : ∀ l ∈ p, Foreign F s l) :
    Away F s ((getCauseList s p).2.setCauses i (getCauseList s p).1) := by
  cases p with
  | none => exact setCauses_away h hi hp
  | some l =>
    have hget : Away F s { s with refcount := s.refcount.get l } :=
      h.away_of_causes le_rfl rfl rfl (fun _ _ => rfl) id
    exact hget.trans (setCauses_away hget.fenced hi hp)

/-- The operation is not through a pointer of the group, and makes no pointer to one of its lists. -/
def Event.Spares (F : Set Slot) (s : CauseRefs) : Event → Prop
  | .new i | .add i _ _ | .copy _ i | .put i | .putSafe i => i ∉ F
  | .get p i => i ∉ F ∧ ∀ l ∈ p, Foreign F s l
  | .moveBhToBio bh _ _ _ | .freeBufferHead bh => .bh bh ∉ F
  | .work _ | .newCll _ _ | .cllAdd _ _ | .delCll _ | .zeroToBio _ _ _ => True

theorem step_away {e : Event} (hs : s.Sound 0) (h : Fenced F s) (he : e.Spares F s)
    (hstep : step s e = some s') : Away F s s' := by
  cases e with
  | new i =>
    simp only [step, Option.ite_none_right_eq_some, Option.some.injEq] at hstep
    exact hstep.2 ▸ (ensureCauses_writes s i).away h he
  | add i task accountId =>
    cases hstep
    exact causeListAdd_away hs h he task accountId
  | copy p i =>
    simp only [step, Option.ite_none_right_eq_some, Option.some.injEq] at hstep
    obtain ⟨hp, rfl⟩ := hstep
    refine (causeListCopy_writes ?_ i).away h he
    intro l hl
    exact hs.mem_lt (Multiset.mem_add.mpr (.inl (hp l hl)))
  | get p i =>
    simp only [step, Option.ite_none_right_eq_some, Option.some.injEq] at hstep
    exact hstep.2 ▸ get_away h he.1 he.2
  | put i =>
    cases hstep
    exact giveUp_away h he _
  | putSafe i =>
    cases hstep
    have hput := putCauseListSafe_away h (s.causes i)
    exact hput.trans (setCauses_away hput.fenced he fun l hl => (by cases hl))
  | work p =>
    simp only [step, Option.ite_none_right_eq_some, Option.some.injEq] at hstep
    obtain ⟨-, rfl⟩ := hstep
    have hworks : Away F s { s with works := s.works.erase p } :=
      h.away_of_causes le_rfl rfl rfl (fun _ _ => rfl) id
    exact hworks.trans (putCauseList_away hworks.fenced p)
  | newCll bio itemCapacity =>
    simp only [step, Option.ite_none_right_eq_some, Option.some.injEq] at hstep
    exact hstep.2 ▸ ensureCll_away h bio itemCapacity
  | cllAdd bio p =>
    simp only [step, Option.ite_none_right_eq_some, Option.some.injEq] at hstep
    exact hstep.2 ▸ causeListListAdd_away h bio p
  | delCll bio =>
    cases hstep
    exact delCauseListList_away h bio
  | zeroToBio bio size maxSectors =>
    cases hstep
    exact addCausesZeroToBio_away h bio size maxSectors
  | moveBhToBio bh bSize bio maxSectors =>
    cases hstep
    exact moveCausesBhToBio_away h he bSize bio maxSectors
  | freeBufferHead bh =>
    cases hstep
    exact giveUp_away h he _

/-! ## The accounts of a bio -/

/-- The accounts that the schedulers find at a bio, on its list `uniq_causes`. -/
def charged (s : CauseRefs) (bio : Nat) : List Int :=
  (s.clls.lookup bio).elim [] fun cll => (s.mem.lists cll.uniqCauses).items

theorem charged_setCauses (s : CauseRefs) (i : Slot) (p : Option Nat) (bio : Nat) :
    (s.setCauses i p).charged bio = s.charged bio := by
  cases p <;> rfl

/-- The first list that is added to a bio. -/
theorem causeListListAdd_charged {bio : Nat} {cll : CauseListList} (hb : s.clls.lookup bio = some cll)
    (hitems : cll.items = []) (hnew : (s.mem.lists cll.uniqCauses).items = []) (l : Nat) :
    (∀ id ∈ (causeListListAdd s bio (some l)).charged bio, id ∈ (s.mem.lists l).items) ∧
    (s.env.Plenty → 0 < cll.itemCapacity →
      ∀ id ∈ (s.mem.lists l).items, id ∈ (causeListListAdd s bio (some l)).charged bio) := by
  by_cases hcap : cll.itemCapacity = 0
  · have hfull : causeListListAdd s bio (some l) = s := by
      unfold causeListListAdd
      simp [hb, hitems, hcap]
    rw [hfull, charged, hb, Option.elim_some, hnew]
    exact ⟨fun _ hid => (by cases hid), fun _ hpos => absurd hcap hpos.ne'⟩
  · have hcopy : (causeListListAdd s bio (some l)).charged bio =
        (SplitSched.causeListCopy s.env (s.mem.lists l) (s.mem.lists cll.uniqCauses)).2.1.items := by
      unfold causeListListAdd charged SplitSched.causeListListAdd
      simp [hb, hitems, Ne.symm hcap, allocItems]
    rw [hcopy]
    refine ⟨?_, ?_⟩
    · intro id hid
      rcases (causeListCopyItems_bounds _ _ _).2 id hid with hid | hid
      · rw [hnew] at hid
        cases hid
      · exact hid
    · intro henv _ id hid
      exact ((causeListCopy_mem henv (s.mem.lists l) (s.mem.lists cll.uniqCauses)).1 id).mpr (.inr hid)

/-- A bio without a list of cause lists gets an empty one, if there is memory. -/
theorem ensureCll_new {bio : Nat} (hb : s.clls.lookup bio = none) (capacity : Nat) :
    (s.ensureCll bio capacity).clls.lookup bio = none ∧ ¬s.env.Plenty ∨
    ∃ t, s.ensureCll bio capacity = t ∧ t.clls.lookup bio = some ⟨s.refcount.next, 0, [], capacity⟩ ∧
      (t.mem.lists s.refcount.next).items = [] ∧ (∀ k < s.refcount.next, t.mem.lists k = s.mem.lists k) ∧
      (s.env.Plenty → t.env.Plenty) := by
  have hplenty := fun henv : s.env.Plenty => (ensureCll_plenty henv bio capacity).1
  unfold ensureCll at hplenty ⊢
  simp only [hb] at hplenty ⊢
  rcases newCauseListList_cases s capacity with ⟨env, m, d, c, hnew, -⟩ | ⟨env, d, hnew, henv⟩
  · simp only [hnew] at hplenty ⊢
    refine .inl ⟨hb, ?_⟩
    intro hm
    obtain ⟨cll, hcll⟩ := hplenty hm
    rw [hb] at hcll
    cases hcll
  · simp only [hnew]
    refine .inr ⟨_, rfl, ?_, ?_, ?_, henv⟩
    · simp
    · simp [CauseList.new]
    · intro k hk
      exact Mem.setList_lists_of_ne _ _ hk.ne

/-- The accounts of a list that is handed over to a new bio. -/
theorem handOver_charged {bio : Nat} (hb : s.clls.lookup bio = none) (hl : l < s.refcount.next)
    (bSize maxSectors : Nat) :
    (∀ id ∈ (handOver s l bSize bio maxSectors).charged bio, id ∈ (s.mem.lists l).items) ∧
    (s.env.Plenty → 8 ≤ maxSectors →
      ∀ id ∈ (s.mem.lists l).items, id ∈ (handOver s l bSize bio maxSectors).charged bio) := by
  have hput : ∀ (t : CauseRefs) (p : Option Nat), (putCauseList t p).charged bio = t.charged bio := by
    intro t p
    obtain ⟨c, d, hput, -⟩ := putCauseList_frame t p
    rw [hput]
    rfl
  unfold handOver
  simp only [hput]
  rcases ensureCll_new hb (maxSectors / 8) with ⟨hnone, hshort⟩ | ⟨t, ht, hcll, hnew, hlists, henv⟩
  · have hempty : ∀ t : CauseRefs, t.clls.lookup bio = none →
        (causeListListAdd t bio (some l)).charged bio = [] := by
      intro t ht
      unfold causeListListAdd charged
      simp only [ht, Option.elim_none]
    rw [hempty]
    · exact ⟨fun _ hid => (by cases hid), fun hm => absurd hm hshort⟩
    · exact hnone
  · rw [ht]
    obtain ⟨m, hm⟩ : ∃ m, m = t.mem.setList l { t.mem.lists l with size := bSize } := ⟨_, rfl⟩
    have hitems : (m.lists l).items = (s.mem.lists l).items := by
      rw [hm, Mem.setList_lists_self, hlists l hl]
    have hnew' : (m.lists s.refcount.next).items = [] := by
      rw [hm, Mem.setList_lists_of_ne _ _ hl.ne', hnew]
    obtain ⟨honly, hall⟩ := causeListListAdd_charged (s := { t with mem := m }) hcll rfl hnew' l
    rw [← hm, ← hitems]
    exact ⟨honly, fun hp hmax => hall (henv hp) (by simp only; omega)⟩

end CauseRefs
end SplitSched
