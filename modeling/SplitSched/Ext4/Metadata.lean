import SplitSched.Block.CauseIds

/-!
# SplitSched.Ext4.Metadata

Who is blamed for a metadata buffer of ext4. Both patch sets add the same lines, "add this cause (meta
write)", to ext4_jbd2.c. In the patch set for 3.2.51 they stand in `__ext4_handle_dirty_metadata`, before
`jbd2_journal_dirty_metadata`. In the one for 4.5 they stand before `jbd2_journal_get_create_access`.

The buffers, the tasks and the transactions are any number; a task may be a proxy for other accounts. The
functions of the kernel around the hunks touch no cause list.

* `Tagged`: the list of a buffer has every account that has dirtied it since its causes were last moved
  to a bio.
* `original_tagged`: in the patch set for 3.2.51, with memory to spare, every run is `Tagged`.
* `metadata_tagged_iff`: in the patch set for 4.5 a run is `Tagged` when whoever dirties a buffer is on its
  list before; with memory to spare, when whoever dirties it has got create access to it.
-/

namespace SplitSched
namespace Ext4

open CauseRefs

/-- The patch sets. -/
inductive Port where
  | v3_2_51
  | v4_5
  deriving DecidableEq, Repr

/-! ## The hunks -/

/-- The lines that both patch sets add. -/
def addMetaWrite (s : CauseRefs) (bh task : Nat) (accountId : Int) : CauseRefs :=
  let s := (s.causeListAdd (.bh bh) task accountId).2
  s.setCauseListType (s.causes (.bh bh)) .checkpoint

def ext4JournalGetCreateAccess (port : Port) (s : CauseRefs) (bh task : Nat) (accountId : Int) :
    CauseRefs :=
  match port with
  | .v3_2_51 => s
  | .v4_5 => addMetaWrite s bh task accountId

/-- The hunk of transaction.c, the same in both patch sets. -/
def jbd2JournalDirtyMetadata (s : CauseRefs) (transaction bh task : Nat) (accountId : Int) : CauseRefs :=
  let s := (s.causeListAdd (.transaction transaction) task accountId).2
  (s.causeListAdd (.jh bh) task accountId).2

/-- There is no transaction if the handle is not valid, or if jbd2 gives up before its hunk. -/
def ext4HandleDirtyMetadata (port : Port) (s : CauseRefs) (bh task : Nat) (accountId : Int)
    (transaction : Option Nat) : CauseRefs :=
  let s :=
    match port with
    | .v3_2_51 => addMetaWrite s bh task accountId
    | .v4_5 => s
  match transaction with
  | some t => jbd2JournalDirtyMetadata s t bh task accountId
  | none => s

/-- `BUG_ON(current->causes); current->causes = new_cause_list();` -/
def startProxy (s : CauseRefs) (task : Nat) : Option CauseRefs :=
  if s.causes (.task task) = none then some (s.ensureCauses (.task task)) else none

/-- `if (current->causes) cause_list_copy(bh->causes, &current->causes);` -/
def proxyFor (s : CauseRefs) (task bh : Nat) : CauseRefs :=
  match s.causes (.task task) with
  | some _ => (s.causeListCopy (s.causes (.bh bh)) (.task task)).2
  | none => s

/-! ## Runs -/

structure Metadata where
  refs : CauseRefs
  /-- The field `account_id` of the tasks. -/
  accountId : Nat → Int
  /-- The accounts for which the hunk was run on a buffer since its causes were moved. -/
  asked : Nat → List Int
  /-- The accounts that have dirtied a buffer since its causes were moved. -/
  dirtiers : Nat → List Int

inductive Event where
  | getWriteAccess (bh task : Nat)
  | getCreateAccess (bh task : Nat)
  | handleDirtyMetadata (bh task : Nat) (transaction : Option Nat)
  | submitBh (bh bSize bio maxSectors : Nat)
  | freeBufferHead (bh : Nat)
  | setAccountId (task : Nat) (id : Int)
  | startProxy (task : Nat)
  | proxyFor (task bh : Nat)
  | stopProxy (task : Nat)
  deriving DecidableEq

namespace Metadata

def init (m : Mem) (env : Env) (accountId : Nat → Int) : Metadata :=
  ⟨.init m env, accountId, fun _ => [], fun _ => []⟩

def standsFor (w : Metadata) (task : Nat) : List Int := w.refs.standsFor task (w.accountId task)

/-- The accounts that dirty the buffer `b`. -/
def dirtiedBy (w : Metadata) (b : Nat) : Event → List Int
  | .handleDirtyMetadata bh task _ => if bh = b then w.standsFor task else []
  | _ => []

/-- The accounts for which the hunk runs on the buffer `b`. -/
def askedBy (port : Port) (w : Metadata) (b : Nat) (e : Event) : List Int :=
  match port, e with
  | .v3_2_51, .handleDirtyMetadata bh task _ => if bh = b then w.standsFor task else []
  | .v4_5, .getCreateAccess bh task => if bh = b then w.standsFor task else []
  | _, _ => []

/-- The buffer `b` loses its list. -/
def Clears (b : Nat) : Event → Prop
  | .submitBh bh _ _ _ => bh = b
  | .freeBufferHead bh => bh = b
  | _ => False

instance (b : Nat) : DecidablePred (Clears b) := fun e => by
  cases e <;> unfold Clears <;> infer_instance

def exec (port : Port) (w : Metadata) : Event → Option CauseRefs
  -- neither patch set has a hunk in `__ext4_journal_get_write_access`
  | .getWriteAccess _ _ => some w.refs
  | .getCreateAccess bh task =>
    some (ext4JournalGetCreateAccess port w.refs bh task (w.accountId task))
  | .handleDirtyMetadata bh task transaction =>
    some (ext4HandleDirtyMetadata port w.refs bh task (w.accountId task) transaction)
  | .submitBh bh bSize bio maxSectors => some (moveCausesBhToBio w.refs bh bSize bio maxSectors)
  | .freeBufferHead bh => some (freeBufferHead w.refs bh)
  | .setAccountId _ _ => some w.refs
  | .startProxy task => Ext4.startProxy w.refs task
  | .proxyFor task bh => some (Ext4.proxyFor w.refs task bh)
  | .stopProxy task => some (w.refs.giveUp (.task task))

def step (port : Port) (w : Metadata) (e : Event) : Option Metadata :=
  (exec port w e).map fun refs =>
    { refs := refs
      accountId :=
        match e with
        | .setAccountId task id => Function.update w.accountId task id
        | _ => w.accountId
      asked := fun b => if Clears b e then [] else w.asked b ++ askedBy port w b e
      dirtiers := fun b => if Clears b e then [] else w.dirtiers b ++ dirtiedBy w b e }

/-- Whoever has dirtied a buffer is on its list. -/
def Tagged (w : Metadata) : Prop := ∀ b, ∀ id ∈ w.dirtiers b, id ∈ w.refs.ids (.bh b)

/-- Whoever dirties a buffer is on its list already. -/
def Anticipated (w : Metadata) (e : Event) : Prop :=
  ∀ b, ∀ id ∈ dirtiedBy w b e, id ∈ w.refs.ids (.bh b)

/-- The hunk has been run for whoever dirties a buffer. -/
def Asked (w : Metadata) (e : Event) : Prop := ∀ b, ∀ id ∈ dirtiedBy w b e, id ∈ w.asked b

/-! ## What an operation does to the lists of the buffers -/

/-- The list of `b` has got accounts among `new`, with memory to spare all of them. -/
structure Gains (s s' : CauseRefs) (b : Nat) (new : List Int) : Prop where
  kept : ∀ id ∈ s.ids (.bh b), id ∈ s'.ids (.bh b)
  only : ∀ id ∈ s'.ids (.bh b), id ∈ s.ids (.bh b) ∨ id ∈ new
  all : s.env.Plenty → ∀ id ∈ new, id ∈ s'.ids (.bh b)

variable {port : Port} {s s' s'' refs : CauseRefs} {w w' : Metadata} {e : Event} {b bh task : Nat}
  {new : List Int}

theorem Gains.of_eq (h : s'.ids (.bh b) = s.ids (.bh b)) : Gains s s' b [] :=
  ⟨fun _ hid => h ▸ hid, fun _ hid => .inl (h ▸ hid), fun _ _ hid => (by cases hid)⟩

theorem Gains.of_adds (h : Adds Set.univ s s' (.bh bh) new) (b : Nat) :
    Gains s s' b (if bh = b then new else []) := by
  by_cases hb : bh = b
  · subst hb
    rw [if_pos rfl]
    exact ⟨h.kept, h.only, fun henv => (h.all henv).2.2⟩
  · rw [if_neg hb]
    exact .of_eq (h.others (.bh b) fun he => hb (Slot.bh.inj he).symm)

theorem Gains.then_same (h : Gains s s' b new) (hb : s''.ids (.bh b) = s'.ids (.bh b)) :
    Gains s s'' b new := by
  obtain ⟨hkept, honly, hall⟩ := h
  rw [← hb] at hkept honly hall
  exact ⟨hkept, honly, hall⟩

/-- The lists stay apart and memory to spare. -/
structure Keeps (s s' : CauseRefs) : Prop where
  apart : s'.Apart Set.univ
  plenty : s.env.Plenty → s'.env.Plenty

theorem Keeps.of_adds {i : Slot} (h : Adds Set.univ s s' i new) : Keeps s s' :=
  ⟨h.apart, fun henv => (h.all henv).1⟩

theorem Keeps.trans (h : Keeps s s') (h' : Keeps s' s'') : Keeps s s'' :=
  ⟨h'.apart, fun henv => h'.plenty (h.plenty henv)⟩

theorem Keeps.of_empties {i : Slot} (h : Empties Set.univ s s' i) : Keeps s s' := ⟨h.apart, h.plenty⟩

theorem addMetaWrite_adds (h : s.Apart Set.univ) (bh task : Nat) (accountId : Int) :
    Adds Set.univ s (addMetaWrite s bh task accountId) (.bh bh) (s.standsFor task accountId) := by
  have hne : Slot.bh bh ≠ .task task := by simp
  exact (causeListAdd_adds h trivial hne accountId).setType trivial .checkpoint

/-- The journal has lists of its own. -/
theorem jbd2JournalDirtyMetadata_spec (h : s.Apart Set.univ) (transaction bh task : Nat)
    (accountId : Int) :
    Keeps s (jbd2JournalDirtyMetadata s transaction bh task accountId) ∧
    ∀ b, (jbd2JournalDirtyMetadata s transaction bh task accountId).ids (.bh b) = s.ids (.bh b) := by
  have hne : Slot.transaction transaction ≠ .task task := by simp
  have hne' : Slot.jh bh ≠ .task task := by simp
  have htr := causeListAdd_adds h trivial hne accountId
  have hjh := causeListAdd_adds htr.apart trivial hne' accountId
  refine ⟨⟨hjh.apart, fun henv => (hjh.all (htr.all henv).1).1⟩, fun b => ?_⟩
  exact (hjh.others (.bh b) (by simp)).trans (htr.others (.bh b) (by simp))

theorem proxyFor_spec (h : s.Apart Set.univ) (task bh : Nat) :
    Keeps s (Ext4.proxyFor s task bh) ∧
    ∀ b, (Ext4.proxyFor s task bh).ids (.bh b) = s.ids (.bh b) := by
  unfold Ext4.proxyFor
  cases s.causes (.task task) with
  | none => exact ⟨⟨h, id⟩, fun _ => rfl⟩
  | some l =>
    have hcopy := causeListCopy_adds (i := .task task) (p := s.causes (.bh bh)) h trivial
      fun k hk he => h.causes_ne_next (.bh bh) (he ▸ hk)
    exact ⟨.of_adds hcopy, fun b => hcopy.others (.bh b) (by simp)⟩

/-- An operation clears the list of a buffer, or adds what the hunk asks for. -/
structure Spec (port : Port) (w : Metadata) (e : Event) (refs : CauseRefs) : Prop where
  keeps : Keeps w.refs refs
  clears : ∀ b, Clears b e → refs.ids (.bh b) = []
  gains : ∀ b, ¬Clears b e → Gains w.refs refs b (askedBy port w b e)

theorem Spec.of_same (hkeeps : Keeps w.refs refs) (hids : ∀ b, refs.ids (.bh b) = w.refs.ids (.bh b))
    (hclear : ∀ b, ¬Clears b e) (hask : ∀ b, askedBy port w b e = []) : Spec port w e refs := by
  refine ⟨hkeeps, fun b hc => absurd hc (hclear b), fun b _ => ?_⟩
  rw [hask b]
  exact .of_eq (hids b)

theorem Spec.of_empties (h : Empties Set.univ w.refs refs (.bh bh)) (hclear : ∀ b, Clears b e ↔ bh = b)
    (hask : ∀ b, askedBy port w b e = []) : Spec port w e refs := by
  refine ⟨.of_empties h, fun b hc => ?_, fun b hc => ?_⟩
  · rw [← (hclear b).mp hc]
    exact h.empty
  · rw [hask b]
    exact .of_eq (h.others (.bh b) trivial fun he => hc ((hclear b).mpr (Slot.bh.inj he).symm))

theorem getCreateAccess_spec (h : w.refs.Apart Set.univ) (bh task : Nat) :
    Spec port w (.getCreateAccess bh task)
      (ext4JournalGetCreateAccess port w.refs bh task (w.accountId task)) := by
  cases port with
  | v3_2_51 => exact .of_same ⟨h, id⟩ (fun _ => rfl) (fun _ => id) fun _ => rfl
  | v4_5 =>
    have hadd := addMetaWrite_adds h bh task (w.accountId task)
    exact ⟨.of_adds hadd, fun _ hc => hc.elim, fun b _ => .of_adds hadd b⟩

theorem handleDirtyMetadata_spec (h : w.refs.Apart Set.univ) (bh task : Nat) (transaction : Option Nat) :
    Spec port w (.handleDirtyMetadata bh task transaction)
      (ext4HandleDirtyMetadata port w.refs bh task (w.accountId task) transaction) := by
  have hjournal : ∀ {s : CauseRefs}, Spec port w (.handleDirtyMetadata bh task transaction) s → ∀ t,
      Spec port w (.handleDirtyMetadata bh task transaction)
        (jbd2JournalDirtyMetadata s t bh task (w.accountId task)) := by
    intro s hspec t
    obtain ⟨hkeeps, hids⟩ := jbd2JournalDirtyMetadata_spec hspec.keeps.apart t bh task (w.accountId task)
    exact ⟨hspec.keeps.trans hkeeps, fun _ hc => hc.elim, fun b hc => (hspec.gains b hc).then_same (hids b)⟩
  cases port with
  | v3_2_51 =>
    have hadd := addMetaWrite_adds h bh task (w.accountId task)
    have hspec : Spec .v3_2_51 w (.handleDirtyMetadata bh task transaction)
        (addMetaWrite w.refs bh task (w.accountId task)) :=
      ⟨.of_adds hadd, fun _ hc => hc.elim, fun b _ => .of_adds hadd b⟩
    cases transaction with
    | none => exact hspec
    | some t => exact hjournal hspec t
  | v4_5 =>
    have hspec : Spec .v4_5 w (.handleDirtyMetadata bh task transaction) w.refs :=
      .of_same ⟨h, id⟩ (fun _ => rfl) (fun _ => id) fun _ => rfl
    cases transaction with
    | none => exact hspec
    | some t => exact hjournal hspec t

theorem exec_spec (h : w.refs.Apart Set.univ) (he : exec port w e = some refs) : Spec port w e refs := by
  have hask : ∀ {e : Event}, (∀ bh task, e ≠ .getCreateAccess bh task) →
      (∀ bh task tr, e ≠ .handleDirtyMetadata bh task tr) → ∀ b, askedBy port w b e = [] := by
    intro e hcreate hdirty b
    unfold askedBy
    split
    · exact absurd rfl (hdirty _ _ _)
    · exact absurd rfl (hcreate _ _)
    · rfl
  cases e with
  | getWriteAccess bh task =>
    cases he
    exact .of_same ⟨h, id⟩ (fun _ => rfl) (fun _ => id) (hask (by simp) (by simp))
  | getCreateAccess bh task =>
    cases he
    exact getCreateAccess_spec h bh task
  | handleDirtyMetadata bh task transaction =>
    cases he
    exact handleDirtyMetadata_spec h bh task transaction
  | submitBh bh bSize bio maxSectors =>
    cases he
    exact .of_empties (moveCausesBhToBio_empties h bh bSize bio maxSectors) (fun _ => Iff.rfl)
      (hask (by simp) (by simp))
  | freeBufferHead bh =>
    cases he
    exact .of_empties (giveUp_empties h (.bh bh)) (fun _ => Iff.rfl) (hask (by simp) (by simp))
  | setAccountId task id =>
    cases he
    exact .of_same ⟨h, fun henv => henv⟩ (fun _ => rfl) (fun _ hc => hc) (hask (by simp) (by simp))
  | startProxy task =>
    simp only [exec, Ext4.startProxy, Option.ite_none_right_eq_some, Option.some.injEq] at he
    have hnew := ensureCauses_adds h (.task task)
    rw [he.2] at hnew
    exact .of_same (.of_adds hnew) (fun b => hnew.others (.bh b) (by simp)) (fun _ => id)
      (hask (by simp) (by simp))
  | proxyFor task bh =>
    cases he
    obtain ⟨hkeeps, hids⟩ := proxyFor_spec h task bh
    exact .of_same hkeeps hids (fun _ => id) (hask (by simp) (by simp))
  | stopProxy task =>
    cases he
    have hgive := giveUp_empties h (.task task)
    exact .of_same (.of_empties hgive) (fun b => hgive.others (.bh b) trivial (by simp)) (fun _ => id)
      (hask (by simp) (by simp))

/-! ## Runs -/

theorem step_eq (hs : step port w e = some w') : exec port w e = some w'.refs ∧
    (∀ b, w'.asked b = if Clears b e then [] else w.asked b ++ askedBy port w b e) ∧
    ∀ b, w'.dirtiers b = if Clears b e then [] else w.dirtiers b ++ dirtiedBy w b e := by
  unfold step at hs
  obtain ⟨refs, he, rfl⟩ := Option.map_eq_some_iff.mp hs
  exact ⟨he, fun _ => rfl, fun _ => rfl⟩

/-- With memory to spare, the list of a buffer has the accounts the hunk was run for. -/
structure Exact (w : Metadata) : Prop where
  apart : w.refs.Apart Set.univ
  plenty : w.refs.env.Plenty
  ids : ∀ b id, id ∈ w.refs.ids (.bh b) ↔ id ∈ w.asked b

theorem init_exact {env : Env} (henv : env.Plenty) (m : Mem) (accountId : Nat → Int) :
    Exact (init m env accountId) :=
  ⟨init_apart _ m env, henv, fun _ _ => Iff.rfl⟩

theorem init_tagged (m : Mem) (env : Env) (accountId : Nat → Int) : Tagged (init m env accountId) :=
  fun _ _ hid => (by cases hid)

theorem step_exact (hs : step port w e = some w') (h : Exact w) : Exact w' := by
  obtain ⟨he, hasked, -⟩ := step_eq hs
  have hspec := exec_spec h.apart he
  refine ⟨hspec.keeps.apart, hspec.keeps.plenty h.plenty, fun b id => ?_⟩
  rw [hasked b]
  by_cases hc : Clears b e
  · rw [if_pos hc, hspec.clears b hc]
  · rw [if_neg hc, List.mem_append, ← h.ids b id]
    have hgain := hspec.gains b hc
    refine ⟨hgain.only id, ?_⟩
    rintro (hid | hid)
    · exact hgain.kept id hid
    · exact hgain.all h.plenty id hid

/-- Where the hunk runs for whoever dirties a buffer, it is on the buffer's list afterwards. -/
theorem step_tagged (hs : step port w e = some w') (h : w.refs.Apart Set.univ) (htag : Tagged w)
    (hdirty : ∀ b, ∀ id ∈ dirtiedBy w b e, id ∈ w'.refs.ids (.bh b)) : Tagged w' := by
  obtain ⟨he, -, hdirtiers⟩ := step_eq hs
  have hspec := exec_spec h he
  intro b id hid
  rw [hdirtiers b] at hid
  by_cases hc : Clears b e
  · rw [if_pos hc] at hid
    cases hid
  · rw [if_neg hc] at hid
    rcases List.mem_append.mp hid with hid | hid
    · exact (hspec.gains b hc).kept id (htag b id hid)
    · exact hdirty b id hid

theorem clears_of_dirtied {id : Int} (h : id ∈ dirtiedBy w b e) : ¬Clears b e := by
  cases e with
  | handleDirtyMetadata bh task transaction => exact fun hc => hc
  | _ => cases h

/-- The operation that dirties is not the one with the hunk in the patch set for 4.5. -/
theorem ids_of_dirtied {id : Int} (h : w.refs.Apart Set.univ) (hs : step .v4_5 w e = some w')
    (hd : id ∈ dirtiedBy w b e) (j : Int) : j ∈ w'.refs.ids (.bh b) ↔ j ∈ w.refs.ids (.bh b) := by
  have hgain := (exec_spec h (step_eq hs).1).gains b (clears_of_dirtied hd)
  have hnone : askedBy .v4_5 w b e = [] := by
    cases e with
    | handleDirtyMetadata bh task transaction => rfl
    | _ => cases hd
  rw [hnone] at hgain
  refine ⟨fun hj => ?_, hgain.kept j⟩
  rcases hgain.only j hj with hj | hj
  · exact hj
  · cases hj

/-- In the patch set for 3.2.51 whoever has dirtied a buffer is on its list. -/
theorem original_tagged {env : Env} (henv : env.Plenty) (m : Mem) (accountId : Nat → Int)
    (es : List Event) : Always (step .v3_2_51) Tagged (init m env accountId) es := by
  have hstep : ∀ w e w', step .v3_2_51 w e = some w' → Exact w ∧ Tagged w → Exact w' ∧ Tagged w' := by
    rintro w e w' hs ⟨hexact, htag⟩
    refine ⟨step_exact hs hexact, step_tagged hs hexact.apart htag fun b id hid => ?_⟩
    have hgain := (exec_spec hexact.apart (step_eq hs).1).gains b (clears_of_dirtied hid)
    refine hgain.all hexact.plenty id ?_
    cases e with
    | handleDirtyMetadata bh task transaction => exact hid
    | _ => cases hid
  intro es' w hpre hr
  exact (run_invariant hstep hr ⟨init_exact henv m accountId, init_tagged m env accountId⟩).2

/-- In the patch set for 4.5 whoever has dirtied a buffer is on its list, along the runs in which it was
there before. With memory to spare, these are the runs in which whoever dirties a buffer has got create
access to it since its causes were moved. -/
theorem metadata_tagged_iff (m : Mem) (env : Env) (accountId : Nat → Int) (es : List Event) (w : Metadata)
    (h : run (step .v4_5) (init m env accountId) es = some w) :
    (Always (step .v4_5) Tagged (init m env accountId) es ↔
      Meets (step .v4_5) Anticipated (init m env accountId) es) ∧
    (env.Plenty → (Always (step .v4_5) Tagged (init m env accountId) es ↔
      Meets (step .v4_5) Asked (init m env accountId) es)) := by
  have hiff : Always (step .v4_5) Tagged (init m env accountId) es ↔
      Meets (step .v4_5) Anticipated (init m env accountId) es := by
    refine always_iff_meets (I := fun w => w.refs.Apart Set.univ ∧ Tagged w) ?_ (fun _ hI => hI.2) ?_ h
      ⟨init_apart _ m env, init_tagged m env accountId⟩
    · rintro w e w' hs hc ⟨hapart, htag⟩
      refine ⟨(exec_spec hapart (step_eq hs).1).keeps.apart, step_tagged hs hapart htag fun b id hid => ?_⟩
      exact (ids_of_dirtied hapart hs hid id).mpr (hc b id hid)
    · rintro w e w' hs hc ⟨hapart, -⟩ htag
      refine hc fun b id hid => ?_
      rw [← ids_of_dirtied hapart hs hid]
      refine htag b id ?_
      rw [(step_eq hs).2.2 b, if_neg (clears_of_dirtied hid)]
      exact List.mem_append_right _ hid
  refine ⟨hiff, fun henv => hiff.trans ?_⟩
  refine meets_congr (I := Exact) (fun _ _ _ => step_exact) (fun w e hI => ?_) es
    (init_exact henv m accountId)
  exact forall_congr' fun b => forall₂_congr fun id _ => hI.ids b id

/-- Task 1 creates a block, which is written. Task 2, a proxy for it, takes it up again. -/
def reuseRun : List Event :=
  [.getCreateAccess 0 1, .handleDirtyMetadata 0 1 (some 0), .startProxy 2, .proxyFor 2 0,
    .submitBh 0 4096 0 1024, .getCreateAccess 0 2, .handleDirtyMetadata 0 2 none]

theorem metadata_tagged_reuse :
    ∃ w, run (step .v4_5) (init sampleMem sampleEnv fun task => task) reuseRun = some w ∧
      (Always (step .v4_5) Tagged (init sampleMem sampleEnv fun task => task) reuseRun ↔
        Meets (step .v4_5) Asked (init sampleMem sampleEnv fun task => task) reuseRun) := by
  have h : (run (step .v4_5) (init sampleMem sampleEnv fun task => task) reuseRun).isSome = true := by
    decide +kernel
  obtain ⟨w, hw⟩ := Option.isSome_iff_exists.mp h
  exact ⟨w, hw, (metadata_tagged_iff sampleMem sampleEnv _ _ w hw).2 fun _ => rfl⟩

/-- Task 1 creates a block and dirties it, and task 2 dirties it again. -/
def redirtyRun : List Event :=
  [.getCreateAccess 0 1, .handleDirtyMetadata 0 1 (some 0), .getWriteAccess 0 2,
    .handleDirtyMetadata 0 2 (some 0)]

/-- The list of the buffer has task 1 only; with the patch set for 3.2.51 it has both. -/
theorem redirtied_block_untagged :
    (∃ w, run (step .v4_5) (init sampleMem sampleEnv fun task => task) redirtyRun = some w ∧
      w.dirtiers 0 = [1, 2] ∧ w.refs.ids (.bh 0) = [1] ∧ ¬Tagged w) ∧
    ∃ w, run (step .v3_2_51) (init sampleMem sampleEnv fun task => task) redirtyRun = some w ∧
      w.refs.ids (.bh 0) = [1, 2] := by
  have h : (run (step .v4_5) (init sampleMem sampleEnv fun task => task) redirtyRun).any
      (fun w => w.dirtiers 0 = [1, 2] ∧ w.refs.ids (.bh 0) = [1]) = true := by
    decide +kernel
  have h' : (run (step .v3_2_51) (init sampleMem sampleEnv fun task => task) redirtyRun).any
      (fun w => w.refs.ids (.bh 0) = [1, 2]) = true := by
    decide +kernel
  obtain ⟨w, hw, hlists⟩ := (Option.any_eq_true _ _).mp h
  obtain ⟨w', hw', hids'⟩ := (Option.any_eq_true _ _).mp h'
  obtain ⟨hdirtiers, hids⟩ := of_decide_eq_true hlists
  refine ⟨⟨w, hw, hdirtiers, hids, fun htag => ?_⟩, w', hw', of_decide_eq_true hids'⟩
  have hmem := htag 0 2 (by simp [hdirtiers])
  rw [hids] at hmem
  revert hmem
  decide

end Metadata

end Ext4
end SplitSched
