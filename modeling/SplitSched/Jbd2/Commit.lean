import SplitSched.Block.CauseFrame
import SplitSched.Ext4.Metadata

/-!
# SplitSched.Jbd2.Commit

Whom the journal charges for a transaction (transaction.c, commit.c and revoke.c of the 4.5 patch set).

A transaction collects the accounts that dirty metadata in it. `jbd2_journal_commit_transaction` takes a reference to
its list before the handles that are still open have been closed, and gives it to the blocks that it writes for the
transaction as a whole: the commit record, and the last block of revoke records. By then the transaction may have
been freed, and another one may be running.

* `step`: transactions, handles and commits in any order that the journal allows, among all other users of cause
  lists (`Outside`).
* `Inv`: the transaction and its commit are a group of their own (`Fenced`), and what they lead to are the accounts
  that dirtied metadata.
* `commit_blocks_charge_dirtiers`: the bio of such a block is charged to nobody else, and with memory to spare to all of
  them, those included that came after the commit had begun.

Every allocation of a cause list may fail. The journal is not aborted.
-/

namespace SplitSched
namespace Jbd2

open CauseRefs

/-! ## The journal -/

/-- Where the commit of a transaction stands. -/
inductive Phase where
  | idle
  /-- `T_LOCKED`: the commit waits until `t_updates` is 0. -/
  | locked (t : Nat)
  /-- `T_FLUSH` and later. -/
  | flushing (t : Nat)
  deriving DecidableEq, Repr

/-- The blocks that are written with the causes of the transaction, or without causes. -/
inductive Block where
  | commitRecord
  | revoke (last : Bool)
  deriving DecidableEq, Repr

structure Commits where
  refs : CauseRefs
  /-- The field `account_id` of the tasks. -/
  accountId : Nat → Int
  /-- `j_running_transaction`. -/
  running : Option Nat
  phase : Phase
  /-- `t_updates`. -/
  updates : Nat → Nat
  nextTid : Nat
  /-- The accounts that have dirtied metadata in a transaction. -/
  dirtiers : Nat → List Int

inductive Event where
  | getTransaction
  | startHandle (t : Nat)
  | dirtyMetadata (t bh task : Nat)
  | stopHandle (t : Nat)
  | lock
  | flush
  | submit (block : Block) (bh bSize bio maxSectors : Nat)
  | finish
  | freeTransaction (t : Nat)
  | setAccountId (task : Nat) (id : Int)
  /-- Something else is done to cause lists. -/
  | other (e : CauseRefs.Event)

/-- Only the journal has these pointers, and only the journal calls `get_cause_list`. -/
def Outside : CauseRefs.Event → Bool
  | .new i | .add i _ _ | .copy _ i | .put i | .putSafe i =>
    match i with
    | .transaction _ | .commit _ => false
    | _ => true
  | .get _ _ => false
  | _ => true

/-- What the block is submitted with. -/
def Block.causes (causeList : Option Nat) : Block → Option Nat
  | .commitRecord | .revoke true => causeList
  | .revoke false => none

/-- `bh->causes = get_cause_list(cause_list)`, and `submit_bh`. -/
def submitBlock (s : CauseRefs) (causeList : Option Nat) (bh bSize bio maxSectors : Nat) : CauseRefs :=
  let r := getCauseList s causeList
  moveCausesBhToBio (r.2.setCauses (.bh bh) r.1) bh bSize bio maxSectors

/-- `cause_list = get_cause_list(commit_transaction->causes)`, and its type is set. -/
def lockTransaction (s : CauseRefs) (t : Nat) : CauseRefs :=
  let r := getCauseList s (s.causes (.transaction t))
  (r.2.setCauses (.commit t) r.1).setCauseListType r.1 .journal

namespace Commits

def init (m : Mem) (env : Env) (accountId : Nat → Int) : Commits :=
  ⟨.init m env, accountId, none, .idle, fun _ => 0, 0, fun _ => []⟩

def step (w : Commits) : Event → Option Commits
  | .getTransaction =>
    if w.running = none then
      -- `transaction->causes = new_cause_list()`
      some { w with
        refs := w.refs.ensureCauses (.transaction w.nextTid)
        running := some w.nextTid
        nextTid := w.nextTid + 1 }
    else none
  | .startHandle t =>
    if w.running = some t ∧ w.phase ≠ .locked t then
      some { w with updates := Function.update w.updates t (w.updates t + 1) }
    else none
  | .dirtyMetadata t bh task =>
    if 0 < w.updates t then
      some { w with
        refs := Ext4.jbd2JournalDirtyMetadata w.refs t bh task (w.accountId task)
        dirtiers := Function.update w.dirtiers t
          (w.dirtiers t ++ w.refs.standsFor task (w.accountId task)) }
    else none
  | .stopHandle t =>
    if 0 < w.updates t then some { w with updates := Function.update w.updates t (w.updates t - 1) } else none
  | .lock =>
    match w.running, w.phase with
    | some t, .idle => some { w with refs := lockTransaction w.refs t, phase := .locked t }
    | _, _ => none
  | .flush =>
    match w.phase with
    | .locked t => if w.updates t = 0 then some { w with running := none, phase := .flushing t } else none
    | _ => none
  | .submit block bh bSize bio maxSectors =>
    match w.phase with
    | .flushing t =>
      -- the buffer and the bio are new
      if w.refs.causes (.bh bh) = none ∧ w.refs.clls.lookup bio = none then
        some { w with
          refs := submitBlock w.refs (block.causes (w.refs.causes (.commit t))) bh bSize bio maxSectors }
      else none
    | _ => none
  | .finish =>
    match w.phase with
    | .flushing t => some { w with refs := w.refs.giveUp (.commit t), phase := .idle }
    | _ => none
  | .freeTransaction t =>
    if w.running = some t then none else some { w with refs := w.refs.giveUp (.transaction t) }
  | .setAccountId task id => some { w with accountId := Function.update w.accountId task id }
  | .other e => if Outside e then (w.refs.step e).map fun refs => { w with refs := refs } else none

end Commits

/-! ## What the journal does to a group of pointers -/

/-- A transaction, and the commit that is under way for it. -/
def pair (t : Nat) : Set Slot := {.transaction t, .commit t}

variable {F : Set Slot} {s : CauseRefs} {i : Slot} {l t u bh bio : Nat} {p : Option Nat}

theorem transaction_mem_pair (t : Nat) : .transaction t ∈ pair t := .inl rfl

theorem commit_mem_pair (t : Nat) : .commit t ∈ pair t := .inr rfl

theorem transaction_notMem_pair (h : u ≠ t) : .transaction u ∉ pair t := by simp [pair, h]

theorem commit_notMem_pair (h : u ≠ t) : .commit u ∉ pair t := by simp [pair, h]

theorem outside_spares {e : CauseRefs.Event} (he : Outside e = true) (t : Nat) (s : CauseRefs) :
    e.Spares (pair t) s := by
  cases e with
  | new i | add i _ _ | copy _ i | put i | putSafe i =>
    cases i <;> simp_all [Outside, CauseRefs.Event.Spares, pair]
  | get p i => cases he
  | moveBhToBio | freeBufferHead => simp [CauseRefs.Event.Spares, pair]
  | work | newCll | cllAdd | delCll | zeroToBio => trivial

/-- A list of the group is handed over to a bio through a buffer that has the pointer only for that time. -/
theorem handOver_through (h : Fenced F s) (hbh : .bh bh ∉ F) (hi : i ∈ F) (hl : s.causes i = some l)
    (bSize bio maxSectors : Nat) :
    Away F s ((handOver ({ s with refcount := s.refcount.get l }.setCauses (.bh bh) (some l)) l bSize bio
      maxSectors).setCauses (.bh bh) none) := by
  generalize ht : ({ s with refcount := s.refcount.get l } : CauseRefs).setCauses (.bh bh) (some l) = t
  have htc : t.causes = Function.update s.causes (.bh bh) (some l) := ht ▸ causes_setCauses _ _ _
  have hti : ∀ j ∈ F, t.causes j = s.causes j := by
    intro j hj
    rw [htc, Function.update_of_ne]
    rintro rfl
    exact hbh hj
  -- meanwhile the buffer is of the group
  have hforeign : ∀ k, Foreign F s k → Foreign (insert (.bh bh) F) t k := by
    rintro k hk j (rfl | hj)
    · rw [htc, Function.update_self]
      intro he
      exact hk i hi (hl.trans he)
    · rw [hti j hj]
      exact hk j hj
  have hfenced : Fenced (insert (.bh bh) F) t := by
    refine ⟨?_, ?_, ?_⟩
    · intro k hk
      exact hforeign k (h.fresh k (by rw [← ht] at hk; exact hk))
    · intro j hj k hjk
      rw [Set.mem_insert_iff, not_or] at hj
      rw [htc, Function.update_of_ne hj.1] at hjk
      exact hforeign k (h.slots j hj.2 k hjk)
    · intro b cll hb
      rw [← ht] at hb
      exact hforeign _ (h.uniq b cll hb)
  have hhand := handOver_away hfenced l bSize bio maxSectors
  generalize handOver t l bSize bio maxSectors = v at hhand
  have hvc := causes_setCauses v (.bh bh) none
  have hvi : ∀ j ∈ F, (v.setCauses (.bh bh) none).causes j = v.causes j := by
    intro j hj
    rw [hvc, Function.update_of_ne]
    rintro rfl
    exact hbh hj
  have hback : ∀ k, Foreign (insert (.bh bh) F) v k → Foreign F (v.setCauses (.bh bh) none) k := by
    intro k hk j hj
    rw [hvi j hj]
    exact hk j (Set.mem_insert_of_mem _ hj)
  refine ⟨⟨?_, ?_, ?_⟩, ?_, ?_, ?_⟩
  · intro k hk
    exact hback k (hhand.fenced.fresh k hk)
  · intro j hj k hjk
    rw [hvc] at hjk
    by_cases hjb : j = .bh bh
    · rw [hjb, Function.update_self] at hjk
      cases hjk
    · rw [Function.update_of_ne hjb] at hjk
      exact hback k (hhand.fenced.slots j (by simp [hjb, hj]) k hjk)
  · intro b cll hb
    exact hback _ (hhand.fenced.uniq b cll hb)
  · intro j hj
    rw [hvi j hj, hhand.causes j (Set.mem_insert_of_mem _ hj), hti j hj]
  · intro j hj
    have hids : (v.setCauses (.bh bh) none).ids j = v.ids j := by
      rw [ids, ids, hvi j hj]
      rfl
    have hids' : t.ids j = s.ids j := by
      rw [ids, ids, hti j hj, ← ht]
      rfl
    rw [hids, hhand.ids j (Set.mem_insert_of_mem _ hj), hids']
  · intro henv
    refine hhand.plenty ?_
    rw [← ht]
    exact henv

theorem submitBlock_of_some (s : CauseRefs) (l bh bSize bio maxSectors : Nat) :
    submitBlock s (some l) bh bSize bio maxSectors =
      (handOver ({ s with refcount := s.refcount.get l }.setCauses (.bh bh) (some l)) l bSize bio
        maxSectors).setCauses (.bh bh) none := by
  unfold submitBlock
  refine moveCausesBhToBio_of_some ?_ _ _ _
  exact (congrFun (causes_setCauses _ _ _) _).trans (Function.update_self _ _ _)

theorem submitBlock_none (s : CauseRefs) (bh bSize bio maxSectors : Nat) :
    submitBlock s none bh bSize bio maxSectors = s.setCauses (.bh bh) none := by
  have hnull : (s.setCauses (.bh bh) none).causes (.bh bh) = none := by
    rw [causes_setCauses, Function.update_self]
  unfold submitBlock moveCausesBhToBio getCauseList
  simp only [hnull]

/-- A block that is submitted leaves a group as it is, whether the causes are of the group or not. -/
theorem submitBlock_away (h : Fenced F s) (hbh : .bh bh ∉ F)
    (hp : ∀ l ∈ p, Foreign F s l ∨ ∃ i ∈ F, s.causes i = some l) (bSize bio maxSectors : Nat) :
    Away F s (submitBlock s p bh bSize bio maxSectors) := by
  have hforeign : (∀ l ∈ p, Foreign F s l) → Away F s (submitBlock s p bh bSize bio maxSectors) := by
    intro hp
    have hget := get_away h hbh hp
    exact hget.trans (moveCausesBhToBio_away hget.fenced hbh _ _ _)
  cases p with
  | none => exact hforeign fun l hl => (by cases hl)
  | some l =>
    rcases hp l rfl with hl | ⟨i, hi, hl⟩
    · exact hforeign fun k hk => Option.some.inj hk ▸ hl
    · rw [submitBlock_of_some]
      exact handOver_through h hbh hi hl _ _ _

theorem submitBlock_sound (h : s.Sound 0) (hbh : s.causes (.bh bh) = none) (hp : ∀ l ∈ p, l ∈ s.refs)
    (bSize bio maxSectors : Nat) : (submitBlock s p bh bSize bio maxSectors).Sound 0 := by
  refine moveCausesBhToBio_sound ((getCauseList_sound h ?_).setCauses ?_) _ _ _ _
  · rwa [zero_add]
  · cases p with
    | none => exact hbh
    | some l => exact hbh

theorem submitBlock_charged (hb : s.clls.lookup bio = none) (hl : l < s.refcount.next) (bh bSize maxSectors : Nat) :
    (∀ id ∈ (submitBlock s (some l) bh bSize bio maxSectors).charged bio, id ∈ (s.mem.lists l).items) ∧
    (s.env.Plenty → 8 ≤ maxSectors →
      ∀ id ∈ (s.mem.lists l).items, id ∈ (submitBlock s (some l) bh bSize bio maxSectors).charged bio) := by
  rw [submitBlock_of_some, charged_setCauses]
  exact handOver_charged (s := ({ s with refcount := s.refcount.get l } : CauseRefs).setCauses (.bh bh) (some l))
    hb hl bSize maxSectors

theorem setCauseListType_away (h : Fenced F s) (p : Option Nat) (type : SplitType) :
    Away F s (s.setCauseListType p type) := by
  cases p with
  | none => exact h.refl
  | some l => exact setList_away h (.inr rfl)

/-! ## The beginning of a commit -/

theorem lockTransaction_frame (s : CauseRefs) (t : Nat) :
    (lockTransaction s t).causes = Function.update s.causes (.commit t) (s.causes (.transaction t)) ∧
    (lockTransaction s t).clls = s.clls ∧ (lockTransaction s t).env = s.env ∧
    (lockTransaction s t).refcount.next = s.refcount.next ∧
    ∀ p, (lockTransaction s t).itemsOf p = s.itemsOf p := by
  unfold lockTransaction
  cases hp : s.causes (.transaction t) with
  | none => exact ⟨causes_setCauses s _ none, rfl, rfl, rfl, fun _ => rfl⟩
  | some l =>
    refine ⟨causes_setCauses { s with refcount := s.refcount.get l } _ (some l), rfl, rfl, rfl, ?_⟩
    intro p
    cases p with
    | none => rfl
    | some k =>
      change ((s.mem.setList l (SplitSched.setCauseListType (s.mem.lists l) .journal)).lists k).items = _
      by_cases hkl : k = l
      · subst hkl
        rw [Mem.setList_lists_self]
        rfl
      · rw [Mem.setList_lists_of_ne _ _ hkl]
        rfl

theorem lockTransaction_sound (h : s.Sound 0) (hc : s.causes (.commit t) = none) : (lockTransaction s t).Sound 0 := by
  have hget : ((getCauseList s (s.causes (.transaction t))).2.setCauses (.commit t)
      (getCauseList s (s.causes (.transaction t))).1).Sound 0 := by
    refine (getCauseList_sound h ?_).setCauses ?_
    · intro l hl
      rw [zero_add]
      exact mem_refs_of_causes hl
    · cases s.causes (.transaction t) with
      | none => exact hc
      | some l => exact hc
  unfold lockTransaction
  cases hp : s.causes (.transaction t) with
  | none =>
    rw [hp] at hget
    exact hget
  | some l =>
    rw [hp] at hget
    exact hget

theorem lockTransaction_away (h : Fenced F s) (hc : .commit t ∉ F) (ht : .transaction t ∉ F) :
    Away F s (lockTransaction s t) := by
  have hget := get_away h hc fun l hl => h.slots _ ht l hl
  exact hget.trans (setCauseListType_away hget.fenced _ _)

theorem lockTransaction_fenced (h : Fenced (pair t) s) : Fenced (pair t) (lockTransaction s t) := by
  obtain ⟨hc, hclls, -, hnext, -⟩ := lockTransaction_frame s t
  refine h.within hnext hclls ?_ ?_
  · intro i hi l hl hf
    rw [hc] at hl
    by_cases hit : i = .commit t
    · rw [hit, Function.update_self] at hl
      exact hf _ (transaction_mem_pair t) hl
    · rw [Function.update_of_ne hit] at hl
      exact hf i hi hl
  · intro j hj
    rw [hc, Function.update_of_ne]
    rintro rfl
    exact hj (commit_mem_pair t)

/-! ## What holds in every run -/

/-- A transaction and its commit lead to accounts that dirtied metadata, and with memory to spare to all of them. -/
structure Group (plenty : Prop) (w : Commits) (t : Nat) : Prop where
  fenced : Fenced (pair t) w.refs
  only : ∀ i ∈ pair t, ∀ id ∈ w.refs.ids i, id ∈ w.dirtiers t
  running_all : plenty → w.running = some t →
    w.refs.causes (.transaction t) ≠ none ∧ ∀ id ∈ w.dirtiers t, id ∈ w.refs.ids (.transaction t)
  locked_all : plenty → w.phase = .locked t → w.refs.causes (.commit t) = w.refs.causes (.transaction t)
  flushing_all : plenty → w.phase = .flushing t →
    w.refs.causes (.commit t) ≠ none ∧ ∀ id ∈ w.dirtiers t, id ∈ w.refs.ids (.commit t)

structure Inv (plenty : Prop) (w : Commits) : Prop where
  sound : w.refs.Sound 0
  memory : plenty → w.refs.env.Plenty
  opened : ∀ t, 0 < w.updates t → w.running = some t
  locked : ∀ t, w.phase = .locked t → w.running = some t
  flushing : ∀ t, w.phase = .flushing t → w.running ≠ some t ∧ t < w.nextTid
  born : ∀ t, w.running = some t → t < w.nextTid
  unborn : ∀ t, w.nextTid ≤ t → w.dirtiers t = [] ∧ ∀ i ∈ pair t, w.refs.causes i = none
  held : ∀ t, w.phase ≠ .locked t → w.phase ≠ .flushing t → w.refs.causes (.commit t) = none
  group : ∀ t, Group plenty w t

variable {plenty : Prop} {w w' : Commits} {refs : CauseRefs}

/-- What is done elsewhere. -/
theorem Group.away (h : Group plenty w t) (ha : Away (pair t) w.refs w'.refs)
    (hd : w'.dirtiers t = w.dirtiers t) (hr : w'.running = some t → w.running = some t)
    (hl : w'.phase = .locked t → w.phase = .locked t)
    (hf : w'.phase = .flushing t → w.phase = .flushing t) : Group plenty w' t := by
  have htr := transaction_mem_pair t
  have hco := commit_mem_pair t
  refine ⟨ha.fenced, ?_, ?_, ?_, ?_⟩
  · intro i hi id hid
    rw [ha.ids i hi] at hid
    rw [hd]
    exact h.only i hi id hid
  · intro hm hrun
    rw [ha.causes _ htr, ha.ids _ htr, hd]
    exact h.running_all hm (hr hrun)
  · intro hm hlock
    rw [ha.causes _ htr, ha.causes _ hco]
    exact h.locked_all hm (hl hlock)
  · intro hm hflush
    rw [ha.causes _ hco, ha.ids _ hco, hd]
    exact h.flushing_all hm (hf hflush)

/-- Nothing but the cause lists changes, away from all transactions. -/
theorem Inv.away (h : Inv plenty w) (hs : refs.Sound 0) (ha : ∀ t, Away (pair t) w.refs refs) :
    Inv plenty { w with refs := refs } := by
  refine ⟨hs, ?_, h.opened, h.locked, h.flushing, h.born, ?_, ?_, ?_⟩
  · intro hm
    exact (ha 0).plenty (h.memory hm)
  · intro t ht
    obtain ⟨hd, hc⟩ := h.unborn t ht
    refine ⟨hd, ?_⟩
    intro i hi
    exact ((ha t).causes i hi).trans (hc i hi)
  · intro t hl hf
    exact ((ha t).causes _ (commit_mem_pair t)).trans (h.held t hl hf)
  · intro t
    exact (h.group t).away (ha t) rfl id id id

theorem init_inv (m : Mem) (env : Env) (accountId : Nat → Int) : Inv env.Plenty (.init m env accountId) := by
  refine ⟨init_sound m env, id, ?_, ?_, ?_, ?_, ?_, ?_, ?_⟩
  · intro t ht
    exact absurd ht (lt_irrefl 0)
  · intro t ht
    cases ht
  · intro t ht
    cases ht
  · intro t ht
    cases ht
  · intro t _
    exact ⟨rfl, fun _ _ => rfl⟩
  · intro t _ _
    rfl
  · intro t
    refine ⟨init_fenced _ m env, ?_, ?_, ?_, ?_⟩
    · intro i _ id hid
      cases hid
    · intro _ ht
      cases ht
    · intro _ ht
      cases ht
    · intro _ ht
      cases ht

theorem getTransaction_inv (h : Inv plenty w) (hrun : w.running = none) :
    Inv plenty { w with
      refs := w.refs.ensureCauses (.transaction w.nextTid)
      running := some w.nextTid
      nextTid := w.nextTid + 1 } := by
  have hw := ensureCauses_writes w.refs (.transaction w.nextTid)
  have haway : ∀ u, u ≠ w.nextTid → Away (pair u) w.refs (w.refs.ensureCauses (.transaction w.nextTid)) := by
    intro u hu
    exact hw.away (h.group u).fenced (transaction_notMem_pair hu.symm)
  obtain ⟨hd, hnull⟩ := h.unborn w.nextTid le_rfl
  have hcommit : (w.refs.ensureCauses (.transaction w.nextTid)).causes (.commit w.nextTid) = none :=
    (hw.others _ (by simp)).trans (hnull _ (commit_mem_pair _))
  refine ⟨ensureCauses_sound h.sound _, fun hm => (hw.all (h.memory hm)).1, ?_, ?_, ?_, ?_, ?_, ?_, ?_⟩
  · intro t ht
    rw [h.opened t ht] at hrun
    cases hrun
  · intro t ht
    rw [h.locked t ht] at hrun
    cases hrun
  · intro t ht
    have hlt := (h.flushing t ht).2
    exact ⟨fun he => absurd hlt (Option.some.inj he ▸ lt_irrefl _), hlt.trans (Nat.lt_succ_self _)⟩
  · rintro t ⟨⟩
    exact Nat.lt_succ_self _
  · intro t ht
    have hne : t ≠ w.nextTid := (Nat.lt_of_succ_le ht).ne'
    obtain ⟨hd, hc⟩ := h.unborn t (Nat.le_of_succ_le ht)
    exact ⟨hd, fun i hi => ((haway t hne).causes i hi).trans (hc i hi)⟩
  · intro t hl hf
    exact (hw.others _ (by simp)).trans (h.held t hl hf)
  · intro t
    by_cases ht : t = w.nextTid
    · subst ht
      refine ⟨hw.fenced h.sound (h.group _).fenced (transaction_mem_pair _), ?_, ?_, ?_, ?_⟩
      · rintro i (rfl | rfl) id hid
        · rcases hw.only id hid with hid | hid
          · rw [ids, hnull _ (transaction_mem_pair _)] at hid
            cases hid
          · cases hid
        · rw [ids, hcommit] at hid
          cases hid
      · intro hm _
        refine ⟨(hw.all (h.memory hm)).2.1, ?_⟩
        simp only [hd]
        exact fun _ hid => (by cases hid)
      · intro _ hl
        rw [h.locked _ hl] at hrun
        cases hrun
      · intro _ hf
        exact absurd (h.flushing _ hf).2 (lt_irrefl _)
    · refine (h.group t).away (haway t ht) rfl ?_ id id
      intro he
      exact absurd (Option.some.inj he).symm ht

theorem dirtyMetadata_inv (h : Inv plenty w) (ht : 0 < w.updates t) (bh task : Nat) :
    Inv plenty { w with
      refs := Ext4.jbd2JournalDirtyMetadata w.refs t bh task (w.accountId task)
      dirtiers := Function.update w.dirtiers t
        (w.dirtiers t ++ w.refs.standsFor task (w.accountId task)) } := by
  have hrun := h.opened t ht
  have hne : Slot.transaction t ≠ .task task := by simp
  have hw := causeListAdd_writes h.sound hne (w.accountId task)
  have hsound := causeListAdd_sound h.sound (.transaction t) task (w.accountId task)
  have hfenced := hw.fenced h.sound (h.group t).fenced (transaction_mem_pair t)
  -- the journal head is no pointer of the group
  have hjh : ∀ u, Fenced (pair u) (w.refs.causeListAdd (.transaction t) task (w.accountId task)).2 →
      Away (pair u) (w.refs.causeListAdd (.transaction t) task (w.accountId task)).2
        (Ext4.jbd2JournalDirtyMetadata w.refs t bh task (w.accountId task)) := by
    intro u hu
    exact causeListAdd_away hsound hu (by simp [pair]) task (w.accountId task)
  have haway : ∀ u, u ≠ t → Away (pair u) w.refs
      (Ext4.jbd2JournalDirtyMetadata w.refs t bh task (w.accountId task)) := by
    intro u hu
    have hfirst := hw.away (h.group u).fenced (transaction_notMem_pair hu.symm)
    exact hfirst.trans (hjh u hfirst.fenced)
  have hown := hjh t hfenced
  refine ⟨causeListAdd_sound hsound _ _ _, ?_, h.opened, h.locked, h.flushing, h.born, ?_, ?_, ?_⟩
  · intro hm
    exact hown.plenty (hw.all (h.memory hm)).1
  · intro u hu
    have hne : u ≠ t := by
      rintro rfl
      exact absurd (h.born u hrun) (not_lt.mpr hu)
    obtain ⟨hd, hc⟩ := h.unborn u hu
    refine ⟨by simp only [Function.update_of_ne hne, hd], ?_⟩
    intro i hi
    exact ((haway u hne).causes i hi).trans (hc i hi)
  · intro u hl hf
    by_cases hu : u = t
    · subst hu
      exact ((hown.causes _ (commit_mem_pair u)).trans (hw.others _ (by simp))).trans (h.held u hl hf)
    · exact ((haway u hu).causes _ (commit_mem_pair u)).trans (h.held u hl hf)
  · intro u
    by_cases hu : u = t
    · subst hu
      have htr := transaction_mem_pair u
      have hco := commit_mem_pair u
      refine ⟨hown.fenced, ?_, ?_, ?_, ?_⟩
      · intro i hi id hid
        simp only [Function.update_self, List.mem_append]
        rw [hown.ids i hi] at hid
        have hold : id ∈ w.refs.ids i ∨ id ∈ w.refs.standsFor task (w.accountId task) := by
          by_cases hi' : i = .transaction u
          · exact hi' ▸ hw.only id (hi' ▸ hid)
          · exact hw.only_through hi' (fun l hl => h.sound.causes_lt hl) id hid
        exact hold.imp_left ((h.group u).only i hi id)
      · intro hm _
        obtain ⟨-, hsome, hnew⟩ := hw.all (h.memory hm)
        simp only [Function.update_self]
        rw [hown.causes _ htr, hown.ids _ htr]
        refine ⟨hsome, ?_⟩
        intro id hid
        rcases List.mem_append.mp hid with hid | hid
        · exact hw.kept id (((h.group u).running_all hm hrun).2 id hid)
        · exact hnew id hid
      · intro hm hl
        -- the transaction has its list already, so the pointer stays
        have hsame : (w.refs.causeListAdd (.transaction u) task (w.accountId task)).2.causes (.transaction u) =
            w.refs.causes (.transaction u) := by
          rcases hw.pointer with hsame | ⟨hnone, -⟩
          · exact hsame
          · exact absurd hnone ((h.group u).running_all hm hrun).1
        rw [hown.causes _ htr, hown.causes _ hco, hsame, hw.others _ (by simp)]
        exact (h.group u).locked_all hm hl
      · intro _ hf
        exact absurd hrun (h.flushing u hf).1
    · exact (h.group u).away (haway u hu) (Function.update_of_ne hu _ _) id id id

theorem lock_inv (h : Inv plenty w) (hrun : w.running = some t) (hp : w.phase = .idle) :
    Inv plenty { w with refs := lockTransaction w.refs t, phase := .locked t } := by
  have hnone : w.refs.causes (.commit t) = none := h.held t (by simp [hp]) (by simp [hp])
  obtain ⟨hc, -, henv, -, hitems⟩ := lockTransaction_frame w.refs t
  have haway : ∀ u, u ≠ t → Away (pair u) w.refs (lockTransaction w.refs t) := by
    intro u hu
    exact lockTransaction_away (h.group u).fenced (commit_notMem_pair hu.symm) (transaction_notMem_pair hu.symm)
  have hctr : (lockTransaction w.refs t).causes (.transaction t) = w.refs.causes (.transaction t) := by
    rw [hc, Function.update_of_ne (by simp)]
  have hcco : (lockTransaction w.refs t).causes (.commit t) = w.refs.causes (.transaction t) := by
    rw [hc, Function.update_self]
  have hidtr : (lockTransaction w.refs t).ids (.transaction t) = w.refs.ids (.transaction t) := by
    rw [ids, hctr, hitems, ids]
  have hidco : (lockTransaction w.refs t).ids (.commit t) = w.refs.ids (.transaction t) := by
    rw [ids, hcco, hitems, ids]
  refine ⟨lockTransaction_sound h.sound hnone, ?_, h.opened, ?_, ?_, h.born, ?_, ?_, ?_⟩
  · intro hm
    rw [henv]
    exact h.memory hm
  · rintro u ⟨⟩
    exact hrun
  · intro u hu
    cases hu
  · intro u hu
    have hne : u ≠ t := by
      rintro rfl
      exact absurd (h.born u hrun) (not_lt.mpr hu)
    obtain ⟨hd, hnull⟩ := h.unborn u hu
    exact ⟨hd, fun i hi => ((haway u hne).causes i hi).trans (hnull i hi)⟩
  · intro u hl _
    have hne : u ≠ t := by
      rintro rfl
      exact hl rfl
    exact ((haway u hne).causes _ (commit_mem_pair u)).trans (h.held u (by simp [hp]) (by simp [hp]))
  · intro u
    by_cases hu : u = t
    · subst hu
      refine ⟨lockTransaction_fenced (h.group u).fenced, ?_, ?_, ?_, ?_⟩
      · rintro i (rfl | rfl) id hid
        · rw [hidtr] at hid
          exact (h.group u).only _ (transaction_mem_pair u) id hid
        · rw [hidco] at hid
          exact (h.group u).only _ (transaction_mem_pair u) id hid
      · intro hm _
        rw [hctr, hidtr]
        exact (h.group u).running_all hm hrun
      · intro _ _
        rw [hcco, hctr]
      · intro _ hf
        cases hf
    · refine (h.group u).away (haway u hu) rfl id ?_ ?_
      · intro hl
        cases hl
        exact absurd rfl hu
      · intro hf
        cases hf

theorem flush_inv (h : Inv plenty w) (hp : w.phase = .locked t) (hupd : w.updates t = 0) :
    Inv plenty { w with running := none, phase := .flushing t } := by
  have hrun := h.locked t hp
  refine ⟨h.sound, h.memory, ?_, ?_, ?_, ?_, h.unborn, ?_, ?_⟩
  · intro u hu
    have hut : u = t := Option.some.inj ((h.opened u hu).symm.trans hrun)
    rw [hut, hupd] at hu
    exact absurd hu (lt_irrefl 0)
  · intro u hu
    cases hu
  · rintro u ⟨⟩
    exact ⟨Option.some_ne_none t ∘ Eq.symm, h.born t hrun⟩
  · intro u hu
    cases hu
  · intro u _ hf
    refine h.held u ?_ ?_
    · rw [hp]
      rintro ⟨⟩
      exact hf rfl
    · simp [hp]
  · intro u
    by_cases hu : u = t
    · subst hu
      refine ⟨(h.group u).fenced, (h.group u).only, ?_, ?_, ?_⟩
      · intro _ hr
        cases hr
      · intro _ hl
        cases hl
      · intro hm _
        obtain ⟨hsome, hall⟩ := (h.group u).running_all hm hrun
        have hsame := (h.group u).locked_all hm hp
        rw [ids, hsame]
        exact ⟨hsome, hall⟩
    · refine (h.group u).away (h.group u).fenced.refl rfl ?_ ?_ ?_
      · intro hr
        cases hr
      · intro hl
        cases hl
      · intro hf
        cases hf
        exact absurd rfl hu

theorem Block.causes_some {block : Block} (h : block.causes p = some l) : p = some l := by
  match block with
  | .commitRecord => exact h
  | .revoke true => exact h
  | .revoke false => cases h

theorem Block.causes_of_ne {block : Block} (h : block ≠ .revoke false) (p : Option Nat) : block.causes p = p := by
  match block with
  | .commitRecord => rfl
  | .revoke true => rfl
  | .revoke false => exact absurd rfl h

theorem submit_inv (h : Inv plenty w) (hbh : w.refs.causes (.bh bh) = none) (block : Block) (t bSize bio maxSectors : Nat) :
    Inv plenty { w with
      refs := submitBlock w.refs (block.causes (w.refs.causes (.commit t))) bh bSize bio maxSectors } := by
  have hlist : ∀ l ∈ block.causes (w.refs.causes (.commit t)), w.refs.causes (.commit t) = some l :=
    fun _ => Block.causes_some
  refine h.away (submitBlock_sound h.sound hbh ?_ _ _ _) ?_
  · intro l hl
    exact mem_refs_of_causes (hlist l hl)
  · intro u
    refine submitBlock_away (h.group u).fenced (by simp [pair]) ?_ _ _ _
    intro l hl
    by_cases hu : u = t
    · subst hu
      exact .inr ⟨_, commit_mem_pair u, hlist l hl⟩
    · exact .inl ((h.group u).fenced.slots _ (commit_notMem_pair (Ne.symm hu)) l (hlist l hl))

/-- A pointer of the group of `t` is given up. -/
theorem giveUp_pair (h : Inv plenty w) (hi : i ∈ pair t) :
    (w.refs.giveUp i).Sound 0 ∧ (plenty → (w.refs.giveUp i).env.Plenty) ∧
    Fenced (pair t) (w.refs.giveUp i) ∧ (∀ u, u ≠ t → Away (pair u) w.refs (w.refs.giveUp i)) ∧
    (∀ j, j ≠ i → (w.refs.giveUp i).causes j = w.refs.causes j ∧ (w.refs.giveUp i).ids j = w.refs.ids j) ∧
    (w.refs.giveUp i).causes i = none ∧ ∀ u, ∀ j ∈ pair u, w.refs.causes j = none → (w.refs.giveUp i).causes j = none := by
  obtain ⟨hc, hmem, -, henv, -⟩ := giveUp_frame w.refs i
  have hself : (w.refs.giveUp i).causes i = none := by rw [hc, Function.update_self]
  have hother : ∀ j, j ≠ i → (w.refs.giveUp i).causes j = w.refs.causes j := by
    intro j hj
    rw [hc, Function.update_of_ne hj]
  refine ⟨giveUp_sound h.sound i, ?_, giveUp_fenced (h.group t).fenced hi, ?_, ?_, hself, ?_⟩
  · intro hm
    rw [henv]
    exact h.memory hm
  · intro u hu
    refine giveUp_away (h.group u).fenced ?_ _
    rcases hi with rfl | rfl
    · exact transaction_notMem_pair hu.symm
    · exact commit_notMem_pair hu.symm
  · intro j hj
    refine ⟨hother j hj, ?_⟩
    rw [ids, hother j hj, ids]
    unfold itemsOf
    rw [hmem]
  · intro u j _ hj
    by_cases hji : j = i
    · rw [hji, hself]
    · rw [hother j hji, hj]

theorem finish_inv (h : Inv plenty w) (hp : w.phase = .flushing t) :
    Inv plenty { w with refs := w.refs.giveUp (.commit t), phase := .idle } := by
  obtain ⟨hsound, hmem, hfenced, haway, hother, hself, hnull⟩ := giveUp_pair h (commit_mem_pair t)
  refine ⟨hsound, hmem, h.opened, ?_, ?_, h.born, ?_, ?_, ?_⟩
  · intro u hu
    cases hu
  · intro u hu
    cases hu
  · intro u hu
    exact ⟨(h.unborn u hu).1, fun i hi => hnull u i hi ((h.unborn u hu).2 i hi)⟩
  · intro u _ _
    by_cases hu : u = t
    · rw [hu]
      exact hself
    · refine hnull u _ (commit_mem_pair u) (h.held u ?_ ?_)
      · simp [hp]
      · rw [hp]
        rintro ⟨⟩
        exact hu rfl
  · intro u
    by_cases hu : u = t
    · subst hu
      have htr := hother (.transaction u) (by simp)
      refine ⟨hfenced, ?_, ?_, ?_, ?_⟩
      · rintro i (rfl | rfl) id hid
        · rw [htr.2] at hid
          exact (h.group u).only _ (transaction_mem_pair u) id hid
        · rw [ids, hself] at hid
          cases hid
      · intro _ hr
        exact absurd hr (h.flushing u hp).1
      · intro _ hl
        cases hl
      · intro _ hf
        cases hf
    · refine (h.group u).away (haway u hu) rfl id ?_ ?_
      · intro hl
        cases hl
      · intro hf
        cases hf

theorem freeTransaction_inv (h : Inv plenty w) (hrun : w.running ≠ some t) :
    Inv plenty { w with refs := w.refs.giveUp (.transaction t) } := by
  obtain ⟨hsound, hmem, hfenced, haway, hother, hself, hnull⟩ := giveUp_pair h (transaction_mem_pair t)
  refine ⟨hsound, hmem, h.opened, h.locked, h.flushing, h.born, ?_, ?_, ?_⟩
  · intro u hu
    exact ⟨(h.unborn u hu).1, fun i hi => hnull u i hi ((h.unborn u hu).2 i hi)⟩
  · intro u hl hf
    exact hnull u _ (commit_mem_pair u) (h.held u hl hf)
  · intro u
    by_cases hu : u = t
    · subst hu
      have hco := hother (.commit u) (by simp)
      refine ⟨hfenced, ?_, ?_, ?_, ?_⟩
      · rintro i (rfl | rfl) id hid
        · rw [ids, hself] at hid
          cases hid
        · rw [hco.2] at hid
          exact (h.group u).only _ (commit_mem_pair u) id hid
      · intro _ hr
        exact absurd hr hrun
      · intro _ hl
        exact absurd (h.locked u hl) hrun
      · intro hm hf
        rw [hco.1, hco.2]
        exact (h.group u).flushing_all hm hf
    · exact (h.group u).away (haway u hu) rfl id id id

/-- Only the handles change. -/
theorem handle_inv {updates : Nat → Nat} (h : Inv plenty w) (hopen : ∀ t, 0 < updates t → w.running = some t) :
    Inv plenty { w with updates := updates } :=
  ⟨h.sound, h.memory, hopen, h.locked, h.flushing, h.born, h.unborn, h.held,
    fun t => (h.group t).away (h.group t).fenced.refl rfl id id id⟩

theorem step_inv {e : Event} (hs : w.step e = some w') (h : Inv plenty w) : Inv plenty w' := by
  cases e with
  | getTransaction =>
    simp only [Commits.step, Option.ite_none_right_eq_some, Option.some.injEq] at hs
    obtain ⟨hrun, rfl⟩ := hs
    exact getTransaction_inv h hrun
  | startHandle t =>
    simp only [Commits.step, Option.ite_none_right_eq_some, Option.some.injEq] at hs
    obtain ⟨⟨hrun, -⟩, rfl⟩ := hs
    refine handle_inv h ?_
    intro u hu
    by_cases hut : u = t
    · rw [hut, hrun]
    · rw [Function.update_of_ne hut] at hu
      exact h.opened u hu
  | dirtyMetadata t bh task =>
    simp only [Commits.step, Option.ite_none_right_eq_some, Option.some.injEq] at hs
    obtain ⟨hupd, rfl⟩ := hs
    exact dirtyMetadata_inv h hupd bh task
  | stopHandle t =>
    simp only [Commits.step, Option.ite_none_right_eq_some, Option.some.injEq] at hs
    obtain ⟨hupd, rfl⟩ := hs
    refine handle_inv h ?_
    intro u hu
    by_cases hut : u = t
    · rw [hut]
      exact h.opened t hupd
    · rw [Function.update_of_ne hut] at hu
      exact h.opened u hu
  | lock =>
    simp only [Commits.step] at hs
    split at hs
    · rename_i t hrun hp
      cases hs
      exact lock_inv h hrun hp
    · cases hs
  | flush =>
    simp only [Commits.step] at hs
    split at hs
    · rename_i t hp
      simp only [Option.ite_none_right_eq_some, Option.some.injEq] at hs
      obtain ⟨hupd, rfl⟩ := hs
      exact flush_inv h hp hupd
    · cases hs
  | submit block bh bSize bio maxSectors =>
    simp only [Commits.step] at hs
    split at hs
    · rename_i t hp
      simp only [Option.ite_none_right_eq_some, Option.some.injEq] at hs
      obtain ⟨⟨hbh, -⟩, rfl⟩ := hs
      exact submit_inv h hbh block t bSize bio maxSectors
    · cases hs
  | finish =>
    simp only [Commits.step] at hs
    split at hs
    · rename_i t hp
      cases hs
      exact finish_inv h hp
    · cases hs
  | freeTransaction t =>
    simp only [Commits.step, Option.ite_none_left_eq_some, Option.some.injEq] at hs
    obtain ⟨hrun, rfl⟩ := hs
    exact freeTransaction_inv h hrun
  | setAccountId task id =>
    cases hs
    exact ⟨h.sound, h.memory, h.opened, h.locked, h.flushing, h.born, h.unborn, h.held,
      fun t => (h.group t).away (h.group t).fenced.refl rfl (fun hr => hr) (fun hl => hl) fun hf => hf⟩
  | other e =>
    simp only [Commits.step, Option.ite_none_right_eq_some, Option.map_eq_some_iff] at hs
    obtain ⟨hout, refs, hstep, rfl⟩ := hs
    exact h.away (step_sound h.sound hstep) fun t =>
      step_away h.sound (h.group t).fenced (outside_spares hout t w.refs) hstep

/-! ## Who is charged -/

/-- A transaction that is no longer running gets no more dirtiers. -/
theorem step_closed {e : Event} (hs : w.step e = some w') (h : Inv plenty w) (hrun : w.running ≠ some t)
    (hborn : t < w.nextTid) : w'.dirtiers t = w.dirtiers t ∧ w'.running ≠ some t ∧ t < w'.nextTid := by
  cases e with
  | getTransaction =>
    simp only [Commits.step, Option.ite_none_right_eq_some, Option.some.injEq] at hs
    obtain ⟨-, rfl⟩ := hs
    exact ⟨rfl, fun he => hborn.ne' (Option.some.inj he), hborn.trans (Nat.lt_succ_self _)⟩
  | dirtyMetadata u bh task =>
    simp only [Commits.step, Option.ite_none_right_eq_some, Option.some.injEq] at hs
    obtain ⟨hupd, rfl⟩ := hs
    have hne : t ≠ u := by
      rintro rfl
      exact hrun (h.opened t hupd)
    exact ⟨Function.update_of_ne hne _ _, hrun, hborn⟩
  | startHandle u | stopHandle u =>
    simp only [Commits.step, Option.ite_none_right_eq_some, Option.some.injEq] at hs
    obtain ⟨-, rfl⟩ := hs
    exact ⟨rfl, hrun, hborn⟩
  | freeTransaction u =>
    simp only [Commits.step, Option.ite_none_left_eq_some, Option.some.injEq] at hs
    obtain ⟨-, rfl⟩ := hs
    exact ⟨rfl, hrun, hborn⟩
  | lock | finish =>
    simp only [Commits.step] at hs
    split at hs
    · cases hs
      exact ⟨rfl, hrun, hborn⟩
    · cases hs
  | flush =>
    simp only [Commits.step] at hs
    split at hs
    · simp only [Option.ite_none_right_eq_some, Option.some.injEq] at hs
      obtain ⟨-, rfl⟩ := hs
      exact ⟨rfl, Option.some_ne_none t ∘ Eq.symm, hborn⟩
    · cases hs
  | submit block bh bSize bio maxSectors =>
    simp only [Commits.step] at hs
    split at hs
    · simp only [Option.ite_none_right_eq_some, Option.some.injEq] at hs
      obtain ⟨-, rfl⟩ := hs
      exact ⟨rfl, hrun, hborn⟩
    · cases hs
  | setAccountId task id =>
    cases hs
    exact ⟨rfl, hrun, hborn⟩
  | other e =>
    simp only [Commits.step, Option.ite_none_right_eq_some, Option.map_eq_some_iff] at hs
    obtain ⟨-, refs, -, rfl⟩ := hs
    exact ⟨rfl, hrun, hborn⟩

/-- The commit record of a transaction, and the last block of its revoke records, are charged only to accounts that
dirtied metadata in the transaction. With memory to spare, they are charged to every account that ever does, whenever
the commit begins while its handles are open, whatever else happens to cause lists, and even if the transaction is
freed before the block is written. For this the bio needs room for a list (`8 ≤ max_sectors`, as the block layer
guarantees). A call of a function on cause lists is one step. -/
theorem commit_blocks_charge_dirtiers (m : Mem) (env : Env) (accountId : Nat → Int) (es es' : List Event)
    (w w' w'' : Commits) (block : Block) (t bh bSize bio maxSectors : Nat)
    (hr : run Commits.step (.init m env accountId) es = some w) (hp : w.phase = .flushing t)
    (hs : w.step (.submit block bh bSize bio maxSectors) = some w')
    (hr' : run Commits.step w' es' = some w'') :
    (∀ id ∈ w'.refs.charged bio, id ∈ w''.dirtiers t) ∧
    (env.Plenty → 8 ≤ maxSectors → block ≠ .revoke false →
      ∀ id ∈ w''.dirtiers t, id ∈ w'.refs.charged bio) := by
  have h : Inv env.Plenty w := run_invariant (fun _ _ _ hs h => step_inv hs h) hr (init_inv m env accountId)
  obtain ⟨hrun, hborn⟩ := h.flushing t hp
  -- the dirtiers are settled
  have hend : w''.dirtiers t = w.dirtiers t := by
    have hw' := step_closed hs h hrun hborn
    have hinv := run_invariant
      (I := fun v => Inv env.Plenty v ∧ v.dirtiers t = w.dirtiers t ∧ v.running ≠ some t ∧ t < v.nextTid)
      (fun v e v' hs ⟨hv, hd, hrun, hborn⟩ => by
        have hstep := step_closed hs hv hrun hborn
        exact ⟨step_inv hs hv, hstep.1.trans hd, hstep.2⟩)
      hr' ⟨step_inv hs h, hw'⟩
    exact hinv.2.1
  rw [hend]
  simp only [Commits.step, hp, Option.ite_none_right_eq_some, Option.some.injEq] at hs
  obtain ⟨⟨hbh, hb⟩, rfl⟩ := hs
  cases hl : block.causes (w.refs.causes (.commit t)) with
  | none =>
    have hempty : (submitBlock w.refs none bh bSize bio maxSectors).charged bio = [] := by
      rw [submitBlock_none, charged_setCauses, charged, hb]
      rfl
    refine ⟨?_, ?_⟩
    · simp only [hempty]
      exact fun _ hid => (by cases hid)
    · intro hm _ hblock
      rw [Block.causes_of_ne hblock] at hl
      exact absurd hl ((h.group t).flushing_all hm hp).1
  | some l =>
    have hc := Block.causes_some hl
    have hids : w.refs.ids (.commit t) = (w.refs.mem.lists l).items := by
      rw [ids, hc]
      rfl
    obtain ⟨honly, hall⟩ := submitBlock_charged hb (h.sound.causes_lt hc) bh bSize maxSectors
    refine ⟨?_, ?_⟩
    · intro id hid
      refine (h.group t).only _ (commit_mem_pair t) id ?_
      rw [hids]
      exact honly id hid
    · intro hm hmax _ id hid
      have hflush := ((h.group t).flushing_all hm hp).2 id hid
      rw [hids] at hflush
      exact hall (h.memory hm) hmax id hflush

/-- Account 7 dirties metadata before the commit begins, and account 8 while it waits for its handle. Account 9 is in
the next transaction, and the first one is freed before its commit record is written. -/
theorem commit_blocks_charge_late_dirtier :
    ∃ w w', run Commits.step (.init sampleMem sampleEnv fun task => task)
        [.getTransaction, .startHandle 0, .startHandle 0, .dirtyMetadata 0 1 7, .stopHandle 0, .lock,
          .dirtyMetadata 0 2 8, .stopHandle 0, .flush, .getTransaction, .startHandle 1, .dirtyMetadata 1 1 9,
          .freeTransaction 0] = some w ∧
      w.step (.submit .commitRecord 5 4096 0 1024) = some w' ∧ w'.dirtiers 0 = [7, 8] ∧
      (∀ id ∈ w'.refs.charged 0, id ∈ w'.dirtiers 0) ∧ ∀ id ∈ w'.dirtiers 0, id ∈ w'.refs.charged 0 := by
  have h : (run Commits.step (.init sampleMem sampleEnv fun task => task)
      [.getTransaction, .startHandle 0, .startHandle 0, .dirtyMetadata 0 1 7, .stopHandle 0, .lock,
        .dirtyMetadata 0 2 8, .stopHandle 0, .flush, .getTransaction, .startHandle 1, .dirtyMetadata 1 1 9,
        .freeTransaction 0]).any (fun w => decide (w.phase = .flushing 0) &&
          (w.step (.submit .commitRecord 5 4096 0 1024)).any fun w' => decide (w'.dirtiers 0 = [7, 8])) = true := by
    decide +kernel
  obtain ⟨w, hr, hw⟩ := (Option.any_eq_true _ _).mp h
  rw [Bool.and_eq_true] at hw
  obtain ⟨w', hs, hd⟩ := (Option.any_eq_true _ _).mp hw.2
  obtain ⟨honly, hall⟩ := commit_blocks_charge_dirtiers sampleMem sampleEnv (fun task => task) _ [] w w' w' .commitRecord
    0 5 4096 0 1024 hr (of_decide_eq_true hw.1) hs rfl
  exact ⟨w, w', hr, hs, of_decide_eq_true hd, honly, hall (fun _ => rfl) (by decide) (by decide)⟩

end Jbd2
end SplitSched
