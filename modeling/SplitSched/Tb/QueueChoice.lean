import SplitSched.Tb.Charges

/-!
# SplitSched.Tb.QueueChoice

Which account's queue the token-bucket scheduler puts a request on, and which accounts it charges for it
later.

* `inspected`: the accounts `get_one_cause` looks at, in order; `getOneCause_eq`: its two loops are one
  scan of them.
* `queue_choice_by_set_iff`: the result is determined by their set (the only account, or the default
  account), except when the default account comes before a single other one. The scan starts from
  `DEFAULT_ACCOUNT`, and takes an account 0 for no account.
* `chargedLists`: the cause lists `account_for_req` charges; `accountForReq_charges`.
* `choice_inspects_charged_iff`: both look at the same accounts, except when a bio has cause lists that name
  nobody. `get_one_cause` goes by their presence, `account_for_bio` by the accounts on them.
-/

namespace SplitSched
namespace Tb

/-! ## The scan -/

/-- The accounts on the lists that `get_one_cause` looks at. -/
def inspected (m : Mem) (r : Request) : List Int :=
  r.bios.flatMap fun bio => (bioUniqCauses r bio).elim [] fun l => (m.lists l).items

/-- One scan, from `DEFAULT_ACCOUNT`. -/
def oneCause (ids : List Int) : Int := (getOneCauseItems ids defaultAccount).getD defaultAccount

theorem getOneCauseItems_append (ids ids' : List Int) : ∀ rv,
    getOneCauseItems (ids ++ ids') rv = (getOneCauseItems ids rv).bind (getOneCauseItems ids') := by
  induction ids with
  | nil => exact fun _ => rfl
  | cons id ids ih =>
    intro rv
    simp only [List.cons_append, getOneCauseItems]
    split
    · rfl
    · exact ih id

theorem getOneCauseBios_eq (m : Mem) (r : Request) (bios : List Bio) : ∀ rv,
    getOneCauseBios m r bios rv =
      (getOneCauseItems (bios.flatMap fun bio => (bioUniqCauses r bio).elim [] fun l => (m.lists l).items)
        rv).getD defaultAccount := by
  induction bios with
  | nil => exact fun _ => rfl
  | cons bio bios ih =>
    intro rv
    rw [List.flatMap_cons, getOneCauseItems_append]
    unfold getOneCauseBios
    cases bioUniqCauses r bio with
    | none => exact ih rv
    | some l =>
      simp only [Option.elim_some]
      cases getOneCauseItems (m.lists l).items rv with
      | none => rfl
      | some rv' => exact ih rv'

theorem getOneCause_eq (m : Mem) (rq : Nat) : getOneCause m rq = oneCause (inspected m (m.rqs rq)) :=
  getOneCauseBios_eq m (m.rqs rq) (m.rqs rq).bios defaultAccount

variable {ids ids' : List Int} {a : Int}

/-- Once the scan has an account, the others must be the same. -/
theorem getOneCauseItems_of_ne (ha : a ≠ defaultAccount) : ∀ ids : List Int,
    getOneCauseItems ids a = if ∀ id ∈ ids, id = a then some a else none := by
  intro ids
  induction ids with
  | nil => simp [getOneCauseItems]
  | cons id ids ih =>
    unfold getOneCauseItems
    by_cases hid : a = id
    · subst hid
      simp [ih]
    · rw [if_pos ⟨ha, hid⟩, if_neg]
      exact fun hall => hid (hall id List.mem_cons_self).symm

theorem oneCause_nil : oneCause [] = defaultAccount := rfl

/-- The default account at the front is not seen. -/
theorem oneCause_default_cons (ids : List Int) : oneCause (defaultAccount :: ids) = oneCause ids := by
  unfold oneCause
  rw [getOneCauseItems, if_neg fun h => h.1 rfl]

theorem oneCause_cons (ha : a ≠ defaultAccount) (ids : List Int) :
    oneCause (a :: ids) = if ∀ id ∈ ids, id = a then a else defaultAccount := by
  unfold oneCause
  rw [getOneCauseItems, if_neg fun h => h.1 rfl, getOneCauseItems_of_ne ha]
  split <;> rfl

/-! ## Sets of causes -/

/-- `rv` is the only account of the set, or the default account if there is none or there are several. -/
def Chooses (S : Finset Int) (rv : Int) : Prop :=
  (∀ a, S = {a} → rv = a) ∧ ((∀ a, S ≠ {a}) → rv = defaultAccount)

/-- The default account comes first, and then one other account. -/
def DefaultFirst (ids : List Int) : Prop :=
  ∃ a k n, a ≠ defaultAccount ∧
    ids = List.replicate (k + 1) defaultAccount ++ List.replicate (n + 1) a

theorem Chooses.unique {S : Finset Int} {rv rv' : Int} (h : Chooses S rv) (h' : Chooses S rv') :
    rv = rv' := by
  by_cases hS : ∃ a, S = {a}
  · obtain ⟨a, ha⟩ := hS
    rw [h.1 a ha, h'.1 a ha]
  · have hne : ∀ a, S ≠ {a} := fun a ha => hS ⟨a, ha⟩
    rw [h.2 hne, h'.2 hne]

theorem DefaultFirst.set (h : DefaultFirst ids) :
    ∃ a, a ≠ defaultAccount ∧ ids.toFinset = {defaultAccount, a} := by
  obtain ⟨a, k, n, ha, rfl⟩ := h
  refine ⟨a, ha, ?_⟩
  ext id
  simp [List.mem_replicate]

theorem oneCause_replicate_append (k : Nat) (ids : List Int) :
    oneCause (List.replicate k defaultAccount ++ ids) = oneCause ids := by
  induction k with
  | zero => rfl
  | succ k ih => rw [List.replicate_succ, List.cons_append, oneCause_default_cons, ih]

theorem DefaultFirst.oneCause_ne (h : DefaultFirst ids) : oneCause ids ≠ defaultAccount := by
  obtain ⟨a, k, n, ha, rfl⟩ := h
  rw [oneCause_replicate_append, List.replicate_succ, oneCause_cons ha, if_pos]
  · exact ha
  · exact fun id hid => List.eq_of_mem_replicate hid

theorem exists_leading (ids : List Int) : ∃ k rest, ids = List.replicate k defaultAccount ++ rest ∧
    (rest = [] ∨ ∃ a tail, a ≠ defaultAccount ∧ rest = a :: tail) := by
  induction ids with
  | nil => exact ⟨0, [], rfl, .inl rfl⟩
  | cons id ids ih =>
    by_cases hid : id = defaultAccount
    · obtain ⟨k, rest, rfl, hrest⟩ := ih
      exact ⟨k + 1, rest, by rw [hid, List.replicate_succ, List.cons_append], hrest⟩
    · exact ⟨0, id :: ids, rfl, .inr ⟨id, ids, hid, rfl⟩⟩

/-- The scan finds the account that the set of causes determines, unless the default account comes
first. -/
theorem oneCause_chooses_iff (ids : List Int) :
    Chooses ids.toFinset (oneCause ids) ↔ ¬DefaultFirst ids := by
  constructor
  · intro hchoose hfirst
    obtain ⟨a, ha, hS⟩ := hfirst.set
    refine hfirst.oneCause_ne (hchoose.2 fun b hb => ha ?_)
    have hmem : ∀ id ∈ ({defaultAccount, a} : Finset Int), id = b := by
      rw [← hS, hb]
      exact fun _ => Finset.mem_singleton.mp
    rw [hmem a (by simp), hmem defaultAccount (by simp)]
  · intro hfirst
    obtain ⟨k, rest, rfl, rfl | ⟨a, tail, ha, rfl⟩⟩ := exists_leading ids
    · -- the default account only
      rw [oneCause_replicate_append, oneCause_nil]
      refine ⟨fun a hS => ?_, fun _ => rfl⟩
      have hmem : a ∈ (List.replicate k defaultAccount ++ []).toFinset := hS ▸ Finset.mem_singleton_self a
      rw [List.append_nil, List.mem_toFinset] at hmem
      exact (List.eq_of_mem_replicate hmem).symm
    · have hmem : ∀ {b}, (List.replicate k defaultAccount ++ a :: tail).toFinset = {b} →
          ∀ id ∈ a :: tail, id = b := by
        intro b hS id hid
        rw [← Finset.mem_singleton, ← hS, List.mem_toFinset]
        exact List.mem_append_right _ hid
      rw [oneCause_replicate_append, oneCause_cons ha]
      by_cases hall : ∀ id ∈ tail, id = a
      · -- one account, and nothing before it
        rw [if_pos hall]
        have hk : k = 0 := by
          by_contra hk
          obtain ⟨j, rfl⟩ := Nat.exists_eq_succ_of_ne_zero hk
          exact hfirst ⟨a, j, tail.length, ha,
            congrArg (fun tail => _ ++ a :: tail) (List.eq_replicate_of_mem hall)⟩
        subst hk
        refine ⟨fun b hS => hmem hS a List.mem_cons_self, fun hS => absurd ?_ (hS a)⟩
        ext id
        simp only [List.replicate_zero, List.nil_append, List.mem_toFinset, List.mem_cons,
          Finset.mem_singleton]
        exact ⟨fun hid => hid.elim (fun h => h) (hall _), .inl⟩
      · -- several accounts
        rw [if_neg hall]
        refine ⟨fun b hS => ?_, fun _ => rfl⟩
        refine absurd (fun id hid => ?_) hall
        rw [hmem hS id (List.mem_cons_of_mem _ hid), hmem hS a List.mem_cons_self]

/-! ## The order of the causes -/

theorem perm_of_set (ha : a ≠ defaultAccount) (hS : ids.toFinset = {defaultAccount, a}) :
    ∃ k n, (List.replicate (k + 1) defaultAccount ++ List.replicate (n + 1) a).Perm ids := by
  have hmem : ∀ id, id ∈ ids ↔ id = defaultAccount ∨ id = a := by
    intro id
    rw [← List.mem_toFinset, hS]
    simp
  have hk := List.count_pos_iff.mpr ((hmem defaultAccount).mpr (.inl rfl))
  have hn := List.count_pos_iff.mpr ((hmem a).mpr (.inr rfl))
  refine ⟨ids.count defaultAccount - 1, ids.count a - 1, List.perm_iff_count.mpr fun id => ?_⟩
  rw [Nat.sub_add_cancel hk, Nat.sub_add_cancel hn, List.count_append, List.count_replicate,
    List.count_replicate]
  by_cases h0 : id = defaultAccount
  · subst h0
    simp [ha]
  · by_cases h1 : id = a
    · subst h1
      simp [Ne.symm h0]
    · have hnot : id ∉ ids := fun hid => ((hmem id).mp hid).elim h0 h1
      simp [Ne.symm h0, Ne.symm h1, List.count_eq_zero_of_not_mem hnot]

/-- The order matters exactly when the accounts are the default account and another one. -/
theorem oneCause_perm_iff (ids : List Int) :
    (∀ ids', ids'.Perm ids → oneCause ids' = oneCause ids) ↔
      ¬∃ a, a ≠ defaultAccount ∧ ids.toFinset = {defaultAccount, a} := by
  constructor
  · rintro hperm ⟨a, ha, hS⟩
    obtain ⟨k, n, hp⟩ := perm_of_set ha hS
    have hfirst : DefaultFirst (List.replicate (k + 1) defaultAccount ++ List.replicate (n + 1) a) :=
      ⟨a, k, n, ha, rfl⟩
    have hlast : oneCause (List.replicate (n + 1) a ++ List.replicate (k + 1) defaultAccount) =
        defaultAccount := by
      rw [List.replicate_succ, List.cons_append, oneCause_cons ha, if_neg]
      exact fun hall => ha (hall defaultAccount (by simp)).symm
    refine hfirst.oneCause_ne ?_
    rw [hperm _ hp, ← hperm _ (List.perm_append_comm.trans hp), hlast]
  · intro hS ids' hperm
    have hset : ids'.toFinset = ids.toFinset := List.toFinset_eq_of_perm _ _ hperm
    have hfirst : ¬DefaultFirst ids := fun h => hS h.set
    have hfirst' : ¬DefaultFirst ids' := fun h => hS (hset ▸ h.set)
    exact Chooses.unique (hset ▸ (oneCause_chooses_iff ids').mpr hfirst')
      ((oneCause_chooses_iff ids).mpr hfirst)

theorem one_eq_length (id : Int) : (1 : Int) = [id].length := rfl

/-- A cause list with one account. -/
def causesOf (type : SplitType) (size : Nat) (id : Int) : CauseList :=
  ⟨type, [id], 1, none, 0, size, -1, List.nodup_singleton id, one_eq_length id⟩

/-- A request with a bio for each of the accounts. -/
def requestFor (ids : List Int) : Mem where
  __ := sampleMem
  lists l := causesOf .data 4096 (ids.getD l defaultAccount)
  rqs _ := ⟨(List.range ids.length).map fun l => ⟨some ⟨l, 4096, [l], 1⟩, 8 * l, 4096⟩, true,
    4096 * ids.length, 0, none⟩

theorem inspected_requestFor (ids : List Int) (rq : Nat) :
    inspected (requestFor ids) ((requestFor ids).rqs rq) = ids := by
  have hscan : inspected (requestFor ids) ((requestFor ids).rqs rq) =
      (List.range ids.length).map fun l => ids.getD l defaultAccount := by
    unfold inspected requestFor
    simp only [List.flatMap_map, bioUniqCauses, Option.elim_some, causesOf]
    exact List.flatMap_pure_eq_map _ _
  rw [hscan]
  refine List.ext_getElem (by simp) fun i hi hi' => ?_
  simp [List.getD, hi']

/-- `get_one_cause` finds the only account on the lists it looks at, or the default account, unless the
default account comes first and then one other account. Its result is the same for every order of the
accounts, unless they are the default account and another one. -/
theorem queue_choice_by_set_iff (m : Mem) (rq : Nat) :
    (Chooses (inspected m (m.rqs rq)).toFinset (getOneCause m rq) ↔
      ¬DefaultFirst (inspected m (m.rqs rq))) ∧
    ((∀ m' rq', (inspected m' (m'.rqs rq')).Perm (inspected m (m.rqs rq)) →
        getOneCause m' rq' = getOneCause m rq) ↔
      ¬∃ a, a ≠ defaultAccount ∧ (inspected m (m.rqs rq)).toFinset = {defaultAccount, a}) := by
  rw [getOneCause_eq]
  refine ⟨oneCause_chooses_iff _, ?_⟩
  rw [← oneCause_perm_iff]
  constructor
  · intro h ids hperm
    have hids := inspected_requestFor ids 0
    rw [← h (requestFor ids) 0 (hids.symm ▸ hperm), getOneCause_eq, hids]
  · intro h m' rq' hperm
    rw [getOneCause_eq]
    exact h _ hperm

/-- Accounts 0 and 7 wrote to a request. It goes to the queue of account 7 if account 0 comes first, and to
the default account's otherwise. -/
theorem default_account_unseen :
    inspected (requestFor [0, 7]) ((requestFor [0, 7]).rqs 0) = [0, 7] ∧
    getOneCause (requestFor [0, 7]) 0 = 7 ∧ ¬Chooses {0, 7} 7 ∧
    inspected (requestFor [7, 0]) ((requestFor [7, 0]).rqs 0) = [7, 0] ∧
    getOneCause (requestFor [7, 0]) 0 = 0 := by
  refine ⟨inspected_requestFor _ _, by decide, fun h => ?_, inspected_requestFor _ _, by decide⟩
  have hseven : (7 : Int) = 0 := h.2 fun a ha => by
    have h0 : (0 : Int) ∈ ({a} : Finset Int) := ha ▸ by decide
    have h7 : (7 : Int) ∈ ({a} : Finset Int) := ha ▸ by decide
    rw [Finset.mem_singleton] at h0 h7
    omega
  omega

/-! ## Who is charged -/

/-- The cause lists that `account_for_bio` charges. -/
def bioCharged (m : Mem) (r : Request) (bio : Bio) : List Nat :=
  match bio.cll with
  | some cll => if (m.lists cll.uniqCauses).itemCount ≠ 0 then cll.items else r.causes.toList
  | none => r.causes.toList

def chargedLists (m : Mem) (r : Request) : List Nat := r.bios.flatMap (bioCharged m r)

/-- The accounts on the lists that `account_for_req` charges. -/
def charged (m : Mem) (r : Request) : List Int :=
  (chargedLists m r).flatMap fun l => (m.lists l).items

/-- From `s` to `s'` the lists are charged one after the other, with statistics in between. -/
inductive Charges (P : Platform) : State → List Nat → State → Prop where
  | done (s : State) : Charges P s [] s
  | stats {s s' : State} {ls : List Nat} (stats : Stats) (h : Charges P { s with stats := stats } ls s') :
      Charges P s ls s'
  | charge {s s' : State} {l : Nat} {ls : List Nat} (offset size : Int)
      (h : Charges P (accountForCauses P s l offset size) ls s') : Charges P s (l :: ls) s'

section

variable {P : Platform} {s s' s'' : State} {ls ls' : List Nat}

theorem Charges.trans (h : Charges P s ls s') (h' : Charges P s' ls' s'') :
    Charges P s (ls ++ ls') s'' := by
  induction h with
  | done s => exact h'
  | stats st _ ih => exact .stats st (ih h')
  | charge offset size _ ih => exact .charge offset size (ih h')

theorem accountForCauses_items (P : Platform) (s : State) (l : Nat) (offset size : Int) :
    (accountForCauses P s l offset size).mem.rqs = s.mem.rqs ∧
    ∀ l', ((accountForCauses P s l offset size).mem.lists l').items = (s.mem.lists l').items := by
  have hset : ∀ c : CauseList, c.items = (s.mem.lists l).items → ∀ l',
      ((s.mem.setList l c).lists l').items = (s.mem.lists l').items := by
    intro c hc l'
    by_cases hl : l' = l
    · subst hl
      rw [Mem.setList_lists_self, hc]
    · rw [Mem.setList_lists_of_ne _ _ hl]
  unfold accountForCauses
  rw [doDiskAccounting_mem]
  split
  · exact ⟨rfl, hset _ rfl⟩
  · split
    · rw [foldl_chargeEstimate_mem]
      exact ⟨rfl, hset _ rfl⟩
    · exact ⟨rfl, fun _ => rfl⟩

theorem Charges.items (h : Charges P s ls s') : s'.mem.rqs = s.mem.rqs ∧
    ∀ l, (s'.mem.lists l).items = (s.mem.lists l).items := by
  induction h with
  | done s => exact ⟨rfl, fun _ => rfl⟩
  | stats st _ ih => exact ih
  | charge offset size _ ih =>
    rename_i s s' l ls _
    obtain ⟨hrqs, hitems⟩ := accountForCauses_items P s l offset size
    exact ⟨ih.1.trans hrqs, fun l' => (ih.2 l').trans (hitems l')⟩

theorem accountForItems_charges (P : Platform) (ls : List Nat) : ∀ (offset : Int) (s : State),
    Charges P s ls (accountForItems P ls offset s) := by
  induction ls with
  | nil => exact fun _ s => .done s
  | cons l ls ih => exact fun offset s => .charge offset _ (ih _ _)

theorem accountForRqCauses_charges (P : Platform) (s : State) (rq : Nat) (offset : Int) (bio : Bio) :
    Charges P s (s.mem.rqs rq).causes.toList (accountForRqCauses P s rq offset bio) := by
  unfold accountForRqCauses
  cases (s.mem.rqs rq).causes with
  | none => exact .done s
  | some l => exact .charge offset bio.biSize (.done _)

theorem accountForBio_charges (P : Platform) (rq : Nat) (s : State) (bio : Bio) :
    Charges P s (bioCharged s.mem (s.mem.rqs rq) bio) (accountForBio P rq s bio) := by
  have hstats : ∀ {s₁ : State} {ls : List Nat}, Charges P s ls s₁ → Charges P s ls
      (if (s₁.mem.rqs rq).write then
        { s₁ with stats := { s₁.stats with diskWrites := s₁.stats.diskWrites + bio.biSize } }
      else { s₁ with stats := { s₁.stats with diskReads := s₁.stats.diskReads + bio.biSize } }) := by
    intro s₁ ls h
    rw [← List.append_nil ls]
    refine h.trans ?_
    split
    · exact .stats _ (.done _)
    · exact .stats _ (.done _)
  unfold accountForBio bioCharged
  refine hstats ?_
  cases bio.cll with
  | none => exact accountForRqCauses_charges P s rq _ bio
  | some cll =>
    simp only
    split
    · exact accountForItems_charges P cll.items _ s
    · exact accountForRqCauses_charges P s rq _ bio

theorem bioCharged_congr {m m' : Mem} (hitems : ∀ l, (m'.lists l).items = (m.lists l).items)
    (r : Request) (bio : Bio) : bioCharged m' r bio = bioCharged m r bio := by
  have hcount : ∀ l, (m'.lists l).itemCount = (m.lists l).itemCount := by
    intro l
    rw [(m'.lists l).count_eq, (m.lists l).count_eq, hitems l]
  unfold bioCharged
  simp only [hcount]

theorem foldl_accountForBio_charges (P : Platform) (rq : Nat) (bios : List Bio) : ∀ s : State,
    Charges P s (bios.flatMap (bioCharged s.mem (s.mem.rqs rq))) (bios.foldl (accountForBio P rq) s) := by
  induction bios with
  | nil => exact fun s => .done s
  | cons bio bios ih =>
    intro s
    have hbio := accountForBio_charges P rq s bio
    obtain ⟨hrqs, hitems⟩ := hbio.items
    rw [List.flatMap_cons, List.foldl_cons]
    refine hbio.trans ?_
    have hrest := ih (accountForBio P rq s bio)
    rw [hrqs, funext (bioCharged_congr hitems (s.mem.rqs rq))] at hrest
    exact hrest

/-- `account_for_req` charges the lists of `chargedLists`. -/
theorem accountForReq_charges (P : Platform) (s : State) (rq : Nat) :
    Charges P s (chargedLists s.mem (s.mem.rqs rq)) (accountForReq P s rq) :=
  foldl_accountForBio_charges P rq (s.mem.rqs rq).bios s

end

/-! ## Choosing and charging -/

/-- The list `uniq_causes` of every bio has the accounts of its cause lists. -/
def Summarised (m : Mem) (r : Request) : Prop :=
  ∀ bio ∈ r.bios, ∀ cll, bio.cll = some cll → ∀ id,
    id ∈ (m.lists cll.uniqCauses).items ↔ ∃ l ∈ cll.items, id ∈ (m.lists l).items

/-- The account is on the list that a bio without accounts of its own falls back on. -/
def OnRequest (m : Mem) (r : Request) (id : Int) : Prop := ∃ l, r.causes = some l ∧ id ∈ (m.lists l).items

/-- The account is on the lists of a bio. -/
def OnBio (m : Mem) (r : Request) (id : Int) : Prop :=
  ∃ bio ∈ r.bios, ∃ cll, bio.cll = some cll ∧ id ∈ (m.lists cll.uniqCauses).items

/-- If a bio has cause lists that name nobody, the accounts of the request are on some bio's lists, or there
is a bio without lists. -/
def FallbackSeen (m : Mem) (r : Request) : Prop :=
  (∃ bio ∈ r.bios, ∃ cll, bio.cll = some cll ∧ (m.lists cll.uniqCauses).items = []) →
    (∃ bio ∈ r.bios, bio.cll = none) ∨ ∀ id, OnRequest m r id → OnBio m r id

section

variable {m : Mem} {r : Request}

theorem mem_inspected (id : Int) : id ∈ inspected m r ↔
    OnBio m r id ∨ (∃ bio ∈ r.bios, bio.cll = none) ∧ OnRequest m r id := by
  unfold inspected
  rw [List.mem_flatMap]
  constructor
  · rintro ⟨bio, hbio, hid⟩
    unfold bioUniqCauses at hid
    cases hcll : bio.cll with
    | some cll =>
      rw [hcll] at hid
      exact .inl ⟨bio, hbio, cll, hcll, hid⟩
    | none =>
      rw [hcll] at hid
      cases hr : r.causes with
      | none =>
        rw [hr] at hid
        cases hid
      | some l =>
        rw [hr] at hid
        exact .inr ⟨⟨bio, hbio, hcll⟩, l, hr, hid⟩
  · rintro (⟨bio, hbio, cll, hcll, hid⟩ | ⟨⟨bio, hbio, hcll⟩, l, hr, hid⟩)
    · refine ⟨bio, hbio, ?_⟩
      rw [bioUniqCauses, hcll]
      exact hid
    · refine ⟨bio, hbio, ?_⟩
      rw [bioUniqCauses, hcll]
      simp only [hr]
      exact hid

theorem mem_items_toList (id : Int) :
    (∃ l ∈ r.causes.toList, id ∈ (m.lists l).items) ↔ OnRequest m r id := by
  simp only [Option.mem_toList]
  rfl

theorem mem_bioCharged (h : Summarised m r) {bio : Bio} (hbio : bio ∈ r.bios) (id : Int) :
    (∃ l ∈ bioCharged m r bio, id ∈ (m.lists l).items) ↔
      (∃ cll, bio.cll = some cll ∧ id ∈ (m.lists cll.uniqCauses).items) ∨
      (bio.cll = none ∨ ∃ cll, bio.cll = some cll ∧ (m.lists cll.uniqCauses).items = []) ∧
        OnRequest m r id := by
  unfold bioCharged
  cases hcll : bio.cll with
  | none =>
    simp only [mem_items_toList]
    simp
  | some cll =>
    have hcount : (m.lists cll.uniqCauses).itemCount ≠ 0 ↔ (m.lists cll.uniqCauses).items ≠ [] := by
      rw [(m.lists cll.uniqCauses).count_eq]
      simp
    simp only
    by_cases hempty : (m.lists cll.uniqCauses).items = []
    · rw [if_neg (fun hc => hcount.mp hc hempty), mem_items_toList]
      simp [hempty]
    · rw [if_pos (hcount.mpr hempty), ← h bio hbio cll hcll id]
      simp [hempty]

theorem mem_charged (h : Summarised m r) (id : Int) : id ∈ charged m r ↔
    OnBio m r id ∨ ((∃ bio ∈ r.bios, bio.cll = none) ∨
      ∃ bio ∈ r.bios, ∃ cll, bio.cll = some cll ∧ (m.lists cll.uniqCauses).items = []) ∧
        OnRequest m r id := by
  have hbios : id ∈ charged m r ↔ ∃ bio ∈ r.bios, ∃ l ∈ bioCharged m r bio, id ∈ (m.lists l).items := by
    unfold charged chargedLists
    simp only [List.mem_flatMap]
    constructor
    · rintro ⟨l, ⟨bio, hbio, hl⟩, hid⟩
      exact ⟨bio, hbio, l, hl, hid⟩
    · rintro ⟨bio, hbio, l, hl, hid⟩
      exact ⟨l, ⟨bio, hbio, hl⟩, hid⟩
  rw [hbios]
  constructor
  · rintro ⟨bio, hbio, hid⟩
    rcases (mem_bioCharged h hbio id).mp hid with ⟨cll, hcll, hid⟩ | ⟨hnone | hempty, hrq⟩
    · exact .inl ⟨bio, hbio, cll, hcll, hid⟩
    · exact .inr ⟨.inl ⟨bio, hbio, hnone⟩, hrq⟩
    · exact .inr ⟨.inr ⟨bio, hbio, hempty⟩, hrq⟩
  · rintro (⟨bio, hbio, hid⟩ | ⟨⟨bio, hbio, hnone⟩ | ⟨bio, hbio, hempty⟩, hrq⟩)
    · exact ⟨bio, hbio, (mem_bioCharged h hbio id).mpr (.inl hid)⟩
    · exact ⟨bio, hbio, (mem_bioCharged h hbio id).mpr (.inr ⟨.inl hnone, hrq⟩)⟩
    · exact ⟨bio, hbio, (mem_bioCharged h hbio id).mpr (.inr ⟨.inr hempty, hrq⟩)⟩

end

/-- The accounts that `get_one_cause` looks at are the accounts on the lists that `account_for_req` charges,
exactly when a bio whose cause lists name nobody brings in no account by its fallback. -/
theorem choice_inspects_charged_iff (m : Mem) (r : Request) (h : Summarised m r) :
    (∀ id, id ∈ inspected m r ↔ id ∈ charged m r) ↔ FallbackSeen m r := by
  simp only [mem_inspected, mem_charged h]
  constructor
  · intro heq hempty
    by_cases hnone : ∃ bio ∈ r.bios, bio.cll = none
    · exact .inl hnone
    · refine .inr fun id hrq => ?_
      rcases (heq id).mpr (.inr ⟨.inr hempty, hrq⟩) with hbio | ⟨hbio, -⟩
      · exact hbio
      · exact absurd hbio hnone
  · intro hseen id
    constructor
    · rintro (hbio | ⟨hnone, hrq⟩)
      · exact .inl hbio
      · exact .inr ⟨.inl hnone, hrq⟩
    · rintro (hbio | ⟨hnone | hempty, hrq⟩)
      · exact .inl hbio
      · exact .inr ⟨hnone, hrq⟩
      · rcases hseen hempty with hnone | hall
        · exact .inr ⟨hnone, hrq⟩
        · exact .inl (hall id hrq)

/-- A cause list that names nobody. -/
def noCauses (type : SplitType) (size : Nat) : CauseList :=
  ⟨type, [], 0, none, 0, size, -1, List.nodup_nil, CauseList.new.count_eq⟩

/-- A write of two bios. The first one has a page of account 7; the second one is a page of zeros, with
the cause list that `add_causes_zero_to_bio` makes. The request is in the hands of account `cur`. -/
def zeroedRequest (cur : Int) : Mem where
  __ := sampleMem
  lists l :=
    if l = 0 then causesOf .unknown 0 cur
    else if l = 1 ∨ l = 2 then causesOf .data 4096 7
    else noCauses (if l = 3 then .unknown else .zero) 4096
  rqs _ := ⟨[⟨some ⟨1, 4096, [2], 128⟩, 0, 4096⟩, ⟨some ⟨3, 4096, [4], 128⟩, 8, 4096⟩], true, 8192, 0,
    some 0⟩

theorem zeroedRequest_summarised (cur : Int) :
    Summarised (zeroedRequest cur) ((zeroedRequest cur).rqs 0) := by
  intro bio hbio cll hcll id
  simp only [zeroedRequest, List.mem_cons, List.not_mem_nil, or_false] at hbio
  rcases hbio with rfl | rfl
  · cases hcll
    simp [zeroedRequest, causesOf]
  · cases hcll
    simp [zeroedRequest, noCauses]

/-- Account 7 itself hands in the request. -/
theorem choice_inspects_charged_own_zeros :
    Summarised (zeroedRequest 7) ((zeroedRequest 7).rqs 0) ∧
    ((∀ id, id ∈ inspected (zeroedRequest 7) ((zeroedRequest 7).rqs 0) ↔
        id ∈ charged (zeroedRequest 7) ((zeroedRequest 7).rqs 0)) ↔
      FallbackSeen (zeroedRequest 7) ((zeroedRequest 7).rqs 0)) :=
  ⟨zeroedRequest_summarised 7, choice_inspects_charged_iff _ _ (zeroedRequest_summarised 7)⟩

/-- Account 9 hands in the request, say for writeback. The request is on the queue of account 7, and account
9 is charged for the zeros. -/
theorem zeros_charged_to_another :
    Summarised (zeroedRequest 9) ((zeroedRequest 9).rqs 0) ∧
    getOneCause (zeroedRequest 9) 0 = 7 ∧
    inspected (zeroedRequest 9) ((zeroedRequest 9).rqs 0) = [7] ∧
    charged (zeroedRequest 9) ((zeroedRequest 9).rqs 0) = [7, 9] ∧
    ∃ s, tbucketInitQueue .lp64 (zeroedRequest 9) sampleEnv = some s ∧
      (accountForReq .lp64 s 0).estimate 9 = 4096 := by
  have h : (tbucketInitQueue .lp64 (zeroedRequest 9) sampleEnv).any
      (fun s => (accountForReq .lp64 s 0).estimate 9 = 4096) = true := by
    decide +kernel
  obtain ⟨s, hs, hest⟩ := (Option.any_eq_true _ _).mp h
  exact ⟨zeroedRequest_summarised 9, by decide +kernel, by decide +kernel, by decide +kernel, s, hs,
    of_decide_eq_true hest⟩

end Tb
end SplitSched
