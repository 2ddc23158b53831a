import SplitSched.Afq.Account
import SplitSched.Block.Extents

/-!
# SplitSched.Afq.Accounting

How the AFQ scheduler charges disk I/O (acct_afq_sched.c): `do_disk_accounting` with its flush,
`account_for_causes`, `account_for_bio`, `afq_account_request2`, and the dirty and free hooks.

`get_account` returns a null pointer when it cannot create an account, and these functions
dereference it: `none` is that crash.

`Charges exts s s'` says what none of them touches, the work that waits, the lists of accounts, the
batches and the requests in flight, and which extents `exts` they add to the global batch. It is
proved once for every function; `afqAccountRequest2_charges` names the extents of a request.
-/

namespace SplitSched
namespace Afq

open CArith

/-! ## Disk accounting -/

/-- Get an account and work on it. -/
def withAccount (P : Platform) (f : State → Int → State) (s : State) (id : Int) : Option State :=
  let r := getAccount P s id
  match r.1 with
  | some acct => some (f r.2 acct)
  | none => none

def addToGlobalBatch (P : Platform) (s : State) (offset size : Int) : State :=
  { s with
    simBatch := (iobatchAddRequest P s.simBatch offset size).2
    adds := s.adds ++ [⟨offset, size⟩] }

def batchExtent (P : Platform) (offset size share : Int) (a : Account) : Account :=
  { a with
    simBatch := (iobatchAddRequest P a.simBatch offset size).2
    batchEstimate := P.ulong (a.batchEstimate + share) }

def addToAccountBatch (P : Platform) (offset size share : Int) (s : State) (acct : Int) : State :=
  s.modifyAccount acct (batchExtent P offset size share)

/-- The loop of `do_disk_accounting` over the accounts of a list: whether a batch is full. -/
def addToBatches (P : Platform) (offset size share : Int) :
    List Int → Bool × State → Option (Bool × State)
  | [], r => some r
  | id :: ids, (full, s) =>
    match withAccount P (addToAccountBatch P offset size share) s id with
    | none => none
    | some s =>
      addToBatches P offset size share ids
        (full || s.accounts.val (fun a => iobatchFull a.simBatch) false id, s)

def summedCost (P : Platform) (accounts : Registry Int Account) : Int :=
  accounts.keys.foldl
    (fun sum id => P.ulong (sum + accounts.val (fun a => (iobatchGetCost P a.simBatch).1) 0 id)) 0

/-- `iobatch_get_cost` sorts a batch and caches its cost. -/
def priceBatch (P : Platform) (a : Account) : Account :=
  { a with simBatch := (iobatchGetCost P a.simBatch).2 }

def clearBatch (P : Platform) (a : Account) : Account :=
  { a with batchEstimate := 0, simBatch := iobatchClear P a.simBatch }

/-- The flush of one account: charge by the disk model, refund the estimate. -/
def flushAccount (P : Platform) (combinedCost summedCost : Int) (s : State) (acct : Int) : State :=
  let basicCharge := s.accounts.val (fun a => (iobatchGetCost P a.simBatch).1) 0 acct
  let adjustedCharge :=
    P.ulong (safeDiv (P.long (P.ulong (combinedCost * basicCharge))) (P.long summedCost))
  let s := if adjustedCharge ≠ 0 then addVioCounter P s acct else s
  let s := addEstimateVio P s acct (P.int (P.ulong (-s.batchEstimate acct)))
  s.modifyAccount acct (clearBatch P)

/-- The branch of `do_disk_accounting` taken when a batch is full. -/
def flush (P : Platform) (s : State) : State :=
  let combined := iobatchGetCost P s.simBatch
  let summed := summedCost P s.accounts
  s.accounts.keys.foldl (flushAccount P combined.1 summed)
    { s with
      diskFullCount := s.diskFullCount + 1
      simBatch := iobatchClear P combined.2
      accounts := s.accounts.map (priceBatch P) }

def doDiskAccounting (P : Platform) (s : State) (l : Nat) (offset : Int) : Option State :=
  let causes := s.mem.lists l
  let size := P.int causes.size
  let causesCost := P.int (causesGetCost causes)
  let s := addToGlobalBatch P s offset size
  match addToBatches P offset size (safeDiv causesCost causes.itemCount) causes.items
      (iobatchFull s.simBatch, s) with
  | none => none
  | some (full, s) => some (if full then flush P s else s)

/-! ## Charging a request -/

/-- The loops that charge the accounts of a list `amt` of their id. -/
def chargeAll (P : Platform) (amt : Int → Int) (ids : List Int) (s : State) : Option State :=
  ids.foldlM (withAccount P fun s acct => addEstimateVio P s acct (amt acct)) s

def State.setList (s : State) (l : Nat) (c : CauseList) : State :=
  { s with mem := s.mem.setList l c }

def accountForCauses (P : Platform) (s : State) (l : Nat) (offset size : Int) : Option State :=
  let causes := s.mem.lists l
  let s :=
    if causes.callbackQ ≠ none then some (s.setList l { causes with callbackQ := none })
    else if 0 < causes.itemCount then
      let amt := P.int (safeDiv (P.long size) causes.itemCount)
      chargeAll P (fun _ => amt) causes.items (s.setList l (causesSetCost causes (P.long size)))
    else some s
  match s with
  | none => none
  | some s => doDiskAccounting P s l offset

/-- Charge a list, and note the position of the request with its accounts. -/
def accountForList (P : Platform) (rq : Nat) (s : State) (l : Nat) (offset size : Int) :
    Option State :=
  match accountForCauses P s l offset size with
  | none => none
  | some s =>
    (s.mem.lists l).items.foldlM
      (withAccount P fun s acct => afqAccoutPosSeqUpdate P s acct rq) s

/-- The loop of `account_for_bio` over the cause lists of a bio. -/
def accountForItems (P : Platform) (rq : Nat) : List Nat → Int → State → Option State
  | [], _, s => some s
  | l :: ls, offset, s =>
    match accountForList P rq s l offset (s.mem.lists l).size with
    | none => none
    | some s => accountForItems P rq ls (offset + (s.mem.lists l).size) s

/-- What `account_for_bio` charges when the bio's own cause lists name nobody. -/
def accountForRqCauses (P : Platform) (rq : Nat) (s : State) (offset : Int) (bio : Bio) :
    Option State :=
  match (s.mem.rqs rq).causes with
  | some l => accountForList P rq s l offset bio.biSize
  | none => some s

def accountForBio (P : Platform) (rq : Nat) (s : State) (bio : Bio) : Option State :=
  let offset : Int := bio.biSector * 512
  match bio.cll with
  | some cll =>
    if (s.mem.lists cll.uniqCauses).itemCount ≠ 0 then accountForItems P rq cll.items offset s
    else accountForRqCauses P rq s offset bio
  | none => accountForRqCauses P rq s offset bio

def afqAccountRequest2 (P : Platform) (s : State) (rq : Nat) : Option State :=
  (s.mem.rqs rq).bios.foldlM (accountForBio P rq) s

/-! ## Dirty buffers -/

def basicSchedCausesDirty (P : Platform) (s : State) (l : Nat) (newId : Int) (inode : Nat)
    (pos : Int) : Option State :=
  let causes := s.mem.lists l
  let totCost := dirtyCost P s.mem l inode pos
  chargeAll P (dirtyCharge P totCost causes.itemCount newId) causes.items
    { s with mem := dirtyMem P s.mem l inode pos }

/-- The refund goes to `add_vio_counter`, which does not look at it. -/
def basicSchedCausesFree (P : Platform) (s : State) (l : Nat) : Option State :=
  (s.mem.lists l).items.foldlM (withAccount P (addVioCounter P)) s

/-- A task dirties a buffer of `bSize` bytes whose cause list is `l`. -/
def dirtyBuffer (P : Platform) (s : State) (q l : Nat) (task : Task) (bSize inode : Nat)
    (pos : Int) : Option State :=
  let r := commitWriteHook s.env s.mem q l task bSize
  let s := { s with mem := r.2.1, env := r.2.2 }
  if r.1 then basicSchedCausesDirty P s l task.accountId inode pos else some s

/-- `free_cause_list`, up to the release of the memory. -/
def freeCauseList (P : Platform) (s : State) (l : Nat) : Option State :=
  if freeNotifies s.mem l then basicSchedCausesFree P s l else some s

/-! ## What charging leaves alone -/

variable {P : Platform} {s s' s'' : State} {exts exts' : List IORequest}

structure Charges (exts : List IORequest) (s s' : State) : Prop where
  keys : ∀ id ∈ s.accounts.keys, id ∈ s'.accounts.keys := by exact fun _ h => h
  workList : s'.workList = s.workList := by rfl
  activeAcctList : s'.activeAcctList = s.activeAcctList := by rfl
  inflight : s'.inflight = s.inflight := by rfl
  descs : s'.descs = s.descs := by rfl
  batches : s'.batches = s.batches := by rfl
  nextBatch : s'.nextBatch = s.nextBatch := by rfl
  accepted : s'.accepted = s.accepted := by rfl
  submitted : s'.submitted = s.submitted := by rfl
  sorted : s'.sorted = s.sorted := by rfl
  adds : s'.adds = s.adds ++ exts := by exact (List.append_nil _).symm
  rqs : s'.mem.rqs = s.mem.rqs := by rfl
  items : ∀ l, (s'.mem.lists l).items = (s.mem.lists l).items := by exact fun _ => rfl
  size : ∀ l, (s'.mem.lists l).size = (s.mem.lists l).size := by exact fun _ => rfl
  memory : s'.env.memory = s.env.memory := by rfl

namespace Charges

theorem refl (s : State) : Charges [] s s := {}

theorem trans (h : Charges exts s s') (h' : Charges exts' s' s'') : Charges (exts ++ exts') s s'' where
  keys id hid := h'.keys id (h.keys id hid)
  workList := h'.workList.trans h.workList
  activeAcctList := h'.activeAcctList.trans h.activeAcctList
  inflight := h'.inflight.trans h.inflight
  descs := h'.descs.trans h.descs
  batches := h'.batches.trans h.batches
  nextBatch := h'.nextBatch.trans h.nextBatch
  accepted := h'.accepted.trans h.accepted
  submitted := h'.submitted.trans h.submitted
  sorted := h'.sorted.trans h.sorted
  adds := by rw [h'.adds, h.adds, List.append_assoc]
  rqs := h'.rqs.trans h.rqs
  items l := (h'.items l).trans (h.items l)
  size l := (h'.size l).trans (h.size l)
  memory := h'.memory.trans h.memory

/-- Go on without adding extents. -/
theorem keep (h : Charges exts s s') (h' : Charges [] s' s'') : Charges exts s s'' := by
  simpa using h.trans h'

theorem plenty (h : Charges exts s s') (hm : s.env.Plenty) : s'.env.Plenty := by
  intro n
  rw [h.memory]
  exact hm n

theorem of_setList {l : Nat} {c : CauseList} (hi : c.items = (s.mem.lists l).items)
    (hs : c.size = (s.mem.lists l).size) : Charges [] s (s.setList l c) where
  __ := refl s
  items l' := by
    rcases eq_or_ne l' l with rfl | hl
    · simp [State.setList, hi]
    · simp [State.setList, Mem.setList_lists_of_ne _ _ hl]
  size l' := by
    rcases eq_or_ne l' l with rfl | hl
    · simp [State.setList, hs]
    · simp [State.setList, Mem.setList_lists_of_ne _ _ hl]

theorem of_modify {id : Int} {f : Account → Account} (hf : ∀ a, (f a).ioWorkList = a.ioWorkList) :
    Charges [] s (s.modifyAccount id f) where
  __ := refl s
  workList := Registry.val_modify_keep hf

/-- A loop no round of which adds extents. -/
theorem of_foldlM {α : Type} {f : State → α → Option State}
    (hf : ∀ s x s', f s x = some s' → Charges [] s s') (xs : List α) (h : xs.foldlM f s = some s') :
    Charges [] s s' :=
  foldlM_rel refl (fun h h' => h.keep h') hf xs h

theorem bioExtents_eq (h : Charges exts s s') (r : Request) (bio : Bio) :
    bioExtents P s'.mem r bio = bioExtents P s.mem r bio :=
  bioExtents_congr h.size h.items bio

end Charges

theorem newAccount_some {jiffies : Int} {env : Env} {id : Int} {a : Account}
    (h : (newAccount P jiffies env id).1 = some a) :
    a.accountId = id ∧ a.ioWorkList = [] ∧ a.estimate = 0 ∧ a.batchEstimate = 0 := by
  simp only [newAccount] at h
  split at h
  · cases h
    exact ⟨rfl, rfl, rfl, rfl⟩
  · cases h

theorem newAccount_memory (P : Platform) (jiffies : Int) (env : Env) (id : Int) :
    (newAccount P jiffies env id).2.memory = env.memory := by
  simp only [newAccount]
  split <;> rfl

/-- Everything `get_account` can do. -/
theorem getAccount_cases (P : Platform) (s : State) (id : Int) :
    (id ∈ s.accounts.keys ∧ getAccount P s id = (some id, s)) ∨
    (id ∉ s.accounts.keys ∧ ∃ a, (newAccount P s.mem.jiffies s.env id).1 = some a ∧
      getAccount P s id = (some id,
        { s with
          accounts := s.accounts.insert (.byRank P.bucket) id a
          env := (newAccount P s.mem.jiffies s.env id).2 })) ∨
    (id ∉ s.accounts.keys ∧ (newAccount P s.mem.jiffies s.env id).1 = none ∧
      getAccount P s id =
        (none, { s with env := (newAccount P s.mem.jiffies s.env id).2 })) := by
  by_cases h : id ∈ s.accounts.keys
  · exact .inl ⟨h, by simp [getAccount, h]⟩
  · cases ha : (newAccount P s.mem.jiffies s.env id).1 with
    | none => exact .inr (.inr ⟨h, rfl, by simp [getAccount, h, ha]⟩)
    | some a =>
      exact .inr (.inl ⟨h, a, rfl, by simp [getAccount, h, ha, (newAccount_some ha).1]⟩)

theorem getAccount_val {β : Type} {g : Account → β} {d : β} {id : Int}
    (hg : ∀ a, (newAccount P s.mem.jiffies s.env id).1 = some a → g a = d) :
    (getAccount P s id).2.accounts.val g d = s.accounts.val g d := by
  rcases getAccount_cases P s id with ⟨-, h⟩ | ⟨-, a, ha, h⟩ | ⟨-, -, h⟩
  · rw [h]
  · rw [h]
    exact Registry.val_insert (hg a ha)
  · rw [h]

theorem getAccount_charges (P : Platform) (s : State) (id : Int) :
    Charges [] s (getAccount P s id).2 := by
  have hw : (getAccount P s id).2.workList = s.workList :=
    getAccount_val fun a ha => (newAccount_some ha).2.1
  have hm := newAccount_memory P s.mem.jiffies s.env id
  rcases getAccount_cases P s id with ⟨-, h⟩ | ⟨-, a, -, h⟩ | ⟨-, -, h⟩
  · rw [h]
    exact .refl s
  · rw [h] at hw ⊢
    exact
      { Charges.refl s with
        keys := fun j hj => (Registry.mem_keys_insert _ _ _ _ _).mpr (.inr hj)
        workList := hw
        memory := hm }
  · rw [h]
    exact { Charges.refl s with memory := hm }

theorem getAccount_some {id acct : Int} (h : (getAccount P s id).1 = some acct) :
    acct = id ∧ id ∈ (getAccount P s id).2.accounts.keys := by
  rcases getAccount_cases P s id with ⟨hid, hs⟩ | ⟨-, a, -, hs⟩ | ⟨-, -, hs⟩
  · rw [hs] at h ⊢
    cases h
    exact ⟨rfl, hid⟩
  · rw [hs] at h ⊢
    cases h
    exact ⟨rfl, (Registry.mem_keys_insert _ _ _ _ _).mpr (.inl rfl)⟩
  · rw [hs] at h
    cases h

/-- With memory to spare, `get_account` returns the account asked for. -/
theorem getAccount_plenty (hm : s.env.Plenty) (id : Int) : (getAccount P s id).1 = some id := by
  rcases getAccount_cases P s id with ⟨-, h⟩ | ⟨-, a, -, h⟩ | ⟨-, hn, -⟩
  · rw [h]
  · rw [h]
  · simp [newAccount, hm.kmalloc] at hn

theorem withAccount_some {f : State → Int → State} {id : Int}
    (h : withAccount P f s id = some s') : s' = f (getAccount P s id).2 id := by
  simp only [withAccount] at h
  split at h
  · rename_i acct ha
    cases h
    rw [(getAccount_some ha).1]
  · cases h

theorem withAccount_charges {f : State → Int → State} (hf : ∀ s id, Charges [] s (f s id)) {id : Int}
    (h : withAccount P f s id = some s') : Charges [] s s' := by
  rw [withAccount_some h]
  exact (getAccount_charges P s id).keep (hf _ _)

theorem updateActiveMin_charges (P : Platform) (s : State) : Charges [] s (updateActiveMin P s) := by
  simp only [updateActiveMin]
  split
  · exact { Charges.refl s with }
  · exact .refl s

theorem resetVioCounters_charges (s : State) : Charges [] s (resetVioCounters s) where
  __ := Charges.refl s
  workList := Registry.val_map_keep (f := resetVio) fun _ => rfl

theorem addVioCounter_charges (P : Platform) (s : State) (acct : Int) :
    Charges [] s (addVioCounter P s acct) := by
  have h₁ : Charges [] s (s.modifyAccount acct (chargeVio P)) := .of_modify fun _ => rfl
  simp only [addVioCounter]
  split <;> split
  · exact (h₁.keep (updateActiveMin_charges P _)).keep (resetVioCounters_charges _)
  · exact h₁.keep (updateActiveMin_charges P _)
  · exact h₁.keep (resetVioCounters_charges _)
  · exact h₁

theorem addEstimateVio_charges (P : Platform) (s : State) (acct quantity : Int) :
    Charges [] s (addEstimateVio P s acct quantity) :=
  (Charges.of_modify (f := bumpEstimate P quantity) fun _ => rfl).keep
    (addVioCounter_charges P _ acct)

theorem chargeAll_charges {amt : Int → Int} {ids : List Int} (h : chargeAll P amt ids s = some s') :
    Charges [] s s' :=
  Charges.of_foldlM (fun _ _ _ => withAccount_charges fun s id => addEstimateVio_charges P s id _)
    ids h

/-- What every round of the loop respects, the loop respects. -/
theorem addToBatches_rel {R : State → State → Prop} (hrefl : ∀ s, R s s)
    (htrans : ∀ {s s' s''}, R s s' → R s' s'' → R s s'') {offset size share : Int}
    (hround : ∀ {s s' id}, withAccount P (addToAccountBatch P offset size share) s id = some s' → R s s')
    (ids : List Int) : ∀ {r r' : Bool × State}, addToBatches P offset size share ids r = some r' →
      R r.2 r'.2 := by
  induction ids with
  | nil =>
    intro r r' h
    cases h
    exact hrefl r.2
  | cons id ids ih =>
    rintro ⟨full, s⟩ r' h
    simp only [addToBatches] at h
    split at h
    · cases h
    · rename_i t ht
      exact htrans (hround ht) (ih h)

theorem addToBatches_charges {offset size share : Int} (ids : List Int) {r r' : Bool × State}
    (h : addToBatches P offset size share ids r = some r') : Charges [] r.2 r'.2 := by
  have hadd : ∀ s id, Charges [] s (addToAccountBatch P offset size share s id) := fun s id =>
    .of_modify (f := batchExtent P offset size share) fun _ => rfl
  exact addToBatches_rel .refl (fun h h' => h.keep h') (withAccount_charges hadd) ids h

theorem flushAccount_charges (P : Platform) (combined summed : Int) (s : State) (acct : Int) :
    Charges [] s (flushAccount P combined summed s acct) := by
  simp only [flushAccount]
  refine Charges.keep ?_ (.of_modify (f := clearBatch P) fun _ => rfl)
  refine Charges.keep ?_ (addEstimateVio_charges P _ acct _)
  split
  · exact addVioCounter_charges P s acct
  · exact .refl s

theorem flush_charges (P : Platform) (s : State) : Charges [] s (flush P s) := by
  have hfold : ∀ (combined summed : Int) (ids : List Int) (s : State),
      Charges [] s (ids.foldl (flushAccount P combined summed) s) := fun combined summed =>
    foldl_rel .refl (fun h h' => h.keep h') (flushAccount_charges P combined summed)
  simp only [flush]
  refine Charges.keep ?_ (hfold _ _ _ _)
  exact { Charges.refl s with workList := Registry.val_map_keep (f := priceBatch P) fun _ => rfl }

/-- Disk accounting adds one extent, of the size of the cause list. -/
theorem doDiskAccounting_charges {l : Nat} {offset : Int}
    (h : doDiskAccounting P s l offset = some s') :
    Charges [⟨offset, P.int (s.mem.lists l).size⟩] s s' := by
  simp only [doDiskAccounting] at h
  split at h
  · cases h
  · rename_i full t ht
    cases h
    have hglobal : Charges [⟨offset, P.int (s.mem.lists l).size⟩] s
        (addToGlobalBatch P s offset (P.int (s.mem.lists l).size)) := { Charges.refl s with adds := rfl }
    have hb := hglobal.keep (addToBatches_charges _ ht)
    split
    · exact hb.keep (flush_charges P t)
    · exact hb

theorem accountForCauses_charges {l : Nat} {offset size : Int}
    (h : accountForCauses P s l offset size = some s') :
    Charges [⟨offset, P.int (s.mem.lists l).size⟩] s s' := by
  simp only [accountForCauses] at h
  split at h
  · cases h
  · rename_i t ht
    have hpre : Charges [] s t := by
      split_ifs at ht
      · cases ht
        exact .of_setList rfl rfl
      · have hcost : Charges [] s (s.setList l (causesSetCost (s.mem.lists l) (P.long size))) :=
          .of_setList rfl rfl
        exact hcost.keep (chargeAll_charges ht)
      · cases ht
        exact .refl s
    have hdisk := doDiskAccounting_charges h
    rw [hpre.size] at hdisk
    exact hpre.trans hdisk

theorem afqAccoutPosSeqUpdate_charges (P : Platform) (s : State) (acct : Int) (rq : Nat) :
    Charges [] s (afqAccoutPosSeqUpdate P s acct rq) := by
  simp only [afqAccoutPosSeqUpdate]
  split
  · exact .refl s
  · split
    · exact .refl s
    · have hpos : Charges [] s (s.modifyAccount acct
          (posSeqUpdate P s.mem.jiffies (s.mem.rqs rq).pos)) := .of_modify fun _ => rfl
      exact { hpos with }

theorem accountForList_charges {rq l : Nat} {offset size : Int}
    (h : accountForList P rq s l offset size = some s') :
    Charges [⟨offset, P.int (s.mem.lists l).size⟩] s s' := by
  simp only [accountForList] at h
  split at h
  · cases h
  · rename_i t ht
    exact (accountForCauses_charges ht).keep (Charges.of_foldlM
      (fun _ _ _ => withAccount_charges fun s id => afqAccoutPosSeqUpdate_charges P s id rq) _ h)

theorem accountForItems_charges {rq : Nat} (ls : List Nat) :
    ∀ {offset : Int} {s s' : State}, accountForItems P rq ls offset s = some s' →
      Charges (listExtents P s.mem ls offset) s s' := by
  induction ls with
  | nil =>
    intro offset s s' h
    cases h
    exact .refl s
  | cons l ls ih =>
    intro offset s s' h
    simp only [accountForItems] at h
    split at h
    · cases h
    · rename_i t ht
      have hl := accountForList_charges ht
      have htail := ih h
      rw [hl.size, listExtents_congr hl.size] at htail
      exact hl.trans htail

theorem accountForRqCauses_charges {rq : Nat} {bio : Bio}
    (h : accountForRqCauses P rq s (bio.biSector * 512) bio = some s') :
    Charges (rqExtents P s.mem (s.mem.rqs rq) bio) s s' := by
  simp only [accountForRqCauses] at h
  split at h
  · rename_i l hl
    simp only [rqExtents, hl]
    exact accountForList_charges h
  · rename_i hl
    cases h
    simp only [rqExtents, hl]
    exact .refl s

theorem accountForBio_charges {rq : Nat} {bio : Bio} (h : accountForBio P rq s bio = some s') :
    Charges (bioExtents P s.mem (s.mem.rqs rq) bio) s s' := by
  simp only [accountForBio] at h
  simp only [bioExtents]
  cases hcll : bio.cll with
  | none =>
    rw [hcll] at h
    exact accountForRqCauses_charges h
  | some cll =>
    simp only [hcll] at h ⊢
    split at h
    · rename_i hc
      rw [if_pos hc]
      exact accountForItems_charges _ h
    · rename_i hc
      rw [if_neg hc]
      exact accountForRqCauses_charges h

/-- The loop over the bios of a request adds the extents of each in turn. -/
theorem accountForBios_charges {rq : Nat} (bios : List Bio) :
    ∀ {s s' : State}, bios.foldlM (accountForBio P rq) s = some s' →
      Charges (bios.flatMap (bioExtents P s.mem (s.mem.rqs rq))) s s' := by
  induction bios with
  | nil =>
    intro s s' h
    cases h
    exact .refl s
  | cons bio bios ih =>
    intro s s' h
    rw [List.foldlM_cons] at h
    obtain ⟨t, ht, h⟩ := Option.bind_eq_some_iff.mp h
    have hbio := accountForBio_charges ht
    have htail := ih h
    rw [hbio.rqs, funext (hbio.bioExtents_eq (s.mem.rqs rq))] at htail
    rw [List.flatMap_cons]
    exact hbio.trans htail

theorem afqAccountRequest2_charges {rq : Nat} (h : afqAccountRequest2 P s rq = some s') :
    Charges ((s.mem.rqs rq).bios.flatMap (bioExtents P s.mem (s.mem.rqs rq))) s s' :=
  accountForBios_charges _ h

theorem basicSchedCausesFree_charges {l : Nat} (h : basicSchedCausesFree P s l = some s') :
    Charges [] s s' :=
  Charges.of_foldlM (fun _ _ _ => withAccount_charges (addVioCounter_charges P)) _ h

/-! ## With memory to spare

No pointer is null when every allocation succeeds, so the functions return. -/

theorem withAccount_total (hm : s.env.Plenty) (f : State → Int → State) (id : Int) :
    ∃ s', withAccount P f s id = some s' := by
  simp only [withAccount, getAccount_plenty hm]
  exact ⟨_, rfl⟩

theorem foldlM_total {α : Type} {f : State → α → Option State}
    (hf : ∀ s x, s.env.Plenty → ∃ s', f s x = some s')
    (hp : ∀ s x s', f s x = some s' → s.env.Plenty → s'.env.Plenty) (xs : List α) :
    ∀ {s : State}, s.env.Plenty → ∃ s', xs.foldlM f s = some s' := by
  induction xs with
  | nil => exact fun {s} _ => ⟨s, rfl⟩
  | cons x xs ih =>
    intro s hm
    obtain ⟨t, ht⟩ := hf s x hm
    obtain ⟨s', hs'⟩ := ih (hp s x t ht hm)
    exact ⟨s', by rw [List.foldlM_cons, ht]; exact hs'⟩

theorem chargeAll_total (hm : s.env.Plenty) (amt : Int → Int) (ids : List Int) :
    ∃ s', chargeAll P amt ids s = some s' :=
  foldlM_total (fun _ id hm => withAccount_total hm _ id)
    (fun _ _ _ h => (withAccount_charges (fun s id => addEstimateVio_charges P s id _) h).plenty)
    ids hm

theorem addToBatches_total {offset size share : Int} (ids : List Int) :
    ∀ {r : Bool × State}, r.2.env.Plenty →
      ∃ r', addToBatches P offset size share ids r = some r' := by
  induction ids with
  | nil => exact fun {r} _ => ⟨r, rfl⟩
  | cons id ids ih =>
    rintro ⟨full, s⟩ hm
    obtain ⟨t, ht⟩ := withAccount_total (P := P) hm (addToAccountBatch P offset size share) id
    have hadd : ∀ s id, Charges [] s (addToAccountBatch P offset size share s id) := fun s id =>
      .of_modify (f := batchExtent P offset size share) fun _ => rfl
    simp only [addToBatches, ht]
    exact ih ((withAccount_charges hadd ht).plenty hm)

theorem doDiskAccounting_total (hm : s.env.Plenty) (l : Nat) (offset : Int) :
    ∃ s', doDiskAccounting P s l offset = some s' := by
  have hglobal : (addToGlobalBatch P s offset (P.int (s.mem.lists l).size)).env.Plenty := hm
  simp only [doDiskAccounting]
  generalize addToGlobalBatch P s offset (P.int (s.mem.lists l).size) = t at hglobal
  cases hr : addToBatches P offset (P.int (s.mem.lists l).size)
      (safeDiv (P.int (causesGetCost (s.mem.lists l))) (s.mem.lists l).itemCount)
      (s.mem.lists l).items (iobatchFull t.simBatch, t) with
  | none =>
    obtain ⟨r, hr'⟩ := addToBatches_total (r := (iobatchFull t.simBatch, t)) _ hglobal
    cases hr.symm.trans hr'
  | some r => exact ⟨_, rfl⟩

theorem accountForCauses_total (hm : s.env.Plenty) (l : Nat) (offset size : Int) :
    ∃ s', accountForCauses P s l offset size = some s' := by
  simp only [accountForCauses]
  split_ifs
  · exact doDiskAccounting_total (s := s.setList l _) hm l offset
  · obtain ⟨t, ht⟩ := chargeAll_total (P := P)
      (s := s.setList l (causesSetCost (s.mem.lists l) (P.long size))) hm
      (fun _ => P.int (safeDiv (P.long size) (s.mem.lists l).itemCount)) (s.mem.lists l).items
    simp only [ht]
    exact doDiskAccounting_total ((chargeAll_charges ht).plenty hm) l offset
  · exact doDiskAccounting_total hm l offset

theorem accountForList_total (hm : s.env.Plenty) (rq l : Nat) (offset size : Int) :
    ∃ s', accountForList P rq s l offset size = some s' := by
  obtain ⟨t, ht⟩ := accountForCauses_total (P := P) hm l offset size
  simp only [accountForList, ht]
  exact foldlM_total (fun _ id hm => withAccount_total hm _ id)
    (fun _ _ _ h =>
      (withAccount_charges (fun s id => afqAccoutPosSeqUpdate_charges P s id rq) h).plenty)
    _ ((accountForCauses_charges ht).plenty hm)

theorem accountForItems_total (rq : Nat) (ls : List Nat) : ∀ {offset : Int} {s : State},
    s.env.Plenty → ∃ s', accountForItems P rq ls offset s = some s' := by
  induction ls with
  | nil => exact fun {_ s} _ => ⟨s, rfl⟩
  | cons l ls ih =>
    intro offset s hm
    obtain ⟨t, ht⟩ := accountForList_total (P := P) hm rq l offset (s.mem.lists l).size
    simp only [accountForItems, ht]
    exact ih ((accountForList_charges ht).plenty hm)

theorem accountForRqCauses_total (hm : s.env.Plenty) (rq : Nat) (offset : Int) (bio : Bio) :
    ∃ s', accountForRqCauses P rq s offset bio = some s' := by
  simp only [accountForRqCauses]
  split
  · exact accountForList_total hm rq _ offset _
  · exact ⟨s, rfl⟩

theorem accountForBio_total (hm : s.env.Plenty) (rq : Nat) (bio : Bio) :
    ∃ s', accountForBio P rq s bio = some s' := by
  simp only [accountForBio]
  split
  · split
    · exact accountForItems_total rq _ hm
    · exact accountForRqCauses_total hm rq _ bio
  · exact accountForRqCauses_total hm rq _ bio

theorem afqAccountRequest2_total (hm : s.env.Plenty) (rq : Nat) :
    ∃ s', afqAccountRequest2 P s rq = some s' :=
  foldlM_total (fun _ bio hm => accountForBio_total hm rq bio)
    (fun _ _ _ h => (accountForBio_charges h).plenty) _ hm

theorem basicSchedCausesDirty_total (hm : s.env.Plenty) (l : Nat) (newId : Int) (inode : Nat)
    (pos : Int) : ∃ s', basicSchedCausesDirty P s l newId inode pos = some s' :=
  chargeAll_total (s := { s with mem := dirtyMem P s.mem l inode pos }) hm _ _

theorem basicSchedCausesFree_total (hm : s.env.Plenty) (l : Nat) :
    ∃ s', basicSchedCausesFree P s l = some s' :=
  foldlM_total (fun _ id hm => withAccount_total hm _ id)
    (fun _ _ _ h => (withAccount_charges (addVioCounter_charges P) h).plenty) _ hm

end Afq
end SplitSched
