import SplitSched.Lib.Run
import SplitSched.Tb.Accounting

/-!
# SplitSched.Tb.Frame

What charging may do, said once for each function of `Tb.Accounting`.

* `Grows s s'`: from `s` to `s'` accounts were created, each with its two empty queues at the tail
  of the queue list, and nothing else changed that dispatching or merging look at. It holds of
  every charging function, so of a whole `account_for_req` (`accountForReq_grows`).
* `getAccount_val`: creating an account does not change what is read off the accounts.
-/

namespace SplitSched
namespace Tb

open CArith

variable {P : Platform} {s s' s'' : State}

/-- The two queues of an account, in the order in which they join the queue list. -/
def queuesOf (id : Int) : List QRef := [(id, false), (id, true)]

structure Grows (s s' : State) : Prop where
  created : ∃ new : List Int, s'.accounts.keys = s.accounts.keys ++ new ∧
    s'.queues = s.queues ++ new.flatMap queuesOf ∧
    s'.queuesCount = s.queuesCount + 2 * new.length
  queue : s'.queue = s.queue
  dispatched : s'.dispatched = s.dispatched
  runServeSize : s'.runServeSize = s.runServeSize
  rqQueue : s'.rqQueue = s.rqQueue
  sorted : s'.sorted = s.sorted
  nudges : s'.nudges = s.nudges
  rqs : s'.mem.rqs = s.mem.rqs
  inodePos : s'.mem.inodePos = s.mem.inodePos
  schedUniq : s'.mem.schedUniq = s.mem.schedUniq
  items : ∀ l, (s'.mem.lists l).items = (s.mem.lists l).items
  size : ∀ l, (s'.mem.lists l).size = (s.mem.lists l).size
  memory : s'.env.memory = s.env.memory

namespace Grows

theorem refl (s : State) : Grows s s where
  created := ⟨[], by simp⟩
  queue := rfl
  dispatched := rfl
  runServeSize := rfl
  rqQueue := rfl
  sorted := rfl
  nudges := rfl
  rqs := rfl
  inodePos := rfl
  schedUniq := rfl
  items _ := rfl
  size _ := rfl
  memory := rfl

theorem trans (h : Grows s s') (h' : Grows s' s'') : Grows s s'' where
  created := by
    obtain ⟨new, hk, hq, hc⟩ := h.created
    obtain ⟨new', hk', hq', hc'⟩ := h'.created
    refine ⟨new ++ new', ?_, ?_, ?_⟩
    · rw [hk', hk, List.append_assoc]
    · rw [hq', hq, List.flatMap_append, List.append_assoc]
    · rw [hc', hc, List.length_append]
      push_cast
      ring
  queue := h'.queue.trans h.queue
  dispatched := h'.dispatched.trans h.dispatched
  runServeSize := h'.runServeSize.trans h.runServeSize
  rqQueue := h'.rqQueue.trans h.rqQueue
  sorted := h'.sorted.trans h.sorted
  nudges := h'.nudges.trans h.nudges
  rqs := h'.rqs.trans h.rqs
  inodePos := h'.inodePos.trans h.inodePos
  schedUniq := h'.schedUniq.trans h.schedUniq
  items l := (h'.items l).trans (h.items l)
  size l := (h'.size l).trans (h.size l)
  memory := h'.memory.trans h.memory

/-- Only the accounts' own counters, the batch, the statistics and the record of adds change. -/
theorem of_accounts {accounts : Registry Int Account} {batch : IoBatch} {stats : Stats}
    {adds : List IORequest} (hk : accounts.keys = s.accounts.keys)
    (hq : ∀ ref : QRef, accounts.val (·.queue ref.2) .init ref.1 = s.queue ref) :
    Grows s { s with accounts := accounts, batch := batch, stats := stats, adds := adds } where
  created := ⟨[], by simp [hk]⟩
  queue := funext hq
  dispatched := rfl
  runServeSize := rfl
  rqQueue := rfl
  sorted := rfl
  nudges := rfl
  rqs := rfl
  inodePos := rfl
  schedUniq := rfl
  items _ := rfl
  size _ := rfl
  memory := rfl

/-- A cause list is rewritten without touching the accounts it names or its size. -/
theorem of_setList {l : Nat} {c : CauseList} (hi : c.items = (s.mem.lists l).items)
    (hs : c.size = (s.mem.lists l).size) : Grows s (s.setList l c) where
  created := ⟨[], by simp [State.setList]⟩
  queue := rfl
  dispatched := rfl
  runServeSize := rfl
  rqQueue := rfl
  sorted := rfl
  nudges := rfl
  rqs := rfl
  inodePos := rfl
  schedUniq := rfl
  items l' := by
    by_cases h : l' = l
    · subst h; simp [State.setList, hi]
    · simp [State.setList, Mem.setList_lists_of_ne _ _ h]
  size l' := by
    by_cases h : l' = l
    · subst h; simp [State.setList, hs]
    · simp [State.setList, Mem.setList_lists_of_ne _ _ h]
  memory := rfl

end Grows

/-! ## Accounts created on demand -/

theorem newAccount_memory (P : Platform) (env : Env) (id : Int) :
    (newAccount P env id).2.memory = env.memory := by
  simp only [newAccount]
  split <;> rfl

/-- A new account is the zeroed one. -/
theorem newAccount_some {env : Env} {id : Int} {a : Account}
    (h : (newAccount P env id).1 = some a) :
    a.id = id ∧ a.estimate = 0 ∧ a.batchEstimate = 0 ∧ a.queue = fun _ => .init := by
  simp only [newAccount] at h
  split at h
  · cases h
    exact ⟨rfl, rfl, rfl, funext fun rw => by cases rw <;> rfl⟩
  · cases h

/-- Everything `get_account` can do. -/
theorem getAccount_cases (P : Platform) (s : State) (id : Int) :
    (id ∈ s.accounts.keys ∧ getAccount P s id = (id, s)) ∨
    (id ∉ s.accounts.keys ∧ ∃ a, (newAccount P s.env id).1 = some a ∧ a.id = id ∧
      getAccount P s id = (id, addAccount { s with env := (newAccount P s.env id).2 } a)) ∨
    (id ∉ s.accounts.keys ∧ (newAccount P s.env id).1 = none ∧
      getAccount P s id = (defaultAccount, { s with env := (newAccount P s.env id).2 })) := by
  by_cases h : id ∈ s.accounts.keys
  · exact .inl ⟨h, by simp [getAccount, h]⟩
  · cases ha : (newAccount P s.env id).1 with
    | none => exact .inr (.inr ⟨h, rfl, by simp [getAccount, h, ha]⟩)
    | some a =>
      have hid := (newAccount_some ha).1
      exact .inr (.inl ⟨h, a, rfl, hid, by simp [getAccount, h, ha, hid]⟩)

theorem getAccount_val {β : Type} {g : Account → β} {d : β} {id : Int}
    (hg : ∀ a, (newAccount P s.env id).1 = some a → g a = d) :
    (getAccount P s id).2.accounts.val g d = s.accounts.val g d := by
  rcases getAccount_cases P s id with ⟨-, h⟩ | ⟨-, a, ha, -, h⟩ | ⟨-, -, h⟩
  · rw [h]
  · rw [h]
    exact Registry.val_insert (hg a ha)
  · rw [h]

theorem getAccount_grows (P : Platform) (s : State) (id : Int) : Grows s (getAccount P s id).2 := by
  have hq : (getAccount P s id).2.queue = s.queue := by
    funext ref
    exact congrFun (getAccount_val fun a ha => by rw [(newAccount_some ha).2.2.2]) ref.1
  have hm := newAccount_memory P s.env id
  rcases getAccount_cases P s id with ⟨-, h⟩ | ⟨hid, a, -, ha, h⟩ | ⟨-, -, h⟩
  · rw [h]
    exact .refl s
  · rw [h] at hq ⊢
    have hc : ∃ new : List Int,
        (addAccount { s with env := (newAccount P s.env id).2 } a).accounts.keys =
          s.accounts.keys ++ new ∧
        s.queues ++ [(a.id, false), (a.id, true)] = s.queues ++ new.flatMap queuesOf ∧
        s.queuesCount + 2 = s.queuesCount + 2 * new.length :=
      ⟨[id], by simp [addAccount, Registry.keys_insert, ha, hid, Placing.tail],
        by simp [queuesOf, ha], by simp⟩
    exact ⟨hc, hq, rfl, rfl, rfl, rfl, rfl, rfl, rfl, rfl, fun _ => rfl, fun _ => rfl, hm⟩
  · rw [h]
    exact ⟨⟨[], by simp⟩, rfl, rfl, rfl, rfl, rfl, rfl, rfl, rfl, rfl, fun _ => rfl, fun _ => rfl, hm⟩

/-- With memory to spare, `get_account` returns the account asked for. -/
theorem getAccount_plenty (hm : s.env.Plenty) (id : Int) :
    (getAccount P s id).1 = id ∧ id ∈ (getAccount P s id).2.accounts.keys := by
  rcases getAccount_cases P s id with ⟨hid, h⟩ | ⟨-, a, -, ha, h⟩ | ⟨-, hn, -⟩
  · rw [h]
    exact ⟨rfl, hid⟩
  · rw [h]
    exact ⟨rfl, (Registry.mem_keys_insert _ _ _ _ _).mpr (.inl ha.symm)⟩
  · simp [newAccount, hm.kmalloc] at hn

theorem Grows.plenty (h : Grows s s') (hm : s.env.Plenty) : s'.env.Plenty := by
  intro n
  rw [h.memory]
  exact hm n

/-! ## The charging functions -/

theorem modifyAccount_grows {id : Int} {f : Account → Account} (hf : ∀ a, (f a).queue = a.queue) :
    Grows s (s.modifyAccount id f) :=
  .of_accounts (by simp) fun ref => by
    exact congrFun (Registry.val_modify_keep fun a => by rw [hf]) ref.1

theorem chargeEstimate_grows (P : Platform) (amt : Int → Int) (s : State) (id : Int) :
    Grows s (chargeEstimate P amt s id) :=
  (getAccount_grows P s id).trans (modifyAccount_grows fun a => by
    rw [saturateCounts_queue]
    rfl)

theorem addToGlobalBatch_grows (P : Platform) (s : State) (offset size : Int) :
    Grows s (addToGlobalBatch P s offset size) := .of_accounts rfl fun _ => rfl

theorem addToAccountBatch_grows (P : Platform) (offset size share : Int) (s : State) (id : Int) :
    Grows s (addToAccountBatch P offset size share s id).2 :=
  (getAccount_grows P s id).trans (modifyAccount_grows fun _ => rfl)

theorem addToBatches_grows (P : Platform) (offset size share : Int) (ids : List Int) :
    ∀ r, Grows r.2 (addToBatches P offset size share ids r).2 := by
  induction ids with
  | nil => exact fun r => .refl r.2
  | cons id ids ih =>
    rintro ⟨full, s⟩
    exact (addToAccountBatch_grows P offset size share s id).trans
      (ih (full || (addToAccountBatch P offset size share s id).1, _))

theorem flushAccount_queue (combined summed : Int) (a : Account) :
    (flushAccount P combined summed a).queue = a.queue := by
  simp only [flushAccount]
  exact (saturateCounts_same P _).queue

theorem flush_grows (P : Platform) (s : State) : Grows s (flush P s) :=
  .of_accounts rfl fun ref => by
    rw [Registry.val_map_keep fun a => by rw [flushAccount_queue]]
    exact congrFun (Registry.val_map_keep (f := priceBatch P) fun a => rfl) ref.1

theorem doDiskAccounting_grows (P : Platform) (s : State) (l : Nat) (offset : Int) :
    Grows s (doDiskAccounting P s l offset) := by
  have h := fun share full => (addToGlobalBatch_grows P s offset (P.int (s.mem.lists l).size)).trans
    (addToBatches_grows P offset (P.int (s.mem.lists l).size) share (s.mem.lists l).items (full, _))
  simp only [doDiskAccounting]
  split
  · exact (h _ _).trans (flush_grows P _)
  · exact h _ _

theorem foldl_chargeEstimate_grows (P : Platform) (amt : Int → Int) (ids : List Int) :
    ∀ s, Grows s (ids.foldl (chargeEstimate P amt) s) :=
  foldl_rel .refl .trans (chargeEstimate_grows P amt) ids

theorem accountForCauses_grows (P : Platform) (s : State) (l : Nat) (offset size : Int) :
    Grows s (accountForCauses P s l offset size) := by
  simp only [accountForCauses]
  refine Grows.trans ?_ (doDiskAccounting_grows P _ l offset)
  split
  · exact .of_setList rfl rfl
  · split
    · exact (Grows.of_setList (c := causesSetCost (s.mem.lists l) (P.long size)) rfl rfl).trans
        (foldl_chargeEstimate_grows P _ _ _)
    · exact .refl s

theorem accountForItems_grows (P : Platform) (ls : List Nat) :
    ∀ offset s, Grows s (accountForItems P ls offset s) := by
  induction ls with
  | nil => exact fun _ s => .refl s
  | cons l ls ih => exact fun offset s => (accountForCauses_grows P s l offset _).trans (ih _ _)

theorem accountForRqCauses_grows (P : Platform) (s : State) (rq : Nat) (offset : Int) (bio : Bio) :
    Grows s (accountForRqCauses P s rq offset bio) := by
  simp only [accountForRqCauses]
  split
  · exact accountForCauses_grows P s _ offset _
  · exact .refl s

theorem accountForBio_grows (P : Platform) (rq : Nat) (s : State) (bio : Bio) :
    Grows s (accountForBio P rq s bio) := by
  have hstats : ∀ (t : State) (stats : Stats), Grows t { t with stats := stats } :=
    fun t stats => .of_accounts rfl fun _ => rfl
  simp only [accountForBio]
  split_ifs <;> refine Grows.trans ?_ (hstats _ _) <;>
  · split
    · split
      · exact accountForItems_grows P _ _ s
      · exact accountForRqCauses_grows P s rq _ bio
    · exact accountForRqCauses_grows P s rq _ bio

theorem foldl_accountForBio_grows (P : Platform) (rq : Nat) (bios : List Bio) :
    ∀ s, Grows s (bios.foldl (accountForBio P rq) s) :=
  foldl_rel .refl .trans (accountForBio_grows P rq) bios

theorem accountForReq_grows (P : Platform) (s : State) (rq : Nat) :
    Grows s (accountForReq P s rq) := foldl_accountForBio_grows P rq _ s

end Tb
end SplitSched
