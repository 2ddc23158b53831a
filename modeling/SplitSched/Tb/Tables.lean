import SplitSched.Tb.Requests

/-!
# SplitSched.Tb.Tables

The tables of the token-bucket scheduler as they lie in memory: the hash of accounts, the list of
accounts, the list of queues, and the two queues inside every account.

* `Tables`: `struct account` and `struct queue` by their addresses, and the lists of addresses.
* `getAccount`, `tbucketAddRequest`, `tbucketDispatch`, `tbucketDispatchForce`, `tbucketKvSet`: what the
  source does to the tables. What depends on tokens, clocks and cause lists is left open (`Choice`, and
  the calls of `get_account` on behalf of a request).
* `Sound`: the tables agree. `tables_agree`: they do so along every run.
* `SplitSched.Tb.Representation` shows that the model with tokens and clocks does to the tables what the
  functions here do.
-/

namespace SplitSched
namespace Tb

/-- Where the queues lie in a `struct account`. -/
structure Layout where
  size : Nat
  rqueue : Nat
  wqueue : Nat
  rqueue_lt : rqueue < size
  wqueue_lt : wqueue < size
  rqueue_ne : rqueue ≠ wqueue

/-- `struct account` on a machine with 64-bit pointers. -/
def Layout.lp64 : Layout := ⟨8264, 40, 96, by decide, by decide, by decide⟩

/-- The offset of a queue. -/
def Layout.queue (L : Layout) (rw : Bool) : Nat := if rw then L.wqueue else L.rqueue

theorem Layout.queue_lt (L : Layout) (rw : Bool) : L.queue rw < L.size := by
  cases rw
  · exact L.rqueue_lt
  · exact L.wqueue_lt

theorem Layout.queue_inj (L : Layout) {rw rw' : Bool} (h : L.queue rw = L.queue rw') : rw = rw' := by
  cases rw <;> cases rw'
  · rfl
  · exact absurd h L.rqueue_ne
  · exact absurd h.symm L.rqueue_ne
  · rfl

/-- `struct queue`, less the links and the time. -/
structure RawQueue where
  reqs : List Nat
  count : Int
  rw : Bool
  deriving DecidableEq, Repr

structure Tables where
  /-- The id of the account at an address. -/
  ids : Nat → Option Int
  /-- The queue at an address. -/
  qs : Nat → Option RawQueue
  accountsHash : Nat → List Nat
  accounts : List Nat
  queues : List Nat
  queuesCount : Int
  /-- Where the next allocation goes. -/
  brk : Nat

namespace Tables

variable (L : Layout) (bucket : Int → Nat)

/-! ## Accounts -/

def queueInit (rw : Bool) : RawQueue := ⟨[], 0, rw⟩

/-- `new_account`, when there is memory. The account is at the old `brk`. -/
def newAccount (t : Tables) (id : Int) : Tables :=
  { t with
    ids := Function.update t.ids t.brk (some id)
    qs := Function.update (Function.update t.qs (t.brk + L.rqueue) (some (queueInit false)))
      (t.brk + L.wqueue) (some (queueInit true))
    brk := t.brk + L.size }

/-- `hash_add` puts a node at the head of its bucket. -/
def addAccount (t : Tables) (a : Nat) (id : Int) : Tables :=
  { t with
    accountsHash := Function.update t.accountsHash (bucket id) (a :: t.accountsHash (bucket id))
    accounts := t.accounts ++ [a]
    queues := t.queues ++ [a + L.rqueue, a + L.wqueue]
    queuesCount := t.queuesCount + 2 }

/-- `new_account` and `add_account`, as `get_account` calls them. -/
def create (t : Tables) (id : Int) : Tables := addAccount L bucket (newAccount L t id) t.brk id

/-- `hash_for_each_possible`, up to the account with the id. -/
def find (t : Tables) (id : Int) : Option Nat :=
  (t.accountsHash (bucket id)).find? fun a => decide (t.ids a = some id)

/-- The address of the account; `ok` says whether there is memory. `none` is the `BUG_ON`. -/
def getAccount (t : Tables) (id : Int) (ok : Bool) : Option (Nat × Tables) :=
  match t.find bucket id with
  | some a => some (a, t)
  | none =>
    if ok then some (t.brk, t.create L bucket id)
    else (t.find bucket defaultAccount).map fun a => (a, t)

/-- `container_of` on the member the direction names. -/
def queueToAccount (t : Tables) (q : Nat) : Option Nat :=
  (t.qs q).map fun queue => q - L.queue queue.rw

/-! ## Queues -/

def setQueue (t : Tables) (q : Nat) (queue : RawQueue) : Tables :=
  { t with qs := Function.update t.qs q (some queue) }

def queuePush (t : Tables) (q rq : Nat) : Option Tables :=
  (t.qs q).map fun queue =>
    t.setQueue q { queue with reqs := queue.reqs ++ [rq], count := queue.count + 1 }

/-- The request, if there is one, and the tables after it was taken. -/
def queuePop (t : Tables) (q : Nat) : Option (Option Nat × Tables) :=
  (t.qs q).map fun queue =>
    match queue.reqs with
    | [] => (none, t)
    | rq :: rest =>
      (some rq, t.setQueue q { queue with reqs := rest, count := queue.count - 1 })

/-! ## Hooks -/

/-- The calls of `get_account` when a request is charged: the ids, and whether there is memory. -/
abbrev Calls := List (Int × Bool)

def accountForReq (t : Tables) (calls : Calls) : Option Tables :=
  calls.foldlM (fun t c => (t.getAccount L bucket c.1 c.2).map (·.2)) t

/-- The request of the cause `id` goes to one of the queues of its account. -/
def tbucketAddRequest (t : Tables) (id : Int) (ok write : Bool) (rq : Nat) : Option Tables :=
  (t.getAccount L bucket id ok).bind fun r => r.2.queuePush (r.1 + L.queue write) rq

/-- `list_del_init` and `list_add_tail` on the queue at the head. -/
def rotate (t : Tables) : Tables := { t with queues := t.queues.tail ++ t.queues.head?.toList }

/-- What a round of `tbucket_dispatch` finds. -/
inductive Choice where
  /-- The queue may run. If it has a request, the calls charge it; otherwise the loop may wait for the
  queue. -/
  | run (calls : Calls) (anticipate : Bool)
  /-- The queue is throttled, or has had its turn. -/
  | moveOn

/-- The loop of `tbucket_dispatch`, with `n` rounds left. An account that is not there is a fault. -/
def dispatchLoop : Nat → List Choice → Tables → Option Tables
  | 0, _, t => some t
  | _ + 1, [], _ => none
  | n + 1, c :: cs, t =>
    match t.queues with
    | [] => none
    | q :: _ =>
      match (t.queueToAccount L q).bind t.ids with
      | none => none
      | some _ =>
        match c with
        | .moveOn => dispatchLoop n cs t.rotate
        | .run calls anticipate =>
          match t.queuePop q with
          | none => none
          | some (some _, t) => t.accountForReq L bucket calls
          | some (none, t) => if anticipate then some t else dispatchLoop n cs t.rotate

def tbucketDispatch (t : Tables) (cs : List Choice) : Option Tables :=
  dispatchLoop L bucket t.queuesCount.toNat cs t

/-- The loops of `tbucket_dispatch_force`, at position `k` of the queue list, which may grow meanwhile. -/
def forceLoop : List Calls → Nat → Tables → Option Tables
  | [], k, t => if t.queues.length ≤ k then some t else none
  | calls :: rest, k, t =>
    match t.queues[k]? with
    | none => some t
    | some q =>
      match t.queuePop q with
      | none => none
      | some (none, t) => forceLoop rest (k + 1) t
      | some (some _, t) => (t.accountForReq L bucket calls).bind (forceLoop rest k)

def tbucketDispatchForce (t : Tables) (calls : List Calls) : Option Tables := forceLoop L bucket calls 0 t

def tbucketKvSet (t : Tables) (id : Int) (key : String) (ok : Bool) : Option Tables :=
  if key = "debug" then some t
  else if id ≠ 0 then (t.getAccount L bucket id ok).map (·.2) else some t

/-- The tables `tbucket_init_queue` sets up in memory that is free from `brk` on. -/
def init (brk : Nat) : Tables :=
  create L bucket ⟨fun _ => none, fun _ => none, fun _ => [], [], [], 0, brk⟩ defaultAccount

inductive Event where
  | getAccount (id : Int) (ok : Bool)
  | add (id : Int) (ok write : Bool) (rq : Nat)
  | dispatch (cs : List Choice)
  | dispatchForce (calls : List Calls)
  | kvSet (id : Int) (key : String) (ok : Bool)

def step (t : Tables) : Event → Option Tables
  | .getAccount id ok => (t.getAccount L bucket id ok).map (·.2)
  | .add id ok write rq => t.tbucketAddRequest L bucket id ok write rq
  | .dispatch cs => t.tbucketDispatch L bucket cs
  | .dispatchForce calls => t.tbucketDispatchForce L bucket calls
  | .kvSet id key ok => t.tbucketKvSet L bucket id key ok

/-! ## The invariant -/

structure Linked (t : Tables) : Prop where
  nodup : t.accounts.Nodup
  distinct : (t.accounts.map t.ids).Nodup
  named : ∀ a ∈ t.accounts, (t.ids a).isSome = true
  /-- The accounts lie apart in allocated memory. -/
  below : ∀ a ∈ t.accounts, a + L.size ≤ t.brk
  apart : ∀ a ∈ t.accounts, ∀ b ∈ t.accounts, a < b → a + L.size ≤ b
  hashNodup : ∀ i, (t.accountsHash i).Nodup
  hash : ∀ i a, a ∈ t.accountsHash i ↔ a ∈ t.accounts ∧ (t.ids a).map bucket = some i
  queues : t.queues.Perm (t.accounts.flatMap fun a => [a + L.rqueue, a + L.wqueue])
  queuesCount : t.queuesCount = 2 * t.accounts.length
  queue : ∀ a ∈ t.accounts, ∀ rw, ∃ queue, t.qs (a + L.queue rw) = some queue ∧ queue.rw = rw ∧
    queue.count = queue.reqs.length

structure Sound (t : Tables) : Prop extends Linked L bucket t where
  default : ∃ a ∈ t.accounts, t.ids a = some defaultAccount

section

variable {L bucket} {t t' : Tables} {a b : Nat} {id : Int} {rw : Bool}

/-- Different queues are at different addresses. -/
theorem Sound.queue_inj (h : Sound L bucket t) (ha : a ∈ t.accounts) (hb : b ∈ t.accounts) {rw' : Bool}
    (he : a + L.queue rw = b + L.queue rw') : a = b ∧ rw = rw' := by
  have hlt := L.queue_lt rw
  have hlt' := L.queue_lt rw'
  have hab : a = b := by
    rcases lt_trichotomy a b with hab | hab | hab
    · have := h.apart a ha b hb hab
      omega
    · exact hab
    · have := h.apart b hb a ha hab
      omega
  subst hab
  exact ⟨rfl, L.queue_inj (Nat.add_left_cancel he)⟩

theorem Sound.ids_inj (h : Sound L bucket t) (ha : a ∈ t.accounts) (hb : b ∈ t.accounts)
    (he : t.ids a = t.ids b) : a = b :=
  List.inj_on_of_nodup_map h.distinct ha hb he

theorem Sound.mem_queues (h : Sound L bucket t) {q : Nat} :
    q ∈ t.queues ↔ ∃ a ∈ t.accounts, ∃ rw, q = a + L.queue rw := by
  rw [h.queues.mem_iff, List.mem_flatMap]
  refine exists_congr fun a => and_congr_right fun _ => ?_
  simp only [List.mem_cons, List.not_mem_nil, or_false, Layout.queue, Bool.exists_bool,
    Bool.false_eq_true, if_false, if_true]

theorem Sound.queues_nodup (h : Sound L bucket t) : t.queues.Nodup := by
  rw [h.queues.nodup_iff, List.nodup_flatMap]
  refine ⟨fun a _ => ?_, ?_⟩
  · simp [L.rqueue_ne]
  · refine h.nodup.imp_of_mem fun ha hb hne q hq hq' => hne ?_
    have hcases : ∀ a, q ∈ [a + L.rqueue, a + L.wqueue] → ∃ rw, q = a + L.queue rw := by
      intro a hq
      rcases List.mem_cons.mp hq with rfl | hq
      · exact ⟨false, rfl⟩
      · exact ⟨true, List.mem_singleton.mp hq⟩
    obtain ⟨rw, he⟩ := hcases _ hq
    obtain ⟨rw', he'⟩ := hcases _ hq'
    exact (h.queue_inj ha hb (he.symm.trans he')).1

theorem Sound.queueToAccount (h : Sound L bucket t) (ha : a ∈ t.accounts) (rw : Bool) :
    t.queueToAccount L (a + L.queue rw) = some a := by
  obtain ⟨queue, hq, hrw, -⟩ := h.queue a ha rw
  unfold Tables.queueToAccount
  rw [hq, Option.map_some, hrw, Nat.add_sub_cancel]

/-! ## Lookup -/

theorem Sound.find_eq_some (h : Sound L bucket t) :
    t.find bucket id = some a ↔ a ∈ t.accounts ∧ t.ids a = some id := by
  unfold find
  constructor
  · intro hf
    have hid : t.ids a = some id := by simpa using List.find?_some hf
    exact ⟨((h.hash _ a).mp (List.mem_of_find?_eq_some hf)).1, hid⟩
  · rintro ⟨ha, hid⟩
    have hmem : a ∈ t.accountsHash (bucket id) := (h.hash _ a).mpr ⟨ha, by rw [hid]; rfl⟩
    cases hf : (t.accountsHash (bucket id)).find? fun a => decide (t.ids a = some id) with
    | none =>
      have hnone := List.find?_eq_none.mp hf a hmem
      exact absurd (decide_eq_true hid) hnone
    | some b =>
      have hb := ((h.hash _ b).mp (List.mem_of_find?_eq_some hf)).1
      have hidb : t.ids b = some id := by simpa using List.find?_some hf
      rw [h.ids_inj hb ha (hidb.trans hid.symm)]

theorem Sound.find_eq_none (h : Sound L bucket t) :
    t.find bucket id = none ↔ ∀ a ∈ t.accounts, t.ids a ≠ some id := by
  constructor
  · intro hf a ha hid
    rw [h.find_eq_some.mpr ⟨ha, hid⟩] at hf
    cases hf
  · intro hnone
    cases hf : t.find bucket id with
    | none => rfl
    | some a =>
      obtain ⟨ha, hid⟩ := h.find_eq_some.mp hf
      exact absurd hid (hnone a ha)

/-- The account is found, or made, or replaced by the default account. -/
theorem Sound.getAccount_cases (h : Sound L bucket t) (id : Int) (ok : Bool) :
    (∃ a ∈ t.accounts, t.ids a = some id ∧ t.getAccount L bucket id ok = some (a, t)) ∨
    (∀ a ∈ t.accounts, t.ids a ≠ some id) ∧
      (ok = true ∧ t.getAccount L bucket id ok =
          some (t.brk, t.create L bucket id) ∨
        ok = false ∧ ∃ a ∈ t.accounts, t.ids a = some defaultAccount ∧
          t.getAccount L bucket id ok = some (a, t)) := by
  unfold getAccount
  cases hf : t.find bucket id with
  | some a =>
    obtain ⟨ha, hid⟩ := h.find_eq_some.mp hf
    exact .inl ⟨a, ha, hid, rfl⟩
  | none =>
    refine .inr ⟨h.find_eq_none.mp hf, ?_⟩
    cases ok with
    | true => exact .inl ⟨rfl, rfl⟩
    | false =>
      obtain ⟨a, ha, hid⟩ := h.default
      refine .inr ⟨rfl, a, ha, hid, ?_⟩
      simp only [Bool.false_eq_true, if_false, h.find_eq_some.mpr ⟨ha, hid⟩, Option.map_some]

/-! ## What keeps the tables sound -/

/-- Memory that is allocated next is not in use. -/
theorem Linked.ne_brk (h : Linked L bucket t) (ha : a ∈ t.accounts) : a ≠ t.brk := by
  have hbelow := h.below a ha
  have hsize := L.rqueue_lt
  omega

/-- The queues of an account are in allocated memory. -/
theorem Linked.queue_lt_brk (h : Linked L bucket t) (ha : a ∈ t.accounts) (rw : Bool) :
    a + L.queue rw < t.brk := by
  have hbelow := h.below a ha
  have hlt := L.queue_lt rw
  omega

/-! ### A new account, with its queues -/

theorem mem_create_accounts : a ∈ (t.create L bucket id).accounts ↔ a ∈ t.accounts ∨ a = t.brk :=
  List.mem_append.trans (or_congr_right List.mem_singleton)

theorem create_ids (t : Tables) (id : Int) (a : Nat) :
    (t.create L bucket id).ids a = if a = t.brk then some id else t.ids a := by
  unfold Tables.create addAccount newAccount
  exact Function.update_apply _ _ _ _

theorem create_ids_brk (t : Tables) (id : Int) : (t.create L bucket id).ids t.brk = some id :=
  (create_ids t id t.brk).trans (if_pos rfl)

theorem Linked.create_ids_old (h : Linked L bucket t) (ha : a ∈ t.accounts) :
    (t.create L bucket id).ids a = t.ids a :=
  (create_ids t id a).trans (if_neg (h.ne_brk ha))

theorem Linked.map_create_ids (h : Linked L bucket t) (id : Int) :
    (t.create L bucket id).accounts.map (t.create L bucket id).ids = t.accounts.map t.ids ++ [some id] := by
  refine (List.map_append ..).trans ?_
  rw [List.map_singleton, create_ids_brk]
  exact congrArg (· ++ _) (List.map_congr_left fun a ha => h.create_ids_old ha)

theorem create_accountsHash (t : Tables) (id : Int) (i : Nat) : (t.create L bucket id).accountsHash i =
    if i = bucket id then t.brk :: t.accountsHash i else t.accountsHash i := by
  unfold Tables.create addAccount newAccount
  by_cases hi : i = bucket id
  · subst hi
    simp only [Function.update_self, if_true]
  · simp only [Function.update_of_ne hi, hi, if_false]

theorem create_qs (t : Tables) (id : Int) (rw : Bool) :
    (t.create L bucket id).qs (t.brk + L.queue rw) = some (queueInit rw) := by
  unfold Tables.create addAccount newAccount
  cases rw with
  | true => exact Function.update_self _ _ _
  | false =>
    have hne : t.brk + L.rqueue ≠ t.brk + L.wqueue := fun he => L.rqueue_ne (Nat.add_left_cancel he)
    exact (Function.update_of_ne hne _ _).trans (Function.update_self _ _ _)

theorem create_qs_of_lt (t : Tables) (id : Int) {q : Nat} (hq : q < t.brk) :
    (t.create L bucket id).qs q = t.qs q := by
  unfold Tables.create addAccount newAccount
  simp only
  rw [Function.update_of_ne (by omega), Function.update_of_ne (by omega)]

theorem Linked.create_hashNodup (h : Linked L bucket t) (id : Int) (i : Nat) :
    ((t.create L bucket id).accountsHash i).Nodup := by
  rw [create_accountsHash]
  split
  · exact List.nodup_cons.mpr ⟨fun hb => h.ne_brk ((h.hash i _).mp hb).1 rfl, h.hashNodup i⟩
  · exact h.hashNodup i

theorem Linked.mem_create_accountsHash (h : Linked L bucket t) (id : Int) (i a : Nat) :
    a ∈ (t.create L bucket id).accountsHash i ↔
      a ∈ (t.create L bucket id).accounts ∧ ((t.create L bucket id).ids a).map bucket = some i := by
  have hmem : a ∈ (t.create L bucket id).accountsHash i ↔ a ∈ t.accountsHash i ∨ a = t.brk ∧ bucket id = i := by
    rw [create_accountsHash]
    split
    · next hi => simp [hi, or_comm]
    · next hi => simp [Ne.symm hi]
  rw [hmem, mem_create_accounts, h.hash]
  by_cases ha : a = t.brk
  · subst ha
    have hfresh : t.brk ∉ t.accounts := fun hb => h.ne_brk hb rfl
    simp [hfresh, create_ids_brk]
  · rw [create_ids, if_neg ha]
    simp [ha]

theorem Linked.create (h : Linked L bucket t) (hid : ∀ a ∈ t.accounts, t.ids a ≠ some id) :
    Linked L bucket (t.create L bucket id) := by
  constructor
  case nodup =>
    refine List.nodup_append.mpr ⟨h.nodup, List.nodup_singleton _, fun a ha b hb => ?_⟩
    rw [List.mem_singleton.mp hb]
    exact h.ne_brk ha
  case distinct =>
    rw [h.map_create_ids, List.nodup_append]
    refine ⟨h.distinct, List.nodup_singleton _, ?_⟩
    simpa using hid
  case named =>
    intro a ha
    rcases mem_create_accounts.mp ha with ha | rfl
    · rw [h.create_ids_old ha]
      exact h.named a ha
    · rw [create_ids_brk]
      rfl
  case below =>
    intro a ha
    change a + L.size ≤ t.brk + L.size
    rcases mem_create_accounts.mp ha with ha | rfl
    · have := h.below a ha
      omega
    · exact le_rfl
  case apart =>
    intro a ha b hb hab
    rcases mem_create_accounts.mp ha with ha | rfl
    · rcases mem_create_accounts.mp hb with hb | rfl
      · exact h.apart a ha b hb hab
      · exact h.below a ha
    · rcases mem_create_accounts.mp hb with hb | rfl
      · have := h.below b hb
        omega
      · omega
  case hashNodup => exact h.create_hashNodup id
  case hash => exact h.mem_create_accountsHash id
  case queues =>
    refine List.Perm.trans (h.queues.append_right _) ?_
    unfold Tables.create addAccount newAccount
    simp
  case queuesCount =>
    change t.queuesCount + 2 = _
    unfold Tables.create addAccount newAccount
    rw [h.queuesCount]
    simp
    ring
  case queue =>
    intro a ha rw
    rcases mem_create_accounts.mp ha with ha | rfl
    · rw [create_qs_of_lt t id (h.queue_lt_brk ha rw)]
      exact h.queue a ha rw
    · exact ⟨queueInit rw, create_qs t id rw, rfl, rfl⟩

theorem Sound.create (h : Sound L bucket t) (hid : ∀ a ∈ t.accounts, t.ids a ≠ some id) :
    Sound L bucket (t.create L bucket id) := by
  obtain ⟨a, ha, hd⟩ := h.default
  refine ⟨h.toLinked.create hid, a, List.mem_append_left _ ha, ?_⟩
  rw [h.create_ids_old ha, hd]

theorem Sound.setQueue (h : Sound L bucket t) (ha : a ∈ t.accounts) {queue : RawQueue}
    (hrw : queue.rw = rw) (hcount : queue.count = queue.reqs.length) :
    Sound L bucket (t.setQueue (a + L.queue rw) queue) where
  __ := h
  queue b hb rw' := by
    by_cases he : b + L.queue rw' = a + L.queue rw
    · obtain ⟨-, rfl⟩ := h.queue_inj hb ha he
      rw [he]
      exact ⟨queue, Function.update_self _ _ _, hrw, hcount⟩
    · obtain ⟨old, hq, hold⟩ := h.queue b hb rw'
      exact ⟨old, (Function.update_of_ne he _ _).trans hq, hold⟩

theorem Sound.rotate (h : Sound L bucket t) : Sound L bucket t.rotate where
  __ := h
  queues := by
    refine List.Perm.trans ?_ h.queues
    unfold Tables.rotate
    cases t.queues with
    | nil => rfl
    | cons q rest => exact List.perm_append_singleton q rest

theorem Sound.getAccount (h : Sound L bucket t) {ok : Bool} {r : Nat × Tables}
    (hr : t.getAccount L bucket id ok = some r) : Sound L bucket r.2 ∧ r.1 ∈ r.2.accounts := by
  obtain ⟨a, ha, -, he⟩ | ⟨hid, ⟨-, he⟩ | ⟨-, a, ha, -, he⟩⟩ := h.getAccount_cases id ok
  · cases he.symm.trans hr
    exact ⟨h, ha⟩
  · cases he.symm.trans hr
    exact ⟨h.create hid, List.mem_append_right _ List.mem_cons_self⟩
  · cases he.symm.trans hr
    exact ⟨h, ha⟩

theorem Sound.queuePush (h : Sound L bucket t) (ha : a ∈ t.accounts) {rq : Nat}
    (ht : t.queuePush (a + L.queue rw) rq = some t') : Sound L bucket t' := by
  obtain ⟨queue, hq, hrw, hcount⟩ := h.queue a ha rw
  unfold Tables.queuePush at ht
  rw [hq] at ht
  cases ht
  refine h.setQueue ha hrw ?_
  simp [hcount]

theorem Sound.queuePop (h : Sound L bucket t) {q : Nat} (hmem : q ∈ t.queues) {r : Option Nat × Tables}
    (hr : t.queuePop q = some r) : Sound L bucket r.2 := by
  obtain ⟨a, ha, rw, rfl⟩ := h.mem_queues.mp hmem
  obtain ⟨queue, hq, hrw, hcount⟩ := h.queue a ha rw
  unfold Tables.queuePop at hr
  rw [hq, Option.map_some] at hr
  cases hreqs : queue.reqs with
  | nil =>
    rw [hreqs] at hr
    cases hr
    exact h
  | cons rq rest =>
    rw [hreqs] at hr
    cases hr
    refine h.setQueue ha hrw ?_
    simp [hcount, hreqs]

theorem Sound.accountForReq (h : Sound L bucket t) {calls : Calls}
    (ht : t.accountForReq L bucket calls = some t') : Sound L bucket t' := by
  refine foldlM_rel (R := fun t t' => Sound L bucket t → Sound L bucket t') (fun _ h => h)
    (fun h h' h₀ => h' (h h₀)) (fun t c t' hc h => ?_) calls ht h
  obtain ⟨r, hr, rfl⟩ := Option.map_eq_some_iff.mp hc
  exact (h.getAccount hr).1

theorem dispatchLoop_sound (n : Nat) : ∀ {cs : List Choice} {t t' : Tables}, Sound L bucket t →
    dispatchLoop L bucket n cs t = some t' → Sound L bucket t' := by
  induction n with
  | zero =>
    intro cs t t' h ht
    cases ht
    exact h
  | succ n ih =>
    intro cs t t' h ht
    cases cs with
    | nil => cases ht
    | cons c cs =>
      simp only [dispatchLoop] at ht
      split at ht
      · cases ht
      · rename_i q rest hq
        have hmem : q ∈ t.queues := hq ▸ List.mem_cons_self
        split at ht
        · cases ht
        · split at ht
          · exact ih h.rotate ht
          · split at ht
            · cases ht
            · rename_i hpop
              exact (h.queuePop hmem hpop).accountForReq ht
            · rename_i hpop
              split at ht
              · cases ht
                exact h.queuePop hmem hpop
              · exact ih (h.queuePop hmem hpop).rotate ht

theorem forceLoop_sound (calls : List Calls) : ∀ {k : Nat} {t t' : Tables}, Sound L bucket t →
    forceLoop L bucket calls k t = some t' → Sound L bucket t' := by
  induction calls with
  | nil =>
    intro k t t' h ht
    simp only [forceLoop, Option.ite_none_right_eq_some, Option.some.injEq] at ht
    exact ht.2 ▸ h
  | cons c calls ih =>
    intro k t t' h ht
    simp only [forceLoop] at ht
    split at ht
    · cases ht
      exact h
    · rename_i q hq
      have hmem : q ∈ t.queues := List.mem_of_getElem? hq
      split at ht
      · cases ht
      · rename_i hpop
        exact ih (h.queuePop hmem hpop) ht
      · rename_i hpop
        obtain ⟨t₁, ht₁, ht⟩ := Option.bind_eq_some_iff.mp ht
        exact ih ((h.queuePop hmem hpop).accountForReq ht₁) ht

theorem step_sound {e : Event} (h : Sound L bucket t) (ht : step L bucket t e = some t') :
    Sound L bucket t' := by
  cases e with
  | getAccount id ok =>
    obtain ⟨r, hr, rfl⟩ := Option.map_eq_some_iff.mp ht
    exact (h.getAccount hr).1
  | add id ok write rq =>
    obtain ⟨r, hr, ht⟩ := Option.bind_eq_some_iff.mp ht
    obtain ⟨hs, ha⟩ := h.getAccount hr
    exact hs.queuePush ha ht
  | dispatch cs => exact dispatchLoop_sound _ h ht
  | dispatchForce calls => exact forceLoop_sound calls h ht
  | kvSet id key ok =>
    simp only [step, tbucketKvSet] at ht
    split at ht
    · cases ht
      exact h
    · split at ht
      · obtain ⟨r, hr, rfl⟩ := Option.map_eq_some_iff.mp ht
        exact (h.getAccount hr).1
      · cases ht
        exact h

theorem linked_empty (brk : Nat) :
    Linked L bucket ⟨fun _ => none, fun _ => none, fun _ => [], [], [], 0, brk⟩ := by
  constructor <;> simp

theorem init_sound (brk : Nat) : Sound L bucket (init L bucket brk) := by
  exact ⟨(linked_empty brk).create (by simp), brk, List.mem_cons_self, create_ids_brk _ defaultAccount⟩

theorem run_sound {es : List Event} (h : Sound L bucket t) (ht : run (step L bucket) t es = some t') :
    Sound L bucket t' :=
  run_invariant (I := Sound L bucket) (fun _ _ _ hs h => step_sound h hs) ht h

end

/-- Along every run: the hash and the list hold the same accounts, one for each id, the default account
among them; the queue list holds the two queues of every account, once each, and nothing else; the
counters are exact; a queue leads back to its account; and `get_account` finds one. -/
theorem tables_agree (brk : Nat) (es : List Event) (t : Tables)
    (h : run (step L bucket) (init L bucket brk) es = some t) :
    ((t.accounts.map t.ids).Nodup ∧ (∀ i, (t.accountsHash i).Nodup) ∧
      (∀ i a, a ∈ t.accountsHash i ↔ a ∈ t.accounts ∧ (t.ids a).map bucket = some i) ∧
      ∃ a ∈ t.accounts, t.ids a = some defaultAccount) ∧
    ((∀ a ∈ t.accounts, ∀ rw, t.queues.count (a + L.queue rw) = 1) ∧
      (∀ q ∈ t.queues, ∃ a ∈ t.accounts, ∃ rw, q = a + L.queue rw) ∧
      t.queuesCount = 2 * t.accounts.length ∧ t.queuesCount = t.queues.length) ∧
    (∀ a ∈ t.accounts, ∀ rw, ∃ queue, t.qs (a + L.queue rw) = some queue ∧ queue.rw = rw ∧
      queue.count = queue.reqs.length ∧ t.queueToAccount L (a + L.queue rw) = some a) ∧
    (∀ id ok, (t.getAccount L bucket id ok).isSome = true) := by
  have hs : Sound L bucket t := run_sound (init_sound brk) h
  refine ⟨⟨hs.distinct, hs.hashNodup, hs.hash, hs.default⟩, ⟨fun a ha rw => ?_, fun q => hs.mem_queues.mp,
    hs.queuesCount, hs.queuesCount.trans ?_⟩, fun a ha rw => ?_, fun id ok => ?_⟩
  · exact List.count_eq_one_of_mem hs.queues_nodup (hs.mem_queues.mpr ⟨a, ha, rw, rfl⟩)
  · rw [hs.queues.length_eq]
    simp [List.length_flatMap, mul_comm]
  · obtain ⟨queue, hq, hrw, hcount⟩ := hs.queue a ha rw
    exact ⟨queue, hq, hrw, hcount, hs.queueToAccount ha rw⟩
  · obtain ⟨a, -, -, he⟩ | ⟨-, ⟨-, he⟩ | ⟨-, a, -, -, he⟩⟩ := hs.getAccount_cases id ok <;> rw [he] <;> rfl

/-- Account 7 gets a write, there is no memory for account 8, and account 9 is made while the write is
charged. -/
theorem tables_agree_three_accounts :
    ∃ t, run (step .lp64 fun id => id.toNat % 16)
        (init .lp64 (fun id => id.toNat % 16) 4096)
        [.add 7 true true 1, .getAccount 8 false, .dispatch [.moveOn, .run [] false, .moveOn,
          .run [(9, true)] false], .kvSet 7 "rate" true, .add 9 true false 2, .dispatchForce
          [[], [], [], [], [], [(7, true)], [], []]] = some t ∧
      t.accounts = [4096, 12360, 20624] ∧
      (∀ q ∈ t.queues, ∃ a ∈ t.accounts, ∃ rw, q = a + Layout.lp64.queue rw) ∧
      t.queuesCount = 6 := by
  have h : (run (step .lp64 fun id => id.toNat % 16)
        (init .lp64 (fun id => id.toNat % 16) 4096)
        [.add 7 true true 1, .getAccount 8 false, .dispatch [.moveOn, .run [] false, .moveOn,
          .run [(9, true)] false], .kvSet 7 "rate" true, .add 9 true false 2, .dispatchForce
          [[], [], [], [], [], [(7, true)], [], []]]).any
        (fun t => decide (t.accounts = [4096, 12360, 20624])) = true := by
    decide +kernel
  obtain ⟨t, ht, ha⟩ := (Option.any_eq_true _ _).mp h
  have haccounts := of_decide_eq_true ha
  obtain ⟨-, ⟨-, hq, hc, -⟩, -⟩ := tables_agree _ _ 4096 _ t ht
  refine ⟨t, ht, haccounts, hq, ?_⟩
  rw [hc, haccounts]
  rfl

end Tables

end Tb
end SplitSched
