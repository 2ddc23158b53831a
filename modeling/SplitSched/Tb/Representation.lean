import SplitSched.Tb.Tables

/-!
# SplitSched.Tb.Representation

The model of the token-bucket scheduler with tokens and clocks finds accounts and queues by their ids
(`SplitSched.Tb.Accounting`). Here its hooks are shown to do to the tables in memory what the functions
of `SplitSched.Tb.Tables` do.

* `View`: the part of a state that the tables hold.
* `Represents`: the tables stand for a view.
* `step_represented`, `run_represented`: every step, and every run, of the hooks is one of the tables.
-/

namespace SplitSched
namespace Tb

open Tables

structure View where
  keys : List Int
  queues : List QRef
  queuesCount : Int
  queue : QRef → List Nat × Int

def State.view (s : State) : View :=
  ⟨s.accounts.keys, s.queues, s.queuesCount, fun ref => ((s.queue ref).reqs, (s.queue ref).count)⟩

namespace View

def create (v : View) (id : Int) : View :=
  { v with
    keys := v.keys ++ [id]
    queues := v.queues ++ queuesOf id
    queuesCount := v.queuesCount + 2 }

def setQueue (v : View) (ref : QRef) (queue : List Nat × Int) : View :=
  { v with queue := Function.update v.queue ref queue }

def rotate (v : View) : View := { v with queues := v.queues.tail ++ v.queues.head?.toList }

theorem foldl_create (new : List Int) : ∀ v : View,
    new.foldl create v = { v with
      keys := v.keys ++ new
      queues := v.queues ++ new.flatMap queuesOf
      queuesCount := v.queuesCount + 2 * new.length } := by
  induction new with
  | nil =>
    intro v
    simp
  | cons id new ih =>
    intro v
    rw [List.foldl_cons, ih]
    simp only [create, List.append_assoc, List.singleton_append, List.flatMap_cons, List.length_cons]
    congr 1
    push_cast
    ring

end View

/-- The queue at the address `q` is the queue `ref` of an account. -/
def RefersTo (L : Layout) (t : Tables) (q : Nat) (ref : QRef) : Prop :=
  ∃ a ∈ t.accounts, t.ids a = some ref.1 ∧ q = a + L.queue ref.2

structure Represents (L : Layout) (t : Tables) (v : View) : Prop where
  ids : t.accounts.map t.ids = v.keys.map some
  queues : List.Forall₂ (RefersTo L t) t.queues v.queues
  queuesCount : t.queuesCount = v.queuesCount
  contents : ∀ q ref, RefersTo L t q ref →
    (t.qs q).map (fun queue => (queue.reqs, queue.count)) = some (v.queue ref)

section

variable {L : Layout} {bucket : Int → Nat} {P : Platform} {t t' : Tables} {v v' : View} {s s' : State}
  {q : Nat} {ref : QRef} {id : Int}

theorem Represents.mem_keys (h : Represents L t v) : id ∈ v.keys ↔ ∃ a ∈ t.accounts, t.ids a = some id := by
  have hmem : some id ∈ t.accounts.map t.ids ↔ id ∈ v.keys := by
    rw [h.ids]
    simp
  rw [← hmem, List.mem_map]

theorem Represents.create (hs : Linked L bucket t) (h : Represents L t v) (hid : id ∉ v.keys)
    (hq : ∀ rw, v.queue (id, rw) = ([], 0)) :
    Represents L (t.create L bucket id) (v.create id) := by
  have hkeep : ∀ q ref, RefersTo L t q ref → RefersTo L (t.create L bucket id) q ref := by
    rintro q ref ⟨a, ha, hida, hqa⟩
    exact ⟨a, List.mem_append_left _ ha, (hs.create_ids_old ha).trans hida, hqa⟩
  have hmine : ∀ rw, RefersTo L (t.create L bucket id) (t.brk + L.queue rw) (id, rw) :=
    fun rw => ⟨t.brk, List.mem_append_right _ List.mem_cons_self, create_ids_brk t id, rfl⟩
  constructor
  case ids =>
    unfold View.create
    rw [hs.map_create_ids, h.ids, List.map_append, List.map_singleton]
  case queues =>
    refine List.rel_append (h.queues.imp hkeep) ?_
    exact .cons (hmine false) (.cons (hmine true) .nil)
  case queuesCount =>
    change t.queuesCount + 2 = v.queuesCount + 2
    rw [h.queuesCount]
  case contents =>
    rintro q ref ⟨a, ha, hida, rfl⟩
    rcases mem_create_accounts.mp ha with ha | rfl
    · rw [hs.create_ids_old ha] at hida
      rw [create_qs_of_lt t id (hs.queue_lt_brk ha ref.2)]
      exact h.contents _ ref ⟨a, ha, hida, rfl⟩
    · obtain ⟨i, rw⟩ := ref
      cases (create_ids_brk t id).symm.trans hida
      rw [create_qs]
      exact congrArg some (hq rw).symm

/-- `get_account` for an id that is there. -/
theorem Represents.getAccount_old (hs : Sound L bucket t) (h : Represents L t v) (hid : id ∈ v.keys) (ok : Bool) :
    ∃ a ∈ t.accounts, t.ids a = some id ∧ t.getAccount L bucket id ok = some (a, t) := by
  obtain ⟨a, ha, hida⟩ := h.mem_keys.mp hid
  refine ⟨a, ha, hida, ?_⟩
  unfold Tables.getAccount
  rw [hs.find_eq_some.mpr ⟨ha, hida⟩]

/-- `get_account` for an id that is not there. -/
theorem Represents.getAccount_new (hs : Sound L bucket t) (h : Represents L t v) (hid : id ∉ v.keys)
    (ok : Bool) : t.getAccount L bucket id ok =
      if ok then some (t.brk, t.create L bucket id)
      else (t.find bucket defaultAccount).map fun a => (a, t) := by
  have hnone : t.find bucket id = none := by
    rw [hs.find_eq_none]
    intro a ha hida
    exact hid (h.mem_keys.mpr ⟨a, ha, hida⟩)
  unfold Tables.getAccount
  rw [hnone]

theorem Represents.createAll (new : List Int) : ∀ {t : Tables} {v : View}, Sound L bucket t → Represents L t v →
    new.Nodup → (∀ id ∈ new, id ∉ v.keys ∧ ∀ rw, v.queue (id, rw) = ([], 0)) →
    ∃ t', t.accountForReq L bucket (new.map fun id => (id, true)) = some t' ∧ Sound L bucket t' ∧
      Represents L t' (new.foldl View.create v) := by
  induction new with
  | nil =>
    intro t v hs h _ _
    exact ⟨t, rfl, hs, h⟩
  | cons id new ih =>
    intro t v hs h hnd hnew
    obtain ⟨hid, hq⟩ := hnew id List.mem_cons_self
    obtain ⟨hnot, hnd⟩ := List.nodup_cons.mp hnd
    have hget := h.getAccount_new hs hid true
    rw [if_pos rfl] at hget
    have hs' := (hs.getAccount hget).1
    obtain ⟨t', ht', hst', hr⟩ := ih hs' (Represents.create hs.toLinked h hid hq) hnd fun i hi => by
      obtain ⟨hki, hqi⟩ := hnew i (List.mem_cons_of_mem id hi)
      refine ⟨fun hmem => ?_, hqi⟩
      rcases List.mem_append.mp hmem with hmem | hmem
      · exact hki hmem
      · exact hnot (List.mem_singleton.mp hmem ▸ hi)
    refine ⟨t', ?_, hst', hr⟩
    unfold Tables.accountForReq at ht' ⊢
    rw [List.map_cons, List.foldlM_cons, hget]
    exact ht'

/-- What a step that only makes accounts does. -/
theorem view_of_grows (hg : Grows s s') : ∃ new : List Int, new.Nodup ∧
    (∀ id ∈ new, id ∉ s.view.keys ∧ ∀ rw, s.view.queue (id, rw) = ([], 0)) ∧
    s'.view = new.foldl View.create s.view := by
  obtain ⟨new, hk, hq, hc⟩ := hg.created
  have hnd := s'.accounts.nodup
  rw [hk, List.nodup_append] at hnd
  have hnot : ∀ id ∈ new, id ∉ s.accounts.keys := fun id hid hmem => hnd.2.2 id hmem id hid rfl
  refine ⟨new, hnd.2.1, fun id hid => ⟨hnot id hid, fun rw => ?_⟩, ?_⟩
  · have hinit : s.queue (id, rw) = .init := queue_eq_init (hnot id hid)
    simp only [State.view, hinit]
    rfl
  · rw [View.foldl_create]
    unfold State.view
    rw [hk, hq, hc, hg.queue]

theorem grows_represented (hs : Sound L bucket t) (h : Represents L t s.view) (hg : Grows s s') :
    ∃ calls t', t.accountForReq L bucket calls = some t' ∧ Sound L bucket t' ∧ Represents L t' s'.view := by
  obtain ⟨new, hnd, hnew, hv⟩ := view_of_grows hg
  obtain ⟨t', ht', hst', hr⟩ := Represents.createAll new hs h hnd hnew
  exact ⟨_, t', ht', hst', hv ▸ hr⟩

/-! ## Queues -/

theorem RefersTo.inj (hs : Sound L bucket t) {ref' : QRef} (h : RefersTo L t q ref)
    (h' : RefersTo L t q ref') : ref = ref' := by
  obtain ⟨a, ha, hid, hq⟩ := h
  obtain ⟨b, hb, hid', hq'⟩ := h'
  obtain ⟨rfl, hrw⟩ := hs.queue_inj ha hb (hq.symm.trans hq')
  exact Prod.ext (Option.some.inj (hid.symm.trans hid')) hrw

theorem RefersTo.addr_inj (hs : Sound L bucket t) {q' : Nat} (h : RefersTo L t q ref)
    (h' : RefersTo L t q' ref) : q = q' := by
  obtain ⟨a, ha, hid, rfl⟩ := h
  obtain ⟨b, hb, hid', rfl⟩ := h'
  rw [hs.ids_inj ha hb (hid.trans hid'.symm)]

theorem Represents.setQueue (hs : Sound L bucket t) (h : Represents L t v) (hq : RefersTo L t q ref)
    (queue : RawQueue) :
    Represents L (t.setQueue q queue) (v.setQueue ref (queue.reqs, queue.count)) where
  ids := h.ids
  queues := h.queues
  queuesCount := h.queuesCount
  contents q' ref' hr := by
    by_cases he : q' = q
    · subst he
      obtain rfl := RefersTo.inj hs hq hr
      simp [Tables.setQueue, View.setQueue]
    · have hne : ref' ≠ ref := fun e => he (RefersTo.addr_inj hs (e ▸ hr) hq)
      simpa [Tables.setQueue, View.setQueue, he, hne] using h.contents q' ref' hr

theorem Represents.rotate (h : Represents L t v) : Represents L t.rotate v.rotate where
  ids := h.ids
  queues := by
    have hq := h.queues
    unfold Tables.rotate View.rotate
    cases hv : v.queues with
    | nil =>
      rw [hv, List.forall₂_nil_right_iff] at hq
      rw [hq]
      exact .nil
    | cons ref rest =>
      rw [hv] at hq
      obtain ⟨q, rest', hr, hrest, he⟩ := List.forall₂_cons_right_iff.mp hq
      rw [he]
      exact List.rel_append hrest (.cons hr .nil)
  queuesCount := h.queuesCount
  contents := h.contents

theorem view_setQueue (hk : ref.1 ∈ s.accounts.keys) (queue : Queue) :
    (s.setQueue ref queue).view = s.view.setQueue ref (queue.reqs, queue.count) := by
  unfold State.view View.setQueue
  congr 1
  funext ref'
  rw [queue_setQueue hk]
  by_cases he : ref' = ref
  · subst he
    simp
  · simp [he]

/-- The raw queue that a queue of the state stands for. -/
theorem Represents.queue (h : Represents L t s.view) (hq : RefersTo L t q ref) :
    ∃ queue, t.qs q = some queue ∧ queue.reqs = (s.queue ref).reqs ∧ queue.count = (s.queue ref).count := by
  obtain ⟨queue, hqueue, he⟩ := Option.map_eq_some_iff.mp (h.contents q ref hq)
  exact ⟨queue, hqueue, (Prod.mk.inj he).1, (Prod.mk.inj he).2⟩

theorem Represents.pop (hs : Sound L bucket t) (h : Represents L t s.view) (hq : RefersTo L t q ref)
    {rq : Nat} (hp : popQueue s ref = some (rq, s')) :
    ∃ t', t.queuePop q = some (some rq, t') ∧ Represents L t' s'.view := by
  obtain ⟨rest, hreqs, hk, rfl⟩ := popQueue_some hp
  obtain ⟨queue, hqueue, hr, hc⟩ := h.queue hq
  refine ⟨t.setQueue q { queue with reqs := rest, count := queue.count - 1 }, ?_, ?_⟩
  · unfold Tables.queuePop
    rw [hqueue, Option.map_some, hr, hreqs]
  · have hset := Represents.setQueue hs h hq { queue with reqs := rest, count := queue.count - 1 }
    rw [hc] at hset ⊢
    exact (view_setQueue hk ⟨rest, (s.queue ref).count - 1, s.env.getnstimeofday.1⟩).symm ▸ hset

theorem Represents.pop_none (h : Represents L t s.view) (hq : RefersTo L t q ref)
    (hp : popQueue s ref = none) : t.queuePop q = some (none, t) := by
  obtain ⟨queue, hqueue, hr, -⟩ := h.queue hq
  have hreqs : (s.queue ref).reqs = [] := by
    unfold popQueue queuePop at hp
    cases he : (s.queue ref).reqs with
    | nil => rfl
    | cons rq rest => simp [he] at hp
  unfold Tables.queuePop
  rw [hqueue, Option.map_some, hr, hreqs]

theorem dispatchSort_represented (hs : Sound L bucket t) (h : Represents L t s.view) (ref : QRef) (rq : Nat) :
    ∃ calls t', t.accountForReq L bucket calls = some t' ∧ Sound L bucket t' ∧
      Represents L t' (dispatchSort P s ref rq).view := by
  obtain ⟨s₁, hg, ha, hq, hc, -⟩ := dispatchSort_frame P s ref rq
  have hview : (dispatchSort P s ref rq).view = s₁.view := by
    unfold State.view State.queue
    rw [ha, hq, hc]
  rw [hview]
  exact grows_represented hs h hg

/-! ## Hooks -/

theorem getAccount_view {acct : Account} (hid : id ∉ s.accounts.keys)
    (hnew : (newAccount P s.env id).1 = some acct) :
    (getAccount P s id).2.view = s.view.create id := by
  have hqueue := (getAccount_grows P s id).queue
  have hacct := (newAccount_some hnew).1
  have he : getAccount P s id = (id, addAccount { s with env := (newAccount P s.env id).2 } acct) := by
    simp [getAccount, hid, hnew, hacct]
  unfold State.view View.create
  rw [hqueue, he]
  simp [addAccount, Registry.keys_insert, hacct, hid, Placing.tail, queuesOf]

theorem modifyAccount_view (id : Int) {f : Account → Account} (hf : ∀ a, (f a).queue = a.queue) :
    (s.modifyAccount id f).view = s.view := by
  have hgrows : Grows s (s.modifyAccount id f) := modifyAccount_grows hf
  unfold State.view
  rw [hgrows.queue]
  simp [State.modifyAccount]

theorem getAccount_represented (hs : Sound L bucket t) (h : Represents L t s.view) (id : Int) :
    ∃ ok a t', t.getAccount L bucket id ok = some (a, t') ∧ a ∈ t'.accounts ∧
      t'.ids a = some (getAccount P s id).1 ∧ Represents L t' (getAccount P s id).2.view := by
  rcases getAccount_cases P s id with ⟨hid, he⟩ | ⟨hid, acct, hnew, -, he⟩ | ⟨hid, -, he⟩
  · obtain ⟨a, ha, hida, hget⟩ := h.getAccount_old hs hid true
    rw [he]
    exact ⟨true, a, t, hget, ha, hida, h⟩
  · have hget := h.getAccount_new hs hid true
    rw [if_pos rfl] at hget
    refine ⟨true, t.brk, _, hget, (hs.getAccount hget).2, ?_, ?_⟩
    · rw [he, create_ids_brk]
    · rw [getAccount_view hid hnew]
      refine Represents.create hs.toLinked h hid fun rw => ?_
      have hinit : s.queue (id, rw) = .init := queue_eq_init hid
      simp only [State.view, hinit]
      rfl
  · obtain ⟨a, ha, hida⟩ := hs.default
    have hget := h.getAccount_new hs hid false
    rw [if_neg (by decide), hs.find_eq_some.mpr ⟨ha, hida⟩] at hget
    rw [he]
    exact ⟨false, a, t, hget, ha, hida, h⟩

theorem refreshAccount_view (h : refreshAccount P s id = some s') : s'.view = s.view := by
  have hqueue := (refreshAccount_grows h).queue
  unfold State.view
  rw [hqueue]
  unfold refreshAccount at h
  simp only at h
  split at h
  · cases h
  · split at h
    · cases h
    · cases h
      simp [State.modifyAccount]

/-- How a visit can end. -/
theorem visit_cases {haveSwitched : Bool} {r : Visit} (h : visit P haveSwitched s ref = some r) :
    ∃ s₁ : State, s₁.view = s.view ∧
      ((∃ rq s₂, r = .served (dispatchSort P s₂ ref rq) ∧ popQueue s₁ ref = some (rq, s₂)) ∨
        (∃ usecs s₂, r = .anticipate usecs s₂ ∧ popQueue s₁ ref = none ∧ s₂.view = s.view) ∨
        ∃ usecs s₂, r = .moveOn usecs s₂ ∧ s₂.view = s.view) := by
  unfold visit at h
  split at h
  · cases h
  · rename_i s₁ hs₁
    have hv := refreshAccount_view hs₁
    refine ⟨s₁, hv, ?_⟩
    split at h
    · cases h
      exact .inr (.inr ⟨_, s₁, rfl, hv⟩)
    · split at h
      · split at h
        · rename_i rq s₂ hp
          cases h
          exact .inl ⟨rq, s₂, rfl, hp⟩
        · rename_i hp
          split at h
          · simp only at h
            split at h
            · cases h
              exact .inr (.inl ⟨_, _, rfl, hp, hv⟩)
            · cases h
              exact .inr (.inr ⟨_, _, rfl, hv⟩)
          · cases h
            exact .inr (.inr ⟨_, s₁, rfl, hv⟩)
      · cases h
        exact .inr (.inr ⟨_, s₁, rfl, hv⟩)

theorem dispatchLoop_represented (n : Nat) : ∀ {b : Bool} {usecs : Int} {s : State} {t : Tables}
    {r : Option Int × State}, Sound L bucket t → Represents L t s.view →
    dispatchLoop P n b usecs s = some r →
    ∃ cs t', Tables.dispatchLoop L bucket n cs t = some t' ∧ Represents L t' r.2.view := by
  induction n with
  | zero =>
    intro b usecs s t r hs h hr
    cases hr
    exact ⟨[], t, rfl, h⟩
  | succ n ih =>
    intro b usecs s t r hs h hr
    simp only [dispatchLoop] at hr
    cases hqs : s.queues with
    | nil => simp [hqs] at hr
    | cons ref rest =>
      rw [hqs] at hr
      have hqueues := h.queues
      have hsq : s.view.queues = ref :: rest := hqs
      rw [hsq] at hqueues
      obtain ⟨q, rest', hq, -, ht⟩ := List.forall₂_cons_right_iff.mp hqueues
      have hacct : (t.queueToAccount L q).bind t.ids = some ref.1 := by
        obtain ⟨a, ha, hid, rfl⟩ := hq
        rw [hs.queueToAccount ha, Option.bind_some, hid]
      -- the queue is left for the next one
      have hmove : ∀ {s₂ : State} {usecs' : Int}, s₂.view = s.view →
          dispatchLoop P n true usecs' (rotate s₂) = some r →
          ∃ cs t', Tables.dispatchLoop L bucket (n + 1) cs t = some t' ∧ Represents L t' r.2.view := by
        intro s₂ usecs' hv hr
        have hrot : (rotate s₂).view = s.view.rotate := by rw [← hv]; rfl
        obtain ⟨cs, t', ht', hrep⟩ := ih hs.rotate (hrot ▸ h.rotate) hr
        refine ⟨.moveOn :: cs, t', ?_, hrep⟩
        simp only [Tables.dispatchLoop, ht, hacct]
        exact ht'
      cases hv : visit P b s ref with
      | none => simp [hv] at hr
      | some v =>
        obtain ⟨s₁, hs₁, ⟨rq, s₂, rfl, hp⟩ | ⟨usecs', s₂, rfl, hp, hs₂⟩ | ⟨usecs', s₂, rfl, hs₂⟩⟩ :=
          visit_cases hv
        · simp only [hv] at hr
          cases hr
          obtain ⟨t₁, hpop, hrep⟩ := Represents.pop hs (hs₁ ▸ h) hq hp
          have hs₁' := hs.queuePop (ht ▸ List.mem_cons_self) hpop
          obtain ⟨calls, t', ht', -, hrep'⟩ := dispatchSort_represented (P := P) hs₁' hrep ref rq
          refine ⟨[.run calls false], t', ?_, hrep'⟩
          simp only [Tables.dispatchLoop, ht, hacct, hpop, ht']
        · simp only [hv] at hr
          cases hr
          refine ⟨[.run [] true], t, ?_, hs₂ ▸ h⟩
          have hpop := Represents.pop_none (s := s₁) (hs₁ ▸ h) hq hp
          simp only [Tables.dispatchLoop, ht, hacct, hpop, if_true]
        · simp only [hv] at hr
          exact hmove hs₂ hr

/-- The queue at a position of the list. -/
theorem Represents.getElem (h : Represents L t s.view) {k : Nat} (hk : k < s.queues.length) :
    ∃ q, t.queues[k]? = some q ∧ RefersTo L t q s.queues[k] := by
  have hlen : t.queues.length = s.queues.length := h.queues.length_eq
  have hkt : k < t.queues.length := hlen ▸ hk
  exact ⟨t.queues[k], List.getElem?_eq_getElem hkt, h.queues.get hkt hk⟩

theorem forceLoop_represented (k rv : Nat) (s : State) : ∀ {t : Tables}, Sound L bucket t →
    Represents L t s.view → ∃ calls t', Tables.forceLoop L bucket calls k t = some t' ∧
      Represents L t' (forceLoop P k rv s).2.view := by
  fun_induction forceLoop P k rv s with
  | case1 k rv s hk rq s' hp ih =>
    intro t hs h
    obtain ⟨q, hqk, hq⟩ := h.getElem hk
    obtain ⟨t₁, hpop, hrep⟩ := Represents.pop hs h hq hp
    have hs₁ := hs.queuePop (List.mem_of_getElem? hqk) hpop
    obtain ⟨calls, t₂, ht₂, hs₂, hrep₂⟩ := dispatchSort_represented (P := P) hs₁ hrep s.queues[k] rq
    obtain ⟨rest, t', ht', hrep'⟩ := ih hs₂ hrep₂
    refine ⟨calls :: rest, t', ?_, hrep'⟩
    simp only [Tables.forceLoop, hqk, hpop, ht₂, Option.bind_some, ht']
  | case2 k rv s hk hp ih =>
    intro t hs h
    obtain ⟨q, hqk, hq⟩ := h.getElem hk
    obtain ⟨rest, t', ht', hrep'⟩ := ih hs h
    refine ⟨[] :: rest, t', ?_, hrep'⟩
    simp only [Tables.forceLoop, hqk, h.pop_none hq hp, ht']
  | case3 k rv s hk =>
    intro t hs h
    have hlen : t.queues.length = s.queues.length := h.queues.length_eq
    refine ⟨[], t, ?_, h⟩
    rw [Tables.forceLoop, if_pos (by omega)]

theorem decline_view (P : Platform) (usecs : Int) (s : State) : (decline P usecs s).view = s.view := by
  unfold decline
  simp only
  split_ifs <;> rfl

theorem tbucketDispatch_represented (hs : Sound L bucket t) (h : Represents L t s.view) {force : Bool}
    {r : Int × State} (hr : tbucketDispatch P s force = some r) :
    ∃ e t', Tables.step L bucket t e = some t' ∧ Represents L t' r.2.view := by
  unfold tbucketDispatch at hr
  split at hr
  · cases hr
    obtain ⟨calls, t', ht', hrep⟩ := forceLoop_represented (P := P) 0 0 s hs h
    exact ⟨.dispatchForce calls, t', ht', hrep⟩
  · split at hr
    · rename_i hcap
      exact absurd hcap.1 (by decide)
    · have hcount : t.queuesCount = s.queuesCount := h.queuesCount
      split at hr
      · cases hr
      · rename_i s₁ hloop
        cases hr
        obtain ⟨cs, t', ht', hrep⟩ := dispatchLoop_represented _ hs h hloop
        refine ⟨.dispatch cs, t', ?_, hrep⟩
        unfold Tables.step Tables.tbucketDispatch
        rw [hcount]
        exact ht'
      · rename_i usecs s₁ hloop
        cases hr
        obtain ⟨cs, t', ht', hrep⟩ := dispatchLoop_represented _ hs h hloop
        refine ⟨.dispatch cs, t', ?_, ?_⟩
        · unfold Tables.step Tables.tbucketDispatch
          rw [hcount]
          exact ht'
        · rw [decline_view]
          exact hrep

theorem tbucketAddRequest_represented (hs : Sound L bucket t) (h : Represents L t s.view) (rq : Nat)
    (cur : Int) : ∃ e t', Tables.step L bucket t e = some t' ∧
      Represents L t' (tbucketAddRequest P s rq cur).view := by
  have htag : (tagRequest s rq cur).view = s.view := by
    unfold tagRequest
    split <;> rfl
  have hnote : ∀ warn (a : Account), (noteSanity warn a).queue = a.queue := by
    intro warn a
    unfold noteSanity
    split <;> rfl
  rw [← htag] at h
  unfold tbucketAddRequest
  generalize requestSanityCheck P s.mem rq = warn
  generalize tagRequest s rq cur = s₁ at h
  simp only
  generalize getOneCause s₁.mem rq = id
  obtain ⟨ok, a, t₁, hget, ha, hida, hrep⟩ := getAccount_represented (P := P) hs h id
  have hs₁ := (hs.getAccount hget).1
  generalize getAccount P s₁ id = g at hida hrep
  rw [← modifyAccount_view g.1 (hnote warn)] at hrep
  generalize g.2.modifyAccount g.1 (noteSanity warn) = s₂ at hrep
  generalize (s₂.mem.rqs rq).write = write
  have hq : RefersTo L t₁ (a + L.queue write) (g.1, write) := ⟨a, ha, hida, rfl⟩
  have hk : g.1 ∈ s₂.accounts.keys := hrep.mem_keys.mpr ⟨a, ha, hida⟩
  obtain ⟨queue, hqueue, hr, hc⟩ := hrep.queue hq
  refine ⟨.add id ok write rq,
    t₁.setQueue (a + L.queue write) { queue with reqs := queue.reqs ++ [rq], count := queue.count + 1 },
    ?_, ?_⟩
  · unfold Tables.step Tables.tbucketAddRequest Tables.queuePush
    simp only [hget, Option.bind_some, hqueue, Option.map_some]
  · have hset := Represents.setQueue hs₁ hrep hq
      { queue with reqs := queue.reqs ++ [rq], count := queue.count + 1 }
    rw [hr, hc] at hset
    rw [hr, hc]
    have hview : (s₂.setQueue (g.1, write) (queuePush (s₂.queue (g.1, write)) rq)).view =
        s₂.view.setQueue (g.1, write) _ := view_setQueue hk _
    exact hview.symm ▸ hset

theorem tbucketKvSet_represented (hs : Sound L bucket t) (h : Represents L t s.view) (id : Int)
    (key : String) (val : Int) : ∃ e t', Tables.step L bucket t e = some t' ∧
      Represents L t' (tbucketKvSet P s id key val).view := by
  unfold tbucketKvSet
  by_cases hdebug : key = "debug"
  · refine ⟨.kvSet id key true, t, ?_, ?_⟩
    · simp [Tables.step, Tables.tbucketKvSet, hdebug]
    · rw [if_pos hdebug]
      exact h
  by_cases hid : id = 0
  · refine ⟨.kvSet id key true, t, ?_, ?_⟩
    · simp [Tables.step, Tables.tbucketKvSet, hid]
    · simpa only [hdebug, hid, if_false, ne_eq, not_true_eq_false] using h
  obtain ⟨ok, a, t₁, hget, -, -, hrep⟩ := getAccount_represented (P := P) hs h id
  refine ⟨.kvSet id key ok, t₁, ?_, ?_⟩
  · simp [Tables.step, Tables.tbucketKvSet, hdebug, hid, hget]
  · simp only [hdebug, hid, if_false, ne_eq, not_false_eq_true, if_true]
    split
    · rw [modifyAccount_view _ (kvApply_queue key val)]
      exact hrep
    · exact hrep

/-- The accounts that a step makes come from calls of `get_account`. -/
theorem run_getAccount (calls : Calls) : ∀ t : Tables,
    run (Tables.step L bucket) t (calls.map fun c => .getAccount c.1 c.2) =
      t.accountForReq L bucket calls := by
  induction calls with
  | nil =>
    intro t
    rfl
  | cons c calls ih =>
    intro t
    unfold Tables.accountForReq
    simp only [List.map_cons, run, Tables.step, List.foldlM_cons]
    cases (t.getAccount L bucket c.1 c.2).map (·.2) with
    | none => rfl
    | some t' => exact ih t'

theorem run_of_grows (hs : Sound L bucket t) (h : Represents L t s.view) (hg : Grows s s') :
    ∃ es t', run (Tables.step L bucket) t es = some t' ∧ Represents L t' s'.view := by
  obtain ⟨calls, t', ht', -, hrep⟩ := grows_represented hs h hg
  exact ⟨_, t', (run_getAccount calls t).trans ht', hrep⟩

theorem run_of_step (h : ∃ e t', Tables.step L bucket t e = some t' ∧ Represents L t' v) :
    ∃ es t', run (Tables.step L bucket) t es = some t' ∧ Represents L t' v := by
  obtain ⟨e, t', ht', hrep⟩ := h
  refine ⟨[e], t', ?_, hrep⟩
  simp only [run, ht']

/-- A step of the hooks, with its tokens and clocks, is a run of the tables. -/
theorem step_represented {w w' : World} {e : Event} (he : e.NoMerge) (hs : Sound L bucket t)
    (h : Represents L t w.tb.view) (hw : step P w e = some w') :
    ∃ es t', run (Tables.step L bucket) t es = some t' ∧ Represents L t' w'.tb.view := by
  cases e with
  | add rq cur =>
    simp only [step, Option.ite_none_left_eq_some, Option.some.injEq] at hw
    obtain ⟨-, rfl⟩ := hw
    exact run_of_step (tbucketAddRequest_represented hs h rq cur)
  | merge rq next => exact he.elim
  | dispatch force =>
    obtain ⟨r, hr, rfl⟩ := Option.map_eq_some_iff.mp hw
    exact run_of_step (tbucketDispatch_represented hs h hr)
  | complete =>
    cases hw
    exact ⟨[], t, rfl, h⟩
  | kvSet id key val =>
    cases hw
    exact run_of_step (tbucketKvSet_represented hs h id key val)
  | dirty q l task bSize inode pos =>
    cases hw
    unfold dirtyBuffer
    simp only
    split
    · unfold tbucketCausesDirty
      exact run_of_grows (s := { w.tb with mem := dirtyMem P _ l inode pos, env := _ }) hs h
        (foldl_chargeEstimate_grows P _ _ _)
    · exact ⟨[], t, rfl, h⟩
  | free l =>
    cases hw
    exact run_of_grows hs h (freeCauseList_grows P _ _)
  | throttle id uniq =>
    obtain ⟨r, hr, rfl⟩ := Option.map_eq_some_iff.mp hw
    exact run_of_grows hs h (maybeSleep_grows hr)
  | kernel m =>
    cases hw
    exact ⟨[], t, rfl, h⟩

theorem init_represents (brk : Nat) {m : Mem} {env : Env} (h : tbucketInitQueue P m env = some s) :
    Represents L (Tables.init L bucket brk) s.view := by
  have hfresh := (tbucketInitQueue_fresh h).1
  have hview : s.view = View.create ⟨[], [], 0, fun _ => ([], 0)⟩ defaultAccount := by
    unfold State.view View.create
    rw [hfresh.keys, hfresh.queues, hfresh.queuesCount]
    congr 1
    funext ref
    rw [hfresh.queue]
    rfl
  rw [hview]
  have hempty : Represents L ⟨fun _ => none, fun _ => none, fun _ => [], [], [], 0, brk⟩
      ⟨[], [], 0, fun _ => ([], 0)⟩ := by
    refine ⟨rfl, .nil, rfl, ?_⟩
    rintro q ref ⟨a, ha, -⟩
    cases ha
  exact Represents.create (linked_empty brk) hempty List.not_mem_nil fun _ => rfl

/-- Every run of the hooks is a run of the tables. -/
theorem run_represented (brk : Nat) {m : Mem} {env : Env} (h0 : tbucketInitQueue P m env = some s)
    {es : List Event} {w : World} (hes : ∀ e ∈ es, e.NoMerge)
    (hr : run (step P) (World.init s) es = some w) :
    ∃ es' t, run (Tables.step L bucket) (Tables.init L bucket brk) es' = some t ∧
      Represents L t w.tb.view := by
  have hmeets := (meets_iff_forall hr).mpr hes
  refine run_invariant_of_meets (I := fun w : World => ∃ es' t,
    run (Tables.step L bucket) (Tables.init L bucket brk) es' = some t ∧ Represents L t w.tb.view)
    (fun w e w' hs he hI => ?_) hr hmeets ⟨[], _, rfl, init_represents brk h0⟩
  obtain ⟨es₁, t₁, ht₁, hrep₁⟩ := hI
  have hsound : Sound L bucket t₁ := run_sound (init_sound brk) ht₁
  obtain ⟨es₂, t₂, ht₂, hrep₂⟩ := step_represented he hsound hrep₁ hs
  exact ⟨es₁ ++ es₂, t₂, run_append ht₁ ht₂, hrep₂⟩

end

end Tb
end SplitSched
