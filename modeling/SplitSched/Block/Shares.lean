import SplitSched.Block.Elevator
import SplitSched.Block.IoBatch
import SplitSched.Lib.Run

/-!
# SplitSched.Block.Shares

How a dirty buffer is charged. tbucket.c and acct_afq_sched.c compute the charge in the same words:
the cost of the list (an estimate of the seek, plus its size) is split evenly over the accounts on
it, and is split anew whenever an account joins.

* `dirtyCost`, `dirtyCharge`, `freeRefund`: what the schedulers compute.
* `Joins`: what one pass through the dirty hook does to the list and to the accounts' estimates,
  whichever scheduler is installed.
* `dirty_run`: after any sequence of distinct accounts has dirtied a list, each of them has been
  charged one even share of the cost, however the shares were rounded on the way.
-/

namespace SplitSched

open CArith

/-- What an account is charged when `newId` joins: its share of the cost, less the share it had
before. -/
def dirtyCharge (P : Platform) (totCost itemCount newId id : Int) : Int :=
  let charge := P.int (safeDiv totCost itemCount)
  if id ≠ newId then P.int (charge - safeDiv totCost (itemCount - 1)) else charge

/-- The cost of a list: the stored one, or a new estimate by a crude model of randomness. -/
def dirtyCost (P : Platform) (m : Mem) (l inode : Nat) (pos : Int) : Int :=
  let causes := m.lists l
  if causesGetCost causes ≤ 0 then P.long (seekTime pos (inodeGetPos m inode) + causes.size)
  else causesGetCost causes

def freeRefund (P : Platform) (causes : CauseList) : Int :=
  P.int (safeDiv (P.long causes.size) causes.itemCount)

def dirtyMem (P : Platform) (m : Mem) (l inode : Nat) (pos : Int) : Mem :=
  inodeSetPos (m.setList l (causesSetCost (m.lists l) (dirtyCost P m l inode pos))) inode
    (P.long (pos + (m.lists l).size))

/-! ## One account joins -/

def costWhenDirtied (P : Platform) (m : Mem) (l bSize inode : Nat) (pos : Int) : Int :=
  let size := if (m.lists l).callbackQ = none then bSize else (m.lists l).size
  if (m.lists l).priv ≤ 0 then P.long (seekTime pos (inodeGetPos m inode) + size)
  else (m.lists l).priv

structure Joins (P : Platform) (m m' : Mem) (est est' : Int → Int) (l : Nat) (a : Int)
    (bSize inode : Nat) (pos : Int) : Prop where
  items : (m'.lists l).items = (m.lists l).items ++ [a]
  priv : (m'.lists l).priv = costWhenDirtied P m l bSize inode pos
  size : (m'.lists l).size = if (m.lists l).callbackQ = none then bSize else (m.lists l).size
  callbackQ : (m'.lists l).callbackQ ≠ none
  schedUniq : (m'.lists l).schedUniq = m.schedUniq
  others : ∀ l', l' ≠ l → m'.lists l' = m.lists l'
  uniq : m'.schedUniq = m.schedUniq
  estimate : ∀ j, est' j =
    if j ∈ (m.lists l).items ++ [a] then
      P.long (est j + dirtyCharge P (costWhenDirtied P m l bSize inode pos)
        ((m.lists l).itemCount + 1) a j)
    else est j

theorem CauseList.itemCount_append {c c' : CauseList} {a : Int} (h : c'.items = c.items ++ [a]) :
    c'.itemCount = c.itemCount + 1 := by
  rw [c'.count_eq, c.count_eq, h, List.length_append, List.length_singleton]
  push_cast
  rfl

theorem Joins.of_hook {P : Platform} {m m' : Mem} {est est' : Int → Int} {l : Nat} {a : Int}
    {bSize inode : Nat} {pos : Int} {c : CauseList} (hitems : c.items = (m.lists l).items ++ [a])
    (hpriv : c.priv = (m.lists l).priv) (hcq : c.callbackQ ≠ none)
    (hsize : c.size = if (m.lists l).callbackQ = none then bSize else (m.lists l).size)
    (hu : c.schedUniq = m.schedUniq) (hm' : m' = dirtyMem P (m.setList l c) l inode pos)
    (hest : ∀ j, est' j =
      if j ∈ c.items then
        P.long (est j + dirtyCharge P (dirtyCost P (m.setList l c) l inode pos) c.itemCount a j)
      else est j) :
    Joins P m m' est est' l a bSize inode pos := by
  have hcost : dirtyCost P (m.setList l c) l inode pos = costWhenDirtied P m l bSize inode pos := by
    simp only [dirtyCost, costWhenDirtied, Mem.setList_lists_self, causesGetCost, hpriv, hsize,
      inodeGetPos, Mem.setList_inodePos]
  rw [hcost, CauseList.itemCount_append hitems, hitems] at hest
  have hl : m'.lists l = causesSetCost c (costWhenDirtied P m l bSize inode pos) := by
    simp [hm', dirtyMem, inodeSetPos, hcost]
  refine ⟨?_, ?_, ?_, ?_, ?_, ?_, ?_, hest⟩
  · rw [hl]; exact hitems
  · rw [hl]; rfl
  · rw [hl]; exact hsize
  · rw [hl]; exact hcq
  · rw [hl]; exact hu
  · intro l' hne
    simp [hm', dirtyMem, inodeSetPos, Mem.setList_lists_of_ne _ _ hne]
  · simp [hm', dirtyMem, inodeSetPos]

/-! ## A sequence of accounts -/

structure Dirtier where
  account : Int
  inode : Nat
  pos : Int

/-- Since `est₀`, the accounts `ids` have dirtied the list and bear one share of `cost` each. -/
structure DirtiedBy (P : Platform) (uniq : Int) (est₀ : Int → Int) (l bSize : Nat) (cost : Int)
    (ids : List Int) (m : Mem) (est : Int → Int) : Prop where
  items : (m.lists l).items = ids
  priv : (m.lists l).priv = cost
  size : (m.lists l).size = bSize
  callbackQ : (m.lists l).callbackQ ≠ none
  schedUniq : (m.lists l).schedUniq = m.schedUniq
  uniq : m.schedUniq = uniq
  estimate : ∀ j, est j =
    if j ∈ ids then P.long (est₀ j + safeDiv cost ids.length) else est₀ j

section

variable {P : Platform} {uniq cost : Int} {est₀ est est' : Int → Int} {l bSize inode : Nat}
  {m m' : Mem} {ids : List Int} {a pos : Int}

theorem int_share {n : Nat} (h0 : 0 ≤ cost) (h1 : cost < 2 ^ 31) :
    P.int (safeDiv cost n) = safeDiv cost n :=
  P.int_fits _ (le_trans (by norm_num) (safeDiv_nonneg h0 (Int.natCast_nonneg n)))
    (lt_of_le_of_lt (safeDiv_le _ h0) h1)

theorem int_share_sub {n k : Nat} (h0 : 0 ≤ cost) (h1 : cost < 2 ^ 31) :
    P.int (safeDiv cost n - safeDiv cost k) = safeDiv cost n - safeDiv cost k := by
  have hn := safeDiv_nonneg h0 (Int.natCast_nonneg n)
  have hk := safeDiv_nonneg h0 (Int.natCast_nonneg k)
  have hn' := safeDiv_le (n : Int) h0
  have hk' := safeDiv_le (k : Int) h0
  exact P.int_fits _ (by omega) (by omega)

theorem DirtiedBy.first (hitems : (m.lists l).items = []) (hpriv : (m.lists l).priv ≤ 0)
    (hq : (m.lists l).callbackQ = none)
    (hcost : cost = seekTime pos (inodeGetPos m inode) + bSize) (h1 : cost < 2 ^ 31)
    (hj : Joins P m m' est₀ est' l a bSize inode pos) :
    DirtiedBy P m.schedUniq est₀ l bSize cost [a] m' est' := by
  have h0 : 0 ≤ cost := by
    have := seekTime_nonneg pos (inodeGetPos m inode)
    omega
  have hc : costWhenDirtied P m l bSize inode pos = cost := by
    simp only [costWhenDirtied, hpriv, hq, if_true, ← hcost]
    exact P.long_fits _ (by omega) (by omega)
  have hcount : (m.lists l).itemCount = 0 := by simp [(m.lists l).count_eq, hitems]
  refine ⟨by rw [hj.items, hitems, List.nil_append], hj.priv.trans hc, by rw [hj.size, if_pos hq],
    hj.callbackQ, hj.schedUniq.trans hj.uniq.symm, hj.uniq, fun j => ?_⟩
  have hint : P.int cost = cost := P.int_fits _ (by omega) (by omega)
  rw [hj.estimate, hitems, hc, hcount, List.nil_append]
  by_cases hja : j = a
  · simp [hja, dirtyCharge, safeDiv_one, hint]
  · simp [hja]

theorem DirtiedBy.next (hd : DirtiedBy P uniq est₀ l bSize cost ids m est) (h0 : 0 < cost)
    (h1 : cost < 2 ^ 31) (ha : a ∉ ids)
    (hj : Joins P m m' est est' l a bSize inode pos) :
    DirtiedBy P uniq est₀ l bSize cost (ids ++ [a]) m' est' := by
  have hc : costWhenDirtied P m l bSize inode pos = cost := by
    rw [costWhenDirtied, hd.priv, if_neg (by omega)]
  have hcount : (m.lists l).itemCount = ids.length := by rw [(m.lists l).count_eq, hd.items]
  refine ⟨by rw [hj.items, hd.items], hj.priv.trans hc, by rw [hj.size, if_neg hd.callbackQ, hd.size],
    hj.callbackQ, hj.schedUniq.trans hj.uniq.symm, hj.uniq.trans hd.uniq, fun j => ?_⟩
  have hlen : ((ids ++ [a]).length : Int) = ids.length + 1 := by simp
  have hshare : P.int (safeDiv cost (ids.length + 1)) = safeDiv cost (ids.length + 1) := by
    exact_mod_cast int_share (n := ids.length + 1) h0.le h1
  rw [hj.estimate, hd.items, hc, hcount, hd.estimate, hlen]
  by_cases hja : j = a
  · subst hja
    simp [ha, dirtyCharge, hshare]
  · by_cases hmem : j ∈ ids
    · have hsub : P.int (safeDiv cost (ids.length + 1) - safeDiv cost ids.length) =
          safeDiv cost (ids.length + 1) - safeDiv cost ids.length := by
        exact_mod_cast int_share_sub (n := ids.length + 1) (k := ids.length) h0.le h1
      simp only [hmem, List.mem_append, true_or, if_true, dirtyCharge, hja, ne_eq,
        not_false_eq_true, hshare, add_sub_cancel_right, hsub, P.long_add]
      congr 1
      ring
    · simp [hmem, hja]

end

section

variable {σ : Type} {P : Platform} {l bSize : Nat} (mem : σ → Mem) (est : σ → Int → Int)
  (ok : σ → Prop) (step : σ → Dirtier → Option σ)

/-- The rule for a scheduler whose dirty hook does what `Joins` says: after any sequence of distinct
accounts has dirtied a new list, each of them bears one share of the first estimate of the cost. -/
theorem dirty_run
    (hstep : ∀ s d, ok s → d.account ∉ ((mem s).lists l).items →
      ((mem s).lists l).callbackQ = none ∨ ((mem s).lists l).schedUniq = (mem s).schedUniq →
      ∃ s', step s d = some s' ∧ ok s' ∧
        Joins P (mem s) (mem s') (est s) (est s') l d.account bSize d.inode d.pos)
    {s : σ} {d : Dirtier} {ds : List Dirtier} {cost : Int} (hok : ok s)
    (hitems : ((mem s).lists l).items = []) (hpriv : ((mem s).lists l).priv ≤ 0)
    (hq : ((mem s).lists l).callbackQ = none) (hb : 0 < bSize)
    (hcost : cost = seekTime d.pos (inodeGetPos (mem s) d.inode) + bSize) (h1 : cost < 2 ^ 31)
    (hnd : ((d :: ds).map Dirtier.account).Nodup) :
    ∃ s', run step s (d :: ds) = some s' ∧ ok s' ∧
      DirtiedBy P (mem s).schedUniq (est s) l bSize cost ((d :: ds).map Dirtier.account)
        (mem s') (est s') := by
  have h0 : 0 < cost := by
    have := seekTime_nonneg d.pos (inodeGetPos (mem s) d.inode)
    omega
  -- the invariant of the remaining passes: the accounts so far are charged evenly
  have hrest : ∀ (ds : List Dirtier) (ids : List Int) (t : σ), ok t →
      DirtiedBy P (mem s).schedUniq (est s) l bSize cost ids (mem t) (est t) →
      (ids ++ ds.map Dirtier.account).Nodup →
      ∃ s', run step t ds = some s' ∧ ok s' ∧ DirtiedBy P (mem s).schedUniq (est s) l bSize cost
        (ids ++ ds.map Dirtier.account) (mem s') (est s') := by
    intro ds
    induction ds with
    | nil => exact fun ids t ht hd _ => ⟨t, rfl, ht, by simpa using hd⟩
    | cons d ds ih =>
      intro ids t ht hd hnd
      have ha : d.account ∉ ids := by
        intro hm
        exact (List.disjoint_of_nodup_append hnd) hm (by simp)
      obtain ⟨t', hs, ht', hj⟩ := hstep t d ht (by rw [hd.items]; exact ha) (.inr hd.schedUniq)
      obtain ⟨s', hr, hs', hd'⟩ := ih (ids ++ [d.account]) t' ht' (hd.next h0 h1 ha hj)
        (by simpa using hnd)
      exact ⟨s', by simp only [run, hs, hr], hs', by simpa using hd'⟩
  obtain ⟨t, hs, ht, hj⟩ := hstep s d hok (by simp [hitems]) (.inl hq)
  obtain ⟨s', hr, hs', hd⟩ := hrest ds [d.account] t ht
    (DirtiedBy.first hitems hpriv hq hcost h1 hj) (by simpa using hnd)
  exact ⟨s', by simp only [run, hs, hr], hs', by simpa using hd⟩

end

end SplitSched
