import SplitSched.Lib.RbTree
import SplitSched.Lib.StableOrder
import SplitSched.Lib.Run

/-!
# SplitSched.ExpireRb

The expiry trees (expire_rb.c and io_work_expire_rb.c): requests, or elements of type `struct io_work`, in a
red-black tree of the kernel that is searched by the expiry, an `unsigned long`. The two files have the same
functions for the two types; what is proved is proved for both (`Element`).

* `rbAdd`, `rbDel`, `rbFind`: the functions, over the nodes and expiries of all elements. The elements' node
  and expiry are `expire_rb_node` and `csd.llist.next`, or `rb_node` and `expire`.
* `step`: a tree in use. Elements are added and deleted; the fields of those outside change at will.
* `run_stableQueue`: whatever has been added and deleted, the tree is a stable priority queue
  (`StableQueue`), for any functions that rebalance it (`Rebalancing`).
-/

namespace SplitSched
namespace ExpireRb

variable {α : Type} [DecidableEq α] {w : Nat}

/-! ## The functions -/

/-- `while (*p)`: the link `p` where the element goes, and its parent. -/
def rbAddLoop (expire : α → Fin (2 ^ w)) (x : α) :
    Nat → RbMem α → Link α → Option α → Option (Option α × Link α)
  | 0, _, _, _ => none
  | fuel + 1, m, p, parent =>
    match m.read p with
    | none => some (parent, p)
    | some y =>
      if expire x < expire y then rbAddLoop expire x fuel m (.child y .left) (some y)
      else if expire x ≥ expire y then rbAddLoop expire x fuel m (.child y .right) (some y)
      else rbAddLoop expire x fuel m p (some y)

def rbAdd (R : Rebalancing α) (fuel : Nat) (expire : α → Fin (2 ^ w)) (m : RbMem α) (x : α) :
    Option (RbMem α) :=
  (rbAddLoop expire x fuel m .root none).bind fun (parent, p) =>
    R.rbInsertColor fuel (m.rbLinkNode x parent p) x

/-- `BUG_ON` stops the kernel. -/
def rbDel (R : Rebalancing α) (fuel : Nat) (m : RbMem α) (x : α) : Option (RbMem α) :=
  if m.rbEmptyNode x then none
  else (R.rbErase fuel m x).map fun m => m.rbClearNode x

/-- `while (n)`. -/
def rbFindLoop (expire : α → Fin (2 ^ w)) (e : Fin (2 ^ w)) :
    Nat → RbMem α → Option α → Option (Option α)
  | _, _, none => some none
  | 0, _, some _ => none
  | fuel + 1, m, some n =>
    if e < expire n then rbFindLoop expire e fuel m (m.read (.child n .left))
    else if e > expire n then rbFindLoop expire e fuel m (m.read (.child n .right))
    else some (some n)

def rbFind (fuel : Nat) (expire : α → Fin (2 ^ w)) (m : RbMem α) (e : Fin (2 ^ w)) : Option (Option α) :=
  rbFindLoop expire e fuel m m.root

/-- A line of the log. -/
inductive Printk (α : Type) (w : Nat) where
  | text (s : String)
  | entry (format : String) (x : α) (expire : Fin (2 ^ w))
  deriving DecidableEq, Repr

structure DumpTexts where
  empty : String
  begins : String
  entry : String
  ends : String

def dumpRbTree (texts : DumpTexts) (fuel : Nat) (expire : α → Fin (2 ^ w)) (m : RbMem α) :
    Option (List (Printk α w)) :=
  (m.rbExtreme .left fuel).bind fun first =>
    (RbMem.walk (m.rbStep .left fuel) fuel first).map fun xs =>
      (if first = none then [Printk.text texts.empty] else []) ++ [Printk.text texts.begins] ++
        (xs.map fun x => Printk.entry texts.entry x (expire x)) ++ [Printk.text texts.ends]

/-! ### Requests -/

def expireRbAdd (R : Rebalancing α) (fuel : Nat) (expire : α → Fin (2 ^ w)) (m : RbMem α) (rq : α) :
    Option (RbMem α) := rbAdd R fuel expire m rq

def expireRbDel (R : Rebalancing α) (fuel : Nat) (m : RbMem α) (rq : α) : Option (RbMem α) :=
  rbDel R fuel m rq

def expireRbFind (fuel : Nat) (expire : α → Fin (2 ^ w)) (m : RbMem α) (e : Fin (2 ^ w)) :
    Option (Option α) := rbFind fuel expire m e

def expireRbFirstRequest (fuel : Nat) (m : RbMem α) : Option (Option α) := m.rbExtreme .left fuel

def expireRbLastRequest (fuel : Nat) (m : RbMem α) : Option (Option α) := m.rbExtreme .right fuel

def expireRbPrevRequest (fuel : Nat) (m : RbMem α) (rq : α) : Option (Option α) := m.rbStep .right fuel rq

def expireRbNextRequest (fuel : Nat) (m : RbMem α) (rq : α) : Option (Option α) := m.rbStep .left fuel rq

def expireRbTexts : DumpTexts where
  empty := "\nempty expire rb tree\n"
  begins := "expire rb tree dump begins\n"
  entry := "rq %p expire time %lu\n"
  ends := "expire rb tree dump ends\n\n"

def dumpExpireRbTree (fuel : Nat) (expire : α → Fin (2 ^ w)) (m : RbMem α) : Option (List (Printk α w)) :=
  dumpRbTree expireRbTexts fuel expire m

/-! ### Elements of type `struct io_work` -/

def ioWorkExpireRbAdd (R : Rebalancing α) (fuel : Nat) (expire : α → Fin (2 ^ w)) (m : RbMem α) (ioWork : α) :
    Option (RbMem α) := rbAdd R fuel expire m ioWork

def ioWorkExpireRbDel (R : Rebalancing α) (fuel : Nat) (m : RbMem α) (ioWork : α) : Option (RbMem α) :=
  rbDel R fuel m ioWork

def ioWorkExpireRbFind (fuel : Nat) (expire : α → Fin (2 ^ w)) (m : RbMem α) (e : Fin (2 ^ w)) :
    Option (Option α) := rbFind fuel expire m e

def ioWorkExpireRbFirstWork (fuel : Nat) (m : RbMem α) : Option (Option α) := m.rbExtreme .left fuel

def ioWorkExpireRbLastWork (fuel : Nat) (m : RbMem α) : Option (Option α) := m.rbExtreme .right fuel

def ioWorkExpireRbPrevWork (fuel : Nat) (m : RbMem α) (ioWork : α) : Option (Option α) :=
  m.rbStep .right fuel ioWork

def ioWorkExpireRbNextWork (fuel : Nat) (m : RbMem α) (ioWork : α) : Option (Option α) :=
  m.rbStep .left fuel ioWork

/-- The last line, too, says that the dump begins. -/
def ioWorkExpireRbTexts : DumpTexts where
  empty := "io_work_expire_rb_tree empty\n"
  begins := "\nio_work_expire_rb_tree dump begins\n"
  entry := "io_work %p expire %lu\n"
  ends := "io_work_expire_rb_tree dump begins\n\n"

def dumpIoWorkExpireRbTree (fuel : Nat) (expire : α → Fin (2 ^ w)) (m : RbMem α) :
    Option (List (Printk α w)) :=
  dumpRbTree ioWorkExpireRbTexts fuel expire m

/-! ### Both files -/

inductive Element where
  | request
  | ioWork
  deriving DecidableEq, Repr

namespace Element

def add (k : Element) (R : Rebalancing α) (fuel : Nat) (expire : α → Fin (2 ^ w)) (m : RbMem α) (x : α) :
    Option (RbMem α) :=
  match k with
  | request => expireRbAdd R fuel expire m x
  | ioWork => ioWorkExpireRbAdd R fuel expire m x

def del (k : Element) (R : Rebalancing α) (fuel : Nat) (m : RbMem α) (x : α) : Option (RbMem α) :=
  match k with
  | request => expireRbDel R fuel m x
  | ioWork => ioWorkExpireRbDel R fuel m x

def find (k : Element) (fuel : Nat) (expire : α → Fin (2 ^ w)) (m : RbMem α) (e : Fin (2 ^ w)) :
    Option (Option α) :=
  match k with
  | request => expireRbFind fuel expire m e
  | ioWork => ioWorkExpireRbFind fuel expire m e

def first (k : Element) (fuel : Nat) (m : RbMem α) : Option (Option α) :=
  match k with
  | request => expireRbFirstRequest fuel m
  | ioWork => ioWorkExpireRbFirstWork fuel m

def next (k : Element) (fuel : Nat) (m : RbMem α) (x : α) : Option (Option α) :=
  match k with
  | request => expireRbNextRequest fuel m x
  | ioWork => ioWorkExpireRbNextWork fuel m x

def last (k : Element) (fuel : Nat) (m : RbMem α) : Option (Option α) :=
  match k with
  | request => expireRbLastRequest fuel m
  | ioWork => ioWorkExpireRbLastWork fuel m

def prev (k : Element) (fuel : Nat) (m : RbMem α) (x : α) : Option (Option α) :=
  match k with
  | request => expireRbPrevRequest fuel m x
  | ioWork => ioWorkExpireRbPrevWork fuel m x

def texts : Element → DumpTexts
  | request => expireRbTexts
  | ioWork => ioWorkExpireRbTexts

def dump (k : Element) (fuel : Nat) (expire : α → Fin (2 ^ w)) (m : RbMem α) : Option (List (Printk α w)) :=
  match k with
  | request => dumpExpireRbTree fuel expire m
  | ioWork => dumpIoWorkExpireRbTree fuel expire m

/-- From the first element on, as the dump goes. -/
def iterate (k : Element) (fuel : Nat) (m : RbMem α) : Option (List α) :=
  (k.first fuel m).bind (RbMem.walk (k.next fuel m) fuel)

/-- From the last element back. -/
def iterateBack (k : Element) (fuel : Nat) (m : RbMem α) : Option (List α) :=
  (k.last fuel m).bind (RbMem.walk (k.prev fuel m) fuel)

variable (k : Element)

theorem add_eq (R : Rebalancing α) (fuel : Nat) (expire : α → Fin (2 ^ w)) (m : RbMem α) (x : α) :
    k.add R fuel expire m x = rbAdd R fuel expire m x := by cases k <;> rfl

theorem del_eq (R : Rebalancing α) (fuel : Nat) (m : RbMem α) (x : α) :
    k.del R fuel m x = rbDel R fuel m x := by cases k <;> rfl

omit [DecidableEq α] in
theorem find_eq (fuel : Nat) (expire : α → Fin (2 ^ w)) (m : RbMem α) (e : Fin (2 ^ w)) :
    k.find fuel expire m e = rbFind fuel expire m e := by cases k <;> rfl

omit [DecidableEq α] in
theorem first_eq (fuel : Nat) (m : RbMem α) : k.first fuel m = m.rbExtreme .left fuel := by cases k <;> rfl

theorem iterate_eq (fuel : Nat) (m : RbMem α) : k.iterate fuel m = m.rbWalk .left fuel := by cases k <;> rfl

theorem dump_eq (fuel : Nat) (expire : α → Fin (2 ^ w)) (m : RbMem α) :
    k.dump fuel expire m = dumpRbTree k.texts fuel expire m := by cases k <;> rfl

theorem iterateBack_eq (fuel : Nat) (m : RbMem α) : k.iterateBack fuel m = m.rbWalk .right fuel := by
  cases k <;> rfl

end Element

/-! ## A tree in use -/

/-- The tree's memory and the elements' expiries; `live` has the elements that have been added and not yet
deleted, in the order of their additions. -/
structure State (α : Type) (w : Nat) where
  rb : RbMem α
  expire : α → Fin (2 ^ w)
  live : List α

/-- An element outside the tree may be freed, used again or put into another tree: its node and its expiry
change. -/
inductive Event (α : Type) (w : Nat) where
  | add (x : α)
  | del (x : α)
  | setNode (x : α) (n : RbNode α)
  | setExpire (x : α) (e : Fin (2 ^ w))

def step (R : Rebalancing α) (k : Element) (s : State α w) : Event α w → Option (State α w)
  | .add x =>
    (k.add R (s.live.length + 2) s.expire s.rb x).map fun m => { s with rb := m, live := s.live ++ [x] }
  | .del x =>
    (k.del R (s.live.length + 1) s.rb x).map fun m => { s with rb := m, live := s.live.erase x }
  | .setNode x n => some { s with rb := { s.rb with nodes := Function.update s.rb.nodes x n } }
  | .setExpire x e => some { s with expire := Function.update s.expire x e }

/-- Only an element of the tree is deleted, and only one that is not in the tree is added or changed. -/
def ProperUse (s : State α w) : Event α w → Prop
  | .add x => x ∉ s.live
  | .del x => x ∈ s.live
  | .setNode x _ => x ∉ s.live
  | .setExpire x _ => x ∉ s.live

instance (s : State α w) (e : Event α w) : Decidable (ProperUse s e) := by
  cases e <;> unfold ProperUse <;> infer_instance

/-- `RB_ROOT`. -/
def State.Initial (s : State α w) : Prop := s.rb.root = none ∧ s.live = []

/-- What the tree is for. -/
structure StableQueue (k : Element) (s : State α w) : Prop where
  inorder : ∃ t, s.rb.Represents t ∧ StableOrder s.expire s.live t.inorder
  first : ∀ fuel, s.live.length < fuel →
    k.first fuel s.rb = some (s.live.find? fun x => ∀ y ∈ s.live, s.expire x ≤ s.expire y)
  iterate : ∀ fuel, s.live.length < fuel →
    ∃ xs, k.iterate fuel s.rb = some xs ∧ StableOrder s.expire s.live xs ∧ xs.Nodup ∧
      ∀ x, x ∈ xs ↔ x ∈ s.live
  find : ∀ fuel, s.live.length < fuel → ∀ e, ∃ r, k.find fuel s.expire s.rb e = some r ∧
    (r ≠ none ↔ ∃ x ∈ s.live, s.expire x = e) ∧ ∀ x ∈ r, x ∈ s.live ∧ s.expire x = e

/-! ## The tree in order -/

def Ordered (R : Rebalancing α) (s : State α w) : Prop :=
  ∃ t, R.Balanced s.rb t ∧ StableOrder s.expire s.live t.inorder

def sideOf (expire : α → Fin (2 ^ w)) (x y : α) : Side := if expire x < expire y then .left else .right

omit [DecidableEq α] in
/-- The third branch of the loop is never taken. -/
theorem rbAddLoop_eq (expire : α → Fin (2 ^ w)) (x : α) (m : RbMem α) :
    ∀ fuel p parent, rbAddLoop expire x fuel m p parent = RbMem.descend (sideOf expire x) fuel m p parent := by
  intro fuel
  induction fuel with
  | zero => exact fun p parent => rfl
  | succ fuel ih =>
    intro p parent
    simp only [rbAddLoop, RbMem.descend]
    cases m.read p with
    | none => rfl
    | some y =>
      by_cases hlt : expire x < expire y
      · simp only [hlt, if_true, ih, sideOf]
      · have hge : expire x ≥ expire y := not_lt.mp hlt
        simp only [hlt, hge, if_true, if_false, ih, sideOf]

omit [DecidableEq α] in
/-- Elements with expiries up to its own come before the new one. -/
theorem insertLeaf_stableOrder {expire : α → Fin (2 ^ w)} {live : List α} {t : RbTree α}
    (h : StableOrder expire live t.inorder) (x : α) :
    StableOrder expire (live ++ [x]) (t.insertLeaf (sideOf expire x) x).inorder := by
  have hmono : t.inorder.Pairwise fun y z => sideOf expire x y = .left → sideOf expire x z = .left := by
    refine h.sorted.imp fun {y z} hyz hy => ?_
    by_cases hlt : expire x < expire y
    · exact if_pos (hlt.trans_le hyz)
    · simp only [sideOf, hlt, if_false] at hy
      cases hy
  obtain ⟨as, bs, hold, hnew, has, hbs⟩ := RbTree.insertLeaf_inorder (sideOf expire x) x hmono
  rw [hold] at h
  rw [hnew]
  refine h.insert (fun y hy => ?_) (fun y hy => ?_)
  · have hside := has y hy
    by_contra hlt
    simp only [sideOf, not_le.mp hlt, if_true] at hside
    cases hside
  · have hside := hbs y hy
    by_contra hlt
    simp only [sideOf, hlt, if_false] at hside
    cases hside

theorem add_ordered {R : Rebalancing α} {s : State α w} (h : Ordered R s) (k : Element) {x : α}
    (hx : x ∉ s.live) : ∃ s', step R k s (.add x) = some s' ∧ Ordered R s' := by
  obtain ⟨t, hbalanced, horder⟩ := h
  have hlength := horder.perm.length_eq
  have hxt : x ∉ t.inorder := fun hmem => hx ((horder.mem_iff x).mp hmem)
  have hfuel : t.inorder.length + 1 < s.live.length + 2 := by omega
  obtain ⟨parent, link, hdescend, hleaf⟩ := RbMem.descend_represents (R.represents hbalanced)
    (sideOf s.expire x) hxt (Nat.lt_of_succ_lt hfuel)
  obtain ⟨m', t', hcolor, hbalanced', hinorder⟩ := R.insertColor_inorder hbalanced hxt hleaf hfuel
  refine ⟨{ s with rb := m', live := s.live ++ [x] }, ?_, t', hbalanced', ?_⟩
  · simp only [step, k.add_eq, rbAdd, rbAddLoop_eq, hdescend, Option.bind_some, hcolor, Option.map_some]
  · rw [hinorder]
    exact insertLeaf_stableOrder horder x

theorem del_ordered {R : Rebalancing α} {s : State α w} (h : Ordered R s) (k : Element) {x : α}
    (hx : x ∈ s.live) : ∃ s', step R k s (.del x) = some s' ∧ Ordered R s' := by
  obtain ⟨t, hbalanced, horder⟩ := h
  have hlength := horder.perm.length_eq
  have hxt : x ∈ t.inorder := (horder.mem_iff x).mpr hx
  have hrep := R.represents hbalanced
  have hnonempty : s.rb.rbEmptyNode x = false :=
    RbMem.Subtree.rbEmptyNode_eq hrep.nodup hrep.subtree (fun q hq => by cases hq) x hxt
  have hfuel : t.inorder.length < s.live.length + 1 := by omega
  obtain ⟨m', t', herase, hbalanced', hinorder⟩ := R.erase_inorder hbalanced hxt hfuel
  refine ⟨{ s with rb := m'.rbClearNode x, live := s.live.erase x }, ?_, t', ?_, ?_⟩
  · simp only [step, k.del_eq, rbDel, hnonempty, herase, Option.map_some, Bool.false_eq_true, if_false]
  · -- the node that is cleared is no longer in the tree
    refine R.balanced_congr hbalanced' rfl fun y hy => Function.update_of_ne ?_ _ _
    rintro rfl
    rw [hinorder] at hy
    exact hrep.nodup.not_mem_erase hy
  · rw [hinorder]
    exact horder.erase x

theorem outside_ordered {R : Rebalancing α} {s : State α w} (h : Ordered R s) {nodes : α → RbNode α}
    {expire : α → Fin (2 ^ w)} (hnodes : ∀ x ∈ s.live, nodes x = s.rb.nodes x)
    (hexpire : ∀ x ∈ s.live, expire x = s.expire x) :
    Ordered R { s with rb := { s.rb with nodes := nodes }, expire := expire } := by
  obtain ⟨t, hbalanced, horder⟩ := h
  refine ⟨t, R.balanced_congr hbalanced rfl fun x hx => ?_, horder.congr hexpire⟩
  exact hnodes x ((horder.mem_iff x).mp hx)

theorem step_ordered (R : Rebalancing α) (k : Element) (s : State α w) (e : Event α w) (he : ProperUse s e)
    (h : Ordered R s) : ∃ s', step R k s e = some s' ∧ Ordered R s' := by
  cases e with
  | add x => exact add_ordered h k he
  | del x => exact del_ordered h k he
  | setNode x n =>
    refine ⟨_, rfl, outside_ordered h (fun y hy => Function.update_of_ne ?_ _ _) fun y _ => rfl⟩
    rintro rfl
    exact he hy
  | setExpire x e =>
    refine ⟨_, rfl, outside_ordered h (fun y _ => rfl) fun y hy => Function.update_of_ne ?_ _ _⟩
    rintro rfl
    exact he hy

theorem initial_ordered (R : Rebalancing α) {s : State α w} (h : s.Initial) : Ordered R s := by
  obtain ⟨hroot, hlive⟩ := h
  refine ⟨.nil, R.balanced_nil hroot, ?_⟩
  rw [hlive]
  exact .nil s.expire

/-! ## What the functions return -/

omit [DecidableEq α] in
/-- By induction on the tree. The subtree that the search does not enter has expiries that are too large or too
small. -/
theorem rbFindLoop_eq {m : RbMem α} {expire : α → Fin (2 ^ w)} {t : RbTree α}
    (hsorted : t.inorder.Pairwise fun x y => expire x ≤ expire y) (e : Fin (2 ^ w)) :
    ∀ (fuel : Nat) {parent p : Option α}, t.inorder.length < fuel → m.Subtree t parent p →
      ∃ r, rbFindLoop expire e fuel m p = some r ∧ (∀ x ∈ r, x ∈ t.inorder ∧ expire x = e) ∧
        (r = none → ∀ x ∈ t.inorder, expire x ≠ e) := by
  induction t with
  | nil =>
    rintro fuel parent p hfuel ⟨⟩
    refine ⟨none, ?_, ?_, fun _ x hx => (List.not_mem_nil hx).elim⟩
    · cases fuel <;> rfl
    · rintro x ⟨⟩
  | node y sub ih =>
    rintro fuel parent p hfuel ⟨rfl, hparent, hsub⟩
    have hlt := RbTree.length_sub_lt y sub
    obtain ⟨fuel, rfl⟩ := Nat.exists_eq_add_one_of_ne_zero (Nat.ne_zero_of_lt hfuel)
    rw [RbTree.inorder_node] at hsorted
    obtain ⟨hleft, hright, hcross⟩ := List.pairwise_append.mp hsorted
    obtain ⟨hy, hright⟩ := List.pairwise_cons.mp hright
    have hsubs : ∀ d, (sub d).inorder.Pairwise fun x y => expire x ≤ expire y := by
      intro d
      cases d with
      | left => exact hleft
      | right => exact hright
    -- the search goes on at the side `d`, and on the other one are only other expiries
    have hdown : ∀ d, expire y ≠ e → (∀ x ∈ (sub d.other).inorder, expire x ≠ e) →
        ∃ r, rbFindLoop expire e fuel m (m.read (.child y d)) = some r ∧
          (∀ x ∈ r, x ∈ (RbTree.node y sub).inorder ∧ expire x = e) ∧
          (r = none → ∀ x ∈ (RbTree.node y sub).inorder, expire x ≠ e) := by
      intro d hye hother
      have hltd := hlt d
      obtain ⟨r, hr, hfound, hnone⟩ := ih d (hsubs d) fuel (by omega) (hsub d)
      refine ⟨r, hr, fun x hx => ?_, fun hrn x hx => ?_⟩
      · exact ⟨RbTree.mem_node.mpr (.inr ⟨d, (hfound x hx).1⟩), (hfound x hx).2⟩
      · rcases RbTree.mem_node.mp hx with rfl | ⟨d', hx⟩
        · exact hye
        · rcases d.eq_or_eq_other d' with rfl | rfl
          · exact hnone hrn x hx
          · exact hother x hx
    rcases lt_trichotomy e (expire y) with hey | hey | hey
    · simp only [rbFindLoop, hey, if_true]
      exact hdown .left hey.ne' fun x hx => (hey.trans_le (hy x hx)).ne'
    · refine ⟨some y, ?_, ?_, fun hnone => by cases hnone⟩
      · simp only [rbFindLoop, hey, gt_iff_lt, lt_irrefl, if_false]
      · rintro x ⟨⟩
        exact ⟨RbTree.mem_node.mpr (.inl rfl), hey.symm⟩
    · have hnot : ¬ e < expire y := hey.asymm
      simp only [rbFindLoop, hnot, hey, if_true, if_false]
      exact hdown .right hey.ne fun x hx => ((hcross x hx y List.mem_cons_self).trans_lt hey).ne

theorem Ordered.stableQueue {R : Rebalancing α} {s : State α w} (h : Ordered R s) (k : Element) :
    StableQueue k s := by
  obtain ⟨t, hbalanced, horder⟩ := h
  have hrep := R.represents hbalanced
  have hlength := horder.perm.length_eq
  refine ⟨⟨t, hrep, horder⟩, fun fuel hfuel => ?_, fun fuel hfuel => ?_, fun fuel hfuel e => ?_⟩
  · rw [k.first_eq, RbMem.rbExtreme_eq hrep .left (by omega)]
    exact congrArg some horder.head?_eq
  · refine ⟨t.inorder, ?_, horder, hrep.nodup, horder.mem_iff⟩
    rw [k.iterate_eq]
    exact RbMem.rbWalk_eq hrep .left (by omega)
  · obtain ⟨r, hr, hfound, hnone⟩ := rbFindLoop_eq horder.sorted e fuel (by omega) hrep.subtree
    have hfound' : ∀ x ∈ r, x ∈ s.live ∧ s.expire x = e := fun x hx =>
      ⟨(horder.mem_iff x).mp (hfound x hx).1, (hfound x hx).2⟩
    refine ⟨r, by rw [k.find_eq, rbFind, hr], ⟨fun hsome => ?_, ?_⟩, hfound'⟩
    · obtain ⟨x, rfl⟩ := Option.ne_none_iff_exists'.mp hsome
      exact ⟨x, hfound' x rfl⟩
    · rintro ⟨x, hx, hxe⟩ hrn
      exact hnone hrn x ((horder.mem_iff x).mpr hx) hxe

/-- The expiry trees are stable priority queues. No call gets stuck, and after any of them the elements are in
the order of their expiries, with equal ones in the order of their additions. The first element is the earliest
of those with the least expiry, the iteration has each element of the tree once, and a search finds an expiry
if and only if an element of the tree has it. -/
theorem run_stableQueue (R : Rebalancing α) (k : Element) (s : State α w) (h : s.Initial)
    (es : List (Event α w)) (hes : Meets (step R k) ProperUse s es) :
    ∃ s', run (step R k) s es = some s' ∧ StableQueue k s' := by
  obtain ⟨s', hrun, hordered⟩ := run_returns_of_meets (step_ordered R k) hes (initial_ordered R h)
  exact ⟨s', hrun, hordered.stableQueue k⟩

/-- Two elements with the expiry 5 and one with 3. The first is deleted and comes back with 3. -/
def sampleEvents : List (Event Nat 64) :=
  [.add 0, .add 1, .add 2, .del 0, .setExpire 0 3, .add 0]

def sampleStart : State Nat 64 where
  rb := ⟨none, fun x => ⟨some x, .red, none, none⟩⟩
  expire := fun x => if x = 1 then 3 else 5
  live := []

/-- The tree is a chain to the left, where an element is to the left of later ones with its expiry. -/
theorem run_stableQueue_sample :
    ∃ s, run (step (.chain .right) .request) sampleStart sampleEvents = some s ∧ s.live = [1, 2, 0] ∧
      Element.iterate .request 4 s.rb = some [1, 0, 2] ∧ StableQueue .request s := by
  have hresult : (run (step (.chain .right) .request) sampleStart sampleEvents).map
      (fun s => (s.live, Element.iterate .request 4 s.rb)) = some ([1, 2, 0], some [1, 0, 2]) := by
    decide +kernel
  obtain ⟨s, hrun, hqueue⟩ := run_stableQueue (.chain .right) .request sampleStart ⟨rfl, rfl⟩ sampleEvents
    (by decide +kernel)
  rw [hrun] at hresult
  obtain ⟨hlive, hiterate⟩ := Prod.mk.inj (Option.some.inj hresult)
  exact ⟨s, hrun, hlive, hiterate, hqueue⟩

/-! ## The other functions -/

section

variable {k : Element} {s : State α w} {fuel : Nat}

/-- The last element and the ones before it are the iteration backwards. -/
theorem StableQueue.iterateBack (h : StableQueue k s) (hfuel : s.live.length < fuel) :
    ∃ xs, k.iterate fuel s.rb = some xs ∧ k.iterateBack fuel s.rb = some xs.reverse := by
  obtain ⟨t, hrep, horder⟩ := h.inorder
  have hlength := horder.perm.length_eq
  refine ⟨t.inorder, ?_, ?_⟩
  · rw [k.iterate_eq]
    exact RbMem.rbWalk_eq hrep .left (by omega)
  · rw [k.iterateBack_eq, RbMem.rbWalk_eq hrep .right (by omega)]
    exact congrArg some (t.toList_other .left)

/-- The dump has a line for each element, in the order of the iteration. -/
theorem StableQueue.dump (h : StableQueue k s) (hfuel : s.live.length < fuel) :
    ∃ xs, k.iterate fuel s.rb = some xs ∧ k.dump fuel s.expire s.rb =
      some ((if s.live = [] then [Printk.text k.texts.empty] else []) ++ [Printk.text k.texts.begins] ++
        (xs.map fun x => Printk.entry k.texts.entry x (s.expire x)) ++ [Printk.text k.texts.ends]) := by
  obtain ⟨t, hrep, horder⟩ := h.inorder
  have hlength := horder.perm.length_eq
  have hfuel' : t.inorder.length < fuel := by omega
  have hwalk := RbMem.rbWalk_eq hrep .left hfuel'
  have hempty : (t.toList .left).head? = none ↔ s.live = [] := by
    rw [List.head?_eq_none_iff, ← List.length_eq_zero_iff, ← List.length_eq_zero_iff]
    exact hlength ▸ Iff.rfl
  refine ⟨t.inorder, by rw [k.iterate_eq, hwalk]; rfl, ?_⟩
  rw [RbMem.rbWalk, RbMem.rbExtreme_eq hrep .left hfuel', Option.bind_some] at hwalk
  simp only [k.dump_eq, dumpRbTree, RbMem.rbExtreme_eq hrep .left hfuel', Option.bind_some, hwalk,
    Option.map_some, hempty]
  rfl

/-- The node of a deleted element is cleared, so that `BUG_ON` catches a second deletion. -/
theorem del_twice (R : Rebalancing α) {s' : State α w} {x : α} (h : step R k s (.del x) = some s') :
    step R k s' (.del x) = none := by
  simp only [step, k.del_eq, rbDel] at h
  split at h
  · cases h
  · obtain ⟨m, hm, rfl⟩ := Option.map_eq_some_iff.mp h
    obtain ⟨m', hm', rfl⟩ := Option.map_eq_some_iff.mp hm
    simp only [step, k.del_eq, rbDel, RbMem.rbEmptyNode_rbClearNode, if_true, Option.map_none]

end

end ExpireRb
end SplitSched
