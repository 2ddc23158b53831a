import Mathlib

/-!
# SplitSched.Lib.RbTree

Binary trees in memory, as `struct rb_node` and `struct rb_root` of the kernel lay them out: a node is a
part of its element and has pointers to the parent and to two children. The sides are data, so that what
is done on the left and on the right is proved once. A loop that runs out of fuel returns `none`.

* `RbTree`: trees, with their elements in order from either side.
* `RbMem.Represents`: the memory holds a tree.
* `descend_represents`: a search for a place ends at a link that is `NULL`, and a node that is linked there is
  a leaf of the tree (`RbTree.insertLeaf`).
* `rbExtreme_eq`, `rbStep_eq`, `rbWalk_eq`: `rb_first`, `rb_next` and their mirror images go through the
  elements in order, whatever shape the tree has.
* `Rebalancing`: what is assumed of `rb_insert_color` and `rb_erase`. Functions that write the tree as a chain
  meet it (`Rebalancing.chain`).
-/

namespace SplitSched

inductive Side where
  | left
  | right
  deriving DecidableEq, Repr

def Side.other : Side → Side
  | left => right
  | right => left

theorem Side.other_ne (d : Side) : d.other ≠ d := by cases d <;> decide

theorem Side.eq_or_eq_other (d e : Side) : e = d ∨ e = d.other := by cases d <;> cases e <;> decide

/-! ## Trees -/

inductive RbTree (α : Type) where
  | nil
  | node (x : α) (sub : Side → RbTree α)

variable {α : Type}

namespace RbTree

/-- The elements in order, from the side `d` on. -/
def toList (d : Side) : RbTree α → List α
  | nil => []
  | node x sub => toList d (sub d) ++ x :: toList d (sub d.other)

def inorder (t : RbTree α) : List α := t.toList .left

def root : RbTree α → Option α
  | nil => none
  | node x _ => some x

variable {t : RbTree α} {x y : α} {sub : Side → RbTree α} {d : Side}

theorem root_mem (h : t.root = some x) : x ∈ t.inorder := by
  cases t with
  | nil => cases h
  | node y sub =>
    cases h
    exact List.mem_append_right _ List.mem_cons_self

theorem toList_other (t : RbTree α) (d : Side) : t.toList d.other = (t.toList d).reverse := by
  induction t with
  | nil => rfl
  | node x sub ih =>
    have hother : d.other.other = d := by cases d <;> rfl
    have hd := ih d
    have hd' : (sub d.other).toList d.other = ((sub d.other).toList d).reverse := ih d.other
    simp only [toList, hother, hd, hd', List.reverse_append, List.reverse_cons, List.append_assoc,
      List.singleton_append]

theorem toList_perm (t : RbTree α) (d : Side) : (t.toList d).Perm t.inorder := by
  cases d with
  | left => exact .refl _
  | right =>
    have hother : t.toList .right = t.inorder.reverse := t.toList_other .left
    rw [hother]
    exact List.reverse_perm _

theorem mem_toList : x ∈ t.toList d ↔ x ∈ t.inorder := (t.toList_perm d).mem_iff

theorem length_toList (t : RbTree α) (d : Side) : (t.toList d).length = t.inorder.length :=
  (t.toList_perm d).length_eq

theorem inorder_node (x : α) (sub : Side → RbTree α) :
    (node x sub).inorder = (sub .left).inorder ++ x :: (sub .right).inorder := rfl

theorem mem_node : y ∈ (node x sub).inorder ↔ y = x ∨ ∃ d, y ∈ (sub d).inorder := by
  rw [inorder_node, List.mem_append, List.mem_cons]
  constructor
  · rintro (hy | hy | hy)
    · exact .inr ⟨.left, hy⟩
    · exact .inl hy
    · exact .inr ⟨.right, hy⟩
  · rintro (hy | ⟨d, hy⟩)
    · exact .inr (.inl hy)
    · cases d with
      | left => exact .inl hy
      | right => exact .inr (.inr hy)

theorem length_sub_lt (x : α) (sub : Side → RbTree α) (d : Side) :
    (sub d).inorder.length < (node x sub).inorder.length := by
  rw [inorder_node, List.length_append, List.length_cons]
  cases d <;> omega

/-- An element occurs once: at the node, or in one of the two subtrees. -/
theorem nodup_node (h : (node x sub).inorder.Nodup) :
    (∀ d, (sub d).inorder.Nodup) ∧ (∀ d, x ∉ (sub d).inorder) ∧
      ∀ d e, d ≠ e → ∀ y ∈ (sub d).inorder, y ∉ (sub e).inorder := by
  rw [inorder_node] at h
  obtain ⟨hleft, hright, hcross⟩ := List.nodup_append.mp h
  obtain ⟨hx, hright⟩ := List.nodup_cons.mp hright
  refine ⟨fun d => ?_, fun d => ?_, fun d e hde y hy hy' => ?_⟩
  · cases d with
    | left => exact hleft
    | right => exact hright
  · cases d with
    | left => exact fun hmem => hcross x hmem x List.mem_cons_self rfl
    | right => exact hx
  · cases d with
    | left =>
      cases e with
      | left => exact hde rfl
      | right => exact hcross y hy y (List.mem_cons_of_mem x hy') rfl
    | right =>
      cases e with
      | left => exact hcross y hy' y (List.mem_cons_of_mem x hy) rfl
      | right => exact hde rfl

/-- Where an element is in a list that is split at another one. -/
theorem split_cases {as bs cs ds : List α} (h : as ++ y :: bs = cs ++ x :: ds) :
    (∃ es, as = cs ++ x :: es ∧ ds = es ++ y :: bs) ∨ (y = x ∧ bs = ds) ∨
      ∃ es, bs = es ++ x :: ds := by
  rcases List.append_eq_append_iff.mp h with ⟨es, hcs, hes⟩ | ⟨es, has, hes⟩
  · cases es with
    | nil =>
      obtain ⟨hyx, hbs⟩ := List.cons.inj hes
      exact .inr (.inl ⟨hyx, hbs⟩)
    | cons z es =>
      obtain ⟨hz, hbs⟩ := List.cons.inj hes
      exact .inr (.inr ⟨es, hbs⟩)
  · cases es with
    | nil =>
      obtain ⟨hxy, hds⟩ := List.cons.inj hes
      exact .inr (.inl ⟨hxy.symm, hds.symm⟩)
    | cons z es =>
      obtain ⟨rfl, hds⟩ := List.cons.inj hes
      exact .inl ⟨es, has, hds⟩

/-- A new leaf; `side` tells where to go at each element. -/
def insertLeaf (side : α → Side) (x : α) : RbTree α → RbTree α
  | nil => node x fun _ => nil
  | node y sub => node y (Function.update sub (side y) (insertLeaf side x (sub (side y))))

theorem insertLeaf_perm (side : α → Side) (x : α) (t : RbTree α) :
    (t.insertLeaf side x).inorder.Perm (x :: t.inorder) := by
  induction t with
  | nil => exact .refl _
  | node y sub ih =>
    simp only [insertLeaf, inorder_node]
    cases hside : side y with
    | left =>
      rw [Function.update_self, Function.update_of_ne (by decide)]
      exact (ih .left).append_right _
    | right =>
      rw [Function.update_self, Function.update_of_ne (by decide)]
      have hright : (y :: ((sub .right).insertLeaf side x).inorder).Perm (x :: y :: (sub .right).inorder) :=
        ((ih .right).cons y).trans (.swap x y _)
      exact (hright.append_left _).trans List.perm_middle

/-- If the way to the left is never followed by one to the right, the leaf comes between the two. -/
theorem insertLeaf_inorder (side : α → Side) (x : α)
    (h : t.inorder.Pairwise fun y z => side y = .left → side z = .left) :
    ∃ as bs, t.inorder = as ++ bs ∧ (t.insertLeaf side x).inorder = as ++ x :: bs ∧
      (∀ y ∈ as, side y = .right) ∧ ∀ y ∈ bs, side y = .left := by
  induction t with
  | nil =>
    exact ⟨[], [], rfl, rfl, fun y hy => (List.not_mem_nil hy).elim, fun y hy => (List.not_mem_nil hy).elim⟩
  | node y sub ih =>
    rw [inorder_node] at h
    obtain ⟨hleft, hright, hcross⟩ := List.pairwise_append.mp h
    obtain ⟨hy, hright⟩ := List.pairwise_cons.mp hright
    cases hside : side y with
    | left =>
      obtain ⟨as, bs, hold, hnew, has, hbs⟩ := ih .left hleft
      refine ⟨as, bs ++ y :: (sub .right).inorder, ?_, ?_, has, fun z hz => ?_⟩
      · rw [inorder_node, hold, List.append_assoc]
      · simp only [insertLeaf, hside, inorder_node, Function.update_self]
        rw [Function.update_of_ne (by decide), hnew, List.append_assoc, List.cons_append]
      · rcases List.mem_append.mp hz with hz | hz
        · exact hbs z hz
        · rcases List.mem_cons.mp hz with rfl | hz
          · exact hside
          · exact hy z hz hside
    | right =>
      obtain ⟨as, bs, hold, hnew, has, hbs⟩ := ih .right hright
      refine ⟨(sub .left).inorder ++ y :: as, bs, ?_, ?_, fun z hz => ?_, hbs⟩
      · rw [inorder_node, hold, List.append_assoc, List.cons_append]
      · simp only [insertLeaf, hside, inorder_node, Function.update_self]
        rw [Function.update_of_ne (by decide), hnew, List.append_assoc, List.cons_append]
      · rcases List.mem_append.mp hz with hz | hz
        · -- an element on the left that sends to the left would have sent `y` there, too
          cases hz' : side z with
          | left =>
            have hy' := hcross z hz y List.mem_cons_self hz'
            rw [hside] at hy'
            cases hy'
          | right => rfl
        · rcases List.mem_cons.mp hz with rfl | hz
          · exact hside
          · exact has z hz

end RbTree

/-! ## Memory -/

inductive RbColor where
  | red
  | black
  deriving DecidableEq, Repr

/-- `struct rb_node`; `__rb_parent_color` is the parent and the color. -/
structure RbNode (α : Type) where
  parent : Option α
  color : RbColor
  left : Option α
  right : Option α
  deriving DecidableEq, Repr

namespace RbNode

def child (n : RbNode α) : Side → Option α
  | .left => n.left
  | .right => n.right

def setChild (n : RbNode α) (v : Option α) : Side → RbNode α
  | .left => { n with left := v }
  | .right => { n with right := v }

theorem child_setChild_self (n : RbNode α) (v : Option α) (d : Side) : (n.setChild v d).child d = v := by
  cases d <;> rfl

theorem child_setChild_of_ne (n : RbNode α) (v : Option α) {d e : Side} (h : e ≠ d) :
    (n.setChild v d).child e = n.child e := by
  cases d <;> cases e <;> first | rfl | exact absurd rfl h

theorem parent_setChild (n : RbNode α) (v : Option α) (d : Side) : (n.setChild v d).parent = n.parent := by
  cases d <;> rfl

end RbNode

/-- A tree's root, and the nodes of all elements. -/
structure RbMem (α : Type) where
  root : Option α
  nodes : α → RbNode α

/-- A variable of type `struct rb_node *`: the root, or a child pointer of a node. -/
inductive Link (α : Type) where
  | root
  | child (x : α) (d : Side)

def Link.owner : Link α → Option α
  | root => none
  | child x _ => some x

namespace RbMem

def read (m : RbMem α) : Link α → Option α
  | .root => m.root
  | .child x d => (m.nodes x).child d

variable {m m' : RbMem α} {l l' : Link α} {x y : α} {parent p : Option α}

/-- `p` points to the tree `t`, whose parent is `parent`. -/
def Subtree (m : RbMem α) : RbTree α → Option α → Option α → Prop
  | .nil, _, p => p = none
  | .node x sub, parent, p =>
    p = some x ∧ (m.nodes x).parent = parent ∧ ∀ d, Subtree m (sub d) (some x) (m.read (.child x d))

theorem Subtree.eq_root {t : RbTree α} (h : m.Subtree t parent p) : p = t.root := by
  cases t with
  | nil => exact h
  | node x sub => exact h.1

theorem Subtree.eq_nil {t : RbTree α} (h : m.Subtree t parent none) : t = .nil := by
  cases t with
  | nil => rfl
  | node x sub => cases h.1

theorem Subtree.parent_eq {t : RbTree α} (h : m.Subtree t parent (some x)) : (m.nodes x).parent = parent := by
  cases t with
  | nil => cases h
  | node y sub =>
    obtain ⟨⟨⟩, hparent, -⟩ := h
    exact hparent

structure Represents (m : RbMem α) (t : RbTree α) : Prop where
  subtree : m.Subtree t none m.root
  nodup : t.inorder.Nodup

/-- The elements of the tree have the same parents and children in `m'`. -/
def SameOn (m m' : RbMem α) (t : RbTree α) : Prop :=
  ∀ x ∈ t.inorder, (m'.nodes x).parent = (m.nodes x).parent ∧
    ∀ d, m'.read (.child x d) = m.read (.child x d)

theorem Subtree.congr {t : RbTree α} : ∀ {parent p : Option α}, m.Subtree t parent p → SameOn m m' t →
    m'.Subtree t parent p := by
  induction t with
  | nil => exact fun h _ => h
  | node x sub ih =>
    rintro parent p ⟨hp, hparent, hsub⟩ hsame
    obtain ⟨hparent', hchild⟩ := hsame x (RbTree.mem_node.mpr (.inl rfl))
    refine ⟨hp, hparent'.trans hparent, fun d => ?_⟩
    rw [hchild d]
    exact ih d (hsub d) fun y hy => hsame y (RbTree.mem_node.mpr (.inr ⟨d, hy⟩))

theorem Represents.congr {t : RbTree α} (h : m.Represents t) (hroot : m'.root = m.root)
    (hnodes : ∀ x ∈ t.inorder, m'.nodes x = m.nodes x) : m'.Represents t := by
  refine ⟨?_, h.nodup⟩
  rw [hroot]
  refine h.subtree.congr fun x hx => ⟨by rw [hnodes x hx], fun d => ?_⟩
  simp only [read, hnodes x hx]

theorem represents_nil (h : m.root = none) : m.Represents .nil := ⟨h, List.nodup_nil⟩

/-! ## The ends of the tree -/

/-- To the last node on the side `d`. -/
def toEnd (d : Side) : Nat → RbMem α → α → Option α
  | 0, _, _ => none
  | fuel + 1, m, n =>
    match m.read (.child n d) with
    | none => some n
    | some c => toEnd d fuel m c

/-- `rb_first` (`d` is the left) and `rb_last` (`d` is the right). -/
def rbExtreme (d : Side) (fuel : Nat) (m : RbMem α) : Option (Option α) :=
  match m.root with
  | none => some none
  | some n => (toEnd d fuel m n).map some

theorem Subtree.toEnd_eq {t : RbTree α} (d : Side) : ∀ (fuel : Nat) {parent : Option α} {n : α},
    t.inorder.length < fuel → m.Subtree t parent (some n) →
      ∃ e, toEnd d fuel m n = some e ∧ (t.toList d).head? = some e := by
  induction t with
  | nil =>
    intro fuel parent n hfuel hsub
    cases hsub
  | node y sub ih =>
    rintro fuel parent n hfuel ⟨⟨⟩, hparent, hsub⟩
    have hlt := RbTree.length_sub_lt y sub d
    obtain ⟨fuel, rfl⟩ := Nat.exists_eq_add_one_of_ne_zero (Nat.ne_zero_of_lt hfuel)
    have hd := hsub d
    cases hchild : m.read (.child y d) with
    | none =>
      rw [hchild] at hd
      refine ⟨y, by simp only [toEnd, hchild], ?_⟩
      simp only [RbTree.toList, hd.eq_nil, List.nil_append, List.head?_cons]
    | some c =>
      rw [hchild] at hd
      obtain ⟨e, hend, hhead⟩ := ih d fuel (by omega) hd
      refine ⟨e, by simp only [toEnd, hchild, hend], ?_⟩
      simp only [RbTree.toList, List.head?_append, hhead, Option.some_or]

theorem rbExtreme_eq {t : RbTree α} (h : m.Represents t) (d : Side) {fuel : Nat}
    (hfuel : t.inorder.length < fuel) : rbExtreme d fuel m = some (t.toList d).head? := by
  have hsub := h.subtree
  unfold rbExtreme
  cases hroot : m.root with
  | none =>
    rw [hroot] at hsub
    rw [hsub.eq_nil]
    rfl
  | some n =>
    rw [hroot] at hsub
    obtain ⟨e, hend, hhead⟩ := hsub.toEnd_eq d fuel hfuel
    simp only [hend, hhead, Option.map_some]

/-! ## Linking a leaf -/

variable [DecidableEq α]

def write (m : RbMem α) (v : Option α) : Link α → RbMem α
  | .root => { m with root := v }
  | .child x d => { m with nodes := Function.update m.nodes x ((m.nodes x).setChild v d) }

theorem read_write_self (m : RbMem α) (v : Option α) (l : Link α) : (m.write v l).read l = v := by
  cases l with
  | root => rfl
  | child x d => simp [read, write, RbNode.child_setChild_self]

theorem read_write_of_ne (m : RbMem α) (v : Option α) (h : l' ≠ l) :
    (m.write v l).read l' = m.read l' := by
  cases l with
  | root =>
    cases l' with
    | root => exact absurd rfl h
    | child y e => rfl
  | child x d =>
    cases l' with
    | root => rfl
    | child y e =>
      by_cases hyx : y = x
      · subst hyx
        have hed : e ≠ d := fun heq => h (heq ▸ rfl)
        simp [read, write, RbNode.child_setChild_of_ne _ _ hed]
      · simp [read, write, Function.update_of_ne hyx]

theorem parent_write (m : RbMem α) (v : Option α) (l : Link α) (y : α) :
    ((m.write v l).nodes y).parent = (m.nodes y).parent := by
  cases l with
  | root => rfl
  | child x d =>
    by_cases hyx : y = x
    · subst hyx
      simp [write, RbNode.parent_setChild]
    · simp [write, Function.update_of_ne hyx]

/-- `rb_link_node`: the node is red and has no children. -/
def rbLinkNode (m : RbMem α) (x : α) (parent : Option α) (link : Link α) : RbMem α :=
  ({ m with nodes := Function.update m.nodes x ⟨parent, .red, none, none⟩ } : RbMem α).write (some x) link

variable {link : Link α}

theorem rbLinkNode_read_self (m : RbMem α) (x : α) (parent : Option α) (link : Link α) :
    (m.rbLinkNode x parent link).read link = some x := read_write_self _ _ _

theorem rbLinkNode_read (hne : l ≠ link) (hx : l.owner ≠ some x) :
    (m.rbLinkNode x parent link).read l = m.read l := by
  unfold rbLinkNode
  rw [read_write_of_ne _ _ hne]
  cases l with
  | root => rfl
  | child y d =>
    have hyx : y ≠ x := fun heq => hx (congrArg some heq)
    simp only [read, Function.update_of_ne hyx]

theorem rbLinkNode_child (hx : link.owner ≠ some x) (d : Side) :
    (m.rbLinkNode x parent link).read (.child x d) = none := by
  unfold rbLinkNode
  rw [read_write_of_ne]
  · simp only [read, Function.update_self]
    cases d <;> rfl
  · rintro rfl
    exact hx rfl

theorem rbLinkNode_parent_self (m : RbMem α) (x : α) (parent : Option α) (link : Link α) :
    ((m.rbLinkNode x parent link).nodes x).parent = parent := by
  unfold rbLinkNode
  rw [parent_write]
  simp only [Function.update_self]

theorem rbLinkNode_parent (hyx : y ≠ x) :
    ((m.rbLinkNode x parent link).nodes y).parent = (m.nodes y).parent := by
  unfold rbLinkNode
  rw [parent_write]
  simp only [Function.update_of_ne hyx]

/-- A tree that the link is not in stays as it is. -/
theorem rbLinkNode_sameOn {t : RbTree α} (hx : x ∉ t.inorder)
    (hlink : ∀ y ∈ t.inorder, link.owner ≠ some y) :
    SameOn m (m.rbLinkNode x parent link) t := by
  intro y hy
  have hyx : y ≠ x := fun heq => hx (heq ▸ hy)
  refine ⟨rbLinkNode_parent hyx, fun d => rbLinkNode_read ?_ fun heq => hyx (Option.some.inj heq)⟩
  rintro rfl
  exact hlink y hy rfl

/-- From the link `l` on, go to the side that `side` tells until a link is `NULL`. -/
def descend (side : α → Side) : Nat → RbMem α → Link α → Option α → Option (Option α × Link α)
  | 0, _, _, _ => none
  | fuel + 1, m, l, parent =>
    match m.read l with
    | none => some (parent, l)
    | some y => descend side fuel m (.child y (side y)) (some y)

/-- By induction on the tree below `l`. The link that is found is `l` or in the tree, so that the rest of the
memory does not change. -/
theorem descend_links (side : α → Side) {t : RbTree α} (hx : x ∉ t.inorder) (hnodup : t.inorder.Nodup) :
    ∀ (fuel : Nat) (l : Link α) (parent : Option α), t.inorder.length < fuel →
      m.Subtree t parent (m.read l) → (∀ y ∈ l.owner, y ∉ t.inorder ∧ y ≠ x) →
      ∃ parent' link, descend side fuel m l parent = some (parent', link) ∧
        (link = l ∨ ∃ y ∈ t.inorder, link.owner = some y) ∧
        (m.rbLinkNode x parent' link).Subtree (t.insertLeaf side x) parent
          ((m.rbLinkNode x parent' link).read l) := by
  induction t with
  | nil =>
    intro fuel l parent hfuel hsub hl
    obtain ⟨fuel, rfl⟩ := Nat.exists_eq_add_one_of_ne_zero (Nat.ne_zero_of_lt hfuel)
    have hnull : m.read l = none := hsub
    have howner : l.owner ≠ some x := fun heq => (hl x heq).2 rfl
    refine ⟨parent, l, by simp [descend, hnull], .inl rfl, ?_⟩
    refine ⟨rbLinkNode_read_self m x parent l, rbLinkNode_parent_self m x parent l, fun d => ?_⟩
    exact rbLinkNode_child howner d
  | node y sub ih =>
    intro fuel l parent hfuel hsub hl
    obtain ⟨hread, hparent, hsubs⟩ := hsub
    obtain ⟨hnodups, hy, hdisjoint⟩ := RbTree.nodup_node hnodup
    have hxs : x ≠ y ∧ ∀ d, x ∉ (sub d).inorder := by
      rw [RbTree.mem_node, not_or, not_exists] at hx
      exact hx
    obtain ⟨fuel, rfl⟩ := Nat.exists_eq_add_one_of_ne_zero (Nat.ne_zero_of_lt hfuel)
    have hlt := RbTree.length_sub_lt y sub (side y)
    obtain ⟨parent', link, hdescend, hlink, hleaf⟩ := ih (side y) (hxs.2 _) (hnodups _)
      fuel (.child y (side y)) (some y) (by omega) (hsubs (side y)) (by
        rintro z ⟨⟩
        exact ⟨hy _, hxs.1.symm⟩)
    -- the link is the child pointer of `y`, or below it on the same side
    have howner : ∃ z, link.owner = some z ∧ (z = y ∨ z ∈ (sub (side y)).inorder) := by
      rcases hlink with rfl | ⟨z, hz, howner⟩
      · exact ⟨y, rfl, .inl rfl⟩
      · exact ⟨z, howner, .inr hz⟩
    obtain ⟨z, howner, hz⟩ := howner
    have hzt : z ∈ (RbTree.node y sub).inorder :=
      RbTree.mem_node.mpr (hz.imp_right fun hz => ⟨side y, hz⟩)
    have hkept : (m.rbLinkNode x parent' link).read l = m.read l := by
      refine rbLinkNode_read ?_ fun heq => (hl x heq).2 rfl
      rintro rfl
      exact (hl z howner).1 hzt
    refine ⟨parent', link, by simp only [descend, hread, hdescend], .inr ⟨z, hzt, howner⟩, ?_⟩
    rw [hkept]
    refine ⟨hread, (rbLinkNode_parent hxs.1.symm).trans hparent, fun d => ?_⟩
    by_cases hd : d = side y
    · subst hd
      rw [Function.update_self]
      exact hleaf
    · have hchild : (m.rbLinkNode x parent' link).read (.child y d) = m.read (.child y d) := by
        refine rbLinkNode_read ?_ fun heq => hxs.1 (Option.some.inj heq).symm
        rintro rfl
        rcases hlink with heq | ⟨z', hz', howner'⟩
        · exact hd (Link.child.inj heq).2
        · cases Option.some.inj howner'
          exact hy (side y) hz'
      rw [Function.update_of_ne hd, hchild]
      refine (hsubs d).congr (rbLinkNode_sameOn (hxs.2 d) fun w hw heq => ?_)
      rw [howner] at heq
      cases heq
      rcases hz with rfl | hz
      · exact hy d hw
      · exact hdisjoint d (side y) hd z hw hz

theorem descend_represents {t : RbTree α} (h : m.Represents t) (side : α → Side) (hx : x ∉ t.inorder)
    {fuel : Nat} (hfuel : t.inorder.length < fuel) :
    ∃ parent link, descend side fuel m .root none = some (parent, link) ∧
      (m.rbLinkNode x parent link).Represents (t.insertLeaf side x) := by
  obtain ⟨parent, link, hdescend, -, hleaf⟩ := descend_links side hx h.nodup fuel .root none hfuel h.subtree
    (fun y hy => by cases hy)
  refine ⟨parent, link, hdescend, hleaf, ?_⟩
  rw [(t.insertLeaf_perm side x).nodup_iff]
  exact List.nodup_cons.mpr ⟨hx, h.nodup⟩

/-! ## Going through the tree -/

/-- Up, as long as the node is its parent's child on the side `d`. -/
def climb (d : Side) : Nat → RbMem α → α → Option (Option α)
  | 0, _, _ => none
  | fuel + 1, m, n =>
    match (m.nodes n).parent with
    | none => some none
    | some q => if m.read (.child q d) = some n then climb d fuel m q else some (some q)

/-- `RB_EMPTY_NODE`: the node is in no tree. -/
def rbEmptyNode (m : RbMem α) (x : α) : Bool :=
  (m.nodes x).parent = some x ∧ (m.nodes x).color = .red

/-- `rb_next` (`d` is the left) and `rb_prev` (`d` is the right). -/
def rbStep (d : Side) (fuel : Nat) (m : RbMem α) (n : α) : Option (Option α) :=
  if m.rbEmptyNode n then some none
  else
    match m.read (.child n d.other) with
    | some c => (toEnd d fuel m c).map some
    | none => climb d.other fuel m n

/-- A node of the tree is not its own parent. -/
theorem Subtree.rbEmptyNode_eq {t : RbTree α} (hnodup : t.inorder.Nodup) : ∀ {parent p : Option α},
    m.Subtree t parent p → (∀ q ∈ parent, q ∉ t.inorder) → ∀ x ∈ t.inorder, m.rbEmptyNode x = false := by
  induction t with
  | nil => exact fun _ _ x hx => (List.not_mem_nil hx).elim
  | node y sub ih =>
    rintro parent p ⟨hp, hparent, hsub⟩ hout x hx
    obtain ⟨hnodups, hy, hdisjoint⟩ := RbTree.nodup_node hnodup
    rcases RbTree.mem_node.mp hx with rfl | ⟨d, hx⟩
    · have hself : (m.nodes x).parent ≠ some x := fun heq => hout x (hparent.symm.trans heq) hx
      simp only [rbEmptyNode, hself, false_and, decide_false]
    · refine ih d (hnodups d) (hsub d) ?_ x hx
      rintro q ⟨⟩
      exact hy d

theorem climb_of_child {n q : α} {d : Side} (hparent : (m.nodes n).parent = some q)
    (hchild : m.read (.child q d) = some n) (fuel : Nat) : climb d (fuel + 1) m n = climb d fuel m q := by
  simp only [climb, hparent, hchild, if_true]

theorem climb_of_not_child {n q : α} {d : Side} (hparent : (m.nodes n).parent = some q)
    (hchild : m.read (.child q d) ≠ some n) (fuel : Nat) : climb d (fuel + 1) m n = some (some q) := by
  simp only [climb, hparent, hchild, if_false]

/-- By induction on the tree: a step stays in the subtree if an element comes after `x` in it. If none does,
the step comes from `x` to the subtree's root, and `k` is the number of levels it has climbed. -/
theorem Subtree.rbStep_eq {t : RbTree α} (hnodup : t.inorder.Nodup) (d : Side) :
    ∀ {parent p : Option α} {as bs : List α}, m.Subtree t parent p → (∀ q ∈ parent, q ∉ t.inorder) →
      t.toList d = as ++ x :: bs →
      (∀ z rest, bs = z :: rest → ∀ fuel, t.inorder.length < fuel → rbStep d fuel m x = some (some z)) ∧
      (bs = [] → ∃ n, p = some n ∧ ∃ k < t.inorder.length, ∀ fuel,
        rbStep d (fuel + k) m x = climb d.other fuel m n) := by
  induction t with
  | nil =>
    intro parent p as bs hsub hout hlist
    cases as <;> cases hlist
  | node y sub ih =>
    intro parent p as bs hsub hout hlist
    have hempty := Subtree.rbEmptyNode_eq hnodup hsub hout
    obtain ⟨hp, hparent, hsubs⟩ := hsub
    obtain ⟨hnodups, hy, hdisjoint⟩ := RbTree.nodup_node hnodup
    have hbelow : ∀ e, ∀ q ∈ some y, q ∉ (sub e).inorder := by
      rintro e q ⟨⟩
      exact hy e
    have hlt := RbTree.length_sub_lt y sub
    rcases RbTree.split_cases hlist with ⟨es, hleft, rfl⟩ | ⟨rfl, rfl⟩ | ⟨es, hright⟩
    · -- `x` is before `y`: the step may climb to the root of this subtree, and then it stops at `y`
      obtain ⟨hstay, hclimb⟩ := ih d (hnodups d) (hsubs d) (hbelow d) hleft
      refine ⟨fun z rest hz fuel hfuel => ?_, fun hnil => ?_⟩
      · have hltd := hlt d
        cases es with
        | nil =>
          obtain ⟨rfl, -⟩ := List.cons.inj hz
          obtain ⟨n, hn, k, hk, hstep⟩ := hclimb rfl
          obtain ⟨fuel, rfl⟩ : ∃ f, fuel = f + 1 + k := ⟨fuel - 1 - k, by omega⟩
          have hsubd := hsubs d
          rw [hn] at hsubd
          rw [hstep, climb_of_not_child hsubd.parent_eq]
          intro hother
          have hroot := (hsubs d.other).eq_root
          rw [hother] at hroot
          exact hdisjoint d d.other (Side.other_ne d).symm n (RbTree.root_mem hsubd.eq_root.symm)
            (RbTree.root_mem hroot.symm)
        | cons w es =>
          obtain ⟨rfl, -⟩ := List.cons.inj hz
          exact hstay w es rfl fuel (by omega)
      · cases es <;> cases hnil
    · -- `y` itself: the first element of the other side, and if there is none, up from here
      have hnonempty := hempty y (RbTree.mem_node.mpr (.inl rfl))
      have hsub := hsubs d.other
      refine ⟨fun z rest hz fuel hfuel => ?_, fun hnil => ⟨y, hp, 0, ?_, fun fuel => ?_⟩⟩
      · have hltd := hlt d.other
        cases hchild : m.read (.child y d.other) with
        | none =>
          rw [hchild] at hsub
          rw [hsub.eq_nil] at hz
          cases hz
        | some c =>
          rw [hchild] at hsub
          obtain ⟨e, hend, hhead⟩ := hsub.toEnd_eq d fuel (by omega)
          rw [hz] at hhead
          cases hhead
          simp only [rbStep, hnonempty, hchild, hend, Option.map_some, Bool.false_eq_true, if_false]
      · exact Nat.zero_lt_of_lt (hlt d)
      · have hchild : m.read (.child y d.other) = none := by
          cases hchild : m.read (.child y d.other) with
          | none => rfl
          | some c =>
            rw [hchild] at hsub
            have hmem := RbTree.mem_toList (d := d) |>.mpr (RbTree.root_mem hsub.eq_root.symm)
            rw [hnil] at hmem
            exact (List.not_mem_nil hmem).elim
        simp only [rbStep, hnonempty, hchild, Nat.add_zero, Bool.false_eq_true, if_false]
    · -- `x` is after `y`: a step that climbs to the root of this subtree climbs on from `y`
      obtain ⟨hstay, hclimb⟩ := ih d.other (hnodups d.other) (hsubs d.other) (hbelow d.other) hright
      have hltd := hlt d.other
      refine ⟨fun z rest hz fuel hfuel => hstay z rest hz fuel (by omega), fun hnil => ?_⟩
      obtain ⟨n, hn, k, hk, hstep⟩ := hclimb hnil
      refine ⟨y, hp, k + 1, by omega, fun fuel => ?_⟩
      have hsub := hsubs d.other
      rw [hn] at hsub
      calc rbStep d (fuel + (k + 1)) m x
          = rbStep d (fuel + 1 + k) m x := by rw [Nat.add_assoc, Nat.add_comm 1 k]
        _ = climb d.other (fuel + 1) m n := hstep (fuel + 1)
        _ = climb d.other fuel m y := climb_of_child hsub.parent_eq hn fuel

theorem rbStep_eq {t : RbTree α} (h : m.Represents t) (d : Side) {as bs : List α}
    (hlist : t.toList d = as ++ x :: bs) {fuel : Nat} (hfuel : t.inorder.length < fuel) :
    rbStep d fuel m x = some bs.head? := by
  obtain ⟨hstay, hclimb⟩ := Subtree.rbStep_eq h.nodup d h.subtree (fun q hq => by cases hq) hlist
  cases bs with
  | nil =>
    obtain ⟨n, hn, k, hk, hstep⟩ := hclimb rfl
    obtain ⟨fuel, rfl⟩ : ∃ f, fuel = f + 1 + k := ⟨fuel - 1 - k, by omega⟩
    have hsub := h.subtree
    rw [hn] at hsub
    rw [hstep]
    simp only [climb, hsub.parent_eq, List.head?_nil]
  | cons z rest => exact hstay z rest rfl fuel hfuel

/-- `for (p = first; p; p = next(p))`. -/
def walk (next : α → Option (Option α)) : Nat → Option α → Option (List α)
  | _, none => some []
  | 0, some _ => none
  | fuel + 1, some x => (next x).bind fun p => (walk next fuel p).map (x :: ·)

omit [DecidableEq α] in
theorem walk_eq {next : α → Option (Option α)} {xs : List α}
    (h : ∀ as x bs, xs = as ++ x :: bs → next x = some bs.head?) :
    ∀ {fuel : Nat}, xs.length ≤ fuel → walk next fuel xs.head? = some xs := by
  induction xs with
  | nil =>
    intro fuel _
    cases fuel <;> rfl
  | cons x xs ih =>
    intro fuel hfuel
    obtain ⟨fuel, rfl⟩ := Nat.exists_eq_add_one_of_ne_zero (Nat.ne_zero_of_lt hfuel)
    have hnext : next x = some xs.head? := h [] x xs rfl
    have hrest := ih (fun as z bs hxs => h (x :: as) z bs (congrArg (x :: ·) hxs)) (Nat.le_of_succ_le_succ hfuel)
    simp only [List.head?_cons, walk, hnext, Option.bind_some, hrest, Option.map_some]

/-- The whole tree, from the side `d` on. -/
def rbWalk (d : Side) (fuel : Nat) (m : RbMem α) : Option (List α) :=
  (rbExtreme d fuel m).bind (walk (rbStep d fuel m) fuel)

theorem rbWalk_eq {t : RbTree α} (h : m.Represents t) (d : Side) {fuel : Nat}
    (hfuel : t.inorder.length < fuel) : rbWalk d fuel m = some (t.toList d) := by
  have hlength := t.length_toList d
  simp only [rbWalk, rbExtreme_eq h d hfuel, Option.bind_some]
  exact walk_eq (fun as x bs hlist => rbStep_eq h d hlist hfuel) (by omega)

/-- `RB_CLEAR_NODE`. -/
def rbClearNode (m : RbMem α) (x : α) : RbMem α :=
  { m with nodes := Function.update m.nodes x { m.nodes x with parent := some x, color := .red } }

theorem rbEmptyNode_rbClearNode (m : RbMem α) (x : α) : (m.rbClearNode x).rbEmptyNode x = true := by
  simp [rbEmptyNode, rbClearNode]

end RbMem

/-! ## Rebalancing -/

/-- What is assumed of `rb_insert_color` and `rb_erase`. They keep a form of trees, `Balanced`, which may be a
condition on the colors; they return, and they change the elements in order only by the node that is erased. -/
structure Rebalancing (α : Type) [DecidableEq α] where
  Balanced : RbMem α → RbTree α → Prop
  rbInsertColor : Nat → RbMem α → α → Option (RbMem α)
  rbErase : Nat → RbMem α → α → Option (RbMem α)
  represents : ∀ {m t}, Balanced m t → m.Represents t
  balanced_nil : ∀ {m : RbMem α}, m.root = none → Balanced m .nil
  balanced_congr : ∀ {m m' t}, Balanced m t → m'.root = m.root →
    (∀ x ∈ t.inorder, m'.nodes x = m.nodes x) → Balanced m' t
  insertColor_inorder : ∀ {m t x parent link side fuel}, Balanced m t → x ∉ t.inorder →
    (m.rbLinkNode x parent link).Represents (t.insertLeaf side x) → t.inorder.length + 1 < fuel →
    ∃ m' t', rbInsertColor fuel (m.rbLinkNode x parent link) x = some m' ∧ Balanced m' t' ∧
      t'.inorder = (t.insertLeaf side x).inorder
  erase_inorder : ∀ {m t x fuel}, Balanced m t → x ∈ t.inorder → t.inorder.length < fuel →
    ∃ m' t', rbErase fuel m x = some m' ∧ Balanced m' t' ∧ t'.inorder = t.inorder.erase x

namespace RbTree

/-- Every node has its child on the side away from `d`. -/
def chain (d : Side) : List α → RbTree α
  | [] => nil
  | x :: xs => node x (Function.update (fun _ => nil) d.other (chain d xs))

theorem chain_toList (d : Side) (xs : List α) : (chain d xs).toList d = xs := by
  induction xs with
  | nil => rfl
  | cons x xs ih =>
    simp only [chain, toList, Function.update_self, ih, Function.update_of_ne (Side.other_ne d).symm,
      List.nil_append]

/-- Leaving elements out from one side is leaving them out in order. -/
theorem inorder_filter {t t' : RbTree α} {p : α → Bool} {d : Side} (h : t'.toList d = (t.toList d).filter p) :
    t'.inorder = t.inorder.filter p := by
  cases d with
  | left => exact h
  | right =>
    have hleft : ∀ u : RbTree α, u.inorder = (u.toList .right).reverse := fun u => u.toList_other .right
    rw [hleft t', hleft t, h, List.filter_reverse]

end RbTree

namespace RbMem

variable [DecidableEq α]

/-- The nodes of a chain whose first node has the parent `parent`. -/
def chainNodes (d : Side) (nodes : α → RbNode α) : Option α → List α → α → RbNode α
  | _, [] => nodes
  | parent, x :: xs =>
    Function.update (chainNodes d nodes (some x) xs) x
      ((RbNode.mk parent .black none none).setChild xs.head? d.other)

def layChain (d : Side) (m : RbMem α) (xs : List α) : RbMem α where
  root := xs.head?
  nodes := chainNodes d m.nodes none xs

theorem chainNodes_subtree (d : Side) (nodes : α → RbNode α) (root : Option α) {xs : List α} (h : xs.Nodup) :
    ∀ parent, (RbMem.mk root (chainNodes d nodes parent xs)).Subtree (.chain d xs) parent xs.head? := by
  induction xs with
  | nil => exact fun parent => rfl
  | cons x xs ih =>
    intro parent
    obtain ⟨hx, hxs⟩ := List.nodup_cons.mp h
    have hnode : chainNodes d nodes parent (x :: xs) x =
        (RbNode.mk parent .black none none).setChild xs.head? d.other := by
      rw [chainNodes, Function.update_self]
    refine ⟨rfl, ?_, fun e => ?_⟩
    · simp only [hnode, RbNode.parent_setChild]
    · simp only [read, hnode]
      rcases d.eq_or_eq_other e with rfl | rfl
      · rw [Function.update_of_ne (Side.other_ne e).symm, RbNode.child_setChild_of_ne _ _ (Side.other_ne e).symm]
        cases e <;> rfl
      · rw [Function.update_self, RbNode.child_setChild_self]
        refine (ih hxs (some x)).congr fun y hy => ?_
        have hyx : y ≠ x := by
          rintro rfl
          rw [← RbTree.mem_toList (d := d), RbTree.chain_toList] at hy
          exact hx hy
        have hrest : chainNodes d nodes parent (x :: xs) y = chainNodes d nodes (some x) xs y := by
          rw [chainNodes, Function.update_of_ne hyx]
        exact ⟨by simp only [hrest], fun e => by simp only [read, hrest]⟩

theorem layChain_represents (d : Side) (m : RbMem α) {xs : List α} (h : xs.Nodup) :
    (m.layChain d xs).Represents (.chain d xs) := by
  refine ⟨chainNodes_subtree d m.nodes xs.head? h none, ?_⟩
  rw [← (RbTree.toList_perm _ d).nodup_iff, RbTree.chain_toList]
  exact h

/-- Go through the tree, and write those elements that `keep` has as a chain. -/
def relay (d : Side) (keep : α → Bool) (fuel : Nat) (m : RbMem α) : Option (RbMem α) :=
  (rbWalk d fuel m).map fun xs => m.layChain d (xs.filter keep)

theorem relay_eq {m : RbMem α} {t : RbTree α} (h : m.Represents t) (d : Side) (keep : α → Bool) {fuel : Nat}
    (hfuel : t.inorder.length < fuel) :
    ∃ m' t', m.relay d keep fuel = some m' ∧ m'.Represents t' ∧ t'.inorder = t.inorder.filter keep := by
  have hnodup : ((t.toList d).filter keep).Nodup := ((t.toList_perm d).nodup_iff.mpr h.nodup).filter keep
  refine ⟨_, _, ?_, m.layChain_represents d hnodup, RbTree.inorder_filter (RbTree.chain_toList d _)⟩
  rw [relay, rbWalk_eq h d hfuel, Option.map_some]

end RbMem

/-- The tree is laid out as a chain after every change. -/
def Rebalancing.chain [DecidableEq α] (d : Side) : Rebalancing α where
  Balanced m t := m.Represents t
  rbInsertColor fuel m _ := m.relay d (fun _ => true) fuel
  rbErase fuel m x := m.relay d (fun y => y ≠ x) fuel
  represents h := h
  balanced_nil h := RbMem.represents_nil h
  balanced_congr h hroot hnodes := h.congr hroot hnodes
  insertColor_inorder {m t x parent link side fuel} _ hx h hfuel := by
    have hlength := (t.insertLeaf_perm side x).length_eq
    obtain ⟨m', t', hrelay, hm', ht'⟩ := RbMem.relay_eq h d (fun _ => true) (hlength.trans_lt hfuel)
    exact ⟨m', t', hrelay, hm', by rw [ht', List.filter_true]⟩
  erase_inorder {m t x fuel} h hx hfuel := by
    obtain ⟨m', t', hrelay, hm', ht'⟩ := RbMem.relay_eq h d (fun y => y ≠ x) hfuel
    refine ⟨m', t', hrelay, hm', ?_⟩
    rw [ht', h.nodup.erase_eq_filter]
    exact List.filter_congr fun y _ => by simp only [ne_eq, decide_not, bne, beq_eq_decide]

end SplitSched
