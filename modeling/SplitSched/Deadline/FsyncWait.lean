import SplitSched.Deadline.PageWord

/-!
# SplitSched.Deadline.FsyncWait

The loop of `deadline_fsync_entry` that waits until few pages of the inode are dirty. It sleeps, and when
the count has not changed meanwhile it takes pages off the count itself. The queue lock is not held, so
the writers of the inode may lower the count before any read of the word.

* `Interference`: what they do before each read.
* `fsyncWait`: the loop; `fsyncWait_ends`: every pass lowers the count, so it ends.
* `fsync_wait_ends`: the pages it takes off are there, unless others take them after
  `inode_inc_dirty_pages` has checked the count and before it changes it.
-/

namespace SplitSched
namespace Deadline

def dirtyPageThres : Int := 100

def fsyncWbPages : Int := 100

/-- The reads of `i_private1`: before the loop, in the test of the loop's body, the three of
`inode_inc_dirty_pages`, and at the end of the body. -/
inductive PageRead where
  | entry
  | compare
  | check
  | guard
  | update
  | again
  deriving DecidableEq, Repr

structure Interference where
  /-- The count that a read of the pass `i` finds, where it was `c` before. -/
  lower : Nat → PageRead → Int → Int
  lower_le : ∀ i r c, lower i r c ≤ c

namespace Interference

def idle : Interference := ⟨fun _ _ c => c, fun _ _ _ => le_rfl⟩

def act (E : Interference) (i : Nat) (r : PageRead) (s : State) (inode : Nat) : State :=
  let c := E.lower i r (inodeGetDirtyPages s inode)
  { s with mem := inodeSetPos s.mem inode (c * 256 + s.mem.inodePos inode % 256) }

def floor : PageRead → Int
  | .entry => -2 ^ 31
  | .again => -2 ^ 31
  | _ => -2 ^ 31 + fsyncWbPages

def InRange (E : Interference) : Prop := ∀ i r c, floor r ≤ c → floor r ≤ E.lower i r c

/-- Pages that `inode_inc_dirty_pages` has seen are still there when it takes them off. -/
def Spares (E : Interference) : Prop :=
  ∀ i c, fsyncWbPages ≤ c → 0 ≤ E.lower i .update c → fsyncWbPages ≤ E.lower i .update c

end Interference

/-- `inode_inc_dirty_pages` with the changes of others before each of its reads, and the count before and
after the update. -/
def inodeIncDirtyPagesAmong (P : Platform) (E : Interference) (i : Nat) (s : State) (inode : Nat)
    (num : Int) : List (Int × Int) × State :=
  let s := { s with pageCalls := s.pageCalls ++ [(inode, num)] }
  let s := checkDirtyNumber (E.act i .check s inode) inode
  let s := E.act i .guard s inode
  if num < 0 ∧ inodeGetDirtyPages s inode + num < 0 then ([], s)
  else
    let s := E.act i .update s inode
    let s' := { s with
      mem := inodeSetPos s.mem inode (P.long (s.mem.inodePos inode + P.int (num * 256))) }
    ([(inodeGetDirtyPages s inode, inodeGetDirtyPages s' inode)], s')

structure FsyncWait where
  dd : State
  numDirtyPages : Int
  pass : Nat
  /-- The counts before and after every update that the loop has made. -/
  corrections : List (Int × Int)

def fsyncWaitEntry (P : Platform) (E : Interference) (s : State) (inode : Nat) : FsyncWait :=
  let s := E.act 0 .entry s inode
  ⟨s, P.int (inodeGetDirtyPages s inode), 0, []⟩

/-- The body of the loop. Writeback is issued, and the task sleeps. -/
def fsyncWaitBody (P : Platform) (E : Interference) (inode : Nat) (w : FsyncWait) : FsyncWait :=
  let s := E.act w.pass .compare w.dd inode
  let r :=
    if w.numDirtyPages = inodeGetDirtyPages s inode then
      inodeIncDirtyPagesAmong P E w.pass s inode (P.int (-fsyncWbPages))
    else ([], s)
  let s := E.act w.pass .again r.2 inode
  ⟨s, P.int (inodeGetDirtyPages s inode), w.pass + 1, w.corrections ++ r.1⟩

/-- The loop, with `fuel` passes to go; `none` when they do not suffice. -/
def fsyncWait (P : Platform) (E : Interference) (inode : Nat) : Nat → FsyncWait → Option FsyncWait
  | 0, _ => none
  | fuel + 1, w =>
    if dirtyPageThres ≤ w.numDirtyPages then fsyncWait P E inode fuel (fsyncWaitBody P E inode w)
    else some w

variable {P : Platform} {E : Interference} {s : State} {inode : Nat}

/-! ## One read -/

def Own (s : State) (inode : Nat) : Prop := s.mem.inodePos inode % 256 = s.magic.toNat

theorem act_reads (E : Interference) (i : Nat) (r : PageRead) (h : Own s inode) :
    Own (E.act i r s inode) inode ∧
      inodeGetDirtyPages (E.act i r s inode) inode = E.lower i r (inodeGetDirtyPages s inode) := by
  have hlt := s.magic.isLt
  unfold Own at h ⊢
  have hpos : (E.act i r s inode).mem.inodePos inode =
      E.lower i r (inodeGetDirtyPages s inode) * 256 + s.mem.inodePos inode % 256 := by
    simp [Interference.act, inodeSetPos]
  have hmagic : (E.act i r s inode).magic = s.magic := rfl
  refine ⟨?_, ?_⟩
  · rw [hpos, hmagic]
    omega
  · generalize E.lower i r (inodeGetDirtyPages s inode) = c at hpos
    unfold inodeGetDirtyPages
    rw [hpos]
    omega

theorem act_idle (i : Nat) (r : PageRead) (s : State) (inode : Nat) :
    Interference.idle.act i r s inode = s := by
  have hpos : s.mem.inodePos inode / 256 * 256 + s.mem.inodePos inode % 256 = s.mem.inodePos inode := by
    omega
  simp only [Interference.act, Interference.idle, inodeGetDirtyPages, inodeSetPos, hpos,
    Function.update_eq_self]

theorem inodeIncDirtyPagesAmong_idle (P : Platform) (i : Nat) (s : State) (inode : Nat) (num : Int) :
    (inodeIncDirtyPagesAmong P .idle i s inode num).2 = inodeIncDirtyPages P s inode num := by
  unfold inodeIncDirtyPagesAmong inodeIncDirtyPages
  simp only [act_idle]
  split <;> rfl

/-! ## One correction -/

theorem takeOff_reads (P : Platform) (h : Own s inode)
    (hle : -2 ^ 31 + fsyncWbPages ≤ inodeGetDirtyPages s inode)
    (hlt : inodeGetDirtyPages s inode < 2 ^ 31) :
    let s' := { s with
      mem := inodeSetPos s.mem inode (P.long (s.mem.inodePos inode + P.int (-fsyncWbPages * 256))) }
    Own s' inode ∧ inodeGetDirtyPages s' inode = inodeGetDirtyPages s inode - fsyncWbPages := by
  have hword : P.long (s.mem.inodePos inode + P.int (-fsyncWbPages * 256)) =
      s.mem.inodePos inode - 25600 := by
    unfold inodeGetDirtyPages fsyncWbPages at *
    rw [P.int_fits _ (by omega) (by omega), P.long_fits _ (by omega) (by omega)]
    omega
  simp only [hword]
  unfold Own inodeGetDirtyPages at *
  simp only [inodeSetPos, Function.update_self]
  unfold fsyncWbPages
  refine ⟨?_, ?_⟩ <;> omega

/-- A correction is refused when the count it checks is too low. Otherwise it takes its pages off the
count that its update finds. -/
theorem correction_cases (P : Platform) (E : Interference) (i : Nat) (h : Own s inode)
    (hE : E.InRange) (hle : -2 ^ 31 + fsyncWbPages ≤ inodeGetDirtyPages s inode)
    (hlt : inodeGetDirtyPages s inode < 2 ^ 31) :
    let c := inodeGetDirtyPages s inode
    let seen := E.lower i .guard (E.lower i .check c)
    let r := inodeIncDirtyPagesAmong P E i s inode (P.int (-fsyncWbPages))
    Own r.2 inode ∧
      (seen < fsyncWbPages ∧ -2 ^ 31 ≤ seen ∧ r.1 = [] ∧ inodeGetDirtyPages r.2 inode = seen ∨
        fsyncWbPages ≤ seen ∧ seen ≤ c ∧ -2 ^ 31 + fsyncWbPages ≤ E.lower i .update seen ∧
          r.1 = [(E.lower i .update seen, E.lower i .update seen - fsyncWbPages)] ∧
          inodeGetDirtyPages r.2 inode = E.lower i .update seen - fsyncWbPages) := by
  have hneg : P.int (-fsyncWbPages) = -fsyncWbPages := P.int_fits _ (by decide) (by decide)
  intro c seen
  simp only [hneg, inodeIncDirtyPagesAmong]
  -- the count that is checked
  have hown₀ : Own { s with pageCalls := s.pageCalls ++ [(inode, -fsyncWbPages)] } inode := h
  obtain ⟨hown₁, hcount₁⟩ := act_reads E i .check hown₀
  generalize E.act i .check { s with pageCalls := s.pageCalls ++ [(inode, -fsyncWbPages)] } inode = t
    at hown₁ hcount₁
  have hchecked : checkDirtyNumber t inode = t := if_pos hown₁
  obtain ⟨hown₂, hcount₂⟩ := act_reads E i .guard hown₁
  rw [hcount₁] at hcount₂
  have hseen : inodeGetDirtyPages (E.act i .guard t inode) inode = seen := hcount₂
  have hrange : -2 ^ 31 + fsyncWbPages ≤ seen := hE i .guard _ (hE i .check _ hle)
  have hle' : seen ≤ c := (E.lower_le i .guard _).trans (E.lower_le i .check c)
  simp only [hchecked, hseen]
  by_cases hfew : seen < fsyncWbPages
  · rw [if_pos ⟨by decide, by omega⟩]
    unfold fsyncWbPages at hrange
    exact ⟨hown₂, .inl ⟨hfew, by omega, rfl, hseen⟩⟩
  · rw [if_neg (by omega)]
    obtain ⟨hown₃, hcount₃⟩ := act_reads E i .update hown₂
    rw [hseen] at hcount₃
    have hrange' : -2 ^ 31 + fsyncWbPages ≤ E.lower i .update seen := hE i .update _ hrange
    have hupdate : E.lower i .update seen < 2 ^ 31 :=
      lt_of_le_of_lt ((E.lower_le i .update seen).trans hle') hlt
    obtain ⟨hown₄, hcount₄⟩ := takeOff_reads P hown₃ (hcount₃ ▸ hrange') (hcount₃ ▸ hupdate)
    rw [hcount₃] at hcount₄
    refine ⟨hown₄, .inr ⟨not_lt.mp hfew, hle', hrange', ?_, hcount₄⟩⟩
    rw [hcount₃, hcount₄]

/-! ## The loop -/

structure FsyncWait.Ready (w : FsyncWait) (inode : Nat) : Prop where
  own : Own w.dd inode
  num : w.numDirtyPages = inodeGetDirtyPages w.dd inode
  le : -2 ^ 31 ≤ inodeGetDirtyPages w.dd inode
  lt : inodeGetDirtyPages w.dd inode < 2 ^ 31

def FsyncWait.Kept (w : FsyncWait) : Prop := ∀ p ∈ w.corrections, 0 ≤ p.1 → 0 ≤ p.2

theorem ready_of_read (E : Interference) (hE : E.InRange) (i : Nat) {r : PageRead}
    (hr : Interference.floor r = -2 ^ 31) (h : Own s inode) (hle : -2 ^ 31 ≤ inodeGetDirtyPages s inode)
    (hlt : inodeGetDirtyPages s inode < 2 ^ 31) (pass : Nat) (corrections : List (Int × Int)) :
    FsyncWait.Ready ⟨E.act i r s inode, P.int (inodeGetDirtyPages (E.act i r s inode) inode), pass,
      corrections⟩ inode ∧
    inodeGetDirtyPages (E.act i r s inode) inode ≤ inodeGetDirtyPages s inode := by
  obtain ⟨hown, hcount⟩ := act_reads E i r h
  have hrange := hE i r (inodeGetDirtyPages s inode) (hr ▸ hle)
  have hlower := E.lower_le i r (inodeGetDirtyPages s inode)
  rw [hr] at hrange
  refine ⟨⟨hown, ?_, ?_, ?_⟩, ?_⟩
  · exact P.int_fits _ (by rw [hcount]; exact hrange) (by rw [hcount]; omega)
  · rw [hcount]
    exact hrange
  · rw [hcount]
    omega
  · rw [hcount]
    exact hlower

/-- Every pass lowers the count: others have, or the loop does. -/
theorem fsyncWaitBody_lowers (P : Platform) (hE : E.InRange) {w : FsyncWait} (h : w.Ready inode)
    (hmany : dirtyPageThres ≤ w.numDirtyPages) :
    (fsyncWaitBody P E inode w).Ready inode ∧
      inodeGetDirtyPages (fsyncWaitBody P E inode w).dd inode < inodeGetDirtyPages w.dd inode ∧
      (E.Spares → w.Kept → (fsyncWaitBody P E inode w).Kept) := by
  have hnum := h.num
  have hlt := h.lt
  unfold dirtyPageThres at hmany
  obtain ⟨hown, hcount⟩ := act_reads E w.pass .compare h.own
  have hlower := E.lower_le w.pass .compare (inodeGetDirtyPages w.dd inode)
  have hrange : -2 ^ 31 + fsyncWbPages ≤ inodeGetDirtyPages (E.act w.pass .compare w.dd inode) inode := by
    rw [hcount]
    refine hE w.pass .compare _ ?_
    change -2 ^ 31 + 100 ≤ _
    omega
  simp only [fsyncWaitBody]
  generalize E.act w.pass .compare w.dd inode = s at hown hcount hrange
  by_cases hsame : w.numDirtyPages = inodeGetDirtyPages s inode
  · -- nobody has lowered the count while the loop slept
    rw [if_pos hsame]
    obtain ⟨hown', hcases⟩ := correction_cases P E w.pass hown hE hrange (by omega)
    generalize inodeIncDirtyPagesAmong P E w.pass s inode (P.int (-fsyncWbPages)) = r at hown' hcases
    rcases hcases with ⟨hfew, hle, hnone, hleft⟩ | ⟨hseen, hle, hrange', hone, hleft⟩
    · unfold fsyncWbPages at hfew
      obtain ⟨hready, hagain⟩ := ready_of_read (P := P) E hE w.pass (r := .again) rfl hown' (by omega)
        (by omega) (w.pass + 1) (w.corrections ++ r.1)
      refine ⟨hready, by omega, fun _ hkept => ?_⟩
      rw [hnone, List.append_nil]
      exact hkept
    · have hupdate := E.lower_le w.pass .update
        (E.lower w.pass .guard (E.lower w.pass .check (inodeGetDirtyPages s inode)))
      unfold fsyncWbPages at hleft hrange'
      obtain ⟨hready, hagain⟩ := ready_of_read (P := P) E hE w.pass (r := .again) rfl hown' (by omega)
        (by omega) (w.pass + 1) (w.corrections ++ r.1)
      refine ⟨hready, by omega, fun hspares hkept p hp => ?_⟩
      simp only [hone, List.mem_append, List.mem_singleton] at hp
      rcases hp with hp | rfl
      · exact hkept p hp
      · intro hpos
        have hleft := hspares w.pass _ hseen hpos
        exact sub_nonneg.mpr hleft
  · rw [if_neg hsame]
    obtain ⟨hready, hagain⟩ := ready_of_read (P := P) E hE w.pass (r := .again) rfl hown
      (by unfold fsyncWbPages at hrange; omega) (by omega) (w.pass + 1) (w.corrections ++ [])
    refine ⟨hready, by simp only; omega, fun _ hkept => ?_⟩
    rw [List.append_nil]
    exact hkept

theorem fsyncWait_ends (P : Platform) (hE : E.InRange) : ∀ (fuel : Nat) {w : FsyncWait}, w.Ready inode →
    inodeGetDirtyPages w.dd inode < dirtyPageThres + fuel →
    ∃ w', fsyncWait P E inode (fuel + 1) w = some w' ∧ w'.numDirtyPages < dirtyPageThres ∧
      (E.Spares → w.Kept → w'.Kept) := by
  -- on the passes that are left: there are no more than pages above the threshold
  intro fuel
  induction fuel with
  | zero =>
    intro w h hfew
    have hnum := h.num
    have hdone : ¬ dirtyPageThres ≤ w.numDirtyPages := by omega
    exact ⟨w, if_neg hdone, not_le.mp hdone, fun _ hkept => hkept⟩
  | succ fuel ih =>
    intro w h hfew
    by_cases hmany : dirtyPageThres ≤ w.numDirtyPages
    · obtain ⟨hready, hless, hkept⟩ := fsyncWaitBody_lowers P hE h hmany
      obtain ⟨w', hw', hdone, hkept'⟩ := ih hready (by omega)
      refine ⟨w', ?_, hdone, fun hspares hk => hkept' hspares (hkept hspares hk)⟩
      rw [fsyncWait, if_pos hmany]
      exact hw'
    · exact ⟨w, if_neg hmany, not_le.mp hmany, fun _ hk => hk⟩

/-- The loop ends with few pages, and it has not made the count negative, whatever others take off the
count before its reads, as long as they do not take pages between the check of a correction and its
update. -/
theorem fsync_wait_ends (P : Platform) (E : Interference) (hE : E.InRange) (hspares : E.Spares)
    (s : State) (inode : Nat) (hown : s.mem.inodePos inode % 256 = s.magic.toNat)
    (hle : -2 ^ 31 ≤ inodeGetDirtyPages s inode) (hlt : inodeGetDirtyPages s inode < 2 ^ 31) :
    ∃ fuel w, fsyncWait P E inode fuel (fsyncWaitEntry P E s inode) = some w ∧
      w.numDirtyPages < dirtyPageThres ∧ ∀ p ∈ w.corrections, 0 ≤ p.1 → 0 ≤ p.2 := by
  obtain ⟨hready, -⟩ := ready_of_read (P := P) E hE 0 (r := .entry) rfl hown hle hlt 0 []
  have hcount := hready.lt
  obtain ⟨w, hw, hdone, hkept⟩ := fsyncWait_ends P hE (2 ^ 31) hready
    (by simp only [dirtyPageThres] at hcount ⊢; push_cast; omega)
  refine ⟨_, w, hw, hdone, hkept hspares ?_⟩
  intro p hp
  cases hp

def dirtyInode (count : Int) : State :=
  deadlineInitQueue .lp64 { sampleMem with inodePos := fun _ => count * 256 + 7 } sampleEnv 7

theorem fsync_wait_ends_alone :
    ∃ fuel w, fsyncWait .lp64 .idle 4 fuel (fsyncWaitEntry .lp64 .idle (dirtyInode 250) 4) = some w ∧
      w.numDirtyPages < dirtyPageThres ∧ ∀ p ∈ w.corrections, 0 ≤ p.1 → 0 ≤ p.2 :=
  fsync_wait_ends .lp64 .idle (fun _ _ _ h => h) (fun _ _ h _ => h) (dirtyInode 250) 4 (by decide)
    (by decide) (by decide)

/-- The writers take 100 pages off the count when the first correction is about to change it. -/
def takesAtUpdate : Interference where
  lower i r c := if i = 0 ∧ r = .update then c - 100 else c
  lower_le i r c := by split <;> omega

/-- The correction has seen 150 pages and finds 50, which it takes to -50. -/
theorem update_after_check_drives_negative :
    ((dirtyInode 150).mem.inodePos 4 % 256 = (dirtyInode 150).magic.toNat ∧
      inodeGetDirtyPages (dirtyInode 150) 4 = 150) ∧
    ∃ w, fsyncWait .lp64 takesAtUpdate 4 2
        (fsyncWaitEntry .lp64 takesAtUpdate (dirtyInode 150) 4) = some w ∧
      w.corrections = [(50, -50)] ∧ ¬ ∀ p ∈ w.corrections, 0 ≤ p.1 → 0 ≤ p.2 := by
  refine ⟨by decide, ?_⟩
  have h : ((fsyncWait .lp64 takesAtUpdate 4 2
      (fsyncWaitEntry .lp64 takesAtUpdate (dirtyInode 150) 4)).any fun w =>
        decide (w.corrections = [(50, -50)])) = true := by
    decide +kernel
  obtain ⟨w, hw, hcorr⟩ := (Option.any_eq_true _ _).mp h
  have hcorr := of_decide_eq_true hcorr
  refine ⟨w, hw, hcorr, fun hkept => ?_⟩
  rw [hcorr] at hkept
  exact absurd (hkept (50, -50) (List.mem_singleton.mpr rfl)) (by decide)

end Deadline
end SplitSched
