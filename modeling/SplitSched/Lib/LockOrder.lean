import SplitSched.Lib.Locks

/-!
# SplitSched.Lib.LockOrder

Threads that take their locks in one order do not deadlock.

* `Ordered G rank c held`: a static check. Code `c`, entered with the locks `held`, takes a lock only while every
  lock it holds has a lower rank, and waits only while it holds none.
* `Machine.InOrder`, `step_in_order`: along a run that meets the guard, every thread keeps to the order.
* `thread_goes_on`: a thread that is not at rest can move, or waits for one that can, perhaps through others, or a
  thread in this chain faults.
* `halted_quiet`: if no thread can move, then all have returned or wait and no lock is held, or one of them faults.
-/

namespace SplitSched
namespace Locks

open Relation

variable {σ ℓ ρ η ε κ : Type}

/-! ## The check -/

namespace Code

def Ordered [LT κ] (G : Code σ ℓ ρ → σ → Prop) (rank : ℓ → κ) : Code σ ℓ ρ → Set ℓ → Prop
  | ret _, _ => True
  | lock l next, held => (∀ l' ∈ held, rank l' < rank l) ∧ Ordered G rank next (insert l held)
  | unlock l next, held => Ordered G rank next (held \ {l})
  | act f next, held => ∀ s, G (act f next) s → Ordered G rank (next s) held
  | wait _ next, held => held = ∅ ∧ Ordered G rank next held

section

variable [LT κ] {G : Code σ ℓ ρ → σ → Prop} {rank : ℓ → κ} {held : Set ℓ} {l : ℓ} {f : σ → Option σ}
  {next : σ → Code σ ℓ ρ}

theorem Ordered.act (h : ∀ s, G (.act f next) s → Ordered G rank (next s) held) :
    Ordered G rank (.act f next) held := h

/-- One step with a lock of its own. -/
theorem Ordered.bracket (hl : l ∉ held) (hrank : ∀ l' ∈ held, rank l' < rank l)
    (h : ∀ s, Ordered G rank (next s) held) :
    Ordered G rank (.lock l <| .act f fun s => .unlock l (next s)) held := by
  refine ⟨hrank, fun s _ => ?_⟩
  show Ordered G rank (next s) (insert l held \ {l})
  rw [Set.insert_sdiff_self_of_notMem hl]
  exact h s

/-- The last lock is given back. -/
theorem Ordered.unlock {next : Code σ ℓ ρ} (h : Ordered G rank next ∅) :
    Ordered G rank (.unlock l next) {l} := by
  show Ordered G rank next ({l} \ {l})
  rw [Set.sdiff_self]
  exact h

end

end Code

/-! ## The order along a run -/

namespace Machine

def InOrder [LT κ] (G : Code σ ℓ ρ → σ → Prop) (rank : ℓ → κ) (m : Machine σ ℓ ρ) : Prop :=
  ∀ t (th : Thread σ ℓ ρ), m.threads[t]? = some th → th.code.Ordered G rank (m.held t)

variable {G : Code σ ℓ ρ → σ → Prop} {rank : ℓ → κ} {m m' : Machine σ ℓ ρ} {t : Nat} {th : Thread σ ℓ ρ}

theorem init_in_order [LT κ] (s : σ) : InOrder G rank (init s : Machine σ ℓ ρ) :=
  fun _ _ ht => by simp [init] at ht

theorem InOrder.change [LT κ] {th' : Thread σ ℓ ρ} (h : InOrder G rank m) (ht : m.threads[t]? = some th)
    (hthreads : m'.threads = m.threads.set t th') (hown : th'.code.Ordered G rank (m'.held t))
    (hothers : ∀ t', t' ≠ t → m'.held t' = m.held t') : InOrder G rank m' := by
  intro t' th₁ ht'
  rw [hthreads] at ht'
  by_cases htt : t' = t
  · subst htt
    rw [List.getElem?_set_self (List.getElem?_eq_some_iff.mp ht).1] at ht'
    cases ht'
    exact hown
  · rw [List.getElem?_set_ne (Ne.symm htt)] at ht'
    rw [hothers t' htt]
    exact h t' th₁ ht'

variable [DecidableEq ℓ]

theorem move_in_order [LT κ] (hd : Disciplined G m) (h : InOrder G rank m) (ht : m.threads[t]? = some th)
    (hg : G th.code m.shared) (hm : m.move t th = some m') : InOrder G rank m' := by
  have hr := hd.releases t th ht
  have ho := h t th ht
  obtain ⟨code, base⟩ := th
  cases code with
  | ret r =>
    simp only [move, Option.ite_none_left_eq_some, Option.some.injEq] at hm
    obtain ⟨-, rfl⟩ := hm
    refine h.change ht rfl trivial fun t' htt => ?_
    -- only the locks of the caller are given back
    ext l
    by_cases hb : l ∈ base
    · have hmine : m.owner l = some t := (Set.ext_iff.mp hr l).mpr hb
      simp [held, hb, hmine, Ne.symm htt]
    · simp [held, hb]
  | lock l next =>
    simp only [move, Option.ite_none_right_eq_some, Option.some.injEq] at hm
    obtain ⟨hfree, rfl⟩ := hm
    refine h.change ht rfl ?_ fun t' htt => ?_
    · have hheld : ({ m.goOn t ⟨.lock l next, base⟩ next with
          owner := Function.update m.owner l (some t) } : Machine σ ℓ ρ).held t = insert l (m.held t) := by
        ext l'
        by_cases hl : l' = l <;> simp [held, Function.update_apply, hl]
      rw [hheld]
      exact ho.2
    · ext l'
      by_cases hl : l' = l
      · simp [held, hl, hfree, Ne.symm htt]
      · simp [held, hl]
  | unlock l next =>
    simp only [move, Option.some.injEq] at hm
    subst hm
    have hmine : m.owner l = some t := hr.1
    refine h.change ht rfl ?_ fun t' htt => ?_
    · have hheld : ({ m.goOn t ⟨.unlock l next, base⟩ next with
          owner := Function.update m.owner l none } : Machine σ ℓ ρ).held t = m.held t \ {l} := by
        ext l'
        by_cases hl : l' = l <;> simp [held, Function.update_apply, hl]
      rw [hheld]
      exact ho
    · ext l'
      by_cases hl : l' = l
      · simp [held, hl, hmine, Ne.symm htt]
      · simp [held, hl]
  | act f next =>
    simp only [move, Option.map_eq_some_iff] at hm
    obtain ⟨s, -, rfl⟩ := hm
    exact h.change ht rfl (ho m.shared hg) fun _ _ => rfl
  | wait ready next =>
    simp only [move, Option.ite_none_right_eq_some, Option.some.injEq] at hm
    obtain ⟨-, rfl⟩ := hm
    exact h.change ht rfl ho.2 fun _ _ => rfl

theorem call_in_order [LT κ] {code : Code σ ℓ ρ} {base : List ℓ} (hd : Disciplined G m) (h : InOrder G rank m)
    (hcode : code.Ordered G rank {l | l ∈ base}) (hm : m.call code base = some m') : InOrder G rank m' := by
  simp only [call, Option.ite_none_right_eq_some, Option.some.injEq] at hm
  obtain ⟨hfree, rfl⟩ := hm
  intro t th ht
  rcases lt_trichotomy t m.threads.length with hlt | rfl | hgt
  · rw [List.getElem?_append_left hlt] at ht
    have hheld : ({ m with
        owner := fun l => if l ∈ base then some m.threads.length else m.owner l
        threads := m.threads ++ [⟨code, base⟩] } : Machine σ ℓ ρ).held t = m.held t := by
      ext l
      by_cases hb : l ∈ base
      · simp [held, hb, hfree l hb, hlt.ne']
      · simp [held, hb]
    rw [hheld]
    exact h t th ht
  · rw [List.getElem?_concat_length] at ht
    cases ht
    have hheld : ({ m with
        owner := fun l => if l ∈ base then some m.threads.length else m.owner l
        threads := m.threads ++ [⟨code, base⟩] } : Machine σ ℓ ρ).held m.threads.length =
        {l | l ∈ base} := by
      ext l
      by_cases hb : l ∈ base
      · simp [held, hb]
      · have : m.owner l ≠ some m.threads.length := fun ho => (hd.owned l _ ho).false
        simp [held, hb, this]
    rw [hheld]
    exact hcode
  · rw [List.getElem?_eq_none (by simpa using hgt)] at ht
    cases ht

/-! ## No deadlock -/

/-- The thread `t` wants a lock that the thread `u` has. -/
def WaitsFor (m : Machine σ ℓ ρ) (t u : Nat) : Prop :=
  ∃ l next base, m.threads[t]? = some ⟨.lock l next, base⟩ ∧ m.owner l = some u

/-- The next instruction of the thread faults. -/
def FaultsAt (m : Machine σ ℓ ρ) (t : Nat) : Prop :=
  ∃ f next base, m.threads[t]? = some ⟨.act f next, base⟩ ∧ f m.shared = none

/-- The thread can move. -/
def GoesOn (m : Machine σ ℓ ρ) (t : Nat) : Prop :=
  ∃ th, m.threads[t]? = some th ∧ (m.move t th).isSome

/-- Every thread has returned or waits, and no lock is held. -/
structure Quiet (m : Machine σ ℓ ρ) : Prop where
  rest : ∀ (t : Nat) (th : Thread σ ℓ ρ), m.threads[t]? = some th → th.code.AtRest
  free : ∀ l, m.owner l = none

theorem act_goes_on {f : σ → Option σ} {next : σ → Code σ ℓ ρ} {base : List ℓ}
    (ht : m.threads[t]? = some ⟨.act f next, base⟩) : m.GoesOn t ∨ m.FaultsAt t := by
  cases hf : f m.shared with
  | none => exact .inr ⟨f, next, base, ht, hf⟩
  | some s => exact .inl ⟨_, ht, by simp [move, hf]⟩

variable [Preorder κ] [WellFoundedGT κ]

/-- The owner of a lock can move, or wants a lock of a higher rank, whose owner can move or wants one, and so on. -/
theorem owner_goes_on (hd : Disciplined G m) (ho : InOrder G rank m) : ∀ (l : ℓ) (t : Nat), m.owner l = some t →
    ∃ u, ReflTransGen m.WaitsFor t u ∧ (m.GoesOn u ∨ m.FaultsAt u) := by
  intro l
  induction hk : rank l using WellFoundedGT.induction generalizing l with
  | ind k ih =>
    intro t hl
    have hmem : l ∈ m.held t := hl
    obtain ⟨th, ht⟩ : ∃ th, m.threads[t]? = some th := ⟨_, List.getElem?_eq_getElem (hd.owned l t hl)⟩
    have hr := hd.releases t th ht
    have hord := ho t th ht
    obtain ⟨code, base⟩ := th
    cases code with
    | ret r =>
      -- the caller has the lock, and gives it back
      have hbase : base ≠ [] := by
        rintro rfl
        rw [show m.held t = {l | l ∈ []} from hr] at hmem
        simp at hmem
      exact ⟨t, .refl, .inl ⟨_, ht, by simp [move, hbase]⟩⟩
    | lock l' next =>
      cases hfree : m.owner l' with
      | none => exact ⟨t, .refl, .inl ⟨_, ht, by simp [move, hfree]⟩⟩
      | some t' =>
        obtain ⟨u, hchain, hu⟩ := ih (rank l') (hk ▸ hord.1 l hmem) l' rfl t' hfree
        exact ⟨u, .head ⟨l', next, base, ht, hfree⟩ hchain, hu⟩
    | unlock l' next => exact ⟨t, .refl, .inl ⟨_, ht, rfl⟩⟩
    | act f next => exact ⟨t, .refl, act_goes_on ht⟩
    | wait ready next =>
      rw [hord.1] at hmem
      exact absurd hmem (Set.notMem_empty l)

theorem thread_goes_on (hd : Disciplined G m) (ho : InOrder G rank m) (ht : m.threads[t]? = some th)
    (hrest : ¬th.code.AtRest) : ∃ u, ReflTransGen m.WaitsFor t u ∧ (m.GoesOn u ∨ m.FaultsAt u) := by
  obtain ⟨code, base⟩ := th
  cases code with
  | ret r => exact absurd trivial hrest
  | lock l next =>
    cases hfree : m.owner l with
    | none => exact ⟨t, .refl, .inl ⟨_, ht, by simp [move, hfree]⟩⟩
    | some t' =>
      obtain ⟨u, hchain, hu⟩ := owner_goes_on hd ho l t' hfree
      exact ⟨u, .head ⟨l, next, base, ht, hfree⟩ hchain, hu⟩
  | unlock l next => exact ⟨t, .refl, .inl ⟨_, ht, rfl⟩⟩
  | act f next => exact ⟨t, .refl, act_goes_on ht⟩
  | wait ready next => exact absurd trivial hrest

theorem halted_quiet (hd : Disciplined G m) (ho : InOrder G rank m) (hhalt : ∀ t, ¬m.GoesOn t) :
    m.Quiet ∨ ∃ t, m.FaultsAt t := by
  by_cases hf : ∃ t, m.FaultsAt t
  · exact .inr hf
  have hstuck : ∀ u, ¬(m.GoesOn u ∨ m.FaultsAt u) := fun u hu => hu.elim (hhalt u) fun h => hf ⟨u, h⟩
  refine .inl ⟨fun t th ht => ?_, fun l => ?_⟩
  · by_contra hrest
    obtain ⟨u, -, hu⟩ := thread_goes_on hd ho ht hrest
    exact hstuck u hu
  · by_contra htaken
    obtain ⟨t, hl⟩ := Option.ne_none_iff_exists'.mp htaken
    obtain ⟨u, -, hu⟩ := owner_goes_on hd ho l t hl
    exact hstuck u hu

end Machine

section

variable [DecidableEq ℓ] {G : Code σ ℓ ρ → σ → Prop} {rank : ℓ → κ} {code : η → Code σ ℓ ρ}
  {base : η → List ℓ} {effect : ε → σ → σ}

theorem step_in_order [LT κ] (hcode : ∀ h, (code h).Ordered G rank {l | l ∈ base h}) (m : Machine σ ℓ ρ)
    (e : Event η ε) (m' : Machine σ ℓ ρ) (hs : step code base effect m e = some m') (hg : Guarded G m e)
    (hd : m.Disciplined G) (h : m.InOrder G rank) : m'.InOrder G rank := by
  cases e with
  | call hook => exact Machine.call_in_order hd h (hcode hook) hs
  | move t =>
    simp only [step] at hs
    split at hs
    · cases hs
    · rename_i th ht
      exact Machine.move_in_order hd h ht (hg th ht) hs
  | other e =>
    cases hs
    exact h

theorem goesOn_iff {m : Machine σ ℓ ρ} {t : Nat} :
    m.GoesOn t ↔ ∃ m', step code base effect m (.move t) = some m' := by
  unfold Machine.GoesOn
  cases ht : m.threads[t]? with
  | none => simp [step, ht]
  | some th => simp [step, ht, Option.isSome_iff_exists]

end

end Locks
end SplitSched
