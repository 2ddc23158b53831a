import SplitSched.Lib.Run

/-!
# SplitSched.Lib.Locks

Threads that share a state and take spin locks, under any interleaving.

* `Code σ ℓ ρ`: what a thread still has to do. `exec` is its effect when nothing else runs.
* `Machine`, `step`: threads are called, move one instruction at a time, and the surroundings change the
  shared state. A thread may be called by someone who holds locks, and gives them back when it returns.
* `Releases G base c held`: a static check. Code `c`, entered with the locks `held`, has given back all but
  `base` wherever it returns or waits; the guard `G` may rule out what an instruction finds.
* `Disciplined`, `step_disciplined`: in a run that meets the guard, every thread holds the locks its code
  says, and so a thread at rest holds none but its caller's (`Disciplined.released`).
-/

namespace SplitSched
namespace Locks

inductive Code (σ ℓ ρ : Type) where
  | ret (r : ρ)
  | lock (l : ℓ) (next : Code σ ℓ ρ)
  | unlock (l : ℓ) (next : Code σ ℓ ρ)
  /-- One step on the shared state, which may fault. The rest depends on the state before the step. -/
  | act (f : σ → Option σ) (next : σ → Code σ ℓ ρ)
  | wait (ready : σ → Bool) (next : Code σ ℓ ρ)

namespace Code

variable {σ ℓ ρ : Type}

/-- The value and the effect of the code when no other thread moves; no value when it waits. -/
def exec : Code σ ℓ ρ → σ → Option (Option ρ × σ)
  | ret r, s => some (some r, s)
  | lock _ next, s => next.exec s
  | unlock _ next, s => next.exec s
  | act f next, s => (f s).bind (next s).exec
  | wait _ _, s => some (none, s)

/-- The thread has returned, or waits. -/
def AtRest : Code σ ℓ ρ → Prop
  | ret _ => True
  | wait _ _ => True
  | _ => False

def Releases (G : Code σ ℓ ρ → σ → Prop) (base : Set ℓ) : Code σ ℓ ρ → Set ℓ → Prop
  | ret _, held => held = base
  | lock l next, held => l ∉ held ∧ Releases G base next (insert l held)
  | unlock l next, held => l ∈ held ∧ l ∉ base ∧ Releases G base next (held \ {l})
  | act f next, held => ∀ s, G (act f next) s → Releases G base (next s) held
  | wait _ next, held => held = base ∧ Releases G base next held

section

variable {G : Code σ ℓ ρ → σ → Prop} {base held : Set ℓ} {l : ℓ} {f : σ → Option σ} {next : σ → Code σ ℓ ρ}

theorem Releases.act (h : ∀ s, G (.act f next) s → Releases G base (next s) held) :
    Releases G base (.act f next) held := h

/-- One step with a lock of its own. -/
theorem Releases.bracket (hl : l ∉ held) (hb : l ∉ base) (h : ∀ s, Releases G base (next s) held) :
    Releases G base (.lock l <| .act f fun s => .unlock l (next s)) held := by
  refine ⟨hl, fun s _ => ⟨Set.mem_insert l held, hb, ?_⟩⟩
  rw [Set.insert_sdiff_self_of_notMem hl]
  exact h s

/-- The last lock is given back. -/
theorem Releases.unlock {next : Code σ ℓ ρ} (h : Releases G ∅ next ∅) :
    Releases G ∅ (.unlock l next) {l} := by
  refine ⟨rfl, Set.notMem_empty l, ?_⟩
  rw [Set.sdiff_self]
  exact h

end

end Code

structure Thread (σ ℓ ρ : Type) where
  code : Code σ ℓ ρ
  /-- The locks its caller holds around it. -/
  base : List ℓ

structure Machine (σ ℓ ρ : Type) where
  shared : σ
  owner : ℓ → Option Nat
  threads : List (Thread σ ℓ ρ)

/-- `η` are the functions that are called, `ε` what the surroundings do. -/
inductive Event (η ε : Type) where
  | call (h : η)
  | move (t : Nat)
  | other (e : ε)

section

variable {σ ℓ ρ η ε : Type}

namespace Machine

def init (s : σ) : Machine σ ℓ ρ := ⟨s, fun _ => none, []⟩

/-- The thread `t` goes on with `next`. -/
def goOn (m : Machine σ ℓ ρ) (t : Nat) (th : Thread σ ℓ ρ) (next : Code σ ℓ ρ) : Machine σ ℓ ρ :=
  { m with threads := m.threads.set t { th with code := next } }

/-- A thread that has returned or waits holds no lock but its caller's. -/
def Released (m : Machine σ ℓ ρ) : Prop :=
  ∀ t (th : Thread σ ℓ ρ), m.threads[t]? = some th → th.code.AtRest → ∀ l, m.owner l = some t → l ∈ th.base

/-- The locks of the thread `t`. -/
def held (m : Machine σ ℓ ρ) (t : Nat) : Set ℓ := {l | m.owner l = some t}

structure Disciplined (G : Code σ ℓ ρ → σ → Prop) (m : Machine σ ℓ ρ) : Prop where
  releases : ∀ t (th : Thread σ ℓ ρ), m.threads[t]? = some th →
    th.code.Releases G {l | l ∈ th.base} (m.held t)
  owned : ∀ l t, m.owner l = some t → t < m.threads.length

variable {G : Code σ ℓ ρ → σ → Prop} {m m' : Machine σ ℓ ρ} {t : Nat} {th : Thread σ ℓ ρ}

theorem Disciplined.released (h : Disciplined G m) : m.Released := by
  intro t th ht hrest l hl
  have hr := h.releases t th ht
  have hmem : l ∈ m.held t := hl
  generalize th.code = c at hr hrest
  cases c with
  | ret r =>
    rw [show m.held t = {l | l ∈ th.base} from hr] at hmem
    exact hmem
  | wait ready next =>
    rw [show m.held t = {l | l ∈ th.base} from hr.1] at hmem
    exact hmem
  | lock l next => exact hrest.elim
  | unlock l next => exact hrest.elim
  | act f next => exact hrest.elim

/-- The thread `t` moves: its own code is checked on, and the others keep their locks. -/
theorem Disciplined.change {th' : Thread σ ℓ ρ} (h : Disciplined G m) (ht : m.threads[t]? = some th)
    (hthreads : m'.threads = m.threads.set t th') (hown : th'.code.Releases G {l | l ∈ th'.base} (m'.held t))
    (hothers : ∀ t' l, t' ≠ t → (m'.owner l = some t' ↔ m.owner l = some t')) : Disciplined G m' := by
  have hlt : t < m.threads.length := (List.getElem?_eq_some_iff.mp ht).1
  constructor
  · intro t' th₁ ht'
    rw [hthreads] at ht'
    by_cases htt : t' = t
    · subst htt
      rw [List.getElem?_set_self hlt] at ht'
      cases ht'
      exact hown
    · rw [List.getElem?_set_ne (Ne.symm htt)] at ht'
      have hheld : m'.held t' = m.held t' := by
        ext l
        exact hothers t' l htt
      rw [hheld]
      exact h.releases t' th₁ ht'
  · intro l t' hl
    rw [hthreads, List.length_set]
    by_cases htt : t' = t
    · exact htt ▸ hlt
    · exact h.owned l t' ((hothers t' l htt).mp hl)

theorem init_disciplined (s : σ) : Disciplined G (init s : Machine σ ℓ ρ) :=
  ⟨fun _ _ ht => by simp [init] at ht, fun _ _ hl => by simp [init] at hl⟩

variable [DecidableEq ℓ]

/-- The next instruction of the thread `t`. -/
def move (m : Machine σ ℓ ρ) (t : Nat) (th : Thread σ ℓ ρ) : Option (Machine σ ℓ ρ) :=
  match th.code with
  | .ret _ =>
    -- the caller goes on, and gives back its locks
    if th.base = [] then none
    else some
      { m with
        owner := fun l => if l ∈ th.base then none else m.owner l
        threads := m.threads.set t { th with base := [] } }
  | .lock l next =>
    if m.owner l = none then
      some { m.goOn t th next with owner := Function.update m.owner l (some t) }
    else none
  | .unlock l next => some { m.goOn t th next with owner := Function.update m.owner l none }
  | .act f next => (f m.shared).map fun s => { m.goOn t th (next m.shared) with shared := s }
  | .wait ready next => if ready m.shared then some (m.goOn t th next) else none

/-- `h` is called by someone who holds the locks `base`. -/
def call (m : Machine σ ℓ ρ) (code : Code σ ℓ ρ) (base : List ℓ) : Option (Machine σ ℓ ρ) :=
  if ∀ l ∈ base, m.owner l = none then
    some
      { m with
        owner := fun l => if l ∈ base then some m.threads.length else m.owner l
        threads := m.threads ++ [⟨code, base⟩] }
  else none

theorem move_disciplined (h : Disciplined G m) (ht : m.threads[t]? = some th)
    (hg : G th.code m.shared) (hm : m.move t th = some m') : Disciplined G m' := by
  have hr := h.releases t th ht
  obtain ⟨code, base⟩ := th
  cases code with
  | ret r =>
    simp only [move, Option.ite_none_left_eq_some, Option.some.injEq] at hm
    obtain ⟨-, rfl⟩ := hm
    have hheld : m.held t = {l | l ∈ base} := hr
    refine h.change ht rfl ?_ fun t' l htt => ?_
    · ext l
      have hl := Set.ext_iff.mp hheld l
      by_cases hb : l ∈ base
      · simp [held, hb]
      · simpa [held, hb] using hl
    · have hl := Set.ext_iff.mp hheld l
      by_cases hb : l ∈ base
      · have : m.owner l = some t := hl.mpr hb
        simp [hb, this, Ne.symm htt]
      · simp [hb]
  | lock l next =>
    simp only [move, Option.ite_none_right_eq_some, Option.some.injEq] at hm
    obtain ⟨hfree, rfl⟩ := hm
    refine h.change ht rfl ?_ fun t' l' htt => ?_
    · have hheld : ({ m.goOn t ⟨.lock l next, base⟩ next with
          owner := Function.update m.owner l (some t) } : Machine σ ℓ ρ).held t = insert l (m.held t) := by
        ext l'
        by_cases hl : l' = l <;> simp [held, Function.update_apply, hl]
      rw [hheld]
      exact hr.2
    · by_cases hl : l' = l
      · simp [hl, hfree, Ne.symm htt]
      · simp [hl]
  | unlock l next =>
    simp only [move, Option.some.injEq] at hm
    subst hm
    have hmine : m.owner l = some t := hr.1
    refine h.change ht rfl ?_ fun t' l' htt => ?_
    · have hheld : ({ m.goOn t ⟨.unlock l next, base⟩ next with
          owner := Function.update m.owner l none } : Machine σ ℓ ρ).held t = m.held t \ {l} := by
        ext l'
        by_cases hl : l' = l <;> simp [held, Function.update_apply, hl]
      rw [hheld]
      exact hr.2.2
    · by_cases hl : l' = l
      · simp [hl, hmine, Ne.symm htt]
      · simp [hl]
  | act f next =>
    simp only [move, Option.map_eq_some_iff] at hm
    obtain ⟨s, -, rfl⟩ := hm
    exact h.change ht rfl (hr m.shared hg) fun _ _ _ => Iff.rfl
  | wait ready next =>
    simp only [move, Option.ite_none_right_eq_some, Option.some.injEq] at hm
    obtain ⟨-, rfl⟩ := hm
    exact h.change ht rfl hr.2 fun _ _ _ => Iff.rfl

theorem call_disciplined {code : Code σ ℓ ρ} {base : List ℓ} (h : Disciplined G m)
    (hcode : code.Releases G {l | l ∈ base} {l | l ∈ base}) (hm : m.call code base = some m') :
    Disciplined G m' := by
  simp only [call, Option.ite_none_right_eq_some, Option.some.injEq] at hm
  obtain ⟨hfree, rfl⟩ := hm
  constructor
  · intro t th ht
    rcases lt_or_ge t m.threads.length with hlt | hge
    · rw [List.getElem?_append_left hlt] at ht
      have hheld : ({ m with
          owner := fun l => if l ∈ base then some m.threads.length else m.owner l
          threads := m.threads ++ [⟨code, base⟩] } : Machine σ ℓ ρ).held t = m.held t := by
        ext l
        by_cases hb : l ∈ base
        · simp [held, hb, hfree l hb, hlt.ne']
        · simp [held, hb]
      rw [hheld]
      exact h.releases t th ht
    · rw [List.getElem?_append_right hge] at ht
      obtain ⟨hlt, rfl⟩ := List.getElem?_eq_some_iff.mp ht
      have hte : t = m.threads.length := by
        simp at hlt
        omega
      subst hte
      have hheld : ({ m with
          owner := fun l => if l ∈ base then some m.threads.length else m.owner l
          threads := m.threads ++ [⟨code, base⟩] } : Machine σ ℓ ρ).held m.threads.length =
          {l | l ∈ base} := by
        ext l
        by_cases hb : l ∈ base
        · simp [held, hb]
        · have : m.owner l ≠ some m.threads.length := fun ho => (h.owned l _ ho).false
          simp [held, hb, this]
      rw [hheld]
      simpa using hcode
  · intro l t hl
    simp only at hl
    rw [List.length_append, List.length_singleton]
    split at hl
    · cases hl
      exact Nat.lt_succ_self _
    · exact (h.owned l t hl).trans (Nat.lt_succ_self _)

end Machine

variable [DecidableEq ℓ] {G : Code σ ℓ ρ → σ → Prop}

def step (code : η → Code σ ℓ ρ) (base : η → List ℓ) (effect : ε → σ → σ) (m : Machine σ ℓ ρ) :
    Event η ε → Option (Machine σ ℓ ρ)
  | .call h => m.call (code h) (base h)
  | .move t =>
    match m.threads[t]? with
    | none => none
    | some th => m.move t th
  | .other e => some { m with shared := effect e m.shared }

/-- What a moving thread finds is not ruled out. -/
def Guarded (G : Code σ ℓ ρ → σ → Prop) (m : Machine σ ℓ ρ) : Event η ε → Prop
  | .move t => ∀ th, m.threads[t]? = some th → G th.code m.shared
  | _ => True

theorem step_disciplined {code : η → Code σ ℓ ρ} {base : η → List ℓ} {effect : ε → σ → σ}
    (hcode : ∀ h, (code h).Releases G {l | l ∈ base h} {l | l ∈ base h}) (m : Machine σ ℓ ρ)
    (e : Event η ε) (m' : Machine σ ℓ ρ) (hs : step code base effect m e = some m') (hg : Guarded G m e)
    (h : m.Disciplined G) : m'.Disciplined G := by
  cases e with
  | call hook => exact Machine.call_disciplined h (hcode hook) hs
  | move t =>
    simp only [step] at hs
    split at hs
    · cases hs
    · rename_i th ht
      exact Machine.move_disciplined h ht (hg th ht) hs
  | other e =>
    cases hs
    exact ⟨h.releases, h.owned⟩

end

end Locks
end SplitSched
