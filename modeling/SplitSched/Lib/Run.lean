import Mathlib

/-!
# SplitSched.Lib.Run

Runs of a state machine whose step is a partial function: `step s e` is the state after event `e`,
or `none` when `e` cannot happen in `s`.

* `run step s es`: the state after the events `es`.
* `run_invariant`: what one step keeps, a run keeps.
* `Meets step c s es`: every step of the run meets the condition `c`. `run_invariant_of_meets` is
  the invariant rule for such runs, `run_returns_of_meets` says that they do not get stuck, and
  `meets_congr` replaces the condition by another one.
* `Always step p s es`: `p` holds in every state the run passes through. `always_iff_meets` settles
  it when `p` is kept by the steps that meet a condition and broken by the first that does not;
  `always_iff_meets_last` makes it a condition on the steps, and `always_le_last` is for what only grows.
* `runCost`: what the events of a run cost. `runCost_le` bounds it by a measure out of which every event is
  paid, and `runCost_eq_countP` makes it a number of events.
* `foldl_rel`, `foldlM_rel`: a reflexive and transitive relation that every round of a loop respects,
  the loop respects. `foldl_keeps`, `foldlM_keeps`: what no round changes, the loop does not change.
* `foldl_update`, `foldlM_update`: a loop over distinct keys that changes a table at the key of the
  round changes it once at each of the keys.
-/

namespace SplitSched

variable {σ ε : Type}

def run (step : σ → ε → Option σ) : σ → List ε → Option σ
  | s, [] => some s
  | s, e :: es =>
    match step s e with
    | none => none
    | some s' => run step s' es

/-- Every step of the run from `s` along `es` meets `c`. -/
def Meets (step : σ → ε → Option σ) (c : σ → ε → Prop) : σ → List ε → Prop
  | _, [] => True
  | s, e :: es => c s e ∧ ∀ s', step s e = some s' → Meets step c s' es

instance Meets.decidable (step : σ → ε → Option σ) (c : σ → ε → Prop)
    [∀ s e, Decidable (c s e)] : ∀ s es, Decidable (Meets step c s es)
  | _, [] => isTrue trivial
  | s, e :: es =>
    match h : step s e with
    | none =>
      decidable_of_iff (c s e) ⟨fun hc => ⟨hc, by simp [h]⟩, fun hm => hm.1⟩
    | some t =>
      have := Meets.decidable step c t es
      decidable_of_iff (c s e ∧ Meets step c t es)
        ⟨fun hm => ⟨hm.1, by simpa [h] using hm.2⟩, fun hm => ⟨hm.1, hm.2 t h⟩⟩

/-- What the events `es` cost in the states in which they happen. -/
def runCost (step : σ → ε → Option σ) (cost : σ → ε → Nat) : σ → List ε → Nat
  | _, [] => 0
  | s, e :: es =>
    cost s e +
      match step s e with
      | none => 0
      | some s' => runCost step cost s' es

/-- `p` holds in every state the run from `s` along `es` passes through. -/
def Always (step : σ → ε → Option σ) (p : σ → Prop) (s : σ) (es : List ε) : Prop :=
  ∀ es' s', es' <+: es → run step s es' = some s' → p s'

section

variable {step : σ → ε → Option σ} {I p : σ → Prop} {c : σ → ε → Prop} {s s' : σ}
  {es es' : List ε} {e : ε}

theorem run_cons_some (h : run step s (e :: es) = some s') :
    ∃ t, step s e = some t ∧ run step t es = some s' := by
  simp only [run] at h
  split at h
  · cases h
  · rename_i t ht
    exact ⟨t, ht, h⟩

/-- A machine whose every event can happen runs along any events. -/
theorem run_total (hstep : ∀ s e, ∃ s', step s e = some s') (es : List ε) :
    ∀ s, ∃ s', run step s es = some s' := by
  induction es with
  | nil =>
    intro s
    exact ⟨s, rfl⟩
  | cons e es ih =>
    intro s
    obtain ⟨t, ht⟩ := hstep s e
    obtain ⟨s', hs'⟩ := ih t
    exact ⟨s', by rw [run, ht]; exact hs'⟩

theorem run_append {t u : σ} (h : run step s es = some t) (h' : run step t es' = some u) :
    run step s (es ++ es') = some u := by
  induction es generalizing s with
  | nil =>
    cases h
    exact h'
  | cons e es ih =>
    obtain ⟨s₁, hs, hr⟩ := run_cons_some h
    simp only [List.cons_append, run, hs]
    exact ih hr

theorem run_of_append {t : σ} (h : run step s (es ++ es') = some s') (ht : run step s es = some t) :
    run step t es' = some s' := by
  induction es generalizing s with
  | nil =>
    cases ht
    exact h
  | cons e es ih =>
    obtain ⟨s₁, hs, hr⟩ := run_cons_some h
    obtain ⟨s₂, hs₂, hr₂⟩ := run_cons_some ht
    cases hs.symm.trans hs₂
    exact ih hr hr₂

theorem run_invariant (hI : ∀ s e s', step s e = some s' → I s → I s')
    (h : run step s es = some s') (h0 : I s) : I s' := by
  induction es generalizing s with
  | nil => cases h; exact h0
  | cons e es ih =>
    obtain ⟨t, ht, hr⟩ := run_cons_some h
    exact ih hr (hI s e t ht h0)

theorem run_invariant_of_meets (hI : ∀ s e s', step s e = some s' → c s e → I s → I s')
    (h : run step s es = some s') (hc : Meets step c s es) (h0 : I s) : I s' := by
  induction es generalizing s with
  | nil => cases h; exact h0
  | cons e es ih =>
    obtain ⟨t, ht, hr⟩ := run_cons_some h
    exact ih hr (hc.2 t ht) (hI s e t ht hc.1 h0)

/-- If no step that meets `c` in a state with the invariant gets stuck, the run does not. -/
theorem run_returns_of_meets (hI : ∀ s e, c s e → I s → ∃ s', step s e = some s' ∧ I s')
    (hc : Meets step c s es) (h0 : I s) : ∃ s', run step s es = some s' ∧ I s' := by
  induction es generalizing s with
  | nil => exact ⟨s, rfl, h0⟩
  | cons e es ih =>
    obtain ⟨t, ht, hIt⟩ := hI s e hc.1 h0
    obtain ⟨s', hr, hs'⟩ := ih (hc.2 t ht) hIt
    refine ⟨s', ?_, hs'⟩
    simp only [run, ht, hr]

/-- A condition met along a run is met along every initial part of it. -/
theorem Meets.of_append (h : Meets step c s (es ++ es')) : Meets step c s es := by
  induction es generalizing s with
  | nil => trivial
  | cons e es ih => exact ⟨h.1, fun t ht => ih (h.2 t ht)⟩

theorem always_of_meets (hI : ∀ s e s', step s e = some s' → c s e → I s → I s')
    (hp : ∀ s, I s → p s) (hc : Meets step c s es) (h0 : I s) : Always step p s es := by
  rintro es₁ t ⟨es₂, rfl⟩ hr
  exact hp t (run_invariant_of_meets hI hr hc.of_append h0)

theorem Always.tail (h : Always step p s (e :: es)) (ht : step s e = some s') :
    Always step p s' es := by
  rintro es₁ t hpre hr
  refine h (e :: es₁) t (List.cons_prefix_cons.mpr ⟨rfl, hpre⟩) ?_
  simp only [run, ht, hr]

/-- What no step decreases is never above its last value. -/
theorem always_le_last {f : σ → Nat} (hf : ∀ s e s', step s e = some s' → f s ≤ f s')
    (h : run step s es = some s') : Always step (fun t => f t ≤ f s') s es := by
  rintro es₁ t ⟨es₂, rfl⟩ hr
  exact run_invariant (I := fun u => f t ≤ f u) (fun u e u' hs hle => hle.trans (hf u e u' hs))
    (run_of_append h hr) (le_refl _)

/-- `p` holds along a run if it holds before every step and at the end. -/
theorem always_iff_meets_last (h : run step s es = some s') :
    Always step p s es ↔ Meets step (fun s _ => p s) s es ∧ p s' := by
  induction es generalizing s with
  | nil =>
    cases h
    refine ⟨fun ha => ⟨trivial, ha [] s' (List.prefix_refl []) rfl⟩, fun hp es₁ t hpre hr => ?_⟩
    cases List.prefix_nil.mp hpre
    cases hr
    exact hp.2
  | cons e es ih =>
    obtain ⟨t, ht, hr⟩ := run_cons_some h
    constructor
    · intro ha
      obtain ⟨hm, hl⟩ := (ih hr).mp (ha.tail ht)
      refine ⟨⟨ha [] s (List.nil_prefix ..) rfl, fun u hu => ?_⟩, hl⟩
      cases ht.symm.trans hu
      exact hm
    · rintro ⟨⟨hp, hm⟩, hl⟩ es₁ u hpre hu
      cases es₁ with
      | nil =>
        cases hu
        exact hp
      | cons e₁ es₁ =>
        obtain ⟨rfl, htail⟩ := List.cons_prefix_cons.mp hpre
        obtain ⟨t', ht', hu⟩ := run_cons_some hu
        cases ht.symm.trans ht'
        exact (ih hr).mpr ⟨hm t ht, hl⟩ es₁ u htail hu

/-- A property that the steps meeting `c` keep, and the first step not meeting `c` breaks, holds
along a run exactly when all its steps meet `c`. -/
theorem always_iff_meets (hI : ∀ s e s', step s e = some s' → c s e → I s → I s')
    (hp : ∀ s, I s → p s) (hbad : ∀ s e s', step s e = some s' → ¬ c s e → I s → ¬ p s')
    (h : run step s es = some s') (h0 : I s) :
    Always step p s es ↔ Meets step c s es := by
  refine ⟨?_, fun hc => always_of_meets hI hp hc h0⟩
  induction es generalizing s with
  | nil => exact fun _ => trivial
  | cons e es ih =>
    intro hall
    obtain ⟨t, ht, hr⟩ := run_cons_some h
    have hc : c s e := by
      by_contra hc
      exact hbad s e t ht hc h0
        (hall [e] t (List.cons_prefix_cons.mpr ⟨rfl, List.nil_prefix⟩) (by simp only [run, ht]))
    refine ⟨hc, fun t' ht' => ?_⟩
    cases ht.symm.trans ht'
    exact ih hr (hI s e t ht hc h0) (hall.tail ht)

/-- What the events of a run cost is no more than `Φ`, if each of them pays for itself out of it. -/
theorem runCost_le {Φ : σ → Nat} {cost : σ → ε → Nat} {q : ε → Prop}
    (hstep : ∀ s e s', q e → step s e = some s' → p s → p s' → I s → I s' ∧ cost s e + Φ s' ≤ Φ s)
    (h : run step s es = some s') (hq : ∀ e ∈ es, q e) (ha : Always step p s es) (h0 : I s) :
    runCost step cost s es + Φ s' ≤ Φ s := by
  induction es generalizing s with
  | nil =>
    cases h
    simp [runCost]
  | cons e es ih =>
    obtain ⟨t, ht, hr⟩ := run_cons_some h
    obtain ⟨hqe, hq⟩ := List.forall_mem_cons.mp hq
    have htail := ha.tail ht
    obtain ⟨hI, hcost⟩ := hstep s e t hqe ht (ha [] s (List.nil_prefix ..) rfl)
      (htail [] t (List.nil_prefix ..) rfl) h0
    have hrest := ih hr hq htail hI
    simp only [runCost, ht]
    omega

theorem runCost_eq_countP {counts : ε → Bool} (h : run step s es = some s') :
    runCost step (fun _ e => (counts e).toNat) s es = es.countP counts := by
  induction es generalizing s with
  | nil => rfl
  | cons e es ih =>
    obtain ⟨t, ht, hr⟩ := run_cons_some h
    simp only [runCost, ht, ih hr]
    cases hc : counts e with
    | false => rw [List.countP_cons_of_neg (by simp [hc]), Bool.toNat_false, Nat.zero_add]
    | true => rw [List.countP_cons_of_pos hc, Bool.toNat_true, Nat.add_comm]

/-- A condition on events alone is met along a run when every event meets it. -/
theorem meets_iff_forall {c : ε → Prop} (h : run step s es = some s') :
    Meets step (fun _ => c) s es ↔ ∀ e ∈ es, c e := by
  induction es generalizing s with
  | nil => exact ⟨fun _ e he => absurd he List.not_mem_nil, fun _ => trivial⟩
  | cons e es ih =>
    obtain ⟨t, ht, hr⟩ := run_cons_some h
    rw [List.forall_mem_cons, ← ih hr]
    exact and_congr_right fun _ =>
      ⟨fun hm => hm t ht, fun hm t' ht' => Option.some.inj (ht.symm.trans ht') ▸ hm⟩

/-- A condition that the invariant implies is met along every run. -/
theorem meets_of_invariant (hI : ∀ s e s', step s e = some s' → I s → I s')
    (hc : ∀ s e, I s → c s e) (es : List ε) : ∀ {s : σ}, I s → Meets step c s es := by
  induction es with
  | nil => exact fun _ => trivial
  | cons e es ih => exact fun h0 => ⟨hc _ e h0, fun t ht => ih (hI _ e t ht h0)⟩

/-- Two conditions that agree wherever the invariant holds are met along the same runs. -/
theorem meets_congr {c' : σ → ε → Prop} (hI : ∀ s e s', step s e = some s' → I s → I s')
    (hc : ∀ s e, I s → (c s e ↔ c' s e)) (es : List ε) : ∀ {s : σ}, I s →
    (Meets step c s es ↔ Meets step c' s es) := by
  induction es with
  | nil => exact fun _ => Iff.rfl
  | cons e es ih =>
    intro s h0
    refine and_congr (hc s e h0) ⟨fun hm t ht => ?_, fun hm t ht => ?_⟩
    · exact (ih (hI s e t ht h0)).mp (hm t ht)
    · exact (ih (hI s e t ht h0)).mpr (hm t ht)

end

/-! ## Loops -/

section

variable {α β : Type} {R : σ → σ → Prop} {g : σ → β}

theorem foldl_rel {f : σ → α → σ} (hrefl : ∀ s, R s s)
    (htrans : ∀ {s s' s''}, R s s' → R s' s'' → R s s'') (hf : ∀ s x, R s (f s x)) (xs : List α) :
    ∀ s, R s (xs.foldl f s) := by
  induction xs with
  | nil => exact hrefl
  | cons x xs ih => exact fun s => htrans (hf s x) (ih _)

theorem foldlM_rel {f : σ → α → Option σ} (hrefl : ∀ s, R s s)
    (htrans : ∀ {s s' s''}, R s s' → R s' s'' → R s s'')
    (hf : ∀ s x s', f s x = some s' → R s s') (xs : List α) :
    ∀ {s s' : σ}, xs.foldlM f s = some s' → R s s' := by
  induction xs with
  | nil =>
    intro s s' h
    cases h
    exact hrefl s
  | cons x xs ih =>
    intro s s' h
    rw [List.foldlM_cons] at h
    obtain ⟨t, ht, h⟩ := Option.bind_eq_some_iff.mp h
    exact htrans (hf s x t ht) (ih h)

theorem foldl_keeps {f : σ → α → σ} (hf : ∀ s x, g (f s x) = g s) (xs : List α) (s : σ) :
    g (xs.foldl f s) = g s :=
  foldl_rel (R := fun s s' => g s' = g s) (fun _ => rfl) (fun h h' => h'.trans h) hf xs s

theorem foldlM_keeps {f : σ → α → Option σ} (hf : ∀ s x s', f s x = some s' → g s' = g s)
    (xs : List α) {s s' : σ} (h : xs.foldlM f s = some s') : g s' = g s :=
  foldlM_rel (R := fun s s' => g s' = g s) (fun _ => rfl) (fun h h' => h'.trans h) hf xs h

end

section

variable {κ β : Type} [DecidableEq κ] {g : σ → κ → β} {φ : κ → β → β} {ks : List κ}

/-- One entry is changed, and the others once more each. -/
theorem update_then {v : κ → β} {k : κ} (hk : k ∉ ks) (j : κ) :
    (if j ∈ ks then φ j (Function.update v k (φ k (v k)) j)
      else Function.update v k (φ k (v k)) j) = if j ∈ k :: ks then φ j (v j) else v j := by
  by_cases hj : j = k
  · subst hj
    simp [hk]
  · simp [hj]

theorem foldl_update {f : σ → κ → σ} {p : σ → κ → Prop}
    (hf : ∀ s k, p s k → g (f s k) = Function.update (g s) k (φ k (g s k)))
    (hok : ∀ s k j, p s k → p s j → p (f s k) j) (hnd : ks.Nodup) :
    ∀ {s : σ}, (∀ k ∈ ks, p s k) → ∀ j,
      g (ks.foldl f s) j = if j ∈ ks then φ j (g s j) else g s j := by
  induction ks with
  | nil => simp
  | cons k ks ih =>
    intro s hs j
    obtain ⟨hk, hnd⟩ := List.nodup_cons.mp hnd
    have hsk := hs k List.mem_cons_self
    rw [List.foldl_cons, ih hnd fun i hi => hok s k i hsk (hs i (List.mem_cons_of_mem _ hi)),
      hf s k hsk]
    exact update_then hk j

theorem foldlM_update {f : σ → κ → Option σ}
    (hf : ∀ s k s', f s k = some s' → g s' = Function.update (g s) k (φ k (g s k)))
    (hnd : ks.Nodup) : ∀ {s s' : σ}, ks.foldlM f s = some s' → ∀ j,
      g s' j = if j ∈ ks then φ j (g s j) else g s j := by
  induction ks with
  | nil =>
    intro s s' h j
    cases h
    simp
  | cons k ks ih =>
    intro s s' h j
    obtain ⟨hk, hnd⟩ := List.nodup_cons.mp hnd
    rw [List.foldlM_cons] at h
    obtain ⟨t, ht, h⟩ := Option.bind_eq_some_iff.mp h
    rw [ih hnd h, hf s k t ht]
    exact update_then hk j

end

end SplitSched
