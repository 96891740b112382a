import Mathlib.Tactic.Lemma
import Mathlib.Tactic.SplitIfs
import Mathlib.Tactic.TypeStar

/-!
Runs of a transition system whose steps carry labels, and the rule that an invariant of
the steps holds of every state of a run.

A run may be asked to meet a condition at each of its steps; the condition sees the state
before the step and the label.
-/

namespace DistDB

variable {σ ε : Type*}

/-- The states reached from `s₀` by steps that all meet `ok`. -/
inductive Reach (step : σ → ε → σ → Prop) (ok : σ → ε → Prop)
    (s₀ : σ) : σ → Prop
  | refl : Reach step ok s₀ s₀
  | tail {s s' : σ} {e : ε} : Reach step ok s₀ s → ok s e → step s e s' →
      Reach step ok s₀ s'

namespace Reach

variable {step : σ → ε → σ → Prop} {ok ok' : σ → ε → Prop} {s₀ s : σ}

/-- **The invariant rule.** -/
theorem invariant {I : σ → Prop} (h₀ : I s₀)
    (hstep : ∀ s e s', I s → ok s e → step s e s' → I s')
    (h : Reach step ok s₀ s) : I s := by
  induction h with
  | refl => exact h₀
  | tail _ hok hs ih => exact hstep _ _ _ ih hok hs

/-- The invariant rule with another fact about reachable states at hand. -/
theorem invariant_of {I J : σ → Prop} (hJ : ∀ s, Reach step ok s₀ s → J s) (h₀ : I s₀)
    (hstep : ∀ s e s', J s → J s' → I s → ok s e → step s e s' → I s')
    (h : Reach step ok s₀ s) : I s := by
  induction h with
  | refl => exact h₀
  | tail hr hok hs ih => exact hstep _ _ _ (hJ _ hr) (hJ _ (hr.tail hok hs)) ih hok hs

theorem mono (hok : ∀ s e, ok s e → ok' s e) (h : Reach step ok s₀ s) :
    Reach step ok' s₀ s := by
  induction h with
  | refl => exact .refl
  | tail _ h hs ih => exact ih.tail (hok _ _ h) hs

theorem trans {s₁ s₂ : σ} (h₁ : Reach step ok s₀ s₁) (h₂ : Reach step ok s₁ s₂) :
    Reach step ok s₀ s₂ := by
  induction h₂ with
  | refl => exact h₁
  | tail _ h hs ih => exact ih.tail h hs

end Reach

/-- A run with the steps it has taken, the latest first: the state before each, and its label. -/
inductive Trace (step : σ → ε → σ → Prop) (ok : σ → ε → Prop) (s₀ : σ) :
    List (σ × ε) → σ → Prop
  | refl : Trace step ok s₀ [] s₀
  | tail {tr : List (σ × ε)} {s s' : σ} {e : ε} : Trace step ok s₀ tr s → ok s e →
      step s e s' → Trace step ok s₀ ((s, e) :: tr) s'

namespace Trace

variable {step : σ → ε → σ → Prop} {ok : σ → ε → Prop} {s₀ s : σ}
  {tr : List (σ × ε)}

theorem reach (h : Trace step ok s₀ tr s) : Reach step ok s₀ s := by
  induction h with
  | refl => exact .refl
  | tail _ hok hs ih => exact ih.tail hok hs

theorem mono {ok' : σ → ε → Prop} (hok : ∀ s e, ok s e → ok' s e)
    (h : Trace step ok s₀ tr s) :
    Trace step ok' s₀ tr s := by
  induction h with
  | refl => exact .refl
  | tail _ h hs ih => exact ih.tail (hok _ _ h) hs

/-- A run whose labels all meet a condition of their own, too. -/
theorem and {P : ε → Prop} (h : Trace step ok s₀ tr s) (hall : ∀ x ∈ tr, P x.2) :
    Trace step (fun s e => ok s e ∧ P e) s₀ tr s := by
  induction h with
  | refl => exact .refl
  | tail _ hok hs ih =>
    obtain ⟨hx, hall⟩ := List.forall_mem_cons.mp hall
    exact (ih hall).tail ⟨hok, hx⟩ hs

/-- The run up to one of its steps, the step, and the run behind it. -/
theorem split {later earlier : List (σ × ε)} {x : σ × ε}
    (h : Trace step ok s₀ (later ++ x :: earlier) s) :
    Trace step ok s₀ earlier x.1 ∧ ok x.1 x.2 ∧ ∃ s₁, step x.1 x.2 s₁ ∧
      Reach step ok s₁ s := by
  induction later generalizing s with
  | nil =>
    cases h with
    | tail h hok hs => exact ⟨h, hok, _, hs, .refl⟩
  | cons y later ih =>
    cases h with
    | tail h hok hs =>
      obtain ⟨hx, hokx, s₁, hs₁, hreach⟩ := ih h
      exact ⟨hx, hokx, s₁, hs₁, hreach.tail hok hs⟩

end Trace

/-! ### Systems whose steps are functions -/

/-- The steps of a function that is defined on every label. -/
def StepOf (f : σ → ε → σ) (s : σ) (e : ε) (s' : σ) : Prop := f s e = s'

/-- The steps of a function that is not defined where it returns `none`. -/
def StepOf? (f : σ → ε → Option σ) (s : σ) (e : ε) (s' : σ) : Prop := f s e = some s'

/-- The run along a list of labels. -/
def runOf (f : σ → ε → σ) (s : σ) (es : List ε) : σ := es.foldl f s

/-- The run along a list of labels; `none` when one of its steps is not defined. -/
def runOf? (f : σ → ε → Option σ) (s : σ) (es : List ε) : Option σ := es.foldlM f s

theorem reach_runOf (f : σ → ε → σ) (s : σ) (es : List ε) :
    Reach (StepOf f) (fun _ _ => True) s (runOf f s es) := by
  induction es generalizing s with
  | nil => exact .refl
  | cons e es ih => exact Reach.trans (.tail .refl trivial rfl) (ih (f s e))

/-- A run each of whose steps meets the condition. -/
theorem reach_runOf_of {f : σ → ε → σ} {ok : σ → ε → Prop} {s : σ} {es : List ε}
    (h : ∀ i, (hi : i < es.length) → ok (runOf f s (es.take i)) es[i]) :
    Reach (StepOf f) ok s (runOf f s es) := by
  induction es generalizing s with
  | nil => exact .refl
  | cons e es ih =>
    exact Reach.trans (.tail .refl (h 0 (Nat.succ_pos _)) rfl)
      (ih fun i hi => h (i + 1) (Nat.succ_lt_succ hi))

theorem reach_runOf? {f : σ → ε → Option σ} {s s' : σ} {es : List ε}
    (h : runOf? f s es = some s') : Reach (StepOf? f) (fun _ _ => True) s s' := by
  induction es generalizing s with
  | nil => cases h; exact .refl
  | cons e es ih =>
    rw [runOf?, List.foldlM_cons] at h
    obtain ⟨s₁, h₁, h₂⟩ := Option.bind_eq_some_iff.mp h
    exact Reach.trans (.tail .refl trivial h₁) (ih h₂)

/-- A run along labels that all meet a condition of their own. -/
theorem reach_runOf?_of {f : σ → ε → Option σ} {ok : ε → Prop} {s s' : σ} {es : List ε}
    (hes : ∀ e ∈ es, ok e) (h : runOf? f s es = some s') :
    Reach (StepOf? f) (fun _ e => ok e) s s' := by
  induction es generalizing s with
  | nil => cases h; exact .refl
  | cons e es ih =>
    rw [runOf?, List.foldlM_cons] at h
    obtain ⟨s₁, h₁, h₂⟩ := Option.bind_eq_some_iff.mp h
    obtain ⟨he, hes⟩ := List.forall_mem_cons.mp hes
    exact Reach.trans (.tail .refl he h₁) (ih hes h₂)

/-- The same run, which also stops at a step that does not meet the condition. -/
def runIf? (f : σ → ε → Option σ) (ok : σ → ε → Prop) [∀ s e, Decidable (ok s e)]
    (s : σ) (es : List ε) : Option σ :=
  es.foldlM (fun s e => if ok s e then f s e else none) s

theorem reach_runIf? {f : σ → ε → Option σ} {ok : σ → ε → Prop}
    [∀ s e, Decidable (ok s e)] {s s' : σ} {es : List ε} (h : runIf? f ok s es = some s') :
    Reach (StepOf? f) ok s s' := by
  induction es generalizing s with
  | nil => cases h; exact .refl
  | cons e es ih =>
    rw [runIf?, List.foldlM_cons] at h
    obtain ⟨s₁, h₁, h₂⟩ := Option.bind_eq_some_iff.mp h
    split_ifs at h₁ with hok
    exact Reach.trans (.tail .refl hok h₁) (ih h₂)

/-- The same run with its steps, behind those already taken. -/
def traceIf? (f : σ → ε → Option σ) (ok : σ → ε → Prop) [∀ s e, Decidable (ok s e)] :
    List (σ × ε) → σ → List ε → Option (List (σ × ε) × σ)
  | tr, s, [] => some (tr, s)
  | tr, s, e :: es =>
    if ok s e then (f s e).bind fun s' => traceIf? f ok ((s, e) :: tr) s' es else none

theorem trace_traceIf? {f : σ → ε → Option σ} {ok : σ → ε → Prop}
    [∀ s e, Decidable (ok s e)] {s₀ s s' : σ} {es : List ε} {tr tr' : List (σ × ε)}
    (hs : Trace (StepOf? f) ok s₀ tr s) (h : traceIf? f ok tr s es = some (tr', s')) :
    Trace (StepOf? f) ok s₀ tr' s' := by
  induction es generalizing tr s with
  | nil => cases h; exact hs
  | cons e es ih =>
    rw [traceIf?] at h
    split_ifs at h with hok
    obtain ⟨s₁, h₁, h₂⟩ := Option.bind_eq_some_iff.mp h
    exact ih (hs.tail hok h₁) h₂

/-- What is decided of the end of a run. -/
theorem exists_of_any {x : Option σ} {P : σ → Prop} [DecidablePred P]
    (h : x.any (P ·) = true) :
    ∃ s, x = some s ∧ P s := by
  obtain ⟨s, hs, hP⟩ := (Option.any_eq_true _ x).mp h
  exact ⟨s, hs, of_decide_eq_true hP⟩

end DistDB
