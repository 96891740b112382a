import Mathlib.Data.List.Basic
import Mathlib.Tactic.Lemma

/-!
Computations that may throw, and when they do not (`Succeeds`): the rules for sequences,
branches and loops.
-/

namespace DistDB.Checks

variable {ε α β γ : Type}

/-- The computation returns. -/
def Succeeds (x : Except ε α) : Prop := ∃ a, x = .ok a

lemma bind_eq_ok {x : Except ε α} {f : α → Except ε β} {b : β} :
    (x >>= f) = .ok b ↔ ∃ a, x = .ok a ∧ f a = .ok b := by
  cases x with
  | error e => simp [bind, Except.bind]
  | ok a => simp [bind, Except.bind]

lemma bind_of_ok {x : Except ε α} {f : α → Except ε β} {a : α} (h : x = .ok a) :
    (x >>= f) = f a := by
  rw [h]
  rfl

@[simp] lemma succeeds_ok (a : α) : Succeeds (.ok a : Except ε α) := ⟨a, rfl⟩

@[simp] lemma succeeds_pure (a : α) : Succeeds (pure a : Except ε α) := ⟨a, rfl⟩

@[simp] lemma succeeds_error (e : ε) : ¬ Succeeds (.error e : Except ε α) := by
  rintro ⟨a, h⟩; cases h

@[simp] lemma succeeds_throw (e : ε) : ¬ Succeeds (throw e : Except ε α) := succeeds_error e

lemma succeeds_iff_isOk {x : Except ε α} : Succeeds x ↔ x.isOk = true := by
  cases x with
  | error e => exact iff_of_false (succeeds_error e) Bool.false_ne_true
  | ok a => exact iff_of_true (succeeds_ok a) rfl

instance decidableSucceeds (x : Except ε α) : Decidable (Succeeds x) :=
  decidable_of_iff (x.isOk = true) succeeds_iff_isOk.symm

lemma succeeds_bind {x : Except ε α} {f : α → Except ε β} :
    Succeeds (x >>= f) ↔ ∃ a, x = .ok a ∧ Succeeds (f a) := by
  constructor
  · rintro ⟨b, h⟩
    obtain ⟨a, ha, hb⟩ := bind_eq_ok.mp h
    exact ⟨a, ha, b, hb⟩
  · rintro ⟨a, ha, b, hb⟩
    exact ⟨b, bind_eq_ok.mpr ⟨a, ha, hb⟩⟩

@[simp] lemma succeeds_map {x : Except ε α} {f : α → β} :
    Succeeds (x.map f) ↔ Succeeds x := by
  cases x with
  | error e => exact iff_of_false (succeeds_error e) (succeeds_error e)
  | ok a => exact iff_of_true (succeeds_ok (f a)) (succeeds_ok a)

/-- A check that throws. -/
def throwIf (p : Prop) [Decidable p] (e : ε) : Except ε Unit := if p then .error e else .ok ()

@[simp] lemma throwIf_eq_ok {p : Prop} [Decidable p] {e : ε} {u : Unit} :
    throwIf p e = .ok u ↔ ¬ p := by
  unfold throwIf
  split <;> simp [*]

lemma succeeds_throwIf {p : Prop} [Decidable p] {e : ε} {f : Unit → Except ε α} :
    Succeeds (throwIf p e >>= f) ↔ ¬ p ∧ Succeeds (f ()) := by
  rw [succeeds_bind]
  constructor
  · rintro ⟨u, hu, hf⟩
    exact ⟨throwIf_eq_ok.mp hu, hf⟩
  · rintro ⟨hp, hf⟩
    exact ⟨(), throwIf_eq_ok.mpr hp, hf⟩

lemma succeeds_mapM {f : α → Except ε β} {l : List α} :
    Succeeds (l.mapM f) ↔ ∀ a ∈ l, Succeeds (f a) := by
  induction l with
  | nil => simp
  | cons a l ih =>
    rw [List.mapM_cons, succeeds_bind]
    constructor
    · rintro ⟨b, hb, hrest⟩
      obtain ⟨bs, hbs, -⟩ := succeeds_bind.mp hrest
      intro a' ha'
      rcases List.mem_cons.mp ha' with rfl | ha'
      · exact ⟨b, hb⟩
      · exact ih.mp ⟨bs, hbs⟩ a' ha'
    · intro h
      obtain ⟨b, hb⟩ := h a (by simp)
      obtain ⟨bs, hbs⟩ := ih.mpr fun a' ha' => h a' (by simp [ha'])
      exact ⟨b, hb, succeeds_bind.mpr ⟨bs, hbs, succeeds_pure _⟩⟩

lemma mem_mapM {f : α → Except ε β} {l : List α} {bs : List β} (h : l.mapM f = .ok bs) :
    ∀ b ∈ bs, ∃ a ∈ l, f a = .ok b := by
  induction l generalizing bs with
  | nil => cases h; simp
  | cons a l ih =>
    rw [List.mapM_cons] at h
    obtain ⟨b, hb, hrest⟩ := bind_eq_ok.mp h
    obtain ⟨bs', hbs', hpure⟩ := bind_eq_ok.mp hrest
    cases hpure
    intro b' hb'
    rcases List.mem_cons.mp hb' with rfl | hb'
    · exact ⟨a, by simp, hb⟩
    · obtain ⟨a', ha', hfa⟩ := ih hbs' b' hb'
      exact ⟨a', by simp [ha'], hfa⟩

lemma length_mapM {f : α → Except ε β} {l : List α} {bs : List β} (h : l.mapM f = .ok bs) :
    bs.length = l.length := by
  induction l generalizing bs with
  | nil => cases h; rfl
  | cons a l ih =>
    rw [List.mapM_cons] at h
    obtain ⟨b, -, h⟩ := bind_eq_ok.mp h
    obtain ⟨bs', hbs', h⟩ := bind_eq_ok.mp h
    cases h
    simp [ih hbs']

lemma mapM_flatMap {g : α → List β} {f : β → Except ε γ} (as : List α) :
    (as.flatMap g).mapM f = (as.mapM fun a => (g a).mapM f).map List.flatten := by
  induction as with
  | nil => rfl
  | cons a as ih =>
    rw [List.flatMap_cons, List.mapM_append, List.mapM_cons, ih]
    rcases (g a).mapM f with e | bs
    · rfl
    · rcases as.mapM fun a => (g a).mapM f with e | bss
      · rfl
      · rfl

lemma mapM_map {f : α → Except ε β} {g : β → γ} (as : List α) :
    (as.mapM fun a => (f a).map g) = (as.mapM f).map (List.map g) := by
  induction as with
  | nil => rfl
  | cons a as ih =>
    rw [List.mapM_cons, List.mapM_cons, ih]
    rcases f a with e | b
    · rfl
    · rcases as.mapM f with e | bs
      · rfl
      · rfl

lemma mapM_error {e : ε} {f : α → Except ε β} {as : List α}
    (has : as ≠ []) (h : ∀ a ∈ as, f a = .error e) : as.mapM f = .error e := by
  cases as with
  | nil => exact absurd rfl has
  | cons a as =>
    rw [List.mapM_cons, h a List.mem_cons_self]
    rfl

lemma mapM_congr {f g : α → Except ε β} {as : List α}
    (h : ∀ a ∈ as, f a = g a) : as.mapM f = as.mapM g := by
  induction as with
  | nil => rfl
  | cons a as ih =>
    obtain ⟨ha, has⟩ := List.forall_mem_cons.mp h
    rw [List.mapM_cons, List.mapM_cons, ha, ih has]

lemma map_of_mapM {f : α → Except ε β} {p : α → γ} {g : β → γ}
    {as : List α} {bs : List β} (h : as.mapM f = .ok bs)
    (hp : ∀ a ∈ as, ∀ b, f a = .ok b → p a = g b) : as.map p = bs.map g := by
  induction as generalizing bs with
  | nil =>
    cases h
    rfl
  | cons a as ih =>
    obtain ⟨ha, has⟩ := List.forall_mem_cons.mp hp
    rw [List.mapM_cons] at h
    obtain ⟨b, hb, h⟩ := bind_eq_ok.mp h
    obtain ⟨bs', hbs, h⟩ := bind_eq_ok.mp h
    cases h
    rw [List.map_cons, List.map_cons, ha b hb, ih hbs has]

lemma succeeds_filterMapM {f : α → Except ε (Option β)} {l : List α} :
    Succeeds (l.filterMapM f) ↔ ∀ a ∈ l, Succeeds (f a) := by
  induction l with
  | nil => simp
  | cons a l ih =>
    rw [List.filterMapM_cons, succeeds_bind]
    constructor
    · rintro ⟨b, hb, hrest⟩ a' ha'
      rcases List.mem_cons.mp ha' with rfl | ha'
      · exact ⟨b, hb⟩
      · cases b with
        | none => exact ih.mp hrest a' ha'
        | some b =>
          obtain ⟨bs, hbs, -⟩ := succeeds_bind.mp hrest
          exact ih.mp ⟨bs, hbs⟩ a' ha'
    · intro h
      obtain ⟨b, hb⟩ := h a (by simp)
      obtain ⟨bs, hbs⟩ := ih.mpr fun a' ha' => h a' (by simp [ha'])
      refine ⟨b, hb, ?_⟩
      cases b with
      | none => exact ⟨bs, hbs⟩
      | some b => exact succeeds_bind.mpr ⟨bs, hbs, succeeds_pure _⟩

lemma mem_filterMapM {f : α → Except ε (Option β)} {l : List α} {bs : List β}
    (h : l.filterMapM f = .ok bs) : ∀ b ∈ bs, ∃ a ∈ l, f a = .ok (some b) := by
  induction l generalizing bs with
  | nil => cases h; simp
  | cons a l ih =>
    rw [List.filterMapM_cons] at h
    obtain ⟨b, hb, hrest⟩ := bind_eq_ok.mp h
    intro b' hb'
    cases b with
    | none =>
      obtain ⟨a', ha', hfa⟩ := ih hrest b' hb'
      exact ⟨a', by simp [ha'], hfa⟩
    | some b =>
      obtain ⟨bs', hbs', hpure⟩ := bind_eq_ok.mp hrest
      cases hpure
      rcases List.mem_cons.mp hb' with rfl | hb'
      · exact ⟨a, by simp, hb⟩
      · obtain ⟨a', ha', hfa⟩ := ih hbs' b' hb'
        exact ⟨a', by simp [ha'], hfa⟩

/-! ### Computations with a state -/

variable {σ : Type}

lemma state_bind_eq_ok {r : StateT σ (Except ε) α} {f : α → StateT σ (Except ε) β}
    {s t : σ} {b : β} : (r >>= f) s = .ok (b, t) ↔ ∃ a s', r s = .ok (a, s') ∧
    f a s' = .ok (b, t) := by
  show (r s >>= fun p => f p.1 p.2) = .ok (b, t) ↔ _
  rw [bind_eq_ok, Prod.exists]

lemma state_bind_of_ok {r : StateT σ (Except ε) α} {f : α → StateT σ (Except ε) β}
    {s s' : σ} {a : α} (h : r s = .ok (a, s')) : (r >>= f) s = f a s' := by
  show (r s >>= fun p => f p.1 p.2) = _
  rw [h]
  rfl

lemma state_pure_eq_ok {a b : α} {s t : σ} :
    (pure a : StateT σ (Except ε) α) s = .ok (b, t) ↔ a = b ∧ s = t := by
  show (Except.ok (a, s) : Except ε (α × σ)) = .ok (b, t) ↔ _
  rw [Except.ok.injEq, Prod.mk.injEq]

lemma state_map_eq_ok {r : StateT σ (Except ε) α} {f : α → β} {s t : σ} {b : β} :
    (f <$> r) s = .ok (b, t) ↔ ∃ a, r s = .ok (a, t) ∧ f a = b := by
  rw [← bind_pure_comp, state_bind_eq_ok]
  simp only [state_pure_eq_ok]
  constructor
  · rintro ⟨a, s', h, rfl, rfl⟩
    exact ⟨a, h, rfl⟩
  · rintro ⟨a, h, rfl⟩
    exact ⟨a, t, h, rfl, rfl⟩

end DistDB.Checks
