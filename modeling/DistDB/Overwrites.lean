import Mathlib.Tactic.Lemma

/-!
Updates that overwrite.

An update overwrites when it leaves each place of a store alone or sets it to a value that
does not depend on what was there. So does a sequence of such updates, and going through the
sequence a second time changes nothing (`Overwrites.twice`).
-/

namespace DistDB

variable {S K V X : Type}

/-- `read` tells what a store has at a place. -/
def Overwrites (read : K → S → V) (g : S → S) : Prop :=
  ∀ k, (∀ s, read k (g s) = read k s) ∨ ∃ v, ∀ s, read k (g s) = v

namespace Overwrites

variable {read : K → S → V} {f g : S → S}

lemma refl : Overwrites read fun s => s := fun _ => .inl fun _ => rfl

/-- The second update decides about the places it sets, the first one about the others. -/
lemma comp (hf : Overwrites read f) (hg : Overwrites read g) :
    Overwrites read fun s => g (f s) := by
  intro k
  rcases hg k with hleft | ⟨v, hset⟩
  · rcases hf k with hleft' | ⟨v, hset⟩
    · exact .inl fun s => (hleft _).trans (hleft' s)
    · exact .inr ⟨v, fun s => (hleft _).trans (hset s)⟩
  · exact .inr ⟨v, fun s => hset _⟩

lemma foldl {step : S → X → S} (hstep : ∀ x, Overwrites read fun s => step s x)
    (xs : List X) :
    Overwrites read fun s => xs.foldl step s := by
  induction xs with
  | nil => exact refl
  | cons x xs ih => exact (hstep x).comp ih

/-- **Overwriting twice**: the second time changes nothing. -/
theorem twice (hread : ∀ s t, (∀ k, read k s = read k t) → s = t) (hg : Overwrites read g)
    (s : S) :
    g (g s) = g s := by
  refine hread _ _ fun k => ?_
  rcases hg k with hleft | ⟨v, hset⟩
  · exact hleft _
  · rw [hset, hset]

end Overwrites

end DistDB
