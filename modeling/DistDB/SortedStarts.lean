import Mathlib.Data.List.TakeWhile
import Mathlib.Order.MinMax
import Mathlib.Tactic.Lemma

/-!
Lookup in a list that is sorted by where its members start: `std::upper_bound` and one step back
give the last member that starts at the key or in front of it.

Members may end, too, and the lookup does not look at their ends. It never gives a member that has
ended in front of the key exactly if each end is reached by the next start (`ends_iff`).
-/

namespace DistDB.SortedStarts

variable {α κ : Type*} [LinearOrder κ] (start : α → κ)

/-- The member in front of the first one that starts behind the key. -/
def lookup (l : List α) (k : κ) : Option α := (l.takeWhile fun a => ¬ k < start a).getLast?

variable {start} {l : List α} {k : κ} {a : α}

lemma lookup_cons_of_le (h : start a ≤ k) :
    lookup start (a :: l) k = some ((lookup start l k).getD a) := by
  rw [lookup, List.takeWhile_cons_of_pos (by simpa using h), List.getLast?_cons]
  rfl

lemma lookup_cons_of_lt (h : k < start a) : lookup start (a :: l) k = none := by
  rw [lookup, List.takeWhile_cons_of_neg (by simpa using h)]
  rfl

lemma lookup_eq_none (hl : l.Pairwise fun a b => start a ≤ start b) :
    lookup start l k = none ↔ ∀ a ∈ l, k < start a := by
  cases l with
  | nil => simp [lookup]
  | cons a l =>
    obtain ⟨ha, -⟩ := List.pairwise_cons.mp hl
    rcases lt_or_ge k (start a) with hlt | hle
    · rw [lookup_cons_of_lt hlt]
      simp only [List.mem_cons, forall_eq_or_imp, true_iff]
      exact ⟨hlt, fun b hb => hlt.trans_le (ha b hb)⟩
    · rw [lookup_cons_of_le hle]
      simp [hle.not_gt]

/-- **What is found** starts at the key or in front of it, and the next one behind it. -/
theorem lookup_eq_some (hl : l.Pairwise fun a b => start a ≤ start b) :
    lookup start l k = some a ↔
      ∃ i : ℕ, l[i]? = some a ∧ start a ≤ k ∧ ∀ b, l[i + 1]? = some b →
        k < start b := by
  induction l generalizing a with
  | nil => simp [lookup]
  | cons c l ih =>
    obtain ⟨hc, hl⟩ := List.pairwise_cons.mp hl
    rcases lt_or_ge k (start c) with hlt | hle
    · rw [lookup_cons_of_lt hlt]
      refine iff_of_false (by simp) ?_
      rintro ⟨i, hi, hak, -⟩
      rcases List.mem_cons.mp (List.mem_of_getElem? hi) with rfl | ha
      · exact absurd hlt (not_lt.mpr hak)
      · exact absurd (hlt.trans_le (hc a ha)) (not_lt.mpr hak)
    rw [lookup_cons_of_le hle, Option.some.injEq]
    rcases hfound : lookup start l k with _ | d
    · -- All that follows starts behind the key.
      have hbehind := (lookup_eq_none hl).mp hfound
      constructor
      · rintro rfl
        exact ⟨0, rfl, hle, fun b hb => hbehind b (List.mem_of_getElem? hb)⟩
      · rintro ⟨i, hi, hak, -⟩
        cases i with
        | zero => simpa using hi
        | succ i => exact absurd (hbehind a (List.mem_of_getElem? hi)) (not_lt.mpr hak)
    · obtain ⟨j, hj, hdk, hnext⟩ := (ih hl (a := d)).mp (hfound ▸ rfl)
      constructor
      · rintro rfl
        exact ⟨j + 1, hj, hdk, hnext⟩
      · rintro ⟨i, hi, hak, hinext⟩
        cases i with
        | zero =>
          have h0 : k < start d := by
            cases l with
            | nil => simp at hj
            | cons b l =>
              have hb : k < start b := hinext b rfl
              rcases List.mem_cons.mp (List.mem_of_getElem? hj) with rfl | hd
              · exact hb
              · exact hb.trans_le ((List.pairwise_cons.mp hl).1 d hd)
          exact absurd hdk (not_le.mpr h0)
        | succ i =>
          have hl' := (ih hl).mpr ⟨i, hi, hak, hinext⟩
          rw [hfound] at hl'
          exact Option.some.inj hl'

/-- **No member is found behind its end** exactly if each end is reached by the next start. -/
theorem ends_iff (hl : l.Pairwise fun a b => start a ≤ start b) (stop : α → Option κ) :
    (∀ k a, lookup start l k = some a → ∀ e, stop a = some e → k < e) ↔
      ∀ (i : ℕ) a e, l[i]? = some a → stop a = some e →
        ∃ b, l[i + 1]? = some b ∧ start b ≤ max (start a) e := by
  constructor
  · intro h i a e hi he
    by_contra hgap
    -- The key where the gap begins.
    have hk : lookup start l (max (start a) e) = some a :=
      (lookup_eq_some hl).mpr ⟨i, hi, le_max_left _ _, fun b hb => by
        by_contra hle
        exact hgap ⟨b, hb, not_lt.mp hle⟩⟩
    exact absurd (h _ a hk e he) (not_lt.mpr (le_max_right _ _))
  · intro h k a hk e he
    obtain ⟨i, hi, hak, hnext⟩ := (lookup_eq_some hl).mp hk
    obtain ⟨b, hb, hbe⟩ := h i a e hi he
    rcases lt_max_iff.mp ((hnext b hb).trans_le hbe) with hlt | hlt
    · exact absurd hlt (not_lt.mpr hak)
    · exact hlt

end DistDB.SortedStarts
