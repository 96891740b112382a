import Mathlib.Data.List.Infix
import Mathlib.Tactic.Lemma

/-!
Logs whose entries carry the term they were made in.

A log is rooted in the logs of the leaders when each of its prefixes is a prefix of the log
of the leader of its last term (`Rooted`). Two rooted logs match: equal terms at an index
mean equal logs up to it. Merging a log into another one keeps the other where it holds the
first already, and replaces it otherwise.
-/

namespace DistDB.TermLog

section Lists

variable {ε : Type*} {l m p : List ε}

lemma take_eq_of_isPrefix {k : ℕ} (h : l <+: m) (hk : k ≤ l.length) : m.take k = l.take k := by
  obtain ⟨r, rfl⟩ := h
  rw [List.take_append_of_le_length hk]

lemma prefix_total (hl : l <+: p) (hm : m <+: p) : l <+: m ∨ m <+: l := by
  rcases Nat.le_total l.length m.length with hle | hle
  · exact .inl (List.prefix_of_prefix_length_le hl hm hle)
  · exact .inr (List.prefix_of_prefix_length_le hm hl hle)

lemma take_prefix_of_le {j k : ℕ} (h : j ≤ k) : l.take j <+: l.take k :=
  List.take_prefix_take_left h

lemma prefix_take {k : ℕ} (h : l <+: m) (hk : l.length ≤ k) : l <+: m.take k :=
  List.prefix_take_iff.mpr ⟨h, hk⟩

/-- What is left when the entries of `m` are put over `l`. -/
def merge [DecidableEq ε] (l m : List ε) : List ε := if m <+: l then l else m

variable [DecidableEq ε]

lemma merge_of_isPrefix (h : m <+: l) : merge l m = l := if_pos h

lemma merge_of_not_isPrefix (h : ¬ m <+: l) : merge l m = m := if_neg h

lemma prefix_merge (l m : List ε) : m <+: merge l m := by
  unfold merge
  split
  case isTrue h => exact h
  case isFalse h => exact List.prefix_refl m

lemma prefix_merge_of_total (hp : p <+: l) (htotal : p <+: m ∨ m <+: p) : p <+: merge l m := by
  unfold merge
  split
  case isTrue h => exact hp
  case isFalse h =>
    rcases htotal with hpm | hmp
    · exact hpm
    · exact absurd (hmp.trans hp) h

end Lists

/-! ### Terms -/

/-- Entries with the term they were made in. -/
class HasTerm (ε : Type*) where
  term : ε → ℕ

export HasTerm (term)

variable {ε : Type*} [HasTerm ε] {l m : List ε} {L : ℕ → List ε}

/-- The term of the entry at an index, counted from one; zero before the first and past the
last one. -/
def termOf (l : List ε) : ℕ → ℕ
  | 0 => 0
  | i + 1 => l[i]?.elim 0 term

@[simp] lemma termOf_zero (l : List ε) : termOf l 0 = 0 := rfl

@[simp] lemma termOf_of_nil (i : ℕ) : termOf ([] : List ε) i = 0 := by
  cases i <;> rfl

lemma termOf_of_length_lt {i : ℕ} (h : l.length < i) : termOf l i = 0 := by
  cases i with
  | zero => rfl
  | succ i => rw [termOf, List.getElem?_eq_none (by omega)]; rfl

lemma termOf_take {i k : ℕ} (h : i ≤ k) : termOf (l.take k) i = termOf l i := by
  cases i with
  | zero => rfl
  | succ i => rw [termOf, termOf, List.getElem?_take, if_pos (by omega)]

lemma termOf_append_left {i : ℕ} (h : i ≤ l.length) : termOf (l ++ m) i = termOf l i := by
  cases i with
  | zero => rfl
  | succ i => rw [termOf, termOf, List.getElem?_append_left (by omega)]

lemma termOf_of_isPrefix {i : ℕ} (h : l <+: m) (hi : i ≤ l.length) :
    termOf m i = termOf l i := by
  obtain ⟨r, rfl⟩ := h
  exact termOf_append_left hi

lemma termOf_concat (l : List ε) (e : ε) : termOf (l ++ [e]) (l.length + 1) = term e := by
  simp [termOf]

lemma termOf_concat_le {b : ℕ} {e : ε} (h : ∀ i, termOf l i ≤ b) (he : term e ≤ b)
    (i : ℕ) :
    termOf (l ++ [e]) i ≤ b := by
  rcases Nat.lt_trichotomy i (l.length + 1) with hlt | rfl | hgt
  · rw [termOf_append_left (by omega)]
    exact h i
  · rwa [termOf_concat]
  · rw [termOf_of_length_lt (by simpa using hgt)]
    exact Nat.zero_le b

lemma termOf_le_of_isPrefix {b : ℕ} (h : ∀ i, termOf m i ≤ b) (hl : l <+: m) (i : ℕ) :
    termOf l i ≤ b := by
  rcases Nat.lt_or_ge l.length i with hlt | hge
  · rw [termOf_of_length_lt hlt]
    exact Nat.zero_le b
  · rw [← termOf_of_isPrefix hl hge]
    exact h i

lemma termOf_merge_le [DecidableEq ε] {b : ℕ} (hl : ∀ i, termOf l i ≤ b)
    (hm : ∀ i, termOf m i ≤ b) (i : ℕ) : termOf (merge l m) i ≤ b := by
  unfold merge
  split
  · exact hl i
  · exact hm i

lemma termOf_eq_of_getElem? {i : ℕ} {e : ε} (h : l[i]? = some e) :
    termOf l (i + 1) = term e := by
  rw [termOf, h]; rfl

lemma exists_of_termOf_ne_zero {i : ℕ} (h : termOf l i ≠ 0) : 0 < i ∧ i ≤ l.length := by
  refine ⟨?_, ?_⟩
  · rcases Nat.eq_zero_or_pos i with rfl | hi
    · exact absurd rfl h
    · exact hi
  · by_contra hlt
    exact h (termOf_of_length_lt (by omega))

/-- Equal terms at an index mean equal logs up to it. -/
def Matches (l m : List ε) : Prop :=
  ∀ j, j ≤ l.length → j ≤ m.length → termOf l j = termOf m j → l.take j = m.take j

/-- Each prefix of the log is a prefix of the log of the leader of its last term. -/
def Rooted (L : ℕ → List ε) (l : List ε) : Prop :=
  ∀ j, 0 < j → j ≤ l.length → l.take j <+: L (termOf l j)

lemma rooted_nil : Rooted L ([] : List ε) := by
  intro j hj hle
  simp at hle
  omega

lemma Rooted.of_isPrefix (h : Rooted L m) (hl : l <+: m) : Rooted L l := by
  intro j hj hle
  have hlen := hl.length_le
  have hroot := h j hj (hle.trans hlen)
  rwa [termOf_of_isPrefix hl hle, take_eq_of_isPrefix hl hle] at hroot

lemma Rooted.mono {L' : ℕ → List ε} (h : Rooted L l) (hL : ∀ t, L t <+: L' t) :
    Rooted L' l :=
  fun j hj hle => (h j hj hle).trans (hL _)

lemma Rooted.merge [DecidableEq ε] (hl : Rooted L l) (hm : Rooted L m) : Rooted L (merge l m) := by
  unfold TermLog.merge
  split
  · exact hl
  · exact hm

lemma Rooted.concat (h : Rooted L l) {e : ε} (he : l ++ [e] <+: L (term e)) :
    Rooted L (l ++ [e]) := by
  intro j hj hle
  rcases Nat.lt_or_ge l.length j with hlt | hge
  · have hlen : (l ++ [e]).length = l.length + 1 := by simp
    obtain rfl : j = l.length + 1 := by omega
    rw [termOf_concat, ← hlen, List.take_length]
    exact he
  · rw [termOf_append_left hge, List.take_append_of_le_length hge]
    exact h j hj hge

lemma Rooted.sorted (h : Rooted L l) (hL : ∀ t i, termOf (L t) i ≤ t) {i j : ℕ}
    (hij : i ≤ j) (hj : j ≤ l.length) : termOf l i ≤ termOf l j := by
  rcases Nat.eq_zero_or_pos j with rfl | hpos
  · obtain rfl : i = 0 := by omega
    exact le_rfl
  · have hroot := h j hpos hj
    have hterm : termOf (L (termOf l j)) i = termOf l i := by
      rw [termOf_of_isPrefix hroot (by simp; omega), termOf_take hij]
    exact hterm ▸ hL _ _

lemma Rooted.matches (hl : Rooted L l) (hm : Rooted L m) : Matches l m := by
  intro j hjl hjm hterm
  rcases Nat.eq_zero_or_pos j with rfl | hpos
  · simp
  · have hroot := hl j hpos hjl
    have hroot' := hm j hpos hjm
    rw [← hterm] at hroot'
    refine (List.prefix_of_prefix_length_le hroot hroot' ?_).eq_of_length ?_
    · simp; omega
    · simp; omega

lemma Rooted.prefix_of_lastTerm (h : Rooted L l) {t : ℕ} (ht : termOf l l.length = t)
    (hpos : 0 < l.length) : l <+: L t := by
  have := h l.length hpos le_rfl
  rwa [List.take_length, ht] at this

end DistDB.TermLog
