import Mathlib.Data.List.Basic
import Mathlib.Data.List.Count
import Mathlib.Tactic.Lemma

/-!
The lines of a text, as `std::getline` reads them: a text that ends with the separator has no line
behind it, and the empty text has none at all.

So a text read by lines and written again (`joined`) may come out shorter. What a separator is
put behind has one line more (`parts`), and nothing of it is lost (`joined_parts`).
-/

namespace DistDB.Lines

variable {α : Type} [DecidableEq α] (sep : α)

/-- The loop over `std::getline`. -/
def getlines : List α → List (List α)
  | [] => []
  | c :: s =>
    if c = sep then [] :: getlines s
    else match getlines s with
      | [] => [[c]]
      | l :: ls => (c :: l) :: ls

/-- All parts between separators, also an empty last one. -/
def parts (s : List α) : List (List α) := getlines sep (s ++ [sep])

/-- The lines, each behind a separator. -/
def joined (ls : List (List α)) : List α := ls.flatMap fun l => sep :: l

variable {sep}

lemma not_mem_getlines {s l : List α} (h : l ∈ getlines sep s) : sep ∉ l := by
  induction s generalizing l with
  | nil => cases h
  | cons c s ih =>
    rw [getlines] at h
    split_ifs at h with hc
    · rcases List.mem_cons.mp h with rfl | h
      · exact List.not_mem_nil
      · exact ih h
    · split at h
      · rw [List.mem_singleton.mp h, List.mem_singleton]
        exact fun hsep => hc hsep.symm
      · rename_i l' ls hs
        rw [hs] at ih
        rcases List.mem_cons.mp h with rfl | h
        · rw [List.mem_cons, not_or]
          exact ⟨fun hsep => hc hsep.symm, ih List.mem_cons_self⟩
        · exact ih (List.mem_cons_of_mem _ h)

lemma not_mem_parts {s l : List α} (h : l ∈ parts sep s) : sep ∉ l := not_mem_getlines h

lemma parts_nil : parts sep [] = [[]] := if_pos rfl

lemma parts_cons_sep (s : List α) : parts sep (sep :: s) = [] :: parts sep s := if_pos rfl

lemma parts_ne_nil (sep : α) (s : List α) : parts sep s ≠ [] := by
  intro h
  have hempty : getlines sep (s ++ [sep]) = [] → s ++ [sep] = [] := by
    intro h
    cases hs : s ++ [sep] with
    | nil => rfl
    | cons c t =>
      rw [hs, getlines] at h
      split_ifs at h
      split at h <;> cases h
  exact List.append_ne_nil_of_right_ne_nil s (List.cons_ne_nil _ _) (hempty h)

lemma parts_cons {c : α} (hc : c ≠ sep) {s l : List α} {ls : List (List α)}
    (h : parts sep s = l :: ls) : parts sep (c :: s) = (c :: l) :: ls := by
  rw [parts, List.cons_append, getlines, if_neg hc]
  rw [parts] at h
  rw [h]

lemma getlines_append (s t : List α) :
    getlines sep (s ++ sep :: t) = parts sep s ++ getlines sep t := by
  induction s with
  | nil =>
    rw [parts_nil]
    exact if_pos rfl
  | cons c s ih =>
    rw [List.cons_append, getlines, ih]
    split_ifs with hc
    · rw [hc, parts_cons_sep]
      rfl
    · rcases hs : parts sep s with _ | ⟨l, ls⟩
      · exact absurd hs (parts_ne_nil sep s)
      · rw [parts_cons hc hs]
        rfl

lemma parts_of_not_mem {s : List α} (h : sep ∉ s) : parts sep s = [s] := by
  induction s with
  | nil => exact parts_nil
  | cons c s ih =>
    rw [List.mem_cons, not_or] at h
    exact parts_cons (fun hc => h.1 hc.symm) (ih h.2)

lemma getlines_of_not_mem {s : List α} (h : sep ∉ s) (hs : s ≠ []) : getlines sep s = [s] := by
  induction s with
  | nil => exact absurd rfl hs
  | cons c s ih =>
    rw [List.mem_cons, not_or] at h
    rw [getlines, if_neg fun hc => h.1 hc.symm]
    cases s with
    | nil => rfl
    | cons d s => rw [ih h.2 (List.cons_ne_nil d s)]

lemma getlines_intercalate_cons {l : List α} (hl : sep ∉ l) (m : List α) (ls : List (List α)) :
    getlines sep ([sep].intercalate (l :: m :: ls)) =
      l :: getlines sep ([sep].intercalate (m :: ls)) :=
  calc getlines sep ([sep].intercalate (l :: m :: ls))
      = getlines sep (l ++ sep :: [sep].intercalate (m :: ls)) := by
          rw [List.intercalate_cons_cons, List.append_assoc, List.singleton_append]
    _ = parts sep l ++ getlines sep ([sep].intercalate (m :: ls)) := getlines_append ..
    _ = l :: getlines sep ([sep].intercalate (m :: ls)) := by
          rw [parts_of_not_mem hl, List.singleton_append]

lemma getlines_intercalate {ls : List (List α)} (hsep : ∀ l ∈ ls, sep ∉ l)
    (hne : ∀ l ∈ ls, l ≠ []) : getlines sep ([sep].intercalate ls) = ls := by
  induction ls with
  | nil => rfl
  | cons l ls ih =>
    obtain ⟨hl, hls⟩ := List.forall_mem_cons.mp hsep
    obtain ⟨hl', hls'⟩ := List.forall_mem_cons.mp hne
    cases ls with
    | nil => simpa using getlines_of_not_mem hl hl'
    | cons m ls =>
      rw [getlines_intercalate_cons hl, ih hls hls']

omit [DecidableEq α] in
lemma mem_intercalate {ls : List (List α)} {c : α} (h : c ∈ [sep].intercalate ls) :
    c = sep ∨ ∃ l ∈ ls, c ∈ l := by
  induction ls with
  | nil => cases h
  | cons l ls ih =>
    cases ls with
    | nil => exact .inr ⟨l, List.mem_cons_self, by simpa using h⟩
    | cons m ls =>
      rw [List.intercalate_cons_cons, List.mem_append, List.mem_append] at h
      rcases h with (hl | hsep) | h
      · exact .inr ⟨l, List.mem_cons_self, hl⟩
      · exact .inl (List.mem_singleton.mp hsep)
      · exact (ih h).imp_right fun ⟨l', hl', hc⟩ => ⟨l', List.mem_cons_of_mem l hl', hc⟩

lemma mem_of_mem_getlines {s l : List α} (h : l ∈ getlines sep s) {c : α} (hc : c ∈ l) :
    c ∈ s := by
  induction s generalizing l with
  | nil => cases h
  | cons b s ih =>
    rw [getlines] at h
    split_ifs at h
    · rcases List.mem_cons.mp h with rfl | h
      · cases hc
      · exact List.mem_cons_of_mem b (ih h hc)
    · split at h
      · obtain rfl := List.mem_singleton.mp h
        exact List.mem_singleton.mp hc ▸ List.mem_cons_self
      · rename_i l' ls hs
        rw [hs] at ih
        rcases List.mem_cons.mp h with rfl | h
        · rcases List.mem_cons.mp hc with rfl | hc
          · exact List.mem_cons_self
          · exact List.mem_cons_of_mem b (ih List.mem_cons_self hc)
        · exact List.mem_cons_of_mem b (ih (List.mem_cons_of_mem l' h) hc)

/-- **Nothing is lost** behind a last separator. -/
theorem joined_parts (s : List α) : joined sep (parts sep s) = sep :: s := by
  induction s with
  | nil => rw [parts_nil]; rfl
  | cons c s ih =>
    by_cases hc : c = sep
    · rw [hc, parts_cons_sep, joined, List.flatMap_cons]
      rw [joined] at ih
      rw [ih]
      rfl
    · rcases hs : parts sep s with _ | ⟨l, ls⟩
      · exact absurd hs (parts_ne_nil sep s)
      · rw [hs, joined, List.flatMap_cons, List.cons_append] at ih
        rw [parts_cons hc hs, joined, List.flatMap_cons, List.cons_append, List.cons_append,
          (List.cons.inj ih).2]

/-- The last line is there, unless it is empty. -/
def EndsOpen (sep : α) (s : List α) : Prop := s ≠ [] ∧ s.getLast? ≠ some sep

omit [DecidableEq α] in
lemma endsOpen_cons {c : α} {s : List α} :
    EndsOpen sep (c :: s) ↔ if s = [] then c ≠ sep else EndsOpen sep s := by
  cases s with
  | nil => simp [EndsOpen]
  | cons b s => simp [EndsOpen]

/-- **What `std::getline` leaves out**: an empty last part. -/
theorem parts_eq (sep : α) (s : List α) : (EndsOpen sep s ∧ parts sep s = getlines sep s) ∨
    (¬ EndsOpen sep s ∧ parts sep s = getlines sep s ++ [[]]) := by
  induction s with
  | nil => exact .inr ⟨fun h => h.1 rfl, parts_nil⟩
  | cons c s ih =>
    rw [endsOpen_cons]
    by_cases hs : s = []
    · subst hs
      by_cases hc : c = sep
      · subst hc
        exact .inr ⟨by simp, by rw [parts_cons_sep, parts_nil]; simp [getlines]⟩
      · exact .inl ⟨by simpa using hc, by rw [parts_cons hc parts_nil]; simp [getlines, hc]⟩
    rw [if_neg hs]
    by_cases hc : c = sep
    · subst hc
      rw [parts_cons_sep]
      refine ih.imp (And.imp_right fun h => ?_) (And.imp_right fun h => ?_)
      · rw [h, getlines, if_pos rfl]
      · rw [h, getlines, if_pos rfl]
        rfl
    · have hlines : getlines sep s ≠ [] := by
        obtain ⟨b, s, rfl⟩ := List.exists_cons_of_ne_nil hs
        rw [getlines]
        split_ifs
        · exact List.cons_ne_nil _ _
        · split <;> exact List.cons_ne_nil _ _
      obtain ⟨l, ls, hls⟩ := List.exists_cons_of_ne_nil hlines
      refine ih.imp (And.imp_right fun h => ?_) (And.imp_right fun h => ?_)
      · rw [hls] at h
        rw [parts_cons hc h, getlines, if_neg hc, hls]
      · rw [hls, List.cons_append] at h
        rw [parts_cons hc h, getlines, if_neg hc, hls]
        rfl

omit [DecidableEq α] in
lemma joined_append (ls ls' : List (List α)) :
    joined sep (ls ++ ls') = joined sep ls ++ joined sep ls' := List.flatMap_append

lemma parts_append (s t : List α) : parts sep (s ++ sep :: t) = parts sep s ++ parts sep t := by
  rw [parts, List.append_assoc, List.cons_append, getlines_append]
  rfl

omit [DecidableEq α] in
lemma intercalate_cons (l : List α) (ls : List (List α)) :
    [sep].intercalate (l :: ls) = l ++ joined sep ls := by
  induction ls generalizing l with
  | nil => rw [List.intercalate_singleton, joined, List.flatMap_nil, List.append_nil]
  | cons m ls ih =>
    rw [List.intercalate_cons_cons, ih, List.append_assoc]
    rfl

lemma parts_intercalate {ls : List (List α)} (hne : ls ≠ []) (hsep : ∀ l ∈ ls, sep ∉ l) :
    parts sep ([sep].intercalate ls) = ls := by
  induction ls with
  | nil => exact absurd rfl hne
  | cons l ls ih =>
    obtain ⟨hl, hls⟩ := List.forall_mem_cons.mp hsep
    cases ls with
    | nil => rw [List.intercalate_singleton, parts_of_not_mem hl]
    | cons m ls =>
      calc parts sep ([sep].intercalate (l :: m :: ls))
          = parts sep (l ++ sep :: [sep].intercalate (m :: ls)) := by
              rw [List.intercalate_cons_cons, List.append_assoc, List.singleton_append]
        _ = parts sep l ++ parts sep ([sep].intercalate (m :: ls)) := parts_append ..
        _ = l :: m :: ls := by
              rw [parts_of_not_mem hl, ih (List.cons_ne_nil m ls) hls, List.singleton_append]

lemma getlines_intercalate_or {ls : List (List α)} (hne : ls ≠ [])
    (hsep : ∀ l ∈ ls, sep ∉ l) :
    getlines sep ([sep].intercalate ls) = ls ∨
      getlines sep ([sep].intercalate ls) ++ [[]] = ls := by
  have hparts := parts_intercalate hne hsep
  exact (parts_eq sep ([sep].intercalate ls)).imp (fun h => h.2.symm.trans hparts)
    fun h => h.2.symm.trans hparts

/-- **Lines are read back** exactly when none of them holds the separator and the last one is not
empty. -/
theorem getlines_intercalate_iff {ls : List (List α)} (hne : ls ≠ []) :
    getlines sep ([sep].intercalate ls) = ls ↔
      (∀ l ∈ ls, sep ∉ l) ∧ ls.getLast? ≠ some [] := by
  constructor
  · intro h
    have hsep : ∀ l ∈ ls, sep ∉ l := fun l hl => not_mem_getlines (h.symm ▸ hl)
    refine ⟨hsep, fun hlast => ?_⟩
    obtain ⟨init, rfl⟩ := List.getLast?_eq_some_iff.mp hlast
    cases init with
    | nil => cases h
    | cons l init =>
      have hinit : ∀ m ∈ l :: init, sep ∉ m := fun m hm => hsep m (List.mem_append_left _ hm)
      have hends : [sep].intercalate ((l :: init) ++ [[]]) =
          [sep].intercalate (l :: init) ++ [sep] := by
        rw [List.cons_append, intercalate_cons, joined_append, intercalate_cons, List.append_assoc]
        rfl
      have hread : getlines sep ([sep].intercalate ((l :: init) ++ [[]])) = l :: init :=
        (congrArg (getlines sep) hends).trans (parts_intercalate (List.cons_ne_nil l init) hinit)
      exact absurd (congrArg List.length (hread.symm.trans h)) (by simp)
  · rintro ⟨hsep, hlast⟩
    rcases getlines_intercalate_or hne hsep with h | h
    · exact h
    · rw [← h, List.getLast?_concat] at hlast
      exact absurd rfl hlast

lemma joined_flatMap_parts (ls : List (List α)) :
    joined sep (ls.flatMap (parts sep)) = joined sep ls := by
  induction ls with
  | nil => rfl
  | cons l ls ih =>
    rw [List.flatMap_cons, joined_append, joined_parts, ih]
    rfl

lemma count_joined {ls : List (List α)} (h : ∀ l ∈ ls, sep ∉ l) :
    (joined sep ls).count sep = ls.length := by
  induction ls with
  | nil => rfl
  | cons l ls ih =>
    obtain ⟨hl, hls⟩ := List.forall_mem_cons.mp h
    have hrest := ih hls
    rw [joined] at hrest
    rw [joined, List.flatMap_cons, List.cons_append, List.count_cons_self, List.count_append, hrest,
      List.count_eq_zero.mpr hl, List.length_cons, Nat.zero_add]

lemma eq_of_joined {ls ls' : List (List α)} (hsub : ls.Sublist ls') (h : ∀ l ∈ ls', sep ∉ l)
    (heq : joined sep ls = joined sep ls') : ls = ls' := by
  refine hsub.eq_of_length ?_
  rw [← count_joined h, ← count_joined fun l hl => h l (hsub.subset hl), heq]

end DistDB.Lines
