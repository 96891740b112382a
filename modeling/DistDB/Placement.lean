import DistDB.OrdMap

/-!
A map that is spread over places. A key lies on the place that owns it, and a key without an owner
lies on every place.

A place holds its part of the map. A write that every place carries out where the key lives, and
no place elsewhere, leaves each place its part of the map with the write.
-/

namespace DistDB.Placement

variable {ι κ ν : Type*}

/-- The key lies on the place. -/
def Lives (owner : κ → Option ι) (i : ι) (k : κ) : Prop := owner k = none ∨ owner k = some i

lemma lives_of_none {owner : κ → Option ι} {i : ι} {k : κ} (h : owner k = none) :
    Lives owner i k := .inl h

lemma lives_of_owner {owner : κ → Option ι} {i : ι} {k : κ} (h : owner k = some i) :
    Lives owner i k := .inr h

lemma lives_iff {owner : κ → Option ι} {i j : ι} {k : κ} (h : owner k = some j) :
    Lives owner i k ↔ j = i := by
  simp [Lives, h]

variable [LinearOrder κ] [DecidableEq ι]

instance decidableLives (owner : κ → Option ι) (i : ι) (k : κ) :
    Decidable (Lives owner i k) :=
  inferInstanceAs (Decidable (_ ∨ _))

/-- What of the map lies on the place. -/
def part (owner : κ → Option ι) (m : OrdMap κ ν) (i : ι) : OrdMap κ ν :=
  m.filterMap fun k v => if Lives owner i k then some v else none

variable {owner : κ → Option ι} {m : OrdMap κ ν} {i : ι} {k : κ}

lemma find_part (k : κ) : (part owner m i).find k = if Lives owner i k then m.find k
    else none := by
  rw [part, OrdMap.find_filterMap]
  split_ifs <;> cases m.find k <;> rfl

lemma find_part_of_lives (h : Lives owner i k) : (part owner m i).find k = m.find k := by
  rw [find_part, if_pos h]

lemma entries_part : (part owner m i).entries = m.entries.filter fun e => Lives owner i e.1 := by
  show m.entries.filterMap _ = _
  rw [← List.filterMap_eq_filter]
  refine List.filterMap_congr fun e _ => ?_
  by_cases h : Lives owner i e.1 <;> simp [Option.guard, h]

lemma part_insert (v : ν) : part owner (m.insert k v) i =
    if Lives owner i k then (part owner m i).insert k v else part owner m i := by
  refine OrdMap.ext_find fun k' => ?_
  rw [find_part, OrdMap.find_insert]
  by_cases hk : k' = k
  · subst hk
    by_cases h : Lives owner i k'
    · simp [h]
    · simp [h, find_part]
  · split_ifs <;> simp [*, OrdMap.find_insert, find_part]

lemma part_erase : part owner (m.erase k) i =
    if Lives owner i k then (part owner m i).erase k else part owner m i := by
  refine OrdMap.ext_find fun k' => ?_
  rw [find_part, OrdMap.find_erase]
  by_cases hk : k' = k
  · subst hk
    by_cases h : Lives owner i k'
    · simp [h, OrdMap.find_erase]
    · simp [h, find_part]
  · split_ifs <;> simp [*, OrdMap.find_erase, find_part]

end DistDB.Placement
