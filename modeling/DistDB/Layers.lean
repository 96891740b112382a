import DistDB.OrdMap

/-!
Layered maps: a list of layers, newest first, each an ascending list of keys with a value
or a tombstone. The newest layer that mentions a key decides.

Merging all layers and dropping the tombstones changes no lookup (`value_compact`). Putting
the merged layer on top of only some of the layers it was made from does not either, as
long as no value under a dropped tombstone is uncovered (`value_compact_cons`).
-/

namespace DistDB.Layers

open OrdMap

variable {κ ν : Type*} [LinearOrder κ]

abbrev Layer (κ ν : Type*) := List (κ × Option ν)

/-- The newest entry for `k`: a value, a tombstone, or nothing. -/
def top : List (Layer κ ν) → κ → Option (Option ν)
  | [], _ => none
  | l :: ls, k => (look k l).or (top ls k)

/-- The live value of `k`. -/
def value (ls : List (Layer κ ν)) (k : κ) : Option ν := (top ls k).join

/-- All layers in one, the newest entry of each key. -/
def merge (ls : List (Layer κ ν)) : OrdMap κ (Option ν) := ls.foldl emplaceAll empty

/-- The merged layers without their tombstones. -/
def compact (ls : List (Layer κ ν)) : Layer κ ν :=
  (merge ls).entries.filter fun e => e.2.isSome

lemma find_foldl_emplaceAll (ls : List (Layer κ ν)) (m : OrdMap κ (Option ν)) (k : κ) :
    (ls.foldl emplaceAll m).find k = (m.find k).or (top ls k) := by
  induction ls generalizing m with
  | nil => simp [top]
  | cons l ls ih => rw [List.foldl_cons, ih, find_emplaceAll, top, Option.or_assoc]

lemma find_merge (ls : List (Layer κ ν)) (k : κ) : (merge ls).find k = top ls k := by
  rw [merge, find_foldl_emplaceAll]; rfl

lemma asc_filter {μ : Type*} {l : List (κ × μ)} (hl : Asc l) (q : κ × μ → Bool) :
    Asc (l.filter q) :=
  List.Pairwise.sublist List.filter_sublist hl

lemma look_filter {μ : Type*} {l : List (κ × μ)} (hl : Asc l) (q : κ × μ → Bool) (k : κ) :
    look k (l.filter q) = (look k l).bind fun v => if q (k, v) then some v else none := by
  induction l with
  | nil => rfl
  | cons e l ih =>
    obtain ⟨k', v⟩ := e
    obtain ⟨hlt, hl'⟩ := List.pairwise_cons.mp hl
    by_cases hq : q (k', v)
    · rw [List.filter_cons_of_pos hq, look, look, ih hl']
      by_cases hk : k = k'
      · subst hk; simp [hq]
      · simp [hk]
    · rw [List.filter_cons_of_neg hq, look, ih hl']
      by_cases hk : k = k'
      · subst hk; simp [hq, look_eq_none_of_lt hlt]
      · simp [hk]

lemma asc_compact (ls : List (Layer κ ν)) : Asc (compact ls) := asc_filter (merge ls).asc _

lemma look_compact (ls : List (Layer κ ν)) (k : κ) :
    look k (compact ls) = (top ls k).bind fun v => if v.isSome then some v else none := by
  rw [compact, look_filter (merge ls).asc, ← find_merge]; rfl

/-- **Compaction changes no lookup.** -/
theorem value_compact (ls : List (Layer κ ν)) (k : κ) : value [compact ls] k = value ls k := by
  rw [value, value, top, look_compact]
  rcases top ls k with _ | _ | v <;> rfl

/-- The merged layer over other layers answers as the merged layers do, when nothing live
comes up under a key the merged layers do not hold a value for. -/
theorem value_compact_cons {ls rest : List (Layer κ ν)} {k : κ}
    (h : value ls k = none → value rest k = none) :
    value (compact ls :: rest) k = value ls k := by
  rw [value, top, look_compact]
  rcases htop : top ls k with _ | _ | v
  · have hnone : value ls k = none := by rw [value, htop]; rfl
    rw [hnone]; exact h hnone
  · have hnone : value ls k = none := by rw [value, htop]; rfl
    rw [hnone]; exact h hnone
  · rw [value, htop]; rfl

lemma top_map_filter {ls : List (Layer κ ν)} (hls : ∀ l ∈ ls, Asc l) (q : κ → Bool)
    (k : κ) :
    top (ls.map fun l => l.filter fun e => q e.1) k = if q k then top ls k else none := by
  induction ls with
  | nil => simp [top]
  | cons l ls ih =>
    rw [List.map_cons, top, ih fun l hl => hls l (by simp [hl]),
      look_filter (hls l (by simp)), top]
    by_cases hq : q k
    · simp [hq]
    · simp [hq]

/-- The live entries of a map with tombstones, in key order. -/
def liveEntries (m : OrdMap κ (Option ν)) : List (κ × ν) :=
  (m.filterMap fun _ v => v).entries

/-- **A merged scan** lists the live pairs of the layers, in key order. -/
theorem liveEntries_merge_filter {ls : List (Layer κ ν)} (hls : ∀ l ∈ ls, Asc l)
    (q : κ → Bool) (m : OrdMap κ ν) (hm : ∀ k, m.find k = value ls k) :
    liveEntries (merge (ls.map fun l => l.filter fun e => q e.1)) =
      m.entries.filter fun e => q e.1 := by
  refine asc_ext (OrdMap.asc _) (asc_filter m.asc _) fun k => ?_
  have hfind := find_filterMap (merge (ls.map fun l => l.filter fun e => q e.1)) (fun _ v => v) k
  rw [find_merge, top_map_filter hls] at hfind
  have hlook : look k m.entries = m.find k := rfl
  rw [look_filter m.asc, hlook, hm, value]
  refine Eq.trans hfind ?_
  by_cases hq : q k
  · rcases top ls k with _ | _ | v <;> simp [hq]
  · simp [hq]

end DistDB.Layers
