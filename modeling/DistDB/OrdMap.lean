import Mathlib.Data.Finset.Card
import Mathlib.Order.Basic
import Mathlib.Order.Defs.LinearOrder
import Mathlib.Data.List.Basic
import Mathlib.Tactic.Lemma

/-!
Ordered maps: strictly ascending association lists over a linear order, with the order as
a field. This is what an ordered map of a standard library promises: iteration in key
order, at most one entry for each key.

Two maps are equal as soon as they answer every lookup alike (`ext_find`), so a fact about
a map is proved by computing lookups.
-/

namespace DistDB.OrdMap

variable {κ ν : Type*} [LinearOrder κ]

/-! ### Association lists -/

/-- The value stored under `k`. -/
def look (k : κ) : List (κ × ν) → Option ν
  | [] => none
  | (k', v) :: l => if k = k' then some v else look k l

/-- Ascending insertion; an entry for the same key is overwritten. -/
def put (k : κ) (v : ν) : List (κ × ν) → List (κ × ν)
  | [] => [(k, v)]
  | (k', v') :: l =>
    if k < k' then (k, v) :: (k', v') :: l
    else if k = k' then (k, v) :: l
    else (k', v') :: put k v l

/-- Strictly ascending keys. -/
def Asc (l : List (κ × ν)) : Prop := l.Pairwise (fun a b => a.1 < b.1)

lemma look_eq_none_of_lt {k : κ} {l : List (κ × ν)} (h : ∀ e ∈ l, k < e.1) :
    look k l = none := by
  induction l with
  | nil => rfl
  | cons e l ih =>
    obtain ⟨k', v⟩ := e
    have hk : k < k' := h (k', v) (by simp)
    rw [look, if_neg (ne_of_lt hk), ih fun e he => h e (by simp [he])]

lemma mem_of_look {k : κ} {v : ν} {l : List (κ × ν)} (h : look k l = some v) :
    (k, v) ∈ l := by
  induction l with
  | nil => simp [look] at h
  | cons e l ih =>
    obtain ⟨k', v'⟩ := e
    rw [look] at h
    split_ifs at h with hk
    · simp_all
    · exact List.mem_cons_of_mem _ (ih h)

lemma look_of_mem {k : κ} {v : ν} {l : List (κ × ν)} (hl : Asc l) (h : (k, v) ∈ l) :
    look k l = some v := by
  induction l with
  | nil => simp at h
  | cons e l ih =>
    obtain ⟨k', v'⟩ := e
    obtain ⟨hlt, hl'⟩ := List.pairwise_cons.mp hl
    rcases List.mem_cons.mp h with heq | hmem
    · cases heq; simp [look]
    · have hne : k ≠ k' := (hlt _ hmem).ne'
      rw [look, if_neg hne]
      exact ih hl' hmem

lemma mem_iff_look {k : κ} {v : ν} {l : List (κ × ν)} (hl : Asc l) :
    (k, v) ∈ l ↔ look k l = some v :=
  ⟨look_of_mem hl, mem_of_look⟩

lemma mem_put {k : κ} {v : ν} {l : List (κ × ν)} {e : κ × ν} (h : e ∈ put k v l) :
    e = (k, v) ∨ e ∈ l := by
  induction l with
  | nil => simpa [put] using h
  | cons e' l ih =>
    obtain ⟨k', v'⟩ := e'
    rw [put] at h
    split_ifs at h with h1 h2
    · simpa using h
    · rcases List.mem_cons.mp h with h | h <;> simp [h]
    · rcases List.mem_cons.mp h with h | h
      · simp [h]
      · rcases ih h with h | h <;> simp [h]

lemma asc_put {k : κ} {v : ν} {l : List (κ × ν)} (hl : Asc l) : Asc (put k v l) := by
  induction l with
  | nil => simp [put, Asc]
  | cons e l ih =>
    obtain ⟨k', v'⟩ := e
    obtain ⟨hlt, hl'⟩ := List.pairwise_cons.mp hl
    rw [put]
    split_ifs with h1 h2
    · refine List.pairwise_cons.mpr ⟨fun e he => ?_, hl⟩
      rcases List.mem_cons.mp he with rfl | he
      · exact h1
      · exact h1.trans (hlt e he)
    · subst h2
      exact List.pairwise_cons.mpr ⟨hlt, hl'⟩
    · refine List.pairwise_cons.mpr ⟨fun e he => ?_, ih hl'⟩
      rcases mem_put he with rfl | he
      · exact lt_of_le_of_ne (not_lt.mp h1) (Ne.symm h2)
      · exact hlt e he

lemma look_put (k k' : κ) (v : ν) (l : List (κ × ν)) :
    look k' (put k v l) = if k' = k then some v else look k' l := by
  induction l with
  | nil => simp [put, look]
  | cons e l ih =>
    obtain ⟨k₀, v₀⟩ := e
    rw [put]
    by_cases h1 : k < k₀
    · rw [if_pos h1, look]
    · rw [if_neg h1]
      by_cases h2 : k = k₀
      · subst h2
        by_cases h3 : k' = k <;> simp [look, h3]
      · rw [if_neg h2, look, look, ih]
        by_cases h3 : k' = k₀
        · subst h3; simp [Ne.symm h2]
        · simp [h3]

lemma asc_ext {l₁ l₂ : List (κ × ν)} (h₁ : Asc l₁) (h₂ : Asc l₂)
    (h : ∀ k, look k l₁ = look k l₂) : l₁ = l₂ := by
  induction l₁ generalizing l₂ with
  | nil =>
    cases l₂ with
    | nil => rfl
    | cons e l₂ =>
      have := h e.1
      simp [look] at this
  | cons e₁ l₁ ih =>
    obtain ⟨k₁, v₁⟩ := e₁
    obtain ⟨hlt₁, hl₁⟩ := List.pairwise_cons.mp h₁
    cases l₂ with
    | nil =>
      have := h k₁
      simp [look] at this
    | cons e₂ l₂ =>
      obtain ⟨k₂, v₂⟩ := e₂
      obtain ⟨hlt₂, hl₂⟩ := List.pairwise_cons.mp h₂
      -- the least keys agree: each is found in the other list
      have hmem₁ : (k₁, v₁) ∈ (k₂, v₂) :: l₂ :=
        mem_of_look (by rw [← h]; simp [look])
      have hmem₂ : (k₂, v₂) ∈ (k₁, v₁) :: l₁ := mem_of_look (by rw [h]; simp [look])
      have hhead : (k₁, v₁) = (k₂, v₂) := by
        rcases List.mem_cons.mp hmem₁ with heq | hin₁
        · exact heq
        · rcases List.mem_cons.mp hmem₂ with heq | hin₂
          · exact heq.symm
          · exact absurd (hlt₁ _ hin₂) (not_lt_of_gt (hlt₂ _ hin₁))
      cases hhead
      congr 1
      refine ih hl₁ hl₂ fun k => ?_
      by_cases hk : k = k₁
      · subst hk
        rw [look_eq_none_of_lt hlt₁, look_eq_none_of_lt hlt₂]
      · have := h k
        simpa [look, hk] using this

lemma asc_of_mem {l₁ l₂ : List (κ × ν)} (h₁ : Asc l₁) (h₂ : Asc l₂)
    (h : ∀ e, e ∈ l₁ ↔ e ∈ l₂) : l₁ = l₂ :=
  asc_ext h₁ h₂ fun k => Option.ext fun v => by
    rw [← mem_iff_look h₁, ← mem_iff_look h₂, h]

end DistDB.OrdMap

namespace DistDB

/-- An ordered map: its entries in strictly ascending key order. -/
structure OrdMap (κ ν : Type*) [LinearOrder κ] where
  entries : List (κ × ν)
  asc : OrdMap.Asc entries

namespace OrdMap

variable {κ ν μ : Type*} [LinearOrder κ]

instance [DecidableEq ν] : DecidableEq (OrdMap κ ν) := fun a b =>
  decidable_of_iff (a.entries = b.entries) ⟨fun h => by cases a; cases b; simp_all, fun h => by
    rw [h]⟩

def empty : OrdMap κ ν := ⟨[], List.Pairwise.nil⟩

def find (m : OrdMap κ ν) (k : κ) : Option ν := look k m.entries

/-- `m[k] = v`. -/
def insert (m : OrdMap κ ν) (k : κ) (v : ν) : OrdMap κ ν :=
  ⟨put k v m.entries, asc_put m.asc⟩

/-- `m.emplace(k, v)`: nothing happens when the key is present. -/
def emplace (m : OrdMap κ ν) (k : κ) (v : ν) : OrdMap κ ν :=
  if (m.find k).isSome then m else m.insert k v

def erase (m : OrdMap κ ν) (k : κ) : OrdMap κ ν :=
  ⟨m.entries.filter (fun e => e.1 ≠ k), List.Pairwise.sublist List.filter_sublist m.asc⟩

def size (m : OrdMap κ ν) : ℕ := m.entries.length

/-- The entries kept and rewritten by `f`. -/
def filterMap (m : OrdMap κ ν) (f : κ → ν → Option μ) : OrdMap κ μ where
  entries := m.entries.filterMap fun e => (f e.1 e.2).map (e.1, ·)
  asc := by
    refine List.Pairwise.filterMap _ (fun a b hab c hc d hd => ?_) m.asc
    obtain ⟨_, _, rfl⟩ := Option.map_eq_some_iff.mp hc
    obtain ⟨_, _, rfl⟩ := Option.map_eq_some_iff.mp hd
    exact hab

variable (m : OrdMap κ ν)

lemma mem_entries {k : κ} {v : ν} : (k, v) ∈ m.entries ↔ m.find k = some v :=
  mem_iff_look m.asc

/-- **Extensionality**: a map is determined by its lookups. -/
theorem ext_find {m₁ m₂ : OrdMap κ ν} (h : ∀ k, m₁.find k = m₂.find k) :
    m₁ = m₂ := by
  cases m₁; cases m₂
  congr
  exact asc_ext ‹_› ‹_› h

@[simp] lemma find_empty (k : κ) : (empty : OrdMap κ ν).find k = none := rfl

@[simp] lemma entries_empty : (empty : OrdMap κ ν).entries = [] := rfl

lemma find_insert (k k' : κ) (v : ν) :
    (m.insert k v).find k' = if k' = k then some v else m.find k' :=
  look_put k k' v m.entries

@[simp] lemma find_insert_self (k : κ) (v : ν) : (m.insert k v).find k = some v := by
  simp [find_insert]

lemma find_emplace (k k' : κ) (v : ν) :
    (m.emplace k v).find k' = if k' = k then (m.find k).or (some v) else m.find k' := by
  unfold emplace
  cases hk : m.find k with
  | none => simp [find_insert]
  | some w =>
    by_cases h : k' = k
    · subst h; simp [hk]
    · simp [h]

lemma look_filter_ne (k k' : κ) (l : List (κ × ν)) :
    look k' (l.filter (fun e => e.1 ≠ k)) = if k' = k then none else look k' l := by
  induction l with
  | nil => simp [look]
  | cons e l ih =>
    obtain ⟨k₀, v₀⟩ := e
    by_cases h0 : k₀ = k
    · subst h0
      rw [List.filter_cons_of_neg (by simp), ih]
      by_cases h1 : k' = k₀ <;> simp [look, h1]
    · rw [List.filter_cons_of_pos (by simpa using h0), look, look, ih]
      by_cases h1 : k' = k₀
      · subst h1; simp [h0]
      · simp [h1]

lemma find_erase (k k' : κ) : (m.erase k).find k' = if k' = k then none else m.find k' :=
  look_filter_ne k k' m.entries

lemma nodup_entries : m.entries.Nodup := m.asc.imp fun hlt heq => hlt.ne (congrArg Prod.fst heq)

lemma perm_erase {k : κ} {v : ν} (h : m.find k = some v) :
    m.entries.Perm ((k, v) :: (m.erase k).entries) := by
  have hnew : (k, v) ∉ (m.erase k).entries := by simp [erase]
  refine (List.perm_ext_iff_of_nodup m.nodup_entries
    (List.nodup_cons.mpr ⟨hnew, (m.erase k).nodup_entries⟩)).mpr fun e => ?_
  rw [List.mem_cons, m.mem_entries, (m.erase k).mem_entries, find_erase, Prod.ext_iff]
  by_cases heq : e.1 = k
  · simp [heq, h, eq_comm]
  · simp [heq]

lemma perm_insert {k : κ} (v : ν) (h : m.find k = none) :
    (m.insert k v).entries.Perm ((k, v) :: m.entries) := by
  have herase : (m.insert k v).erase k = m := ext_find fun k' => by
    rw [find_erase, find_insert]
    split_ifs with heq
    · rw [heq, h]
    · rfl
  have hperm := (m.insert k v).perm_erase (m.find_insert_self k v)
  rwa [herase] at hperm

lemma look_filterMap (f : κ → ν → Option μ) (k : κ) {l : List (κ × ν)} (hl : Asc l) :
    look k (l.filterMap fun e => (f e.1 e.2).map (e.1, ·)) = (look k l).bind (f k) := by
  induction l with
  | nil => rfl
  | cons e l ih =>
    obtain ⟨k', v⟩ := e
    obtain ⟨hlt, hl'⟩ := List.pairwise_cons.mp hl
    by_cases hk : k = k'
    · subst hk
      cases hf : f k v with
      | none =>
        simp only [List.filterMap_cons, hf, Option.map_none, look, if_true, Option.bind_some]
        rw [ih hl', look_eq_none_of_lt hlt]; rfl
      | some w => simp [hf, look]
    · cases hf : f k' v with
      | none => simp [hf, look, hk, ih hl']
      | some w => simp [hf, look, hk, ih hl']

lemma find_filterMap (f : κ → ν → Option μ) (k : κ) :
    (m.filterMap f).find k = (m.find k).bind (f k) :=
  look_filterMap f k m.asc

lemma length_put_of_look {k : κ} {v : ν} {l : List (κ × ν)} (h : look k l = none) :
    (put k v l).length = l.length + 1 := by
  induction l with
  | nil => rfl
  | cons e l ih =>
    obtain ⟨k', v'⟩ := e
    rw [look] at h
    split_ifs at h with hk
    rw [put]
    split_ifs
    · rfl
    · simp [ih h]

lemma size_insert_of_find {k : κ} (v : ν) (h : m.find k = none) :
    (m.insert k v).size = m.size + 1 :=
  length_put_of_look h

def keys (m : OrdMap κ ν) : Finset κ := (m.entries.map Prod.fst).toFinset

lemma mem_keys {k : κ} : k ∈ m.keys ↔ (m.find k).isSome := by
  rw [keys, List.mem_toFinset, List.mem_map, Option.isSome_iff_exists]
  constructor
  · rintro ⟨⟨k, v⟩, he, rfl⟩
    exact ⟨v, m.mem_entries.mp he⟩
  · rintro ⟨v, hv⟩
    exact ⟨(k, v), m.mem_entries.mpr hv, rfl⟩

lemma card_keys : m.keys.card = m.size := by
  have hnodup : (m.entries.map Prod.fst).Nodup :=
    List.pairwise_map.mpr (m.asc.imp fun h => ne_of_lt h)
  rw [keys, List.toFinset_card_of_nodup hnodup, List.length_map, size]

@[simp] lemma keys_insert (k : κ) (v : ν) : (m.insert k v).keys = Insert.insert k m.keys := by
  ext k'
  rw [mem_keys, find_insert, Finset.mem_insert, mem_keys]
  split_ifs with h <;> simp [h]

@[simp] lemma keys_erase (k : κ) : (m.erase k).keys = m.keys.erase k := by
  ext k'
  rw [mem_keys, find_erase, Finset.mem_erase, mem_keys]
  split_ifs with h <;> simp [h]

/-- Emplacing a list of entries: what the map had stays, the rest comes from the first
entry of the list for the key. -/
def emplaceAll (m : OrdMap κ ν) (l : List (κ × ν)) : OrdMap κ ν :=
  l.foldl (fun m e => m.emplace e.1 e.2) m

lemma find_emplaceAll (l : List (κ × ν)) (k : κ) :
    (m.emplaceAll l).find k = (m.find k).or (look k l) := by
  induction l generalizing m with
  | nil => simp [emplaceAll, look]
  | cons e l ih =>
    obtain ⟨k', v⟩ := e
    have hstep : m.emplaceAll ((k', v) :: l) = (m.emplace k' v).emplaceAll l := rfl
    rw [hstep, ih, find_emplace, look]
    by_cases hk : k = k'
    · subst hk
      cases m.find k <;> simp
    · simp [hk]

/-- Inserting a list of entries one after the other: the last entry for a key wins. -/
def insertAll (m : OrdMap κ ν) (l : List (κ × ν)) : OrdMap κ ν :=
  l.foldl (fun m e => m.insert e.1 e.2) m

lemma keys_insertAll (l : List (κ × ν)) :
    (m.insertAll l).keys = m.keys ∪ (l.map Prod.fst).toFinset := by
  induction l generalizing m with
  | nil => simp [insertAll]
  | cons e l ih =>
    have hstep : m.insertAll (e :: l) = (m.insert e.1 e.2).insertAll l := rfl
    rw [hstep, ih, keys_insert]
    ext k
    simp only [Finset.mem_union, Finset.mem_insert, List.map_cons, List.toFinset_cons]
    tauto

lemma find_insertAll_of_asc {l : List (κ × ν)} (hl : Asc l) (k : κ) :
    (m.insertAll l).find k = (look k l).or (m.find k) := by
  induction l generalizing m with
  | nil => simp [insertAll, look]
  | cons e l ih =>
    obtain ⟨k', v⟩ := e
    obtain ⟨hlt, hl'⟩ := List.pairwise_cons.mp hl
    have hstep : m.insertAll ((k', v) :: l) = (m.insert k' v).insertAll l := rfl
    rw [hstep, ih _ hl', find_insert, look]
    by_cases hk : k = k'
    · subst hk
      simp [look_eq_none_of_lt hlt]
    · simp [hk]

lemma mem_of_find_insertAll {l : List (κ × ν)} {k : κ} {v : ν}
    (h : (m.insertAll l).find k = some v) : (k, v) ∈ l ∨ m.find k = some v := by
  induction l generalizing m with
  | nil => exact .inr h
  | cons e l ih =>
    rcases ih (m := m.insert e.1 e.2) h with hl | hm
    · exact .inl (List.mem_cons_of_mem e hl)
    · rw [find_insert] at hm
      split_ifs at hm with hk
      · cases hm
        exact .inl (hk ▸ List.mem_cons_self)
      · exact .inr hm

lemma insertAll_entries : insertAll .empty m.entries = m :=
  ext_find fun k => by rw [find_insertAll_of_asc _ m.asc, find_empty, Option.or_none]; rfl

end OrdMap

end DistDB
