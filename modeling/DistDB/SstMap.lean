import DistDB.EngineMap

/-!
An SSTable as a sorted map: what was written is what the three readers find, the whole table, one
key, and the keys with a prefix (`table_sorted`).

The offsets in the index and the footer have 64 bits. A table whose data is longer has the end of
its data somewhere in the middle (`index_offset_wraps`).
-/

namespace DistDB.SstMap

open Bytes SstModel EngineMap OrdMap

/-- A list of entries that a table is written for. -/
structure Listed (es : List Entry) : Prop where
  asc : Asc es
  key : ∀ e ∈ es, e.1.length < 2 ^ 32 - 1
  value : ∀ e ∈ es, ∀ v, e.2 = some v → v.length < 2 ^ 32 - 1
  count : es.length < 2 ^ 32

/-- The reader answers as the list does. -/
structure SortedMap (t : SSTableReader) (es : List Entry) : Prop where
  readAll : t.readAll = es
  found : ∀ k v, (k, some v) ∈ es → t.lookup k = .kFound v
  deleted : ∀ k, (k, none) ∈ es → t.lookup k = .kDeleted
  notFound : ∀ k, (∀ e ∈ es, e.1 ≠ k) → t.lookup k = .kNotFound
  scan : ∀ p, t.scan p = es.filter fun e => startsWith e.1 p

section

variable {t : SSTableReader} {es : List Entry}

lemma Listed.fits (h : Listed es) (hdata : (dataBlock es).length < 2 ^ 64) : TableFits es where
  asc := h.asc
  entries e he := ⟨(h.key e he).trans (by norm_num), h.value e he⟩
  count := h.count
  data := hdata

lemma sortedMap_of_represents (h : Represents t es) : SortedMap t es where
  readAll := h.readAll_eq
  found k v hmem := by rw [h.lookup_eq, look_of_mem h.asc hmem]; rfl
  deleted k hmem := by rw [h.lookup_eq, look_of_mem h.asc hmem]; rfl
  notFound k hk := by
    have hnone : look k es = none := by
      cases hlook : look k es with
      | none => rfl
      | some v => exact absurd rfl (hk _ (mem_of_look hlook))
    rw [h.lookup_eq, hnone]
    rfl
  scan := h.scan_eq

/-- **A table is its sorted map**: it opens, and its readers answer as the list of its entries. -/
theorem table_sorted (h : Listed es) (hdata : (dataBlock es).length < 2 ^ 64) :
    ∃ t, SSTableReader.openTable (writeTable es) = .ok t ∧ SortedMap t es :=
  ⟨readerOf es, openTable_of_fits (h.fits hdata),
    sortedMap_of_represents (represents_readerOf (h.fits hdata))⟩

/-- A key without a byte, a deleted key behind it, and one more value. -/
theorem table_sorted_three : ∃ t,
    SSTableReader.openTable (writeTable [([], some [1]), ([5], none), ([5, 0], some [])]) =
      .ok t ∧ SortedMap t [([], some [1]), ([5], none), ([5, 0], some [])] :=
  table_sorted ⟨by simp [Asc], by decide, by decide, by decide⟩ (by decide)

lemma length_readEntries (file : Bytes) (dataEnd n pos : ℕ) :
    (readEntries file dataEnd n pos).length ≤ n := by
  induction n generalizing pos with
  | zero => exact le_rfl
  | succ n ih =>
    rw [readEntries]
    split
    · exact Nat.succ_le_succ (ih _)
    · exact Nat.zero_le _

lemma length_dataBlock {n : ℕ} (h : ∀ e ∈ es, (encodeEntry e).length = n) :
    (dataBlock es).length = es.length * n := by
  induction es with
  | nil => simp [dataBlock]
  | cons e es ih =>
    obtain ⟨he, hes⟩ := List.forall_mem_cons.mp h
    rw [dataBlock, List.flatMap_cons, List.length_append, he]
    have hrest := ih hes
    rw [dataBlock] at hrest
    rw [hrest, List.length_cons, Nat.succ_mul, Nat.add_comm]

/-- The first `n` numbers as keys, all with one value. -/
def valued (n : ℕ) (v : Bytes) : List Entry :=
  (plain (fill n)).entries.map fun kv => (kv.1, some v)

lemma mem_valued {n : ℕ} {v : Bytes} {e : Entry} (h : e ∈ valued n v) :
    e.1.length = 4 ∧ e.2 = some v := by
  obtain ⟨⟨k, w⟩, hkv, rfl⟩ := List.mem_map.mp h
  obtain ⟨-, i, -, hk⟩ := find_plain_fill ((plain (fill n)).mem_entries.mp hkv)
  exact ⟨by rw [hk, length_le], rfl⟩

lemma length_valued {n : ℕ} (hn : n ≤ 2 ^ 32) (v : Bytes) : (valued n v).length = n := by
  rw [valued, List.length_map]
  exact size_plain_fill hn

lemma listed_valued {n : ℕ} (hn : n < 2 ^ 32) {v : Bytes} (hv : v.length < 2 ^ 32 - 1) :
    Listed (valued n v) where
  asc := List.pairwise_map.mpr (plain (fill n)).asc
  key e he := by rw [(mem_valued he).1]; norm_num
  value e he w hw := by
    rw [(mem_valued he).2] at hw
    cases hw
    exact hv
  count := by rwa [length_valued hn.le]

end

/-- **The index offset wraps**: a table with `2 ^ 64` bytes of data is not read back. -/
theorem index_offset_wraps : ¬ ∀ es, Listed es →
    ∃ t, SSTableReader.openTable (writeTable es) = .ok t ∧ SortedMap t es := by
  intro h
  obtain ⟨v, hv⟩ : ∃ v : Bytes, v.length = 2 ^ 32 - 2 :=
    ⟨List.replicate (2 ^ 32 - 2) 0, List.length_replicate⟩
  have hlen := length_valued (n := 2 ^ 32 - 9) (by norm_num) v
  obtain ⟨t, hopen, hmap⟩ := h (valued (2 ^ 32 - 9) v)
    (listed_valued (by norm_num) (by rw [hv]; norm_num))
  have hdata : (dataBlock (valued (2 ^ 32 - 9) v)).length = (2 ^ 32 - 9) * (2 ^ 32 + 10) := by
    rw [length_dataBlock (n := 2 ^ 32 + 10) fun e he => ?_, hlen]
    obtain ⟨k, w⟩ := e
    obtain ⟨hk, rfl⟩ := mem_valued he
    dsimp only at hk
    simp only [encodeEntry, encodeValue, List.length_append, length_le, hk, hv]
    norm_num
  rw [openTable_written, Except.ok.injEq] at hopen
  subst hopen
  -- fewer entries are read than there are
  have hshort := length_readEntries (writeTable (valued (2 ^ 32 - 9) v))
    ((dataBlock (valued (2 ^ 32 - 9) v)).length % 2 ^ 64)
    ((dataBlock (valued (2 ^ 32 - 9) v)).length % 2 ^ 64) 0
  have hall := congrArg List.length hmap.readAll
  rw [SSTableReader.readAll, hlen] at hall
  rw [hall, hdata] at hshort
  norm_num at hshort

end DistDB.SstMap
