import Mathlib.Data.List.Induction
import DistDB.EngineModel

/-!
What an engine and its directory hold: the tables as lists of entries, newest first, and
the records of the log. Every operation of the engine is described on these, and the
layers they form (`layersOf`) say what the engine answers.
-/

namespace DistDB.EngineInv

open SstModel WalModel WriteAheadLog EngineModel Layers OrdMap

/-- A table as it is meant: its sequence number and its entries. -/
abbrev TableSpec := ℕ × List Entry

/-- A record whose lengths fit the log and the tables. -/
structure RecordOk (r : Record) : Prop where
  key : r.key.length < 2 ^ 32
  value : r.value.length < 2 ^ 32 - 1
  del : r.type ≠ kPut → r.value = []

lemma RecordOk.fits {r : Record} (h : RecordOk r) : Fits r :=
  ⟨h.key, by have := h.value; omega, h.del⟩

/-- The memtable the log rebuilds. -/
def memOf (rs : List Record) : Memtable := rs.foldl Memtable.replay .empty

lemma memOf_append (rs : List Record) (r : Record) :
    memOf (rs ++ [r]) = (memOf rs).replay r := by
  simp [memOf, List.foldl_append]

/-- What a directory holds. -/
structure Stored (d : Disk) (tabs : List TableSpec) (rs : List Record) : Prop where
  wal : d.wal = encodeAll rs
  recs : ∀ r ∈ rs, RecordOk r
  sst : d.sst.entries = (tabs.map fun t => (t.1, writeTable t.2)).reverse
  fits : ∀ t ∈ tabs, TableFits t.2

/-- What an open engine holds. -/
structure Holds (e : StorageEngine) (tabs : List TableSpec) (rs : List Record) : Prop where
  stored : Stored e.disk tabs rs
  pos : e.wal.pos = e.wal.file.length
  mem : e.memtable = memOf rs
  tables : e.sstables = tabs.map fun t => ⟨t.1, readerOf t.2⟩
  next : ∀ t ∈ tabs, t.1 < e.nextSeq

def layersOf (tabs : List TableSpec) (rs : List Record) : List (Layer Bytes Bytes) :=
  (memOf rs).entries :: tabs.map Prod.snd

lemma getTables_eq {tabs : List TableSpec} (hfits : ∀ t ∈ tabs, TableFits t.2) (k : Bytes) :
    StorageEngine.getTables k (tabs.map fun t => ⟨t.1, readerOf t.2⟩) =
      value (tabs.map Prod.snd) k := by
  induction tabs with
  | nil => rfl
  | cons t tabs ih =>
    have hlook := (represents_readerOf (hfits t (by simp))).lookup_eq k
    have hrest := ih fun t ht => hfits t (by simp [ht])
    simp only [List.map_cons, StorageEngine.getTables, hlook, hrest, value, top]
    rcases look k t.2 with _ | _ | v <;> rfl

/-- **`Get`** answers the live value of the layers. -/
theorem get_eq {e : StorageEngine} {tabs : List TableSpec} {rs : List Record}
    (h : Holds e tabs rs) (k : Bytes) : e.get k = value (layersOf tabs rs) k := by
  unfold StorageEngine.get Memtable.lookup find
  rw [h.mem, h.tables, getTables_eq h.stored.fits]
  simp only [layersOf, value, top]
  rcases look k (memOf rs).entries with _ | _ | v <;> rfl

lemma memtable_scan (m : Memtable) (p : Bytes) :
    m.scan p = m.entries.filter fun e => Bytes.startsWith e.1 p :=
  Bytes.scan_eq_filter m.asc

lemma foldl_tables {tabs : List TableSpec} (f : SSTableReader → List Entry)
    (g : List Entry → List Entry) (hfg : ∀ t ∈ tabs, f (readerOf t.2) = g t.2)
    (m : OrdMap Bytes (Option Bytes)) :
    (tabs.map fun t => (⟨t.1, readerOf t.2⟩ : Table)).foldl
      (fun m t => m.emplaceAll (f t.reader)) m =
      (tabs.map fun t => g t.2).foldl emplaceAll m := by
  induction tabs generalizing m with
  | nil => rfl
  | cons t tabs ih =>
    simp only [List.map_cons, List.foldl_cons, hfg t (by simp)]
    exact ih (fun t ht => hfg t (by simp [ht])) _

/-- **`Scan`** lists the pairs with the prefix of any map with the same live values. -/
theorem scan_eq {e : StorageEngine} {tabs : List TableSpec} {rs : List Record}
    (h : Holds e tabs rs) {m : OrdMap Bytes Bytes}
    (hm : ∀ k, m.find k = value (layersOf tabs rs) k) (p : Bytes) :
    e.scan p = m.entries.filter fun kv => Bytes.startsWith kv.1 p := by
  have hasc : ∀ l ∈ layersOf tabs rs, Asc l := by
    intro l hl
    rcases List.mem_cons.mp hl with rfl | hl
    · exact (memOf rs).asc
    · obtain ⟨t, ht, rfl⟩ := List.mem_map.mp hl
      exact (h.stored.fits t ht).asc
  have hfold := foldl_tables (fun t => t.scan p)
    (fun es => es.filter fun e => Bytes.startsWith e.1 p)
    (fun t ht => (represents_readerOf (h.stored.fits t ht)).scan_eq p)
    (OrdMap.empty.emplaceAll (e.memtable.scan p))
  have hmerge := liveEntries_merge_filter hasc (fun k => Bytes.startsWith k p) m hm
  unfold StorageEngine.scan
  rw [h.tables]
  dsimp only
  rw [hfold, memtable_scan, h.mem, ← hmerge]
  simp only [liveEntries, merge, layersOf, List.map_cons, List.map_map, List.foldl_cons]
  rfl

lemma mergedTables_eq {e : StorageEngine} {tabs : List TableSpec} {rs : List Record}
    (h : Holds e tabs rs) : e.mergedTables = merge (tabs.map Prod.snd) := by
  unfold StorageEngine.mergedTables
  rw [h.tables, foldl_tables (fun t => t.readAll) id fun t ht =>
    (represents_readerOf (h.stored.fits t ht)).readAll_eq]
  rfl

lemma put_last {ν : Type*} {k : ℕ} {v : ν} {l : List (ℕ × ν)} (h : ∀ e ∈ l, e.1 < k) :
    put k v l = l ++ [(k, v)] := by
  induction l with
  | nil => rfl
  | cons e l ih =>
    have hlt := h e (by simp)
    rw [put, if_neg (by omega), if_neg (by omega), ih fun e he => h e (by simp [he])]
    rfl

lemma Stored.add {d : Disk} {tabs : List TableSpec} {rs : List Record} (h : Stored d tabs rs)
    {seq : ℕ} {es : List Entry} (hseq : ∀ t ∈ tabs, t.1 < seq) (hes : TableFits es)
    (tmp : OrdMap ℕ Bytes) :
    Stored ⟨d.wal, d.sst.insert seq (writeTable es), tmp⟩ ((seq, es) :: tabs) rs where
  wal := h.wal
  recs := h.recs
  sst := by
    show put seq (writeTable es) d.sst.entries = _
    rw [put_last, h.sst, List.map_cons, List.reverse_cons]
    intro f hf
    rw [h.sst, List.mem_reverse] at hf
    obtain ⟨t, ht, rfl⟩ := List.mem_map.mp hf
    exact hseq t ht
  fits := by
    intro t ht
    rcases List.mem_cons.mp ht with rfl | ht
    · exact hes
    · exact h.fits t ht

lemma Stored.desc {d : Disk} {tabs : List TableSpec} {rs : List Record} (h : Stored d tabs rs) :
    tabs.Pairwise fun a b => b.1 < a.1 := by
  have hasc := d.sst.asc
  rw [h.sst, Asc, List.pairwise_reverse, List.pairwise_map] at hasc
  exact hasc

lemma Stored.remove {d : Disk} {t₀ t : TableSpec} {tabs : List TableSpec} {rs : List Record}
    (h : Stored d (t₀ :: t :: tabs) rs) (tmp : OrdMap ℕ Bytes) :
    Stored ⟨d.wal, d.sst.erase t.1, tmp⟩ (t₀ :: tabs) rs where
  wal := h.wal
  recs := h.recs
  sst := by
    obtain ⟨h₀, hd⟩ := List.pairwise_cons.mp h.desc
    obtain ⟨hlt, -⟩ := List.pairwise_cons.mp hd
    have hne₀ : t₀.1 ≠ t.1 := (h₀ t (by simp)).ne'
    have hkeep : (tabs.map fun t => (t.1, writeTable t.2)).filter (fun f => f.1 ≠ t.1) =
        tabs.map fun t => (t.1, writeTable t.2) := by
      refine List.filter_eq_self.mpr fun f hf => ?_
      obtain ⟨t', ht', rfl⟩ := List.mem_map.mp hf
      simpa using (hlt t' ht').ne
    show d.sst.entries.filter (fun f => f.1 ≠ t.1) = _
    rw [h.sst, List.filter_reverse, List.map_cons, List.map_cons,
      List.filter_cons_of_pos (by simpa using hne₀), List.filter_cons_of_neg (by simp), hkeep,
      List.map_cons]
  fits := by
    intro t' ht'
    rcases List.mem_cons.mp ht' with rfl | ht'
    · exact h.fits _ (by simp)
    · exact h.fits t' (by simp [ht'])

lemma mapM_open {tabs : List TableSpec} (hfits : ∀ t ∈ tabs, TableFits t.2) :
    (tabs.map fun t => (t.1, writeTable t.2)).mapM (m := Except OpenError) (fun f => do
      let reader ← SSTableReader.openTable f.2
      return (⟨f.1, reader⟩ : Table)) = .ok (tabs.map fun t => ⟨t.1, readerOf t.2⟩) := by
  induction tabs with
  | nil => rfl
  | cons t tabs ih =>
    rw [List.map_cons, List.mapM_cons, openTable_of_fits (hfits t (by simp)),
      ih fun t ht => hfits t (by simp [ht])]
    rfl

lemma le_foldl_max (l : List (ℕ × Bytes)) (n : ℕ) :
    n ≤ l.foldl (fun n f => max n (f.1 + 1)) n ∧
      ∀ f ∈ l, f.1 < l.foldl (fun n f => max n (f.1 + 1)) n := by
  induction l generalizing n with
  | nil => simp
  | cons f l ih =>
    obtain ⟨h1, h2⟩ := ih (max n (f.1 + 1))
    refine ⟨(le_max_left _ _).trans h1, fun f' hf' => ?_⟩
    rcases List.mem_cons.mp hf' with rfl | hf'
    · exact lt_of_lt_of_le (Nat.lt_succ_self _) ((le_max_right _ _).trans h1)
    · exact h2 f' hf'

/-- **Opening a directory** gives an engine that holds what the directory holds. -/
theorem openEngine_holds {d : Disk} {tabs : List TableSpec} {rs : List Record}
    (h : Stored d tabs rs) : ∃ e, openEngine d = .ok e ∧ Holds e tabs rs := by
  have hreplayed : (openFile d.wal).replayed = rs := by
    have := replayed_encodeAll (fun r hr => (h.recs r hr).fits) readRecord_nil d.wal.length
    rwa [List.append_nil, ← h.wal] at this
  refine ⟨_, by rw [openEngine, h.sst, List.reverse_reverse, mapM_open h.fits]; rfl, ?_⟩
  refine ⟨⟨h.wal, h.recs, h.sst, h.fits⟩, rfl, ?_, rfl, ?_⟩
  · rw [hreplayed]; rfl
  · intro t ht
    have hmem : (t.1, writeTable t.2) ∈ d.sst.entries := by
      rw [h.sst, List.mem_reverse]
      exact List.mem_map.mpr ⟨t, ht, rfl⟩
    have hlt := (le_foldl_max d.sst.entries 1).2 _ hmem
    rwa [h.sst] at hlt

/-! ### Writing -/

/-- The entry a record leaves in the memtable. -/
def entryOf (r : Record) : Option Bytes := if r.type = kPut then some r.value else none

lemma replay_eq (m : Memtable) (r : Record) : m.replay r = m.insert r.key (entryOf r) := by
  unfold Memtable.replay entryOf Memtable.put Memtable.delete
  split <;> rfl

lemma memOf_fits {rs : List Record} (h : ∀ r ∈ rs, RecordOk r) :
    ∀ e ∈ (memOf rs).entries, EntryFits e := by
  induction rs using List.reverseRecOn with
  | nil => simp [memOf]
  | append_singleton rs r ih =>
    intro e he
    rw [memOf_append, replay_eq] at he
    rcases mem_put he with rfl | he
    · have hr := h r (by simp)
      refine ⟨hr.key, fun v hv => ?_⟩
      simp only [entryOf] at hv
      split at hv
      · cases hv; exact hr.value
      · cases hv
    · exact ih (fun r hr => h r (by simp [hr])) e he

/-- The engine after the log and the memtable have a record. -/
def logged (e : StorageEngine) (r : Record) : StorageEngine :=
  { e with wal := e.wal.appendRecord r, memtable := e.memtable.replay r }

lemma Holds.logged {e : StorageEngine} {tabs : List TableSpec} {rs : List Record}
    (h : Holds e tabs rs) {r : Record} (hr : RecordOk r) :
    Holds (logged e r) tabs (rs ++ [r]) := by
  have hwal : e.wal = ⟨encodeAll rs, (encodeAll rs).length⟩ := by
    have h1 : e.wal.file = encodeAll rs := h.stored.wal
    have h2 := h.pos
    rw [h1] at h2
    cases hw : e.wal; simp_all
  have happ : (EngineInv.logged e r).wal =
      ⟨encodeAll (rs ++ [r]), (encodeAll (rs ++ [r])).length⟩ := by
    simp only [EngineInv.logged, hwal, appendRecord_at_end, encodeAll_append, encodeAll_singleton]
  refine ⟨⟨?_, ?_, h.stored.sst, h.stored.fits⟩, ?_, ?_, h.tables, h.next⟩
  · show (EngineInv.logged e r).wal.file = _
    rw [happ]
  · intro r' hr'
    rcases List.mem_append.mp hr' with hr' | hr'
    · exact h.stored.recs r' hr'
    · rw [List.mem_singleton.mp hr']; exact hr
  · rw [happ]
  · simp only [EngineInv.logged, h.mem, memOf_append]

lemma value_logged (tabs : List TableSpec) (rs : List Record) (r : Record) (k : Bytes) :
    value (layersOf tabs (rs ++ [r])) k =
      if k = r.key then entryOf r else value (layersOf tabs rs) k := by
  have hfind := find_insert (memOf rs) r.key k (entryOf r)
  simp only [find] at hfind
  simp only [layersOf, value, top, memOf_append, replay_eq, hfind]
  by_cases hk : k = r.key
  · simp [hk]
  · simp [hk]

lemma value_flushed (tabs : List TableSpec) (rs : List Record) (seq : ℕ) (k : Bytes) :
    value (layersOf ((seq, (memOf rs).entries) :: tabs) []) k = value (layersOf tabs rs) k := by
  simp only [layersOf, value, top, List.map_cons]
  rfl

lemma value_flushRename (tabs : List TableSpec) (rs : List Record) (seq : ℕ) (k : Bytes) :
    value (layersOf ((seq, (memOf rs).entries) :: tabs) rs) k = value (layersOf tabs rs) k := by
  simp only [layersOf, value, top, List.map_cons]
  cases look k (memOf rs).entries <;> rfl

end DistDB.EngineInv
