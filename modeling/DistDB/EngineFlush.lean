import DistDB.EngineInv

/-!
What a write leaves on disk, write by write: the content of the directory after each of
the durable writes of a flush and of the compaction behind it (`leaves`), and the content
of the engine when the call returns (`settled`).

None of them changes what a key holds, with one exception: once the merged table has
dropped a tombstone, the tables it was merged from must not come up again under it
(`value_leaves`).
-/

namespace DistDB.EngineFlush

open SstModel WalModel WriteAheadLog EngineModel EngineInv Layers OrdMap

/-- What a directory holds: its tables, newest first, and the records of its log. -/
abbrev Content := List TableSpec × List Record

def Content.value (c : Content) (k : Bytes) : Option Bytes := Layers.value (layersOf c.1 c.2) k

/-- The table that a compaction of everything writes. -/
def compacted (c : Content) : List Entry := compact (layersOf c.1 c.2)

/-- The table that a flush writes. -/
def flushed (c : Content) : List Entry := (memOf c.2).entries

/-- The content after the write `p`, of a call that finds `c` once it has logged. -/
def leaves (c : Content) (seq : ℕ) : Point → Content
  | .logged | .flushTmp => c
  | .flushRename => ((seq, flushed c) :: c.1, c.2)
  | .walReset | .compactTmp => ((seq, flushed c) :: c.1, [])
  | .compactRename => ((seq + 1, compacted c) :: (seq, flushed c) :: c.1, [])
  | .removed n => ((seq + 1, compacted c) :: ((seq, flushed c) :: c.1).drop n, [])

/-- The content when the call returns. -/
def settled (c : Content) (seq : ℕ) : Content :=
  if (memOf c.2).size < kMemtableFlushThreshold then c
  else if c.1.length + 1 < kCompactionTriggerCount then ((seq, flushed c) :: c.1, [])
  else ([(seq + 1, compacted c)], [])

/-- The tables a call may have to write fit their format. -/
def FlushFits (c : Content) : Prop := TableFits (flushed c) ∧ TableFits (compacted c)

lemma removals_spec {t₀ : TableSpec} {rs : List Record} (olds : List TableSpec)
    (e : StorageEngine) (n : ℕ) (h : Stored e.disk (t₀ :: olds) rs) :
    (∃ sst, (e.removals n (olds.map Prod.fst)).2 = { e with sst := sst } ∧
      Stored ⟨e.wal.file, sst, e.tmp⟩ [t₀] rs) ∧
    ∀ i ∈ (e.removals n (olds.map Prod.fst)).1,
      ∃ j, i.1 = .removed (n + j) ∧ Stored i.2 (t₀ :: olds.drop j) rs := by
  induction olds generalizing e n with
  | nil => exact ⟨⟨e.sst, rfl, h⟩, by simp [StorageEngine.removals]⟩
  | cons t olds ih =>
    have hrem : Stored (StorageEngine.disk { e with sst := e.sst.erase t.1 }) (t₀ :: olds) rs :=
      h.remove e.tmp
    obtain ⟨⟨sst, hout, hsst⟩, himages⟩ := ih { e with sst := e.sst.erase t.1 } (n + 1) hrem
    refine ⟨⟨sst, ?_, hsst⟩, fun i hi => ?_⟩
    · simp only [List.map_cons, StorageEngine.removals, hout]
    · rw [List.map_cons, StorageEngine.removals] at hi
      rcases List.mem_cons.mp hi with rfl | hi
      · exact ⟨1, rfl, hrem⟩
      · obtain ⟨j, hj, hst⟩ := himages i hi
        exact ⟨j + 1, by rw [hj]; congr 1; omega, hst⟩

lemma removals_out (olds : List ℕ) (e : StorageEngine) (n : ℕ) :
    ∃ sst, (e.removals n olds).2 = { e with sst := sst } := by
  induction olds generalizing e n with
  | nil => exact ⟨e.sst, rfl⟩
  | cons t olds ih =>
    obtain ⟨sst, h⟩ := ih { e with sst := e.sst.erase t } (n + 1)
    exact ⟨sst, by rw [StorageEngine.removals]; exact h⟩

/-- The engine with a new table in a temporary file. -/
def withTmp (e : StorageEngine) (es : List Entry) : StorageEngine :=
  { e with nextSeq := e.nextSeq + 1, tmp := e.tmp.insert e.nextSeq (writeTable es) }

/-- The engine with the new table in its place. -/
def withTable (e : StorageEngine) (es : List Entry) : StorageEngine :=
  { withTmp e es with
    tmp := (e.tmp.insert e.nextSeq (writeTable es)).erase e.nextSeq
    sst := e.sst.insert e.nextSeq (writeTable es) }

lemma stored_withTmp {e : StorageEngine} {tabs : List TableSpec} {rs : List Record}
    (h : Holds e tabs rs) (es : List Entry) : Stored (withTmp e es).disk tabs rs :=
  ⟨h.stored.wal, h.stored.recs, h.stored.sst, h.stored.fits⟩

lemma stored_withTable {e : StorageEngine} {tabs : List TableSpec} {rs : List Record}
    (h : Holds e tabs rs) {es : List Entry} (hes : TableFits es) :
    Stored (withTable e es).disk ((e.nextSeq, es) :: tabs) rs :=
  h.stored.add h.next hes _

lemma maybeCompact_eq {e : StorageEngine} {tabs : List TableSpec} (h : Holds e tabs [])
    (htrig : kCompactionTriggerCount ≤ tabs.length) {es : List Entry}
    (hes : compact (tabs.map Prod.snd) = es) {reader : SSTableReader}
    (hopen : SSTableReader.openTable (writeTable es) = .ok reader) :
    e.maybeCompact =
      ((.compactTmp, (withTmp e es).disk) :: (.compactRename, (withTable e es).disk) ::
        (({ withTable e es with sstables := [⟨e.nextSeq, reader⟩] } : StorageEngine).removals 0
          (tabs.map Prod.fst)).1,
        .ok (({ withTable e es with sstables := [⟨e.nextSeq, reader⟩] } :
          StorageEngine).removals 0
          (tabs.map Prod.fst)).2) := by
  have hfile : e.mergedTables.entries.filter (fun kv => kv.2.isSome) = es := by
    rw [mergedTables_eq h]; exact hes
  have hlen : e.sstables.length = tabs.length := by rw [h.tables, List.length_map]
  have hseqs : e.sstables.map Table.seq = tabs.map Prod.fst := by
    rw [h.tables, List.map_map]; rfl
  unfold StorageEngine.maybeCompact
  rw [if_neg (by omega)]
  simp only [hfile, hopen, hseqs]
  rfl

/-- **`MaybeCompact`** on an engine whose memtable has just been flushed. -/
lemma maybeCompact_spec {e : StorageEngine} {tabs : List TableSpec} (h : Holds e tabs [])
    (htrig : kCompactionTriggerCount ≤ tabs.length) {es : List Entry}
    (hes : compact (tabs.map Prod.snd) = es) (hfits : TableFits es) :
    (∃ e', e.maybeCompact.2 = .ok e' ∧ Holds e' [(e.nextSeq, es)] []) ∧
    ∀ i ∈ e.maybeCompact.1,
      (i.1 = .compactTmp ∧ Stored i.2 tabs []) ∨
      (i.1 = .compactRename ∧ Stored i.2 ((e.nextSeq, es) :: tabs) []) ∨
      ∃ j, i.1 = .removed j ∧ Stored i.2 ((e.nextSeq, es) :: tabs.drop j) [] := by
  have hst := stored_withTable h hfits
  obtain ⟨⟨sst, hout, hsst⟩, himages⟩ := removals_spec tabs
    { withTable e es with sstables := [⟨e.nextSeq, readerOf es⟩] } 0 hst
  rw [maybeCompact_eq h htrig hes (openTable_of_fits hfits)]
  refine ⟨⟨_, rfl, ?_⟩, fun i hi => ?_⟩
  · rw [hout]
    refine ⟨hsst, h.pos, h.mem, rfl, fun t ht => ?_⟩
    rw [List.mem_singleton.mp ht]
    exact Nat.lt_succ_self _
  · rcases List.mem_cons.mp hi with rfl | hi
    · exact .inl ⟨rfl, stored_withTmp h es⟩
    rcases List.mem_cons.mp hi with rfl | hi
    · exact .inr (.inl ⟨rfl, hst⟩)
    · obtain ⟨j, hj, hst⟩ := himages i hi
      exact .inr (.inr ⟨j, by rw [hj, Nat.zero_add], hst⟩)

/-! ### A write -/

/-- The engine once its memtable is a table and its log is reset. -/
def flushedEngine (e : StorageEngine) (es : List Entry) : StorageEngine :=
  { withTable e es with
    sstables := ⟨e.nextSeq, readerOf es⟩ :: e.sstables
    memtable := .empty
    wal := e.wal.reset }

lemma flushedEngine_holds {e : StorageEngine} {tabs : List TableSpec} {rs : List Record}
    (h : Holds e tabs rs) {es : List Entry} (hes : TableFits es) :
    Holds (flushedEngine e es) ((e.nextSeq, es) :: tabs) [] := by
  have hst := stored_withTable h hes
  refine ⟨⟨rfl, by simp, hst.sst, hst.fits⟩, rfl, rfl, ?_, fun t ht => ?_⟩
  · simp [flushedEngine, h.tables]
  · rcases List.mem_cons.mp ht with rfl | ht
    · exact Nat.lt_succ_self _
    · exact (h.next t ht).trans (Nat.lt_succ_self _)

lemma flushMemtable_eq {e : StorageEngine} {c : Content} (h : Holds e c.1 c.2)
    (hne : (memOf c.2).size ≠ 0) (hfits : TableFits (flushed c)) :
    e.flushMemtable =
      ((.flushTmp, (withTmp e (flushed c)).disk) ::
        (.flushRename, (withTable e (flushed c)).disk) ::
        (.walReset, (flushedEngine e (flushed c)).disk) ::
        (flushedEngine e (flushed c)).maybeCompact.1,
        (flushedEngine e (flushed c)).maybeCompact.2) := by
  have hentries : e.memtable.entries = flushed c := by rw [h.mem]; rfl
  unfold StorageEngine.flushMemtable
  rw [if_neg (by rw [h.mem]; exact hne)]
  simp only [hentries, openTable_of_fits hfits]
  rfl

lemma flushIfFull_eq {e : StorageEngine} {c : Content} (h : Holds e c.1 c.2)
    (hfull : kMemtableFlushThreshold ≤ (memOf c.2).size) :
    e.flushIfFull = ((.logged, e.disk) :: e.flushMemtable.1, e.flushMemtable.2) := by
  unfold StorageEngine.flushIfFull
  rw [if_pos (by rw [h.mem]; exact hfull)]

/-- **What a write leaves**: every durable write of the call leaves the content `leaves`
says, and the call returns with the content `settled`. -/
theorem flushIfFull_spec {e : StorageEngine} {c : Content} (h : Holds e c.1 c.2)
    (hfits : FlushFits c) :
    (∃ e', e.flushIfFull.2 = .ok e' ∧
      Holds e' (settled c e.nextSeq).1 (settled c e.nextSeq).2) ∧
    ∀ i ∈ e.flushIfFull.1,
      Stored i.2 (leaves c e.nextSeq i.1).1 (leaves c e.nextSeq i.1).2 := by
  obtain ⟨hflush, hcompact⟩ := hfits
  unfold settled
  by_cases hfull : (memOf c.2).size < kMemtableFlushThreshold
  · have hnone : e.flushIfFull = ([(.logged, e.disk)], .ok e) := by
      unfold StorageEngine.flushIfFull
      rw [if_neg (by rw [h.mem]; exact not_le.mpr hfull)]
    rw [hnone, if_pos hfull]
    refine ⟨⟨e, rfl, h⟩, fun i hi => ?_⟩
    obtain rfl := List.mem_singleton.mp hi
    exact h.stored
  have hne : (memOf c.2).size ≠ 0 := fun h0 => hfull (by rw [h0]; decide)
  have hholds := flushedEngine_holds h hflush
  rw [flushIfFull_eq h (not_lt.mp hfull), flushMemtable_eq h hne hflush, if_neg hfull]
  by_cases htrig : c.1.length + 1 < kCompactionTriggerCount
  · have hnone : (flushedEngine e (flushed c)).maybeCompact =
        ([], .ok (flushedEngine e (flushed c))) := by
      unfold StorageEngine.maybeCompact
      rw [if_pos]
      rw [hholds.tables, List.length_map]; exact htrig
    rw [hnone, if_pos htrig]
    refine ⟨⟨_, rfl, hholds⟩, fun i hi => ?_⟩
    simp only [List.mem_cons, List.not_mem_nil, or_false] at hi
    rcases hi with rfl | rfl | rfl | rfl
    exacts [h.stored, stored_withTmp h _, stored_withTable h hflush, hholds.stored]
  · rw [if_neg htrig]
    obtain ⟨hout, himages⟩ := maybeCompact_spec hholds (not_lt.mp htrig) rfl hcompact
    refine ⟨hout, fun i hi => ?_⟩
    simp only [List.mem_cons] at hi
    rcases hi with rfl | rfl | rfl | rfl | hi
    · exact h.stored
    · exact stored_withTmp h _
    · exact stored_withTable h hflush
    · exact hholds.stored
    · obtain ⟨p, d⟩ := i
      rcases himages (p, d) hi with ⟨rfl, hst⟩ | ⟨rfl, hst⟩ | ⟨j, rfl, hst⟩
      exacts [hst, hst, hst]

lemma flushIfFull_compacts {e : StorageEngine} {c : Content} (h : Holds e c.1 c.2)
    (hfull : kMemtableFlushThreshold ≤ (memOf c.2).size)
    (htrig : kCompactionTriggerCount ≤ c.1.length + 1) (hflush : TableFits (flushed c))
    {reader : SSTableReader}
    (hopen : SSTableReader.openTable (writeTable (compacted c)) = .ok reader) :
    ∃ e', e.flushIfFull.2 = .ok e' ∧ e'.memtable = .empty ∧
      ∃ seq, e'.sstables = [⟨seq, reader⟩] := by
  have hne : (memOf c.2).size ≠ 0 := fun h0 => by rw [h0] at hfull; exact absurd hfull (by decide)
  rw [flushIfFull_eq h hfull, flushMemtable_eq h hne hflush,
    maybeCompact_eq (flushedEngine_holds h hflush) htrig rfl hopen]
  obtain ⟨sst, hout⟩ := removals_out _ _ 0
  exact ⟨_, rfl, by rw [hout]; rfl, _, by rw [hout]⟩

lemma value_nil_log (tabs : List TableSpec) (k : Bytes) :
    Content.value (tabs, []) k = Layers.value (tabs.map Prod.snd) k := by
  simp only [Content.value, layersOf, Layers.value, top]
  rfl

/-- Once the merged table is there without some of the tables it was made from, a key
without a value must not have one in those that remain. -/
def PointOk (c : Content) : Point → Prop
  | .removed n => ∀ k, c.value k = none → Layers.value ((layersOf c.1 c.2).drop n) k = none
  | _ => True

/-- **A crash changes no key**, at any point that meets `PointOk`. -/
theorem value_leaves {c : Content} {p : Point} (hp : PointOk c p) (seq : ℕ) (k : Bytes) :
    (leaves c seq p).value k = c.value k := by
  obtain ⟨tabs, rs⟩ := c
  have hlayers : ((seq, flushed (tabs, rs)) :: tabs).map Prod.snd = layersOf tabs rs := rfl
  cases p with
  | logged | flushTmp => rfl
  | flushRename => exact value_flushRename tabs rs seq k
  | walReset | compactTmp => exact value_flushed tabs rs seq k
  | compactRename =>
    rw [leaves, value_nil_log, List.map_cons, hlayers]
    exact value_compact_cons id
  | removed n =>
    rw [leaves, value_nil_log, List.map_cons, List.map_drop, hlayers]
    exact value_compact_cons (hp k)

theorem value_settled (c : Content) (seq : ℕ) (k : Bytes) :
    (settled c seq).value k = c.value k := by
  unfold settled
  split_ifs
  · rfl
  · exact value_flushed c.1 c.2 seq k
  · rw [value_nil_log]; exact value_compact _ k

end DistDB.EngineFlush
