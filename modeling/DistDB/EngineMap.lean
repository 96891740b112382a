import Mathlib.Algebra.Order.BigOperators.Group.List
import Mathlib.Data.List.Infix
import DistDB.EngineFlush

/-!
The engine is a map: after any puts, deletes and resets it answers `Get` and `Scan` as a
plain ordered map does (`get_scan_plain`).

The one limit is the file format. A footer has four bytes for the entry count and eight
for the index offset, and nothing checks that they are enough. A compaction that finds
`2 ^ 32` live pairs writes the count zero, and every key is gone (`entry_count_wraps`).
-/

namespace DistDB.EngineMap

open SstModel WalModel EngineModel EngineInv EngineFlush OrdMap

/-- What the engine is for. -/
abbrev PlainMap := OrdMap Bytes Bytes

def applyTo (m : PlainMap) : Mutation → PlainMap
  | .put key value => m.insert key value
  | .delete key => m.erase key

/-- The key and the value are shorter than `2 ^ 32 - 1` bytes. -/
structure Sizes (mu : Mutation) : Prop where
  key : mu.record.key.length < 2 ^ 32 - 1
  value : mu.record.value.length < 2 ^ 32 - 1

/-- The entries of a table that holds a plain map. -/
def tableOf (m : PlainMap) : List Entry := m.entries.map fun kv => (kv.1, some kv.2)

/-- A table of these entries fits the counters of its footer. -/
structure Room (es : List Entry) : Prop where
  count : es.length < 2 ^ 32
  data : (dataBlock es).length < 2 ^ 64

instance decidableRoom (es : List Entry) : Decidable (Room es) :=
  decidable_of_iff (es.length < 2 ^ 32 ∧ (dataBlock es).length < 2 ^ 64)
    ⟨fun h => ⟨h.1, h.2⟩, fun h => ⟨h.count, h.data⟩⟩

instance decidableSizes (mu : Mutation) : Decidable (Sizes mu) :=
  decidable_of_iff
    (mu.record.key.length < 2 ^ 32 - 1 ∧ mu.record.value.length < 2 ^ 32 - 1)
    ⟨fun h => ⟨h.1, h.2⟩, fun h => ⟨h.key, h.value⟩⟩
/-- Every pair of the map is shorter than `2 ^ 32 - 1` bytes on both sides. -/
def PairSizes (m : PlainMap) : Prop :=
  ∀ k v, m.find k = some v → k.length < 2 ^ 32 - 1 ∧ v.length < 2 ^ 32 - 1

lemma find_applyTo (m : PlainMap) (mu : Mutation) (k : Bytes) :
    (applyTo m mu).find k = if k = mu.record.key then entryOf mu.record else m.find k := by
  cases mu with
  | put key value => simp [applyTo, find_insert, Mutation.record, entryOf]
  | delete key => simp [applyTo, find_erase, Mutation.record, entryOf, kDelete, kPut]

lemma pairSizes_applyTo {m : PlainMap} (hm : PairSizes m) {mu : Mutation} (hs : Sizes mu) :
    PairSizes (applyTo m mu) := by
  intro k v hkv
  rw [find_applyTo] at hkv
  split at hkv
  case isTrue h =>
    subst h
    refine ⟨hs.key, ?_⟩
    unfold entryOf at hkv
    split at hkv
    · cases hkv; exact hs.value
    · cases hkv
  case isFalse => exact hm k v hkv

lemma asc_tableOf (m : PlainMap) : Asc (tableOf m) := by
  rw [tableOf, Asc, List.pairwise_map]
  exact m.asc

lemma look_map_some {l : List (Bytes × Bytes)} (k : Bytes) :
    look k (l.map fun kv => (kv.1, some kv.2)) = (look k l).map some := by
  induction l with
  | nil => rfl
  | cons kv l ih =>
    rw [List.map_cons, look, look, ih]
    split <;> rfl

lemma tableFits_tableOf {m : PlainMap} (hm : PairSizes m) (hr : Room (tableOf m)) :
    TableFits (tableOf m) where
  asc := asc_tableOf m
  entries := by
    intro e he
    obtain ⟨⟨k, v⟩, hkv, rfl⟩ := List.mem_map.mp he
    obtain ⟨hk, hv⟩ := hm k v (m.mem_entries.mp hkv)
    exact ⟨hk.trans (by norm_num), fun w hw => by cases hw; exact hv⟩
  count := hr.count
  data := hr.data

/-- The engine has the content `c`, which holds the pairs of `m`. -/
structure Models (e : StorageEngine) (c : Content) (m : PlainMap) : Prop where
  holds : Holds e c.1 c.2
  agrees : ∀ k, m.find k = c.value k
  sizes : PairSizes m

/-- `Get` and `Scan` answer as the map does. -/
structure Answers (e : StorageEngine) (m : PlainMap) : Prop where
  get : ∀ k, e.get k = m.find k
  scan : ∀ p, e.scan p = m.entries.filter fun kv => Bytes.startsWith kv.1 p

theorem Models.answers {e : StorageEngine} {c : Content} {m : PlainMap} (h : Models e c m) :
    Answers e m where
  get k := (get_eq h.holds k).trans (h.agrees k).symm
  scan p := scan_eq h.holds h.agrees p

lemma compacted_eq {c : Content} {m : PlainMap} (hm : ∀ k, m.find k = c.value k) :
    compacted c = tableOf m := by
  refine asc_ext (Layers.asc_compact _) (asc_tableOf m) fun k => ?_
  have hvalue : look k (compacted c) = (c.value k).map some := by
    rw [compacted, Layers.look_compact, Content.value, Layers.value]
    rcases Layers.top (layersOf c.1 c.2) k with _ | _ | v <;> rfl
  calc look k (compacted c) = (c.value k).map some := hvalue
    _ = (look k m.entries).map some := congrArg _ (hm k).symm
    _ = look k (tableOf m) := (look_map_some k).symm

lemma recordOk {mu : Mutation} (hs : Sizes mu) : RecordOk mu.record where
  key := hs.key.trans (by norm_num)
  value := hs.value
  del := by cases mu <;> simp [Mutation.record, kPut, kDelete]

/-- A `Put` or a `Delete`. -/
def mutate (e : StorageEngine) : Mutation → Outcome
  | .put key value => e.put key value
  | .delete key => e.delete key

lemma mutate_eq (e : StorageEngine) (mu : Mutation) :
    mutate e mu = (logged e mu.record).flushIfFull := by
  cases mu <;> rfl

/-- The content once `mu` is in the log. -/
def afterLog (c : Content) (mu : Mutation) : Content := (c.1, c.2 ++ [mu.record])

lemma value_afterLog {c : Content} {m : PlainMap} (hm : ∀ k, m.find k = c.value k)
    (mu : Mutation) (k : Bytes) : (applyTo m mu).find k = (afterLog c mu).value k := by
  rw [find_applyTo, hm]
  exact (value_logged c.1 c.2 mu.record k).symm

/-- **A put or a delete** does to the engine what it does to the plain map, and leaves the
contents `leaves` on the way. -/
theorem mutate_spec {e : StorageEngine} {c : Content} {m : PlainMap} (h : Models e c m)
    {mu : Mutation} (hs : Sizes mu) (hmem : Room (flushed (afterLog c mu)))
    (hmap : Room (tableOf (applyTo m mu))) :
    (∃ e', (mutate e mu).2 = .ok e' ∧
      Models e' (settled (afterLog c mu) e.nextSeq) (applyTo m mu)) ∧
    ∀ i ∈ (mutate e mu).1,
      Stored i.2 (leaves (afterLog c mu) e.nextSeq i.1).1
        (leaves (afterLog c mu) e.nextSeq i.1).2 := by
  have hholds : Holds (logged e mu.record) (afterLog c mu).1 (afterLog c mu).2 :=
    h.holds.logged (recordOk hs)
  have hagrees := value_afterLog h.agrees mu
  have hsizes := pairSizes_applyTo h.sizes hs
  have hfits : FlushFits (afterLog c mu) := by
    constructor
    · exact ⟨(memOf _).asc, memOf_fits hholds.stored.recs, hmem.count, hmem.data⟩
    · rw [compacted_eq hagrees]
      exact tableFits_tableOf hsizes hmap
  obtain ⟨⟨e', hout, hholds'⟩, himages⟩ := flushIfFull_spec hholds hfits
  rw [mutate_eq]
  refine ⟨⟨e', hout, hholds', fun k => ?_, hsizes⟩, himages⟩
  exact (hagrees k).trans (value_settled _ _ k).symm

lemma size_insert_le {ν : Type*} (m : OrdMap Bytes ν) (k : Bytes) (v : ν) :
    (m.insert k v).size ≤ m.size + 1 := by
  show (put k v m.entries).length ≤ m.entries.length + 1
  induction m.entries with
  | nil => rfl
  | cons e l ih =>
    rw [put]
    split_ifs
    · rfl
    · simp
    · simpa using ih

lemma length_dataBlock_le {es : List Entry} {n : ℕ}
    (h : ∀ e ∈ es, (encodeEntry e).length ≤ n) : (dataBlock es).length ≤ es.length * n := by
  rw [dataBlock, List.length_flatMap, ← List.length_map (f := fun e => (encodeEntry e).length)]
  refine List.sum_le_card_nsmul _ _ fun n hn => ?_
  obtain ⟨e, he, rfl⟩ := List.mem_map.mp hn
  exact h e he

lemma length_encodeEntry_le {e : Entry} (h : EntryFits e) : (encodeEntry e).length ≤ 2 ^ 34 := by
  obtain ⟨k, v⟩ := e
  obtain ⟨hk, hv⟩ := h
  simp only at hk
  rcases v with _ | v
  · simp only [encodeEntry, encodeValue, List.length_append, Bytes.length_le]; omega
  · have := hv v rfl
    simp only [encodeEntry, encodeValue, List.length_append, Bytes.length_le]; omega

/-- A write never meets a memtable that is already full. -/
def Small (c : Content) : Prop := (memOf c.2).size < kMemtableFlushThreshold

lemma size_afterLog_le (c : Content) (mu : Mutation) :
    (memOf (afterLog c mu).2).size ≤ (memOf c.2).size + 1 := by
  rw [afterLog, memOf_append, replay_eq]
  exact size_insert_le _ _ _

lemma small_settled (c : Content) (seq : ℕ) : Small (settled c seq) := by
  unfold settled
  split_ifs with h
  · exact h
  · exact (by decide : (memOf []).size < kMemtableFlushThreshold)
  · exact (by decide : (memOf []).size < kMemtableFlushThreshold)

lemma room_of_small {c : Content} (hc : Small c) {mu : Mutation} (hs : Sizes mu)
    (hrecs : ∀ r ∈ c.2, RecordOk r) : Room (flushed (afterLog c mu)) := by
  have hrecs' : ∀ r ∈ (afterLog c mu).2, RecordOk r := by
    intro r hr
    rcases List.mem_append.mp hr with hr | hr
    · exact hrecs r hr
    · rw [List.mem_singleton.mp hr]; exact recordOk hs
  have hle := size_afterLog_le c mu
  have hlen : (flushed (afterLog c mu)).length ≤ 4 := by
    have hsmall : (memOf c.2).size < 4 := hc
    have : (flushed (afterLog c mu)).length = (memOf (afterLog c mu).2).size := rfl
    omega
  have hdata : (dataBlock (flushed (afterLog c mu))).length ≤ _ :=
    length_dataBlock_le fun e he => length_encodeEntry_le (memOf_fits hrecs' e he)
  exact ⟨by omega, by omega⟩

lemma foldl_erase_entries (l : List ℕ) (m : OrdMap ℕ Bytes) :
    (l.foldl erase m).entries = m.entries.filter fun f => f.1 ∉ l := by
  induction l generalizing m with
  | nil => simp
  | cons n l ih =>
    rw [List.foldl_cons, ih, erase, List.filter_filter]
    exact List.filter_congr fun f _ => by simp [not_or, Bool.and_comm]

lemma reset_models {e : StorageEngine} {c : Content} {m : PlainMap} (h : Models e c m) :
    Models e.reset ([], []) .empty := by
  refine ⟨⟨⟨rfl, by simp, ?_, by simp⟩, rfl, rfl, rfl, by simp⟩, fun k => rfl, ?_⟩
  · show ((e.sstables.map Table.seq).foldl erase e.sst).entries = []
    have hsst : e.sst.entries = _ := h.holds.stored.sst
    rw [foldl_erase_entries, hsst, List.filter_eq_nil_iff]
    intro f hf
    obtain ⟨t, ht, rfl⟩ := List.mem_map.mp (List.mem_reverse.mp hf)
    have hmem : t.1 ∈ e.sstables.map Table.seq := by
      rw [h.holds.tables, List.map_map]
      exact List.mem_map.mpr ⟨t, ht, rfl⟩
    simpa using hmem
  · intro k v hkv
    simp at hkv

/-! ### Runs -/

inductive Op
  | write (mu : Mutation)
  | reset

def step (e : StorageEngine) : Op → Except OpenError StorageEngine
  | .write mu => (mutate e mu).2
  | .reset => .ok e.reset

/-- The engine after the operations, from an empty directory. -/
def run (ops : List Op) : Except OpenError StorageEngine :=
  openEngine emptyDisk >>= fun e => ops.foldlM step e

def plainStep (m : PlainMap) : Op → PlainMap
  | .write mu => applyTo m mu
  | .reset => .empty

/-- The plain map after the operations. -/
def plain (ops : List Op) : PlainMap := ops.foldl plainStep .empty

lemma run_append (ops : List Op) (op : Op) : run (ops ++ [op]) = run ops >>= (step · op) := by
  unfold run
  cases openEngine emptyDisk with
  | error err => rfl
  | ok e =>
    show List.foldlM step e (ops ++ [op]) = List.foldlM step e ops >>= (step · op)
    rw [List.foldlM_append]
    congr 1
    funext e'
    exact bind_pure (step e' op)

lemma plain_append (ops : List Op) (op : Op) : plain (ops ++ [op]) = plainStep (plain ops) op := by
  simp [plain, List.foldl_append]

lemma run_nil : ∃ e, run [] = .ok e ∧ Models e ([], []) .empty := by
  have hst : Stored emptyDisk [] [] := ⟨rfl, by simp, rfl, by simp⟩
  obtain ⟨e, he, hholds⟩ := openEngine_holds hst
  refine ⟨e, by rw [run, he]; rfl, hholds, fun k => rfl, fun k v hkv => ?_⟩
  simp at hkv

/-- What the operations of a run must keep to. -/
structure RunFits (ops : List Op) : Prop where
  sizes : ∀ mu, Op.write mu ∈ ops → Sizes mu
  room : ∀ ops', ops' <+: ops → Room (tableOf (plain ops'))

lemma RunFits.init {ops : List Op} {op : Op} (h : RunFits (ops ++ [op])) : RunFits ops where
  sizes mu hmu := h.sizes mu (by simp [hmu])
  room ops' hp := h.room ops' (hp.trans (List.prefix_append _ _))

lemma run_models {ops : List Op} (h : RunFits ops) :
    ∃ e c, run ops = .ok e ∧ Models e c (plain ops) ∧ Small c := by
  induction ops using List.reverseRecOn with
  | nil =>
    obtain ⟨e, he, hm⟩ := run_nil
    exact ⟨e, _, he, hm, by unfold Small; decide⟩
  | append_singleton ops op ih =>
    obtain ⟨e, c, he, hm, hc⟩ := ih h.init
    rw [run_append, plain_append, he]
    cases op with
    | reset =>
      exact ⟨_, _, rfl, reset_models hm, by unfold Small; decide⟩
    | write mu =>
      have hs : Sizes mu := h.sizes mu (by simp)
      have hroom : Room (tableOf (applyTo (plain ops) mu)) := by
        have := h.room _ List.prefix_rfl
        rwa [plain_append] at this
      obtain ⟨⟨e', hout, hm'⟩, -⟩ :=
        mutate_spec hm hs (room_of_small hc hs hm.holds.stored.recs) hroom
      exact ⟨e', _, hout, hm', small_settled _ _⟩

/-- **The engine is a map**, as long as no table it may have to write outgrows the counters
of its footer: the run does not fail, and `Get` and `Scan` answer as the plain map does. -/
theorem get_scan_plain (ops : List Op) (h : RunFits ops) :
    ∃ e, run ops = .ok e ∧ Answers e (plain ops) := by
  obtain ⟨e, c, he, hm, -⟩ := run_models h
  exact ⟨e, he, hm.answers⟩

/-- Five flushes, with a reset behind the first two puts: the fourth flush compacts four tables
into one, which has no tombstones, and the fifth puts a table before it. -/
def compacting : List Op :=
  ([.put [97] [1], .put [98] [2]] : List Mutation).map .write ++ [.reset] ++
    ([.put [97] [3], .put [98] [4], .put [99] [5], .put [100] [6],
      .delete [97], .put [98] [7], .put [101] [8], .put [102] [9],
      .put [99] [10], .delete [98], .put [101] [11], .put [97, 97] [12],
      .put [100] [13], .put [103] [14], .put [98] [15], .delete [103],
      .put [102] [16], .put [104] [], .delete [99], .put [97, 98] [17],
      .delete [104], .put [105] [18], .put [98] [19]] : List Mutation).map .write

/-- What an operation writes. -/
def Op.mutation? : Op → Option Mutation
  | .write mu => some mu
  | .reset => none

/-- What stays is spread over two tables and the memtable. -/
theorem get_scan_plain_compacting : ∃ e, run compacting = .ok e ∧
    e.sstables.map Table.seq = [6, 5] ∧ Answers e (plain compacting) ∧
    (plain compacting).entries = [([97, 97], [12]), ([97, 98], [17]), ([98], [19]), ([100], [13]),
      ([101], [11]), ([102], [16]), ([105], [18])] := by
  have hsizes : ∀ mu ∈ compacting.filterMap Op.mutation?, Sizes mu := by decide +kernel
  have hroom : ∀ ops' ∈ compacting.inits, Room (tableOf (plain ops')) := by decide +kernel
  obtain ⟨e, he, hans⟩ := get_scan_plain compacting
    ⟨fun mu hmu => hsizes mu (List.mem_filterMap.mpr ⟨_, hmu, rfl⟩),
      fun ops' hp => hroom ops' ((List.mem_inits _ _).mpr hp)⟩
  have hseqs : (run compacting).toOption.map (fun e => e.sstables.map Table.seq) = some [6, 5] := by
    decide +kernel
  rw [he] at hseqs
  exact ⟨e, he, Option.some.inj hseqs, hans, by decide +kernel⟩

/-! ### Where the counters end -/

/-- The `n` puts of the keys `0`, …, `n - 1`, each of four bytes, without a value. -/
def fill (n : ℕ) : List Op := (List.range n).map fun i => .write (.put (Bytes.le 4 i) [])

lemma fill_succ (n : ℕ) : fill (n + 1) = fill n ++ [.write (.put (Bytes.le 4 n) [])] := by
  simp [fill, List.range_succ]

lemma le_inj {i j : ℕ} (hi : i < 2 ^ 32) (hj : j < 2 ^ 32)
    (h : Bytes.le 4 i = Bytes.le 4 j) : i = j := by
  have hval := congrArg Bytes.val h
  rwa [Bytes.val_le_of_lt (by norm_num; omega), Bytes.val_le_of_lt (by norm_num; omega)] at hval

lemma plain_fill_succ (n : ℕ) :
    plain (fill (n + 1)) = (plain (fill n)).insert (Bytes.le 4 n) [] := by
  rw [fill_succ, plain_append]; rfl

lemma find_plain_fill {n : ℕ} {k v : Bytes} (h : (plain (fill n)).find k = some v) :
    v = [] ∧ ∃ i < n, k = Bytes.le 4 i := by
  induction n with
  | zero => simp [fill, plain] at h
  | succ n ih =>
    rw [plain_fill_succ, find_insert] at h
    split at h
    case isTrue hk => cases h; exact ⟨rfl, n, Nat.lt_succ_self n, hk⟩
    case isFalse =>
      obtain ⟨hv, i, hi, hk⟩ := ih h
      exact ⟨hv, i, by omega, hk⟩

lemma find_plain_fill_new {n : ℕ} (hn : n < 2 ^ 32) :
    (plain (fill n)).find (Bytes.le 4 n) = none := by
  rcases hfind : (plain (fill n)).find (Bytes.le 4 n) with _ | v
  · rfl
  · obtain ⟨-, i, hi, hk⟩ := find_plain_fill hfind
    exact absurd (le_inj hn (hi.trans hn) hk) hi.ne'

lemma size_plain_fill {n : ℕ} (hn : n ≤ 2 ^ 32) : (plain (fill n)).size = n := by
  induction n with
  | zero => rfl
  | succ n ih =>
    rw [plain_fill_succ, size_insert_of_find _ _ (find_plain_fill_new hn), ih (by omega)]

lemma mem_tableOf_fill {n : ℕ} {e : Entry} (h : e ∈ tableOf (plain (fill n))) :
    e.2 = some [] ∧ ∃ i < n, e.1 = Bytes.le 4 i := by
  obtain ⟨⟨k, v⟩, hkv, rfl⟩ := List.mem_map.mp h
  obtain ⟨hv, hk⟩ := find_plain_fill ((plain (fill n)).mem_entries.mp hkv)
  exact ⟨by rw [hv], hk⟩

lemma data_tableOf_fill {n : ℕ} (hn : n ≤ 2 ^ 32) :
    (dataBlock (tableOf (plain (fill n)))).length < 2 ^ 64 := by
  have hle : (dataBlock (tableOf (plain (fill n)))).length ≤ _ :=
    length_dataBlock_le (n := 12) fun e he => by
      obtain ⟨⟨k, v⟩, -, -⟩ := List.mem_map.mp he
      obtain ⟨hv, i, -, hk⟩ := mem_tableOf_fill he
      simp [encodeEntry, encodeValue, hv, hk]
  have hlen : (tableOf (plain (fill n))).length = n := by
    rw [tableOf, List.length_map]; exact size_plain_fill hn
  rw [hlen] at hle
  omega

lemma room_fill {n : ℕ} (hn : n < 2 ^ 32) : Room (tableOf (plain (fill n))) where
  count := by
    rw [tableOf, List.length_map]
    exact lt_of_eq_of_lt (size_plain_fill hn.le) hn
  data := data_tableOf_fill hn.le

lemma sizes_fill (n : ℕ) : Sizes (.put (Bytes.le 4 n) []) :=
  ⟨by simp [Mutation.record], by simp [Mutation.record]⟩

/-- The number of tables after `f` flushes. -/
def tableCount (f : ℕ) : ℕ := if f = 0 then 0 else (f - 1) % 3 + 1

lemma tableCount_succ (f : ℕ) :
    tableCount (f + 1) = if tableCount f + 1 < 4 then tableCount f + 1 else 1 := by
  unfold tableCount
  split_ifs <;> omega

/-- The engine after `n` puts: a flush at every fourth, a compaction at every third flush
from the fourth on. -/
structure Filled (n : ℕ) (e : StorageEngine) (c : Content) : Prop where
  models : Models e c (plain (fill n))
  mem : (memOf c.2).size = n % 4
  tabs : c.1.length = tableCount (n / 4)
  keys : ∀ k, ((memOf c.2).find k).isSome → ∃ i < n, k = Bytes.le 4 i

namespace Filled

variable {n : ℕ} {e : StorageEngine} {c : Content}

lemma small (h : Filled n e c) : Small c := by
  have := h.mem
  unfold Small kMemtableFlushThreshold
  omega

lemma room_flushed (h : Filled n e c) :
    Room (flushed (afterLog c (.put (Bytes.le 4 n) []))) :=
  room_of_small h.small (sizes_fill n) h.models.holds.stored.recs

lemma size_afterLog (h : Filled n e c) (hn : n < 2 ^ 32) :
    (memOf (afterLog c (.put (Bytes.le 4 n) [])).2).size = n % 4 + 1 := by
  have hnew : (memOf c.2).find (Bytes.le 4 n) = none := by
    rcases hfind : (memOf c.2).find (Bytes.le 4 n) with _ | v
    · rfl
    · obtain ⟨i, hi, hk⟩ := h.keys _ (by rw [hfind]; rfl)
      exact absurd (le_inj hn (hi.trans hn) hk) hi.ne'
  rw [afterLog, memOf_append, replay_eq, ← h.mem]
  exact size_insert_of_find _ _ hnew

lemma succ (h : Filled n e c) (hn : n + 1 < 2 ^ 32) :
    ∃ e' c', (mutate e (.put (Bytes.le 4 n) [])).2 = .ok e' ∧ Filled (n + 1) e' c' := by
  have hroom : Room (tableOf (applyTo (plain (fill n)) (.put (Bytes.le 4 n) []))) := by
    have := room_fill hn
    rwa [plain_fill_succ] at this
  obtain ⟨⟨e', hout, hm⟩, -⟩ := mutate_spec h.models (sizes_fill n) h.room_flushed hroom
  have hsize := h.size_afterLog (by omega)
  have htabs := h.tabs
  refine ⟨e', _, hout, by rw [plain_fill_succ]; exact hm, ?_, ?_, fun k hk => ?_⟩
  · unfold settled
    simp only [hsize, kMemtableFlushThreshold]
    split_ifs
    · simp only [hsize]; omega
    · show 0 = _; omega
    · show 0 = _; omega
  · have hlen : (afterLog c (.put (Bytes.le 4 n) [])).1.length = tableCount (n / 4) := htabs
    unfold settled
    simp only [hsize, hlen, kMemtableFlushThreshold, kCompactionTriggerCount]
    split_ifs with hfull htrig
    · rw [hlen]; congr 1; omega
    · rw [show (n + 1) / 4 = n / 4 + 1 by omega, tableCount_succ, if_pos htrig, List.length_cons,
        hlen]
    · rw [show (n + 1) / 4 = n / 4 + 1 by omega, tableCount_succ, if_neg htrig]; rfl
  · unfold settled at hk
    split_ifs at hk
    · rw [afterLog, memOf_append, replay_eq, find_insert] at hk
      split at hk
      case isTrue hk' => exact ⟨n, Nat.lt_succ_self n, hk'⟩
      case isFalse =>
        obtain ⟨i, hi, hik⟩ := h.keys k hk
        exact ⟨i, by omega, hik⟩
    · exact absurd hk (by simp [memOf])
    · exact absurd hk (by simp [memOf])

end Filled

lemma run_fill {n : ℕ} (hn : n < 2 ^ 32) : ∃ e c, run (fill n) = .ok e ∧ Filled n e c := by
  induction n with
  | zero =>
    obtain ⟨e, he, hm⟩ := run_nil
    exact ⟨e, _, he, hm, rfl, rfl, by simp [memOf]⟩
  | succ n ih =>
    obtain ⟨e, c, he, hf⟩ := ih (by omega)
    obtain ⟨e', c', hout, hf'⟩ := hf.succ hn
    refine ⟨e', c', ?_, hf'⟩
    rw [fill_succ, run_append, he]
    exact hout

lemma run_fill_full : ∃ e, run (fill (2 ^ 32)) = .ok e ∧ ∀ k, e.get k = none := by
  have hlast : 2 ^ 32 = (2 ^ 32 - 1) + 1 := by norm_num
  obtain ⟨e, c, he, hf⟩ := run_fill (n := 2 ^ 32 - 1) (by norm_num)
  generalize hn : (2 ^ 32 - 1 : ℕ) = n at *
  set mu : Mutation := .put (Bytes.le 4 n) [] with hmu
  have hs : Sizes mu := sizes_fill n
  have hholds : Holds (logged e mu.record) (afterLog c mu).1 (afterLog c mu).2 :=
    hf.models.holds.logged (recordOk hs)
  have hagrees := value_afterLog hf.models.agrees mu
  have hplain : applyTo (plain (fill n)) mu = plain (fill (n + 1)) := (plain_fill_succ n).symm
  have hsize := hf.size_afterLog (by omega)
  have htabs := hf.tabs
  have hflush : TableFits (flushed (afterLog c mu)) :=
    ⟨(memOf _).asc, memOf_fits hholds.stored.recs, hf.room_flushed.count, hf.room_flushed.data⟩
  have hcompacted : compacted (afterLog c mu) = tableOf (plain (fill (n + 1))) := by
    rw [compacted_eq hagrees, hplain]
  have hlen : (tableOf (plain (fill (n + 1)))).length = 2 ^ 32 := by
    rw [tableOf, List.length_map]
    exact (size_plain_fill (by omega)).trans (by omega)
  have hentries : ∀ x ∈ tableOf (plain (fill (n + 1))), EntryFits x := by
    intro x hx
    obtain ⟨hv, i, -, hk⟩ := mem_tableOf_fill hx
    refine ⟨by rw [hk, Bytes.length_le]; norm_num, fun v hv' => ?_⟩
    rw [hv] at hv'
    cases hv'
    norm_num
  have hopen := openTable_writeTable hentries (data_tableOf_fill (by omega))
  rw [hlen, Nat.mod_self, List.take_zero, ← hcompacted] at hopen
  obtain ⟨e', hout, hmem, seq, hsst⟩ := flushIfFull_compacts hholds
    (by rw [hsize]; unfold kMemtableFlushThreshold; omega)
    (by
      show 4 ≤ c.1.length + 1
      rw [htabs, tableCount, ← hn]
      norm_num) hflush hopen
  refine ⟨e', ?_, fun k => ?_⟩
  · rw [hlast, fill_succ, run_append, he]
    show (mutate e mu).2 = _
    rw [mutate_eq]
    exact hout
  · simp only [StorageEngine.get, hmem, hsst, StorageEngine.getTables, SSTableReader.lookup,
      List.dropWhile_nil]
    rfl

/-- **The entry count wraps**: without a limit on the number of pairs, the engine is not a
map. After `2 ^ 32` puts of different keys it has none of them. -/
theorem entry_count_wraps : ¬ ∀ ops : List Op, (∀ mu, Op.write mu ∈ ops → Sizes mu) →
    ∃ e, run ops = .ok e ∧ Answers e (plain ops) := by
  intro h
  have hs : ∀ mu, Op.write mu ∈ fill (2 ^ 32) → Sizes mu := by
    intro mu hmu
    obtain ⟨i, -, hi⟩ := List.mem_map.mp hmu
    cases hi
    exact sizes_fill i
  obtain ⟨e, he, hans⟩ := h _ hs
  obtain ⟨e', he', hnone⟩ := run_fill_full
  rw [he] at he'
  cases he'
  have hempty : plain (fill (2 ^ 32)) = .empty := ext_find fun k => by
    rw [← hans.get, hnone]; rfl
  have hsize := size_plain_fill (le_refl (2 ^ 32))
  rw [hempty] at hsize
  exact absurd hsize (by decide)

end DistDB.EngineMap
