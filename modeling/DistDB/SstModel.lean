import Mathlib.Data.List.Forall2
import DistDB.Bytes

/-!
The SSTables of `storage/sstable.cpp`, on the bytes of the file.

A table is its data block (key and value of every entry, each behind its length; a value
length of `kTombstone` marks a deleted key), its index block (key and offset of every
entry) and a footer of sixteen bytes: where the index starts, how many entries it has, and
a magic number. Offsets are written in eight bytes and lengths and the count in four, so
what is written is the number modulo `2 ^ 64` or `2 ^ 32`.
-/

namespace DistDB.SstModel

open Bytes

/-- A key with its value, or with a tombstone. -/
abbrev Entry := Bytes × Option Bytes

inductive LookupResult
  | kNotFound
  | kFound (value : Bytes)
  | kDeleted
  deriving DecidableEq

/-- What a layer answers for a key it holds as `e`, or does not hold. -/
def LookupResult.of : Option (Option Bytes) → LookupResult
  | none => .kNotFound
  | some none => .kDeleted
  | some (some v) => .kFound v

def kTombstone : ℕ := 2 ^ 32 - 1
def kMagic : ℕ := 0x53535444
def kFooterSize : ℕ := 16

structure SSTableWriter where
  file : Bytes
  index : List (Bytes × ℕ)

def encodeValue : Option Bytes → Bytes
  | some v => le 4 v.length ++ v
  | none => le 4 kTombstone

/-- What `Add` writes. -/
def encodeEntry (e : Entry) : Bytes := le 4 e.1.length ++ e.1 ++ encodeValue e.2

def encodeIndexEntry (i : Bytes × ℕ) : Bytes := le 4 i.1.length ++ i.1 ++ le 8 i.2

namespace SSTableWriter

def create : SSTableWriter := ⟨[], []⟩

def add (w : SSTableWriter) (e : Entry) : SSTableWriter :=
  ⟨w.file ++ encodeEntry e, w.index ++ [(e.1, w.file.length)]⟩

/-- The finished file. -/
def finish (w : SSTableWriter) : Bytes :=
  w.file ++ w.index.flatMap encodeIndexEntry ++
    (le 8 w.file.length ++ le 4 w.index.length ++ le 4 kMagic)

end SSTableWriter

/-- The file of a table with these entries. -/
def writeTable (es : List Entry) : Bytes := (es.foldl SSTableWriter.add .create).finish

/-- A `w`-byte number at `pos`. -/
def readNum (file : Bytes) (pos w : ℕ) : ℕ := val ((file.drop pos).take w)

/-- A string of `n` bytes at `pos`. -/
def readStr (file : Bytes) (pos n : ℕ) : Bytes := (file.drop pos).take n

structure SSTableReader where
  file : Bytes
  index : List (Bytes × ℕ)
  dataEnd : ℕ
  deriving DecidableEq

inductive OpenError
  | tooSmall
  | badMagic
  deriving DecidableEq

def readIndex (file : Bytes) : ℕ → ℕ → List (Bytes × ℕ)
  | 0, _ => []
  | n + 1, pos =>
    let keyLen := readNum file pos 4
    (readStr file (pos + 4) keyLen, readNum file (pos + 4 + keyLen) 8) ::
      readIndex file n (pos + 4 + keyLen + 8)

/-- The value the entry at `pos` holds, past its key: `none` is a tombstone. -/
def valueAt (file : Bytes) (pos : ℕ) : Option Bytes :=
  let pos := pos + 4 + readNum file pos 4
  let valueLen := readNum file pos 4
  if valueLen = kTombstone then none else some (readStr file (pos + 4) valueLen)

/-- The loop of `ReadAll`, with a bound on the number of passes. -/
def readEntries (file : Bytes) (dataEnd : ℕ) : ℕ → ℕ → List Entry
  | 0, _ => []
  | n + 1, pos =>
    if pos < dataEnd then
      let keyLen := readNum file pos 4
      let valuePos := pos + 4 + keyLen
      let valueLen := readNum file valuePos 4
      let next := if valueLen = kTombstone then valuePos + 4 else valuePos + 4 + valueLen
      (readStr file (pos + 4) keyLen, valueAt file pos) :: readEntries file dataEnd n next
    else []

namespace SSTableReader

/-- `Open`. -/
def openTable (file : Bytes) : Except OpenError SSTableReader :=
  if file.length < kFooterSize then .error .tooSmall else
  let footer := file.length - kFooterSize
  let indexOffset := readNum file footer 8
  let entryCount := readNum file (footer + 8) 4
  let magic := readNum file (footer + 12) 4
  if magic ≠ kMagic then .error .badMagic else
  .ok ⟨file, readIndex file entryCount indexOffset, indexOffset⟩

def lookup (t : SSTableReader) (key : Bytes) : LookupResult :=
  match t.index.dropWhile (fun i => decide (i.1 < key)) with
  | [] => .kNotFound
  | i :: _ => if i.1 ≠ key then .kNotFound else .of (some (valueAt t.file i.2))

def scan (t : SSTableReader) (p : Bytes) : List Entry :=
  ((t.index.dropWhile (fun i => decide (i.1 < p))).takeWhile (fun i => startsWith i.1 p)).map
    fun i => (i.1, valueAt t.file i.2)

def readAll (t : SSTableReader) : List Entry := readEntries t.file t.dataEnd t.dataEnd 0

end SSTableReader

/-- An entry whose lengths fit their fields, and whose value is not read as a tombstone. -/
structure EntryFits (e : Entry) : Prop where
  key : e.1.length < 2 ^ 32
  value : ∀ v, e.2 = some v → v.length < 2 ^ 32 - 1

def dataBlock (es : List Entry) : Bytes := es.flatMap encodeEntry

/-- The index of the entries `es` whose data starts at offset `pos`. -/
def indexFrom : ℕ → List Entry → List (Bytes × ℕ)
  | _, [] => []
  | pos, e :: es => (e.1, pos) :: indexFrom (pos + (encodeEntry e).length) es

lemma length_indexFrom (pos : ℕ) (es : List Entry) : (indexFrom pos es).length = es.length := by
  induction es generalizing pos with
  | nil => rfl
  | cons e es ih => simp [indexFrom, ih]

lemma foldl_add (es : List Entry) (w : SSTableWriter) :
    es.foldl SSTableWriter.add w =
      ⟨w.file ++ dataBlock es, w.index ++ indexFrom w.file.length es⟩ := by
  induction es generalizing w with
  | nil => simp [dataBlock, indexFrom]
  | cons e es ih =>
    rw [List.foldl_cons, ih]
    simp [SSTableWriter.add, dataBlock, indexFrom]

def footer (es : List Entry) : Bytes :=
  le 8 (dataBlock es).length ++ le 4 es.length ++ le 4 kMagic

lemma writeTable_eq (es : List Entry) : writeTable es =
    dataBlock es ++ (indexFrom 0 es).flatMap encodeIndexEntry ++ footer es := by
  rw [writeTable, foldl_add]
  simp [SSTableWriter.finish, SSTableWriter.create, length_indexFrom, footer]

@[simp] lemma length_footer (es : List Entry) : (footer es).length = 16 := by simp [footer]

/-! ### What the reader finds in it -/

lemma readNum_append {pre bs post : Bytes} {pos w : ℕ} (hpos : pre.length = pos)
    (hw : bs.length = w) : readNum (pre ++ bs ++ post) pos w = val bs := by
  subst hpos hw
  rw [readNum, List.append_assoc, List.drop_left, List.take_left]

lemma readStr_append {pre bs post : Bytes} {pos n : ℕ} (hpos : pre.length = pos)
    (hn : bs.length = n) : readStr (pre ++ bs ++ post) pos n = bs := by
  subst hpos hn
  rw [readStr, List.append_assoc, List.drop_left, List.take_left]

lemma readNum_le {pre post : Bytes} {pos w n : ℕ} (hpos : pre.length = pos) (hn : n < 256 ^ w) :
    readNum (pre ++ le w n ++ post) pos w = n := by
  rw [readNum_append hpos (length_le w n), val_le_of_lt hn]

lemma readNum_entry {e : Entry} (he : EntryFits e) (pre post : Bytes) :
    readNum (pre ++ encodeEntry e ++ post) pre.length 4 = e.1.length := by
  have h : pre ++ encodeEntry e ++ post =
      pre ++ le 4 e.1.length ++ (e.1 ++ encodeValue e.2 ++ post) := by
    simp [encodeEntry]
  rw [h]
  exact readNum_le rfl (by have := he.key; norm_num; omega)

lemma readStr_entry (e : Entry) (pre post : Bytes) :
    readStr (pre ++ encodeEntry e ++ post) (pre.length + 4) e.1.length = e.1 := by
  have h : pre ++ encodeEntry e ++ post =
      (pre ++ le 4 e.1.length) ++ e.1 ++ (encodeValue e.2 ++ post) := by
    simp [encodeEntry]
  rw [h]
  exact readStr_append (by simp) rfl

/-- The value length field of an entry. -/
def valueField (e : Entry) : ℕ := (e.2.map List.length).getD kTombstone

lemma readNum_value {e : Entry} (he : EntryFits e) (pre post : Bytes) :
    readNum (pre ++ encodeEntry e ++ post) (pre.length + 4 + e.1.length) 4 = valueField e := by
  obtain ⟨k, _ | v⟩ := e
  · have h : pre ++ encodeEntry (k, none) ++ post =
        (pre ++ le 4 k.length ++ k) ++ le 4 kTombstone ++ post := by
      simp [encodeEntry, encodeValue]
    rw [h]
    exact readNum_le (by simp; omega) (by norm_num [kTombstone])
  · have h : pre ++ encodeEntry (k, some v) ++ post =
        (pre ++ le 4 k.length ++ k) ++ le 4 v.length ++ (v ++ post) := by
      simp [encodeEntry, encodeValue]
    have hv := he.value v rfl
    rw [h]
    exact readNum_le (by simp; omega) (by norm_num; omega)

lemma valueField_ne {k v : Bytes} (he : EntryFits (k, some v)) :
    valueField (k, some v) ≠ kTombstone := by
  have := he.value v rfl
  simp only [valueField, kTombstone, Option.map_some, Option.getD_some]; omega

lemma valueAt_entry {e : Entry} (he : EntryFits e) (pre post : Bytes) :
    valueAt (pre ++ encodeEntry e ++ post) pre.length = e.2 := by
  have hlen := readNum_value he pre post
  unfold valueAt
  simp only [readNum_entry he, hlen]
  obtain ⟨k, _ | v⟩ := e
  · simp [valueField]
  · rw [if_neg (valueField_ne he)]
    have h : pre ++ encodeEntry (k, some v) ++ post =
        (pre ++ le 4 k.length ++ k ++ le 4 v.length) ++ v ++ post := by
      simp [encodeEntry, encodeValue]
    have hv : valueField (k, some v) = v.length := rfl
    rw [h, hv, readStr_append (by simp; omega) rfl]

lemma next_entry {e : Entry} (he : EntryFits e) (pre : Bytes) :
    (if valueField e = kTombstone then pre.length + 4 + e.1.length + 4
      else pre.length + 4 + e.1.length + 4 + valueField e) =
      (pre ++ encodeEntry e).length := by
  obtain ⟨k, _ | v⟩ := e
  · simp [valueField, encodeEntry, encodeValue]; omega
  · rw [if_neg (valueField_ne he)]
    simp [valueField, encodeEntry, encodeValue]; omega

/-- An index entry that points at the data of `e`. -/
def Points (file : Bytes) (i : Bytes × ℕ) (e : Entry) : Prop :=
  i.1 = e.1 ∧ ∃ pre post, file = pre ++ encodeEntry e ++ post ∧ i.2 = pre.length

/-- **A reader that stands for its entries**: the index points at them in order, and the
data block holds them one after the other. -/
structure Represents (t : SSTableReader) (es : List Entry) : Prop where
  asc : OrdMap.Asc es
  fits : ∀ e ∈ es, EntryFits e
  index : List.Forall₂ (Points t.file) t.index es
  data : ∃ post, t.file = dataBlock es ++ post
  dataEnd : t.dataEnd = (dataBlock es).length

lemma points_indexFrom {es : List Entry} {file : Bytes} (pre post : Bytes)
    (hf : file = pre ++ dataBlock es ++ post) :
    List.Forall₂ (Points file) (indexFrom pre.length es) es := by
  induction es generalizing pre with
  | nil => exact .nil
  | cons e es ih =>
    refine .cons ⟨rfl, pre, dataBlock es ++ post, by simp [hf, dataBlock], rfl⟩ ?_
    have := ih (pre ++ encodeEntry e) (by simp [hf, dataBlock])
    simpa [indexFrom] using this

lemma readIndex_eq {is : List (Bytes × ℕ)}
    (hk : ∀ i ∈ is, i.1.length < 2 ^ 32 ∧ i.2 < 2 ^ 64) (n : ℕ) (hn : n ≤ is.length)
    {file : Bytes} (pre post : Bytes) (hf : file = pre ++ is.flatMap encodeIndexEntry ++ post) :
    readIndex file n pre.length = is.take n := by
  induction is generalizing n pre with
  | nil => simp at hn; simp [hn, readIndex]
  | cons i is ih =>
    cases n with
    | zero => rfl
    | succ n =>
      obtain ⟨hkey, hoff⟩ := hk i (by simp)
      have h1 : file = pre ++ le 4 i.1.length ++
          (i.1 ++ le 8 i.2 ++ is.flatMap encodeIndexEntry ++ post) := by
        simp [hf, encodeIndexEntry]
      have h2 : file = (pre ++ le 4 i.1.length) ++ i.1 ++
          (le 8 i.2 ++ is.flatMap encodeIndexEntry ++ post) := by
        simp [hf, encodeIndexEntry]
      have h3 : file = (pre ++ le 4 i.1.length ++ i.1) ++ le 8 i.2 ++
          (is.flatMap encodeIndexEntry ++ post) := by
        simp [hf, encodeIndexEntry]
      have e1 : readNum file pre.length 4 = i.1.length := by
        rw [h1]; exact readNum_le rfl (by norm_num; exact hkey)
      have e2 : readStr file (pre.length + 4) i.1.length = i.1 := by
        rw [h2]; exact readStr_append (by simp) rfl
      have e3 : readNum file (pre.length + 4 + i.1.length) 8 = i.2 := by
        rw [h3]; exact readNum_le (by simp; omega) (by norm_num; exact hoff)
      have hrest := ih (fun i hi => hk i (by simp [hi])) n (by simpa using hn)
        (pre ++ encodeIndexEntry i) (by simp [hf])
      have hlen : (pre ++ encodeIndexEntry i).length = pre.length + 4 + i.1.length + 8 := by
        simp [encodeIndexEntry]; omega
      rw [hlen] at hrest
      simp only [readIndex, e1, e2, e3, hrest, List.take_succ_cons]

lemma mem_indexFrom {i : Bytes × ℕ} {pos : ℕ} {es : List Entry} (h : i ∈ indexFrom pos es) :
    (∃ e ∈ es, i.1 = e.1) ∧ i.2 ≤ pos + (dataBlock es).length := by
  induction es generalizing pos with
  | nil => simp [indexFrom] at h
  | cons e es ih =>
    rcases List.mem_cons.mp h with rfl | h
    · exact ⟨⟨e, by simp⟩, by simp⟩
    · obtain ⟨⟨e', he', hi⟩, hle⟩ := ih h
      refine ⟨⟨e', by simp [he'], hi⟩, ?_⟩
      simp only [dataBlock, List.flatMap_cons, List.length_append] at hle ⊢
      omega

lemma openTable_written (es : List Entry) : SSTableReader.openTable (writeTable es) =
    .ok ⟨writeTable es, readIndex (writeTable es) (es.length % 2 ^ 32)
      ((dataBlock es).length % 2 ^ 64), (dataBlock es).length % 2 ^ 64⟩ := by
  have heq := writeTable_eq es
  set body := dataBlock es ++ (indexFrom 0 es).flatMap encodeIndexEntry with hbody
  have hlen : (writeTable es).length = body.length + 16 := by simp [heq]
  have hfoot : (writeTable es).length - kFooterSize = body.length := by
    rw [hlen]; simp [kFooterSize]
  have h1 : writeTable es = body ++ le 8 (dataBlock es).length ++
      (le 4 es.length ++ le 4 kMagic) := by simp [heq, footer]
  have h2 : writeTable es = (body ++ le 8 (dataBlock es).length) ++ le 4 es.length ++
      le 4 kMagic := by simp [heq, footer]
  have h3 : writeTable es = (body ++ le 8 (dataBlock es).length ++ le 4 es.length) ++
      le 4 kMagic ++ [] := by simp [heq, footer]
  have e1 : readNum (writeTable es) body.length 8 = (dataBlock es).length % 2 ^ 64 := by
    conv_lhs => rw [h1]
    rw [readNum_append rfl (length_le _ _), val_le]; norm_num
  have e2 : readNum (writeTable es) (body.length + 8) 4 = es.length % 2 ^ 32 := by
    conv_lhs => rw [h2]
    rw [readNum_append (by simp) (length_le _ _), val_le]; norm_num
  have e3 : readNum (writeTable es) (body.length + 12) 4 = kMagic := by
    conv_lhs => rw [h3]
    exact readNum_le (by simp) (by norm_num [kMagic])
  unfold SSTableReader.openTable
  rw [if_neg (by rw [hlen]; simp [kFooterSize])]
  simp only [hfoot, e1, e2, e3, ne_eq, not_true, if_false]

/-- **Opening a table that was written**: the index holds the first of its entries, as many
as the entry count modulo `2 ^ 32`. -/
theorem openTable_writeTable {es : List Entry} (hfits : ∀ e ∈ es, EntryFits e)
    (hdata : (dataBlock es).length < 2 ^ 64) :
    SSTableReader.openTable (writeTable es) = .ok ⟨writeTable es,
      (indexFrom 0 es).take (es.length % 2 ^ 32), (dataBlock es).length⟩ := by
  have hindex : readIndex (writeTable es) (es.length % 2 ^ 32) (dataBlock es).length =
      (indexFrom 0 es).take (es.length % 2 ^ 32) := by
    refine readIndex_eq (fun i hi => ?_) _ ?_ (dataBlock es) (footer es) (writeTable_eq es)
    · obtain ⟨⟨e, he, hie⟩, hle⟩ := mem_indexFrom hi
      exact ⟨hie ▸ (hfits e he).key, by omega⟩
    · rw [length_indexFrom]; exact Nat.mod_le _ _
  rw [openTable_written, Nat.mod_eq_of_lt hdata, hindex]

/-- The entries a table can hold: ascending keys, lengths that fit, an entry count and
offsets that fit their fields. -/
structure TableFits (es : List Entry) : Prop where
  asc : OrdMap.Asc es
  entries : ∀ e ∈ es, EntryFits e
  count : es.length < 2 ^ 32
  data : (dataBlock es).length < 2 ^ 64

/-- The reader of a table with these entries. -/
def readerOf (es : List Entry) : SSTableReader :=
  ⟨writeTable es, indexFrom 0 es, (dataBlock es).length⟩

lemma openTable_of_fits {es : List Entry} (h : TableFits es) :
    SSTableReader.openTable (writeTable es) = .ok (readerOf es) := by
  rw [openTable_writeTable h.entries h.data, Nat.mod_eq_of_lt h.count,
    List.take_of_length_le (by rw [length_indexFrom])]
  rfl

theorem represents_readerOf {es : List Entry} (h : TableFits es) : Represents (readerOf es) es where
  asc := h.asc
  fits := h.entries
  index := points_indexFrom [] _ (by
    show writeTable es = _
    rw [writeTable_eq, List.append_assoc, List.nil_append])
  data := ⟨_, (writeTable_eq es).trans (List.append_assoc _ _ _)⟩
  dataEnd := rfl

/-! ### The operations of a reader -/

namespace Represents

variable {t : SSTableReader} {es : List Entry}

lemma valueAt_of_points {file : Bytes} {i : Bytes × ℕ} {e : Entry} (he : EntryFits e)
    (h : Points file i e) : valueAt file i.2 = e.2 := by
  obtain ⟨-, pre, post, rfl, hoff⟩ := h
  rw [hoff, valueAt_entry he]

lemma map_points {file : Bytes} {is : List (Bytes × ℕ)} {es : List Entry}
    (hfits : ∀ e ∈ es, EntryFits e) (h : List.Forall₂ (Points file) is es) :
    is.map (fun i => (i.1, valueAt file i.2)) = es := by
  induction h with
  | nil => rfl
  | cons hp _ ih =>
    rw [List.map_cons, ih fun e he => hfits e (by simp [he]),
      valueAt_of_points (hfits _ (by simp)) hp, hp.1]

lemma dropWhile_points {file : Bytes} {is : List (Bytes × ℕ)} {es : List Entry}
    (h : List.Forall₂ (Points file) is es) (f : Bytes → Bool) :
    List.Forall₂ (Points file) (is.dropWhile fun i => f i.1) (es.dropWhile fun e => f e.1) := by
  induction h with
  | nil => exact .nil
  | @cons i e is es hp hps ih =>
    rw [List.dropWhile_cons, List.dropWhile_cons, hp.1]
    split
    · exact ih
    · exact .cons hp hps

lemma takeWhile_points {file : Bytes} {is : List (Bytes × ℕ)} {es : List Entry}
    (h : List.Forall₂ (Points file) is es) (f : Bytes → Bool) :
    List.Forall₂ (Points file) (is.takeWhile fun i => f i.1) (es.takeWhile fun e => f e.1) := by
  induction h with
  | nil => exact .nil
  | @cons i e is es hp hps ih =>
    rw [List.takeWhile_cons, List.takeWhile_cons, hp.1]
    split
    · exact .cons hp ih
    · exact .nil

/-- **`Scan`** lists the entries with the prefix. -/
theorem scan_eq (h : Represents t es) (p : Bytes) :
    t.scan p = es.filter fun e => startsWith e.1 p := by
  have hfits : ∀ e ∈ (es.dropWhile fun e => decide (e.1 < p)).takeWhile
      (fun e => startsWith e.1 p), EntryFits e := by
    intro e he
    exact h.fits e ((List.dropWhile_sublist _).subset ((List.takeWhile_sublist _).subset he))
  have hpts := takeWhile_points (dropWhile_points h.index fun k => decide (k < p))
    fun k => startsWith k p
  rw [SSTableReader.scan, map_points hfits hpts, scan_eq_filter h.asc]

lemma lookup_dropWhile {l : List Entry} (hl : OrdMap.Asc l) (k : Bytes) :
    OrdMap.look k l = match l.dropWhile (fun e => decide (e.1 < k)) with
      | [] => none
      | e :: _ => if e.1 ≠ k then none else some e.2 := by
  induction l with
  | nil => rfl
  | cons e l ih =>
    obtain ⟨hlt, hl'⟩ := List.pairwise_cons.mp hl
    rw [List.dropWhile_cons]
    rcases lt_trichotomy e.1 k with h | h | h
    · rw [if_pos (by simpa using h), ← ih hl', OrdMap.look, if_neg h.ne']
    · simp [OrdMap.look, h]
    · rw [if_neg (by simpa using h.le)]
      have hne : e.1 ≠ k := h.ne'
      simp only [hne, ne_eq, not_false_eq_true, if_true]
      refine OrdMap.look_eq_none_of_lt fun e' he' => ?_
      rcases List.mem_cons.mp he' with rfl | he'
      · exact h
      · exact h.trans (hlt e' he')

/-- **`Lookup`** answers what the entries hold for the key. -/
theorem lookup_eq (h : Represents t es) (k : Bytes) :
    t.lookup k = .of (OrdMap.look k es) := by
  have hpts := dropWhile_points h.index fun k' => decide (k' < k)
  rw [SSTableReader.lookup, lookup_dropWhile h.asc]
  cases hd : es.dropWhile (fun e => decide (e.1 < k)) with
  | nil =>
    rw [hd] at hpts
    rw [List.forall₂_nil_right_iff.mp hpts]
    rfl
  | cons e l =>
    rw [hd] at hpts
    obtain ⟨i, is, hp, -, hi⟩ := List.forall₂_cons_right_iff.mp hpts
    have he : e ∈ es := (List.dropWhile_sublist _).subset (by rw [hd]; simp)
    rw [hi]
    simp only [hp.1, valueAt_of_points (h.fits e he) hp]
    by_cases hk : e.1 = k <;> simp [hk, LookupResult.of]

lemma readEntries_eq {es : List Entry} (hfits : ∀ e ∈ es, EntryFits e) {file : Bytes}
    (pre post : Bytes) (hf : file = pre ++ dataBlock es ++ post) {n : ℕ} (hn : es.length ≤ n) :
    readEntries file (pre ++ dataBlock es).length n pre.length = es := by
  induction es generalizing n pre with
  | nil =>
    cases n with
    | zero => rfl
    | succ n => simp [readEntries, dataBlock]
  | cons e es ih =>
    cases n with
    | zero => simp at hn
    | succ n =>
      have he := hfits e (by simp)
      have hf' : file = pre ++ encodeEntry e ++ (dataBlock es ++ post) := by
        simp [hf, dataBlock]
      have hlt : pre.length < (pre ++ dataBlock (e :: es)).length := by
        simp [dataBlock, encodeEntry]
      have hrest := ih (fun e he => hfits e (by simp [he])) (pre ++ encodeEntry e)
        (by simp [hf, dataBlock]) (n := n) (by simpa using hn)
      have hend : (pre ++ dataBlock (e :: es)).length =
          (pre ++ encodeEntry e ++ dataBlock es).length := by simp [dataBlock]
      have e1 : readNum file pre.length 4 = e.1.length := by rw [hf']; exact readNum_entry he _ _
      have e2 : readStr file (pre.length + 4) e.1.length = e.1 := by
        rw [hf']; exact readStr_entry e _ _
      have e3 : readNum file (pre.length + 4 + e.1.length) 4 = valueField e := by
        rw [hf']; exact readNum_value he _ _
      have e4 : valueAt file pre.length = e.2 := by rw [hf']; exact valueAt_entry he _ _
      rw [readEntries, if_pos hlt]
      simp only [e1, e2, e3, e4, next_entry he, hend, hrest]

lemma length_le_dataBlock (es : List Entry) : es.length ≤ (dataBlock es).length := by
  induction es with
  | nil => simp
  | cons e es ih =>
    simp only [dataBlock, encodeEntry, List.flatMap_cons, List.length_append, length_le,
      List.length_cons] at ih ⊢
    omega

/-- **`ReadAll`** lists all entries. -/
theorem readAll_eq (h : Represents t es) : t.readAll = es := by
  obtain ⟨post, hf⟩ := h.data
  have := readEntries_eq h.fits [] post (by simpa using hf) (length_le_dataBlock es)
  simpa [SSTableReader.readAll, h.dataEnd] using this

end Represents

end DistDB.SstModel
