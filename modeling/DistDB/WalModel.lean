import DistDB.Crc32

/-!
The write-ahead log of `storage/wal.cpp`, on the bytes of its file.

A record is a header of sixteen bytes (checksum, key length, value length, type and three
bytes of padding), the key, and for a put the value. The stream's put position is part of
the model: `Open` and `Replay` leave it at the end of the file, and an append writes there.
-/

namespace DistDB.WalModel

open Bytes

/-- `enum class RecordType : uint8_t`; a header read from disk may hold any byte. -/
structure RecordType where
  code : UInt8
  deriving DecidableEq

def kPut : RecordType := ⟨0⟩
def kDelete : RecordType := ⟨1⟩

structure Record where
  type : RecordType
  key : Bytes
  value : Bytes
  deriving DecidableEq

def checksumRecord (type : RecordType) (key value : Bytes) : BitVec 32 :=
  Crc32.crc32 (type.code :: (key ++ value))

/-- `sizeof(RecordHeader)`. -/
def headerSize : ℕ := 16

def header (r : Record) : Bytes :=
  le 4 (checksumRecord r.type r.key r.value).toNat ++ le 4 r.key.length ++
    le 4 r.value.length ++ [r.type.code, 0, 0, 0]

/-- What `AppendRecord` writes. -/
def encode (r : Record) : Bytes :=
  header r ++ r.key ++ (if r.type = kPut then r.value else [])

/-- One pass of the loop in `Replay`: the record at the front of what is left of the file,
and what follows it. `none` is a `break`. -/
def readRecord (s : Bytes) : Option (Record × Bytes) :=
  let h := s.take headerSize
  if h.length ≠ headerSize then none else
  let s := s.drop headerSize
  let crc := val (h.take 4)
  let keyLen := val ((h.drop 4).take 4)
  let valueLen := val ((h.drop 8).take 4)
  let type : RecordType := ⟨h.getD 12 0⟩
  let key := s.take keyLen
  if key.length ≠ keyLen then none else
  let s := s.drop keyLen
  let value := if type = kPut then s.take valueLen else []
  if type = kPut ∧ value.length ≠ valueLen then none else
  let s := if type = kPut then s.drop valueLen else s
  if (checksumRecord type key value).toNat ≠ crc then none else
  some (⟨type, key, value⟩, s)

/-- The loop of `Replay`, with a bound on the number of passes. -/
def replayLoop : ℕ → Bytes → List Record
  | 0, _ => []
  | n + 1, s =>
    match readRecord s with
    | none => []
    | some (r, s') => r :: replayLoop n s'

structure WriteAheadLog where
  file : Bytes
  pos : ℕ

namespace WriteAheadLog

/-- `Open` on a file with these bytes; a file that does not exist is created empty. -/
def openFile (file : Bytes) : WriteAheadLog := ⟨file, file.length⟩

/-- `file_.write`: the bytes go to the put position. -/
def write (w : WriteAheadLog) (bs : Bytes) : WriteAheadLog :=
  ⟨w.file.take w.pos ++ bs ++ w.file.drop (w.pos + bs.length), w.pos + bs.length⟩

/-- The records `Replay` hands to its callback, in order. -/
def replayed (w : WriteAheadLog) : List Record := replayLoop w.file.length w.file

/-- The log after `Replay`: `seekp(0, end)`. -/
def replay (w : WriteAheadLog) : WriteAheadLog := ⟨w.file, w.file.length⟩

def appendRecord (w : WriteAheadLog) (r : Record) : WriteAheadLog :=
  let w := (w.write (header r)).write r.key
  if r.type = kPut then w.write r.value else w

def appendPut (w : WriteAheadLog) (key value : Bytes) : WriteAheadLog :=
  w.appendRecord ⟨kPut, key, value⟩

def appendDelete (w : WriteAheadLog) (key : Bytes) : WriteAheadLog :=
  w.appendRecord ⟨kDelete, key, []⟩

/-- `Reset` truncates the file and reopens it. -/
def reset (_ : WriteAheadLog) : WriteAheadLog := openFile []

end WriteAheadLog

/-- A call of `AppendPut` or `AppendDelete`. -/
inductive Mutation
  | put (key value : Bytes)
  | delete (key : Bytes)

def Mutation.record : Mutation → Record
  | .put key value => ⟨kPut, key, value⟩
  | .delete key => ⟨kDelete, key, []⟩

/-! ### Reading back what was written -/

/-- The records the log can hold: lengths that fit their 32-bit fields, and no value
unless the record is a put. -/
structure Fits (r : Record) : Prop where
  key : r.key.length < 2 ^ 32
  value : r.value.length < 2 ^ 32
  del : r.type ≠ kPut → r.value = []

lemma Mutation.fits_record {m : Mutation} (hk : m.record.key.length < 2 ^ 32)
    (hv : m.record.value.length < 2 ^ 32) : Fits m.record where
  key := hk
  value := hv
  del := by cases m <;> simp [Mutation.record, kPut, kDelete]

@[simp] lemma length_header (r : Record) : (header r).length = headerSize := by
  simp [header, headerSize]

lemma header_crc (r : Record) : val ((header r).take 4) =
    (checksumRecord r.type r.key r.value).toNat := by
  have h := (checksumRecord r.type r.key r.value).isLt
  have htake : (header r).take 4 = le 4 (checksumRecord r.type r.key r.value).toNat := by
    simp [header]
  rw [htake, val_le_of_lt (by norm_num; exact h)]

lemma header_keyLen {r : Record} (hr : Fits r) :
    val (((header r).drop 4).take 4) = r.key.length := by
  have htake : ((header r).drop 4).take 4 = le 4 r.key.length := by
    simp [header]
  rw [htake, val_le_of_lt (by have := hr.key; norm_num; omega)]

lemma header_valueLen {r : Record} (hr : Fits r) :
    val (((header r).drop 8).take 4) = r.value.length := by
  have htake : ((header r).drop 8).take 4 = le 4 r.value.length := by
    simp [header, List.take_append, List.drop_append]
  rw [htake, val_le_of_lt (by have := hr.value; norm_num; omega)]

lemma header_type (r : Record) : (header r).getD 12 0 = r.type.code := by
  rw [header, List.getD_eq_getElem?_getD, List.getElem?_append_right (by simp)]
  simp

/-- A record that was written whole is read back, whatever follows it. -/
theorem readRecord_encode {r : Record} (hr : Fits r) (rest : Bytes) :
    readRecord (encode r ++ rest) = some (r, rest) := by
  have hh := length_header r
  have htake : (encode r ++ rest).take headerSize = header r := by
    rw [encode, List.append_assoc, List.append_assoc, ← hh, List.take_left]
  have hdrop : (encode r ++ rest).drop headerSize =
      r.key ++ ((if r.type = kPut then r.value else []) ++ rest) := by
    rw [encode, List.append_assoc, List.append_assoc, ← hh, List.drop_left]
  unfold readRecord
  simp only [htake, hdrop, header_crc, header_keyLen hr, header_valueLen hr, header_type,
    length_header, ne_eq, not_true, if_false, List.take_left, List.drop_left]
  by_cases ht : r.type = kPut
  · simp [ht]
    cases r; simp_all
  · have hv := hr.del ht
    simp [ht]
    cases r; simp_all

/-- A record that was cut short is not delivered. -/
theorem readRecord_torn {r : Record} (hr : Fits r) {n : ℕ} (hn : n < (encode r).length) :
    readRecord ((encode r).take n) = none := by
  by_cases hn16 : n < headerSize
  · have hlen : (((encode r).take n).take headerSize).length ≠ headerSize := by
      simp only [List.length_take]; omega
    unfold readRecord
    simp only [if_pos hlen]
  · have hh := length_header r
    obtain ⟨k, rfl⟩ : ∃ k, n = headerSize + k := ⟨n - headerSize, by omega⟩
    have hsplit : (encode r).take (headerSize + k) = header r ++
        (r.key ++ (if r.type = kPut then r.value else [])).take k := by
      rw [encode, List.append_assoc, List.take_append, hh, List.take_of_length_le (by omega)]
      congr 2; omega
    have hk : k < r.key.length + (if r.type = kPut then r.value else []).length := by
      simp only [encode, List.length_append, hh] at hn; omega
    unfold readRecord
    rw [hsplit, ← hh, List.take_left, List.drop_left]
    simp only [header_crc, header_keyLen hr, header_valueLen hr, header_type, ne_eq, not_true,
      if_false]
    by_cases hkey : k < r.key.length
    · have hshort : (((r.key ++ (if r.type = kPut then r.value else [])).take k).take
          r.key.length).length ≠ r.key.length := by
        simp only [List.length_take]; omega
      simp only [hshort, not_false_eq_true, if_true]
    · have ht : r.type = kPut := by
        by_contra ht
        simp only [if_neg ht, List.length_nil] at hk; omega
      rw [if_pos ht] at hk ⊢
      obtain ⟨j, rfl⟩ : ∃ j, k = r.key.length + j := ⟨k - r.key.length, by omega⟩
      have hcut : (r.key ++ r.value).take (r.key.length + j) = r.key ++ r.value.take j := by
        rw [List.take_append, List.take_of_length_le (by omega)]
        congr 2; omega
      have hshort : ((r.value.take j).take r.value.length).length ≠ r.value.length := by
        simp only [List.length_take]; omega
      simp only [hcut, List.take_left, List.drop_left, not_true, if_false, ht, if_true,
        true_and, hshort, not_false_eq_true]

lemma length_pos_encode (r : Record) : 0 < (encode r).length := by
  simp [encode, headerSize]

/-- Everything `AppendRecord` wrote for these records. -/
def encodeAll (rs : List Record) : Bytes := rs.flatMap encode

@[simp] lemma encodeAll_nil : encodeAll [] = [] := rfl

@[simp] lemma encodeAll_singleton (r : Record) : encodeAll [r] = encode r := by simp [encodeAll]

lemma encodeAll_append (rs rs' : List Record) :
    encodeAll (rs ++ rs') = encodeAll rs ++ encodeAll rs' := List.flatMap_append

lemma length_le_encodeAll (rs : List Record) : rs.length ≤ (encodeAll rs).length := by
  induction rs with
  | nil => simp
  | cons r rs ih =>
    have := length_pos_encode r
    simp only [encodeAll, List.flatMap_cons, List.length_append, List.length_cons] at ih ⊢
    omega

lemma replayLoop_encodeAll {rs : List Record} (hrs : ∀ r ∈ rs, Fits r) {t : Bytes}
    (ht : readRecord t = none) {n : ℕ} (hn : rs.length ≤ n) :
    replayLoop n (encodeAll rs ++ t) = rs := by
  induction rs generalizing n with
  | nil =>
    cases n with
    | zero => rfl
    | succ n => simp [replayLoop, ht]
  | cons r rs ih =>
    cases n with
    | zero => simp at hn
    | succ n =>
      have hstep : encodeAll (r :: rs) ++ t = encode r ++ (encodeAll rs ++ t) := by
        simp [encodeAll]
      have hrest : replayLoop n (encodeAll rs ++ t) = rs :=
        ih (fun r hr => hrs r (by simp [hr])) (by simpa using hn)
      rw [hstep, replayLoop, readRecord_encode (hrs r (by simp))]
      simp only [hrest]

/-- **Replay of whole records** and a tail that is not a record delivers these records. -/
theorem replayed_encodeAll {rs : List Record} (hrs : ∀ r ∈ rs, Fits r) {t : Bytes}
    (ht : readRecord t = none) (pos : ℕ) :
    WriteAheadLog.replayed ⟨encodeAll rs ++ t, pos⟩ = rs := by
  refine replayLoop_encodeAll hrs ht ?_
  have := length_le_encodeAll rs
  simp only [List.length_append]; omega

lemma readRecord_nil : readRecord [] = none := rfl

namespace WriteAheadLog

@[simp] lemma write_at_end {f : Bytes} (bs : Bytes) :
    write ⟨f, f.length⟩ bs = ⟨f ++ bs, (f ++ bs).length⟩ := by
  simp [write]

lemma appendRecord_at_end (f : Bytes) (r : Record) :
    appendRecord ⟨f, f.length⟩ r = ⟨f ++ encode r, (f ++ encode r).length⟩ := by
  by_cases ht : r.type = kPut <;>
    simp only [appendRecord, encode, ht, if_true, if_false, write_at_end, List.append_assoc,
      List.append_nil]

end WriteAheadLog

end DistDB.WalModel
