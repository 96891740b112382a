import DistDB.Layers
import DistDB.SstModel
import DistDB.WalModel

/-!
The storage engine of `storage/engine.cpp` and `storage/memtable.cpp`.

The path of a table is its sequence number: `SSTablePath` gives every number its own name
and `Open` reads the number back from it. A call that writes also returns its durable
writes: the disk after each of them, in order, labelled with the place in the code. These
are the states a crash inside the call can leave behind.
-/

namespace DistDB.EngineModel

open SstModel WalModel Layers

def kMemtableFlushThreshold : ℕ := 4
def kCompactionTriggerCount : ℕ := 4

/-- A deleted key is stored as a tombstone, `none`. -/
abbrev Memtable := OrdMap Bytes (Option Bytes)

namespace Memtable

def put (m : Memtable) (key value : Bytes) : Memtable := m.insert key (some value)

def delete (m : Memtable) (key : Bytes) : Memtable := m.insert key none

def lookup (m : Memtable) (key : Bytes) : LookupResult := .of (m.find key)

def scan (m : Memtable) (p : Bytes) : List Entry :=
  (m.entries.dropWhile fun e => decide (e.1 < p)).takeWhile fun e => Bytes.startsWith e.1 p

/-- The callback `Open` gives to `Replay`. -/
def replay (m : Memtable) (r : Record) : Memtable :=
  if r.type = kPut then put m r.key r.value else delete m r.key

end Memtable

/-! ### Engine -/

structure Disk where
  wal : Bytes
  sst : OrdMap ℕ Bytes
  tmp : OrdMap ℕ Bytes

structure Table where
  seq : ℕ
  reader : SSTableReader

structure StorageEngine where
  wal : WriteAheadLog
  sst : OrdMap ℕ Bytes
  tmp : OrdMap ℕ Bytes
  memtable : Memtable
  /-- Newest first. -/
  sstables : List Table
  nextSeq : ℕ

def StorageEngine.disk (e : StorageEngine) : Disk := ⟨e.wal.file, e.sst, e.tmp⟩

/-- The durable writes of a call to `Put` or `Delete`, each named by what was just done. -/
inductive Point
  | logged
  | flushTmp
  | flushRename
  | walReset
  | compactTmp
  | compactRename
  /-- So many of the merged tables are removed. -/
  | removed (n : ℕ)
  deriving DecidableEq

/-- The disk after each durable write of a call, and what the call returns. -/
abbrev Outcome := List (Point × Disk) × Except OpenError StorageEngine

def emptyDisk : Disk := ⟨[], .empty, .empty⟩

/-- `Open` on a directory. -/
def openEngine (d : Disk) : Except OpenError StorageEngine := do
  let sstables ← d.sst.entries.reverse.mapM fun f => do
    let reader ← SSTableReader.openTable f.2
    return (⟨f.1, reader⟩ : Table)
  let wal := WriteAheadLog.openFile d.wal
  return {
    wal := wal.replay
    sst := d.sst
    tmp := .empty
    memtable := wal.replayed.foldl Memtable.replay .empty
    sstables := sstables
    nextSeq := d.sst.entries.foldl (fun n f => max n (f.1 + 1)) 1 }

namespace StorageEngine

/-- The loop of `MaybeCompact` that removes the merged tables, after `n` removals. -/
def removals (e : StorageEngine) (n : ℕ) : List ℕ → List (Point × Disk) × StorageEngine
  | [] => ([], e)
  | path :: paths =>
    let e := { e with sst := e.sst.erase path }
    let (images, out) := e.removals (n + 1) paths
    ((.removed (n + 1), e.disk) :: images, out)

/-- Every table, newest first, in one map; an older value never replaces a newer one. -/
def mergedTables (e : StorageEngine) : OrdMap Bytes (Option Bytes) :=
  e.sstables.foldl (fun m t => m.emplaceAll t.reader.readAll) .empty

def maybeCompact (e : StorageEngine) : Outcome :=
  if e.sstables.length < kCompactionTriggerCount then ([], .ok e) else
  let file := writeTable (e.mergedTables.entries.filter fun kv => kv.2.isSome)
  let seq := e.nextSeq
  let e₁ := { e with nextSeq := seq + 1, tmp := e.tmp.insert seq file }
  let e₂ := { e₁ with tmp := e₁.tmp.erase seq, sst := e₁.sst.insert seq file }
  match SSTableReader.openTable file with
  | .error err => ([(.compactTmp, e₁.disk), (.compactRename, e₂.disk)], .error err)
  | .ok reader =>
    let (images, out) := removals { e₂ with sstables := [⟨seq, reader⟩] } 0
      (e.sstables.map Table.seq)
    ((.compactTmp, e₁.disk) :: (.compactRename, e₂.disk) :: images, .ok out)

def flushMemtable (e : StorageEngine) : Outcome :=
  if e.memtable.size = 0 then ([], .ok e) else
  let file := writeTable e.memtable.entries
  let seq := e.nextSeq
  let e₁ := { e with nextSeq := seq + 1, tmp := e.tmp.insert seq file }
  let e₂ := { e₁ with tmp := e₁.tmp.erase seq, sst := e₁.sst.insert seq file }
  match SSTableReader.openTable file with
  | .error err => ([(.flushTmp, e₁.disk), (.flushRename, e₂.disk)], .error err)
  | .ok reader =>
    let e₃ := { e₂ with
      sstables := ⟨seq, reader⟩ :: e₂.sstables
      memtable := .empty
      wal := e₂.wal.reset }
    let (images, out) := e₃.maybeCompact
    ((.flushTmp, e₁.disk) :: (.flushRename, e₂.disk) :: (.walReset, e₃.disk) :: images, out)

/-- The common part of `Put` and `Delete`, once the log and the memtable have the record. -/
def flushIfFull (e : StorageEngine) : Outcome :=
  if e.memtable.size ≥ kMemtableFlushThreshold then
    let (images, out) := e.flushMemtable
    ((.logged, e.disk) :: images, out)
  else ([(.logged, e.disk)], .ok e)

def put (e : StorageEngine) (key value : Bytes) : Outcome :=
  flushIfFull { e with
    wal := e.wal.appendPut key value
    memtable := e.memtable.put key value }

def delete (e : StorageEngine) (key : Bytes) : Outcome :=
  flushIfFull { e with
    wal := e.wal.appendDelete key
    memtable := e.memtable.delete key }

/-- `Reset` discards everything. -/
def reset (e : StorageEngine) : StorageEngine where
  wal := e.wal.reset
  sst := (e.sstables.map Table.seq).foldl OrdMap.erase e.sst
  tmp := e.tmp
  memtable := .empty
  sstables := []
  nextSeq := 1

def getTables (key : Bytes) : List Table → Option Bytes
  | [] => none
  | t :: ts =>
    match t.reader.lookup key with
    | .kFound v => some v
    | .kDeleted => none
    | .kNotFound => getTables key ts

def get (e : StorageEngine) (key : Bytes) : Option Bytes :=
  match e.memtable.lookup key with
  | .kFound v => some v
  | .kDeleted => none
  | .kNotFound => getTables key e.sstables

def scan (e : StorageEngine) (p : Bytes) : List (Bytes × Bytes) :=
  let merged := e.sstables.foldl (fun m t => m.emplaceAll (t.reader.scan p))
    (OrdMap.empty.emplaceAll (e.memtable.scan p))
  (merged.filterMap fun _ v => v).entries

end StorageEngine

end DistDB.EngineModel
