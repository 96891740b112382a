import Mathlib.Tactic.Lemma
import DistDB.Bytes

/-!
The replicated log of `raft/log.cpp`: the entries behind a snapshot boundary.

Every call that changes the log saves it whole before it returns, so the log in memory is
also the log on disk. Terms and indices are natural numbers.
-/

namespace DistDB

abbrev NodeId := ℕ

structure LogEntry where
  index : ℕ
  term : ℕ
  command : Bytes
  deriving DecidableEq

structure RaftLog where
  snapshotIndex : ℕ
  snapshotTerm : ℕ
  /-- In index order, from `snapshotIndex + 1` on. -/
  entries : List LogEntry
  appliedIndex : ℕ
  deriving DecidableEq

namespace RaftLog

def empty : RaftLog := ⟨0, 0, [], 0⟩

def lastIndex (log : RaftLog) : ℕ :=
  match log.entries.getLast? with
  | none => log.snapshotIndex
  | some e => e.index

def lastTerm (log : RaftLog) : ℕ :=
  match log.entries.getLast? with
  | none => log.snapshotTerm
  | some e => e.term

/-- `entries_[i]`. -/
def entryAt (log : RaftLog) (i : ℕ) : Option LogEntry := log.entries[i]?

/-- `TermAt`: zero before the snapshot and past the end. -/
def termAt (log : RaftLog) (index : ℕ) : ℕ :=
  if index = log.snapshotIndex then log.snapshotTerm
  else if index < log.snapshotIndex ∨ index > log.lastIndex then 0
  else (log.entryAt (index - log.snapshotIndex - 1)).elim 0 LogEntry.term

/-- `At`. -/
def get (log : RaftLog) (index : ℕ) : Option LogEntry :=
  if index ≤ log.snapshotIndex ∨ index > log.lastIndex then none
  else log.entryAt (index - log.snapshotIndex - 1)

lemma get_mem {log : RaftLog} {index : ℕ} {e : LogEntry} (h : log.get index = some e) :
    e ∈ log.entries := by
  unfold get at h
  split at h
  · cases h
  · exact List.mem_of_getElem? h

def append (log : RaftLog) (term : ℕ) (command : Bytes) : RaftLog × ℕ :=
  let e : LogEntry := ⟨log.lastIndex + 1, term, command⟩
  ({ log with entries := log.entries ++ [e] }, e.index)

/-- One pass of the loop of `AppendEntriesFrom`, for the entry that belongs at `idx`. -/
def put (log : RaftLog) (idx : ℕ) (e : LogEntry) : RaftLog :=
  if idx ≤ log.snapshotIndex then log else
  let pos := idx - log.snapshotIndex - 1
  match log.entryAt pos with
  | some old =>
    if old.term = e.term then log
    else { log with entries := log.entries.take pos ++ [{ e with index := idx }] }
  | none => { log with entries := log.entries ++ [{ e with index := idx }] }

/-- The loop of `AppendEntriesFrom`, whose next entry belongs at `idx`. -/
def putAll (log : RaftLog) (idx : ℕ) : List LogEntry → RaftLog
  | [] => log
  | e :: es => (log.put idx e).putAll (idx + 1) es

/-- `AppendEntriesFrom`; `none` is its `false`. -/
def appendEntriesFrom (log : RaftLog) (prevLogIndex : ℕ) (prevLogTerm : ℕ)
    (entries : List LogEntry) : Option RaftLog :=
  if prevLogIndex > 0 ∧ log.termAt prevLogIndex ≠ prevLogTerm then none
  else some (log.putAll (prevLogIndex + 1) entries)

def compactTo (log : RaftLog) (lastIncludedIndex : ℕ) (lastIncludedTerm : ℕ) : RaftLog :=
  if lastIncludedIndex ≤ log.snapshotIndex then log
  else { log with
    entries :=
      if lastIncludedIndex ≤ log.lastIndex ∧
        log.termAt lastIncludedIndex = lastIncludedTerm then log.entries.drop
          (lastIncludedIndex - log.snapshotIndex)
      else []
    snapshotIndex := lastIncludedIndex
    snapshotTerm := lastIncludedTerm }

lemma snapshotIndex_compactTo (log : RaftLog) (index term : ℕ) :
    (log.compactTo index term).snapshotIndex = max log.snapshotIndex index := by
  unfold compactTo
  split
  · rename_i hle
    exact (max_eq_left hle).symm
  · rename_i hlt
    exact (max_eq_right (Nat.le_of_not_le hlt)).symm

lemma snapshotIndex_compactTo_le {log : RaftLog} {index term bound : ℕ}
    (hlog : log.snapshotIndex ≤ bound) (hindex : index ≤ bound) :
    (log.compactTo index term).snapshotIndex ≤ bound :=
  (snapshotIndex_compactTo log index term).trans_le (max_le hlog hindex)

def setAppliedIndex (log : RaftLog) (index : ℕ) : RaftLog := { log with appliedIndex := index }

@[simp] lemma entries_setAppliedIndex (log : RaftLog) (index : ℕ) :
    (log.setAppliedIndex index).entries = log.entries := rfl

@[simp] lemma appliedIndex_setAppliedIndex (log : RaftLog) (index : ℕ) :
    (log.setAppliedIndex index).appliedIndex = index := rfl

lemma snapshotIndex_put (log : RaftLog) (idx : ℕ) (e : LogEntry) :
    (log.put idx e).snapshotIndex = log.snapshotIndex := by
  unfold put
  split_ifs
  · rfl
  · dsimp only
    split
    · split_ifs <;> rfl
    · rfl

lemma snapshotTerm_put (log : RaftLog) (idx : ℕ) (e : LogEntry) :
    (log.put idx e).snapshotTerm = log.snapshotTerm := by
  unfold put
  split_ifs
  · rfl
  · dsimp only
    split
    · split_ifs <;> rfl
    · rfl

lemma snapshotIndex_putAll (log : RaftLog) (idx : ℕ) (es : List LogEntry) :
    (log.putAll idx es).snapshotIndex = log.snapshotIndex := by
  induction es generalizing log idx with
  | nil => rfl
  | cons e es ih => rw [putAll, ih, snapshotIndex_put]

lemma snapshotTerm_putAll (log : RaftLog) (idx : ℕ) (es : List LogEntry) :
    (log.putAll idx es).snapshotTerm = log.snapshotTerm := by
  induction es generalizing log idx with
  | nil => rfl
  | cons e es ih => rw [putAll, ih, snapshotTerm_put]

lemma appendEntriesFrom_snapshot {log log' : RaftLog} {prev prevTerm : ℕ} {es : List LogEntry}
    (h : log.appendEntriesFrom prev prevTerm es = some log') :
    log'.snapshotIndex = log.snapshotIndex ∧ log'.snapshotTerm = log.snapshotTerm := by
  unfold appendEntriesFrom at h
  split_ifs at h
  cases h
  exact ⟨snapshotIndex_putAll log _ es, snapshotTerm_putAll log _ es⟩

lemma appliedIndex_put (log : RaftLog) (idx : ℕ) (e : LogEntry) :
    (log.put idx e).appliedIndex = log.appliedIndex := by
  unfold put
  split
  · rfl
  · dsimp only
    split
    · split <;> rfl
    · rfl

lemma appliedIndex_putAll (log : RaftLog) (idx : ℕ) (es : List LogEntry) :
    (log.putAll idx es).appliedIndex = log.appliedIndex := by
  induction es generalizing log idx with
  | nil => rfl
  | cons e es ih => rw [putAll, ih, appliedIndex_put]

end RaftLog

end DistDB
