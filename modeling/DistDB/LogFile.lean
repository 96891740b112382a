import DistDB.LogCalls

/-!
The log file of `raft/log.cpp`, and the log in memory beside it.

Indices and terms have 64 bits here, so an index may wrap. Every call that changes the log writes
the whole file, and a file that was written is read back as it was (`load_encode`). So the file
always gives the log in memory, whatever file the run began with (`file_is_log`).
-/

namespace DistDB.LogFile

open Bytes LogCalls

def encodeEntry (e : LogEntry) : Bytes :=
  le 8 e.index ++ (le 8 e.term ++ (le 4 e.command.length ++ e.command))

/-- The file without its last field, as it was written before there was `applied_index_`. -/
def encodeOld (log : RaftLog) : Bytes :=
  le 8 log.snapshotIndex ++ (le 8 log.snapshotTerm ++
    (le 4 log.entries.length ++ log.entries.flatMap encodeEntry))

/-- What `Save` writes. -/
def encode (log : RaftLog) : Bytes := encodeOld log ++ le 8 log.appliedIndex

structure Stream where
  rest : Bytes
  failed : Bool

/-- `ReadRaw` into a number of `w` bytes that holds `v`: of a file that ends too soon, it takes
what there is. -/
def readRaw (w v : ℕ) (s : Stream) : ℕ × Stream :=
  if s.failed then (v, s)
  else if s.rest.length < w then (val (s.rest ++ (le w v).drop s.rest.length), ⟨[], true⟩)
  else (val (s.rest.take w), ⟨s.rest.drop w, false⟩)

/-- The command, which is resized before it is read. -/
def readCommand (len : ℕ) (s : Stream) : Bytes × Stream :=
  if len = 0 ∨ s.failed then (List.replicate len 0, s)
  else if s.rest.length < len then
    (s.rest ++ List.replicate (len - s.rest.length) 0, ⟨[], true⟩)
  else (s.rest.take len, ⟨s.rest.drop len, false⟩)

def readEntry (s : Stream) : LogEntry × Stream :=
  let (index, s) := readRaw 8 0 s
  let (term, s) := readRaw 8 0 s
  let (len, s) := readRaw 4 0 s
  let (command, s) := readCommand len s
  (⟨index, term, command⟩, s)

def readEntries : ℕ → Stream → List LogEntry × Stream
  | 0, s => ([], s)
  | n + 1, s =>
    let (e, s) := readEntry s
    let (es, s) := readEntries n s
    (e :: es, s)

/-- `Load` on a new `RaftLog`; `none` if there is no file. -/
def load : Option Bytes → RaftLog
  | none => .empty
  | some file =>
    let (snapshotIndex, s) := readRaw 8 0 ⟨file, false⟩
    let (snapshotTerm, s) := readRaw 8 0 s
    let (count, s) := readRaw 4 0 s
    let (entries, s) := readEntries count s
    let (appliedIndex, s) := readRaw 8 0 s
    ⟨snapshotIndex, snapshotTerm, entries, if s.failed then snapshotIndex else appliedIndex⟩

/-- A log and its file. -/
structure Stored where
  log : RaftLog
  file : Option Bytes

/-- What `entries_[pos]` or its absence makes `AppendEntriesFrom` do: the entry is `changed`. -/
def puts (log : RaftLog) (idx : ℕ) (e : LogEntry) : Bool :=
  log.snapshotIndex < idx &&
    (log.entryAt (idx - log.snapshotIndex - 1)).all fun old => old.term ≠ e.term

/-- The loop of `AppendEntriesFrom` with its flag, on indices that wrap. -/
def putAll (log : RaftLog) (changed : Bool) (idx : ℕ) : List LogEntry → RaftLog × Bool
  | [] => (log, changed)
  | e :: es =>
    putAll (log.put (idx % 2 ^ 64) e) (changed || puts log (idx % 2 ^ 64) e) (idx + 1) es

namespace Stored

def save (s : Stored) : Stored := { s with file := some (encode s.log) }

def withLog (s : Stored) (log : RaftLog) : Stored := { s with log := log }

def append (s : Stored) (term : ℕ) (command : Bytes) : Stored :=
  let e : LogEntry := ⟨(s.log.lastIndex + 1) % 2 ^ 64, term, command⟩
  (s.withLog { s.log with entries := s.log.entries ++ [e] }).save

def appendEntriesFrom (s : Stored) (prevLogIndex prevLogTerm : ℕ) (entries : List LogEntry) :
    Stored × Bool :=
  if prevLogIndex > 0 ∧ s.log.termAt prevLogIndex ≠ prevLogTerm then (s, false)
  else
    let (log, changed) := putAll s.log false (prevLogIndex + 1) entries
    (if changed then (s.withLog log).save else s.withLog log, true)

def compactTo (s : Stored) (lastIncludedIndex lastIncludedTerm : ℕ) : Stored :=
  if lastIncludedIndex ≤ s.log.snapshotIndex then s
  else (s.withLog (s.log.compactTo lastIncludedIndex lastIncludedTerm)).save

def setAppliedIndex (s : Stored) (index : ℕ) : Stored :=
  (s.withLog (s.log.setAppliedIndex index)).save

/-- After a call. -/
def call (s : Stored) : Call → Stored
  | .append term command => s.append term command
  | .appendEntriesFrom prevLogIndex prevLogTerm entries =>
    (s.appendEntriesFrom prevLogIndex prevLogTerm entries).1
  | .compactTo lastIncludedIndex lastIncludedTerm => s.compactTo lastIncludedIndex lastIncludedTerm
  | .setAppliedIndex index => s.setAppliedIndex index

end Stored

structure FitsEntry (e : LogEntry) : Prop where
  index : e.index < 2 ^ 64
  term : e.term < 2 ^ 64
  length : e.command.length < 2 ^ 32

/-- The numbers fit their types, and the sizes their fields. -/
structure FitsFields (log : RaftLog) : Prop where
  snapshotIndex : log.snapshotIndex < 2 ^ 64
  snapshotTerm : log.snapshotTerm < 2 ^ 64
  entries : ∀ e ∈ log.entries, FitsEntry e
  appliedIndex : log.appliedIndex < 2 ^ 64

/-- The count of the entries fits its field, too. -/
structure Fits (log : RaftLog) : Prop extends FitsFields log where
  count : log.entries.length < 2 ^ 32

/-- The numbers of a call fit their types, and its commands the field of their length. -/
def FitsCall : Call → Prop
  | .append term command => term < 2 ^ 64 ∧ command.length < 2 ^ 32
  | .appendEntriesFrom prevLogIndex prevLogTerm entries =>
    prevLogIndex < 2 ^ 64 ∧ prevLogTerm < 2 ^ 64 ∧ ∀ e ∈ entries, FitsEntry e
  | .compactTo lastIncludedIndex lastIncludedTerm =>
    lastIncludedIndex < 2 ^ 64 ∧ lastIncludedTerm < 2 ^ 64
  | .setAppliedIndex index => index < 2 ^ 64

/-- The call fits, and so does the number of entries that it leaves. -/
def Allowed (s : Stored) (c : Call) : Prop :=
  FitsCall c ∧ (s.call c).log.entries.length < 2 ^ 32

/-! ### Reading back -/

variable {w v n : ℕ} {s : Stream} {t : Bytes} {log : RaftLog}

lemma readRaw_le (hn : n < 256 ^ w) :
    readRaw w v ⟨le w n ++ t, false⟩ = (n, ⟨t, false⟩) := by
  have htake : (le w n ++ t).take w = le w n := List.take_left' (length_le w n)
  have hdrop : (le w n ++ t).drop w = t := List.drop_left' (length_le w n)
  simp [readRaw, htake, hdrop, val_le_of_lt hn]

lemma readRaw_nil (hw : 0 < w) : (readRaw w v ⟨[], false⟩).2.failed = true := by
  simp [readRaw, hw]

lemma readCommand_append (command : Bytes) :
    readCommand command.length ⟨command ++ t, false⟩ = (command, ⟨t, false⟩) := by
  cases command with
  | nil => rfl
  | cons c command => simp [readCommand]

lemma readEntry_encode {e : LogEntry} (h : FitsEntry e) :
    readEntry ⟨encodeEntry e ++ t, false⟩ = (e, ⟨t, false⟩) := by
  unfold readEntry encodeEntry
  simp only [List.append_assoc]
  rw [readRaw_le (h.index.trans_eq (by norm_num))]
  dsimp only
  rw [readRaw_le (h.term.trans_eq (by norm_num))]
  dsimp only
  rw [readRaw_le (h.length.trans_eq (by norm_num))]
  dsimp only
  rw [readCommand_append]

lemma readEntries_encode {es : List LogEntry} (h : ∀ e ∈ es, FitsEntry e) :
    readEntries es.length ⟨es.flatMap encodeEntry ++ t, false⟩ = (es, ⟨t, false⟩) := by
  induction es with
  | nil => rfl
  | cons e es ih =>
    obtain ⟨he, hes⟩ := List.forall_mem_cons.mp h
    rw [List.length_cons, readEntries, List.flatMap_cons, List.append_assoc, readEntry_encode he]
    dsimp only
    rw [ih hes]

lemma load_encodeOld (h : Fits log) :
    load (some (encodeOld log ++ t)) = { log with
      appliedIndex := if (readRaw 8 0 ⟨t, false⟩).2.failed then log.snapshotIndex
        else (readRaw 8 0 ⟨t, false⟩).1 } := by
  unfold load encodeOld
  simp only [List.append_assoc]
  rw [readRaw_le (h.snapshotIndex.trans_eq (by norm_num))]
  dsimp only
  rw [readRaw_le (h.snapshotTerm.trans_eq (by norm_num))]
  dsimp only
  rw [readRaw_le (h.count.trans_eq (by norm_num))]
  dsimp only
  rw [readEntries_encode h.entries]

/-- **A saved log is read back.** -/
theorem load_encode (h : Fits log) : load (some (encode log)) = log := by
  have happlied := readRaw_le (v := 0) (t := []) (w := 8) (h.appliedIndex.trans_eq (by norm_num))
  rw [List.append_nil] at happlied
  rw [encode, load_encodeOld h, happlied]
  rfl

/-- **A file of the older format** has applied what is compacted. -/
theorem load_old (h : Fits log) :
    load (some (encodeOld log)) = { log with appliedIndex := log.snapshotIndex } := by
  have hload := load_encodeOld (t := []) h
  rw [List.append_nil, readRaw_nil (by decide), if_pos rfl] at hload
  exact hload

lemma readRaw_lt (hv : v < 256 ^ w) : (readRaw w v s).1 < 256 ^ w := by
  unfold readRaw
  split_ifs with hfailed hshort
  · exact hv
  · refine (val_lt _).trans_le (Nat.pow_le_pow_right (by omega) ?_)
    simp only [List.length_append, List.length_drop, length_le]
    omega
  · refine (val_lt _).trans_le (Nat.pow_le_pow_right (by omega) ?_)
    simp

lemma length_readCommand (len : ℕ) (s : Stream) : (readCommand len s).1.length = len := by
  unfold readCommand
  split_ifs with hnone hshort
  · simp
  · simp only [List.length_append, List.length_replicate]
    omega
  · simp only [List.length_take]
    omega

lemma fits_readEntry (s : Stream) : FitsEntry (readEntry s).1 where
  index := (readRaw_lt (by norm_num)).trans_eq (by norm_num)
  term := (readRaw_lt (by norm_num)).trans_eq (by norm_num)
  length := by
    show (readCommand _ _).1.length < 2 ^ 32
    rw [length_readCommand]
    exact (readRaw_lt (by norm_num)).trans_eq (by norm_num)

lemma fits_readEntries (n : ℕ) (s : Stream) :
    (readEntries n s).1.length = n ∧ ∀ e ∈ (readEntries n s).1, FitsEntry e := by
  induction n generalizing s with
  | zero => exact ⟨rfl, fun e he => absurd he List.not_mem_nil⟩
  | succ n ih =>
    obtain ⟨hlength, hfits⟩ := ih (readEntry s).2
    refine ⟨congrArg (· + 1) hlength, List.forall_mem_cons.mpr ⟨fits_readEntry s, hfits⟩⟩

lemma fits_load (file : Option Bytes) : Fits (load file) := by
  cases file with
  | none =>
    exact ⟨⟨by decide, by decide, fun e he =>
      absurd he List.not_mem_nil, by decide⟩, by decide⟩
  | some file =>
    have hnum : ∀ s, (readRaw 8 0 s).1 < 2 ^ 64 := fun s =>
      (readRaw_lt (by norm_num)).trans_eq (by norm_num)
    have hcount : ∀ s, (readRaw 4 0 s).1 < 2 ^ 32 := fun s =>
      (readRaw_lt (by norm_num)).trans_eq (by norm_num)
    unfold load
    dsimp only
    generalize hsnapshot : readRaw 8 0 ⟨file, false⟩ = snapshotIndex
    generalize hterm : readRaw 8 0 snapshotIndex.2 = snapshotTerm
    generalize hlength : readRaw 4 0 snapshotTerm.2 = count
    generalize hread : readEntries count.1 count.2 = entries
    have hentries := fits_readEntries count.1 count.2
    rw [hread] at hentries
    generalize happlied : readRaw 8 0 entries.2 = appliedIndex
    refine ⟨⟨hsnapshot ▸ hnum _, hterm ▸ hnum _, hentries.2, ?_⟩, ?_⟩
    · dsimp only
      split_ifs
      · exact hsnapshot ▸ hnum _
      · exact happlied ▸ hnum _
    · exact hentries.1.trans_lt (hlength ▸ hcount _)

/-! ### What a call keeps -/

lemma mem_put {idx : ℕ} {e x : LogEntry} (h : x ∈ (log.put idx e).entries) :
    x ∈ log.entries ∨ x = { e with index := idx } := by
  unfold RaftLog.put at h
  split_ifs at h
  · exact .inl h
  · dsimp only at h
    split at h
    · split_ifs at h
      · exact .inl h
      · rcases List.mem_append.mp h with h | h
        · exact .inl (List.mem_of_mem_take h)
        · exact .inr (List.mem_singleton.mp h)
    · rcases List.mem_append.mp h with h | h
      · exact .inl h
      · exact .inr (List.mem_singleton.mp h)

lemma put_of_not_puts {idx : ℕ} {e : LogEntry} (h : puts log idx e = false) :
    log.put idx e = log := by
  unfold RaftLog.put
  split_ifs with hcompacted
  · rfl
  · dsimp only
    cases hold : log.entryAt (idx - log.snapshotIndex - 1) with
    | none =>
      rw [puts, hold] at h
      simp [Nat.lt_of_not_le hcompacted] at h
    | some old =>
      rw [puts, hold] at h
      have hterm : old.term = e.term := by simpa [Nat.lt_of_not_le hcompacted] using h
      simp only [hterm, if_true]

lemma putAll_unchanged {changed : Bool} {idx : ℕ} {es : List LogEntry}
    (h : (putAll log changed idx es).2 = false) :
    changed = false ∧ (putAll log changed idx es).1 = log := by
  induction es generalizing log changed idx with
  | nil => exact ⟨h, rfl⟩
  | cons e es ih =>
    rw [putAll] at h ⊢
    obtain ⟨hflag, hlog⟩ := ih h
    obtain ⟨hchanged, hputs⟩ := Bool.or_eq_false_iff.mp hflag
    exact ⟨hchanged, hlog.trans (put_of_not_puts hputs)⟩

lemma fits_put {idx : ℕ} {e : LogEntry} (hidx : idx < 2 ^ 64) (he : FitsEntry e)
    (h : FitsFields log) : FitsFields (log.put idx e) where
  snapshotIndex := by simpa only [RaftLog.snapshotIndex_put] using h.snapshotIndex
  snapshotTerm := by simpa only [RaftLog.snapshotTerm_put] using h.snapshotTerm
  entries := fun x hx => by
    rcases mem_put hx with hx | rfl
    · exact h.entries x hx
    · exact ⟨hidx, he.term, he.length⟩
  appliedIndex := by simpa only [RaftLog.appliedIndex_put] using h.appliedIndex

lemma fits_putAll {changed : Bool} {idx : ℕ} {es : List LogEntry}
    (hes : ∀ e ∈ es, FitsEntry e) (h : FitsFields log) :
    FitsFields (putAll log changed idx es).1 := by
  induction es generalizing log changed idx with
  | nil => exact h
  | cons e es ih =>
    obtain ⟨he, hes⟩ := List.forall_mem_cons.mp hes
    exact ih hes (fits_put (Nat.mod_lt _ (by decide)) he h)

/-- **What a call that fits leaves** fits. -/
lemma fits_call {s : Stored} {c : Call} (hc : FitsCall c) (h : FitsFields s.log) :
    FitsFields (s.call c).log := by
  cases c with
  | append term command =>
    refine { h with entries := fun e he => ?_ }
    rcases List.mem_append.mp he with he | he
    · exact h.entries e he
    · obtain rfl := List.mem_singleton.mp he
      exact ⟨Nat.mod_lt _ (by decide), hc.1, hc.2⟩
  | appendEntriesFrom prevLogIndex prevLogTerm entries =>
    have hall : FitsFields (putAll s.log false (prevLogIndex + 1) entries).1 :=
      fits_putAll hc.2.2 h
    simp only [Stored.call, Stored.appendEntriesFrom]
    split_ifs with hcheck hchanged
    · exact h
    · exact hall
    · exact hall
  | compactTo index term =>
    simp only [Stored.call, Stored.compactTo]
    split_ifs with hold
    · exact h
    · simp only [Stored.save, Stored.withLog, RaftLog.compactTo, if_neg hold]
      refine ⟨hc.1, hc.2, fun e he => ?_, h.appliedIndex⟩
      dsimp only at he
      split_ifs at he
      · exact h.entries e (List.mem_of_mem_drop he)
      · exact absurd he List.not_mem_nil
  | setAppliedIndex index => exact { h with appliedIndex := hc }

/-- **The file after a call** is the log that is saved, or nothing has changed. -/
lemma file_call (s : Stored) (c : Call) :
    (s.call c).file = some (encode (s.call c).log) ∨ s.call c = s := by
  cases c with
  | append term command => exact .inl rfl
  | appendEntriesFrom prevLogIndex prevLogTerm entries =>
    simp only [Stored.call, Stored.appendEntriesFrom]
    split_ifs with hcheck hchanged
    · exact .inr rfl
    · exact .inl rfl
    · refine .inr ?_
      dsimp only
      rw [(putAll_unchanged (Bool.eq_false_iff.mpr hchanged)).2]
      rfl
  | compactTo index term =>
    simp only [Stored.call, Stored.compactTo]
    split_ifs
    · exact .inr rfl
    · exact .inl rfl
  | setAppliedIndex index => exact .inl rfl

/-- **The log file is the log**: whatever file a log was loaded from and whatever calls are made,
after each of them a new log that loads the file is the log in memory. A file of the older format
gives the log that was saved, with what is compacted as what has been applied. -/
theorem file_is_log :
    (∀ file s, Reach (StepOf Stored.call) Allowed ⟨load file, file⟩ s →
      load s.file = s.log) ∧ ∀ log, Fits log →
        load (some (encodeOld log)) = { log with appliedIndex := log.snapshotIndex } := by
  refine ⟨fun file s h => ?_, fun log h => load_old h⟩
  refine (h.invariant (I := fun s => Fits s.log ∧ load s.file = s.log)
    ⟨fits_load file, rfl⟩ ?_).2
  rintro s c _ ⟨hfits, hload⟩ ⟨hc, hcount⟩ rfl
  have hfits' : Fits (s.call c).log := ⟨fits_call hc hfits.toFitsFields, hcount⟩
  refine ⟨hfits', ?_⟩
  rcases file_call s c with hsaved | hsame
  · rw [hsaved, load_encode hfits']
  · rw [hsame, hload]

/-- A log that was saved in the older format, with an entry behind its snapshot. -/
def olderLog : RaftLog := ⟨1, 1, [⟨2, 1, [98]⟩], 2⟩

/-- A leader of term 2 cuts the last of its entries off again, and the snapshot grows. -/
def newerCalls : List Call := [
  .append 1 [99], .appendEntriesFrom 2 1 [⟨3, 2, [100]⟩, ⟨4, 2, [101]⟩],
  .setAppliedIndex 4, .compactTo 3 2]

theorem file_is_log_olderFile :
    load (some (encodeOld olderLog)) = ⟨1, 1, [⟨2, 1, [98]⟩], 1⟩ ∧
    load (runOf Stored.call ⟨load (some (encodeOld olderLog)), some (encodeOld olderLog)⟩
      newerCalls).file = ⟨3, 2, [⟨4, 2, [101]⟩], 4⟩ := by
  have holder : Fits olderLog := ⟨⟨by decide, by decide, fun e he => by
    rw [List.mem_singleton.mp he]
    exact ⟨by decide, by decide, by decide⟩, by decide⟩, by decide⟩
  refine ⟨file_is_log.2 olderLog holder,
    (file_is_log.1 (some (encodeOld olderLog)) _ ?_).trans ?_⟩
  · have hnew : ∀ e ∈ [⟨3, 2, [100]⟩, ⟨4, 2, [101]⟩], FitsEntry e := by
      intro e he
      rcases List.mem_pair.mp he with rfl | rfl
      · exact ⟨by decide, by decide, by decide⟩
      · exact ⟨by decide, by decide, by decide⟩
    refine reach_runOf_of fun i hi => ?_
    rcases i with _ | _ | _ | _ | i
    · show Allowed _ (.append 1 [99])
      exact ⟨⟨by decide, by decide⟩, by decide +kernel⟩
    · show Allowed _ (.appendEntriesFrom 2 1 [⟨3, 2, [100]⟩, ⟨4, 2, [101]⟩])
      exact ⟨⟨by decide, by decide, hnew⟩, by decide +kernel⟩
    · show Allowed _ (.setAppliedIndex 4)
      exact ⟨show 4 < 2 ^ 64 by decide, by decide +kernel⟩
    · show Allowed _ (.compactTo 3 2)
      exact ⟨⟨by decide, by decide⟩, by decide +kernel⟩
    · simp [newerCalls] at hi
      omega
  · decide +kernel

lemma fst_putAll {changed : Bool} {idx : ℕ} {es : List LogEntry}
    (h : idx + es.length ≤ 2 ^ 64) : (putAll log changed idx es).1 = log.putAll idx es := by
  induction es generalizing log changed idx with
  | nil => rfl
  | cons e es ih =>
    rw [List.length_cons] at h
    rw [putAll, RaftLog.putAll, Nat.mod_eq_of_lt (by omega), ih (by omega)]

/-- The call gives no index that wraps. -/
def NoWrap (log : RaftLog) : Call → Prop
  | .append _ _ => log.lastIndex + 1 < 2 ^ 64
  | .appendEntriesFrom prevLogIndex _ entries => prevLogIndex + 1 + entries.length ≤ 2 ^ 64
  | _ => True

/-- **As long as no index wraps**, the calls are those of the log whose indices have no bound. -/
theorem log_call {s : Stored} {c : Call} (h : NoWrap s.log c) :
    (s.call c).log = LogCalls.call s.log c := by
  cases c with
  | append term command =>
    simp only [Stored.call, Stored.append, LogCalls.call, RaftLog.append]
    rw [Nat.mod_eq_of_lt h]
    rfl
  | appendEntriesFrom prevLogIndex prevLogTerm entries =>
    simp only [Stored.call, Stored.appendEntriesFrom, LogCalls.call, RaftLog.appendEntriesFrom]
    rw [← fst_putAll h]
    split_ifs with hcheck hchanged
    · rfl
    · rfl
    · rfl
  | compactTo index term =>
    simp only [Stored.call, Stored.compactTo, LogCalls.call]
    split_ifs with hold
    · rw [RaftLog.compactTo, if_pos hold]
    · rfl
  | setAppliedIndex index => rfl

end DistDB.LogFile
