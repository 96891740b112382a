import DistDB.Runs
import DistDB.ShardedTxns

/-!
Any number of sessions on a sharded database, and the same sessions on one store.

Lines are typed at the processes in any order; a process that ends is started again. As long as
requests are answered once they are applied, each shard holds its share of what one store holds
that every statement runs on where it is typed, and every transaction where it is committed
(`sessions_refine`).
-/

namespace DistDB.ShardedRuns

open NodeModel TxnModel TxnSystem SqlParser SqlExecutor SqlRuns SqlAtomic SqlRouting SqlTables
open SqlShards RowKeys SqlFrame Shell ShardedSessions ShardedTxns MembershipRuns Checks Bytes

variable {σ ι : Type} {o : Outside σ} {p : Process} {home : ShardId}
  {shards : σ → ShardId → Shard} {table : RoutingTable} {whole store : Store} {repl : Repl}
  {input : Bytes} {w : σ}

/-! ### One line -/

/-- The words of the shell, other than `commit`. -/
def ownWords : List Bytes :=
  [text "exit", text "quit", text "help", text "status", text "begin", text "rollback",
    text "add-server", text "remove-server"]

/-- What a line does to the one store. -/
def afterLine (repl : Repl) (input : Bytes) (whole : Store) : Store :=
  match firstWord input with
  | none => whole
  | some (first, _) =>
    if first = text "commit" then if repl.inTxn then afterTxn whole repl.txnBuffer else whole
    else if ownWords.contains first || repl.inTxn then whole
    else after whole (stripBom input)

/-- The shards run what the line asks for as one store does. -/
structure Fair (whole : Store) (repl : Repl) (input : Bytes) : Prop where
  short : Short input
  /-- A query may be anything. -/
  statement : ∀ stmt, repl.inTxn = false → parse (stripBom input) = .ok stmt →
    (∀ s, stmt ≠ .select s) → Alike whole stmt
  commit : StartsWith input "commit" → repl.inTxn = true →
    repl.txnBuffer.length < 2 ^ 32 ∧ AlikeAlong whole repl.txnBuffer

/-- What is buffered can be committed. -/
structure Buffered (table : RoutingTable) (whole : Store) (repl : Repl) : Prop where
  staged : ∀ b ∈ repl.txnBuffer, Staged table whole b
  lengths : ∀ b ∈ repl.txnBuffer, b.key.length < 2 ^ 32 ∧ b.sql.length < 2 ^ 32

lemma buffered_of_nil {repl : Repl} (h : repl.txnBuffer = []) : Buffered table whole repl :=
  ⟨h ▸ List.forall_mem_nil _, h ▸ List.forall_mem_nil _⟩

lemma short_stripBom (h : Short input) : (stripBom input).length < 2 ^ 32 := by
  have hlen := length_stripBom input
  have hshort : 3 * input.length + 10 < 2 ^ 32 := h
  omega

lemma afterLine_keeps {P : Store → Prop}
    (hkeeps : ∀ {store : Store} {sql : Bytes}, sql.length < 2 ^ 32 → P store →
      P (after store sql))
    (hshort : Short input) (hlen : ∀ b ∈ repl.txnBuffer, b.sql.length < 2 ^ 32) (h : P whole) :
    P (afterLine repl input whole) := by
  unfold afterLine
  split
  · exact h
  · split_ifs
    · unfold afterTxn
      split_ifs
      · exact runStaged_keeps
          (fun store => List.forall_mem_map.mpr fun b hb => hkeeps (hlen b hb)) h
      · exact h
    · exact h
    · exact h
    · exact hkeeps (short_stripBom hshort) h

lemma staged_afterLine {b : BufferedTxnStatement} (h : Staged table whole b) (hshort : Short input)
    (hbuffered : Buffered table whole repl) : Staged table (afterLine repl input whole) b :=
  @afterLine_keeps _ _ _ (Staged table · b) (fun hlen h => h.after hlen) hshort
    (fun b hb => (hbuffered.lengths b hb).2) h

lemma target_of_key {stmt : Statement} {key : Bytes} (h : tryExtractRowKey store stmt = some key) :
    ∃ d t, targetOf stmt = some (d, t) := by
  cases stmt with
  | insert s | select s | update s | delete s => exact ⟨_, _, rfl⟩
  | createDatabase s | createTable s | alterTableAddColumn s | showTables s | showDatabases =>
    cases h

/-- **What a pass buffers** can be committed. -/
lemma buffered_turns {repl' : Repl} (hturns : Turns o p w repl input repl') (hshort : Short input)
    (hengine : ∀ stmt, tryExtractRowKey (o.engine w) stmt = tryExtractRowKey whole stmt)
    (h : Buffered p.routing whole repl) :
    Buffered p.routing (afterLine repl input whole) repl' := by
  cases hturns with
  | same => exact ⟨fun b hb => staged_afterLine (h.staged b hb) hshort h, h.lengths⟩
  | begin | rollback | commitEmpty | commit => exact buffered_of_nil rfl
  | @stage stmt key sid _ hparse hstageable hkey hsid =>
    rw [hengine] at hkey
    obtain ⟨d, t, htarget⟩ := target_of_key hkey
    have hstrip := short_stripBom hshort
    have hlen := key_length hparse hkey
    have hinput : 3 * input.length + 10 < 2 ^ 32 := hshort
    have hline := length_stripBom input
    have hkeylen : key.length < 2 ^ 32 := by omega
    constructor
    · refine List.forall_mem_append.mpr
        ⟨fun b hb => staged_afterLine (h.staged b hb) hshort h,
          List.forall_mem_singleton.mpr ?_⟩
      exact staged_afterLine ⟨hparse, hstageable, htarget, .inl hkey, hsid⟩ hshort h
    · exact List.forall_mem_append.mpr
        ⟨h.lengths, List.forall_mem_singleton.mpr ⟨hkeylen, hstrip⟩⟩

lemma command_commit (line args : Bytes) : command o p repl line (text "commit") args w =
    ((commit o p repl w).1, .ok (commit o p repl w).2) := by
  unfold command
  rw [if_neg (by decide), if_neg (by decide), if_neg (by decide), if_neg (by decide),
    if_neg (by decide), if_pos rfl]

lemma command_statement {line first args : Bytes} (hcommit : first ≠ text "commit")
    (hown : first ∉ ownWords) :
    command o p repl line first args w = runStatement o p repl line w := by
  simp only [ownWords, List.mem_cons, List.not_mem_nil, or_false, not_or] at hown
  obtain ⟨hexit, hquit, hhelp, hstatus, hbegin, hrollback, hadd, hremove⟩ := hown
  unfold command
  rw [if_neg (not_or.mpr ⟨hexit, hquit⟩), if_neg hhelp, if_neg hstatus, if_neg hbegin,
    if_neg hrollback, if_neg hcommit, if_neg hadd, if_neg hremove]

lemma changeServers_shards (h : Serves o p.shardId shards) {read : Option ConfChangeCommand}
    {usage : Bytes} : shards (changeServers o p repl read usage w).1 = shards w := by
  unfold changeServers
  split
  · rfl
  · rename_i cc
    have hsame := h.servers p.shardId cc w
    unfold proposeHere
    split <;> (rename_i heq; rwa [heq] at hsame)

lemma command_own (h : Serves o p.shardId shards) {line first args : Bytes}
    (hown : first ∈ ownWords) : shards (command o p repl line first args w).1 = shards w := by
  have hcommit : first ≠ text "commit" := fun heq => absurd (heq ▸ hown) (by decide)
  unfold command
  rw [if_neg hcommit]
  split_ifs with hexit hhelp hstatus hbegin hrollback hadd hremove
  · rfl
  · rfl
  · rfl
  · rfl
  · rfl
  · exact changeServers_shards h
  · exact changeServers_shards h
  · simp [ownWords, *] at hown

section

variable (h : Serves o p.shardId shards) (hholds : Holds p.routing (shards w) whole)

include h hholds

lemma commit_holds (hnode : p.nodeId < 2 ^ 32) (hbuffered : Buffered p.routing whole repl)
    (hcount : repl.txnBuffer.length < 2 ^ 32) (halike : AlikeAlong whole repl.txnBuffer)
    (hin : repl.inTxn = true) :
    Holds p.routing (shards (commit o p repl w).1) (afterTxn whole repl.txnBuffer) := by
  unfold Shell.commit
  rw [if_pos hin]
  split_ifs with hempty
  · rw [hempty]
    exact hholds
  · exact runTransaction_holds h hholds (packed_lt hnode (Nat.mod_lt _ (by decide)))
      hbuffered.staged ⟨le_refl _, hbuffered.lengths⟩ hcount halike

/-- **One pass on the shards** does what the line does to one store. -/
theorem pass_holds (hcovers : Covers p.routing) (hhome : p.shardId ∈ p.routing.allShardIds)
    (hnode : p.nodeId < 2 ^ 32) (hbuffered : Buffered p.routing whole repl)
    (hfair : Fair whole repl input) :
    Holds p.routing (shards (pass o p repl input w).1) (afterLine repl input whole) := by
  unfold Shell.pass afterLine
  rw [firstWord]
  rcases hfirst : FormattedInput.word (stripBom input) with _ | ⟨first, args⟩
  · exact hholds
  dsimp only
  by_cases hcommit : first = text "commit"
  · subst hcommit
    rw [command_commit, if_pos rfl]
    split_ifs with hin
    · obtain ⟨hcount, halike⟩ := hfair.commit ⟨args, hfirst⟩ hin
      exact commit_holds h hholds hnode hbuffered hcount halike hin
    · unfold Shell.commit
      rwa [if_neg hin]
  rw [if_neg hcommit]
  by_cases hown : first ∈ ownWords
  · have hskips : (ownWords.contains first || repl.inTxn) = true := by simp [hown]
    rwa [command_own h hown, if_pos hskips]
  rw [command_statement hcommit hown, runStatement]
  cases hparse : parse (stripBom input) with
  | error e =>
    rw [after_of_error hparse, ite_self]
    exact hholds
  | ok stmt =>
    dsimp only
    by_cases hin : repl.inTxn = true
    · have hskips : (ownWords.contains first || repl.inTxn) = true := by simp [hin]
      rw [if_pos hin, if_pos hskips]
      exact hholds
    · have hruns : ¬(ownWords.contains first || repl.inTxn) = true := by simp [hown, hin]
      rw [if_neg hin, if_neg hruns]
      exact dispatch_holds hcovers h hhome hparse hholds
        (hfair.statement stmt (by simpa using hin) hparse)

end

/-- The world, the variables of each process, and the one store. -/
structure Sessions (ι σ : Type) where
  world : σ
  repls : ι → Repl
  store : Store

variable [DecidableEq ι]

/-- A line is typed at a process. One that has ended is started again. -/
def step (o : ι → Outside σ) (p : ι → Process) (s : Sessions ι σ) (e : ι × Bytes) :
    Sessions ι σ :=
  let (w, result) := pass (o e.1) (p e.1) (s.repls e.1) e.2 s.world
  ⟨w, Function.update s.repls e.1
    (match result with
    | .ok (repl, _) => repl
    | .error _ => .start), afterLine (s.repls e.1) e.2 s.store⟩

/-- The processes of a sharded database, and who answers them. -/
structure Cluster (o : ι → Outside σ) (p : ι → Process) (shards : σ → ShardId → Shard)
    (table : RoutingTable) : Prop where
  serves : ∀ i, Serves (o i) (p i).shardId shards
  routing : ∀ i, (p i).routing = table
  home : ∀ i, (p i).shardId ∈ table.allShardIds
  node : ∀ i, (p i).nodeId < 2 ^ 32
  covers : Covers table

/-- Each shard has its share, and each process has buffered what can be committed. -/
structure Refines (shards : σ → ShardId → Shard) (table : RoutingTable) (s : Sessions ι σ) :
    Prop where
  holds : Holds table (shards s.world) s.store
  buffered : ∀ i, Buffered table s.store (s.repls i)

theorem Refines.step {o : ι → Outside σ} {p : ι → Process}
    (hcluster : Cluster o p shards table) {s : Sessions ι σ} {e : ι × Bytes}
    (h : Refines shards table s) (hfair : Fair s.store (s.repls e.1) e.2) :
    Refines shards table (step o p s e) := by
  obtain ⟨i, input⟩ := e
  have hserves := hcluster.serves i
  have hrouting := hcluster.routing i
  have hhome : (p i).shardId ∈ (p i).routing.allShardIds := hrouting ▸ hcluster.home i
  have hholds : Holds (p i).routing (shards s.world) s.store := hrouting ▸ h.holds
  have hbuffered : Buffered (p i).routing s.store (s.repls i) := hrouting ▸ h.buffered i
  have hengine : ∀ stmt, tryExtractRowKey ((o i).engine s.world) stmt =
      tryExtractRowKey s.store stmt := by
    intro stmt
    rw [hserves.engine, hholds _ hhome]
    exact tryExtractRowKey_share stmt _
  have hpass := pass_holds hserves hholds (hrouting ▸ hcluster.covers) hhome (hcluster.node i)
    hbuffered hfair
  constructor
  · rw [hrouting] at hpass
    exact hpass
  · intro j
    show Buffered table (afterLine (s.repls i) input s.store) (Function.update s.repls i _ j)
    rw [Function.update_apply]
    split_ifs with hj
    · split
      · rename_i repl' out heq
        rw [← hrouting]
        exact buffered_turns (pass_turns heq) hfair.short hengine hbuffered
      · exact buffered_of_nil rfl
    · exact ⟨fun b hb => staged_afterLine ((h.buffered j).staged b hb) hfair.short
        (h.buffered i), (h.buffered j).lengths⟩

section

variable {o : ι → Outside σ} {p : ι → Process} {s : Sessions ι σ}
  (hcluster : Cluster o p shards table) (hstart : Holds table (shards w) whole)
  (h : Reach (StepOf (step o p)) (fun s e => Fair s.store (s.repls e.1) e.2)
    ⟨w, fun _ => .start, whole⟩ s)

include hcluster hstart h

lemma refines_of_reach : Refines shards table s := by
  refine h.invariant ⟨hstart, fun i => buffered_of_nil rfl⟩ ?_
  rintro s e _ hrefines hfair rfl
  exact hrefines.step hcluster hfair

/-- **Sessions on the shards refine sessions on one store**: at whichever process each line is
typed, every shard holds its share of what the lines leave on one store, and no lock is left. -/
theorem sessions_refine : Holds table (shards s.world) s.store :=
  (refines_of_reach hcluster hstart h).holds

end

/-- Every row of the statement is named by its text. -/
def onKey (sql : Bytes) : Bool :=
  match parse sql with
  | .ok stmt => (tableOf stmt).isNone
  | .error _ => true

lemma alike_of_onKey {sql : Bytes} (h : onKey sql = true) {stmt : Statement}
    (hparse : parse sql = .ok stmt) : Alike whole stmt := by
  rw [onKey, hparse] at h
  have hnone : tableOf stmt = none := Option.isNone_iff_eq_none.mp h
  constructor
  · intro d t whereClause schema hstmt
    rw [hnone] at hstmt
    cases hstmt
  · intro d t whereClause k hstmt
    rw [hnone] at hstmt
    cases hstmt

/-- A line that is fair by its text, and by what the buffered statements do on the one store. -/
def Plainly (whole : Store) (repl : Repl) (input : Bytes) : Prop :=
  Short input ∧ onKey (stripBom input) = true ∧ repl.txnBuffer.length < 2 ^ 32 ∧
    (∀ b ∈ repl.txnBuffer, onKey b.sql = true) ∧
    Succeeds (runStaged whole (repl.txnBuffer.map (·.sql))).2

instance decidablePlainly (whole : Store) (repl : Repl) (input : Bytes) :
    Decidable (Plainly whole repl input) :=
  inferInstanceAs (Decidable (3 * input.length + 10 < 2 ^ 32 ∧ _))

lemma fair_of_plainly (h : Plainly whole repl input) : Fair whole repl input where
  short := h.1
  statement := fun stmt _ hparse _ => alike_of_onKey h.2.1 hparse
  commit := fun _ _ => by
    obtain ⟨-, -, hcount, hkeys, hruns⟩ := h
    refine ⟨hcount, fun before b after hbuffer hbefore =>
      ⟨fun stmt hparse => ?_, fun hthrows => ?_⟩⟩
    · exact alike_of_onKey (hkeys b (by simp [hbuffer])) hparse
    · rw [hbuffer, List.map_append, List.map_cons, runStaged_append _ _ hbefore,
        runStaged_cons] at hruns
      rcases hout : (execute (runStaged whole (before.map (·.sql))).1 b.sql).2 with e | out
      · rw [hout] at hruns
        exact absurd hruns (succeeds_error e)
      · exact absurd ⟨out, hout⟩ hthrows

/-- One process for each shard. -/
def twoProcesses (i : Bool) : Process :=
  ⟨⟨64, FormattedInput.thirtyTwo_le⟩, if i then 2 else 1, if i then 2 else 1, twoRanges⟩

def twoOutside (i : Bool) : Outside (ShardId → Shard) := direct (if i then 2 else 1)

lemma twoCluster : Cluster twoOutside twoProcesses (fun s => s) twoRanges where
  serves := fun i => serves_direct _
  routing := fun _ => rfl
  home := by decide
  node := by decide
  covers := ⟨by decide, SqlScatter.twoRanges_covered⟩

def twoStart : Sessions Bool (ShardId → Shard) := ⟨fun _ => .start, fun _ => .start, .empty⟩

/-- A transaction of the first process on both shards, and a line of the second meanwhile. -/
def twoSessions : List (Bool × Bytes) := [
  (false, text "CREATE DATABASE d"),
  (true, text "CREATE TABLE d.t (k INT PRIMARY KEY)"),
  (false, text "begin"),
  (true, text "ALTER TABLE d.t ADD COLUMN n INT DEFAULT 7"),
  (false, text "INSERT INTO d.t (k, n) VALUES (0, 5)"),
  (false, text "INSERT INTO d.t (k, n) VALUES (1, 6)"),
  (false, text "commit")]

def twoEnd : Sessions Bool (ShardId → Shard) :=
  runOf (step twoOutside twoProcesses) twoStart twoSessions

lemma twoEnd_reached : Reach (StepOf (step twoOutside twoProcesses))
    (fun s e => Fair s.store (s.repls e.1) e.2) twoStart twoEnd := by
  have hplain : ∀ i, (hi : i < twoSessions.length) →
      Plainly (runOf (step twoOutside twoProcesses) twoStart (twoSessions.take i)).store
        ((runOf (step twoOutside twoProcesses) twoStart (twoSessions.take i)).repls
          twoSessions[i].1) twoSessions[i].2 := by
    decide +kernel
  unfold twoEnd
  exact reach_runOf_of fun i hi => fair_of_plainly (hplain i hi)

theorem sessions_refine_two : Holds twoRanges twoEnd.world twoEnd.store := by
  have hstart : Holds twoRanges twoStart.world .empty := fun _ _ => rfl
  have hrefines := sessions_refine twoCluster hstart twoEnd_reached
  exact hrefines

end DistDB.ShardedRuns
