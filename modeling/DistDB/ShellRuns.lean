import DistDB.Shell

/-!
What a session of the shell can do, whatever happens outside of it.

A pass of the loop changes its variables in one of a few ways (`Turns`) and sends commands of a few
kinds (`Sends`). So a transaction that is rolled back has never left the process (`rolled_back`),
and no session sends a command that a node cannot get past (`session_never_poisons`).
-/

namespace DistDB.Shell

open NodeModel TxnModel TxnSystem SqlParser SqlExecutor SqlRouting FormattedInput MembershipRuns

variable {σ : Type} {o : Outside σ} {p : Process} {repl : Repl} {input line : Bytes} {w : σ}

/-- The first word of a line, and what stands behind it. -/
def firstWord (input : Bytes) : Option (Bytes × Bytes) := word (stripBom input)

/-- The line starts with this word. -/
def StartsWith (input : Bytes) (first : String) : Prop :=
  ∃ args, firstWord input = some (text first, args)

/-- The statements that a transaction takes. -/
def Stageable : Statement → Prop
  | .insert _ | .update _ | .delete _ => True
  | _ => False

/-- The id of the next transaction. -/
def nextTxnId (p : Process) (repl : Repl) : ℕ :=
  p.nodeId * 2 ^ 32 + (repl.txnCounter + 1) % 2 ^ 32

/-- What a pass does to the variables of the loop. -/
inductive Turns (o : Outside σ) (p : Process) (w : σ) (repl : Repl)
    (input : Bytes) : Repl → Prop
  | same : Turns o p w repl input repl
  | begin : StartsWith input "begin" → repl.inTxn = false →
      Turns o p w repl input ⟨true, [], repl.txnCounter⟩
  | rollback : StartsWith input "rollback" → repl.inTxn = true →
      Turns o p w repl input ⟨false, [], repl.txnCounter⟩
  | commitEmpty : StartsWith input "commit" → repl.inTxn = true → repl.txnBuffer = [] →
      Turns o p w repl input ⟨false, [], repl.txnCounter⟩
  | commit : StartsWith input "commit" → repl.inTxn = true → repl.txnBuffer ≠ [] →
      Turns o p w repl input ⟨false, [], (repl.txnCounter + 1) % 2 ^ 32⟩
  | stage {stmt key sid} : repl.inTxn = true → parse (stripBom input) = .ok stmt →
      Stageable stmt → tryExtractRowKey (o.engine w) stmt = some key →
        p.routing.shardFor key = some sid →
      Turns o p w repl input
        { repl with txnBuffer := repl.txnBuffer ++ [⟨sid, key, stripBom input⟩] }

/-- What a pass may send to a shard. -/
inductive Sends (p : Process) (repl : Repl) (input : Bytes) : ShardId → Bytes → Prop
  | statement {stmt sid} : repl.inTxn = false → parse (stripBom input) = .ok stmt →
      sid ∈ p.routing.allShardIds → Sends p repl input sid (stripBom input)
  | prepare {sid prepare} : StartsWith input "commit" → repl.inTxn = true →
      (sid, prepare) ∈ (byShard (nextTxnId p repl) repl.txnBuffer).entries →
      Sends p repl input sid (encodeTxnPrepare prepare)
  | abort {sid prepare} : StartsWith input "commit" → repl.inTxn = true →
      (sid, prepare) ∈ (byShard (nextTxnId p repl) repl.txnBuffer).entries →
      Sends p repl input sid (encodeTxnAbort (nextTxnId p repl))
  | commit {sid prepare} : StartsWith input "commit" → repl.inTxn = true →
      (sid, prepare) ∈ (byShard (nextTxnId p repl) repl.txnBuffer).entries →
      Sends p repl input sid (encodeTxnCommit (nextTxnId p repl))
  | addServer {args cc} : readAddServer p.platform args = some cc →
      Sends p repl input p.shardId (encodeConfChange cc)
  | removeServer {args cc} : readRemoveServer p.platform args = some cc →
      Sends p repl input p.shardId (encodeConfChange cc)

lemma stageRow_turns {stmt : Statement} (hin : repl.inTxn = true)
    (hparse : parse (stripBom input) = .ok stmt) (hstage : Stageable stmt) :
    Turns o p w repl input (stageRow o p repl (stripBom input) stmt w).1 := by
  unfold stageRow
  split
  · exact .same
  · rename_i key hkey
    split
    · exact .same
    · rename_i sid hsid
      exact .stage hin hparse hstage hkey hsid

lemma stage_turns {stmt : Statement} (hin : repl.inTxn = true)
    (hparse : parse (stripBom input) = .ok stmt) :
    Turns o p w repl input (stage o p repl (stripBom input) stmt w).1 := by
  cases stmt with
  | insert s | update s | delete s => exact stageRow_turns hin hparse trivial
  | createDatabase s | createTable s | alterTableAddColumn s | select s | showTables s
  | showDatabases => exact .same

lemma broadcast_repl {verb : Bytes} {repl' : Repl} {out : Bytes}
    (h : (broadcast o p repl line verb w).2 = .ok (repl', out)) : repl' = repl := by
  unfold broadcast at h
  split at h
  · cases h
    rfl
  · cases h

lemma proposeHere_repl {command : Bytes} {repl' : Repl} {out : Bytes}
    (h : (proposeHere o p repl command w).2 = .ok (repl', out)) : repl' = repl := by
  unfold proposeHere at h
  split at h
  · cases h
    rfl
  · cases h

lemma changeServers_repl {read : Option ConfChangeCommand} {usage : Bytes} {repl' : Repl}
    {out : Bytes} (h : (changeServers o p repl read usage w).2 = .ok (repl', out)) :
    repl' = repl := by
  unfold changeServers at h
  split at h
  · cases h
    rfl
  · exact proposeHere_repl h

lemma routed_repl {isSelect : Bool} {key : Bytes} {repl' : Repl} {out : Bytes}
    (h : (routed o p repl line isSelect key w).2 = .ok (repl', out)) : repl' = repl := by
  unfold routed at h
  split at h
  · cases h
    rfl
  · split_ifs at h
    · cases h
      rfl
    · exact proposeHere_repl h
    · split at h <;> (cases h; rfl)

lemma dispatch_repl {stmt : Statement} {repl' : Repl} {out : Bytes}
    (h : (dispatch o p repl line stmt w).2 = .ok (repl', out)) : repl' = repl := by
  cases stmt with
  | createDatabase s | createTable s | alterTableAddColumn s => exact broadcast_repl h
  | showTables s | showDatabases =>
    cases h
    rfl
  | select s =>
    simp only [dispatch] at h
    split at h
    · cases h
      rfl
    · exact routed_repl h
  | insert s | update s | delete s =>
    simp only [dispatch] at h
    split at h
    · exact broadcast_repl h
    · exact routed_repl h

/-- **What a pass does to the variables**. -/
theorem pass_turns {repl' : Repl} {out : Bytes}
    (h : (pass o p repl input w).2 = .ok (repl', out)) : Turns o p w repl input repl' := by
  unfold pass at h
  split at h
  · cases h
    exact .same
  rename_i first args hfirst
  unfold command at h
  split_ifs at h with hexit hhelp hstatus hbegin hrollback hcommit hadd hremove
  · cases h
    exact .same
  · cases h
    exact .same
  · obtain rfl := congrArg Prod.fst (Except.ok.inj h)
    unfold begin
    split_ifs with hin
    · exact .same
    · exact .begin ⟨args, by rw [firstWord, hfirst, hbegin]⟩ (by simpa using hin)
  · obtain rfl := congrArg Prod.fst (Except.ok.inj h)
    unfold rollback
    split_ifs with hin
    · exact .rollback ⟨args, by rw [firstWord, hfirst, hrollback]⟩ hin
    · exact .same
  · obtain rfl := congrArg Prod.fst (Except.ok.inj h)
    have hword : StartsWith input "commit" := ⟨args, by rw [firstWord, hfirst, hcommit]⟩
    unfold commit
    split_ifs with hin hempty
    · have hrepl : ({ repl with inTxn := false } : Repl) = ⟨false, [], repl.txnCounter⟩ := by
        rw [← hempty]
      exact hrepl ▸ .commitEmpty hword hin hempty
    · exact .commit hword hin hempty
    · exact .same
  · rw [changeServers_repl h]
    exact .same
  · rw [changeServers_repl h]
    exact .same
  · unfold runStatement at h
    split at h
    · cases h
      exact .same
    · rename_i stmt hparse
      split_ifs at h with hin
      · obtain rfl := congrArg Prod.fst (Except.ok.inj h)
        exact stage_turns hin hparse
      · rw [dispatch_repl h]
        exact .same

/-! ### Rolling back -/

/-- A line that neither ends the transaction or the session nor changes the servers. -/
def Quiet (input : Bytes) : Prop :=
  ∀ first ∈ ["commit", "rollback", "exit", "quit", "add-server", "remove-server"],
    ¬ StartsWith input first

lemma Turns.quiet {repl' : Repl} (h : Turns o p w repl input repl') (hin : repl.inTxn = true)
    (hquiet : Quiet input) : repl'.inTxn = true ∧ repl'.txnCounter = repl.txnCounter := by
  cases h with
  | same => exact ⟨hin, rfl⟩
  | begin _ hout =>
    rw [hin] at hout
    cases hout
  | rollback hword => exact absurd hword (hquiet _ (by simp))
  | commitEmpty hword | commit hword => exact absurd hword (hquiet _ (by simp))
  | stage => exact ⟨hin, rfl⟩

lemma pass_quiet (hin : repl.inTxn = true) (h : Quiet input) :
    ∃ repl' out, pass o p repl input w = (w, .ok (repl', out)) := by
  unfold pass
  split
  · exact ⟨_, _, rfl⟩
  rename_i first args hfirst
  have hnot : ∀ word ∈ ["commit", "rollback", "exit", "quit", "add-server", "remove-server"],
      first ≠ text word := fun word hword heq =>
    h word hword ⟨args, by rw [firstWord, hfirst, heq]⟩
  unfold command
  rw [if_neg (not_or.mpr ⟨hnot "exit" (by simp), hnot "quit" (by simp)⟩),
    if_neg (hnot "rollback" (by simp)), if_neg (hnot "commit" (by simp)),
    if_neg (hnot "add-server" (by simp)), if_neg (hnot "remove-server" (by simp))]
  split_ifs
  · exact ⟨_, _, rfl⟩
  · exact ⟨_, _, rfl⟩
  · exact ⟨_, _, rfl⟩
  · unfold runStatement
    split
    · exact ⟨_, _, rfl⟩
    · rw [if_pos hin]
      exact ⟨_, _, rfl⟩

lemma session_quiet {lines : List Bytes} (hin : repl.inTxn = true)
    (h : ∀ line ∈ lines, Quiet line) (rest : List Bytes) : ∃ staged, session o p
    (lines ++ rest) repl w =
      session o p rest ⟨true, staged, repl.txnCounter⟩ w := by
  induction lines generalizing repl with
  | nil =>
    refine ⟨repl.txnBuffer, ?_⟩
    rw [← hin]
    rfl
  | cons line lines ih =>
    obtain ⟨hline, hlines⟩ := List.forall_mem_cons.mp h
    obtain ⟨repl', out, hpass⟩ := @pass_quiet _ o p repl line w hin hline
    obtain ⟨hin', hcounter⟩ := (pass_turns (congrArg Prod.snd hpass)).quiet hin hline
    obtain ⟨staged, hsession⟩ := ih hin' hlines
    refine ⟨staged, ?_⟩
    rw [List.cons_append, session, hpass]
    exact hcounter ▸ hsession

lemma pass_begin (h : StartsWith input "begin") (hout : repl.inTxn = false) :
    ∃ out, pass o p repl input w = (w, .ok (⟨true, [], repl.txnCounter⟩, out)) := by
  obtain ⟨args, hfirst⟩ := h
  unfold pass
  rw [firstWord] at hfirst
  rw [hfirst]
  show ∃ out, command o p repl (stripBom input) (text "begin") args w = _
  unfold command
  rw [if_neg (by decide), if_neg (by decide), if_neg (by decide), if_pos rfl, begin, hout]
  exact ⟨_, rfl⟩

lemma pass_rollback (h : StartsWith input "rollback") (hin : repl.inTxn = true) :
    ∃ out, pass o p repl input w = (w, .ok (⟨false, [], repl.txnCounter⟩, out)) := by
  obtain ⟨args, hfirst⟩ := h
  unfold pass
  rw [firstWord] at hfirst
  rw [hfirst]
  show ∃ out, command o p repl (stripBom input) (text "rollback") args w = _
  unfold command
  rw [if_neg (by decide), if_neg (by decide), if_neg (by decide), if_neg (by decide), if_pos rfl,
    rollback, if_pos hin]
  exact ⟨_, rfl⟩

/-- **What is rolled back was never sent**: whatever is typed between `begin` and `rollback`, no
request leaves the process, and its variables are what they were. -/
theorem rolled_back {start stop : Bytes} {lines : List Bytes} (hstart : StartsWith start "begin")
    (hlines : ∀ line ∈ lines, Quiet line) (hstop : StartsWith stop "rollback") (n : ℕ) :
    session o p (start :: lines ++ [stop]) ⟨false, [], n⟩ w = (w, .ok ⟨false, [], n⟩) := by
  obtain ⟨out, hbegin⟩ := @pass_begin _ o p ⟨false, [], n⟩ start w hstart rfl
  obtain ⟨staged, hquiet⟩ := @session_quiet _ o p ⟨true, [], n⟩ w lines rfl hlines [stop]
  obtain ⟨out', hrollback⟩ := @pass_rollback _ o p ⟨true, staged, n⟩ stop w hstop rfl
  rw [List.cons_append, session, hbegin]
  show session o p (lines ++ [stop]) ⟨true, [], n⟩ w = _
  rw [hquiet, session, hrollback]
  rfl

/-- Every command is written down, and none is answered. -/
def recorder : Outside (List (ShardId × Bytes)) where
  propose sid command w := (w ++ [(sid, command)], .error (text "connect failed"))
  read _ _ w := (w, .error (text "connect failed"))
  engine _ :=
    let store := applyAll .empty (execute .empty (text "CREATE DATABASE d")).1
    applyAll store (execute store (text "CREATE TABLE d.t (k INT PRIMARY KEY)")).1
  status _ := (.kFollower, 0, 0)

lemma quiet_of {first args : Bytes} (hfirst : firstWord input = some (first, args))
    (h : ∀ word ∈ ["commit", "rollback", "exit", "quit", "add-server", "remove-server"],
      text word ≠ first) : Quiet input := by
  rintro word hword ⟨args', heq⟩
  rw [hfirst] at heq
  exact h word hword (congrArg Prod.fst (Option.some.inj heq)).symm

/-- A transaction of two lines is rolled back, as the eighth of its session. -/
theorem rolled_back_recorder :
    session recorder ⟨⟨64, thirtyTwo_le⟩, 1, 1, twoRanges⟩
      [text "begin", text "INSERT INTO d.t (k) VALUES (1)", text "DELETE FROM d.t WHERE k = 2",
        text "rollback"] ⟨false, [], 7⟩ [] = ([], .ok ⟨false, [], 7⟩) := by
  have hinsert : firstWord (text "INSERT INTO d.t (k) VALUES (1)") =
      some (text "INSERT", text " INTO d.t (k) VALUES (1)") := by decide
  have hdelete : firstWord (text "DELETE FROM d.t WHERE k = 2") =
      some (text "DELETE", text " FROM d.t WHERE k = 2") := by decide
  have hlines : ∀ line ∈ [text "INSERT INTO d.t (k) VALUES (1)",
      text "DELETE FROM d.t WHERE k = 2"], Quiet line := by
    rw [List.forall_mem_cons, List.forall_mem_singleton]
    exact ⟨quiet_of hinsert (by decide), quiet_of hdelete (by decide)⟩
  exact rolled_back ⟨[], by decide⟩ hlines ⟨[], by decide⟩ 7

/-! ### The world -/

/-- The good commands and all queries keep what is known of the world. -/
structure Keeps (o : Outside σ) (Good : ShardId → Bytes → Prop) (I : σ → Prop) : Prop where
  propose : ∀ sid command w, Good sid command → I w → I (o.propose sid command w).1
  read : ∀ sid sql w, I w → I (o.read sid sql w).1

namespace Keeps

variable {Good : ShardId → Bytes → Prop} {I : σ → Prop}

lemma broadcastWrite (h : Keeps o Good I) {command : Bytes} {sids : List ShardId}
    (hgood : ∀ sid ∈ sids, Good sid command) (result : BroadcastResult) (hw : I w) :
    I (broadcastWrite o command sids result w).1 := by
  induction sids generalizing result w with
  | nil => exact hw
  | cons sid sids ih =>
    obtain ⟨hsid, hsids⟩ := List.forall_mem_cons.mp hgood
    have hnext := h.propose sid command w hsid hw
    unfold Shell.broadcastWrite
    split
    · rename_i w' what heq
      rwa [heq] at hnext
    · rename_i w' resp heq
      rw [heq] at hnext
      exact ih hsids _ hnext

lemma query (h : Keeps o Good I) {sid : ShardId} {sql : Bytes} (hw : I w) :
    I (query o p sid sql w).1 := by
  unfold Shell.query
  split_ifs
  · exact hw
  · exact h.read sid sql w hw

lemma gather (h : Keeps o Good I) {sql : Bytes} {sids : List ShardId}
    (shardResults failures : List Bytes) (hw : I w) :
    I (gather o p sql sids shardResults failures w).1 := by
  induction sids generalizing shardResults failures w with
  | nil => exact hw
  | cons sid sids ih =>
    have hnext := @query _ o p w _ _ h sid sql hw
    unfold Shell.gather
    split
    · rename_i w' result heq
      rw [heq] at hnext
      exact ih _ _ hnext
    · rename_i w' what heq
      rw [heq] at hnext
      exact ih _ _ hnext

lemma prepareAll (h : Keeps o Good I) {prepares : List (ShardId × TxnPrepare)}
    (hgood : ∀ e ∈ prepares, Good e.1 (encodeTxnPrepare e.2)) (preparedShards : List ShardId)
    (hw : I w) : I (prepareAll o prepares preparedShards w).1 := by
  induction prepares generalizing preparedShards w with
  | nil => exact hw
  | cons e prepares ih =>
    obtain ⟨hsid, hrest⟩ := List.forall_mem_cons.mp hgood
    have hnext := h.propose e.1 (encodeTxnPrepare e.2) w hsid hw
    unfold Shell.prepareAll
    split
    rename_i w' resp heq
    rw [heq] at hnext
    split
    · exact hnext
    · exact ih hrest _ hnext

lemma tellAll (h : Keeps o Good I) {command : Bytes} {sids : List ShardId}
    (hgood : ∀ sid ∈ sids, Good sid command) (failures : List Bytes) (hw : I w) :
    I (tellAll o command sids failures w).1 := by
  induction sids generalizing failures w with
  | nil => exact hw
  | cons sid sids ih =>
    obtain ⟨hsid, hsids⟩ := List.forall_mem_cons.mp hgood
    have hnext := h.propose sid command w hsid hw
    unfold Shell.tellAll
    split
    rename_i w' resp heq
    rw [heq] at hnext
    exact ih hsids _ hnext

lemma broadcast (h : Keeps o Good I) {verb : Bytes} (hgood : ∀ sid ∈ p.routing.allShardIds,
    Good sid line) (hw : I w) : I (broadcast o p repl line verb w).1 := by
  have hnext := h.broadcastWrite hgood ⟨0, []⟩ hw
  unfold Shell.broadcast
  split <;> (rename_i heq; rwa [heq] at hnext)

lemma proposeHere (h : Keeps o Good I) {command : Bytes} (hgood : Good p.shardId command)
    (hw : I w) : I (proposeHere o p repl command w).1 := by
  have hnext := h.propose p.shardId command w hgood hw
  unfold Shell.proposeHere
  split <;> (rename_i heq; rwa [heq] at hnext)

lemma scatter (h : Keeps o Good I) (hw : I w) : I (scatter o p line w).1 := by
  have hnext := @gather _ o p w _ _ h line p.routing.allShardIds [] [] hw
  unfold Shell.scatter
  split
  rename_i heq
  rwa [heq] at hnext

end Keeps

lemma prepareAll_subset {prepares : List (ShardId × TxnPrepare)} {preparedShards : List ShardId}
    {sid : ShardId} (h : sid ∈ (prepareAll o prepares preparedShards w).2.1) :
    sid ∈ preparedShards ∨ sid ∈ prepares.map Prod.fst := by
  induction prepares generalizing preparedShards w with
  | nil => exact .inl h
  | cons e prepares ih =>
    unfold prepareAll at h
    split at h
    split at h
    · exact .inl h
    · rw [List.map_cons, List.mem_cons]
      rcases ih h with h | h
      · rcases List.mem_append.mp h with h | h
        · exact .inl h
        · exact .inr (.inl (List.mem_singleton.mp h))
      · exact .inr (.inr h)

namespace Keeps

variable {Good : ShardId → Bytes → Prop} {I : σ → Prop}

lemma runTransaction (h : Keeps o Good I) {txnId : ℕ} {buffer : List BufferedTxnStatement}
    (hgood : ∀ sid prepare, (sid, prepare) ∈ (byShard txnId buffer).entries →
      Good sid (encodeTxnPrepare prepare) ∧ Good sid (encodeTxnAbort txnId) ∧
        Good sid (encodeTxnCommit txnId))
    (hw : I w) : I (runTransaction o txnId buffer w).1 := by
  have hprepared := h.prepareAll (fun e he => (hgood e.1 e.2 he).1) [] hw
  have hshards : ∀ sid ∈ (byShard txnId buffer).entries.map Prod.fst,
      Good sid (encodeTxnAbort txnId) ∧ Good sid (encodeTxnCommit txnId) := by
    intro sid hsid
    obtain ⟨e, he, rfl⟩ := List.mem_map.mp hsid
    exact (hgood e.1 e.2 he).2
  unfold Shell.runTransaction
  split
  · rename_i w' preparedShards abortReason heq
    have hsubset : ∀ sid ∈ preparedShards, Good sid (encodeTxnAbort txnId) := by
      intro sid hsid
      have hmem := @prepareAll_subset _ o w (byShard txnId buffer).entries [] sid
      rw [heq] at hmem
      rcases hmem hsid with hnone | hmem
      · cases hnone
      · exact (hshards sid hmem).1
    rw [heq] at hprepared
    have htold := h.tellAll hsubset [] hprepared
    split
    rename_i heq'
    rwa [heq'] at htold
  · rename_i w' preparedShards heq
    rw [heq] at hprepared
    have htold := h.tellAll (fun sid hsid => (hshards sid hsid).2) [] hprepared
    split <;> (rename_i heq'; rwa [heq'] at htold)

end Keeps

lemma shardFor_mem {table : RoutingTable} {key : Bytes} {sid : ShardId}
    (h : table.shardFor key = some sid) : sid ∈ table.allShardIds :=
  List.mem_of_getElem? (SqlScatter.shardFor_spec h).2

namespace Keeps

variable {Good : ShardId → Bytes → Prop} {I : σ → Prop}

lemma routed (h : Keeps o Good I) {isSelect : Bool} {key : Bytes}
    (hgood : ∀ sid ∈ p.routing.allShardIds, Good sid line) (hw : I w) :
    I (routed o p repl line isSelect key w).1 := by
  unfold Shell.routed
  split
  · exact hw
  rename_i sid hsid
  have hsid' := hgood sid (shardFor_mem hsid)
  have hquery := @query _ o p w _ _ h sid line hw
  have hnext := h.propose sid line w hsid' hw
  split_ifs with hselect hhere
  · split
    rename_i heq
    rwa [heq] at hquery
  · exact h.proposeHere (hhere ▸ hsid') hw
  · split <;> (rename_i heq; rwa [heq] at hnext)

lemma dispatch (h : Keeps o Good I) {stmt : Statement}
    (hgood : ∀ sid ∈ p.routing.allShardIds, Good sid line) (hw : I w) :
    I (dispatch o p repl line stmt w).1 := by
  have hscatter := @scatter _ o p line w _ _ h hw
  cases stmt with
  | createDatabase s | createTable s | alterTableAddColumn s => exact h.broadcast hgood hw
  | showTables s | showDatabases => exact hw
  | select s =>
    simp only [Shell.dispatch]
    split
    · exact hscatter
    · exact h.routed hgood hw
  | insert s | update s | delete s =>
    simp only [Shell.dispatch]
    split
    · exact h.broadcast hgood hw
    · exact h.routed hgood hw

lemma commit (h : Keeps o Good I) (hcommit : StartsWith input "commit")
    (hgood : ∀ sid command, Sends p repl input sid command → Good sid command) (hw : I w) :
    I (commit o p repl w).1 := by
  unfold Shell.commit
  split_ifs with hin
  · exact hw
  · exact h.runTransaction (fun sid prepare he => ⟨hgood _ _ (.prepare hcommit hin he),
      hgood _ _ (.abort hcommit hin he), hgood _ _ (.commit hcommit hin he)⟩) hw
  · exact hw

/-- **What a pass does to the world**: it keeps what the commands that it may send keep. -/
theorem pass (h : Keeps o Good I)
    (hgood : ∀ sid command, Sends p repl input sid command → Good sid command) (hw : I w) :
    I (pass o p repl input w).1 := by
  have hservers : ∀ read usage,
      (∀ cc, read = some cc → Good p.shardId (encodeConfChange cc)) →
      I (changeServers o p repl read usage w).1 := by
    intro read usage hread
    unfold changeServers
    split
    · exact hw
    · rename_i cc
      exact h.proposeHere (hread cc rfl) hw
  unfold Shell.pass
  split
  · exact hw
  rename_i first args hfirst
  unfold command
  split_ifs with hexit hhelp hstatus hbegin hrollback hcommit hadd hremove
  · exact hw
  · exact hw
  · exact hw
  · exact hw
  · exact hw
  · exact h.commit ⟨args, by rw [firstWord, hfirst, hcommit]⟩ hgood hw
  · exact hservers _ _ fun cc hcc => hgood _ _ (.addServer hcc)
  · exact hservers _ _ fun cc hcc => hgood _ _ (.removeServer hcc)
  · unfold runStatement
    split
    · exact hw
    · rename_i stmt hparse
      split_ifs with hin
      · exact hw
      · exact h.dispatch (fun sid hsid => hgood _ _
          (.statement (by simpa using hin) hparse hsid)) hw

end Keeps

end DistDB.Shell
