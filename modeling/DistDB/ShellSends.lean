import DistDB.Dispatch
import DistDB.ShellRuns
import DistDB.SqlShards
import DistDB.TxnRuns

/-!
The commands of a session. A statement that parses starts with no tag, and the control commands of
a transaction are complete as long as the lines are short enough for their length fields. So every
node gets past whatever a session sends (`session_never_poisons`), other than what a client may
send.
-/

namespace DistDB.Shell

open NodeModel TxnModel TxnSystem SqlLexer SqlParser SqlGrammar SqlTexts SqlExecutor SqlRouting
open FormattedInput LogPoison Dispatch Checks Bytes

variable {σ : Type} {o : Outside σ} {p : Process} {repl : Repl} {w : σ}

lemma TableName.lengths {n : ℕ} {body : List Token} {q : Bytes × Bytes} (h : TableName body q)
    (hfits : ∀ t ∈ body, TokenFits n t.type t.text) : q.1.length ≤ n ∧
    q.2.length ≤ n := by
  cases h with
  | mk => exact ⟨(hfits _ (by simp)).2, (hfits _ (by simp)).2⟩

lemma OptWhere.lengths {n : ℕ} {body : List Token} {conds : List Condition}
    (h : OptWhere body conds)
    (hfits : ∀ t ∈ body, TokenFits n t.type t.text) :
    ∀ c ∈ conds, c.literal.length ≤ n := by
  cases h with
  | absent => exact List.forall_mem_nil _
  | chain _ hchain =>
    refine SepBy.forall hchain (fun t ht => hfits t (List.mem_cons_of_mem _ ht)) ?_
    intro body c hc hfits
    cases hc with
    | mk => exact (hfits _ (by simp)).2

lemma key_length {store : Store} {sql key : Bytes} {stmt : Statement}
    (hparse : parse sql = .ok stmt)
    (h : tryExtractRowKey store stmt = some key) : key.length ≤ 3 * sql.length + 10 := by
  obtain ⟨body, hbody, hfits⟩ := SqlFrame.parse_derives hparse
  have hkey : ∀ {d t v : Bytes}, d.length ≤ sql.length ∧ t.length ≤ sql.length →
      v.length ≤ sql.length → (rowKey d t v).length ≤ 3 * sql.length + 10 := by
    intro d t v hdt hv
    have hprefix : (text "__row__/").length = 8 := rfl
    have hslash : (text "/").length = 1 := rfl
    simp only [rowKey, rowPrefix, List.length_append]
    omega
  have hwhere : ∀ {d t whereClause}, tableOf stmt = some (d, t, whereClause) →
      d.length ≤ sql.length ∧ t.length ≤ sql.length →
      (∀ c ∈ whereClause, c.literal.length ≤ sql.length) →
        key.length ≤ 3 * sql.length + 10 := by
    intro d t whereClause hstmt hdt hliterals
    obtain ⟨schema, literal, -, hfind, rfl⟩ := (tryExtractRowKey_iff hstmt).mp h
    obtain ⟨-, -, -, -, c, hc, -, -, rfl⟩ := findPkEquality_spec hfind
    exact hkey hdt (hliterals c hc)
  cases hbody with
  | createDatabase | createTable | alterTable | showTables | showDatabases => cases h
  | select _ _ _ htable htail =>
    exact hwhere rfl (TableName.lengths htable fun t ht => hfits t (by simp [ht]))
      (OptWhere.lengths htail fun t ht => hfits t (by simp [ht]))
  | update _ htable _ _ htail =>
    exact hwhere rfl (TableName.lengths htable fun t ht => hfits t (by simp [ht]))
      (OptWhere.lengths htail fun t ht => hfits t (by simp [ht]))
  | delete _ _ htable htail =>
    exact hwhere rfl (TableName.lengths htable fun t ht => hfits t (by simp [ht]))
      (OptWhere.lengths htail fun t ht => hfits t (by simp [ht]))
  | insert _ _ htable _ _ _ _ _ hvalues =>
    have hvalue := SepBy.forall hvalues (P := fun v => v.length ≤ sql.length)
      (fun t ht => hfits t (by simp [ht])) fun body v hv hfits => by
        cases hv with
        | mk => exact (hfits _ (by simp)).2
    obtain ⟨schema, idx, pk, cv, -, -, -, hcv, rfl⟩ := SqlRuns.tryExtractRowKey_insert.mp h
    exact hkey (TableName.lengths htable fun t ht => hfits t (by simp [ht]))
      (hvalue _ (List.of_mem_zip (List.mem_of_find?_eq_some hcv)).2)

/-- The buffered statements fit the length fields of a PREPARE; `n` lines may have buffered one. -/
structure BufferFits (n : ℕ) (buffer : List BufferedTxnStatement) : Prop where
  count : buffer.length ≤ n
  lengths : ∀ stmt ∈ buffer, stmt.key.length < 2 ^ 32 ∧ stmt.sql.length < 2 ^ 32

/-- The key that the line names fits a length field, whatever it is. -/
def Short (line : Bytes) : Prop := 3 * line.length + 10 < 2 ^ 32

lemma length_stripBom (input : Bytes) : (stripBom input).length ≤ input.length := by
  unfold stripBom
  split_ifs
  · rw [List.length_drop]
    omega
  · rfl

lemma Turns.bufferFits {n : ℕ} {input : Bytes} {repl' : Repl} (h : Turns o p w repl input repl')
    (hinput : Short input) (hfits : BufferFits n repl.txnBuffer) :
    BufferFits (n + 1) repl'.txnBuffer := by
  have hnone : BufferFits (n + 1) [] := ⟨Nat.zero_le _, List.forall_mem_nil _⟩
  cases h with
  | same => exact ⟨hfits.count.trans (Nat.le_succ n), hfits.lengths⟩
  | begin | rollback | commitEmpty | commit => exact hnone
  | stage _ hparse _ hkey _ =>
    have hlen := key_length hparse hkey
    have hstrip := length_stripBom input
    have hshort : 3 * input.length + 10 < 2 ^ 32 := hinput
    refine ⟨?_, fun stmt hstmt => ?_⟩
    · rw [List.length_append]
      exact Nat.add_le_add_right hfits.count 1
    · rcases List.mem_append.mp hstmt with hstmt | hstmt
      · exact hfits.lengths stmt hstmt
      · obtain rfl := List.mem_singleton.mp hstmt
        have hsql : (stripBom input).length < 2 ^ 32 := by omega
        exact ⟨hlen.trans_lt (by omega), hsql⟩

lemma prepare_fits {n txnId : ℕ} {buffer : List BufferedTxnStatement}
    (hfits : BufferFits n buffer) (hn : n < 2 ^ 32) {sid : ShardId} {prepare : TxnPrepare}
    (h : (sid, prepare) ∈ (byShard txnId buffer).entries) :
    prepare.txnId = txnId ∧ prepare.Fits := by
  have hfind : (⟨⟨0, 0⟩, txnId, buffer⟩ : Call).prepares.find sid = some prepare :=
    (OrdMap.mem_entries _).mp h
  exact ⟨(Call.find_prepares hfind).1,
    Fits.prepare ⟨hfits.count.trans_lt hn, hfits.lengths⟩ hfind⟩

/-! ### Commands -/

/-- **What a pass sends** is complete. -/
lemma sends_complete {n : ℕ} {input : Bytes} (hnode : p.nodeId < 2 ^ 32)
    (hfits : BufferFits n repl.txnBuffer) (hn : n < 2 ^ 32) {sid : ShardId} {command : Bytes}
    (h : Sends p repl input sid command) : Complete command := by
  have htxn : nextTxnId p repl < 2 ^ 64 :=
    packed_lt hnode (Nat.mod_lt _ (by decide))
  cases h with
  | statement _ hparse => exact fun hzero => absurd hzero (head_of_parse hparse).1
  | prepare _ _ he =>
    obtain ⟨hid, hprepare⟩ := prepare_fits hfits hn he
    exact tryDecodeTxnControl_succeeds.mp ⟨_, tryDecode_prepare (hid ▸ htxn) hprepare⟩
  | abort => exact tryDecodeTxnControl_succeeds.mp ⟨_, tryDecode_resolution (.inr rfl) htxn⟩
  | commit => exact tryDecodeTxnControl_succeeds.mp ⟨_, tryDecode_resolution (.inl rfl) htxn⟩
  | addServer | removeServer =>
    intro hzero
    rw [head_encodeConfChange] at hzero
    cases hzero

/-- The world, with all commands that were sent to it. -/
def recording (o : Outside σ) : Outside (σ × List (ShardId × Bytes)) where
  propose sid command w :=
    (((o.propose sid command w.1).1, w.2 ++ [(sid, command)]), (o.propose sid command w.1).2)
  read sid sql w := (((o.read sid sql w.1).1, w.2), (o.read sid sql w.1).2)
  engine w := o.engine w.1
  status w := o.status w.1

/-- What a session sends. -/
def sent (o : Outside σ) (p : Process) (lines : List Bytes) (w : σ) : List (ShardId × Bytes) :=
  (session (recording o) p lines .start (w, [])).1.2

lemma session_keeps {Good : ShardId → Bytes → Prop} {I : σ → Prop} (h : Keeps o Good I)
    (hgood : ∀ sid command, Complete command → Good sid command) (hnode : p.nodeId < 2 ^ 32)
    {lines : List Bytes} (hlines : ∀ line ∈ lines, Short line) {n : ℕ}
    (hn : n + lines.length < 2 ^ 32) (hfits : BufferFits n repl.txnBuffer) (hw : I w) :
    I (session o p lines repl w).1 := by
  induction lines generalizing n repl w with
  | nil => exact hw
  | cons line lines ih =>
    obtain ⟨hline, hlines⟩ := List.forall_mem_cons.mp hlines
    rw [List.length_cons] at hn
    have hsends : ∀ sid command, Sends p repl line sid command → Good sid command :=
      fun sid command hsend => hgood sid command (sends_complete hnode hfits (by omega) hsend)
    have hnext := h.pass hsends hw
    unfold session
    split
    · rename_i w' repl' out heq
      rw [heq] at hnext
      have hturns := pass_turns (congrArg Prod.snd heq)
      exact ih hlines (by omega) (hturns.bufferFits hline hfits) hnext
    · rename_i w' ending heq
      rwa [heq] at hnext

/-- **No session poisons the log**: whatever is typed, and however the requests are answered, a
node gets past every command that the session sends once it is in the log. -/
theorem session_never_poisons (hnode : p.nodeId < 2 ^ 32) {lines : List Bytes}
    (hcount : lines.length < 2 ^ 32) (hlines : ∀ line ∈ lines, Short line) (w : σ)
    {snapshot : Shard → Bytes} {restore : Shard → Bytes → Shard} :
    ∀ sc ∈ sent o p lines w, ∀ (n : Node Shard) (entry : LogEntry), entry.command = sc.2 →
      (∀ e ∈ n.log.entries, Accepted e.command) →
      n.log.get (n.lastApplied + 1) = some entry →
        Processes (callbacks snapshot restore) n entry := by
  have hkeeps : Keeps (recording o) (fun _ => Complete)
      fun w => ∀ sc ∈ w.2, Complete sc.2 := by
    constructor
    · intro sid command w hcommand hw
      exact List.forall_mem_append.mpr ⟨hw, List.forall_mem_singleton.mpr hcommand⟩
    · exact fun _ _ _ hw => hw
  have hstart : BufferFits 0 Repl.start.txnBuffer := ⟨le_refl 0, List.forall_mem_nil _⟩
  have hall := session_keeps hkeeps (fun _ _ h => h) hnode hlines (by omega) hstart
    (w := (w, [])) (List.forall_mem_nil _)
  intro sc hsc n entry hcommand hlog hentry
  exact processes_of_complete hlog hentry (hcommand ▸ hall sc hsc)

/-- The PREPARE of a transaction of one line. -/
def preparedLine : Bytes :=
  encodeTxnPrepare ⟨2 ^ 32 + 1, [rowKey (text "d") (text "t") (text "1")],
    [text "INSERT INTO d.t (k) VALUES (1)"]⟩

/-- The transaction is not answered, and its PREPARE does no harm. -/
theorem session_never_poisons_prepare :
    Processes plainCallbacks (holding .kFollower preparedLine) ⟨1, 1, preparedLine⟩ := by
  have hlines : ∀ line ∈ [text "begin", text "INSERT INTO d.t (k) VALUES (1)", text "commit"],
      3 * line.length + 10 < 2 ^ 32 := by decide
  have hsent : (2, preparedLine) ∈ sent recorder ⟨⟨64, thirtyTwo_le⟩, 1, 1, twoRanges⟩
      [text "begin", text "INSERT INTO d.t (k) VALUES (1)", text "commit"] [] := by
    decide +kernel
  refine session_never_poisons (by decide) (by decide) hlines [] _ hsent _ _ rfl ?_ rfl
  intro e he
  obtain rfl := List.mem_singleton.mp he
  exact ⟨holding .kLeader [], rfl⟩

end DistDB.Shell
