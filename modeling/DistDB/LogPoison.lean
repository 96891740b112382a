import DistDB.NodeSteps
import DistDB.TxnModel

/-!
Which committed commands can be processed at all.

Processing an entry decodes it three times: as a conf change, as a control command of a
transaction, as SQL. A malformed conf change is refused before it gets into the log, and an
SQL error becomes a text. The decoder of the control commands throws outside every `try`:
a command with its tag that stops too early is accepted, and then stops every node that
has it, at every restart again (`truncated_control_poisons`). All other accepted commands
are processed (`processes_iff`).
-/

namespace DistDB.LogPoison

open NodeModel TxnModel SqlExecutor Codec Bytes Checks

/-- The callbacks of `raft_main.cpp`, with any dump and restore. The only exceptions of the
apply callback are those of the decoder, before it changes anything. -/
def callbacks (snapshot : Shard → Bytes) (restore : Shard → Bytes → Shard) :
    Callbacks Shard where
  apply := fun s _ command =>
    match applyCallback s command with
    | .error e => (s, .error e)
    | .ok (s, error) => (s, .ok error)
  snapshot := snapshot
  restore := restore

/-- Some leader accepts the command and appends it. -/
def Accepted (command : Bytes) : Prop := ∃ n : Node Shard, n.refusal command = .ok none

/-- A command with the tag of the control commands that is none of the three. -/
def Malformed (command : Bytes) : Prop :=
  command.head? = some 0 ∧ ∀ control, tryDecodeTxnControl command = .ok (some control) →
    control.type ≠ kPrepare ∧ control.type ≠ kCommit ∧ control.type ≠ kAbort

/-- The node gets past its next entry: it applies it, saves that it has, keeps the error of
a malformed control command, and can derive its members before and after. -/
structure Processes (cb : Callbacks Shard) (n : Node Shard) (entry : LogEntry) : Prop where
  refreshes : Succeeds n.refreshMembership.2
  applies : Succeeds (n.applyNext cb).2
  lastApplied : (n.applyNext cb).1.lastApplied = n.lastApplied + 1
  appliedIndex : (n.applyNext cb).1.log.appliedIndex = n.lastApplied + 1
  error : Malformed entry.command →
    ∃ error, error ≠ [] ∧ (n.applyNext cb).1.applyErrors.find entry.index = some error
  refreshesAfter : Succeeds (n.applyNext cb).1.refreshMembership.2

/-- The two lists of a PREPARE, complete. -/
def CompleteLists (body : Bytes) : Prop :=
  ∃ keys commands rest, body = encVec encStr keys ++ (encVec encStr commands ++ rest) ∧
    (keys.length < 2 ^ 32 ∧ ∀ k ∈ keys, k.length < 2 ^ 32) ∧
    (commands.length < 2 ^ 32 ∧ ∀ c ∈ commands, c.length < 2 ^ 32)

/-- The command does not have the tag of the control commands, or has their ten bytes of
tag, type and transaction, and when it is a PREPARE both of its lists. -/
def Complete (command : Bytes) : Prop :=
  command.head? = some 0 →
    10 ≤ command.length ∧ (command[1]? = some 1 → CompleteLists (command.drop 10))

lemma Accepted.decodes {command : Bytes} (h : Accepted command) :
    Succeeds (tryDecodeConfChange command) := by
  obtain ⟨n, hn⟩ := h
  unfold Node.refusal at hn
  split at hn
  · cases hn
  · obtain ⟨cc, hcc, -⟩ := bind_eq_ok.mp hn
    exact ⟨cc, hcc⟩

lemma readTxnBody_succeeds {type txnId : ℕ} {body : Bytes} :
    Succeeds (readTxnBody type txnId body) ↔ (type = kPrepare → CompleteLists body) := by
  unfold readTxnBody
  split
  case isTrue hprep =>
    simp only [hprep, forall_true_left]
    constructor
    · rintro ⟨⟨control, rest⟩, h⟩
      obtain ⟨keys, s, hkeys, h'⟩ := state_bind_eq_ok.mp h
      obtain ⟨commands, s', hcommands, -⟩ := state_bind_eq_ok.mp h'
      obtain ⟨rfl, hk⟩ := (decodes_vec decodes_str _ _ _).mp hkeys
      obtain ⟨rfl, hc⟩ := (decodes_vec decodes_str _ _ _).mp hcommands
      exact ⟨keys, commands, s', rfl, hk, hc⟩
    · rintro ⟨keys, commands, rest, rfl, hk, hc⟩
      exact ⟨_, state_bind_eq_ok.mpr
        ⟨keys, _, (decodes_vec decodes_str _ _ _).mpr ⟨rfl, hk⟩, state_bind_eq_ok.mpr
          ⟨commands, rest, (decodes_vec decodes_str _ _ _).mpr ⟨rfl, hc⟩, state_pure_eq_ok.mpr
            ⟨rfl, rfl⟩⟩⟩⟩
  case isFalse hprep => exact iff_of_true ⟨_, rfl⟩ fun h => (hprep h).elim

lemma readTxnControl_succeeds {command : Bytes} :
    Succeeds (readTxnControl command) ↔ 10 ≤ command.length ∧
      (command[1]? = some 1 → CompleteLists (command.drop 10)) := by
  constructor
  · rintro ⟨⟨control, rest⟩, h₀⟩
    obtain ⟨tag, s₁, htag, h₁⟩ := state_bind_eq_ok.mp h₀
    obtain ⟨type, s₂, htype, h₂⟩ := state_bind_eq_ok.mp h₁
    obtain ⟨txnId, body, htxn, h₃⟩ := state_bind_eq_ok.mp h₂
    obtain ⟨rfl, -⟩ := (decodes_num 1 _ _ _).mp htag
    obtain ⟨rfl, hty⟩ := (decodes_num 1 _ _ _).mp htype
    obtain ⟨rfl, -⟩ := (decodes_num 8 _ _ _).mp htxn
    have hdrop : (le 1 tag ++ (le 1 type ++ (le 8 txnId ++ body))).drop 10 = body := by
      rw [← List.append_assoc, ← List.append_assoc]
      exact List.drop_left' (by simp)
    refine ⟨by simp; omega, fun hone => ?_⟩
    have htype1 : type = kPrepare := by
      have hbyte : UInt8.ofNat type = 1 := by simpa [le] using hone
      have := congrArg UInt8.toNat hbyte
      rwa [UInt8.toNat_ofNat', Nat.mod_eq_of_lt (by simpa using hty)] at this
    rw [hdrop]
    exact readTxnBody_succeeds.mp ⟨_, h₃⟩ htype1
  · rintro ⟨hlen, hlists⟩
    obtain _ | ⟨tag, _ | ⟨type, rest⟩⟩ := command
    · simp at hlen
    · simp at hlen
    have htxn : le 8 (val (rest.take 8)) = rest.take 8 := by
      have hle := le_val (rest.take 8)
      rwa [List.length_take_of_le (by simp at hlen; omega)] at hle
    obtain ⟨⟨control, rest'⟩, hbody⟩ :=
      (@readTxnBody_succeeds _ (val (rest.take 8)) (rest.drop 8)).mpr
        fun hprep : type.toNat = 1 => hlists (by simp [← UInt8.toNat_inj, hprep])
    refine ⟨(control, rest'), state_bind_eq_ok.mpr
      ⟨tag.toNat, type :: rest, (decodes_num 1 _ _ _).mpr ⟨by simp [le], tag.toNat_lt⟩,
      state_bind_eq_ok.mpr
      ⟨type.toNat, rest, (decodes_num 1 _ _ _).mpr ⟨by simp [le], type.toNat_lt⟩,
      state_bind_eq_ok.mpr
      ⟨val (rest.take 8), rest.drop 8, (decodes_num 8 _ _ _).mpr ⟨?_, ?_⟩, hbody⟩⟩⟩⟩
    · rw [htxn, List.take_append_drop]
    · exact (val_lt _).trans_le (Nat.pow_le_pow_right (by norm_num) (by simp))

theorem tryDecodeTxnControl_succeeds {command : Bytes} :
    Succeeds (tryDecodeTxnControl command) ↔ Complete command := by
  unfold tryDecodeTxnControl Complete
  split
  case isTrue htag =>
    rw [← readTxnControl_succeeds]
    simp only [htag, forall_true_left, Codec.run, Functor.map, succeeds_map]
  case isFalse htag => exact iff_of_true (succeeds_ok _) fun h => (htag h).elim

/-! ### Applying -/

lemma parse_tagged {c : UInt8} (hc : c = 0 ∨ c = 1) (rest : Bytes) : SqlParser.parse (c :: rest) =
    .error (.runtimeError (text "unexpected character in SQL: '" ++ [c] ++ text "'")) := by
  have hsymbol : rest.head?.bind (SqlLexer.twoCharSymbol c) = none := by
    cases rest with
    | nil => rfl
    | cons c' rest => rcases hc with rfl | rfl <;> simp [SqlLexer.twoCharSymbol, chr]
  have hnext : SqlLexer.nextToken c rest =
      .error (.runtimeError (text "unexpected character in SQL: '" ++ [c] ++ text "'")) := by
    unfold SqlLexer.nextToken
    simp only [hsymbol]
    rcases hc with rfl | rfl <;> rfl
  unfold SqlParser.parse SqlLexer.tokenize
  simp only [List.length_cons, SqlLexer.tokenizeLoop, hnext]
  rfl

lemma applySql_zero (s : Shard) {command : Bytes} (h : command.head? = some 0) :
    (applySql s command).2 ≠ [] := by
  obtain ⟨rest, rfl⟩ : ∃ rest, command = 0 :: rest := by
    cases command with
    | nil => cases h
    | cons c rest => exact ⟨rest, by simpa using h⟩
  unfold applySql execute
  rw [parse_tagged (.inl rfl)]
  show (text "unexpected character in SQL: '" ++ [0] ++ text "'").takeWhile (· != 0) ≠ []
  decide

/-- The apply callback returns on every command it can decode, with a text for one that is
none of the three control commands. -/
lemma applyCallback_spec (s : Shard) {command : Bytes} (h : Complete command) :
    ∃ s' error, applyCallback s command = .ok (s', error) ∧
      (Malformed command → error ≠ []) := by
  obtain ⟨control, hcontrol⟩ := tryDecodeTxnControl_succeeds.mpr h
  unfold applyCallback
  rw [hcontrol]
  cases control with
  | none =>
    refine ⟨_, _, rfl, fun hmal => ?_⟩
    exact applySql_zero s hmal.1
  | some control =>
    have hkind : Malformed command →
        control.type ≠ kPrepare ∧ control.type ≠ kCommit ∧ control.type ≠ kAbort :=
      fun hmal => hmal.2 control hcontrol
    show ∃ s' error, (if control.type = kPrepare then _ else if control.type = kCommit then _
      else if control.type = kAbort then _ else _) = _ ∧ _
    split_ifs with hprep hdup hcommit habort
    · exact ⟨_, _, rfl, fun hmal => ((hkind hmal).1 hprep).elim⟩
    · exact ⟨_, _, rfl, fun hmal => ((hkind hmal).1 hprep).elim⟩
    · exact ⟨_, _, rfl, fun hmal => ((hkind hmal).2.1 hcommit).elim⟩
    · exact ⟨_, _, rfl, fun hmal => ((hkind hmal).2.2 habort).elim⟩
    · exact ⟨_, _, rfl, fun hmal => applySql_zero s hmal.1⟩

variable {snapshot : Shard → Bytes} {restore : Shard → Bytes → Shard} {n : Node Shard}
  {entry : LogEntry}

lemma Malformed.not_confChange {command : Bytes} {cc : ConfChangeCommand} (h : Malformed command) :
    tryDecodeConfChange command ≠ .ok (some cc) := by
  unfold tryDecodeConfChange
  rw [if_neg (by rw [h.1]; simp)]
  simp

lemma applyEntry_complete (haccepted : Accepted entry.command) (h : Complete entry.command) :
    ∃ machine errors, n.applyEntry (callbacks snapshot restore) entry =
        ({ n with machine := machine, applyErrors := errors }, .ok ()) ∧
      (Malformed entry.command → ∃ error, error ≠ [] ∧
        errors.find entry.index = some error) := by
  obtain ⟨cc, hcc⟩ := haccepted.decodes
  unfold Node.applyEntry
  rw [hcc]
  cases cc with
  | some cc => exact ⟨n.machine, n.applyErrors, rfl, fun hmal => (hmal.not_confChange hcc).elim⟩
  | none =>
    obtain ⟨s', error, happly, herror⟩ := applyCallback_spec n.machine h
    refine ⟨s', if error = [] then n.applyErrors else n.applyErrors.insert entry.index error,
      by simp only [callbacks, happly], fun hmal => ⟨error, herror hmal, ?_⟩⟩
    rw [if_neg (herror hmal), OrdMap.find_insert_self]

lemma applyNext_complete (hlog : ∀ e ∈ n.log.entries, Accepted e.command)
    (hentry : n.log.get (n.lastApplied + 1) = some entry) (h : Complete entry.command) :
    ∃ machine errors, n.applyNext (callbacks snapshot restore) = ({ n with
        lastApplied := n.lastApplied + 1
        machine := machine
        applyErrors := errors
        log := n.log.setAppliedIndex (n.lastApplied + 1) }, .ok ()) ∧
      (Malformed entry.command → ∃ error, error ≠ [] ∧
        errors.find entry.index = some error) := by
  obtain ⟨machine, errors, happly, herror⟩ :=
    @applyEntry_complete snapshot restore { n with lastApplied := n.lastApplied + 1 } entry
      (hlog entry (RaftLog.get_mem hentry)) h
  refine ⟨machine, errors, ?_, herror⟩
  unfold Node.applyNext
  simp only [hentry, happly]
  rfl

lemma processes_of_complete (hlog : ∀ e ∈ n.log.entries, Accepted e.command)
    (hentry : n.log.get (n.lastApplied + 1) = some entry) (h : Complete entry.command) :
    Processes (callbacks snapshot restore) n entry := by
  have hdecodable : Decodable n.log := fun e he => (hlog e he).decodes
  obtain ⟨machine, errors, hnext, herror⟩ :=
    @applyNext_complete snapshot restore n entry hlog hentry h
  exact {
    refreshes := Node.refreshMembership_succeeds hdecodable
    applies := by rw [hnext]; exact succeeds_ok _
    lastApplied := by rw [hnext]
    appliedIndex := by rw [hnext]; rfl
    error := by rw [hnext]; exact herror
    refreshesAfter := by rw [hnext]; exact Node.refreshMembership_succeeds hdecodable }

/-- The loop of `ApplyCommitted` gets past any number of complete commands. -/
theorem applyLoop_gets_past {k : ℕ} (hlog : ∀ e ∈ n.log.entries, Accepted e.command)
    (hentries : ∀ i, n.lastApplied < i → i ≤ n.lastApplied + k →
      ∃ entry, n.log.get i = some entry ∧ Complete entry.command) :
    Succeeds (n.applyLoop (callbacks snapshot restore) k).2 ∧
      (n.applyLoop (callbacks snapshot restore) k).1.lastApplied = n.lastApplied + k := by
  induction k generalizing n with
  | zero => exact ⟨succeeds_ok _, rfl⟩
  | succ k ih =>
    obtain ⟨entry, hentry, hcomplete⟩ := hentries (n.lastApplied + 1) (by omega) (by omega)
    obtain ⟨machine, errors, hnext, -⟩ :=
      @applyNext_complete snapshot restore n entry hlog hentry hcomplete
    rw [Node.applyLoop, hnext]
    obtain ⟨hsucceeds, hlast⟩ := ih (n := { n with
        lastApplied := n.lastApplied + 1
        machine := machine
        applyErrors := errors
        log := n.log.setAppliedIndex (n.lastApplied + 1) }) hlog
      (fun i hlo hhi => hentries i (Nat.lt_of_succ_lt hlo) (by dsimp only at hhi; omega))
    exact ⟨hsucceeds, hlast.trans (by dsimp only; omega)⟩

lemma complete_of_processes (hentry : n.log.get (n.lastApplied + 1) = some entry)
    (h : Processes (callbacks snapshot restore) n entry) : Complete entry.command := by
  by_contra hnot
  have htag : entry.command.head? = some 0 := by
    by_contra htag
    exact hnot fun h => (htag h).elim
  have hconf : tryDecodeConfChange entry.command = .ok none := by
    unfold tryDecodeConfChange
    rw [if_neg (by rw [htag]; simp)]
  obtain ⟨e, he⟩ : ∃ e, tryDecodeTxnControl entry.command = .error e := by
    cases hdecode : tryDecodeTxnControl entry.command with
    | error e => exact ⟨e, rfl⟩
    | ok control => exact (hnot (tryDecodeTxnControl_succeeds.mp ⟨control, hdecode⟩)).elim
  have happlies := h.applies
  have hthrows : applyCallback n.machine entry.command = .error e := by
    unfold applyCallback
    rw [he]
    rfl
  unfold Node.applyNext Node.applyEntry at happlies
  simp only [hentry, hconf, callbacks, hthrows] at happlies
  exact succeeds_error e happlies

/-- A node that holds the command as the only entry of its log, and has not applied it. -/
def holding (role : Role) (command : Bytes) : Node Shard :=
  { bootstrap 1 ⟨[], 0⟩ .empty false .start with
    role := role
    log := ⟨0, 0, [⟨1, 1, command⟩], 0⟩ }

/-- The callbacks with an empty dump. -/
def plainCallbacks : Callbacks Shard := callbacks (fun _ => []) fun s _ => s

/-- A control command of an unknown type. -/
def unknownType : Bytes := [0, 9, 0, 0, 0, 0, 0, 0, 0, 0]

/-- **Which commands cannot poison the log**: on a node in any role and state whose log holds
accepted commands only, the next entry to apply is processed if and only if its command is
complete. -/
theorem processes_iff (hlog : ∀ e ∈ n.log.entries, Accepted e.command)
    (hentry : n.log.get (n.lastApplied + 1) = some entry) :
    Processes (callbacks snapshot restore) n entry ↔ Complete entry.command :=
  ⟨complete_of_processes hentry, processes_of_complete hlog hentry⟩

/-- A complete command of an unknown type is accepted and gets past a follower, with an error
text. -/
theorem processes_iff_unknownType :
    Processes plainCallbacks (holding .kFollower unknownType) ⟨1, 1, unknownType⟩ := by
  refine (processes_iff ?_ rfl).mpr fun _ => ⟨by decide, fun hone => absurd hone (by decide)⟩
  intro e he
  obtain rfl := List.mem_singleton.mp he
  exact ⟨holding .kLeader [], rfl⟩

/-- **A truncated control command poisons the log**: every leader accepts the tag alone, and
no node gets past it. -/
theorem truncated_control_poisons : ¬ ∀ (n : Node Shard) (entry : LogEntry),
    (∀ e ∈ n.log.entries, Accepted e.command) → n.log.get (n.lastApplied + 1) = some entry →
      Processes plainCallbacks n entry := by
  intro h
  have hprocesses := h (holding .kFollower [0]) ⟨1, 1, [0]⟩ (by
    intro e he
    obtain rfl := List.mem_singleton.mp he
    exact ⟨holding .kLeader [], rfl⟩) rfl
  have hcomplete : Complete [0] := complete_of_processes rfl hprocesses
  exact absurd (hcomplete rfl).1 (by decide)

end DistDB.LogPoison
