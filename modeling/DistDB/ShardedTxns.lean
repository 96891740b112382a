import DistDB.ShardedSessions
import DistDB.ShellSends
import DistDB.RowKeys
import DistDB.TxnStaged

/-!
A transaction on a sharded database whose requests are answered once they are applied.

Every shard that takes part has prepared before the first one is told to commit. So either some
shard has a key already, and the shards are left as they were, or each of them runs its statements
in the order in which they were buffered, up to the first one that throws. One store would stop
there with all of them (`runTransaction_holds`).
-/

namespace DistDB.ShardedTxns

open NodeModel TxnModel TxnSystem SqlParser SqlExecutor SqlRuns SqlAtomic SqlRouting SqlTables
open SqlShards RowKeys SqlFrame SqlStore Shell ShardedSessions TxnStaged Checks Bytes

variable {σ : Type} {o : Outside σ} {home : ShardId} {shards : σ → ShardId → Shard}
  {table : RoutingTable} {whole store : Store} {w : σ}

/-- What a participant without transactions is after a PREPARE. -/
def prepared (prepare : TxnPrepare) : TxnParticipant :=
  ⟨.insert .empty prepare.txnId ⟨prepare.keys, prepare.commands⟩,
    prepare.keys.foldl (fun l k => insert k l) ∅⟩

lemma prepare_empty (prepare : TxnPrepare) : TxnParticipant.empty.prepare prepare.txnId prepare.keys
    prepare.commands = (prepared prepare, []) := by
  have hfree : prepare.keys.find? (· ∈ TxnParticipant.empty.lockedKeys) = none :=
    List.find?_eq_none.mpr fun k _ => by simp [TxnParticipant.empty]
  unfold TxnParticipant.prepare
  rw [hfree]
  rfl

lemma find_prepared (prepare : TxnPrepare) :
    (prepared prepare).pending.find prepare.txnId = some ⟨prepare.keys, prepare.commands⟩ :=
  OrdMap.find_insert_self ..

lemma resolve_prepared (prepare : TxnPrepare) :
    (prepared prepare).resolve prepare.txnId ⟨prepare.keys, prepare.commands⟩ = .empty := by
  have hpending : (prepared prepare).pending.erase prepare.txnId = .empty := by
    refine OrdMap.ext_find fun t => ?_
    rw [OrdMap.find_erase, prepared, OrdMap.find_insert]
    split_ifs <;> rfl
  have hlocks : prepare.keys.foldl Finset.erase (prepared prepare).lockedKeys = ∅ := by
    refine Finset.eq_empty_of_forall_notMem fun k hk => ?_
    rw [prepared, mem_foldl_erase, mem_foldl_insert] at hk
    simp [hk.1] at hk
  unfold TxnParticipant.resolve
  rw [hpending, hlocks]
  rfl

section

variable {prepare : TxnPrepare} (htxn : prepare.txnId < 2 ^ 64)

include htxn

lemma applyCallback_prepare (store : Store) (hfits : prepare.Fits) :
    applyCallback ⟨store, .empty⟩ (encodeTxnPrepare prepare) = .ok
      (if findStagedDuplicateKey store prepare.commands = [] then ⟨store, prepared prepare⟩
        else ⟨store, .empty⟩, findStagedDuplicateKey store prepare.commands) := by
  unfold applyCallback
  rw [tryDecode_prepare htxn hfits]
  by_cases hnew : findStagedDuplicateKey store prepare.commands = []
  · rw [if_pos hnew, hnew]
    refine (if_neg (not_not.mpr hnew)).trans ?_
    show Except.ok ((⟨store, (TxnParticipant.empty.prepare prepare.txnId prepare.keys
      prepare.commands).1⟩ : Shard), (TxnParticipant.empty.prepare prepare.txnId prepare.keys
      prepare.commands).2) = _
    rw [prepare_empty]
  · rw [if_neg hnew]
    exact if_pos hnew

lemma applyCallback_abort :
    applyCallback ⟨store, prepared prepare⟩ (encodeTxnAbort prepare.txnId) =
      .ok (⟨store, .empty⟩, []) := by
  have habort : (prepared prepare).abort prepare.txnId = (.empty, []) := by
    rw [TxnParticipant.abort, find_prepared]
    exact congrArg (·, []) (resolve_prepared prepare)
  unfold applyCallback encodeTxnAbort
  rw [tryDecode_resolution (.inr rfl) htxn]
  show Except.ok ((⟨store, ((prepared prepare).abort prepare.txnId).1⟩ : Shard),
    ((prepared prepare).abort prepare.txnId).2) = _
  rw [habort]

lemma applyCallback_commit : ∃ error,
    applyCallback ⟨store, prepared prepare⟩ (encodeTxnCommit prepare.txnId) =
      .ok (⟨(runStaged store prepare.commands).1, .empty⟩, error) := by
  have hcommit : (TxnModel.commit ⟨store, prepared prepare⟩ prepare.txnId).1 =
      ⟨(runStaged store prepare.commands).1, .empty⟩ := by
    unfold TxnModel.commit
    rw [find_prepared]
    exact congrArg (Shard.mk _) (resolve_prepared prepare)
  unfold applyCallback encodeTxnCommit
  rw [tryDecode_resolution (.inl rfl) htxn]
  exact ⟨_, congrArg Except.ok (Prod.ext hcommit rfl)⟩

end

/-! ### The loops of the coordinator -/

/-- The shards on which these have been prepared. -/
def preparedOn (prepares : List (ShardId × TxnPrepare)) (s : ShardId → Shard) :
    ShardId → Shard :=
  prepares.foldl (fun s e => Function.update s e.1 ⟨(s e.1).store, prepared e.2⟩) s

lemma preparedOn_other {prepares : List (ShardId × TxnPrepare)} {s : ShardId → Shard}
    {sid : ShardId} (h : sid ∉ prepares.map Prod.fst) : preparedOn prepares s sid = s sid := by
  induction prepares generalizing s with
  | nil => rfl
  | cons e prepares ih =>
    rw [List.map_cons, List.mem_cons, not_or] at h
    rw [preparedOn, List.foldl_cons]
    exact (ih h.2).trans (Function.update_of_ne h.1 _ _)

lemma preparedOn_mem {prepares : List (ShardId × TxnPrepare)} {s : ShardId → Shard}
    {sid : ShardId} {prepare : TxnPrepare} (hnodup : (prepares.map Prod.fst).Nodup)
    (h : (sid, prepare) ∈ prepares) :
    preparedOn prepares s sid = ⟨(s sid).store, prepared prepare⟩ := by
  induction prepares generalizing s with
  | nil => cases h
  | cons e prepares ih =>
    obtain ⟨hnew, hnodup⟩ := List.nodup_cons.mp hnodup
    rw [preparedOn, List.foldl_cons]
    rcases List.mem_cons.mp h with rfl | h
    · exact (preparedOn_other hnew).trans (Function.update_self _ _ _)
    · have hne : sid ≠ e.1 := fun heq => hnew (heq ▸ List.mem_map_of_mem h)
      refine (ih hnodup h).trans ?_
      rw [Function.update_of_ne hne]

/-- How the loop of the PREPAREs ends: behind the last one, or at the first one that is refused. -/
inductive Votes (stores : ShardId → Store) :
    List (ShardId × TxnPrepare) → List (ShardId × TxnPrepare) → Option Bytes → Prop
  | all : Votes stores [] [] none
  | refused {e prepares} (reason) : findStagedDuplicateKey (stores e.1) e.2.commands ≠ [] →
      Votes stores (e :: prepares) [] (some reason)
  | next {e prepares done reason} : findStagedDuplicateKey (stores e.1) e.2.commands = [] →
      Votes stores prepares done reason → Votes stores (e :: prepares) (e :: done) reason

lemma Votes.isPrefix {stores : ShardId → Store} {prepares done : List (ShardId × TxnPrepare)}
    {reason : Option Bytes} (h : Votes stores prepares done reason) : done <+: prepares := by
  induction h with
  | all => exact List.prefix_rfl
  | refused => exact List.nil_prefix
  | next _ _ ih => exact List.cons_prefix_cons.mpr ⟨rfl, ih⟩

lemma Votes.reason {stores : ShardId → Store} {prepares done : List (ShardId × TxnPrepare)}
    {reason : Option Bytes} (h : Votes stores prepares done reason) :
    (reason = none ↔ ∀ e ∈ prepares, findStagedDuplicateKey
      (stores e.1) e.2.commands = []) ∧ (reason = none → done = prepares) := by
  induction h with
  | all => simp
  | refused reason hdup => simp [hdup]
  | next hnew _ ih => simpa [hnew] using ih

/-- Each shard can be sent its PREPARE. -/
structure Ready (s : ShardId → Shard) (prepares : List (ShardId × TxnPrepare)) : Prop where
  nodup : (prepares.map Prod.fst).Nodup
  empty : ∀ e ∈ prepares, (s e.1).participant = .empty
  fits : ∀ e ∈ prepares, e.2.txnId < 2 ^ 64 ∧ e.2.Fits

lemma Serves.applied (h : Serves o home shards) {sid : ShardId} {command error : Bytes} {s : Shard}
    (hcommand : command.head? = some 0)
    (happly : applyCallback (shards w sid) command = .ok (s, error)) :
    shards (o.propose sid command w).1 = Function.update (shards w) sid s ∧
      reply (o.propose sid command w).2 = .response (error = []) error := by
  refine h.propose sid command w s error ?_ happly
  rw [hcommand]
  decide

lemma failure_response (error : Bytes) (sid : ShardId) :
    (Reply.response (error = []) error).failure sid = none ↔ error = [] := by
  by_cases h : error = [] <;> simp [h, Reply.failure]

lemma prepareAll_cons (sid : ShardId) (prepare : TxnPrepare) (rest : List (ShardId × TxnPrepare))
    (preparedShards : List ShardId) :
    Shell.prepareAll o ((sid, prepare) :: rest) preparedShards w =
      match (reply (o.propose sid (encodeTxnPrepare prepare) w).2).failure sid with
      | some reason => ((o.propose sid (encodeTxnPrepare prepare) w).1, preparedShards, some reason)
      | none => Shell.prepareAll o rest (preparedShards ++ [sid])
          (o.propose sid (encodeTxnPrepare prepare) w).1 := rfl

lemma Serves.prepareAll (h : Serves o home shards) {prepares : List (ShardId × TxnPrepare)}
    (hready : Ready (shards w) prepares) (preparedShards : List ShardId) :
    ∃ done reason, Votes (fun sid => (shards w sid).store) prepares done reason ∧
      shards (prepareAll o prepares preparedShards w).1 = preparedOn done (shards w) ∧
      (prepareAll o prepares preparedShards w).2 =
        (preparedShards ++ done.map Prod.fst, reason) := by
  induction prepares generalizing preparedShards w with
  | nil => exact ⟨[], none, .all, rfl, by simp [Shell.prepareAll]⟩
  | cons e prepares ih =>
    obtain ⟨sid, prepare⟩ := e
    obtain ⟨htxn, hfits⟩ : prepare.txnId < 2 ^ 64 ∧ prepare.Fits :=
      hready.fits _ List.mem_cons_self
    obtain ⟨hnew, hnodup⟩ := List.nodup_cons.mp hready.nodup
    have hstart : shards w sid = ⟨(shards w sid).store, .empty⟩ := by
      rw [← hready.empty _ List.mem_cons_self]
    have happly := applyCallback_prepare htxn (shards w sid).store hfits
    rw [← hstart] at happly
    obtain ⟨hshards, hreply⟩ := Serves.applied h rfl happly
    have hvote :=
      failure_response (findStagedDuplicateKey (shards w sid).store prepare.commands) sid
    rw [← hreply] at hvote
    rw [prepareAll_cons]
    by_cases hdup : findStagedDuplicateKey (shards w sid).store prepare.commands = []
    · rw [hvote.mpr hdup]
      rw [if_pos hdup] at hshards
      have hstores :
          (fun sid' => (shards (o.propose sid (encodeTxnPrepare prepare) w).1 sid').store) =
          fun sid' => (shards w sid').store := by
        funext sid'
        rw [hshards, Function.update_apply]
        split_ifs with heq
        · rw [heq]
        · rfl
      have hrest : Ready (shards (o.propose sid (encodeTxnPrepare prepare) w).1) prepares := by
        refine ⟨hnodup, fun e he => ?_, fun e he => hready.fits e (List.mem_cons_of_mem _ he)⟩
        have hne : e.1 ≠ sid := fun heq => hnew (List.mem_map.mpr ⟨e, he, heq⟩)
        rw [hshards, Function.update_of_ne hne]
        exact hready.empty e (List.mem_cons_of_mem _ he)
      obtain ⟨done, reason, hvotes, hdone, hresult⟩ := ih hrest (preparedShards ++ [sid])
      refine ⟨(sid, prepare) :: done, reason, .next hdup (hstores ▸ hvotes), ?_, ?_⟩
      · rw [hdone, hshards]
        rfl
      · rw [hresult, List.map_cons, List.append_assoc]
        rfl
    · obtain ⟨reason, hreason⟩ := Option.ne_none_iff_exists'.mp (mt hvote.mp hdup)
      rw [if_neg hdup, Function.update_eq_self] at hshards
      rw [hreason]
      exact ⟨[], some reason, .refused reason hdup, hshards, by simp⟩

lemma Serves.tellAll (h : Serves o home shards) {command : Bytes}
    (hcommand : command.head? = some 0) {sids : List ShardId} {resolved : ShardId → Shard}
    (hresolved : ∀ sid ∈ sids, ∃ error, applyCallback (shards w sid) command =
      .ok (resolved sid, error)) (hnodup : sids.Nodup) (failures : List Bytes) (sid : ShardId) :
    shards (tellAll o command sids failures w).1 sid =
      if sid ∈ sids then resolved sid else shards w sid := by
  induction sids generalizing failures w with
  | nil => rfl
  | cons sid' sids ih =>
    obtain ⟨hnew, hnodup⟩ := List.nodup_cons.mp hnodup
    obtain ⟨error, happly⟩ := hresolved sid' List.mem_cons_self
    obtain ⟨hshards, -⟩ := Serves.applied h hcommand happly
    have hrest : ∀ sid ∈ sids, ∃ error, applyCallback
        (shards (o.propose sid' command w).1 sid) command = .ok (resolved sid, error) := by
      intro sid hsid
      have hne : sid ≠ sid' := fun heq => hnew (heq ▸ hsid)
      rw [hshards, Function.update_of_ne hne]
      exact hresolved sid (List.mem_cons_of_mem _ hsid)
    rw [Shell.tellAll]
    refine (ih hrest hnodup _).trans ?_
    rw [hshards, Function.update_apply]
    by_cases heq : sid = sid'
    · subst heq
      simp [hnew]
    · simp [heq]

/-- What a shard is once a transaction has committed. -/
def committed (s : Shard) : Option TxnPrepare → Shard
  | none => s
  | some prepare => ⟨(runStaged s.store prepare.commands).1, .empty⟩

section

variable {txnId : ℕ} {buffer : List BufferedTxnStatement} (h : Serves o home shards)
  (hready : Ready (shards w) (byShard txnId buffer).entries)

lemma txnId_of_mem {sid : ShardId} {prepare : TxnPrepare}
    (he : (sid, prepare) ∈ (byShard txnId buffer).entries) : prepare.txnId = txnId :=
  (Call.find_prepares (c := ⟨⟨0, 0⟩, txnId, buffer⟩) ((OrdMap.mem_entries _).mp he)).1

lemma runTransaction_of_refused {w' : σ} {preparedShards : List ShardId} {reason : Bytes}
    (hresult : prepareAll o (byShard txnId buffer).entries [] w =
      (w', preparedShards, some reason)) :
    (runTransaction o txnId buffer w).1 =
      (tellAll o (encodeTxnAbort txnId) preparedShards [] w').1 := by
  unfold runTransaction
  rw [hresult]

lemma runTransaction_of_prepared {w' : σ} {preparedShards : List ShardId}
    (hresult : prepareAll o (byShard txnId buffer).entries [] w = (w', preparedShards, none)) :
    (runTransaction o txnId buffer w).1 = (tellAll o (encodeTxnCommit txnId)
      ((byShard txnId buffer).entries.map Prod.fst) [] w').1 := by
  unfold runTransaction
  rw [hresult]
  dsimp only
  rcases tellAll o _ _ [] w' with ⟨w'', _ | _⟩ <;> rfl

include h hready

lemma runTransaction_aborts (hdup : ∃ e ∈ (byShard txnId buffer).entries,
    findStagedDuplicateKey (shards w e.1).store e.2.commands ≠ []) :
    shards (runTransaction o txnId buffer w).1 = shards w := by
  obtain ⟨done, reason, hvotes, hdone, hresult⟩ := Serves.prepareAll h hready []
  rcases reason with _ | reason
  · obtain ⟨e, he, hdup⟩ := hdup
    exact absurd (hvotes.reason.1.mp rfl e he) hdup
  have hpre := hvotes.isPrefix
  have hnodup := hready.nodup.sublist (hpre.map Prod.fst).sublist
  have hprepared : ∀ sid prepare, (sid, prepare) ∈ done →
      preparedOn done (shards w) sid = ⟨(shards w sid).store, prepared prepare⟩ :=
    fun sid prepare he => preparedOn_mem hnodup he
  have hresolved : ∀ sid ∈ done.map Prod.fst, ∃ error,
      applyCallback (preparedOn done (shards w) sid) (encodeTxnAbort txnId) =
        .ok (shards w sid, error) := by
    intro sid hsid
    obtain ⟨⟨sid, prepare⟩, he, rfl⟩ := List.mem_map.mp hsid
    have hmem := hpre.subset he
    have hstart : shards w sid = ⟨(shards w sid).store, .empty⟩ := by
      rw [← hready.empty _ hmem]
    rw [hprepared _ _ he, ← txnId_of_mem hmem]
    exact ⟨[], hstart ▸ applyCallback_abort (hready.fits _ hmem).1⟩
  have htold := Serves.tellAll h (w := (prepareAll o (byShard txnId buffer).entries [] w).1) rfl
    (hdone ▸ hresolved) hnodup []
  funext sid
  rw [runTransaction_of_refused (Prod.ext rfl hresult)]
  refine (htold sid).trans ?_
  rw [hdone]
  split_ifs with hsid
  · rfl
  · exact preparedOn_other hsid

/-- Every shard that takes part runs its statements, once none refuses the transaction. -/
lemma runTransaction_commits (hnew : ∀ e ∈ (byShard txnId buffer).entries,
    findStagedDuplicateKey (shards w e.1).store e.2.commands = []) (sid : ShardId) :
    shards (runTransaction o txnId buffer w).1 sid =
      committed (shards w sid) ((byShard txnId buffer).find sid) := by
  obtain ⟨done, reason, hvotes, hdone, hresult⟩ := Serves.prepareAll h hready []
  obtain rfl := hvotes.reason.1.mpr hnew
  obtain rfl := hvotes.reason.2 rfl
  have hprepared : ∀ sid prepare, (byShard txnId buffer).find sid = some prepare →
      preparedOn (byShard txnId buffer).entries (shards w) sid =
        ⟨(shards w sid).store, prepared prepare⟩ := fun sid prepare hfind =>
    preparedOn_mem hready.nodup ((OrdMap.mem_entries _).mpr hfind)
  have hresolved : ∀ sid ∈ (byShard txnId buffer).entries.map Prod.fst, ∃ error,
      applyCallback (preparedOn (byShard txnId buffer).entries (shards w) sid)
        (encodeTxnCommit txnId) =
      .ok (committed (shards w sid) ((byShard txnId buffer).find sid), error) := by
    intro sid hsid
    obtain ⟨⟨sid, prepare⟩, he, rfl⟩ := List.mem_map.mp hsid
    have hfind := (OrdMap.mem_entries _).mp he
    rw [hprepared _ _ hfind, hfind, ← txnId_of_mem he]
    exact applyCallback_commit (hready.fits _ he).1
  have htold := Serves.tellAll h (w := (prepareAll o (byShard txnId buffer).entries [] w).1) rfl
    (hdone ▸ hresolved) hready.nodup [] sid
  rw [runTransaction_of_prepared (Prod.ext rfl hresult), htold, hdone]
  split_ifs with hsid
  · rfl
  · have hnone : (byShard txnId buffer).find sid = none := by
      rcases hfind : (byShard txnId buffer).find sid with _ | prepare
      · rfl
      · exact absurd (List.mem_map_of_mem ((OrdMap.mem_entries _).mpr hfind)) hsid
    rw [preparedOn_other hsid, hnone]
    rfl

end

/-! ### One store -/

/-- What a transaction leaves on one store: nothing runs when a row that it inserts is there
already; else its statements run in order, up to the first one that throws. -/
def afterTxn (whole : Store) (buffer : List BufferedTxnStatement) : Store :=
  if findStagedDuplicateKey whole (buffer.map (·.sql)) = [] then
    (runStaged whole (buffer.map (·.sql))).1
  else whole

/-- **One shard alone** that is told to prepare and to commit a transaction holds that afterwards.
-/
theorem applyCommands_txn {prepare : TxnPrepare} (htxn : prepare.txnId < 2 ^ 64)
    (hfits : prepare.Fits) {buffer : List BufferedTxnStatement}
    (hcommands : prepare.commands = buffer.map (·.sql)) :
    applyCommands ⟨whole, .empty⟩ [encodeTxnPrepare prepare, encodeTxnCommit prepare.txnId] =
      .ok ⟨afterTxn whole buffer, .empty⟩ := by
  have hprepare := applyCallback_prepare htxn whole hfits
  rw [hcommands] at hprepare
  unfold afterTxn
  split_ifs at hprepare ⊢ with hnew
  · obtain ⟨error, hcommit⟩ := @applyCallback_commit whole prepare htxn
    rw [applyCommands_cons _ hprepare, applyCommands_cons _ hcommit, hcommands]
    rfl
  · -- a transaction that is not staged cannot be committed
    obtain ⟨error, hcommit⟩ : ∃ error, applyCallback ⟨whole, .empty⟩
        (encodeTxnCommit prepare.txnId) = .ok (⟨whole, .empty⟩, error) := by
      unfold applyCallback encodeTxnCommit
      rw [tryDecode_resolution (.inl rfl) htxn]
      exact ⟨_, rfl⟩
    rw [applyCommands_cons _ hprepare, applyCommands_cons _ hcommit]
    rfl

/-- A buffered statement names the row that it was routed by. -/
inductive Staged (table : RoutingTable) (whole : Store) (b : BufferedTxnStatement) : Prop
  | mk {stmt d t} (parsed : parse b.sql = .ok stmt) (stageable : Stageable stmt)
    (target : targetOf stmt = some (d, t)) (names : Names whole stmt d t b.key)
    (routed : table.shardFor b.key = some b.shardId)

/-- Where each statement of the transaction runs, one store and its shards run it alike; and the
statements behind one that throws are for its shard, which does not run them either. -/
def AlikeAlong (store : Store) (buffer : List BufferedTxnStatement) : Prop :=
  ∀ before b after, buffer = before ++ b :: after →
    Succeeds (runStaged store (before.map (·.sql))).2 →
      (∀ stmt, parse b.sql = .ok stmt →
        Alike (runStaged store (before.map (·.sql))).1 stmt) ∧
      (¬ Succeeds (execute (runStaged store (before.map (·.sql))).1 b.sql).2 →
        ∀ b' ∈ after, b'.shardId = b.shardId)

lemma runStaged_cons (store : Store) (sql : Bytes) (sqls : List Bytes) :
    runStaged store (sql :: sqls) =
      match (execute store sql).2 with
      | .ok _ => runStaged (after store sql) sqls
      | .error e => (after store sql, .error e) := by
  rw [runStaged]
  dsimp only
  split <;> (rename_i heq; rw [heq]) <;> rfl

lemma runStaged_keeps {P : Store → Prop} {sqls : List Bytes}
    (hkeeps : ∀ store, ∀ sql ∈ sqls, P store → P (after store sql)) (h : P store) :
    P (runStaged store sqls).1 := by
  induction sqls generalizing store with
  | nil => exact h
  | cons sql sqls ih =>
    have hnext := hkeeps store sql List.mem_cons_self h
    rw [runStaged_cons]
    split
    · exact ih (fun store sql hsql => hkeeps store sql (List.mem_cons_of_mem _ hsql)) hnext
    · exact hnext

lemma runStaged_append (store : Store) (before : List Bytes) {sqls : List Bytes}
    (h : Succeeds (runStaged store before).2) :
    runStaged store (before ++ sqls) = runStaged (runStaged store before).1 sqls := by
  induction before generalizing store with
  | nil => rfl
  | cons sql before ih =>
    rw [List.cons_append, runStaged_cons, runStaged_cons]
    rw [runStaged_cons] at h
    cases hout : (execute store sql).2 with
    | error e =>
      rw [hout] at h
      obtain ⟨_, h⟩ := h
      cases h
    | ok out =>
      rw [hout] at h
      exact ih _ h

lemma AlikeAlong.next {store : Store} {b : BufferedTxnStatement}
    {buffer : List BufferedTxnStatement} (h : AlikeAlong store (b :: buffer)) {out : Bytes}
    (hout : (execute store b.sql).2 = .ok out) : AlikeAlong (after store b.sql) buffer := by
  intro before b' after hbuffer
  have hcons := h (b :: before) b' after (by rw [hbuffer, List.cons_append])
  rw [List.map_cons, runStaged_cons, hout] at hcons
  exact hcons

lemma Staged.after {b : BufferedTxnStatement} (h : Staged table whole b) {other : Bytes}
    (hother : other.length < 2 ^ 32) : Staged table (after whole other) b := by
  obtain ⟨hparse, hstageable, htarget, hnames, hrouted⟩ := h
  exact ⟨hparse, hstageable, htarget, hnames.after hparse htarget hother, hrouted⟩

lemma no_writes {stmt : Statement} {d t : Bytes} (hstageable : Stageable stmt)
    (htarget : targetOf stmt = some (d, t))
    (hno : ∀ schema, loadSchema store d t ≠ .ok schema) :
    (executeStatement store stmt).1 = [] := by
  rcases hschema : loadSchema store d t with e | schema
  swap
  · exact absurd hschema (hno schema)
  cases stmt with
  | createDatabase s | createTable s | alterTableAddColumn s | select s | showTables s
  | showDatabases => exact hstageable.elim
  | insert s =>
    cases htarget
    rw [executeStatement, executeInsert, hschema]
    rfl
  | update s =>
    cases htarget
    rw [executeStatement, executeUpdate, hschema]
    rfl
  | delete s =>
    cases htarget
    rw [executeStatement, executeDelete, hschema]
    rfl

section

variable {b : BufferedTxnStatement} (h : Staged table store b)
  (halike : ∀ stmt, parse b.sql = .ok stmt → Alike store stmt)

include h halike

lemma Staged.shares : SharesStatement table store b.sql b.shardId := by
  obtain ⟨hparse, hstageable, htarget, hnames, hrouted⟩ := h
  rename_i stmt d t
  refine sharesStatement hparse (fun s heq => ?_) (halike stmt hparse) ?_
  · subst heq
    exact hstageable
  · rcases hnames with hkey | ⟨-, hno⟩
    · exact insertsAt_of_key hparse hkey hrouted
    · rintro s schema row pk rfl hschema -
      cases htarget
      exact absurd hschema (hno schema)

lemma Staged.elsewhere {sid : ShardId} (hne : sid ≠ b.shardId) :
    share table (SqlTables.after store b.sql) sid = share table store sid := by
  obtain ⟨hparse, hstageable, htarget, hnames, hrouted⟩ := h
  rename_i stmt d t
  refine share_elsewhere ?_
  rw [execute, hparse]
  rcases hnames with hkey | ⟨-, hno⟩
  · obtain ⟨d, t, hrow⟩ := rowPrefix_of_key hkey
    exact ownWrites_elsewhere hrow ((halike stmt hparse).writes_key hparse hkey) hrouted hne
  · show ownWrites table sid (executeStatement store stmt).1 = []
    rw [no_writes hstageable htarget hno]
    rfl

end

/-- The statements of a shard, of those of the transaction. -/
def stagedOn (buffer : List BufferedTxnStatement) (sid : ShardId) : List Bytes :=
  (buffer.filter (·.shardId = sid)).map (·.sql)

lemma stagedOn_cons (b : BufferedTxnStatement) (buffer : List BufferedTxnStatement)
    (sid : ShardId) : stagedOn (b :: buffer) sid =
      if b.shardId = sid then b.sql :: stagedOn buffer sid else stagedOn buffer sid := by
  unfold stagedOn
  by_cases h : b.shardId = sid <;> simp [h]

/-- **What a shard runs of a transaction**: its share of what one store runs. -/
lemma share_runStaged {buffer : List BufferedTxnStatement}
    (hstaged : ∀ b ∈ buffer, Staged table store b)
    (hlen : ∀ b ∈ buffer, b.sql.length < 2 ^ 32) (halike : AlikeAlong store buffer)
    (sid : ShardId) :
    share table (runStaged store (buffer.map (·.sql))).1 sid =
      (runStaged (share table store sid) (stagedOn buffer sid)).1 := by
  induction buffer generalizing store with
  | nil => rfl
  | cons b buffer ih =>
    obtain ⟨hb, hrest⟩ := List.forall_mem_cons.mp hstaged
    obtain ⟨hblen, hlens⟩ := List.forall_mem_cons.mp hlen
    obtain ⟨hone, hstops⟩ := halike [] b buffer rfl (succeeds_ok ())
    have hshares := hb.shares hone
    rw [List.map_cons, runStaged_cons, stagedOn_cons]
    rcases hresult : (execute store b.sql).2 with e | out
    · -- no shard runs what is behind the statement
      have hthrows : ¬ Succeeds (execute store b.sql).2 := by
        rw [hresult]
        rintro ⟨out, hout⟩
        cases hout
      by_cases hsid : b.shardId = sid
      · subst hsid
        rw [if_pos rfl, runStaged_cons, (hshares.error e).mpr hresult, after_share hshares]
      · have hnone : stagedOn buffer sid = [] := by
          unfold stagedOn
          rw [List.filter_eq_nil_iff.mpr fun b' hb' => ?_, List.map_nil]
          rw [hstops hthrows b' hb']
          simpa using hsid
        rw [if_neg hsid, hnone]
        exact hb.elsewhere hone (Ne.symm hsid)
    · dsimp only
      rw [ih (fun b' hb' => (hrest b' hb').after hblen) hlens (halike.next hresult)]
      by_cases hsid : b.shardId = sid
      · subst hsid
        obtain ⟨out', hout'⟩ := hshares.succeeds.mpr ⟨out, hresult⟩
        rw [if_pos rfl, runStaged_cons, hout', after_share hshares]
      · rw [if_neg hsid, hb.elsewhere hone (Ne.symm hsid)]

lemma mem_stagedOn {buffer : List BufferedTxnStatement} {sid : ShardId} {sql : Bytes} :
    sql ∈ stagedOn buffer sid ↔ ∃ b ∈ buffer, b.shardId = sid ∧ b.sql = sql := by
  simp [stagedOn, and_assoc]

/-- **Who refuses a transaction**: some shard does when one store would. -/
lemma refused_iff {buffer : List BufferedTxnStatement}
    (hstaged : ∀ b ∈ buffer, Staged table whole b) :
    (∃ b ∈ buffer, findStagedDuplicateKey (share table whole b.shardId)
      (stagedOn buffer b.shardId) ≠ []) ↔
      findStagedDuplicateKey whole (buffer.map (·.sql)) ≠ [] := by
  have hkey : ∀ b ∈ buffer, ∀ s key, parse b.sql = .ok (.insert s) →
      tryExtractRowKey whole (.insert s) = some key →
      (share table whole b.shardId).find key = whole.find key := by
    intro b hb s key hparse hkey
    obtain ⟨hparse', -, htarget, hnames, hrouted⟩ := hstaged b hb
    cases hparse.symm.trans hparse'
    rcases hnames with hkey' | ⟨-, hno⟩
    · cases hkey.symm.trans hkey'
      obtain ⟨d, t, hrow⟩ := rowPrefix_of_key hkey
      exact Placement.find_part_of_lives (.inr ((owner_rowPrefix hrow).trans hrouted))
    · obtain ⟨schema, hschema⟩ := loads_of_key htarget hkey
      exact absurd hschema (hno schema)
  simp only [findStagedDuplicateKey_ne_nil, mem_stagedOn, List.mem_map]
  constructor
  · rintro ⟨b₀, -, -, ⟨b, hb, hsid, rfl⟩, s, key, hparse, hown, hfind⟩
    rw [← hsid] at hown hfind
    rw [tryExtractRowKey_share] at hown
    rw [hkey b hb s key hparse hown] at hfind
    exact ⟨_, ⟨b, hb, rfl⟩, s, key, hparse, hown, hfind⟩
  · rintro ⟨-, ⟨b, hb, rfl⟩, s, key, hparse, hown, hfind⟩
    rw [← hkey b hb s key hparse hown] at hfind
    exact ⟨b, hb, _, ⟨b, hb, rfl, rfl⟩, s, key, hparse,
      (tryExtractRowKey_share _ _).trans hown, hfind⟩

lemma find_byShard_eq_some {txnId : ℕ} {buffer : List BufferedTxnStatement} {sid : ShardId}
    {prepare : TxnPrepare} (hfind : (byShard txnId buffer).find sid = some prepare) :
    prepare.commands = stagedOn buffer sid ∧ ∃ b ∈ buffer, b.shardId = sid := by
  rw [find_byShard] at hfind
  split_ifs at hfind with hnil
  cases hfind
  obtain ⟨b, hb⟩ := List.exists_mem_of_ne_nil _ hnil
  rw [List.mem_filter, decide_eq_true_eq] at hb
  exact ⟨rfl, b, hb⟩

lemma find_byShard_eq_none {txnId : ℕ} {buffer : List BufferedTxnStatement} {sid : ShardId}
    (hfind : (byShard txnId buffer).find sid = none) : stagedOn buffer sid = [] := by
  rw [find_byShard] at hfind
  split_ifs at hfind with hnil
  rw [stagedOn, hnil]
  rfl

lemma find_byShard_of_mem {txnId : ℕ} {buffer : List BufferedTxnStatement}
    {b : BufferedTxnStatement} (hb : b ∈ buffer) :
    ∃ prepare, (byShard txnId buffer).find b.shardId = some prepare := by
  have hne : buffer.filter (·.shardId = b.shardId) ≠ [] :=
    List.ne_nil_of_mem (List.mem_filter.mpr ⟨hb, decide_eq_true rfl⟩)
  exact ⟨_, by rw [find_byShard, if_neg hne]⟩

/-- **A transaction on the shards** leaves what it leaves on one store. -/
theorem runTransaction_holds (h : Serves o home shards) (hholds : Holds table (shards w) whole)
    {txnId n : ℕ} (htxn : txnId < 2 ^ 64) {buffer : List BufferedTxnStatement}
    (hstaged : ∀ b ∈ buffer, Staged table whole b) (hfits : BufferFits n buffer)
    (hn : n < 2 ^ 32) (halike : AlikeAlong whole buffer) :
    Holds table (shards (runTransaction o txnId buffer w).1) (afterTxn whole buffer) := by
  have hmember : ∀ b ∈ buffer, b.shardId ∈ table.allShardIds := by
    intro b hb
    obtain ⟨-, -, -, -, hrouted⟩ := hstaged b hb
    exact shardFor_mem hrouted
  have hready : Ready (shards w) (byShard txnId buffer).entries := by
    refine ⟨List.pairwise_map.mpr ((byShard txnId buffer).asc.imp fun h => ne_of_lt h),
      fun e he => ?_, fun e he => ?_⟩
    · obtain ⟨-, b, hb, hsid⟩ := find_byShard_eq_some ((OrdMap.mem_entries _).mp he)
      rw [← hsid, hholds _ (hmember b hb)]
    · obtain ⟨hid, hprepare⟩ := prepare_fits hfits hn he
      exact ⟨hid ▸ htxn, hprepare⟩
  -- some PREPARE is refused when some shard that takes part has a row already
  have hrefused : (∃ e ∈ (byShard txnId buffer).entries,
      findStagedDuplicateKey (shards w e.1).store e.2.commands ≠ []) ↔
      findStagedDuplicateKey whole (buffer.map (·.sql)) ≠ [] := by
    rw [← refused_iff hstaged]
    constructor
    · rintro ⟨⟨sid, prepare⟩, he, hdup⟩
      obtain ⟨hcommands, b, hb, rfl⟩ := find_byShard_eq_some ((OrdMap.mem_entries _).mp he)
      refine ⟨b, hb, ?_⟩
      rwa [hcommands, hholds _ (hmember b hb)] at hdup
    · rintro ⟨b, hb, hdup⟩
      obtain ⟨prepare, hfind⟩ :
          ∃ prepare, (byShard txnId buffer).find b.shardId = some prepare :=
        find_byShard_of_mem hb
      refine ⟨(b.shardId, prepare), (OrdMap.mem_entries _).mpr hfind, ?_⟩
      rwa [(find_byShard_eq_some hfind).1, hholds _ (hmember b hb)]
  unfold afterTxn
  split_ifs with hnew
  · have haccepted : ∀ e ∈ (byShard txnId buffer).entries,
        findStagedDuplicateKey (shards w e.1).store e.2.commands = [] := by
      simpa using mt hrefused.mp (not_not.mpr hnew)
    intro sid hsid
    have hshare := share_runStaged hstaged (fun b hb => (hfits.lengths b hb).2) halike sid
    rw [runTransaction_commits h hready haccepted, hshare, hholds sid hsid]
    cases hfind : (byShard txnId buffer).find sid with
    | none =>
      rw [find_byShard_eq_none hfind]
      rfl
    | some prepare =>
      rw [committed, (find_byShard_eq_some hfind).1]
  · rw [runTransaction_aborts h hready (hrefused.mpr hnew)]
    exact hholds

end DistDB.ShardedTxns
