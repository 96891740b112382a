import DistDB.ClusterStates
import DistDB.ReadRequests
import DistDB.Replicas
import DistDB.SqlRelational

/-!
A group of SQL servers: the nodes of one shard, with the callbacks of `raft_main.cpp`, on a log that
holds no command of a transaction. Every node that installs no snapshot answers what a relational
database answers that the statements it has applied have gone through, and of two nodes the one that
is behind is in an earlier state of the same database (`replicas_relational`).
-/

namespace DistDB.SqlReplicas

open NodeModel ClusterModel SqlExecutor SqlAtomic SqlRelational TxnModel ReadRequests

/-- The callbacks of `main`, on a store that no transaction is prepared for. -/
def sqlCallbacks : Callbacks Store where
  apply store _ command := ((applySql ⟨store, .empty⟩ command).1.store,
    .ok (applySql ⟨store, .empty⟩ command).2)
  snapshot store := Replicas.snapshot ⟨store, .empty⟩
  restore store data :=
    match Replicas.restore ⟨store, .empty⟩ data with
    | .error _ => store
    | .ok shard => shard.store

lemma sqlCallbacks_total : sqlCallbacks.Total := fun _ _ _ => ⟨_, rfl⟩

lemma restore_snapshot_sql {store : Store} (h : Replicas.Dumpable store) (m : Store) :
    sqlCallbacks.restore m (sqlCallbacks.snapshot store) = store := by
  have hdump := Replicas.restore_snapshot (s := ⟨store, .empty⟩) h ⟨m, .empty⟩
  unfold sqlCallbacks
  dsimp only
  rw [hdump]

/-- The command is handed to `apply_callback_`. -/
def reaches (command : Bytes) : Bool :=
  match tryDecodeConfChange command with
  | .ok none => true
  | _ => false

/-- The statements of a log. -/
def statements (l : List LogEntry) : List Bytes := (l.map (·.command)).filter (reaches ·)

lemma execute_sqlCallbacks (store : Store) (index : ℕ) (command : Bytes) :
    Node.execute sqlCallbacks store index command =
      if reaches command then applyAll store (execute store command).1 else store := by
  unfold Node.execute reaches
  rcases tryDecodeConfChange command with e | _ | cc <;> rfl

lemma runFrom_sqlCallbacks (store : Store) (l : List LogEntry) :
    runFrom sqlCallbacks store l = runAll store (statements l) := by
  induction l generalizing store with
  | nil => rfl
  | cons e l ih =>
    show runFrom sqlCallbacks (Node.execute sqlCallbacks store e.index e.command) l = _
    have hcons : statements (e :: l) =
        if reaches e.command then e.command :: statements l else statements l := List.filter_cons
    rw [ih, execute_sqlCallbacks, hcons]
    split_ifs <;> rfl

lemma applyCommands_sql {store : Store} {sqls : List Bytes}
    (h : ∀ sql ∈ sqls, tryDecodeTxnControl sql = .ok none) :
    applyCommands ⟨store, .empty⟩ sqls = .ok ⟨runAll store sqls, .empty⟩ := by
  induction sqls generalizing store with
  | nil => rfl
  | cons sql sqls ih =>
    obtain ⟨hsql, hrest⟩ := List.forall_mem_cons.mp h
    have happly : applyCallback
        ⟨store, .empty⟩ sql = .ok (applySql ⟨store, .empty⟩ sql) := by
      unfold applyCallback
      rw [hsql]
      rfl
    rw [applyCommands_cons _ happly]
    exact ih hrest

/-! ### The group -/

variable {base : Finset NodeId} {own : NodeId → PeerAddress}
  {peers : NodeId → OrdMap NodeId PeerAddress} {s : Cluster Store} {v w : NodeId}

/-- The statements that a node has applied. -/
def executed (s : Cluster Store) (v : NodeId) : List Bytes :=
  statements ((s.whole v).take (s.node v).lastApplied)

/-- **The replicas are one relational database.** -/
theorem replicas_relational (hpeers : ∀ v ∈ base, (peers v).keys = base.erase v)
    (hrun : WholeRun sqlCallbacks (fun s e => Careful s e ∧ Orderly sqlCallbacks s e)
      (Cluster.boot base own peers fun _ => .empty) s)
    (hrest : AtRest s v) (hsql : ∀ sql ∈ executed s v, tryDecodeTxnControl sql = .ok none ∧
      sql.length + (executed s v).length < 2 ^ 32) :
    applyCommands .start (executed s v) = .ok ⟨(s.node v).machine, .empty⟩ ∧
    (∀ query, query.length < 2 ^ 32 →
      (readCallback ⟨(s.node v).machine, .empty⟩ query).2 =
        (Relational.execute (Relational.catalogAfter .empty (executed s v)) query).2) ∧
    ∀ w, (s.node v).lastApplied ≤ (s.node w).lastApplied → executed s v <+: executed s w := by
  obtain ⟨a, ht, -, h⟩ := replicated_run sqlCallbacks_total hpeers hrun
  have hmachine : (s.node v).machine = runAll .empty (executed s v) :=
    (h.machine v hrest).trans (runFrom_sqlCallbacks _ _)
  refine ⟨?_, fun query hquery => ?_, fun w hle => ?_⟩
  · rw [hmachine]
    exact applyCommands_sql fun sql hmem => (hsql sql hmem).1
  · have hrefines : Refines 1 (runAll .empty (executed s v))
        (Relational.catalogAfter .empty (executed s v)) :=
      Refines.empty.runAll fun sql hmem => (hsql sql hmem).2
    rw [hmachine]
    exact (hrefines.execute (n := 0) hquery).answer
  · -- what `v` has applied, `w` has applied at the same indices
    have htake := taken ht ht (.refl base a) le_rfl hle
    unfold executed statements
    rw [htake]
    exact ((List.take_prefix_take_left hle).map _).filter _

/-- Whether the store that a step dumps fits the format of dumps. -/
def dumpable? (s : Cluster Store) : Event Store → Bool
  | .sendInstallSnapshot v _ _ => decide (Replicas.Dumpable (s.node v).machine)
  | _ => true

lemma orderly_of_dumpable {e : Event Store} (hcheck : orderly? s e = true)
    (hdump : dumpable? s e = true) : Orderly sqlCallbacks s e :=
  orderly_of_check hcheck fun v peer term he => by
    subst he
    exact restore_snapshot_sql (of_decide_eq_true hdump)

def createDatabase : Bytes := text "CREATE DATABASE d"

def createTable : Bytes := text "CREATE TABLE d.t (k INT PRIMARY KEY)"

/-- Server 1 commits one statement with server 2 and gives server 3 a snapshot of it, which starts
again on it. Then it commits another one. -/
def twoStatements : List (Event Store) :=
  [.election (.startElection 1), .election (.callVote 1 2), .election (.requestVote 0 1000),
    .election (.voteReply 0 0), .propose 1 createDatabase, .replicateToAll 1,
    .replicateTo 1 2, .appendEntries 0 1000, .appendReply 0 0, .compact 1, .replicateTo 1 3,
    .sendInstallSnapshot 1 3 1, .installCheck 1 1000, .installRestore 3, .installAdopt 3,
    .snapshotReply 1 1, .restart 3 (runAll .empty [createDatabase]), .propose 1 createTable,
    .replicateToAll 1, .replicateTo 1 2, .appendEntries 2 2000, .appendReply 2 2]

/-- Server 3 lists the database, and is one statement behind server 1. -/
theorem replicas_relational_twoStatements : ∃ s : Cluster Store,
    (s.node 3).log.snapshotIndex = 1 ∧ executed s 3 = [createDatabase] ∧
    executed s 1 = [createDatabase, createTable] ∧ executed s 3 <+: executed s 1 ∧
    (readCallback ⟨(s.node 3).machine, .empty⟩ (text "SHOW DATABASES")).2 =
      (Relational.execute (Relational.catalogAfter .empty [createDatabase])
        (text "SHOW DATABASES")).2 ∧
    (readCallback ⟨(s.node 1).machine, .empty⟩ (text "SELECT k FROM d.t")).2 =
      (Relational.execute (Relational.catalogAfter .empty [createDatabase, createTable])
        (text "SELECT k FROM d.t")).2 := by
  obtain ⟨s, hs, hsnap, hthree, hone, hle, hrest⟩ := exists_of_any
    (P := fun s : Cluster Store => (s.node 3).log.snapshotIndex = 1 ∧
      executed s 3 = [createDatabase] ∧ executed s 1 = [createDatabase, createTable] ∧
      (s.node 3).lastApplied ≤ (s.node 1).lastApplied ∧ s.installs 1 = none ∧
      s.installs 3 = none)
    (x := runIf? (Cluster.tornStep? sqlCallbacks)
      (fun s e => whole? (fun s e => careful? s e && orderly? s e && dumpable? s e) s e = true)
      (trioCluster .empty) (twoStatements.map .whole)) (by decide +kernel)
  have hrun : WholeRun sqlCallbacks (fun s e => Careful s e ∧ Orderly sqlCallbacks s e)
      (trioCluster .empty) s :=
    whole_of_run (fun s e hcheck => by
      obtain ⟨hboth, hdump⟩ := Bool.and_eq_true_iff.mp hcheck
      obtain ⟨hcareful, horderly⟩ := Bool.and_eq_true_iff.mp hboth
      exact ⟨careful_of_check hcareful, orderly_of_dumpable horderly hdump⟩) hs
  have hbehind := replicas_relational (fun v _ => Elections.keys_others v) hrun
    (fun i hi => by rw [hrest.2] at hi; cases hi) (by
      rw [hthree]
      decide)
  have hahead := replicas_relational (fun v _ => Elections.keys_others v) hrun
    (fun i hi => by rw [hrest.1] at hi; cases hi) (by
      rw [hone]
      decide)
  refine ⟨s, hsnap, hthree, hone, hbehind.2.2 1 hle, ?_, ?_⟩
  · rw [hbehind.2.1 _ (by decide), hthree]
  · rw [hahead.2.1 _ (by decide), hone]

end DistDB.SqlReplicas
