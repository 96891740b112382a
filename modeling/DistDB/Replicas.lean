import DistDB.Runs
import DistDB.TxnLocks

/-!
Replicas of one shard that apply the same committed commands, from the callbacks in
`raft_main.cpp` and the constructor of `RaftNode`.

A replica keeps its store and its applied index on disk; what is prepared it keeps in memory, and
a snapshot does not hold it. So a replica that restarts while a transaction is prepared forgets
it, and goes another way at the COMMIT (`restart_forgets`). Replicas that restart and install
snapshots at other times only agree (`replicas_agree`).
-/

namespace DistDB.Replicas

open SqlExecutor TxnModel Codec Bytes Checks WalModel

def encPair (kv : Bytes × Bytes) : Bytes := encStr kv.1 ++ encStr kv.2

/-- `EncodeSnapshot`. -/
def encodeSnapshot (kvs : List (Bytes × Bytes)) : Bytes := encVec encPair kvs

def corruptSnapshot : Exception := .runtimeError (text "corrupt snapshot")

/-- `blob.substr(pos, n)`: what there is of the next `n` bytes. -/
def substr (n : ℕ) : Reader Exception Bytes := fun s => .ok (s.take n, s.drop n)

def readPair : Reader Exception (Bytes × Bytes) := do
  let key ← substr (← num corruptSnapshot 4)
  let value ← substr (← num corruptSnapshot 4)
  return (key, value)

/-- `DecodeSnapshot`. -/
def decodeSnapshot (blob : Bytes) : Except Exception (List (Bytes × Bytes)) :=
  Codec.run (vec corruptSnapshot readPair) blob

/-- `snapshot_callback`: everything `engine.Scan("")` gives. -/
def snapshot (s : Shard) : Bytes := encodeSnapshot (scan s.store [])

/-- `restore_callback`: the store is emptied and filled again, the participant stays. -/
def restore (s : Shard) (data : Bytes) : Except Exception Shard := do
  let kvs ← decodeSnapshot data
  return { s with store := OrdMap.insertAll .empty kvs }

/-- The lengths that a snapshot of the store writes have 32 bits. -/
def Dumpable (store : Store) : Prop :=
  store.entries.length < 2 ^ 32 ∧
    ∀ kv ∈ store.entries, kv.1.length < 2 ^ 32 ∧ kv.2.length < 2 ^ 32

instance (store : Store) : Decidable (Dumpable store) := inferInstanceAs (Decidable (_ ∧ _))

lemma readPair_encPair {kv : Bytes × Bytes} (hkey : kv.1.length < 2 ^ 32)
    (hvalue : kv.2.length < 2 ^ 32) (t : Bytes) :
    readPair (encPair kv ++ t) = .ok (kv, t) := by
  have hnum : ∀ (s t : Bytes), s.length < 2 ^ 32 →
      num corruptSnapshot 4 (le 4 s.length ++ t) = .ok (s.length, t) :=
    fun s t hs => (decodes_num 4 _ _ _).mpr ⟨rfl, hs⟩
  have hsub : ∀ s t : Bytes, substr s.length (s ++ t) = .ok (s, t) := by
    intro s t
    rw [substr, List.take_left, List.drop_left]
  simp only [readPair, encPair, encStr, List.append_assoc]
  rw [state_bind_of_ok (hnum _ _ hkey), state_bind_of_ok (hsub _ _),
    state_bind_of_ok (hnum _ _ hvalue), state_bind_of_ok (hsub _ _)]
  rfl

/-- **A snapshot restores the store** it was taken of. -/
theorem restore_snapshot {s : Shard} (h : Dumpable s.store) (t : Shard) :
    restore t (snapshot s) = .ok { t with store := s.store } := by
  have hscan : scan s.store [] = s.store.entries := by
    rw [scan, List.filter_eq_self.mpr fun kv _ => by simp]
  have hdecode : decodeSnapshot (snapshot s) = .ok s.store.entries := by
    refine run_eq_ok.mpr ⟨[], ?_⟩
    have hread := vec_encVec corruptSnapshot
      (fun kv hkv t => readPair_encPair (h.2 kv hkv).1 (h.2 kv hkv).2 t) h.1 []
    rw [snapshot, hscan, encodeSnapshot]
    rwa [List.append_nil] at hread
  rw [restore, hdecode]
  show Except.ok _ = _
  rw [OrdMap.insertAll_entries]

/-- The writes of staged commands, up to the first exception. -/
def stagedWrites : Store → List Bytes → List Mutation
  | _, [] => []
  | store, command :: commands =>
    let (writes, result) := execute store command
    writes ++ match result with
      | .error _ => []
      | .ok _ => stagedWrites (applyAll store writes) commands

/-- The writes of `apply_callback`, in order. -/
def writesOf (s : Shard) (command : Bytes) : List Mutation :=
  match tryDecodeTxnControl command with
  | .error _ => []
  | .ok none => (execute s.store command).1
  | .ok (some control) =>
    if control.type = kCommit then
      match s.participant.pending.find control.txnId with
      | none => []
      | some pending => stagedWrites s.store pending.commands
    else if control.type = kPrepare ∨ control.type = kAbort then []
    else (execute s.store command).1

lemma runStaged_writes (store : Store) (commands : List Bytes) :
    (runStaged store commands).1 = applyAll store (stagedWrites store commands) := by
  induction commands generalizing store with
  | nil => rfl
  | cons command commands ih =>
    rw [runStaged, stagedWrites]
    rcases execute store command with ⟨writes, e | out⟩
    · simp
    · simp only [ih, applyAll, List.foldl_append]

/-- They are all that happens to the store. -/
theorem applyCallback_writes {s s' : Shard} {command error : Bytes}
    (h : applyCallback s command = .ok (s', error)) :
    s'.store = applyAll s.store (writesOf s command) := by
  obtain ⟨control, hcontrol, h⟩ := bind_eq_ok.mp h
  unfold writesOf
  rw [hcontrol]
  cases control with
  | none =>
    cases h
    rfl
  | some control =>
    dsimp only at h ⊢
    by_cases hprepare : control.type = kPrepare
    · have hcommit : control.type ≠ kCommit := by rw [hprepare]; decide
      rw [if_neg hcommit, if_pos (.inl hprepare)]
      rw [if_pos hprepare] at h
      split_ifs at h <;> cases h <;> rfl
    by_cases hcommit : control.type = kCommit
    · rw [if_neg hprepare, if_pos hcommit] at h
      rw [if_pos hcommit]
      have hs : commit s control.txnId = (s', error) := Except.ok.inj h
      obtain rfl : (commit s control.txnId).1 = s' := congrArg Prod.fst hs
      unfold commit
      cases s.participant.pending.find control.txnId with
      | none => rfl
      | some pending => exact runStaged_writes s.store pending.commands
    rw [if_neg hprepare, if_neg hcommit] at h
    rw [if_neg hcommit]
    by_cases habort : control.type = kAbort
    · rw [if_pos habort] at h
      rw [if_pos (.inr habort)]
      cases h
      rfl
    · rw [if_neg habort] at h
      rw [if_neg fun hor => hor.elim hprepare habort]
      cases h
      rfl

/-! ### Replicas -/

abbrev ReplicaId := ℕ

structure Replica where
  shard : Shard
  lastApplied : ℕ

structure Cluster where
  replicas : ReplicaId → Replica
  /-- Every snapshot that has been taken, with the index it declares. -/
  snapshots : List (ℕ × Bytes)

def Cluster.start : Cluster := ⟨fun _ => ⟨.start, 0⟩, []⟩

inductive Event
  | apply (i : ReplicaId)
  /-- The process ends and is started again, between two commands. -/
  | restart (i : ReplicaId)
  /-- The process ends behind `n` writes of the next command and is started again. -/
  | interrupt (i : ReplicaId) (n : ℕ)
  | takeSnapshot (i : ReplicaId)
  /-- A snapshot that is not behind the replica is installed. -/
  | install (i : ReplicaId) (k : ℕ) (data : Bytes)

section

variable (commands : List Bytes)

/-- `apply_callback_` on the next command; `last_applied_` is saved behind it. -/
def Replica.apply (r : Replica) : Option Replica := do
  let command ← commands[r.lastApplied]?
  let (shard, _) ← (applyCallback r.shard command).toOption
  return ⟨shard, r.lastApplied + 1⟩

/-- The store and the applied index are read from disk, the participant is a new one. -/
def Replica.restart (r : Replica) : Replica :=
  { r with shard := { r.shard with participant := .empty } }

def Replica.interrupt (r : Replica) (n : ℕ) : Option Replica := do
  let command ← commands[r.lastApplied]?
  return ⟨⟨applyAll r.shard.store ((writesOf r.shard command).take n), .empty⟩,
    r.lastApplied⟩

def Replica.install (r : Replica) (k : ℕ) (data : Bytes) : Option Replica :=
  if r.lastApplied ≤ k then do
    let shard ← (restore r.shard data).toOption
    return ⟨shard, k⟩
  else none

def Cluster.setReplica (c : Cluster) (i : ReplicaId) (r : Replica) : Cluster :=
  { c with replicas := Function.update c.replicas i r }

def Cluster.step (c : Cluster) : Event → Option Cluster
  | .apply i => (c.replicas i).apply commands |>.map (c.setReplica i)
  | .restart i => some (c.setReplica i (c.replicas i).restart)
  | .interrupt i n => ((c.replicas i).interrupt commands n).map (c.setReplica i)
  | .takeSnapshot i =>
    some { c with snapshots := ((c.replicas i).lastApplied, snapshot (c.replicas i).shard) ::
      c.snapshots }
  | .install i k data =>
    if (k, data) ∈ c.snapshots then ((c.replicas i).install k data).map (c.setReplica i) else none

/-- What is prepared and not resolved when the first `k` commands have been applied. -/
def pendingAt (k : ℕ) : Option (OrdMap ℕ Pending) :=
  (applyCommands .start (commands.take k)).toOption.map fun s => s.participant.pending

/-- A replica restarts between two commands while nothing is prepared on it, and installs a
snapshot when what is
prepared on it is what is prepared at the index of the snapshot. -/
def Quiet (c : Cluster) : Event → Prop
  | .apply _ => True
  | .restart i => (c.replicas i).shard.participant.pending = .empty
  | .interrupt _ _ => False
  | .takeSnapshot i => Dumpable (c.replicas i).shard.store
  | .install i k _ => pendingAt commands k = some (c.replicas i).shard.participant.pending

instance (c : Cluster) (e : Event) : Decidable (Quiet commands c e) :=
  match e with
  | .apply _ => inferInstanceAs (Decidable True)
  | .restart _ => inferInstanceAs (Decidable (_ = _))
  | .interrupt _ _ => inferInstanceAs (Decidable False)
  | .takeSnapshot _ => inferInstanceAs (Decidable (Dumpable _))
  | .install _ _ _ => inferInstanceAs (Decidable (_ = _))

/-- What applying one more command leaves in the store, and the error it returns. -/
def Replica.outcome (r : Replica) (command : Bytes) : Except Exception (Store × Bytes) :=
  (applyCallback r.shard command).map fun p => (p.1.store, p.2)

/-- Replicas that have applied as many commands, each at any time, hold the same and go on
alike. -/
def Agree (c c' : Cluster) : Prop :=
  ∀ i j, (c.replicas i).lastApplied = (c'.replicas j).lastApplied →
    (c.replicas i).shard.store = (c'.replicas j).shard.store ∧
    ∀ command, (c.replicas i).outcome command = (c'.replicas j).outcome command

/-! ### Agreement -/

lemma participant_ext {p q : TxnParticipant} (hp : p.WellLocked) (hq : q.WellLocked)
    (h : p.pending = q.pending) : p = q := by
  obtain ⟨pending, locked⟩ := p
  obtain ⟨pending', locked'⟩ := q
  cases h
  have hlocked : locked = locked' := by
    ext k
    exact (hp.locked k).trans (hq.locked k).symm
  rw [hlocked]

lemma wellLocked_applyCommands {commands : List Bytes} {s s' : Shard}
    (hs : s.participant.WellLocked) (h : applyCommands s commands = .ok s') :
    s'.participant.WellLocked := by
  induction commands generalizing s with
  | nil => cases h; exact hs
  | cons command commands ih =>
    rw [applyCommands, List.foldlM_cons] at h
    obtain ⟨s₁, h₁, h₂⟩ := bind_eq_ok.mp h
    rcases happly : applyCallback s command with e | ⟨s₂, error⟩
    · rw [happly] at h₁
      cases h₁
    · rw [happly] at h₁
      cases h₁
      exact ih (wellLocked_applyCallback hs happly) h₂

/-- Every replica, and every snapshot, is where the commands up to its index lead. -/
structure Inv (c : Cluster) : Prop where
  replica : ∀ i, applyCommands .start (commands.take (c.replicas i).lastApplied) =
    .ok (c.replicas i).shard
  snapshot : ∀ k data, (k, data) ∈ c.snapshots → ∃ s,
    applyCommands .start (commands.take k) = .ok s ∧ data = snapshot s ∧ Dumpable s.store

variable {commands}

lemma Inv.start : Inv commands .start where
  replica := fun _ => rfl
  snapshot := nofun

lemma Inv.setReplica {c : Cluster} (h : Inv commands c) {i : ReplicaId} {r : Replica}
    (hr : applyCommands .start (commands.take r.lastApplied) = .ok r.shard) :
    Inv commands (c.setReplica i r) where
  replica := by
    intro j
    by_cases hj : j = i
    · subst hj
      simpa [Cluster.setReplica] using hr
    · simpa [Cluster.setReplica, Function.update_of_ne hj] using h.replica j
  snapshot := h.snapshot

lemma Inv.apply {c : Cluster} (h : Inv commands c) {i : ReplicaId} {r : Replica}
    (hr : (c.replicas i).apply commands = some r) :
    applyCommands .start (commands.take r.lastApplied) = .ok r.shard := by
  obtain ⟨command, hcommand, hr⟩ := Option.bind_eq_some_iff.mp hr
  obtain ⟨⟨shard, error⟩, happly, hr⟩ := Option.bind_eq_some_iff.mp hr
  cases hr
  have happly : applyCallback (c.replicas i).shard command = .ok (shard, error) := by
    rcases hcb : applyCallback (c.replicas i).shard command with e | p
    · rw [hcb] at happly
      cases happly
    · rw [hcb] at happly
      cases happly
      rfl
  have hbefore := h.replica i
  rw [applyCommands] at hbefore ⊢
  rw [List.take_add_one, hcommand, Option.toList_some, List.foldlM_append, hbefore]
  show (applyCallback (c.replicas i).shard command).map Prod.fst >>= _ = _
  rw [happly]
  rfl

lemma Inv.restart {c : Cluster} (h : Inv commands c) {i : ReplicaId}
    (hquiet : (c.replicas i).shard.participant.pending = .empty) :
    (c.replicas i).restart = c.replicas i := by
  have hlocked := wellLocked_applyCommands TxnParticipant.wellLocked_empty (h.replica i)
  have hempty := participant_ext hlocked TxnParticipant.wellLocked_empty hquiet
  unfold Replica.restart
  rw [← hempty]

lemma Inv.install {c : Cluster} (h : Inv commands c) {i : ReplicaId} {k : ℕ} {data : Bytes}
    (hdata : (k, data) ∈ c.snapshots)
    (hquiet : pendingAt commands k = some (c.replicas i).shard.participant.pending) {r : Replica}
    (hr : (c.replicas i).install k data = some r) :
    applyCommands .start (commands.take r.lastApplied) = .ok r.shard := by
  obtain ⟨s, hs, rfl, hdump⟩ := h.snapshot k data hdata
  unfold Replica.install at hr
  split_ifs at hr
  rw [restore_snapshot hdump] at hr
  cases hr
  have hpending : s.participant.pending = (c.replicas i).shard.participant.pending := by
    rw [pendingAt, hs] at hquiet
    exact Option.some.inj hquiet
  have hparticipant : s.participant = (c.replicas i).shard.participant :=
    participant_ext (wellLocked_applyCommands TxnParticipant.wellLocked_empty hs)
      (wellLocked_applyCommands TxnParticipant.wellLocked_empty (h.replica i)) hpending
  show applyCommands .start (commands.take k) = .ok ⟨s.store, (c.replicas i).shard.participant⟩
  rw [hs, ← hparticipant]

lemma Inv.step {c c' : Cluster} {e : Event} (h : Inv commands c) (hquiet : Quiet commands c e)
    (hstep : c.step commands e = some c') : Inv commands c' := by
  cases e with
  | apply i =>
    obtain ⟨r, hr, rfl⟩ := Option.map_eq_some_iff.mp hstep
    exact h.setReplica (h.apply hr)
  | restart i =>
    cases hstep
    rw [h.restart hquiet]
    exact h.setReplica (h.replica i)
  | interrupt i n => cases hquiet
  | takeSnapshot i =>
    cases hstep
    refine ⟨h.replica, fun k data hmem => ?_⟩
    rcases List.mem_cons.mp hmem with heq | hmem
    · cases heq
      exact ⟨_, h.replica i, rfl, hquiet⟩
    · exact h.snapshot k data hmem
  | install i k data =>
    simp only [Cluster.step] at hstep
    split_ifs at hstep with hdata
    obtain ⟨r, hr, rfl⟩ := Option.map_eq_some_iff.mp hstep
    exact h.setReplica (h.install hdata hquiet hr)

/-- **Replicas agree** whatever their history, if they restart while nothing is prepared and
install snapshots where they hold what is prepared there. -/
theorem replicas_agree {c c' : Cluster}
    (hc : Reach (StepOf? (Cluster.step commands)) (Quiet commands) .start c)
    (hc' : Reach (StepOf? (Cluster.step commands)) (Quiet commands) .start c') : Agree c c' := by
  have hinv : ∀ {c}, Reach (StepOf? (Cluster.step commands)) (Quiet commands) .start c →
      Inv commands c := fun h =>
    h.invariant (I := Inv commands) Inv.start fun _ _ _ hi hok hs => hi.step hok hs
  intro i j hn
  have hi := (hinv hc).replica i
  rw [hn, (hinv hc').replica j] at hi
  have hshard := (Except.ok.inj hi).symm
  exact ⟨by rw [hshard], fun command => by rw [Replica.outcome, Replica.outcome, hshard]⟩

end

/-- A table, a transaction that inserts a row, and its COMMIT. -/
def fourCommands : List Bytes := [
  text "CREATE DATABASE d",
  text "CREATE TABLE d.t (k TEXT PRIMARY KEY, n INT)",
  encodeTxnPrepare ⟨1, [rowKey (text "d") (text "t") (text "x")],
    [text "INSERT INTO d.t (k, n) VALUES ('x', 1)"]⟩,
  encodeTxnCommit 1]

/-- One replica applies all commands, the other one installs a snapshot behind the table,
restarts and goes on. -/
def quietRun : List Event := [.apply 0, .apply 0, .takeSnapshot 0, .apply 0, .apply 0,
  .install 1 2 (encodeSnapshot [
    (text "__database__/d", []),
    (text "__schema__/d/t", TableSchema.serialize
      ⟨[⟨text "k", .kText, true, none⟩, ⟨text "n", .kInt, false, none⟩]⟩)]),
  .restart 1, .apply 1, .apply 1]

theorem replicas_agree_quiet : ∃ c, runIf? (Cluster.step fourCommands) (Quiet fourCommands) .start
    quietRun = some c ∧ (c.replicas 0).lastApplied = 4 ∧ (c.replicas 1).lastApplied = 4 ∧
    Agree c c := by
  have hrun : (runIf? (Cluster.step fourCommands) (Quiet fourCommands) .start quietRun).map
      (fun c => ((c.replicas 0).lastApplied, (c.replicas 1).lastApplied)) = some (4, 4) := by
    decide +kernel
  obtain ⟨c, hc, hn⟩ := Option.map_eq_some_iff.mp hrun
  have hreach := reach_runIf? hc
  exact ⟨c, hc, congrArg Prod.fst hn, congrArg Prod.snd hn, replicas_agree hreach hreach⟩

/-- **A restart forgets what is prepared**: the replica that restarts between PREPARE and COMMIT
answers the COMMIT with an error and never stores the row. -/
theorem restart_forgets : ¬ ∀ (commands : List Bytes) (c : Cluster),
    Reach (StepOf? (Cluster.step commands)) (fun _ _ => True) .start c → Agree c c := by
  intro hall
  have hrun : (runOf? (Cluster.step fourCommands) .start [.apply 0, .apply 0, .apply 0, .apply 0,
      .apply 1, .apply 1, .apply 1, .restart 1, .apply 1]).map (fun c =>
        ((c.replicas 0).lastApplied, (c.replicas 1).lastApplied,
          (c.replicas 0).shard.store.find (rowKey (text "d") (text "t") (text "x")),
          (c.replicas 1).shard.store.find (rowKey (text "d") (text "t") (text "x")))) =
      some (4, 4, some (encodeRow [text "x", text "1"]), none) := by decide +kernel
  obtain ⟨c, hc, heq⟩ := Option.map_eq_some_iff.mp hrun
  simp only [Prod.mk.injEq] at heq
  obtain ⟨h₀, h₁, hrow, hnone⟩ := heq
  have hstores := (hall _ c (reach_runOf? hc) 0 1 (h₀.trans h₁.symm)).1
  rw [hstores, hnone] at hrow
  cases hrow

/-- A replica that is stopped behind a write holds more than its applied index says, until the
command has been run again. -/
theorem interrupted_holds_more : ¬ ∀ (commands : List Bytes) (i : ReplicaId) (n : ℕ)
    (c : Cluster),
    Cluster.start.step commands (.interrupt i n) = some c → Agree c c := by
  intro hall
  have hrun : (Cluster.start.step fourCommands (.interrupt 1 1)).map (fun c =>
      ((c.replicas 0).lastApplied, (c.replicas 1).lastApplied,
        (c.replicas 0).shard.store.find (text "__database__/d"),
        (c.replicas 1).shard.store.find (text "__database__/d"))) =
      some (0, 0, none, some []) := by decide +kernel
  obtain ⟨c, hc, heq⟩ := Option.map_eq_some_iff.mp hrun
  simp only [Prod.mk.injEq] at heq
  obtain ⟨h₀, h₁, hnone, hsome⟩ := heq
  have hstores := (hall _ 1 1 c hc 0 1 (h₀.trans h₁.symm)).1
  rw [hstores, hsome] at hnone
  cases hnone

end DistDB.Replicas
