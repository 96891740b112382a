import DistDB.TxnLocks

/-!
The participant of `txn/participant.cpp` over any sequence of its three calls, with any `run`
callback in `Commit`.

The locked keys are one set without owners. They are released rightly because the pending
transactions lock disjoint keys, which every call keeps (`locks_exact`).
-/

namespace DistDB.TxnModel

open SqlExecutor Bytes

variable {σ ε : Type}

/-- The loop of `Commit` over the staged commands: the state `run` leaves, and the first
exception. -/
def runEach (run : σ → Bytes → σ × Except ε Unit) : σ → List Bytes →
    σ × Except ε Unit
  | s, [] => (s, .ok ())
  | s, command :: commands =>
    match run s command with
    | (s, .error e) => (s, .error e)
    | (s, .ok _) => runEach run s commands

namespace TxnParticipant

/-- `Commit`, with what `run` does to a state of its own. -/
def commit (run : σ → Bytes → σ × Except ε Unit) (p : TxnParticipant) (txnId : ℕ)
    (s : σ) :
    TxnParticipant × σ × Except ε Bytes :=
  match p.pending.find txnId with
  | none => (p, s, .ok (text "commit of unknown or already-resolved transaction " ++ toText txnId))
  | some pending =>
    -- the locks are released before the first command runs
    let p := p.resolve txnId pending
    let (s, result) := runEach run s pending.commands
    (p, s, result.map fun _ => [])

end TxnParticipant

/-- The apply callback runs the staged commands on the SQL executor. -/
def runSql (store : Store) (command : Bytes) : Store × Except Exception Unit :=
  (applyAll store (execute store command).1, (execute store command).2.map fun _ => ())

lemma runEach_runSql (store : Store) (commands : List Bytes) :
    runEach runSql store commands = runStaged store commands := by
  induction commands generalizing store with
  | nil => rfl
  | cons command commands ih =>
    rw [runEach, runStaged, runSql]
    rcases hrun : (execute store command).2 with e | out
    · simp [hrun, Except.map]
    · simp [hrun, Except.map, ih]

/-- **The apply callback**: its COMMIT is `Commit` with the `catch` around it. -/
theorem commit_eq (s : Shard) (txnId : ℕ) :
    commit s txnId =
      match s.participant.commit runSql txnId s.store with
      | (p, store, .ok answer) => (⟨store, p⟩, answer)
      | (p, store, .error e) => (⟨store, p⟩, e.what) := by
  unfold commit TxnParticipant.commit
  rcases s.participant.pending.find txnId with _ | pending
  · rfl
  · dsimp only
    rw [runEach_runSql]
    rcases (runStaged s.store pending.commands).2 with e | _ <;> rfl

inductive ParticipantCall (σ ε : Type)
  | prepare (txnId : ℕ) (keys commands : List Bytes)
  | commit (txnId : ℕ) (run : σ → Bytes → σ × Except ε Unit)
  | abort (txnId : ℕ)

/-- What a call leaves, whether it throws or not. -/
def afterCall (x : TxnParticipant × σ) : ParticipantCall σ ε → TxnParticipant × σ
  | .prepare txnId keys commands => ((x.1.prepare txnId keys commands).1, x.2)
  | .commit txnId run => ((x.1.commit run txnId x.2).1, (x.1.commit run txnId x.2).2.1)
  | .abort txnId => ((x.1.abort txnId).1, x.2)

/-- What any calls leave of a participant that is new. -/
def afterCalls (s : σ) (calls : List (ParticipantCall σ ε)) : TxnParticipant × σ :=
  calls.foldl afterCall (.empty, s)

/-! ### Locks -/

namespace TxnParticipant

variable {p : TxnParticipant} {txnId : ℕ}

lemma foldl_erase (keys : List Bytes) (l : Finset Bytes) :
    keys.foldl Finset.erase l = l \ keys.toFinset := by
  ext k
  rw [mem_foldl_erase, Finset.mem_sdiff, List.mem_toFinset, and_comm]

lemma commit_fst (run : σ → Bytes → σ × Except ε Unit) (p : TxnParticipant) (txnId : ℕ)
    (s : σ) : (p.commit run txnId s).1 = (p.abort txnId).1 := by
  unfold commit abort
  rcases p.pending.find txnId with _ | pending <;> rfl

lemma abort_of_none (h : p.pending.find txnId = none) : (p.abort txnId).1 = p := by
  unfold abort
  rw [h]

lemma abort_of_some {q : Pending} (h : p.pending.find txnId = some q) :
    (p.abort txnId).1 = ⟨p.pending.erase txnId, p.lockedKeys \ q.keys.toFinset⟩ := by
  unfold abort
  rw [h]
  simp only [resolve, foldl_erase]

lemma prepare_no {keys commands : List Bytes} (h : (p.prepare txnId keys commands).2 ≠ []) :
    (p.prepare txnId keys commands).1 = p := by
  rcases prepare_cases p txnId keys commands with heq | ⟨-, -, heq⟩
  · exact heq
  · rw [heq] at h
    exact absurd rfl h

end TxnParticipant

lemma wellLocked_afterCall {x : TxnParticipant × σ} (h : x.1.WellLocked)
    (call : ParticipantCall σ ε) : (afterCall x call).1.WellLocked := by
  cases call with
  | prepare txnId keys commands => exact h.prepare keys commands
  | commit txnId run =>
    rw [afterCall, TxnParticipant.commit_fst]
    exact h.abort
  | abort txnId => exact h.abort

lemma wellLocked_afterCalls (s : σ) (calls : List (ParticipantCall σ ε)) :
    (afterCalls s calls).1.WellLocked := by
  unfold afterCalls
  induction calls using List.reverseRecOn with
  | nil => exact TxnParticipant.wellLocked_empty
  | append_singleton calls call ih =>
    rw [List.foldl_append]
    exact wellLocked_afterCall ih call

/-- What the locks of a participant are, and what the next call does to them, for any `run`
callback. -/
structure LocksExact (σ ε : Type) (p : TxnParticipant) : Prop where
  locked : ∀ k, k ∈ p.lockedKeys ↔ ∃ t q, p.pending.find t = some q ∧ k ∈ q.keys
  apart : ∀ t t' q q', p.pending.find t = some q → p.pending.find t' = some q' → t ≠ t' →
    Disjoint q.keys.toFinset q'.keys.toFinset
  /-- A no vote changes nothing. -/
  no_vote : ∀ txnId keys commands, (p.prepare txnId keys commands).2 ≠ [] →
    (p.prepare txnId keys commands).1 = p
  /-- `Commit`, also if `run` throws, and `Abort` free the keys of the transaction. -/
  frees : ∀ txnId q, p.pending.find txnId = some q → q.keys.toFinset ⊆ p.lockedKeys ∧
    (∀ (run : σ → Bytes → σ × Except ε Unit) (s : σ), (p.commit run txnId s).1 =
      ⟨p.pending.erase txnId, p.lockedKeys \ q.keys.toFinset⟩) ∧
    (p.abort txnId).1 = ⟨p.pending.erase txnId, p.lockedKeys \ q.keys.toFinset⟩
  /-- Of a transaction that is not pending they free nothing. -/
  unknown : ∀ txnId, p.pending.find txnId = none →
    (∀ (run : σ → Bytes → σ × Except ε Unit) (s : σ), (p.commit run txnId s).1 = p) ∧
    (p.abort txnId).1 = p

/-- **The locks are exact** after any calls: they are those of the pending transactions, of
which no two share a key, and a call frees the keys of the transaction it resolves and no
others. -/
theorem locks_exact (s : σ) (calls : List (ParticipantCall σ ε)) :
    LocksExact σ ε (afterCalls s calls).1 := by
  have h := wellLocked_afterCalls s calls
  refine { locked := h.locked, apart := ?_, no_vote := fun _ _ _ => TxnParticipant.prepare_no,
           frees := ?_, unknown := ?_ }
  · intro t t' q q' hq hq' hne
    rw [Finset.disjoint_left]
    intro k hk hk'
    exact hne (h.apart hq hq' (List.mem_toFinset.mp hk) (List.mem_toFinset.mp hk'))
  · intro txnId q hq
    refine ⟨fun k hk => ?_, fun run s' => ?_, TxnParticipant.abort_of_some hq⟩
    · exact (h.locked k).mpr ⟨txnId, q, hq, List.mem_toFinset.mp hk⟩
    · rw [TxnParticipant.commit_fst, TxnParticipant.abort_of_some hq]
  · intro txnId hnone
    refine ⟨fun run s' => ?_, TxnParticipant.abort_of_none hnone⟩
    rw [TxnParticipant.commit_fst, TxnParticipant.abort_of_none hnone]

end DistDB.TxnModel
