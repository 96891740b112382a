import DistDB.TxnLocks

/-!
Calls of a participant, in any order and with any of them repeated.

A participant forgets a transaction when it is resolved. So a PREPARE that comes again after
that is voted on like a new one: when its keys are free it locks them again, and a COMMIT that
comes again then runs the commands a second time (`runs_twice`). The staged commands run at
most once exactly when every such PREPARE finds one of its keys locked (`once_iff`).
-/

namespace DistDB.TxnOnce

open TxnModel Bytes

inductive Call
  | prepare (txnId : ℕ) (keys commands : List Bytes)
  | commit (txnId : ℕ)
  | abort (txnId : ℕ)

def Call.txnId : Call → ℕ
  | .prepare txnId _ _ | .commit txnId | .abort txnId => txnId

/-- A participant, with the transactions it has resolved so far and those whose commands it has
run, the latest first. -/
structure History where
  participant : TxnParticipant
  resolved : Finset ℕ
  ran : List ℕ

/-- `Prepare`, `Commit` and `Abort`. A COMMIT of a transaction that is not pending is an error;
any other COMMIT, and every ABORT, resolves its transaction. -/
def call (h : History) : Call → History
  | .prepare txnId keys commands =>
    { h with participant := (h.participant.prepare txnId keys commands).1 }
  | .commit txnId =>
    match h.participant.pending.find txnId with
    | none => h
    | some pending =>
      ⟨h.participant.resolve txnId pending, insert txnId h.resolved, txnId :: h.ran⟩
  | .abort txnId =>
    { h with participant := (h.participant.abort txnId).1, resolved := insert txnId h.resolved }

/-- **The calls are those of a shard**: what a COMMIT does to its participant is what the call does,
and it runs no command unless the call says so. -/
theorem commit_call (s : Shard) (txnId : ℕ) (resolved : Finset ℕ) (ran : List ℕ) :
    (commit s txnId).1.participant =
        (call ⟨s.participant, resolved, ran⟩ (.commit txnId)).participant ∧
      ((call ⟨s.participant, resolved, ran⟩ (.commit txnId)).ran = ran →
        (commit s txnId).1.store = s.store) := by
  cases hfind : s.participant.pending.find txnId with
  | none => simp only [commit, call, hfind, implies_true, and_self]
  | some pending => simp [commit, call, hfind]

lemma call_commit_none {h : History} {txnId : ℕ}
    (hfind : h.participant.pending.find txnId = none) : call h (.commit txnId) = h := by
  simp only [call, hfind]

lemma call_commit_some {h : History} {txnId : ℕ} {pending : Pending}
    (hfind : h.participant.pending.find txnId = some pending) : call h (.commit txnId) =
      ⟨h.participant.resolve txnId pending, insert txnId h.resolved, txnId :: h.ran⟩ := by
  simp only [call, hfind]

def start : History := ⟨.empty, ∅, []⟩

def after (calls : List Call) : History := calls.foldl call start

lemma after_concat (calls : List Call) (c : Call) : after (calls ++ [c]) = call
    (after calls) c := by
  unfold after
  rw [List.foldl_append]
  rfl

/-- The commands of each transaction are run once at most, and no call of a transaction that is
resolved makes it pending or locks a key. -/
structure Once (calls : List Call) : Prop where
  ran : (after calls).ran.Nodup
  forgotten : ∀ earlier c later, calls = earlier ++ c :: later →
    c.txnId ∈ (after earlier).resolved →
      (call (after earlier) c).participant.pending.find c.txnId = none ∧
      (call (after earlier) c).participant.lockedKeys ⊆ (after earlier).participant.lockedKeys

/-- A PREPARE of a transaction that is resolved names a key that is locked. -/
def LateAreBlocked (calls : List Call) : Prop :=
  ∀ earlier txnId keys commands later,
    calls = earlier ++ .prepare txnId keys commands :: later →
      txnId ∈ (after earlier).resolved →
        ∃ k ∈ keys, k ∈ (after earlier).participant.lockedKeys

lemma LateAreBlocked.front {calls : List Call} {c : Call} (h : LateAreBlocked (calls ++ [c])) :
    LateAreBlocked calls := by
  rintro earlier txnId keys commands later rfl
  exact h earlier txnId keys commands (later ++ [c]) (by simp)

/-! ### Steps -/

/-- A resolved transaction is not pending, and the commands of resolved ones alone were run. -/
structure Settled (h : History) : Prop where
  gone : ∀ t ∈ h.resolved, h.participant.pending.find t = none
  ran : h.ran.Nodup
  sub : ∀ t ∈ h.ran, t ∈ h.resolved

variable {h : History}

lemma prepare_blocked {p : TxnParticipant} {txnId : ℕ} {keys commands : List Bytes}
    (hlocked : ∃ k ∈ keys, k ∈ p.lockedKeys) : (p.prepare txnId keys commands).1 = p := by
  obtain ⟨k, hk, hlock⟩ := hlocked
  rcases TxnParticipant.prepare_cases p txnId keys commands with heq | ⟨-, hfree, -⟩
  · exact heq
  · exact absurd hlock (hfree k hk)

lemma prepare_free {p : TxnParticipant} {txnId : ℕ} {keys commands : List Bytes}
    (hfree : ∀ k ∈ keys, k ∉ p.lockedKeys) :
    ((p.prepare txnId keys commands).1.pending.find txnId).isSome := by
  refine TxnParticipant.prepare_pending ?_
  have hnone : keys.find? (· ∈ p.lockedKeys) = none :=
    List.find?_eq_none.mpr fun k hk => by simpa using hfree k hk
  unfold TxnParticipant.prepare
  rw [hnone]
  split <;> rfl

lemma Settled.call (hs : Settled h) {c : Call}
    (hblocked : ∀ txnId keys commands, c = .prepare txnId keys commands →
      txnId ∈ h.resolved → ∃ k ∈ keys, k ∈ h.participant.lockedKeys) :
        Settled (TxnOnce.call h c) := by
  cases c with
  | prepare txnId keys commands =>
    refine ⟨fun t ht => ?_, hs.ran, hs.sub⟩
    show (h.participant.prepare txnId keys commands).1.pending.find t = none
    by_cases heq : t = txnId
    · subst heq
      rw [prepare_blocked (hblocked t keys commands rfl ht)]
      exact hs.gone t ht
    · rw [TxnParticipant.find_prepare heq]
      exact hs.gone t ht
  | commit txnId =>
    cases hfind : h.participant.pending.find txnId with
    | none =>
      rw [call_commit_none hfind]
      exact hs
    | some pending =>
      rw [call_commit_some hfind]
      have hnew : txnId ∉ h.resolved := by
        intro hin
        rw [hs.gone txnId hin] at hfind
        cases hfind
      refine ⟨fun t ht => ?_, List.nodup_cons.mpr
        ⟨fun hin => hnew (hs.sub _ hin), hs.ran⟩, ?_⟩
      · show (h.participant.resolve txnId pending).pending.find t = none
        rw [TxnParticipant.find_resolve]
        split_ifs with heq
        · rfl
        · exact hs.gone t (Finset.mem_of_mem_insert_of_ne ht heq)
      · intro t ht
        rcases List.mem_cons.mp ht with rfl | hold
        · exact Finset.mem_insert_self _ _
        · exact Finset.mem_insert_of_mem (hs.sub t hold)
  | abort txnId =>
    refine ⟨fun t ht => ?_, hs.ran, fun t ht => Finset.mem_insert_of_mem (hs.sub t ht)⟩
    show (h.participant.abort txnId).1.pending.find t = none
    rw [TxnParticipant.find_abort]
    split_ifs with heq
    · rfl
    · exact hs.gone t (Finset.mem_of_mem_insert_of_ne ht heq)

lemma settled_after {calls : List Call} (hblocked : LateAreBlocked calls) :
    Settled (after calls) := by
  induction calls using List.reverseRecOn with
  | nil => exact ⟨nofun, List.nodup_nil, nofun⟩
  | append_singleton calls c ih =>
    rw [after_concat]
    refine (ih hblocked.front).call ?_
    rintro txnId keys commands rfl hin
    exact hblocked calls txnId keys commands [] rfl hin

/-- A call of a transaction that is not pending, and whose keys are not free, locks nothing. -/
lemma call_locks (hs : Settled h) {c : Call} (hin : c.txnId ∈ h.resolved)
    (hblocked : ∀ txnId keys commands, c = .prepare txnId keys commands →
      ∃ k ∈ keys, k ∈ h.participant.lockedKeys) :
    (call h c).participant.lockedKeys ⊆ h.participant.lockedKeys := by
  have hgone := hs.gone _ hin
  cases c with
  | prepare txnId keys commands =>
    show (h.participant.prepare txnId keys commands).1.lockedKeys ⊆ _
    rw [prepare_blocked (hblocked txnId keys commands rfl)]
  | commit txnId =>
    rw [call_commit_none (show h.participant.pending.find txnId = none from hgone)]
  | abort txnId =>
    change h.participant.pending.find txnId = none at hgone
    show (h.participant.abort txnId).1.lockedKeys ⊆ _
    unfold TxnParticipant.abort
    simp only [hgone, subset_refl]

lemma LateAreBlocked.upTo {earlier later : List Call} {c : Call}
    (h : LateAreBlocked (earlier ++ c :: later)) : LateAreBlocked (earlier ++ [c]) := by
  rintro earlier' txnId keys commands later' heq
  refine h earlier' txnId keys commands (later' ++ later) ?_
  have hall := congrArg (· ++ later) heq
  simpa using hall

/-- **A staged transaction runs at most once** if and only if every PREPARE of a transaction
that is resolved by then names a key that is locked at that moment. -/
theorem once_iff (calls : List Call) : Once calls ↔ LateAreBlocked calls := by
  constructor
  · rintro honce earlier txnId keys commands later heq hin
    by_contra hfree
    push Not at hfree
    have hgone := (honce.forgotten earlier _ later heq hin).1
    have hpending := @prepare_free (after earlier).participant txnId keys commands hfree
    change ((after earlier).participant.prepare txnId keys commands).1.pending.find txnId = none
      at hgone
    rw [hgone] at hpending
    cases hpending
  · intro hblocked
    refine ⟨(settled_after hblocked).ran, ?_⟩
    rintro earlier c later rfl hin
    have hupTo := hblocked.upTo
    have hsettled := settled_after hupTo
    rw [after_concat] at hsettled
    have hlate : ∀ txnId keys commands, c = .prepare txnId keys commands →
        ∃ k ∈ keys, k ∈ (after earlier).participant.lockedKeys := by
      rintro txnId keys commands rfl
      exact hupTo earlier txnId keys commands [] rfl hin
    refine ⟨hsettled.gone _ ?_, call_locks (settled_after hupTo.front) hin hlate⟩
    cases c with
    | prepare txnId keys commands => exact hin
    | commit txnId =>
      cases hfind : (after earlier).participant.pending.find txnId with
      | none =>
        rw [call_commit_none hfind]
        exact hin
      | some pending =>
        rw [call_commit_some hfind]
        exact Finset.mem_insert_of_mem hin
    | abort txnId => exact Finset.mem_insert_self _ _

/-- **A transaction runs twice**: its PREPARE and its COMMIT both come a second time. -/
theorem runs_twice : ¬ ∀ calls : List Call, Once calls := by
  intro hall
  exact absurd (hall [.prepare 1 [[107]] [[99]], .commit 1, .prepare 1 [[107]] [[99]],
    .commit 1]).ran (by decide)

end DistDB.TxnOnce
