import DistDB.MembershipFold
import DistDB.NodeSane

/-!
The errors of applied entries, and the calls of `Propose` that wait for them.

`ApplyCommitted` keeps the error text of an entry until the second compaction behind it, and a
call of `Propose` reads it when it has the mutex again. What `apply_callback_` has returned is
recorded beside the state machine, so that the two can be compared.
-/

namespace DistDB.ApplyErrors

open NodeModel NodeModel.Node NodeCrash CommitRule NodeHandlers FullLog
open NodeInstall (Sys)

variable {σ : Type} {cb : Callbacks σ}

/-- The indices and commands that `apply_callback_` was called with, and what it returned. -/
abbrev Record := List (ℕ × Bytes × Bytes)

/-- The callbacks, with a record of what `apply_callback_` has returned on this node. -/
def recording (cb : Callbacks σ) : Callbacks (σ × Record) where
  apply := fun s i command =>
    let out := cb.apply s.1 i command
    match out.2 with
    | .error e => ((out.1, s.2), .error e)
    | .ok error => ((out.1, s.2 ++ [(i, command, error)]), .ok error)
  snapshot := fun s => cb.snapshot s.1
  restore := fun s data => (cb.restore s.1 data, s.2)

/-- What an entry does to the record and to the errors: nothing, or it is applied. -/
def Recorded (n : Node (σ × Record)) (entry : LogEntry) (record : Record)
    (errors : OrdMap ℕ Bytes) : Prop :=
  (record = n.machine.2 ∧ errors = n.applyErrors) ∨
  ∃ error, record = n.machine.2 ++ [(entry.index, entry.command, error)] ∧
    errors = if error = [] then n.applyErrors else n.applyErrors.insert entry.index error

lemma applyEntry_recorded (n : Node (σ × Record)) (entry : LogEntry) : ∃ machine errors,
    (n.applyEntry (recording cb) entry).1 = { n with machine := machine, applyErrors := errors } ∧
      Recorded n entry machine.2 errors := by
  unfold applyEntry
  cases tryDecodeConfChange entry.command with
  | error e => exact ⟨n.machine, n.applyErrors, rfl, .inl ⟨rfl, rfl⟩⟩
  | ok cc =>
    cases cc with
    | some cc => exact ⟨n.machine, n.applyErrors, rfl, .inl ⟨rfl, rfl⟩⟩
    | none =>
      unfold recording
      dsimp only
      rcases hout : cb.apply n.machine.1 entry.index entry.command with ⟨machine, e | error⟩
      · exact ⟨(machine, n.machine.2), n.applyErrors, rfl, .inl ⟨rfl, rfl⟩⟩
      · exact ⟨_, _, rfl, .inr ⟨error, rfl, rfl⟩⟩

lemma applyNext_recorded (n : Node (σ × Record)) : ∃ machine errors log,
    (n.applyNext (recording cb)).1 = { n with
      lastApplied := n.lastApplied + 1
      machine := machine
      applyErrors := errors
      log := log } ∧
    (log = n.log ∨ log = n.log.setAppliedIndex (n.lastApplied + 1)) ∧
    ((machine.2 = n.machine.2 ∧ errors = n.applyErrors) ∨
      ∃ entry, n.log.get (n.lastApplied + 1) = some entry ∧
        Recorded n entry machine.2 errors) := by
  unfold applyNext
  dsimp only
  cases hget : n.log.get (n.lastApplied + 1) with
  | none => exact ⟨n.machine, n.applyErrors, _, rfl, .inr rfl, .inl ⟨rfl, rfl⟩⟩
  | some entry =>
    obtain ⟨machine, errors, heq, hrecorded⟩ :=
      @applyEntry_recorded σ cb { n with lastApplied := n.lastApplied + 1 } entry
    dsimp only
    generalize applyEntry (recording cb) { n with lastApplied := n.lastApplied + 1 } entry = x
      at heq ⊢
    obtain ⟨m, e | u⟩ := x
    · cases heq
      exact ⟨machine, errors, _, rfl, .inl rfl, .inr ⟨entry, rfl, hrecorded⟩⟩
    · cases heq
      exact ⟨machine, errors, _, rfl, .inr rfl, .inr ⟨entry, rfl, hrecorded⟩⟩

/-- No error that is noted, and no call of `apply_callback_`, is about an entry that has not been
applied. -/
structure Booked (l : List LogEntry) (n : Node (σ × Record)) : Prop extends Sane l n where
  errors : ∀ i error, n.applyErrors.find i = some error → i ≤ n.lastApplied
  record : ∀ r ∈ n.machine.2, r.1 ≤ n.lastApplied

variable {l : List LogEntry} {n n' m : Node (σ × Record)}

lemma index_of_get {log : RaftLog} (h : Holds log l) {i : ℕ} {e : LogEntry}
    (hget : log.get i = some e) : log.snapshotIndex < i ∧ l[i - 1]? = some e ∧ e.index = i := by
  have hlt : log.snapshotIndex < i := by
    by_contra hle
    rw [Holds.get_of_le (by omega)] at hget
    cases hget
  rw [h.get hlt] at hget
  have hindex := h.indexed _ _ hget
  exact ⟨hlt, hget, by omega⟩

namespace Booked

lemma quiet (h : Booked l n) (hquiet : Quiet n n') : Booked l n' where
  toSane := h.toSane.quiet hquiet
  errors := by rw [hquiet.applyErrors, hquiet.lastApplied]; exact h.errors
  record := by rw [hquiet.machine, hquiet.lastApplied]; exact h.record

lemma applyNext (h : Booked l n) (hlt : n.lastApplied < n.commitIndex) :
    Booked l (n.applyNext (recording cb)).1 := by
  have hsane := @Sane.applyNext _ (recording cb) l n h.toSane hlt
  obtain ⟨machine, errors, log, heq, -, hbooked⟩ := @applyNext_recorded σ cb n
  have hold : (∀ i error, n.applyErrors.find i = some error → i ≤ n.lastApplied + 1) ∧
      ∀ r ∈ n.machine.2, r.1 ≤ n.lastApplied + 1 :=
    ⟨fun i error hi => (h.errors i error hi).trans (Nat.le_succ _),
      fun r hr => (h.record r hr).trans (Nat.le_succ _)⟩
  have hnew : (∀ i error, errors.find i = some error → i ≤ n.lastApplied + 1) ∧
      ∀ r ∈ machine.2, r.1 ≤ n.lastApplied + 1 := by
    rcases hbooked with ⟨hrecord, herrors⟩ |
      ⟨entry, hget, ⟨hrecord, herrors⟩ | ⟨error, hrecord, herrors⟩⟩
    · rw [hrecord, herrors]
      exact hold
    · rw [hrecord, herrors]
      exact hold
    · obtain ⟨-, -, hindex⟩ := index_of_get h.holds hget
      rw [hrecord, herrors]
      constructor
      · intro i error' hi
        split_ifs at hi with hempty
        · exact hold.1 i error' hi
        · rw [OrdMap.find_insert] at hi
          split_ifs at hi with hsame
          · omega
          · exact hold.1 i error' hi
      · intro r hr
        rcases List.mem_append.mp hr with hr | hr
        · exact hold.2 r hr
        · rw [List.mem_singleton.mp hr]
          exact hindex.le
  rw [heq] at hsane ⊢
  exact ⟨hsane, hnew.1, hnew.2⟩

lemma compact (h : Booked l n) : Booked l n.compact.1 := by
  have hsane := h.toSane.compact
  unfold Node.compact at hsane ⊢
  dsimp only at hsane ⊢
  cases hchanges : confChanges n.log n.log.snapshotIndex n.lastApplied with
  | error e => exact h
  | ok changes =>
    rw [hchanges] at hsane
    refine ⟨hsane, fun i error hi => ?_, h.record⟩
    dsimp only at hi
    rw [OrdMap.find_filterMap] at hi
    obtain ⟨error', hold, -⟩ := Option.bind_eq_some_iff.mp hi
    exact h.errors i error' hold

lemma applyCommitted (h : Booked l n) : Booked l (n.applyCommitted (recording cb)).1 := by
  refine applyCommitted_induct (P := fun m => Booked l m ∧ m.commitIndex = n.commitIndex)
    (Q := Booked l) ⟨h, rfl⟩ ?_ (fun m hm => hm.1) fun m hm => hm.1.compact
  rintro m ⟨hm, hcommit⟩ hlt
  refine ⟨hm.applyNext (by omega), ?_⟩
  obtain ⟨errors, log, heq, -⟩ := @applyNext_eq _ (recording cb) m
  rw [heq]
  exact hcommit

lemma commit (h : Booked l n) {i : ℕ} (hlo : n.commitIndex ≤ i) (hhi : i ≤ l.length) :
    Booked l ((n.withCommitIndex i).applyCommitted (recording cb)).1 :=
  applyCommitted ⟨h.toSane.withCommitIndex hlo hhi, h.errors, h.record⟩

lemma appended (h : Booked l n) (command : Bytes) :
    Booked (l ++ [⟨l.length + 1, n.state.currentTerm, command⟩])
      (n.withLog (n.log.append n.state.currentTerm command).1).refreshMembership.1 :=
  quiet ⟨h.toSane.logged command, h.errors, h.record⟩ (.refresh _)

end Booked

/-! ### A call that waits -/

/-- While a call of `Propose` waits for the entry at `index`: it is in the log as long as it has
not been applied, and the error that the call would return is what `apply_callback_` has
returned for it. -/
structure Waits (index : ℕ) (command : Bytes) (n : Node (σ × Record)) : Prop where
  snap : n.log.snapshotIndex < index ∨ n.log.snapshotIndex ≤ n.lastApplied
  entry : n.lastApplied < index → ∃ term, n.log.get index = some ⟨index, term, command⟩
  exact : n.proposeError index ≠ [] ↔
    ∃ error, error ≠ [] ∧ (index, command, error) ∈ n.machine.2

/-- `ApplyCommitted`, called on this node, does not compact away the error of the entry. -/
def SparesAt (index : ℕ) (m : Node (σ × Record)) : Prop :=
  m.commitIndex < m.log.snapshotIndex + kCompactionThreshold ∨
    m.log.snapshotIndex < index ∨ m.applyErrors.find index = none

variable {index : ℕ} {command : Bytes}

namespace Waits

lemma quiet (h : Waits index command n) (hquiet : Quiet n n') : Waits index command n' where
  snap := by rw [hquiet.log, hquiet.lastApplied]; exact h.snap
  entry := by rw [hquiet.log, hquiet.lastApplied]; exact h.entry
  exact := by
    unfold proposeError
    rw [hquiet.applyErrors, hquiet.machine]
    exact h.exact

/-- One pass of the loop: the error of the entry is noted when it is applied, and errors of
other entries are noted elsewhere. -/
lemma applyNext (hb : Booked l n) (h : Waits index command n) :
    Waits index command (n.applyNext (recording cb)).1 ∧
      (n.applyNext (recording cb)).1.log.snapshotIndex = n.log.snapshotIndex ∧
      (index ≤ n.lastApplied →
        (n.applyNext (recording cb)).1.applyErrors.find index = n.applyErrors.find index) := by
  obtain ⟨machine, errors, log, heq, hlog, hbooked⟩ := @applyNext_recorded σ cb n
  have hsame : log.snapshotIndex = n.log.snapshotIndex ∧ ∀ i, log.get i = n.log.get i := by
    rcases hlog with rfl | rfl
    · exact ⟨rfl, fun _ => rfl⟩
    · exact ⟨rfl, fun _ => rfl⟩
  have hexact := h.exact
  have hkept : ((errors.find index).getD [] ≠ [] ↔
      ∃ error, error ≠ [] ∧ (index, command, error) ∈ machine.2) ∧
      (index ≤ n.lastApplied → errors.find index = n.applyErrors.find index) := by
    rcases hbooked with ⟨hrecord, herrors⟩ |
      ⟨entry, hget, ⟨hrecord, herrors⟩ | ⟨error, hrecord, herrors⟩⟩
    · rw [hrecord, herrors]
      exact ⟨hexact, fun _ => rfl⟩
    · rw [hrecord, herrors]
      exact ⟨hexact, fun _ => rfl⟩
    obtain ⟨-, -, hindex⟩ := index_of_get hb.holds hget
    rw [hrecord, herrors]
    by_cases hhere : index = n.lastApplied + 1
    · -- the entry itself: nothing has been noted of it yet
      obtain ⟨term, hentry⟩ := h.entry (by omega)
      rw [hhere, hget] at hentry
      cases hentry
      have hnone : ∀ error', (index, command, error') ∉ n.machine.2 := fun error' hmem => by
        have hle : index ≤ n.lastApplied := hb.record _ hmem
        omega
      have hfresh : n.applyErrors.find index = none := by
        cases hfind : n.applyErrors.find index with
        | none => rfl
        | some error' =>
          have hle := hb.errors _ _ hfind
          omega
      refine ⟨?_, fun hle => by omega⟩
      by_cases hempty : error = []
      · rw [if_pos hempty, hfresh]
        refine ⟨fun hne => absurd rfl hne, ?_⟩
        rintro ⟨error', hne, hmem⟩
        rcases List.mem_append.mp hmem with hmem | hmem
        · exact absurd hmem (hnone error')
        · have hlast := List.mem_singleton.mp hmem
          simp only [Prod.mk.injEq] at hlast
          exact absurd (hlast.2.2.trans hempty) hne
      · rw [if_neg hempty, hhere, OrdMap.find_insert_self]
        refine ⟨fun _ => ⟨error, hempty, ?_⟩, fun _ => hempty⟩
        exact List.mem_append_right _ (List.mem_singleton.mpr rfl)
    · have hother : (if error = [] then n.applyErrors else
          n.applyErrors.insert entry.index error).find index = n.applyErrors.find index := by
        split_ifs
        · rfl
        · rw [OrdMap.find_insert, if_neg (by omega)]
      rw [hother]
      refine ⟨hexact.trans (exists_congr fun error' => and_congr_right fun _ => ?_),
        fun _ => rfl⟩
      rw [List.mem_append, List.mem_singleton, Prod.mk.injEq]
      refine ⟨.inl, fun hmem => hmem.resolve_right ?_⟩
      rintro ⟨hsame, -⟩
      omega
  rw [heq]
  refine ⟨⟨?_, fun hlt => ?_, hkept.1⟩, hsame.1, hkept.2⟩
  · show log.snapshotIndex < index ∨ log.snapshotIndex ≤ n.lastApplied + 1
    rw [hsame.1]
    exact h.snap.imp_right fun hle => hle.trans (Nat.le_succ _)
  · show ∃ term, log.get index = _
    rw [hsame.2]
    have hlt : n.lastApplied + 1 < index := hlt
    exact h.entry (by omega)

lemma compact (h : Waits index command n)
    (hspares : n.log.snapshotIndex < index ∨ n.applyErrors.find index = none) :
    Waits index command n.compact.1 := by
  unfold Node.compact
  dsimp only
  cases confChanges n.log n.log.snapshotIndex n.lastApplied with
  | error e => exact h
  | ok changes =>
    have hsnap := n.log.snapshotIndex_compactTo n.lastApplied (n.log.termAt n.lastApplied)
    refine ⟨?_, fun hlt => ?_, ?_⟩
    · have hold := h.snap
      dsimp only
      omega
    · obtain ⟨term, hget⟩ := h.entry hlt
      refine ⟨term, ?_⟩
      dsimp only
      rcases Nat.lt_or_ge n.log.snapshotIndex n.lastApplied with hahead | hbehind
      · rw [MembershipFold.get_compactTo hahead hlt, hget]
      · rw [Holds.compactTo_of_le hbehind, hget]
    · have hexact := h.exact
      unfold proposeError at hexact ⊢
      dsimp only
      rw [OrdMap.find_filterMap]
      rcases hspares with hlt | hnone
      · simp only [if_neg (Nat.not_le.mpr hlt)]
        simpa using hexact
      · rw [hnone] at hexact ⊢
        exact hexact

/-- **What ApplyCommitted leaves of the error**: all of it, unless it compacts once more behind
the entry. -/
theorem applyCommitted (hb : Booked l m) (h : Waits index command m) (hspares : SparesAt index m) :
    Waits index command (m.applyCommitted (recording cb)).1 := by
  have hloop : (Booked l (m.applyLoop (recording cb) (m.commitIndex - m.lastApplied)).1 ∧
      Waits index command (m.applyLoop (recording cb) (m.commitIndex - m.lastApplied)).1 ∧
      (m.applyLoop (recording cb) (m.commitIndex - m.lastApplied)).1.commitIndex =
        m.commitIndex) ∧
      (m.applyLoop (recording cb) (m.commitIndex - m.lastApplied)).1.log.snapshotIndex =
        m.log.snapshotIndex ∧
      m.lastApplied ≤ (m.applyLoop (recording cb)
        (m.commitIndex - m.lastApplied)).1.lastApplied ∧
      (index ≤ m.lastApplied →
        (m.applyLoop (recording cb) (m.commitIndex - m.lastApplied)).1.applyErrors.find index =
          m.applyErrors.find index) := by
    have hle := hb.last_le
    refine applyLoop_induct (P := fun x => (Booked l x ∧ Waits index command x ∧
        x.commitIndex = m.commitIndex) ∧ x.log.snapshotIndex = m.log.snapshotIndex ∧
        m.lastApplied ≤ x.lastApplied ∧
        (index ≤ m.lastApplied → x.applyErrors.find index = m.applyErrors.find index))
      ⟨⟨hb, h, rfl⟩, rfl, le_rfl, fun _ => rfl⟩ ?_
    rintro x ⟨⟨hbx, hx, hcommit⟩, hsnap, hlast, herrors⟩ - hlt
    obtain ⟨hx', hsnap', herrors'⟩ := @applyNext σ cb l x index command hbx hx
    obtain ⟨_, _, heq, -⟩ := @applyNext_eq _ (recording cb) x
    refine ⟨⟨hbx.applyNext (by omega), hx', ?_⟩, hsnap'.trans hsnap, ?_, fun hin => ?_⟩
    · rw [heq]
      exact hcommit
    · rw [heq]
      exact hlast.trans (Nat.le_succ _)
    · exact (herrors' (hin.trans hlast)).trans (herrors hin)
  unfold Node.applyCommitted Outcome.andThen
  generalize m.applyLoop (recording cb) (m.commitIndex - m.lastApplied) = x at hloop ⊢
  obtain ⟨⟨hbx, hx, hcommit⟩, hsnap, hlast, herrors⟩ := hloop
  cases x.2 with
  | error e => exact hx
  | ok u =>
    dsimp only
    split
    · rename_i hgap
      refine hx.compact ?_
      rw [hsnap]
      by_cases hbehind : m.log.snapshotIndex < index
      · exact .inl hbehind
      · have hsnap' := h.snap
        have happlied := hbx.last_le
        rcases hspares with hsmall | hin | hnone
        · -- the log is too short for a compaction
          unfold appliedGap at hgap
          rw [if_pos (by omega)] at hgap
          omega
        · exact absurd hin hbehind
        · exact .inr ((herrors (by omega)).trans hnone)
    · exact hx

lemma appended (hb : Booked l n) (h : Waits index command n) (other : Bytes) :
    Waits index command
      (n.withLog (n.log.append n.state.currentTerm other).1).refreshMembership.1 := by
  refine quiet (n := n.withLog (n.log.append n.state.currentTerm other).1) ?_ (.refresh _)
  refine ⟨h.snap, fun hlt => ?_, h.exact⟩
  obtain ⟨term, hget⟩ := h.entry hlt
  obtain ⟨hsnap, hat, -⟩ := index_of_get hb.holds hget
  refine ⟨term, ?_⟩
  have hholds := hb.holds.append n.state.currentTerm other
  show (n.log.append n.state.currentTerm other).1.get index = _
  rw [hholds.get hsnap, List.getElem?_append_left (List.getElem?_eq_some_iff.mp hat).1, hat]

lemma proposed (hb : Booked l n) : Waits (l.length + 1) command
    (n.withLog (n.log.append n.state.currentTerm command).1).refreshMembership.1 := by
  refine quiet (n := n.withLog (n.log.append n.state.currentTerm command).1) ?_ (.refresh _)
  have hsnap := hb.holds.snapshot_le
  have hlast := hb.last_le.trans hb.commit_le
  refine ⟨.inl (Nat.lt_succ_of_le hsnap), fun _ => ⟨n.state.currentTerm, ?_⟩, ?_⟩
  · have hholds := hb.holds.append n.state.currentTerm command
    show (n.log.append n.state.currentTerm command).1.get (l.length + 1) = _
    rw [hholds.get (Nat.lt_succ_of_le hsnap)]
    simp
  · have hnone : n.applyErrors.find (l.length + 1) = none := by
      cases hfind : n.applyErrors.find (l.length + 1) with
      | none => rfl
      | some error =>
        have hle := hb.errors _ _ hfind
        omega
    unfold proposeError
    rw [withLog_applyErrors, hnone]
    refine ⟨fun hne => absurd rfl hne, ?_⟩
    rintro ⟨error, -, hmem⟩
    have hle : l.length + 1 ≤ n.lastApplied := hb.record _ hmem
    omega

end Waits

/-! ### Runs -/

/-- The steps of the node while its process lives. -/
abbrev Step (cb : Callbacks σ) := StepOf? (handle cb)

/-- The requests come from leaders that hold what this node has committed; and a snapshot is
one of the log of a node that leads. -/
def Promised {τ : Type} (s : Sys τ) : Event → Prop
  | .append _ req => CutsNothing s.node req
  | .adopt => ∀ req, s.install = .restored req →
      s.node.log.snapshotIndex < req.lastIncludedIndex →
      (req.lastIncludedIndex ≤ s.node.commitIndex ∨
        (s.node.role = .kLeader ∧ req.lastIncludedIndex ≤ s.node.log.lastIndex)) →
        s.node.log.termAt req.lastIncludedIndex = req.lastIncludedTerm
  | _ => True

/-- No `ApplyCommitted` of this step compacts the error of the entry away. -/
def Spares (index : ℕ) (s : Sys (σ × Record)) (e : Event) : Prop :=
  ∀ m, applies s e = some m → SparesAt index m

variable {s s' : Sys (σ × Record)} {e : Event}

lemma Booked.step (h : Booked l s.node) (hpromised : Promised s e)
    (hstep : handle (recording cb) s e = some s') : ∃ l', Booked l' s'.node := by
  have hhandled := handled h.term hstep
  generalize s'.node = n at hhandled
  cases hhandled with
  | quiet hquiet => exact ⟨l, h.quiet hquiet⟩
  | append hterm hlog hsettles =>
    rename_i now req log
    obtain ⟨l', hholds, hcommit⟩ := h.taken hpromised hterm hlog
    rw [hholds.lastIndex] at hsettles
    have hheard := h.quiet (.heardFrom s.node now req.term req.leaderId)
    have htaken : Booked l' ((s.node.heardFrom now req.term req.leaderId).withLog log) :=
      ⟨hheard.toSane.withLog hholds (by simpa using hcommit), hheard.errors, hheard.record⟩
    refine ⟨l', hsettles.keeps htaken fun a b ha hmove => ?_⟩
    cases hmove with
    | refresh => exact ha.quiet (.refresh a)
    | commit i hi =>
      obtain ⟨hlt, rfl⟩ := hi
      have hle := ha.commit_le
      exact ha.commit (le_min hlt.le hle) (min_le_right _ _)
    | note => exact ⟨⟨ha.holds, ha.last_le, ha.commit_le, ha.term⟩, ha.errors, ha.record⟩
    | stepDown =>
      exact ⟨⟨ha.holds, ha.last_le, ha.commit_le, fun hne => absurd rfl hne⟩,
        ha.errors, ha.record⟩
  | advance hadv =>
    rename_i m
    obtain ⟨⟨-, hrole, -⟩, hm⟩ := advances_cases hadv
    obtain ⟨l', hbm⟩ : ∃ l', Booked l' m := by
      rcases hm with ⟨hquiet, -⟩ | ⟨command, -, -, rfl⟩
      · exact ⟨l, h.quiet hquiet⟩
      · exact ⟨_, h.appended command⟩
    refine ⟨l', ?_⟩
    rcases @maybeAdvance_cases _ (recording cb) m with
      ⟨-, heq⟩ | ⟨m', -, rfl, hlt, hterm, heq | heq⟩
    · rw [heq]
      exact hbm
    · rw [heq]
      exact hbm.commit hlt.le (hbm.majorityIndex_le hrole hterm)
    · rw [heq]
      exact (hbm.commit hlt.le (hbm.majorityIndex_le hrole hterm)).quiet (.stepDownIfRemoved _)
  | thrown => exact ⟨_, h.appended _⟩
  | restore req => exact ⟨l, ⟨h.holds, h.last_le, h.commit_le, h.term⟩, h.errors, h.record⟩
  | adopt hinstall hlt =>
    rename_i req
    obtain ⟨l', hsane⟩ := h.adopted hlt fun hle => hpromised req hinstall hlt (.inl hle)
    refine ⟨l', Booked.quiet (n := s.node.adopted req) ⟨hsane, fun i error hi => ?_,
      fun r hr => ?_⟩ (.refresh _)⟩
    · exact (h.errors i error hi).trans (le_max_right _ _)
    · exact (h.record r hr).trans (le_max_right _ _)

lemma Waits.advance (h : Waits index command m) (hb : Booked l m) (hrole : m.role = .kLeader)
    (hspares : ∀ m', m.advanceApplies = some m' → SparesAt index m') :
    Waits index command (m.maybeAdvanceCommitIndex (recording cb)).1 := by
  rcases @maybeAdvance_cases _ (recording cb) m with
    ⟨-, heq⟩ | ⟨m', hm', rfl, hlt, hterm, heq⟩
  · rw [heq]
    exact h
  · have hbm : Booked l (m.withCommitIndex m.majorityIndex) :=
      ⟨hb.toSane.withCommitIndex hlt.le (hb.majorityIndex_le hrole hterm), hb.errors, hb.record⟩
    have hwaits : Waits index command (m.withCommitIndex m.majorityIndex) :=
      ⟨h.snap, h.entry, h.exact⟩
    have happlied := @Waits.applyCommitted σ cb l _ _ _ hbm hwaits (hspares _ hm')
    rcases heq with heq | heq
    · rw [heq]
      exact happlied
    · rw [heq]
      exact happlied.quiet (.stepDownIfRemoved _)

lemma Waits.step (hb : Booked l s.node) (h : Waits index command s.node) (hpromised : Promised s e)
    (hspares : Spares index s e) (hleads : s.node.role = .kLeader)
    (hstep : handle (recording cb) s e = some s') (hstays : s'.node.role = .kLeader) :
    Waits index command s'.node := by
  have hhandled := handled hb.term hstep
  generalize s'.node = n at hhandled hstays
  cases hhandled with
  | quiet hquiet => exact h.quiet hquiet
  | append hterm hlog hsettles =>
    rename_i now req log
    -- a node that takes entries follows
    have hfollows : n.role = .kFollower := by
      rcases settles_role hsettles with hrole | hrole
      · exact hrole.trans (heardFrom_role s.node now req.term req.leaderId)
      · exact hrole
    rw [hfollows] at hstays
    cases hstays
  | advance hadv =>
    rename_i m
    obtain ⟨⟨-, hrole, -⟩, hm⟩ := advances_cases hadv
    obtain ⟨l', hbm, hwaits⟩ : ∃ l', Booked l' m ∧ Waits index command m := by
      rcases hm with ⟨hquiet, -⟩ | ⟨other, -, -, rfl⟩
      · exact ⟨l, hb.quiet hquiet, h.quiet hquiet⟩
      · exact ⟨_, hb.appended other, h.appended hb other⟩
    exact hwaits.advance hbm hrole (fun m' hm' => hspares m' ((applies_of_advances hadv).trans hm'))
  | thrown => exact h.appended hb _
  | restore req => exact ⟨h.snap, h.entry, h.exact⟩
  | adopt hinstall hlt =>
    rename_i req
    refine Waits.quiet (n := s.node.adopted req)
      ⟨.inr ?_, fun hbefore => ?_, h.exact⟩ (.refresh _)
    · have hle := @RaftLog.snapshotIndex_compactTo_le s.node.log _ req.lastIncludedTerm _
        (hlt.le.trans (le_max_left _ s.node.lastApplied)) (le_max_left _ _)
      rw [adopted_log]
      split
      · exact hle
      · exact hle
    · have hbefore : max req.lastIncludedIndex s.node.lastApplied < index := hbefore
      obtain ⟨term, hget⟩ := h.entry (by omega)
      have hin : index ≤ s.node.log.lastIndex := by
        by_contra hpast
        rw [MembershipFold.get_past (by omega)] at hget
        cases hget
      have hagree := hpromised req hinstall hlt (.inr ⟨hleads, by omega⟩)
      have hkept := @MembershipFold.get_compactTo s.node.log _ index hlt (by omega)
      rw [hagree] at hkept
      refine ⟨term, ?_⟩
      rw [adopted_log, ← hget, ← hkept]
      split
      · rfl
      · rfl

lemma advances_of_appended (h : (s.node.propose (recording cb) command).2 = .ok (.appended index)) :
    (∃ m, advances s (.propose command) = some m) ∧ index = s.node.log.lastIndex + 1 := by
  rcases @propose_cases _ (recording cb) s.node command with ⟨-, -, hnever⟩ |
    ⟨-, hrefusal, -, -, -, hindex⟩
  · exact absurd h (hnever index)
  · have hsame := hindex _ h
    simp only [Proposal.appended.injEq] at hsame
    refine ⟨?_, hsame⟩
    simp only [advances, proposeAdvances, hrefusal]
    unfold propose at h
    rw [hrefusal] at h
    dsimp only at h
    generalize (s.node.withLog
      (s.node.log.append s.node.state.currentTerm command).1).refreshMembership = x at h ⊢
    obtain ⟨m, e | u⟩ := x
    · cases h
    · exact ⟨m, rfl⟩

lemma advances_propose {m : Node (σ × Record)} (h : advances s (.propose command) = some m) :
    m = (s.node.withLog
      (s.node.log.append s.node.state.currentTerm command).1).refreshMembership.1 := by
  simp only [advances, proposeAdvances] at h
  split at h
  · obtain ⟨-, -, rfl⟩ := Option.map_eq_some_iff.mp h
    rfl
  · cases h

/-- When the first critical section of `Propose` is over, the call waits: a compaction in there
is in front of the entry. -/
lemma Booked.waits (hb : Booked l s.node)
    (h : (s.node.propose (recording cb) command).2 = .ok (.appended index)) :
    Waits index command (s.node.propose (recording cb) command).1 := by
  obtain ⟨⟨m, hadv⟩, hindex⟩ := advances_of_appended h
  obtain ⟨⟨-, hrole, -⟩, -⟩ := advances_cases hadv
  have hm := advances_propose hadv
  have hnode : (s.node.propose (recording cb) command).1 =
      (m.maybeAdvanceCommitIndex (recording cb)).1 :=
    Option.some.inj (congrArg (Option.map Sys.node) (handle_of_advances hadv))
  rw [hb.holds.lastIndex] at hindex
  have hproposed : Waits index command m := by
    rw [hm, hindex]
    exact .proposed hb
  have hbm := hb.appended command
  rw [← hm] at hbm
  rw [hnode]
  refine hproposed.advance hbm hrole fun m' hm' => .inr (.inl ?_)
  unfold advanceApplies at hm'
  split_ifs at hm'
  cases hm'
  show m.log.snapshotIndex < index
  have hsame : m.log.snapshotIndex = s.node.log.snapshotIndex := by
    rw [hm, refreshMembership_log]
    rfl
  have hsnap := hb.holds.snapshot_le
  omega

/-- **An apply error reaches its client**: a process starts from its files and takes a proposal.
As long as the node leads, and no `ApplyCommitted` compacts once more behind the entry, the
error that the waiting call of `Propose` would return is non-empty exactly when
`apply_callback_` has returned a non-empty error for the entry on this node. -/
theorem error_reaches_client {id : NodeId} {state : PersistentState} {log : RaftLog}
    {members : MembershipState} {start : σ} (hlog : Holds log l)
    (happlied : log.appliedIndex ≤ l.length)
    (hrun : Reach (Step (recording cb)) Promised
      ⟨construct id state log members (start, []), .none⟩ s)
    (hpropose : (s.node.propose (recording cb) command).2 = .ok (.appended index))
    (hwait : Reach (Step (recording cb))
      (fun s e => (Promised s e ∧ s.node.role = .kLeader) ∧ Spares index s e)
      ⟨(s.node.propose (recording cb) command).1, s.install⟩ s')
    (hstays : s'.node.role = .kLeader) :
    s'.node.proposeError index ≠ [] ↔
      ∃ error, error ≠ [] ∧ (index, command, error) ∈ s'.node.machine.2 := by
  obtain ⟨l₀, hb⟩ : ∃ l, Booked l s.node := by
    refine hrun.invariant (I := fun s => ∃ l, Booked l s.node) ⟨l, ?_⟩ ?_
    · refine ⟨⟨hlog, le_rfl, happlied, fun hne => absurd rfl hne⟩,
        fun i error hi => ?_, nofun⟩
      cases hi
    · rintro s e s' ⟨l, hl⟩ hok hstep
      exact hl.step hok hstep
  have hfirst : ∃ l, Booked l (s.node.propose (recording cb) command).1 :=
    @Booked.step σ cb l₀ s ⟨(s.node.propose (recording cb) command).1, s.install⟩
      (.propose command) hb trivial rfl
  have hinv : (∃ l, Booked l s'.node) ∧
      (s'.node.role = .kLeader → Waits index command s'.node) := by
    refine hwait.invariant (I := fun s => (∃ l, Booked l s.node) ∧
      (s.node.role = .kLeader → Waits index command s.node))
      ⟨hfirst, fun _ => hb.waits hpropose⟩ ?_
    rintro s e s' ⟨⟨l, hl⟩, hs⟩ ⟨⟨hok, hleads⟩, hspares⟩ hstep
    exact ⟨hl.step hok hstep, fun hstays =>
      (hs hleads).step hl hok hspares hleads hstep hstays⟩
  exact (hinv.2 hstays).exact

instance (index : ℕ) (m : Node (σ × Record)) : Decidable (SparesAt index m) :=
  inferInstanceAs (Decidable (_ ∨ _ ∨ _))

instance (index : ℕ) (s : Sys (σ × Record)) (e : Event) : Decidable (Spares index s e) :=
  match h : applies s e with
  | none => isTrue fun m hm => by rw [h] at hm; cases hm
  | some m => decidable_of_iff (SparesAt index m)
      ⟨fun hm m' hm' => by rw [h] at hm'; cases hm'; exact hm, fun hs => hs m h⟩

/-- A state machine that rejects one command. -/
def rejects : Callbacks Unit where
  apply := fun s _ command => (s, .ok (if command = [7] then [78, 79] else []))
  snapshot := fun _ => []
  restore := fun s _ => s

/-- An event that is promised anywhere. -/
def Local : Event → Prop
  | .append _ _ | .adopt => False
  | _ => True

instance : DecidablePred Local
  | .append _ _ | .adopt => isFalse id
  | .vote _ _ | .elect | .voteReply _ _ | .replicate _ | .replicationLost _ => isTrue trivial
  | .appendReply _ _ _ _ _ | .propose _ | .send _ _ | .snapshotReply _ _ _ _ => isTrue trivial
  | .check _ _ | .restore => isTrue trivial

lemma promised_of_local {τ : Type} {s : Sys τ} (h : Local e) : Promised s e := by
  cases e with
  | append => exact h.elim
  | adopt => exact h.elim
  | _ => trivial

/-- A node without peers, from its first run on. -/
def single : Sys (Unit × Record) :=
  ⟨construct 1 ⟨0, none⟩ .empty ⟨.empty, true, ⟨[], 0⟩⟩ ((), []), .none⟩

/-- It leads, and is asked to propose the command that is rejected. -/
def leads : Sys (Unit × Record) := ⟨single.node.startElection.1, .none⟩

lemma reach_leads : Reach (Step (recording rejects)) Promised single leads :=
  .tail .refl (e := .elect) trivial rfl

/-- The entry has just been applied. -/
def waits : Sys (Unit × Record) :=
  ⟨(leads.node.propose (recording rejects) [7]).1, leads.install⟩

/-- With one more proposal behind it, the call still learns the error. -/
theorem error_reaches_client_one : ∃ s : Sys (Unit × Record), s.node.commitIndex = 2 ∧
    s.node.proposeError 1 ≠ [] := by
  obtain ⟨s, hs, hrole, hcommit, hrecord⟩ := exists_of_any (P := fun s : Sys (Unit × Record) =>
      s.node.role = .kLeader ∧ s.node.commitIndex = 2 ∧
        (1, [7], [78, 79]) ∈ s.node.machine.2)
    (x := runIf? (handle (recording rejects))
      (fun s e => (Local e ∧ s.node.role = .kLeader) ∧ Spares 1 s e) waits [.propose [8]])
    (by decide +kernel)
  have hwait := (reach_runIf? hs).mono fun s e h =>
    (⟨⟨promised_of_local h.1.1, h.1.2⟩, h.2⟩ : (Promised s e ∧ _) ∧ _)
  exact ⟨s, hcommit,
    (error_reaches_client Holds.empty le_rfl reach_leads (by decide +kernel) hwait hrole).mpr
    ⟨_, by decide, hrecord⟩⟩

/-- **An error that does not reach its client**: nine more proposals make the node compact
twice before the call has the mutex again, and the second compaction drops the error. The call
returns true without one. -/
theorem error_compacted : ¬ ∀ (s s' : Sys (Unit × Record)) (command : Bytes) (index : ℕ),
    Reach (Step (recording rejects)) Promised single s →
    (s.node.propose (recording rejects) command).2 = .ok (.appended index) →
    Reach (Step (recording rejects)) (fun s e => Promised s e ∧ s.node.role = .kLeader)
      ⟨(s.node.propose (recording rejects) command).1, s.install⟩ s' →
    s'.node.role = .kLeader → s'.node.proposeResult index = true →
      (s'.node.proposeError index ≠ [] ↔
        ∃ error, error ≠ [] ∧ (index, command, error) ∈ s'.node.machine.2) := by
  intro hall
  obtain ⟨s, hs, hrole, htrue, hnone, hrecord⟩ := exists_of_any
    (P := fun s : Sys (Unit × Record) => s.node.role = .kLeader ∧
      s.node.proposeResult 1 = true ∧ s.node.proposeError 1 = [] ∧
        (1, [7], [78, 79]) ∈ s.node.machine.2)
    (x := runIf? (handle (recording rejects)) (fun s e => Local e ∧ s.node.role = .kLeader)
      waits (List.replicate 9 (.propose [8]))) (by decide +kernel)
  have hwait := (reach_runIf? hs).mono fun s e h =>
    (⟨promised_of_local h.1, h.2⟩ : Promised s e ∧ s.node.role = .kLeader)
  exact (hall leads s [7] 1 reach_leads (by decide +kernel) hwait hrole htrue).mpr
    ⟨_, by decide, hrecord⟩ hnone

end DistDB.ApplyErrors
