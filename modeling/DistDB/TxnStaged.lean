import Mathlib.Data.List.Perm.Subperm
import DistDB.SqlAtomic
import DistDB.TxnModel

/-!
What a shard has run, and what it has been told to stage. Each statement of a command runs once at
most: a plain statement when it is applied, a staged one at the COMMIT that unstages its batch
(`applyCommands_runs`). A batch that is staged has been voted for (`voted_of_pending`).
-/

namespace DistDB.TxnStaged

open SqlParser SqlExecutor SqlAtomic TxnModel Checks Bytes

variable {s s' : Shard} {command error : Bytes}

/-- The statements that a command runs, or stages. -/
def statements (command : Bytes) : List Bytes :=
  match tryDecodeTxnControl command with
  | .ok (some control) =>
    if control.type = kPrepare then control.commands
    else if control.type = kCommit ∨ control.type = kAbort then []
    else [command]
  | _ => [command]

/-- What is applied, by the kind of the command. -/
inductive Applied (s : Shard) (command : Bytes) : Shard × Bytes → Prop
  | sql : statements command = [command] → Applied s command (applySql s command)
  | refused {txnId keys commands} :
      tryDecodeTxnControl command = .ok (some ⟨kPrepare, txnId, keys, commands⟩) →
      findStagedDuplicateKey s.store commands ≠ [] →
      Applied s command (s, findStagedDuplicateKey s.store commands)
  | prepare {txnId keys commands} :
      tryDecodeTxnControl command = .ok (some ⟨kPrepare, txnId, keys, commands⟩) →
      findStagedDuplicateKey s.store commands = [] →
      Applied s command ({ s with participant := (s.participant.prepare txnId keys commands).1 },
        (s.participant.prepare txnId keys commands).2)
  | commit (txnId) : Applied s command (commit s txnId)
  | abort (txnId) : Applied s command ({ s with participant := (s.participant.abort txnId).1 },
      (s.participant.abort txnId).2)

lemma applied_of_eq {out : Shard × Bytes} (h : applyCallback s command = .ok out) :
    Applied s command out := by
  obtain ⟨control, hcontrol, h⟩ := bind_eq_ok.mp h
  rcases control with _ | ⟨type, txnId, keys, commands⟩
  · cases h
    exact .sql (by rw [statements, hcontrol])
  dsimp only at h
  by_cases hprepare : type = kPrepare
  · subst hprepare
    rw [if_pos rfl] at h
    split_ifs at h with hnew <;> cases h
    · exact .refused hcontrol hnew
    · exact .prepare hcontrol (not_not.mp hnew)
  rw [if_neg hprepare] at h
  split_ifs at h with hcommit habort <;> cases h
  · exact .commit txnId
  · exact .abort txnId
  · refine .sql ?_
    rw [statements, hcontrol]
    dsimp only
    rw [if_neg hprepare, if_neg fun hor => hor.elim hcommit habort]

/-- All statements that are staged. -/
def staged (p : TxnParticipant) : List Bytes := p.pending.entries.flatMap fun e => e.2.commands

lemma staged_resolve {p : TxnParticipant} {txnId : ℕ} {q : Pending}
    (h : p.pending.find txnId = some q) :
    (staged p).Perm (q.commands ++ staged (p.resolve txnId q)) :=
  (p.pending.perm_erase h).flatMap_right _

lemma staged_prepare (p : TxnParticipant) (txnId : ℕ) (keys commands : List Bytes) :
    (staged (p.prepare txnId keys commands).1).Subperm (staged p ++ commands) := by
  unfold TxnParticipant.prepare
  split_ifs with hpending
  · exact (List.sublist_append_left ..).subperm
  · split
    · exact (List.sublist_append_left ..).subperm
    · have hinsert := p.pending.perm_insert ⟨keys, commands⟩
        (Option.not_isSome_iff_eq_none.mp hpending)
      exact ((hinsert.flatMap_right _).trans List.perm_append_comm).subperm

lemma runStaged_runs (store : Store) (commands : List Bytes) :
    ∃ ran, ran <+: commands ∧ (runStaged store commands).1 = runAll store ran := by
  induction commands generalizing store with
  | nil => exact ⟨[], List.prefix_rfl, rfl⟩
  | cons command commands ih =>
    rw [runStaged]
    rcases hresult : execute store command with ⟨writes, e | out⟩
    · refine ⟨[command], List.prefix_append [command] commands, ?_⟩
      rw [runAll, List.foldl_cons, hresult]
      rfl
    · obtain ⟨ran, hran, hstore⟩ := ih (applyAll store writes)
      refine ⟨command :: ran, List.cons_prefix_cons.mpr ⟨rfl, hran⟩, ?_⟩
      rw [runAll, List.foldl_cons, hresult]
      exact hstore

/-- **What a command runs** was staged, or comes with it. -/
lemma applyCallback_runs (h : applyCallback s command = .ok (s', error)) :
    ∃ ran, s'.store = runAll s.store ran ∧
      (ran ++ staged s'.participant).Subperm (staged s.participant ++ statements command) := by
  generalize hout : (s', error) = out at h
  cases applied_of_eq h with
  | sql hstatements =>
    cases hout
    refine ⟨[command], rfl, ?_⟩
    rw [hstatements]
    exact List.perm_append_comm.subperm
  | refused hcontrol hdup =>
    cases hout
    exact ⟨[], rfl, (List.sublist_append_left ..).subperm⟩
  | prepare hcontrol hnew =>
    cases hout
    refine ⟨[], rfl, ?_⟩
    rw [statements, hcontrol]
    exact staged_prepare ..
  | commit txnId =>
    unfold TxnModel.commit at hout
    rcases hfind : s.participant.pending.find txnId with _ | q
    · rw [hfind] at hout
      cases hout
      exact ⟨[], rfl, (List.sublist_append_left ..).subperm⟩
    · rw [hfind] at hout
      cases hout
      obtain ⟨ran, hran, hstore⟩ := runStaged_runs s.store q.commands
      have hbatch : (ran ++ staged (s.participant.resolve txnId q)).Subperm
          (q.commands ++ staged (s.participant.resolve txnId q)) :=
        (hran.sublist.append_right _).subperm
      exact ⟨ran, hstore, (hbatch.trans (staged_resolve hfind).symm.subperm).trans
        (List.sublist_append_left ..).subperm⟩
  | abort txnId =>
    unfold TxnParticipant.abort at hout
    rcases hfind : s.participant.pending.find txnId with _ | q
    · rw [hfind] at hout
      cases hout
      exact ⟨[], rfl, (List.sublist_append_left ..).subperm⟩
    · rw [hfind] at hout
      cases hout
      have hrest : (staged (s.participant.resolve txnId q)).Subperm (staged s.participant) :=
        (List.sublist_append_right ..).subperm.trans (staged_resolve hfind).symm.subperm
      exact ⟨[], rfl, hrest.trans (List.sublist_append_left ..).subperm⟩

/-- **What commands run**: each statement that they bring once at most. -/
theorem applyCommands_runs {commands : List Bytes} (h : applyCommands s commands = .ok s') :
    ∃ ran, s'.store = runAll s.store ran ∧
      (ran ++ staged s'.participant).Subperm
        (staged s.participant ++ commands.flatMap statements) := by
  induction commands generalizing s with
  | nil =>
    cases h
    exact ⟨[], rfl, (List.sublist_append_left ..).subperm⟩
  | cons command commands ih =>
    obtain ⟨⟨s₁, error⟩, happly⟩ : Succeeds (applyCallback s command) := by
      rw [applyCommands, List.foldlM_cons] at h
      obtain ⟨s₁, h₁, -⟩ := bind_eq_ok.mp h
      exact succeeds_map.mp ⟨s₁, h₁⟩
    rw [applyCommands_cons _ happly] at h
    obtain ⟨ran, hstore, hran⟩ := applyCallback_runs happly
    obtain ⟨ran', hstore', hran'⟩ := ih h
    refine ⟨ran ++ ran', ?_, ?_⟩
    · rw [hstore', hstore, runAll, runAll, runAll, List.foldl_append]
    · rw [List.append_assoc, List.flatMap_cons, ← List.append_assoc (staged s.participant)]
      refine ((List.subperm_append_left ran).mpr hran').trans ?_
      rw [← List.append_assoc]
      exact (List.subperm_append_right _).mpr hran

/-! ### Votes -/

lemma findStagedDuplicateKey_ne_nil {store : Store} {commands : List Bytes} :
    findStagedDuplicateKey store commands ≠ [] ↔ ∃ command ∈ commands, ∃ s key,
      parse command = .ok (.insert s) ∧ tryExtractRowKey store (.insert s) = some key ∧
        store.find key ≠ none := by
  induction commands with
  | nil => simp [findStagedDuplicateKey]
  | cons command commands ih =>
    have hskip : (∀ s key, parse command = .ok (.insert s) →
        tryExtractRowKey store (.insert s) = some key → store.find key = none) →
        (findStagedDuplicateKey store commands ≠ [] ↔ ∃ command' ∈ command :: commands,
          ∃ s key, parse command' = .ok (.insert s) ∧ tryExtractRowKey store
            (.insert s) = some key ∧ store.find key ≠ none) := by
      intro hnone
      rw [List.exists_mem_cons_iff, ← ih, or_iff_right]
      rintro ⟨s, key, hparse, hkey, hfind⟩
      exact hfind (hnone s key hparse hkey)
    rw [findStagedDuplicateKey]
    split
    · rename_i s hparse
      split
      · rename_i hkey
        refine hskip fun s' key hparse' hkey' => ?_
        cases hparse.symm.trans hparse'
        cases hkey.symm.trans hkey'
      · rename_i key hkey
        split_ifs with hfind
        · refine iff_of_true (by simp [text])
            ⟨command, List.mem_cons_self, s, key, hparse, hkey, ?_⟩
          exact Option.isSome_iff_ne_none.mp hfind
        · refine hskip fun s' key' hparse' hkey' => ?_
          cases hparse.symm.trans hparse'
          cases hkey.symm.trans hkey'
          simpa using hfind
    · rename_i hother
      exact hskip fun s key hparse _ => absurd hparse (hother s)

/-- The command is a PREPARE of the batch, which is voted for. -/
structure VotedFor (s : Shard) (vote : Bytes) (txnId : ℕ) (q : Pending) (s' : Shard) : Prop where
  prepares : tryDecodeTxnControl vote = .ok (some ⟨kPrepare, txnId, q.keys, q.commands⟩)
  yes : applyCallback s vote = .ok (s', [])

lemma VotedFor.new {vote : Bytes} {txnId : ℕ} {q : Pending} (h : VotedFor s vote txnId q s') :
    findStagedDuplicateKey s.store q.commands = [] := by
  obtain ⟨control, hcontrol, happly⟩ := bind_eq_ok.mp h.yes
  rw [h.prepares] at hcontrol
  cases hcontrol
  dsimp only at happly
  rw [if_pos rfl] at happly
  by_contra hdup
  rw [if_pos hdup] at happly
  exact hdup (congrArg Prod.snd (Except.ok.inj happly))

lemma commands_subperm {p : TxnParticipant} {txnId : ℕ} {q : Pending}
    (h : p.pending.find txnId = some q) : q.commands.Subperm (staged p) :=
  (List.sublist_append_left ..).subperm.trans (staged_resolve h).symm.subperm

lemma pending_of_applied {txnId : ℕ} {q : Pending} (h : applyCallback s command = .ok (s', error))
    (hpending : s'.participant.pending.find txnId = some q) :
    s.participant.pending.find txnId = some q ∨ VotedFor s command txnId q s' := by
  have hresolve : ∀ {txnId' q'}, (s.participant.resolve txnId' q').pending.find txnId = some q →
      s.participant.pending.find txnId = some q := by
    intro txnId' q' hfind
    rw [TxnParticipant.resolve, OrdMap.find_erase] at hfind
    split_ifs at hfind
    exact hfind
  have happly := h
  generalize hout : (s', error) = out at h
  cases applied_of_eq h with
  | sql | refused =>
    cases hout
    exact .inl hpending
  | @prepare txnId' keys commands hcontrol =>
    rw [TxnParticipant.prepare] at hout
    split_ifs at hout with hold
    · cases hout
      exact .inl hpending
    · split at hout
      · cases hout
        exact .inl hpending
      · cases hout
        rw [OrdMap.find_insert] at hpending
        split_ifs at hpending with heq
        · cases hpending
          exact .inr ⟨heq ▸ hcontrol, happly⟩
        · exact .inl hpending
  | commit txnId' =>
    unfold TxnModel.commit at hout
    split at hout <;> cases hout
    · exact .inl hpending
    · exact .inl (hresolve hpending)
  | abort txnId' =>
    unfold TxnParticipant.abort at hout
    split at hout <;> cases hout
    · exact .inl hpending
    · exact .inl (hresolve hpending)

/-- **Every batch that is staged has been voted for.** -/
theorem voted_of_pending {applied : List Bytes} {txnId : ℕ} {q : Pending}
    (h : applyCommands .start applied = .ok s)
    (hpending : s.participant.pending.find txnId = some q) :
    ∃ before vote between s₀ s₁, applied = before ++ vote :: between ∧
      applyCommands .start before = .ok s₀ ∧ VotedFor s₀ vote txnId q s₁ ∧
      applyCommands s₁ between = .ok s := by
  induction applied using List.reverseRecOn generalizing s with
  | nil =>
    cases h
    cases hpending
  | append_singleton applied command ih =>
    rw [applyCommands, List.foldlM_append] at h
    obtain ⟨s₂, hbefore, h⟩ := bind_eq_ok.mp h
    obtain ⟨⟨s', error⟩, happly⟩ : Succeeds (applyCallback s₂ command) := by
      rw [List.foldlM_cons] at h
      obtain ⟨s', h', -⟩ := bind_eq_ok.mp h
      exact succeeds_map.mp ⟨s', h'⟩
    have hs : applyCommands s₂ [command] = .ok s := h
    rw [applyCommands_cons _ happly] at hs
    cases hs
    rcases pending_of_applied happly hpending with hold | hnew
    · obtain ⟨before, vote, between, s₀, s₁, rfl, hstart, hvote, hbetween⟩ :=
        ih hbefore hold
      exact ⟨before, vote, between ++ [command], s₀, s₁, by simp, hstart, hvote,
        (applyCommands_append [command] hbetween).trans (applyCommands_cons [] happly)⟩
    · exact ⟨applied, command, [], s₂, _, rfl, hbefore, hnew, rfl⟩

end DistDB.TxnStaged
