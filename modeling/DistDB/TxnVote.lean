import DistDB.RelationalRuns
import DistDB.SqlRelational
import DistDB.TxnStaged

/-!
What a yes vote is worth: whether COMMIT runs the staged batch to its end.

PREPARE looks for staged `INSERT`s of a key the store holds at that moment, and for locked
keys. It does not look at what the batch itself inserts, and a plain statement does not
look at the locks. So a batch that was voted for can fail half-way
(`voted_batch_fails`).

In terms of relations, it runs whole exactly when each of its statements meets its own
preconditions on the relations before the COMMIT, as the statements before it have changed them,
and no row that it inserts has been added since the vote (`commit_whole_iff`).
-/

namespace DistDB.TxnVote

open SqlParser SqlExecutor SqlRuns SqlAtomic SqlFrame SqlRelational TxnModel TxnStaged Checks Bytes

/-- COMMIT of `txnId` throws for none of the commands staged for it. -/
def CommitsWhole (s : Shard) (txnId : ℕ) : Prop :=
  ∀ p, s.participant.pending.find txnId = some p → Succeeds (runStaged s.store p.commands).2

lemma commitsWhole_iff {s : Shard} {txnId : ℕ} {p : Pending}
    (hpending : s.participant.pending.find txnId = some p) :
    CommitsWhole s txnId ↔ Succeeds (runStaged s.store p.commands).2 := by
  constructor
  · exact fun hwhole => hwhole p hpending
  · rintro hsucceeds p' hp'
    obtain rfl := Option.some.inj (hpending.symm.trans hp')
    exact hsucceeds

/-! ### Since the vote -/

open Relational (Catalog Relation rowAt relationAt Requires Grows Keyed catalogAfter)

/-- A row with the key is there, and was not at the vote. -/
def Added (atVote cat : Catalog) (d t pk : Bytes) : Prop :=
  rowAt cat d t pk ≠ none ∧ rowAt atVote d t pk = none

/-- Each statement of the batch, on the relations that the ones before it leave, meets its
preconditions, and inserts no row that has been added since the vote. -/
def InOrder (atVote : Catalog) : Catalog → List Bytes → Prop
  | _, [] => True
  | cat, sql :: sqls => (∃ stmt, parse sql = .ok stmt ∧ Requires cat
      (Added atVote cat) stmt) ∧
      InOrder atVote (Relational.execute cat sql).1 sqls

variable {atVote cat : Catalog} {store : Store} {commands : List Bytes}

/-- What the vote says of the rows that are inserted: they were not there. -/
def NewAtVote (atVote : Catalog) (commands : List Bytes) : Prop :=
  ∀ sql ∈ commands, ∀ s schema, parse sql = .ok (.insert s) → InsertFits schema s →
    (∀ r, relationAt atVote s.dbName s.tableName = some r → r.columns <+: schema.columns) →
    ∀ cv ∈ s.columns.zip s.values, schema.columnIndex cv.1 = schema.primaryKeyIndex →
      rowAt atVote s.dbName s.tableName cv.2 = none

lemma newAtVote {n : ℕ} (h : Refines n store atVote) (hkeyed : Keyed atVote)
    (hnew : findStagedDuplicateKey store commands = []) : NewAtVote atVote commands := by
  intro sql hsql s schema hparse hfits hcolumns cv hcv hidx
  obtain ⟨hd, ht⟩ := target_names hparse rfl
  cases hr : relationAt atVote s.dbName s.tableName with
  | none => rw [rowAt, hr]; rfl
  | some r =>
    obtain ⟨idx, hkey⟩ := Option.isSome_iff_exists.mp (hkeyed _ _ r hr)
    have hlt := primaryKeyIndex_lt hkey
    have hstays := Relational.primaryKeyIndex_of_isPrefix (hcolumns r hr) hkey
    -- the column that the value is given for is the key of the relation at the vote
    have hname : cv.1 = r.schema.columns[idx].name := by
      obtain ⟨hlt', heq, -⟩ := List.findIdx?_eq_some_iff_getElem.mp (hidx.trans hstays)
      have hcolumn : r.schema.columns[idx] = schema.columns[idx] := (hcolumns r hr).getElem hlt
      rw [hcolumn]
      exact (beq_iff_eq.mp heq).symm
    have hextract : tryExtractRowKey store (.insert s) =
        some (rowKey s.dbName s.tableName cv.2) :=
      tryExtractRowKey_of_name (h.loadSchema_of_relation hd (Relational.relation_eq_ok.mpr hr)) hkey
        (List.getElem?_eq_getElem hlt) hfits.nodup hcv hname
    have hfind : store.find (rowKey s.dbName s.tableName cv.2) = none := by
      by_contra hfind
      exact findStagedDuplicateKey_ne_nil.mpr ⟨sql, hsql, s, _, hparse, hextract, hfind⟩ hnew
    have hrow := h.rows _ _ r hd ht hr cv.2
    rw [hfind] at hrow
    rw [rowAt, hr, Option.bind_some]
    cases hrows : r.rows.find cv.2 with
    | none => rfl
    | some row =>
      rw [hrows] at hrow
      cases hrow

/-- Of the keys that a staged statement is given, those are taken that have been added. -/
lemma requires_iff (hnew : NewAtVote atVote commands) (hgrows : Grows atVote cat) {sql : Bytes}
    (hsql : sql ∈ commands) {stmt : Statement} (hparse : parse sql = .ok stmt) :
    Requires cat (fun d t pk => rowAt cat d t pk ≠ none) stmt ↔
      Requires cat (Added atVote cat) stmt := by
  cases stmt with
  | insert s =>
    refine exists_congr fun r => and_congr_right fun hr => and_congr_right fun hfits => ?_
    refine forall₃_congr fun cv hcv hidx => not_congr (Iff.symm (and_iff_left ?_))
    refine hnew sql hsql s r.schema hparse hfits (fun r₀ hr₀ => ?_) cv hcv hidx
    obtain ⟨r', hr', hpre⟩ := hgrows _ _ r₀ hr₀
    obtain rfl := Option.some.inj (hr'.symm.trans hr)
    exact hpre
  | createDatabase | createTable | alterTableAddColumn | select | update | delete | showTables
  | showDatabases => exact Iff.rfl

lemma runStaged_inOrder {n : ℕ} {sqls : List Bytes} (h : Refines (sqls.length + n) store cat)
    (hlen : ∀ sql ∈ sqls, sql.length + (sqls.length + n) ≤ 2 ^ 32)
    (hnew : NewAtVote atVote commands) (hgrows : Grows atVote cat) (hsub : sqls ⊆ commands) :
    Succeeds (runStaged store sqls).2 ↔ InOrder atVote cat sqls := by
  induction sqls generalizing store cat with
  | nil => exact iff_of_true (succeeds_ok _) trivial
  | cons sql sqls ih =>
    obtain ⟨hsql, hrest⟩ := List.forall_mem_cons.mp hlen
    obtain ⟨hmem, hsub⟩ := List.cons_subset.mp hsub
    rw [List.length_cons, Nat.succ_add] at h hsql
    have hstep := h.execute (show sql.length + (sqls.length + n) < 2 ^ 32 by omega)
    have hevolves := Relational.execute_evolves cat sql
    have hnext := ih hstep.refines (fun sql' hsql' => by
      have := hrest sql' hsql'
      rw [List.length_cons] at this
      omega) (hgrows.trans hevolves.grows) hsub
    have hone : Succeeds (execute store sql).2 ↔
        ∃ stmt, parse sql = .ok stmt ∧ Requires cat (Added atVote cat) stmt := by
      rw [hstep.answer, Relational.execute_succeeds]
      exact exists_congr fun stmt => and_congr_right (requires_iff hnew hgrows hmem)
    rw [InOrder, ← hnext, ← hone, runStaged]
    rcases execute store sql with ⟨writes, e | out⟩
    · simp
    · simp

/-- The batch that is staged for `txnId` was voted for at some point of the history, when the
relations were `atVote`. -/
def VotedAt (applied : List Bytes) (txnId : ℕ) (p : Pending) (s : Shard)
    (atVote : Catalog) : Prop :=
  ∃ before vote between s₀ s₁, applied = before ++ vote :: between ∧
    applyCommands .start before = .ok s₀ ∧ VotedFor s₀ vote txnId p s₁ ∧
    applyCommands s₁ between = .ok s ∧ Refines 0 s₀.store atVote

/-- **When a voted batch commits whole**: a batch that is staged has been voted for. COMMIT throws
for none of its statements if and only if each of them meets its preconditions on the relations
before the COMMIT, as the statements before it change them, and no row that it inserts has been
added since the vote. -/
theorem commit_whole_iff {applied : List Bytes} {s : Shard} {txnId : ℕ} {p : Pending}
    (happlied : applyCommands .start applied = .ok s)
    (hpending : s.participant.pending.find txnId = some p)
    (hlen : ∀ sql ∈ applied.flatMap statements,
      sql.length + (applied.flatMap statements).length ≤ 2 ^ 32) :
    ∃ atVote cat, VotedAt applied txnId p s atVote ∧ Refines 0 s.store cat ∧
      (CommitsWhole s txnId ↔ InOrder atVote cat p.commands) := by
  obtain ⟨before, vote, between, s₀, s₁, rfl, hbefore, hvote, hbetween⟩ :=
    voted_of_pending happlied hpending
  obtain ⟨ran, hstore, hran⟩ := applyCommands_runs hbefore
  have hrest : applyCommands s₀ (vote :: between) = .ok s :=
    (applyCommands_cons between hvote.yes).trans hbetween
  obtain ⟨ran', hstore', hran'⟩ := applyCommands_runs hrest
  -- what runs at the COMMIT has not run before
  have hall : (ran ++ (ran' ++ p.commands)).Subperm
      ((before ++ vote :: between).flatMap statements) := by
    have hlast := ((List.subperm_append_left ran').mpr (commands_subperm hpending)).trans hran'
    rw [List.flatMap_append]
    refine ((List.subperm_append_left ran).mpr hlast).trans ?_
    rw [← List.append_assoc]
    exact (List.subperm_append_right _).mpr hran
  have hcount := hall.length_le
  rw [List.length_append, List.length_append] at hcount
  have hshort : ∀ sql ∈ ran ++ (ran' ++ p.commands),
      sql.length + (ran.length + (ran'.length + p.commands.length)) ≤ 2 ^ 32 := fun sql hsql => by
    have := hlen sql (hall.subset hsql)
    omega
  obtain ⟨hshort₁, hshort₂⟩ := List.forall_mem_append.mp hshort
  obtain ⟨hshort₂, hshort₃⟩ := List.forall_mem_append.mp hshort₂
  have hatVote : Refines (ran'.length + p.commands.length) s₀.store
      (catalogAfter .empty ran) := hstore ▸ Refines.empty.runAll hshort₁
  have hcat : Refines p.commands.length s.store (catalogAfter (catalogAfter .empty ran) ran') :=
    hstore' ▸ hatVote.runAll fun sql hsql => by
      have := hshort₂ sql hsql
      omega
  obtain ⟨hgrows, -⟩ := Relational.catalogAfter_grows (catalogAfter .empty ran) ran'
  have hkeyed := (Relational.catalogAfter_grows .empty ran).2 Relational.keyed_empty
  have hruns : Succeeds (runStaged s.store p.commands).2 ↔ InOrder (catalogAfter .empty ran)
      (catalogAfter (catalogAfter .empty ran) ran') p.commands := by
    refine runStaged_inOrder (n := 0) hcat (fun sql hsql => ?_) (newAtVote hatVote hkeyed hvote.new)
      hgrows (List.Subset.refl _)
    have := hshort₃ sql hsql
    omega
  refine ⟨_, _, ⟨before, vote, between, s₀, s₁, rfl, hbefore, hvote, hbetween,
    hatVote.mono (Nat.zero_le _)⟩, hcat.mono (Nat.zero_le _), ?_⟩
  exact (commitsWhole_iff hpending).trans hruns

def createDatabase : Bytes := text "CREATE DATABASE d"
def createTable : Bytes := text "CREATE TABLE d.t (k TEXT PRIMARY KEY, n INT)"
def insertX : Bytes := text "INSERT INTO d.t (k, n) VALUES ('x', 1)"
def insertY : Bytes := text "INSERT INTO d.t (k, n) VALUES ('y', 1)"
def updateAll : Bytes := text "UPDATE d.t SET n = 2 WHERE n = 1"

/-- The shard after a database and a table, PREPARE with the batch, and the commands. -/
def voted (batch between : List Bytes) : Option Shard := do
  let s₀ ← (applyCommands .start [createDatabase, createTable]).toOption
  let (s₁, vote) ← (applyCallback s₀ (encodeTxnPrepare ⟨1, [], batch⟩)).toOption
  if vote = [] then (applyCommands s₁ between).toOption else none

lemma voted_spec {batch between : List Bytes} {s : Shard} (h : voted batch between = some s) :
    ∃ s₀ s₁, applyCommands .start [createDatabase, createTable] = .ok s₀ ∧
      applyCallback s₀ (encodeTxnPrepare ⟨1, [], batch⟩) = .ok (s₁, []) ∧
      applyCommands s₁ between = .ok s := by
  have htoOption : ∀ {α : Type} {x : Except Exception α} {a : α}, x.toOption = some a →
    x = .ok a := by
    rintro α (e | a) b h
    · cases h
    · cases h; rfl
  unfold voted at h
  obtain ⟨s₀, h₀, h⟩ := Option.bind_eq_some_iff.mp h
  obtain ⟨⟨s₁, vote⟩, h₁, h⟩ := Option.bind_eq_some_iff.mp h
  by_cases hvote : vote = []
  · subst hvote
    exact ⟨s₀, s₁, htoOption h₀, htoOption h₁, htoOption h⟩
  · simp only [hvote, if_false, reduceCtorEq] at h

def history (batch between : List Bytes) : List Bytes :=
  [createDatabase, createTable] ++ encodeTxnPrepare ⟨1, [], batch⟩ :: between

lemma applyCommands_voted {batch between : List Bytes} {s : Shard}
    (h : voted batch between = some s) :
    applyCommands .start (history batch between) = .ok s := by
  obtain ⟨s₀, s₁, h₀, h₁, h⟩ := voted_spec h
  calc applyCommands .start (history batch between)
      = applyCommands s₀ (encodeTxnPrepare ⟨1, [], batch⟩ :: between) :=
          applyCommands_append _ h₀
    _ = applyCommands s₁ between := applyCommands_cons between h₁
    _ = .ok s := h

/-- Between the vote and the COMMIT a row is inserted: one with another key than that of the
batch, or one with its key. -/
theorem commit_whole_iff_between :
    (∃ s atVote cat, VotedAt (history [insertX, updateAll] [insertY]) 1
      ⟨[], [insertX, updateAll]⟩ s atVote ∧ Refines 0 s.store cat ∧
      InOrder atVote cat [insertX, updateAll]) ∧
    ∃ s atVote cat, VotedAt (history [insertX] [insertX]) 1 ⟨[], [insertX]⟩ s atVote ∧
      Refines 0 s.store cat ∧ ¬ InOrder atVote cat [insertX] := by
  constructor
  · obtain ⟨s, hs, hpending, hruns⟩ :=
      exists_of_any (x := voted [insertX, updateAll] [insertY])
        (P := fun s => s.participant.pending.find 1 = some ⟨[], [insertX, updateAll]⟩ ∧
          Succeeds (runStaged s.store [insertX, updateAll]).2) (by decide +kernel)
    obtain ⟨atVote, cat, hvoted, hcat, hiff⟩ :=
      commit_whole_iff (applyCommands_voted hs) hpending (by decide +kernel)
    rw [commitsWhole_iff hpending] at hiff
    dsimp only at hiff
    exact ⟨s, atVote, cat, hvoted, hcat, hiff.mp hruns⟩
  · obtain ⟨s, hs, hpending, hthrows⟩ := exists_of_any (x := voted [insertX] [insertX])
      (P := fun s => s.participant.pending.find 1 = some ⟨[], [insertX]⟩ ∧
        ¬ Succeeds (runStaged s.store [insertX]).2) (by decide +kernel)
    obtain ⟨atVote, cat, hvoted, hcat, hiff⟩ :=
      commit_whole_iff (applyCommands_voted hs) hpending (by decide +kernel)
    rw [commitsWhole_iff hpending] at hiff
    dsimp only at hiff
    exact ⟨s, atVote, cat, hvoted, hcat, mt hiff.mpr hthrows⟩

/-- **A voted batch fails half-way**: it holds the same `INSERT` twice. The second one
throws at COMMIT, and the row of the first one stays. -/
theorem voted_batch_fails : ¬ ∀ (before between : List Bytes) (p : TxnPrepare)
    (s₀ s₁ s : Shard),
    applyCommands .start before = .ok s₀ →
    applyCallback s₀ (encodeTxnPrepare p) = .ok (s₁, []) →
    applyCommands s₁ between = .ok s → CommitsWhole s p.txnId := by
  intro hall
  obtain ⟨s, hs, hpending, hthrows, -⟩ := exists_of_any (x := voted [insertX, insertX] [])
    (P := fun s => s.participant.pending.find 1 = some ⟨[], [insertX, insertX]⟩ ∧
      ¬ Succeeds (runStaged s.store [insertX, insertX]).2 ∧
      ((commit s 1).1.store.find (rowKey (text "d") (text "t") (text "x"))).isSome)
    (by decide +kernel)
  obtain ⟨s₀, s₁, h₀, h₁, h⟩ := voted_spec hs
  have hsucceeds := (commitsWhole_iff hpending).mp (hall _ _ _ s₀ s₁ s h₀ h₁ h)
  dsimp only at hsucceeds
  exact hthrows hsucceeds

end DistDB.TxnVote
