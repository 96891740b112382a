import DistDB.Relational
import DistDB.SqlSchemas

/-!
When a statement runs on relations, and what it changes of them. A relation stays and keeps its
columns (`Grows`), and its primary key is the one it was made with.
-/

namespace DistDB.Relational

open SqlParser SqlExecutor SqlRuns SqlSchemas Checks Bytes

variable {cat cat' : Catalog} {d t pk : Bytes} {r : Relation}

/-! ### When a statement runs -/

def rowAt (cat : Catalog) (d t pk : Bytes) : Option Row :=
  (relationAt cat d t).bind fun r => r.rows.find pk

/-- The `WHERE` can be evaluated on every row. -/
def Evaluable (r : Relation) (whereClause : List Condition) : Prop :=
  ∀ e ∈ r.rows.entries, Succeeds (matchesWhere r.schema e.2 whereClause)

/-- What a statement asks of the relations, when the keys that are taken are these. -/
def Requires (cat : Catalog) (taken : Bytes → Bytes → Bytes → Prop) : Statement → Prop
  | .createDatabase s => cat.find s.name = none
  | .createTable s => cat.find s.dbName ≠ none ∧ relationAt cat s.dbName s.tableName = none
  | .alterTableAddColumn s => ∃ r, relationAt cat s.dbName s.tableName = some r ∧
      r.schema.columnIndex s.column.name = none ∧
      ∃ v, s.column.defaultValue = some v ∧ (s.column.type = .kInt → IntText v)
  | .insert s => ∃ r, relationAt cat s.dbName s.tableName = some r ∧ InsertFits r.schema s ∧
      ∀ cv ∈ s.columns.zip s.values, r.schema.columnIndex cv.1 = r.schema.primaryKeyIndex →
        ¬ taken s.dbName s.tableName cv.2
  | .select s => ∃ r, relationAt cat s.dbName s.tableName = some r ∧
      (∀ c ∈ s.columns, r.schema.columnIndex c ≠ none) ∧ Evaluable r s.whereClause
  | .update s => ∃ r, relationAt cat s.dbName s.tableName = some r ∧
      (∀ a ∈ s.assignments, Takes r.schema a.1 a.2 ∧
        r.schema.columnIndex a.1 ≠ r.schema.primaryKeyIndex) ∧ Evaluable r s.whereClause
  | .delete s => ∃ r, relationAt cat s.dbName s.tableName = some r ∧ Evaluable r s.whereClause
  | .showTables s => cat.find s.dbName ≠ none
  | .showDatabases => True

lemma succeeds_relation {α : Type} {f : Relation → Except Exception α} :
    Succeeds (relation cat d t >>= f) ↔ ∃ r, relationAt cat d t = some r ∧
      Succeeds (f r) := by
  simp only [succeeds_bind, relation_eq_ok]

lemma succeeds_commit {x : Except Exception Catalog} :
    Succeeds (commit cat x).2 ↔ Succeeds x := by
  rcases x with e | cat'
  · exact iff_of_false (succeeds_error e) (succeeds_error e)
  · exact iff_of_true (succeeds_ok _) (succeeds_ok _)

lemma database_eq_ok {tables : OrdMap Bytes Relation} :
    database cat d = .ok tables ↔ cat.find d = some tables := by
  unfold database
  cases cat.find d with
  | none => simp
  | some tables' => simp

lemma succeeds_database {α : Type} {f : OrdMap Bytes Relation → Except Exception α} :
    Succeeds (database cat d >>= f) ↔ ∃ tables, cat.find d = some tables ∧
      Succeeds (f tables) := by
  simp only [succeeds_bind, database_eq_ok]

lemma succeeds_found {κ ρ : Type} {holds : ρ → Except Exception Bool}
    {rows : List (κ × ρ)} :
    Succeeds (found holds rows).2 ↔ ∀ e ∈ rows, Succeeds (holds e.2) := by
  induction rows with
  | nil => exact iff_of_true (succeeds_ok ()) (List.forall_mem_nil _)
  | cons e rows ih =>
    rw [List.forall_mem_cons, ← ih, found]
    rcases hholds : holds e.2 with err | b <;> simp

lemma succeeds_satisfying {whereClause : List Condition} :
    Succeeds (r.satisfying whereClause).2 ↔ Evaluable r whereClause := succeeds_found

lemma succeeds_changeRows {whereClause : List Condition} {f : Row → Option Row} {what : Bytes} :
    Succeeds (changeRows cat d t r whereClause f what).2 ↔ Evaluable r whereClause := by
  rw [← succeeds_satisfying]
  exact succeeds_map

lemma createTable_succeeds {s : CreateTableStatement} :
    Succeeds (createTable cat s).2 ↔
      cat.find s.dbName ≠ none ∧ relationAt cat s.dbName s.tableName = none := by
  rw [createTable, succeeds_commit, succeeds_database, relationAt]
  simp only [succeeds_throwIf, succeeds_pure, and_true, Bool.not_eq_true,
    Option.isSome_eq_false_iff, Option.isNone_iff_eq_none]
  cases cat.find s.dbName with
  | none => simp
  | some tables => simp

lemma update_succeeds {s : UpdateStatement} : Succeeds (update cat s).2 ↔
    ∃ r, relationAt cat s.dbName s.tableName = some r ∧
      (∀ a ∈ s.assignments, Takes r.schema a.1 a.2 ∧
        r.schema.columnIndex a.1 ≠ r.schema.primaryKeyIndex) ∧ Evaluable r s.whereClause := by
  unfold update relation
  cases relationAt cat s.dbName s.tableName with
  | none => simp
  | some r =>
    have hchecks : Succeeds (s.assignments.mapM (checkAssignment r.schema)) ↔
        ∀ a ∈ s.assignments, Takes r.schema a.1 a.2 ∧
          r.schema.columnIndex a.1 ≠ r.schema.primaryKeyIndex := by
      simp only [succeeds_mapM, checkAssignment_succeeds]
    simp only [Option.some.injEq, exists_eq_left', ← hchecks]
    cases s.assignments.mapM (checkAssignment r.schema) with
    | error e => simp
    | ok assignments => simp [succeeds_changeRows]

lemma delete_succeeds {s : DeleteStatement} : Succeeds (delete cat s).2 ↔
    ∃ r, relationAt cat s.dbName s.tableName = some r ∧ Evaluable r s.whereClause := by
  unfold delete relation
  cases relationAt cat s.dbName s.tableName with
  | none => simp
  | some r => simp [succeeds_changeRows]

lemma insert_succeeds {s : InsertStatement} (hvalues : s.columns.length = s.values.length) :
    Succeeds (insert cat s).2 ↔ Requires cat (fun d t pk => rowAt cat d t pk ≠ none)
      (.insert s) := by
  unfold insert
  rw [succeeds_commit, succeeds_relation]
  refine exists_congr fun r => and_congr_right fun hr => ?_
  have hrow : ∀ pk, rowAt cat s.dbName s.tableName pk = r.rows.find pk := fun pk => by
    rw [rowAt, hr]
    rfl
  simp only [hrow, not_not]
  rw [succeeds_bind]
  constructor
  · rintro ⟨⟨row, pk⟩, hinsert, h⟩
    obtain ⟨hfree, -⟩ := succeeds_throwIf.mp h
    refine ⟨insertRow_succeeds.mp ⟨_, hinsert⟩, fun cv hcv hidx => ?_⟩
    rw [← insertRow_pk hinsert hcv hidx]
    simpa using hfree
  · rintro ⟨hfits, hfree⟩
    obtain ⟨⟨row, pk⟩, hinsert⟩ := insertRow_succeeds.mpr hfits
    obtain ⟨idx, hpk⟩ := Option.isSome_iff_exists.mp hfits.pk
    obtain ⟨cv, hcv, hidx⟩ := exists_of_insertFits hvalues hfits (primaryKeyIndex_lt hpk)
    have hkey : pk = cv.2 := insertRow_pk hinsert hcv (hidx.trans hpk.symm)
    refine ⟨_, hinsert, succeeds_throwIf.mpr ⟨?_, succeeds_pure _⟩⟩
    rw [hkey, hfree cv hcv (hidx.trans hpk.symm)]
    exact Bool.false_ne_true

/-- **When a statement runs on relations.** -/
lemma executeStatement_succeeds {stmt : Statement}
    (hvalues : ∀ s, stmt = .insert s → s.columns.length = s.values.length) :
    Succeeds (executeStatement cat stmt).2 ↔
      Requires cat (fun d t pk => rowAt cat d t pk ≠ none) stmt := by
  cases stmt with
  | createDatabase s =>
    show Succeeds (commit _ _).2 ↔ _
    rw [succeeds_commit, succeeds_throwIf]
    simp [Requires]
  | createTable s =>
    exact createTable_succeeds
  | alterTableAddColumn s =>
    show Succeeds (commit _ _).2 ↔ _
    rw [succeeds_commit, succeeds_relation]
    refine exists_congr fun r => and_congr_right fun _ => ?_
    rw [succeeds_throwIf, not_not]
    refine and_congr_right fun _ => ?_
    rcases s.column.defaultValue with _ | v
    · simp
    · simp only [Option.some.injEq, exists_eq_left',
        ← validateLiteral_succeeds s.column.type s.column.name]
      rw [succeeds_bind]
      exact exists_congr fun _ => and_iff_left (succeeds_pure _)
  | insert s => exact insert_succeeds (hvalues s rfl)
  | select s =>
    show Succeeds (relation _ _ _ >>= _) ↔ _
    rw [succeeds_relation]
    refine exists_congr fun r => and_congr_right fun _ => ?_
    rw [succeeds_bind, ← project_succeeds, ← succeeds_satisfying]
    constructor
    · rintro ⟨projection, hproject, h⟩
      obtain ⟨u, hu, -⟩ := succeeds_bind.mp h
      exact ⟨⟨projection, hproject⟩, u, hu⟩
    · rintro ⟨⟨projection, hproject⟩, u, hu⟩
      exact ⟨projection, hproject, succeeds_bind.mpr ⟨u, hu, succeeds_pure _⟩⟩
  | update s => exact update_succeeds
  | delete s => exact delete_succeeds
  | showTables s =>
    show Succeeds (database _ _ >>= _) ↔ _
    rw [succeeds_database, Requires, Option.ne_none_iff_exists']
    simp
  | showDatabases => exact iff_of_true (succeeds_ok _) trivial

lemma execute_succeeds {sql : Bytes} : Succeeds (execute cat sql).2 ↔ ∃ stmt,
    parse sql = .ok stmt ∧ Requires cat (fun d t pk => rowAt cat d t pk ≠ none) stmt := by
  unfold execute
  rcases hparse : parse sql with e | stmt
  · simp
  · have hruns : Succeeds (executeStatement cat stmt).2 ↔ _ :=
      executeStatement_succeeds fun s hs => parse_insert (hs ▸ hparse)
    simp [hruns]

/-- What a statement may do to the relations. -/
inductive Evolves (cat : Catalog) : Catalog → Prop
  | same : Evolves cat cat
  | database {d : Bytes} : cat.find d = none → Evolves cat (cat.insert d .empty)
  | table {d t : Bytes} {columns : List ColumnDef} : relationAt cat d t = none →
      (TableSchema.primaryKeyIndex ⟨columns⟩).isSome →
      Evolves cat (setRelation cat d t ⟨columns, .empty⟩)
  | column {d t : Bytes} {r : Relation} {c : ColumnDef} {v : Bytes} :
      relationAt cat d t = some r → Evolves cat (setRelation cat d t (r.addColumn c v))
  | rows {d t : Bytes} {r : Relation} {rows : OrdMap Bytes Row} : relationAt cat d t = some r →
      Evolves cat (setRelation cat d t { r with rows := rows })

lemma evolves_commit {x : Except Exception Catalog}
    (h : ∀ cat', x = .ok cat' → Evolves cat cat') :
    Evolves cat (commit cat x).1 := by
  cases x with
  | error e => exact .same
  | ok cat' => exact h cat' rfl

lemma executeStatement_evolves {sql : Bytes} {stmt : Statement} (hparse : parse sql = .ok stmt) :
    Evolves cat (executeStatement cat stmt).1 := by
  cases stmt with
  | createDatabase s =>
    refine evolves_commit fun cat' h => ?_
    obtain ⟨_, hfree, h⟩ := bind_eq_ok.mp h
    cases h
    exact .database (by simpa using throwIf_eq_ok.mp hfree)
  | createTable s =>
    refine evolves_commit fun cat' h => ?_
    obtain ⟨tables, htables, h⟩ := bind_eq_ok.mp h
    obtain ⟨_, hfree, h⟩ := bind_eq_ok.mp h
    cases h
    refine .table ?_ (primaryKey_of_one (parse_worded hparse).2)
    rw [relationAt, database_eq_ok.mp htables]
    simpa using throwIf_eq_ok.mp hfree
  | alterTableAddColumn s =>
    refine evolves_commit fun cat' h => ?_
    obtain ⟨r, hr, h⟩ := bind_eq_ok.mp h
    obtain ⟨_, -, h⟩ := bind_eq_ok.mp h
    split at h
    · cases h
    · obtain ⟨_, -, h⟩ := bind_eq_ok.mp h
      cases h
      exact .column (relation_eq_ok.mp hr)
  | insert s =>
    refine evolves_commit fun cat' h => ?_
    obtain ⟨r, hr, h⟩ := bind_eq_ok.mp h
    obtain ⟨_, -, h⟩ := bind_eq_ok.mp h
    obtain ⟨_, -, h⟩ := bind_eq_ok.mp h
    cases h
    exact .rows (relation_eq_ok.mp hr)
  | update s =>
    show Evolves cat (update cat s).1
    unfold update
    split
    · exact .same
    · rename_i r hr
      split
      · exact .same
      · exact .rows (relation_eq_ok.mp hr)
  | delete s =>
    show Evolves cat (delete cat s).1
    unfold delete
    split
    · exact .same
    · rename_i r hr
      exact .rows (relation_eq_ok.mp hr)
  | select | showTables | showDatabases => exact .same

/-- The relations stay, and keep their columns. -/
def Grows (cat cat' : Catalog) : Prop :=
  ∀ d t r, relationAt cat d t = some r →
    ∃ r', relationAt cat' d t = some r' ∧ r.columns <+: r'.columns

/-- Every relation has a primary key. -/
def Keyed (cat : Catalog) : Prop :=
  ∀ d t r, relationAt cat d t = some r → r.schema.primaryKeyIndex.isSome

lemma Grows.refl (cat : Catalog) : Grows cat cat := fun _ _ r hr => ⟨r, hr, List.prefix_rfl⟩

lemma Grows.trans {cat'' : Catalog} (h : Grows cat cat') (h' : Grows cat' cat'') :
    Grows cat cat'' := by
  intro d t r hr
  obtain ⟨r', hr', hpre⟩ := h d t r hr
  obtain ⟨r'', hr'', hpre'⟩ := h' d t r' hr'
  exact ⟨r'', hr'', hpre.trans hpre'⟩

lemma keyed_empty : Keyed .empty := fun d t r hr => by cases hr

lemma primaryKeyIndex_of_isPrefix {schema schema' : TableSchema}
    (h : schema.columns <+: schema'.columns) {idx : ℕ}
    (hidx : schema.primaryKeyIndex = some idx) :
    schema'.primaryKeyIndex = some idx := by
  obtain ⟨more, hmore⟩ := h
  unfold TableSchema.primaryKeyIndex at hidx ⊢
  rw [← hmore, List.findIdx?_append, hidx]
  rfl

lemma relationAt_addDatabase (hfree : cat.find d = none) (d' t : Bytes) :
    relationAt (cat.insert d .empty) d' t = relationAt cat d' t := by
  unfold relationAt
  rw [OrdMap.find_insert]
  split_ifs with heq
  · rw [heq, hfree]
    rfl
  · rfl

lemma Evolves.grows (h : Evolves cat cat') : Grows cat cat' := by
  intro d t r hr
  cases h with
  | same => exact ⟨r, hr, List.prefix_rfl⟩
  | database hfree => exact ⟨r, by rwa [relationAt_addDatabase hfree], List.prefix_rfl⟩
  | @table d' t' columns hfree =>
    refine ⟨r, ?_, List.prefix_rfl⟩
    rw [relationAt_setRelation, if_neg, hr]
    rintro ⟨rfl, rfl⟩
    rw [hfree] at hr
    cases hr
  | @column d' t' r' c v hold | @rows d' t' r' rows hold =>
    rw [relationAt_setRelation]
    split_ifs with heq
    · obtain ⟨rfl, rfl⟩ := heq
      obtain rfl := Option.some.inj (hold.symm.trans hr)
      exact ⟨_, rfl, by simp [Relation.addColumn]⟩
    · exact ⟨r, hr, List.prefix_rfl⟩

lemma Evolves.keyed (h : Evolves cat cat') (hkeyed : Keyed cat) : Keyed cat' := by
  intro d t r hr
  cases h with
  | same => exact hkeyed d t r hr
  | database hfree => exact hkeyed d t r (by rwa [relationAt_addDatabase hfree] at hr)
  | @table d' t' columns hfree hkey =>
    rw [relationAt_setRelation] at hr
    split_ifs at hr
    · cases hr
      exact hkey
    · exact hkeyed d t r hr
  | @column d' t' r' c v hold =>
    rw [relationAt_setRelation] at hr
    split_ifs at hr
    · cases hr
      obtain ⟨idx, hidx⟩ := Option.isSome_iff_exists.mp (hkeyed _ _ _ hold)
      have hstays : (r'.addColumn c v).schema.primaryKeyIndex = some idx :=
        primaryKeyIndex_of_isPrefix (List.prefix_append _ _) hidx
      exact Option.isSome_iff_exists.mpr ⟨idx, hstays⟩
    · exact hkeyed d t r hr
  | @rows d' t' r' rows hold =>
    rw [relationAt_setRelation] at hr
    split_ifs at hr
    · cases hr
      exact hkeyed d' t' r' hold
    · exact hkeyed d t r hr

lemma execute_evolves (cat : Catalog) (sql : Bytes) : Evolves cat (execute cat sql).1 := by
  unfold execute
  rcases hparse : parse sql with e | stmt
  · exact .same
  · exact executeStatement_evolves hparse

lemma catalogAfter_grows (cat : Catalog) (sqls : List Bytes) :
    Grows cat (catalogAfter cat sqls) ∧ (Keyed cat → Keyed (catalogAfter cat sqls)) := by
  induction sqls generalizing cat with
  | nil => exact ⟨.refl cat, id⟩
  | cons sql sqls ih =>
    have hevolves := execute_evolves cat sql
    obtain ⟨hgrows, hkeyed⟩ := ih (execute cat sql).1
    exact ⟨hevolves.grows.trans hgrows, fun h => hkeyed (hevolves.keyed h)⟩

end DistDB.Relational
