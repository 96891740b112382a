import Mathlib.Data.Set.Finite.Lattice
import Mathlib.Data.Set.Finite.Range
import DistDB.Decimal
import DistDB.SqlCells

/-!
Which tables can be used. A table whose column names differ takes an `INSERT` of any new key;
`ALTER TABLE` checks that the name of its column is new, and `CREATE TABLE` checks no names
(`named_twice`).

As long as every `CREATE TABLE` names its columns differently, and no table gets more columns than
the schema's encoding counts, every stored schema can be used (`schemas_usable`).
-/

namespace DistDB.SqlSchemas

open SqlLexer SqlParser SqlGrammar SqlExecutor SqlTexts SqlRuns SqlAtomic SqlStore SqlFrame
open SqlTables SqlCells SqlRender Checks Codec Bytes

/-- What is known of the columns that a statement adds. -/
def Worded : Statement → Prop
  | .createTable s =>
    (∀ c ∈ s.columns, IsWord c.name) ∧ s.columns.countP ColumnDef.primaryKey = 1
  | .alterTableAddColumn s => IsWord s.column.name ∧ s.column.primaryKey = false
  | _ => True

lemma parse_worded {sql : Bytes} {stmt : Statement} (h : parse sql = .ok stmt) : Worded stmt := by
  obtain ⟨body, hbody, hwords⟩ := parse_words h
  cases hbody with
  | createTable _ _ _ _ hcolumns _ hone =>
    refine ⟨?_, hone⟩
    refine SepBy.forall hcolumns (fun t ht => hwords t (by simp [ht])) fun _ _ hc hwords => ?_
    cases hc with
    | plain hname | key hname => exact hwords _ List.mem_cons_self hname
  | alterTable _ _ _ _ _ hname => exact ⟨hwords _ (by simp) hname, rfl⟩
  | _ => trivial

/-- One primary key, and names that differ. -/
structure Good (schema : TableSchema) : Prop where
  one : schema.columns.countP ColumnDef.primaryKey = 1
  nodup : (schema.columns.map ColumnDef.name).Nodup
  words : ∀ c ∈ schema.columns, IsWord c.name

lemma deserialize_serialize_eq {schema : TableSchema} (hne : schema.columns ≠ [])
    (hlen : schema.columns.length < 2 ^ 32) (hsmall : ∀ c ∈ schema.columns, SmallColumn c) :
    TableSchema.deserialize schema.serialize = .ok schema := by
  have hread := vec_encVec TableSchema.corrupt
    (fun c hc t => readColumn_encodeColumn (hsmall c hc) t) hlen []
  rw [List.append_nil] at hread
  refine bind_eq_ok.mpr ⟨schema.columns, run_eq_ok.mpr ⟨[], hread⟩, ?_⟩
  exact bind_eq_ok.mpr ⟨(), throwIf_eq_ok.mpr hne, rfl⟩

section

variable {schema : TableSchema}

lemma Good.ne_nil (h : Good schema) : schema.columns ≠ [] := by
  intro hnil
  have hone := h.one
  rw [hnil] at hone
  cases hone

lemma Good.columnIndex (h : Good schema) {i : ℕ} {c : ColumnDef}
    (hc : schema.columns[i]? = some c) :
    schema.columnIndex c.name = some i := by
  obtain ⟨hi, rfl⟩ := List.getElem?_eq_some_iff.mp hc
  refine List.findIdx?_eq_some_iff_getElem.mpr ⟨hi, by simp, fun j hj => ?_⟩
  have hne : schema.columns[j].name ≠ schema.columns[i].name := by
    have hpair := List.pairwise_iff_getElem.mp h.nodup j i (by simpa using hj.trans hi)
      (by simpa using hi) hj
    simpa using hpair
  simpa using hne

lemma primaryKey_of_one (h : schema.columns.countP ColumnDef.primaryKey = 1) :
    schema.primaryKeyIndex.isSome := by
  obtain ⟨c, hc, hkey⟩ := List.countP_pos_iff.mp (h ▸ Nat.one_pos)
  rw [TableSchema.primaryKeyIndex, List.findIdx?_isSome]
  exact List.any_eq_true.mpr ⟨c, hc, hkey⟩

lemma Good.extend (h : Good schema) {c : ColumnDef} (hname : schema.columnIndex c.name = none)
    (hword : IsWord c.name) (hkey : c.primaryKey = false) : Good ⟨schema.columns ++ [c]⟩ where
  one := by
    rw [List.countP_append, h.one]
    simp [hkey]
  nodup := by
    rw [List.map_append, List.nodup_append]
    refine ⟨h.nodup, List.nodup_singleton _, fun n hn n' hn' heq => ?_⟩
    obtain ⟨c', hc', rfl⟩ := List.mem_map.mp hn
    obtain rfl := List.mem_singleton.mp hn'
    have hnone := List.findIdx?_eq_none_iff.mp hname c' hc'
    simp [heq] at hnone
  words := List.forall_mem_append.mpr ⟨h.words, List.forall_mem_singleton.mpr hword⟩

end

/-- The table is not there, or has a schema that is read and is good. -/
def TableGood (table : Table) : Prop :=
  table.schema = none ∨ ∃ schema, table.Loads schema ∧ Good schema

/-- A `CREATE TABLE` names its columns differently, and an `ALTER TABLE` leaves a schema whose
columns can be counted. -/
def Creates (table : Table) : Statement → Prop
  | .createTable s => (s.columns.map ColumnDef.name).Nodup
  | .alterTableAddColumn _ => ∀ schema, table.Loads schema → schema.columns.length + 1 < 2 ^ 32
  | _ => True

section

variable {table table' : Table} {d t sql : Bytes} {stmt : Statement}

/-- **One statement keeps the schema of a table good.** -/
lemma TableGood.moves (h : TableGood table) (hmove : Moves d t table stmt table')
    (hparse : parse sql = .ok stmt) (hsized : Sized stmt)
    (hcreates : targetOf stmt = some (d, t) → Creates table stmt) : TableGood table' := by
  cases hmove with
  | same => exact h
  | @create columns hnew =>
    obtain ⟨hwords, hone⟩ := parse_worded hparse
    have hgood : Good ⟨columns⟩ := ⟨hone, hcreates rfl, hwords⟩
    refine .inr ⟨⟨columns⟩, ⟨_, rfl, ?_⟩, hgood⟩
    exact deserialize_serialize_eq hgood.ne_nil hsized.1 hsized.2
  | @addColumn c schema v hload hnew hdefault htext =>
    obtain ⟨hword, hkey⟩ := parse_worded hparse
    have hgood : Good schema := by
      rcases h with hnone | ⟨schema', hload', hgood⟩
      · obtain ⟨blob, hblob, -⟩ := hload
        rw [hnone] at hblob
        cases hblob
      · exact Loads.unique hload hload' ▸ hgood
    obtain ⟨-, hsmall⟩ := Loads.small hload
    have hextended := hgood.extend hnew hword hkey
    refine .inr ⟨_, ⟨_, rfl, ?_⟩, hextended⟩
    refine deserialize_serialize_eq hextended.ne_nil ?_ ?_
    · simpa using hcreates rfl schema hload
    · exact List.forall_mem_append.mpr
        ⟨hsmall, List.forall_mem_singleton.mpr hsized⟩
  | insert => exact h
  | update => exact h
  | delete => exact h

end

variable {store : Store} {d t : Bytes} {schema : TableSchema}

lemma exists_fresh (store : Store) (d t : Bytes) :
    ∃ n : ℕ, store.find (rowKey d t (toText n)) = none := by
  by_contra hall
  have hmem : ∀ n : ℕ, rowKey d t
      (toText n) ∈ {key | key ∈ store.entries.map Prod.fst} := by
    intro n
    obtain ⟨blob, hblob⟩ := Option.ne_none_iff_exists'.mp (not_exists.mp hall n)
    exact List.mem_map.mpr ⟨_, store.mem_entries.mpr hblob, rfl⟩
  have hinj : Function.Injective fun n : ℕ => rowKey d t (toText n) := by
    intro n m h
    rw [← Decimal.value_toText n, ← Decimal.value_toText m, rowKey_inj.mp h]
  exact Set.infinite_of_injective_forall_mem hinj hmem (List.finite_toSet _)

lemma intText_toText (n : ℕ) : IntText (toText n) := by
  have hdigit : ∀ c ∈ toText n, isDigit c := fun c hc => Decimal.isDigit_toText hc
  have hdigits : digits (toText n) = toText n := by
    unfold digits
    rw [if_neg]
    intro hhead
    exact absurd (hdigit _ (List.mem_of_mem_head? hhead)) (by decide)
  unfold IntText
  rw [hdigits]
  exact ⟨Decimal.toText_ne_nil n, hdigit⟩

/-- **A good table takes an `INSERT`.** -/
lemma Good.insert (h : Good schema) (hd : IsWord d) (ht : IsWord t)
    (hload : loadSchema store d t = .ok schema) :
    ∃ sql s, parse sql = .ok (.insert s) ∧ s.dbName = d ∧ s.tableName = t ∧
      Succeeds (execute store sql).2 := by
  obtain ⟨n, hfree⟩ := exists_fresh store d t
  let names := schema.columns.map ColumnDef.name
  let values := List.replicate schema.columns.length (toText n)
  have hlen : names.length = values.length := by simp [names, values]
  have hwords : ∀ c ∈ names, IsWord c := by
    intro name hname
    obtain ⟨c, hc, rfl⟩ := List.mem_map.mp hname
    exact h.words c hc
  have hparse : parse (insertText d t names values) = .ok (.insert ⟨d, t, names, values⟩) :=
    parse_insertText hd ht hwords (by simpa [names] using h.ne_nil) hlen
  refine ⟨_, _, hparse, rfl, rfl, (execute_succeeds store _).mpr
    ⟨_, hparse, schema, hload, ?_, ?_⟩⟩
  · refine ⟨by simp [names], ?_, fun cv hcv => ?_, primaryKey_of_one h.one⟩
    · rw [List.map_fst_zip hlen.le]
      exact h.nodup
    · obtain ⟨hname, hvalue⟩ := List.of_mem_zip hcv
      obtain ⟨c, hc, heq⟩ := List.mem_map.mp hname
      obtain ⟨i, hi⟩ := List.mem_iff_getElem?.mp hc
      rw [List.eq_of_mem_replicate hvalue]
      exact ⟨i, c, heq ▸ h.columnIndex hi, hi, fun _ => intText_toText n⟩
  · intro cv hcv _
    rw [List.eq_of_mem_replicate (List.of_mem_zip hcv).2]
    exact hfree

/-! ### Every store -/

/-- What the text stores fits its fields, a `CREATE TABLE` names its columns differently, and no
`ALTER TABLE` adds column number `2 ^ 32`. -/
def Creating (store : Store) (sql : Bytes) : Prop :=
  ∀ stmt, parse sql = .ok stmt → Sized stmt ∧ ∀ d t, targetOf stmt = some (d, t) →
    Creates (tableAt store d t) stmt

/-- A table that can be used: one column is the primary key, every column is found under its name,
and there is an `INSERT` that it takes. -/
structure Usable (store : Store) (d t : Bytes) (schema : TableSchema) : Prop where
  one : schema.columns.countP ColumnDef.primaryKey = 1
  index : ∀ i c, schema.columns[i]? = some c → schema.columnIndex c.name = some i
  insert : ∃ sql s, parse sql = .ok (.insert s) ∧ s.dbName = d ∧ s.tableName = t ∧
    Succeeds (execute store sql).2

lemma schemas_named (h : Reach (StepOf after) (fun _ _ => True) .empty store) {key : Bytes}
    (hkey : text "__schema__/" <+: key) (hfind : store.find key ≠ none) :
    ∃ d t, IsWord d ∧ IsWord t ∧ key = schemaKey d t := by
  have hthird : key[2]? = some (chr 's') := by
    obtain ⟨s, rfl⟩ := hkey
    rfl
  obtain ⟨sql, stmt, d, t, hparse, htarget, howned⟩ := owner_of_reach h (fun n heq => by
    rw [heq, third_databasePrefix (prefix_databaseKey n)] at hthird
    cases hthird) hfind
  obtain ⟨hd, ht⟩ := target_words hparse htarget
  rcases howned with rfl | hrow
  · exact ⟨d, t, hd, ht, rfl⟩
  · rw [third_rowPrefix hrow] at hthird
    cases hthird

/-- **Every stored schema can be used**, as long as every `CREATE TABLE` names its columns
differently. -/
theorem schemas_usable (h : Reach (StepOf after) Creating .empty store) {key : Bytes}
    (hkey : text "__schema__/" <+: key) (hfind : store.find key ≠ none) :
    ∃ d t schema, IsWord d ∧ IsWord t ∧ key = schemaKey d t ∧
      loadSchema store d t = .ok schema ∧ Usable store d t schema := by
  obtain ⟨d, t, hd, ht, rfl⟩ := schemas_named (h.mono fun _ _ _ => trivial) hkey hfind
  have hgood : TableGood (tableAt store d t) := by
    refine h.invariant (I := fun store => TableGood (tableAt store d t)) (.inl rfl) ?_
    rintro store sql _ hgood hsql rfl
    cases hparse : parse sql with
    | error e => rwa [after_of_error hparse]
    | ok stmt =>
      obtain ⟨hsized, hcreates⟩ := hsql stmt hparse
      exact hgood.moves (moves hparse hd.name ht.name) hparse hsized (hcreates d t)
  rcases hgood with hnone | ⟨schema, hload, hgood⟩
  · exact absurd hnone hfind
  · have hloaded := loadSchema_eq_ok.mpr hload
    exact ⟨d, t, schema, hd, ht, rfl, hloaded, hgood.one, fun i c => hgood.columnIndex,
      hgood.insert hd ht hloaded⟩

def grownTable : List Bytes := [
  text "CREATE DATABASE d",
  text "CREATE TABLE d.t (k INT PRIMARY KEY)",
  text "ALTER TABLE d.t ADD COLUMN n INT DEFAULT 0"]

theorem schemas_usable_grownTable : ∃ d t schema, IsWord d ∧ IsWord t ∧
    schemaKey (text "d") (text "t") = schemaKey d t ∧
    loadSchema (runAll .empty grownTable) d t = .ok schema ∧
    Usable (runAll .empty grownTable) d t schema := by
  have hreach : Reach (StepOf after) Creating .empty (runAll .empty grownTable) := by
    refine reach_runAll fun i sql hi => ?_
    rcases i with _ | _ | _ | i
    · cases hi
      have hparse : parse (text "CREATE DATABASE d") = .ok (.createDatabase ⟨text "d"⟩) := by
        decide +kernel
      intro stmt h
      cases hparse.symm.trans h
      exact ⟨trivial, fun d t _ => trivial⟩
    · cases hi
      have hparse : parse (text "CREATE TABLE d.t (k INT PRIMARY KEY)") =
          .ok (.createTable ⟨text "d", text "t", [⟨text "k", .kInt, true, none⟩]⟩) := by
        decide +kernel
      intro stmt h
      cases hparse.symm.trans h
      exact ⟨sized_of_parse hparse (by decide +kernel), fun d t _ => List.nodup_singleton _⟩
    · cases hi
      have hparse : parse (text "ALTER TABLE d.t ADD COLUMN n INT DEFAULT 0") =
          .ok (.alterTableAddColumn
            ⟨text "d", text "t", ⟨text "n", .kInt, false, some (text "0")⟩⟩) := by
        decide +kernel
      have hload : loadSchema (runAll .empty (grownTable.take 2)) (text "d") (text "t") =
          .ok ⟨[⟨text "k", .kInt, true, none⟩]⟩ := by
        decide +kernel
      intro stmt h
      cases hparse.symm.trans h
      refine ⟨sized_of_parse hparse (by decide +kernel), ?_⟩
      rintro d t ⟨⟩ schema hschema
      rw [Loads.unique (loadSchema_eq_ok.mp hload) hschema]
      decide
    · cases hi
  refine schemas_usable hreach ⟨text "d/t", rfl⟩ ?_
  decide +kernel

lemma index_of_insert {sql : Bytes} {s : InsertStatement} (hparse : parse sql = .ok (.insert s))
    (hload : loadSchema store s.dbName s.tableName = .ok schema)
    (hruns : Succeeds (execute store sql).2) :
    ∀ i c, schema.columns[i]? = some c → schema.columnIndex c.name = some i := by
  obtain ⟨stmt, hstmt, hruns⟩ := (execute_succeeds store sql).mp hruns
  cases hparse.symm.trans hstmt
  obtain ⟨schema', hload', hfits, -⟩ := hruns
  cases hload.symm.trans hload'
  intro i c hc
  obtain ⟨hi, rfl⟩ := List.getElem?_eq_some_iff.mp hc
  -- some name of the INSERT is that of the column, and of none before it
  obtain ⟨cv, -, hidx⟩ := exists_of_insertFits (parse_insert hparse) hfits hi
  obtain ⟨_, hname, -⟩ := List.findIdx?_eq_some_iff_getElem.mp hidx
  rw [beq_iff_eq.mp hname]
  exact hidx

def namedTwice : List Bytes := [
  text "CREATE DATABASE d",
  text "CREATE TABLE d.t (a INT PRIMARY KEY, a TEXT)"]

/-- **A table that cannot be used**: two of its columns have one name, and it takes no `INSERT`. -/
theorem named_twice : ¬ ∀ sqls d t schema, IsWord d → IsWord t →
    loadSchema (runAll .empty sqls) d t = .ok schema →
      Usable (runAll .empty sqls) d t schema := by
  intro hall
  have hload : loadSchema (runAll .empty namedTwice) (text "d") (text "t") =
      .ok ⟨[⟨text "a", .kInt, true, none⟩, ⟨text "a", .kText, false, none⟩]⟩ := by
    decide +kernel
  obtain ⟨sql, s, hparse, hd, ht, hruns⟩ := (hall namedTwice (text "d") (text "t") _
    (.letter (by decide)) (.letter (by decide)) hload).insert
  rw [← hd, ← ht] at hload
  have hindex := index_of_insert hparse hload hruns 1 _ rfl
  exact absurd hindex (by decide)

end DistDB.SqlSchemas
