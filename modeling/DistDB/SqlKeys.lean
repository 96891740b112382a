import DistDB.SqlCells
import DistDB.SqlRouting

/-!
Whether a primary key names one row. A row is stored under the text of its key, and an `INT` key is
compared as a number, so two spellings of a number are two rows that compare as equal
(`two_spellings`).

As long as no `INSERT` gives the number of a stored key in another spelling, no two rows of a table
have keys that compare as equal, and a `WHERE` that asks for a key is satisfied by one row at most
(`keys_unique`).
-/

namespace DistDB.SqlKeys

open SqlParser SqlExecutor SqlTexts SqlRuns SqlAtomic SqlStore SqlFrame SqlAlter SqlTables SqlCells
open SqlRouting Checks Bytes

/-- Both are read as one number of 64 bits. -/
def SameNumber (v w : Bytes) : Prop := ∃ n, stoll v = .ok n ∧ stoll w = .ok n

/-- What the executor takes for equal. -/
def SameKey (type : ColumnType) (v w : Bytes) : Prop := compareLiterals type v .kEq w = .ok true

lemma sameKey_int {v w : Bytes} : SameKey .kInt v w ↔ SameNumber v w := by
  unfold SameKey compareLiterals
  constructor
  · intro h
    obtain ⟨a, ha, h⟩ := bind_eq_ok.mp h
    obtain ⟨b, hb, h⟩ := bind_eq_ok.mp h
    have heq : a = b := of_decide_eq_true (Except.ok.inj h)
    exact ⟨a, ha, heq ▸ hb⟩
  · rintro ⟨n, hv, hw⟩
    rw [hv, hw]
    exact congrArg Except.ok (decide_eq_true rfl)

lemma sameKey_text {v w : Bytes} : SameKey .kText v w ↔ v = w := by
  simp [SameKey, compareLiterals, compareWith]

lemma SameKey.symm {type : ColumnType} {v w : Bytes} (h : SameKey type v w) : SameKey type w v := by
  cases type with
  | kText => exact sameKey_text.mpr (sameKey_text.mp h).symm
  | kInt =>
    obtain ⟨n, hv, hw⟩ := sameKey_int.mp h
    exact sameKey_int.mpr ⟨n, hw, hv⟩

lemma SameKey.trans {type : ColumnType} {u v w : Bytes} (h : SameKey type u v)
    (h' : SameKey type v w) : SameKey type u w := by
  cases type with
  | kText => exact sameKey_text.mpr ((sameKey_text.mp h).trans (sameKey_text.mp h'))
  | kInt =>
    obtain ⟨n, hu, hv⟩ := sameKey_int.mp h
    obtain ⟨m, hv', hw⟩ := sameKey_int.mp h'
    cases hv.symm.trans hv'
    exact sameKey_int.mpr ⟨n, hu, hw⟩

/-- The type of the primary key column. -/
def KeyType (schema : TableSchema) (type : ColumnType) : Prop :=
  ∃ idx col, schema.primaryKeyIndex = some idx ∧
    schema.columns[idx]? = some col ∧ col.type = type

/-- No two rows have keys that are equal. -/
def Distinct (table : Table) : Prop :=
  ∀ schema type, table.Loads schema → KeyType schema type →
    ∀ pk pk', table.rows pk ≠ none → table.rows pk' ≠ none →
      SameKey type pk pk' → pk = pk'

/-- The statement gives no `INT` key that is a stored one in another spelling. -/
def Spells (table : Table) : Statement → Prop
  | .insert s => ∀ schema column v pk, table.Loads schema → KeyType schema .kInt →
      (column, v) ∈ s.columns.zip s.values →
      schema.columnIndex column = schema.primaryKeyIndex → table.rows pk ≠ none →
        SameNumber pk v → pk = v
  | _ => True

section

variable {table table' : Table} {schema : TableSchema} {d t sql : Bytes} {stmt : Statement}

lemma KeyType.of_append {c : ColumnDef} {type : ColumnType} {idx : ℕ}
    (hidx : schema.primaryKeyIndex = some idx) (h : KeyType ⟨schema.columns ++ [c]⟩ type) :
    KeyType schema type := by
  obtain ⟨idx', col, hidx', hcol, htype⟩ := h
  rw [TableSchema.primaryKeyIndex, List.findIdx?_append] at hidx'
  have hlt := primaryKeyIndex_lt hidx
  rw [TableSchema.primaryKeyIndex] at hidx
  rw [hidx] at hidx'
  cases hidx'
  exact ⟨idx, col, hidx, (List.getElem?_append_left hlt).symm.trans hcol, htype⟩

lemma Distinct.of_rows (h : Distinct table) {rows : Bytes → Option Bytes}
    (hrows : ∀ pk, rows pk ≠ none → table.rows pk ≠ none) :
    Distinct { table with rows := rows } :=
  fun schema type hload htype pk pk' hpk hpk' =>
    h schema type hload htype pk pk' (hrows pk hpk) (hrows pk' hpk')

lemma insert_new {s : InsertStatement} {row : Row} {pk pk' : Bytes} {type : ColumnType}
    (hload : table.Loads schema) (hlen : s.columns.length = s.values.length)
    (hrow : insertRow schema s = .ok (row, pk)) (hspells : Spells table (.insert s))
    (htype : KeyType schema type) (hpk' : table.rows pk' ≠ none) (hsame : SameKey type pk' pk) :
    pk' = pk := by
  cases type with
  | kText => exact sameKey_text.mp hsame
  | kInt =>
    obtain ⟨-, hcells⟩ := insertRow_cells hlen hrow
    obtain ⟨-, -, idx, hidx, hcell⟩ := insertRow_spec hlen hrow
    obtain ⟨column, hgiven, hcolumn⟩ := hcells idx pk hcell
    exact hspells schema column pk pk' hload htype hgiven (hcolumn.trans hidx.symm) hpk'
      (sameKey_int.mp hsame)

/-- **One statement keeps the keys of a table distinct.** -/
lemma Distinct.moves {ok : Bytes → Prop} (h : Distinct table) (hfits : TableFits ok table)
    (hmove : Moves d t table stmt table') (hparse : parse sql = .ok stmt)
    (hsized : Sized stmt)
    (hspells : targetOf stmt = some (d, t) → Spells table stmt) : Distinct table' := by
  cases hmove with
  | same => exact h
  | create hnew =>
    cases hfits with
    | absent _ hempty => exact fun _ _ _ _ pk _ hpk => absurd (hempty pk) hpk
    | stored hschema =>
      rw [hnew] at hschema
      cases hschema
  | @addColumn c schema v hload hnew hdefault htext =>
    intro schema' type hload' htype pk pk' hpk hpk'
    obtain ⟨-, hrows⟩ := hfits.loaded hload
    obtain ⟨blob, hblob⟩ := Option.ne_none_iff_exists'.mp hpk
    obtain ⟨full, hfull⟩ := hrows pk blob hblob
    obtain ⟨idx, hidx, -⟩ := hfull.cell
    obtain rfl := Loads.extend hload hsized hload'
    exact h schema type hload (.of_append hidx htype) pk pk' hpk hpk'
  | @insert columns values schema row pk hload hrow hfree =>
    have hnew : ∀ {type pk'}, KeyType schema type → table.rows pk' ≠ none →
        SameKey type pk' pk → pk' = pk :=
      insert_new hload (parse_insert hparse) hrow (hspells rfl)
    intro schema' type hload' htype a b ha hb hsame
    obtain rfl : schema' = schema := Loads.unique hload hload'
    dsimp only at ha hb
    rw [Function.update_apply] at ha hb
    split_ifs at ha hb with hae hbe hbe
    · exact hae.trans hbe.symm
    · exact (hae.trans (hnew htype hb (hae ▸ hsame.symm)).symm)
    · exact hbe ▸ hnew htype ha (hbe ▸ hsame)
    · exact h _ type hload htype a b ha hb hsame
  | @update assignments whereClause schema checked rows hload hchecked hmoved =>
    refine h.of_rows fun pk hpk => ?_
    rcases hmoved pk with hkept | ⟨blob, blob', hblob, -, -⟩
    · exact hkept ▸ hpk
    · rw [hblob]
      exact Option.some_ne_none blob
  | @delete whereClause rows hmoved =>
    refine h.of_rows fun pk hpk => ?_
    rcases hmoved pk with hkept | hgone
    · exact hkept ▸ hpk
    · exact absurd hgone hpk

end

/-! ### Every store -/

/-- What the text stores fits its fields, and it is no `INSERT` of an `INT` key that is a stored one
in another spelling. -/
def Spelling (store : Store) (sql : Bytes) : Prop :=
  ∀ stmt, parse sql = .ok stmt → Sized stmt ∧ ∀ d t, targetOf stmt = some (d, t) →
    Spells (tableAt store d t) stmt

/-- No two rows of the table have cells in the primary key column that compare as equal, and no two
satisfy a `WHERE` that asks for a key. -/
structure KeysUnique (store : Store) (d t : Bytes) (schema : TableSchema) : Prop where
  cells : ∀ kv ∈ scan store (rowPrefix d t), ∀ kv' ∈ scan store (rowPrefix d t),
    ∀ full full' idx col v v', Pads schema kv.2 full → Pads schema kv'.2 full' →
      schema.primaryKeyIndex = some idx → schema.columns[idx]? = some col →
      full[idx]? = some v → full'[idx]? = some v' →
      compareLiterals col.type v .kEq v' = .ok true → kv = kv'
  matches_one : ∀ whereClause, ∀ cond ∈ whereClause, cond.op = .kEq →
    schema.columnIndex cond.column = schema.primaryKeyIndex →
    ∀ kv ∈ scan store (rowPrefix d t), ∀ kv' ∈ scan store (rowPrefix d t), ∀ row row',
      matchRow schema whereClause kv.2 = .ok (some row) →
      matchRow schema whereClause kv'.2 = .ok (some row') → kv = kv'

section

variable {store : Store} {d t : Bytes} {schema : TableSchema}

lemma storing_of_spelling {store : Store} {sql : Bytes} (h : Spelling store sql) :
    Storing IntText store sql :=
  fun stmt hparse => ⟨(h stmt hparse).1, fun _ _ _ _ _ htext => htext⟩

lemma distinct_of_reach (hd : IsName d) (ht : IsName t)
    (h : Reach (StepOf after) Spelling .empty store) : Distinct (tableAt store d t) := by
  refine h.invariant_of (I := fun store => Distinct (tableAt store d t))
    (fun store h => tableFits_of_reach hd ht (h.mono fun _ _ => storing_of_spelling))
    (fun _ _ _ _ _ _ hpk => absurd rfl hpk) ?_
  rintro store sql _ hfits - hdistinct hsql rfl
  cases hparse : parse sql with
  | error e => rwa [after_of_error hparse]
  | ok stmt =>
    obtain ⟨hsized, hspells⟩ := hsql stmt hparse
    exact hdistinct.moves hfits (moves hparse hd ht) hparse hsized (hspells d t)

lemma Distinct.same_row (h : Distinct (tableAt store d t))
    (hload : (tableAt store d t).Loads schema) {kv kv' : Bytes × Bytes} {pk pk' : Bytes}
    {type : ColumnType} (hkey : kv.1 = rowKey d t pk) (hkey' : kv'.1 = rowKey d t pk')
    (hrow : (tableAt store d t).rows pk = some kv.2)
    (hrow' : (tableAt store d t).rows pk' = some kv'.2) (htype : KeyType schema type)
    (hsame : SameKey type pk pk') : kv = kv' := by
  obtain rfl := h schema type hload htype pk pk' (by rw [hrow]; simp) (by rw [hrow']; simp) hsame
  exact Prod.ext (hkey.trans hkey'.symm) (Option.some.inj (hrow.symm.trans hrow'))

/-- **Primary keys are unique under the executor's own equality**, as long as no `INSERT` gives a
stored `INT` key in another spelling. -/
theorem keys_unique (h : Reach (StepOf after) Spelling .empty store) (hd : IsName d)
    (ht : IsName t) (hload : loadSchema store d t = .ok schema) : KeysUnique store d t schema := by
  have hloads := loadSchema_eq_ok.mp hload
  have hdistinct := distinct_of_reach hd ht h
  have hfits := tableFits_of_reach hd ht (h.mono fun _ _ => storing_of_spelling)
  refine ⟨fun kv hkv kv' hkv' full full' idx col v v' hpads hpads' hidx hcol hv hv' hcompare =>
    ?_, fun whereClause cond hcond hop hcolumn kv hkv kv' hkv' row row' hmatch hmatch' => ?_⟩
  · obtain ⟨pk, _, hkey, hrow, hrowFits⟩ := row_of_scan hfits hloads hkv
    obtain ⟨pk', _, hkey', hrow', hrowFits'⟩ := row_of_scan hfits hloads hkv'
    obtain rfl := hrowFits.pk_of_pads hpads hidx hv
    obtain rfl := hrowFits'.pk_of_pads hpads' hidx hv'
    exact hdistinct.same_row hloads hkey hkey' hrow hrow' ⟨idx, col, hidx, hcol, rfl⟩ hcompare
  · obtain ⟨pk, _, hkey, hrow, hrowFits⟩ := row_of_scan hfits hloads hkv
    obtain ⟨pk', _, hkey', hrow', hrowFits'⟩ := row_of_scan hfits hloads hkv'
    obtain rfl := hrowFits.pads.eq_of_matchRow hmatch
    obtain rfl := hrowFits'.pads.eq_of_matchRow hmatch'
    -- both cells are equal to the literal
    obtain ⟨idx, col, v, hidx, hcol, hv, hcompare⟩ :=
      matchesWhere_spec whereClause (matchRow_spec hmatch).1 cond hcond
    obtain ⟨idx', col', v', hidx', hcol', hv', hcompare'⟩ :=
      matchesWhere_spec whereClause (matchRow_spec hmatch').1 cond hcond
    cases hidx.symm.trans hidx'
    cases hcol.symm.trans hcol'
    have hpkIdx := hcolumn.symm.trans hidx
    obtain rfl := hrowFits.pk_of_pads hrowFits.pads hpkIdx hv
    obtain rfl := hrowFits'.pk_of_pads hrowFits'.pads hpkIdx hv'
    rw [hop] at hcompare hcompare'
    exact hdistinct.same_row hloads hkey hkey' hrow hrow' ⟨idx, col, hpkIdx, hcol, rfl⟩
      (SameKey.trans hcompare (SameKey.symm hcompare'))

end

/-- A text meets the condition if it is no `INSERT`, or none of its values is the number of a stored
key in another spelling. -/
lemma spelling_of_scan {store : Store} {sql : Bytes} (stmt : Statement) (hsql : sql.length < 2 ^ 32)
    (hparse : parse sql = .ok stmt) (h : ∀ s, stmt = .insert s → ∀ v ∈ s.values,
      ∀ kv ∈ scan store (rowPrefix s.dbName s.tableName), ∀ pk,
        kv.1 = rowKey s.dbName s.tableName pk → SameNumber pk v → pk = v) :
          Spelling store sql := by
  intro stmt' hparse'
  cases hparse.symm.trans hparse'
  refine ⟨sized_of_parse hparse hsql, fun d t htarget => ?_⟩
  cases stmt with
  | insert s =>
    cases htarget
    intro schema column v pk _ _ hgiven _ hpk hsame
    obtain ⟨blob, hblob⟩ := Option.ne_none_iff_exists'.mp hpk
    exact h s rfl v (List.of_mem_zip hgiven).2 (rowKey _ _ pk, blob)
      (mem_scan.mpr ⟨prefix_rowKey _ _ _, hblob⟩) pk rfl hsame
  | _ => trivial

def twoKeys : List Bytes := [
  text "CREATE DATABASE d",
  text "CREATE TABLE d.t (k INT PRIMARY KEY)",
  text "INSERT INTO d.t (k) VALUES (1)",
  text "INSERT INTO d.t (k) VALUES (2)"]

theorem keys_unique_twoKeys : KeysUnique (runAll .empty twoKeys) (text "d") (text "t")
    ⟨[⟨text "k", .kInt, true, none⟩]⟩ := by
  have h₁ : Spelling .empty (text "CREATE DATABASE d") :=
    spelling_of_scan (.createDatabase ⟨text "d"⟩) (by decide +kernel) (by decide +kernel) nofun
  have h₂ : Spelling (runAll .empty (twoKeys.take 1))
      (text "CREATE TABLE d.t (k INT PRIMARY KEY)") :=
    spelling_of_scan (.createTable ⟨text "d", text "t", [⟨text "k", .kInt, true, none⟩]⟩)
      (by decide +kernel) (by decide +kernel) nofun
  have h₃ : Spelling (runAll .empty (twoKeys.take 2))
      (text "INSERT INTO d.t (k) VALUES (1)") := by
    have hscan : scan (runAll .empty (twoKeys.take 2)) (rowPrefix (text "d") (text "t")) = [] := by
      decide +kernel
    refine spelling_of_scan (.insert ⟨text "d", text "t", [text "k"], [text "1"]⟩)
      (by decide +kernel) (by decide +kernel) ?_
    rintro _ ⟨⟩ v - kv hkv
    rw [hscan] at hkv
    cases hkv
  have h₄ : Spelling (runAll .empty (twoKeys.take 3))
      (text "INSERT INTO d.t (k) VALUES (2)") := by
    have hscan : scan (runAll .empty (twoKeys.take 3)) (rowPrefix (text "d") (text "t")) =
        [(rowKey (text "d") (text "t") (text "1"), encodeRow [text "1"])] := by
      decide +kernel
    refine spelling_of_scan (.insert ⟨text "d", text "t", [text "k"], [text "2"]⟩)
      (by decide +kernel) (by decide +kernel) ?_
    rintro _ ⟨⟩ v hv kv hkv pk hkey ⟨n, hn, hn'⟩
    rw [hscan, List.mem_singleton] at hkv
    rw [List.mem_singleton] at hv
    subst hkv hv
    obtain rfl := rowKey_inj.mp hkey
    -- the stored key is the number 1
    have hone : stoll (text "1") = .ok 1 := by decide
    have htwo : stoll (text "2") = .ok 2 := by decide
    cases hone.symm.trans hn
    cases htwo.symm.trans hn'
  have hreach : Reach (StepOf after) Spelling .empty (runAll .empty twoKeys) := by
    refine reach_runAll fun i sql hi => ?_
    rcases i with _ | _ | _ | _ | i
    · cases hi
      exact h₁
    · cases hi
      exact h₂
    · cases hi
      exact h₃
    · cases hi
      exact h₄
    · cases hi
  exact keys_unique hreach (by unfold IsName; decide +kernel) (by unfold IsName; decide +kernel)
    (by decide +kernel)

def spellings : List Bytes := [
  text "CREATE DATABASE d",
  text "CREATE TABLE d.t (k INT PRIMARY KEY)",
  text "INSERT INTO d.t (k) VALUES (01)",
  text "INSERT INTO d.t (k) VALUES (1)"]

/-- **Where a key names two rows**: `01` and `1` are two keys and one number. -/
theorem two_spellings : ¬ ∀ sqls d t schema, IsName d → IsName t →
    loadSchema (runAll .empty sqls) d t = .ok schema →
    KeysUnique (runAll .empty sqls) d t schema := by
  intro hall
  let key (pk : Bytes) : Bytes × Bytes := (rowKey (text "d") (text "t") pk, encodeRow [pk])
  let schema : TableSchema := ⟨[⟨text "k", .kInt, true, none⟩]⟩
  let isOne : Condition := ⟨text "k", .kEq, text "1"⟩
  have hload : loadSchema (runAll .empty spellings) (text "d") (text "t") = .ok schema := by
    decide +kernel
  have hscan : scan (runAll .empty spellings) (rowPrefix (text "d") (text "t")) =
      [key (text "01"), key (text "1")] := by
    decide +kernel
  have hmatch : ∀ pk ∈ [text "01", text "1"],
      matchRow schema [isOne] (encodeRow [pk]) = .ok (some [pk]) := by
    decide +kernel
  have hsame := (hall spellings _ _ schema (by unfold IsName; decide +kernel)
    (by unfold IsName; decide +kernel) hload).matches_one [isOne] isOne List.mem_cons_self rfl rfl
    (key (text "01")) (by simp [hscan]) (key (text "1")) (by simp [hscan]) _ _
    (hmatch _ (by simp)) (hmatch _ (by simp))
  exact absurd (congrArg Prod.fst hsame) (by decide)

end DistDB.SqlKeys
