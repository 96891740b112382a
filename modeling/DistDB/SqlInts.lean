import DistDB.FormattedInput
import DistDB.SqlCells

/-!
Which `INT` literals can be compared. The check of a literal takes digits of any number, and a
comparison reads a number of 64 bits: a literal that passes the check is compared as the number it
denotes exactly if that fits (`compares_iff`).

If every literal that is stored fits, every `WHERE` whose own literals fit can be evaluated on every
row, whatever statement stored or added its cells.
-/

namespace DistDB.SqlInts

open SqlParser SqlExecutor SqlTexts SqlRuns SqlAtomic SqlStore SqlFrame SqlAlter SqlTables SqlCells
open Checks Bytes

/-- The number that a literal denotes. -/
def intValue (v : Bytes) : ℤ :=
  if v.head? = some (chr '-') then - (digitsValue (digits v) : ℤ) else digitsValue (digits v)

/-- The number has 64 bits. -/
def InRange (v : Bytes) : Prop := - 2 ^ 63 ≤ intValue v ∧ intValue v < 2 ^ 63

instance (v : Bytes) : Decidable (InRange v) := inferInstanceAs (Decidable (_ ∧ _))

/-- An `INT` literal that fits. -/
def Fits (v : Bytes) : Prop := IntText v ∧ InRange v

/-- The literal is compared as the number it denotes, on either side, with every literal that
fits. -/
def Comparable (v : Bytes) : Prop :=
  ∀ op w, Fits w →
    compareLiterals .kInt v op w = .ok (compareWith (intValue v) op (intValue w)) ∧
    compareLiterals .kInt w op v = .ok (compareWith (intValue w) op (intValue v))

lemma stoll_intText {v : Bytes} (h : IntText v) :
    stoll v = if InRange v then .ok (intValue v) else .error .outOfRange := by
  obtain ⟨hne, hall⟩ := h
  have hdigits : (digits v).takeWhile SqlLexer.isDigit = digits v :=
    List.takeWhile_eq_self_iff.mpr hall
  have hdigit : ∀ c, SqlLexer.isDigit c → SqlLexer.isSpace c = false ∧
      c ≠ chr '-' ∧ c ≠ chr '+' :=
    fun c hc => FormattedInput.isDigit_not_space hc
  obtain ⟨c, s, rfl⟩ : ∃ c s, v = c :: s := by
    cases v with
    | nil => exact absurd rfl hne
    | cons c s => exact ⟨c, s, rfl⟩
  -- the first character is the sign or a digit, so no blank is skipped
  have hfirst : SqlLexer.isSpace c = false ∧ c ≠ chr '+' := by
    by_cases hc : c = chr '-'
    · subst hc
      decide
    · have hhead : digits (c :: s) = c :: s := by simp [digits, hc]
      obtain ⟨hspace, -, hplus⟩ := hdigit c (hall c (by simp [hhead]))
      exact ⟨hspace, hplus⟩
  have hskip : (c :: s).dropWhile SqlLexer.isSpace = c :: s := by
    simp [hfirst.1]
  have hsign : (if (c :: s).head? = some (chr '-') ∨ (c :: s).head? = some (chr '+') then
      (c :: s).tail else c :: s) = digits (c :: s) := by
    simp [digits, hfirst.2]
  have hempty : (digits (c :: s)).isEmpty = false := by simpa using hne
  unfold stoll
  simp only [hskip, hsign, hdigits, hempty, Bool.false_eq_true, if_false]
  show (if intValue (c :: s) < - 2 ^ 63 ∨ 2 ^ 63 ≤ intValue (c :: s) then _ else
    Except.ok (intValue (c :: s))) = _
  by_cases hrange : InRange (c :: s)
  · rw [if_pos hrange, if_neg]
    exact not_or.mpr ⟨not_lt.mpr hrange.1, not_le.mpr hrange.2⟩
  · rw [if_neg hrange, if_pos]
    by_contra hno
    obtain ⟨hlo, hhi⟩ := not_or.mp hno
    exact hrange ⟨not_lt.mp hlo, not_le.mp hhi⟩

lemma stoll_fits {v : Bytes} (h : Fits v) : stoll v = .ok (intValue v) := by
  rw [stoll_intText h.1, if_pos h.2]

lemma compareLiterals_fits {v w : Bytes} (hv : Fits v) (hw : Fits w) (op : CompareOp) :
    compareLiterals .kInt v op w = .ok (compareWith (intValue v) op (intValue w)) := by
  unfold compareLiterals
  rw [stoll_fits hv, stoll_fits hw]
  rfl

/-- **A literal that passes the check can be compared** exactly if it fits. -/
theorem comparable_iff {v : Bytes} (h : IntText v) : Comparable v ↔ InRange v := by
  constructor
  · intro hv
    by_contra hrange
    have hzero : Fits (text "0") := ⟨⟨by decide, by decide +kernel⟩, by decide⟩
    have hthrows : compareLiterals .kInt v .kEq (text "0") = .error .outOfRange := by
      unfold compareLiterals
      rw [stoll_intText h, if_neg hrange]
      rfl
    rw [(hv .kEq (text "0") hzero).1] at hthrows
    cases hthrows
  · exact fun hrange op w hw =>
      ⟨compareLiterals_fits ⟨h, hrange⟩ hw op, compareLiterals_fits hw ⟨h, hrange⟩ op⟩

/-- The columns exist, and a literal for an `INT` column is one and fits. -/
def WhereFits (schema : TableSchema) (whereClause : List Condition) : Prop :=
  ∀ cond ∈ whereClause, ∃ idx col, schema.columnIndex cond.column = some idx ∧
    schema.columns[idx]? = some col ∧ (col.type = .kInt → Fits cond.literal)

/-- A `SELECT`, `UPDATE` or `DELETE` whose table, columns and literals are valid. -/
def Valid (store : Store) : Statement → Prop
  | .select s => ∃ schema, loadSchema store s.dbName s.tableName = .ok schema ∧
      (∀ c ∈ s.columns, schema.columnIndex c ≠ none) ∧ WhereFits schema s.whereClause
  | .update s => ∃ schema, loadSchema store s.dbName s.tableName = .ok schema ∧
      (∀ a ∈ s.assignments, Takes schema a.1 a.2 ∧
        schema.columnIndex a.1 ≠ schema.primaryKeyIndex) ∧ WhereFits schema s.whereClause
  | .delete s => ∃ schema, loadSchema store s.dbName s.tableName = .ok schema ∧
      WhereFits schema s.whereClause
  | _ => False

section

variable {schema : TableSchema} {whereClause : List Condition} {row : Row} {pk blob : Bytes}

lemma matchesWhere_succeeds (hwhere : WhereFits schema whereClause)
    (hlen : row.length = schema.columns.length) (hints : IntsOk Fits schema row) :
    Succeeds (matchesWhere schema row whereClause) := by
  induction whereClause with
  | nil => exact ⟨true, rfl⟩
  | cons cond conds ih =>
    obtain ⟨⟨idx, col, hidx, hcol, hliteral⟩, hconds⟩ := List.forall_mem_cons.mp hwhere
    have hlt : idx < row.length := hlen ▸ columnIndex_lt hidx
    have hcell : row[idx]? = some row[idx] := List.getElem?_eq_getElem hlt
    have hcompare : Succeeds (compareLiterals col.type row[idx] cond.op cond.literal) := by
      cases htype : col.type with
      | kText => exact ⟨_, rfl⟩
      | kInt =>
        exact ⟨_, compareLiterals_fits (hints idx col _ hcol hcell htype) (hliteral htype) _⟩
    obtain ⟨holds, hholds⟩ := hcompare
    rw [matchesWhere]
    refine succeeds_bind.mpr ⟨idx, indexOf_eq_ok.mpr hidx, succeeds_bind.mpr
      ⟨col, columnAt_eq_ok.mpr hcol, succeeds_bind.mpr ⟨row[idx], ?_,
        succeeds_bind.mpr ⟨holds, hholds, ?_⟩⟩⟩⟩
    · rw [cell, hcell]
    · cases holds with
      | true => exact ih hconds
      | false => exact ⟨false, rfl⟩

lemma matchRow_succeeds {full : Row} (h : RowFits Fits schema pk blob full)
    (hwhere : WhereFits schema whereClause) : Succeeds (matchRow schema whereClause blob) := by
  obtain ⟨row, hrow, hpad, -, hlen⟩ := h.pads
  obtain ⟨found, hfound⟩ := matchesWhere_succeeds hwhere hlen h.ints
  refine succeeds_bind.mpr ⟨row, hrow, succeeds_bind.mpr ⟨full, hpad, succeeds_bind.mpr
    ⟨found, hfound, succeeds_pure _⟩⟩⟩

end

/-! ### Runs -/

variable {store : Store}

lemma filters (h : Reach (StepOf after) (Storing Fits) .empty store) {d t : Bytes}
    {schema : TableSchema} {whereClause : List Condition} (hd : IsName d) (ht : IsName t)
    (hload : loadSchema store d t = .ok schema) (hwhere : WhereFits schema whereClause) :
    Filters store schema d t whereClause := by
  intro kv hkv
  obtain ⟨pk, full, -, -, hfull⟩ :=
    row_of_scan (tableFits_of_reach hd ht h) (loadSchema_eq_ok.mp hload) hkv
  exact matchRow_succeeds hfull hwhere

lemma valid_succeeds (h : Reach (StepOf after) (Storing Fits) .empty store) {sql : Bytes}
    {stmt : Statement} (hparse : parse sql = .ok stmt) (hvalid : Valid store stmt) :
    Succeeds (execute store sql).2 := by
  refine (execute_succeeds store sql).mpr ⟨stmt, hparse, ?_⟩
  cases stmt with
  | select s =>
    obtain ⟨schema, hload, hcolumns, hwhere⟩ := hvalid
    obtain ⟨hd, ht⟩ := target_names hparse rfl
    exact ⟨schema, hload, hcolumns, filters h hd ht hload hwhere⟩
  | update s =>
    obtain ⟨schema, hload, hassignments, hwhere⟩ := hvalid
    obtain ⟨hd, ht⟩ := target_names hparse rfl
    exact ⟨schema, hload, hassignments, filters h hd ht hload hwhere⟩
  | delete s =>
    obtain ⟨schema, hload, hwhere⟩ := hvalid
    obtain ⟨hd, ht⟩ := target_names hparse rfl
    exact ⟨schema, hload, filters h hd ht hload hwhere⟩
  | createTable s | insert s | alterTableAddColumn s | showTables s | createDatabase s
    | showDatabases => exact hvalid.elim

/-- **Which numbers can be compared**: a literal that the check takes, of any length, is compared as
the number it denotes exactly if that has 64 bits; and in a store that is reached while every
literal that is stored in an `INT` column has, every valid `SELECT`, `UPDATE` and `DELETE` runs. -/
theorem compares_iff {column v : Bytes} (hv : validateIntLiteral column v = .ok ())
    (h : Reach (StepOf after) (Storing InRange) .empty store) :
    (Comparable v ↔ InRange v) ∧
      ∀ sql stmt, parse sql = .ok stmt → Valid store stmt →
        Succeeds (execute store sql).2 := by
  have hstoring : Reach (StepOf after) (Storing Fits) .empty store :=
    h.mono fun store sql hsql stmt hparse => ⟨(hsql stmt hparse).1,
      fun d t v htarget hstores htext =>
        ⟨htext, (hsql stmt hparse).2 d t v htarget hstores htext⟩⟩
  exact ⟨comparable_iff ((validateIntLiteral_succeeds column v).mp ⟨_, hv⟩),
    fun sql stmt => valid_succeeds hstoring⟩

lemma storing_of_parse {ok : Bytes → Prop} {sql : Bytes} {stmt : Statement}
    (hparse : parse sql = .ok stmt) (hsql : sql.length < 2 ^ 32)
    (hstores : ∀ table v, Stores table stmt v → ok v) : Storing ok store sql := by
  intro stmt' hstmt'
  cases hparse.symm.trans hstmt'
  exact ⟨sized_of_parse hparse hsql, fun d t v _ hv _ => hstores _ v hv⟩

def oneNumber : List Bytes := [
  text "CREATE DATABASE d",
  text "CREATE TABLE d.t (k TEXT PRIMARY KEY, n INT)",
  text "INSERT INTO d.t (k, n) VALUES ('a', -5)"]

theorem compares_iff_oneNumber : (Comparable (text "-5") ↔ InRange (text "-5")) ∧
    Succeeds (execute (runAll .empty oneNumber) (text "SELECT * FROM d.t WHERE n < 1")).2 := by
  have hreach : Reach (StepOf after) (Storing InRange) .empty (runAll .empty oneNumber) := by
    refine reach_runAll fun i sql hi => ?_
    rcases i with _ | _ | _ | i
    · cases hi
      exact @storing_of_parse _ _ _ (.createDatabase ⟨text "d"⟩) (by decide +kernel)
        (by decide +kernel) nofun
    · cases hi
      exact @storing_of_parse _ _ _ (.createTable ⟨text "d", text "t",
        [⟨text "k", .kText, true, none⟩, ⟨text "n", .kInt, false, none⟩]⟩)
        (by decide +kernel)
        (by decide +kernel) nofun
    · cases hi
      refine @storing_of_parse _ _ _ (.insert ⟨text "d", text "t", [text "k", text "n"],
        [text "a", text "-5"]⟩) (by decide +kernel) (by decide +kernel) ?_
      rintro _ v ⟨_, column, _, _, -, hgiven, -⟩
      have hvalues : ∀ v ∈ [text "a", text "-5"], InRange v := by decide
      exact hvalues v (List.of_mem_zip hgiven).2
    · cases hi
  obtain ⟨hiff, hruns⟩ := @compares_iff _ (text "n") (text "-5") (by decide) hreach
  refine ⟨hiff, hruns _ (.select ⟨text "d", text "t", [], [⟨text "n", .kLt, text "1"⟩]⟩)
    (by decide +kernel) ⟨⟨[⟨text "k", .kText, true, none⟩,
      ⟨text "n", .kInt, false, none⟩]⟩, by decide +kernel, nofun,
        List.forall_mem_singleton.mpr
          ⟨1, _, rfl, rfl, fun _ => ⟨⟨by decide, by decide +kernel⟩, by decide⟩⟩⟩⟩

/-- **A number that does not fit** is stored, throws in every comparison, and then no `WHERE` on its
column can be evaluated. -/
theorem huge_throws :
    (¬ ∀ column v, validateIntLiteral column v = .ok () → Comparable v) ∧
      ¬ ∀ sqls sql stmt, parse sql = .ok stmt → Valid (runAll .empty sqls) stmt →
        Succeeds (execute (runAll .empty sqls) sql).2 := by
  refine ⟨fun hall => ?_, fun hall => ?_⟩
  · have hhuge := hall (text "n") (text "99999999999999999999") (by decide)
    rw [comparable_iff ⟨by decide, by decide +kernel⟩] at hhuge
    exact absurd hhuge (by decide)
  · have hparse : parse (text "SELECT * FROM d.t WHERE n = 1") =
        .ok (.select ⟨text "d", text "t", [], [⟨text "n", .kEq, text "1"⟩]⟩) := by
      decide +kernel
    have hload : loadSchema (runAll .empty twoRows) (text "d") (text "t") =
        .ok ⟨[⟨text "k", .kText, true, none⟩, ⟨text "n", .kInt, false, none⟩]⟩ := by
      decide +kernel
    obtain ⟨out, hout⟩ := hall twoRows _ _ hparse
      ⟨_, hload, nofun, List.forall_mem_singleton.mpr
        ⟨1, _, rfl, rfl, fun _ => ⟨⟨by decide, by decide +kernel⟩, by decide⟩⟩⟩
    have hthrows : (execute (runAll .empty twoRows) (text "SELECT * FROM d.t WHERE n = 1")).2 =
        .error .outOfRange := by
      decide +kernel
    rw [hthrows] at hout
    cases hout

end DistDB.SqlInts
