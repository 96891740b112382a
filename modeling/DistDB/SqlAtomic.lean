import DistDB.SqlRuns

/-!
Whether a statement that throws has changed anything.

Most statements check everything before they write once. `UPDATE` and `DELETE` write each row
before they look at the next one, and looking at a row may throw: an `INT` cell may hold a
number that no comparison can read. Then the rows before it stay as they have been rewritten
(`throws_after_writing`). Exactly when that does not happen, a statement that throws leaves the
store as it was (`failsClean_iff`).
-/

namespace DistDB.SqlAtomic

open SqlParser SqlExecutor WalModel EngineMap Checks

lemma find_applyAll {store : Store} {writes : List Mutation} {k : Bytes}
    (h : ∀ mu ∈ writes, mu.record.key ≠ k) :
    (applyAll store writes).find k = store.find k := by
  induction writes generalizing store with
  | nil => rfl
  | cons mu writes ih =>
    rw [applyAll, List.foldl_cons]
    refine (ih fun mu' hmu' => h mu' (List.mem_cons_of_mem _ hmu')).trans ?_
    rw [find_applyTo, if_neg (Ne.symm (h mu List.mem_cons_self))]

lemma applyAll_eq_self {store : Store} {writes : List Mutation}
    (hkeys : writes.Pairwise fun a b => a.record.key ≠ b.record.key) :
    applyAll store writes = store ↔ ∀ mu ∈ writes, applyTo store mu = store := by
  induction writes with
  | nil => simp [applyAll]
  | cons mu writes ih =>
    obtain ⟨hne, hkeys⟩ := List.pairwise_cons.mp hkeys
    have hfirst : (applyAll store (mu :: writes)).find mu.record.key =
        (applyTo store mu).find mu.record.key :=
      find_applyAll fun mu' hmu' => (hne mu' hmu').symm
    have hself : applyAll store (mu :: writes) = store → applyTo store mu = store := by
      intro h
      refine OrdMap.ext_find fun k => ?_
      by_cases hk : k = mu.record.key
      · rw [hk, ← hfirst, h]
      · rw [find_applyTo, if_neg hk]
    rw [List.forall_mem_cons]
    constructor
    · intro h
      have hmu := hself h
      refine ⟨hmu, (ih hkeys).mp ?_⟩
      rwa [applyAll, List.foldl_cons, hmu] at h
    · rintro ⟨hmu, hrest⟩
      rw [applyAll, List.foldl_cons, hmu]
      exact (ih hkeys).mpr hrest

/-! ### The row loops -/

/-- What a row loop does to one row: what it writes, if the row satisfies the `WHERE`. -/
def rowChange (schema : TableSchema) (whereClause : List Condition)
    (write : Bytes → Row → Except Exception Mutation) (kv : Bytes × Bytes) :
    Except Exception (Option Mutation) := do
  match ← matchRow schema whereClause kv.2 with
  | none => return none
  | some row => return some (← write kv.1 row)

/-- Before the first row on which the loop throws it has changed no row. -/
def CleanRows (store : Store) (change : Bytes × Bytes → Except Exception (Option Mutation))
    (rows : List (Bytes × Bytes)) : Prop :=
  ∀ before row after, rows = before ++ row :: after →
    (∀ r ∈ before, Succeeds (change r)) → ¬ Succeeds (change row) →
    ∀ r ∈ before, ∀ mu, change r = .ok (some mu) → applyTo store mu = store

section

variable {schema : TableSchema} {whereClause : List Condition}
  {write : Bytes → Row → Except Exception Mutation}

lemma rowChange_of_error (kv : Bytes × Bytes) {e : Exception}
    (h : matchRow schema whereClause kv.2 = .error e) :
    rowChange schema whereClause write kv = .error e := by
  unfold rowChange
  rw [h]
  rfl

lemma rowChange_of_none (kv : Bytes × Bytes) (h : matchRow schema whereClause kv.2 = .ok none) :
    rowChange schema whereClause write kv = .ok none := by
  unfold rowChange
  rw [h]
  rfl

lemma rowChange_of_some (kv : Bytes × Bytes) {row : Row}
    (h : matchRow schema whereClause kv.2 = .ok (some row)) :
    rowChange schema whereClause write kv = (write kv.1 row).map some := by
  unfold rowChange
  rw [h]
  show (write kv.1 row >>= fun mu => pure (some mu)) = _
  cases write kv.1 row <;> rfl

lemma writeRows_throws {rows : List (Bytes × Bytes)} {e : Exception}
    (h : (writeRows schema whereClause write rows).2 = .error e) :
    ∃ before row after, rows = before ++ row :: after ∧
      (∀ r ∈ before, Succeeds (rowChange schema whereClause write r)) ∧
      ¬ Succeeds (rowChange schema whereClause write row) ∧
      ∀ mu, mu ∈ (writeRows schema whereClause write rows).1 ↔
        ∃ r ∈ before, rowChange schema whereClause write r = .ok (some mu) := by
  induction rows with
  | nil => cases h
  | cons kv rows ih =>
    obtain ⟨key, blob⟩ := kv
    rw [writeRows] at h ⊢
    rcases hmatch : matchRow schema whereClause blob with e' | _ | row
    · refine ⟨[], (key, blob), rows, rfl, by simp, ?_, by simp⟩
      rw [rowChange_of_error (key, blob) hmatch]
      exact succeeds_error _
    · rw [hmatch] at h
      obtain ⟨before, row, after, rfl, hbefore, hrow, hwrites⟩ := ih h
      have hnone := @rowChange_of_none _ _ write (key, blob) hmatch
      refine ⟨(key, blob) :: before, row, after, rfl, ?_, hrow, fun mu => ?_⟩
      · exact List.forall_mem_cons.mpr ⟨⟨_, hnone⟩, hbefore⟩
      · simp [hwrites, hnone]
    · have hsome := @rowChange_of_some _ _ write (key, blob) _ hmatch
      rw [hmatch] at h
      rcases hwrite : write key row with e' | mu₀
      · refine ⟨[], (key, blob), rows, rfl, by simp, ?_, by simp [hwrite]⟩
        rw [hsome, hwrite]
        exact succeeds_error _
      · simp only [hwrite] at h hsome ⊢
        obtain ⟨before, row', after, rfl, hbefore, hrow, hwrites⟩ := ih (by
          cases hrest : (writeRows schema whereClause write rows).2 with
          | error e' => rw [hrest] at h; cases h; rfl
          | ok n => rw [hrest] at h; cases h)
        refine ⟨(key, blob) :: before, row', after, rfl, ?_, hrow, fun mu => ?_⟩
        · exact List.forall_mem_cons.mpr ⟨⟨_, hsome⟩, hbefore⟩
        · simp only [List.mem_cons, hwrites, exists_eq_or_imp]
          rw [hsome]
          simp [Except.map, eq_comm]

lemma writeRows_keys (hwrite : ∀ key row mu, write key row = .ok mu → mu.record.key = key)
    (rows : List (Bytes × Bytes)) :
    List.Sublist ((writeRows schema whereClause write rows).1.map fun mu => mu.record.key)
      (rows.map Prod.fst) := by
  induction rows with
  | nil => exact .slnil
  | cons kv rows ih =>
    obtain ⟨key, blob⟩ := kv
    rw [writeRows, List.map_cons]
    rcases hmatch : matchRow schema whereClause blob with e | _ | row
    · exact List.nil_sublist _
    · exact ih.cons _
    · rcases hmu : write key row with e | mu
      · simp [hmu]
      · simp only [hmu, List.map_cons, hwrite key row mu hmu]
        exact ih.cons_cons _

lemma writeRows_distinct (hwrite : ∀ key row mu, write key row = .ok mu → mu.record.key = key)
    {rows : List (Bytes × Bytes)} (hrows : OrdMap.Asc rows) :
    (writeRows schema whereClause write rows).1.Pairwise fun a b =>
    a.record.key ≠ b.record.key := by
  rw [← List.pairwise_map]
  refine List.Pairwise.sublist (writeRows_keys hwrite rows) ?_
  exact List.pairwise_map.mpr (hrows.imp fun h => ne_of_lt h)

/-- The loop throws at the first row that throws, and has written what the rows before made. -/
lemma writeRows_append {before : List (Bytes × Bytes)} (after : List (Bytes × Bytes))
    {row : Bytes × Bytes}
    (hbefore : ∀ r ∈ before, Succeeds (rowChange schema whereClause write r))
    (hrow : ¬ Succeeds (rowChange schema whereClause write row)) :
    (∃ e, (writeRows schema whereClause write (before ++ row :: after)).2 = .error e) ∧
    ∀ r ∈ before, ∀ mu, rowChange schema whereClause write r = .ok (some mu) →
      mu ∈ (writeRows schema whereClause write (before ++ row :: after)).1 := by
  induction before with
  | nil =>
    obtain ⟨key, blob⟩ := row
    refine ⟨?_, by simp⟩
    rw [List.nil_append, writeRows]
    rcases hmatch : matchRow schema whereClause blob with e | _ | row
    · exact ⟨e, rfl⟩
    · exact absurd ⟨_, rowChange_of_none (key, blob) hmatch⟩ hrow
    · rw [rowChange_of_some (key, blob) hmatch] at hrow
      rcases hwrite : write key row with e | mu
      · simp only [hwrite]
        exact ⟨e, rfl⟩
      · rw [hwrite] at hrow
        exact absurd ⟨_, rfl⟩ hrow
  | cons kv before ih =>
    obtain ⟨key, blob⟩ := kv
    obtain ⟨hfirst, hbefore⟩ := List.forall_mem_cons.mp hbefore
    obtain ⟨⟨e, he⟩, hwrites⟩ := ih hbefore
    rw [List.cons_append, writeRows]
    rcases hmatch : matchRow schema whereClause blob with e' | _ | row'
    · rw [rowChange_of_error (key, blob) hmatch] at hfirst
      exact absurd hfirst (succeeds_error _)
    · refine ⟨⟨e, he⟩, List.forall_mem_cons.mpr ⟨fun mu hmu => ?_, hwrites⟩⟩
      rw [rowChange_of_none (key, blob) hmatch] at hmu
      cases hmu
    · have hsome := @rowChange_of_some _ _ write (key, blob) _ hmatch
      rcases hwrite : write key row' with e' | mu₀
      · rw [hsome, hwrite] at hfirst
        exact absurd hfirst (succeeds_error _)
      · simp only [hwrite, he]
        refine ⟨⟨e, rfl⟩, List.forall_mem_cons.mpr
          ⟨fun mu hmu => ?_, fun r hr mu hmu => ?_⟩⟩
        · rw [hsome, hwrite] at hmu
          cases hmu
          exact List.mem_cons_self
        · exact List.mem_cons_of_mem _ (hwrites r hr mu hmu)

/-- A row loop that throws leaves the store as it was exactly when it has changed no row
before. -/
lemma writeRows_clean {store : Store} {rows : List (Bytes × Bytes)} (hrows : OrdMap.Asc rows)
    (hwrite : ∀ key row mu, write key row = .ok mu → mu.record.key = key) :
    (∀ e, (writeRows schema whereClause write rows).2 = .error e →
      applyAll store (writeRows schema whereClause write rows).1 = store) ↔
    CleanRows store (rowChange schema whereClause write) rows := by
  rw [forall_congr' fun e => imp_congr_right fun _ =>
    applyAll_eq_self (writeRows_distinct hwrite hrows)]
  constructor
  · rintro hclean before row after rfl hbefore hrow r hr mu hmu
    obtain ⟨⟨e, he⟩, hwrites⟩ := writeRows_append after hbefore hrow
    exact hclean e he mu (hwrites r hr mu hmu)
  · intro hclean e he mu hmu
    obtain ⟨before, row, after, hsplit, hbefore, hrow, hwrites⟩ := writeRows_throws he
    obtain ⟨r, hr, hmu⟩ := (hwrites mu).mp hmu
    exact hclean before row after hsplit hbefore hrow r hr mu hmu

end

/-- The rewriting of a row by `UPDATE`. -/
def rewrite (assignments : List (ℕ × Bytes)) (key : Bytes) (row : Row) :
    Except Exception Mutation :=
  (assign assignments row).map fun row => .put key (encodeRow row)

/-- An `UPDATE` or `DELETE` that passes its checks has changed no row before the first row, in
key order, on which the evaluation of its `WHERE` throws. -/
def Clean (store : Store) : Statement → Prop
  | .update s => ∀ schema assignments, loadSchema store s.dbName s.tableName = .ok schema →
      s.assignments.mapM (checkAssignment schema) = .ok assignments →
      CleanRows store (rowChange schema s.whereClause (rewrite assignments))
        (scan store (rowPrefix s.dbName s.tableName))
  | .delete s => ∀ schema, loadSchema store s.dbName s.tableName = .ok schema →
      CleanRows store (rowChange schema s.whereClause fun key _ => .ok (.delete key))
        (scan store (rowPrefix s.dbName s.tableName))
  | _ => True

/-- Running the text leaves the store as it was if it throws. -/
def FailsClean (store : Store) (sql : Bytes) : Prop :=
  ∀ e, (execute store sql).2 = .error e → applyAll store (execute store sql).1 = store

lemma scan_asc (store : Store) (p : Bytes) : OrdMap.Asc (scan store p) :=
  List.Pairwise.sublist List.filter_sublist store.asc

lemma ofWrite_clean {store : Store} {r : Except Exception (Mutation × Bytes)} {e : Exception}
    (h : (Effect.ofWrite r).2 = .error e) : applyAll store (Effect.ofWrite r).1 = store := by
  rcases r with e' | ⟨mu, out⟩
  · rfl
  · cases h

lemma ofRows_clean {store : Store} {r : Except Exception (List Mutation × Except Exception ℕ)}
    {what : Bytes} :
    (∀ e, (Effect.ofRows r what).2 = .error e →
      applyAll store (Effect.ofRows r what).1 = store) ↔
    ∀ writes count, r = .ok (writes, count) → ∀ e, count = .error e →
      applyAll store writes = store := by
  rcases r with e' | ⟨writes, count⟩
  · exact ⟨fun _ _ _ h => (by cases h), fun _ _ _ => rfl⟩
  · constructor
    · rintro h _ _ ⟨⟩ e rfl
      exact h e rfl
    · intro h e he
      rcases count with e' | n
      · exact h writes _ rfl e' rfl
      · cases he

lemma rewrite_key {assignments : List (ℕ × Bytes)} {key : Bytes} {row : Row} {mu : Mutation}
    (h : rewrite assignments key row = .ok mu) : mu.record.key = key := by
  unfold rewrite at h
  rcases hrow : assign assignments row with e | row'
  · rw [hrow] at h
    cases h
  · rw [hrow] at h
    cases h
    rfl

lemma executeUpdate_clean (store : Store) (s : UpdateStatement) :
    (∀ e, (executeUpdate store s).2 = .error e →
      applyAll store (executeUpdate store s).1 = store) ↔ Clean store (.update s) := by
  have hloop : ∀ (schema : TableSchema) (assignments : List (ℕ × Bytes)),
      (∀ e, (writeRows schema s.whereClause (rewrite assignments)
        (scan store (rowPrefix s.dbName s.tableName))).2 = .error e →
        applyAll store (writeRows schema s.whereClause (rewrite assignments)
          (scan store (rowPrefix s.dbName s.tableName))).1 = store) ↔ _ :=
    fun schema assignments => writeRows_clean (scan_asc _ _) fun _ _ _ => rewrite_key
  rw [executeUpdate, ofRows_clean]
  constructor
  · intro h schema assignments hschema has
    exact (hloop schema assignments).mp
      (h _ _ (bind_eq_ok.mpr ⟨schema, hschema, bind_eq_ok.mpr ⟨assignments, has, rfl⟩⟩))
  · intro h writes count hchecks e he
    obtain ⟨schema, hschema, hchecks⟩ := bind_eq_ok.mp hchecks
    obtain ⟨assignments, has, hchecks⟩ := bind_eq_ok.mp hchecks
    obtain ⟨rfl, rfl⟩ := Prod.mk.injEq _ _ _ _ ▸ Except.ok.inj hchecks
    exact (hloop schema assignments).mpr (h schema assignments hschema has) e he

lemma executeDelete_clean (store : Store) (s : DeleteStatement) :
    (∀ e, (executeDelete store s).2 = .error e →
      applyAll store (executeDelete store s).1 = store) ↔ Clean store (.delete s) := by
  have hloop : ∀ schema : TableSchema,
      (∀ e, (writeRows schema s.whereClause (fun key _ => .ok (.delete key))
        (scan store (rowPrefix s.dbName s.tableName))).2 = .error e →
        applyAll store (writeRows schema s.whereClause (fun key _ => .ok (.delete key))
          (scan store (rowPrefix s.dbName s.tableName))).1 = store) ↔ _ :=
    fun schema => writeRows_clean (scan_asc _ _) (by rintro key row mu ⟨⟩; rfl)
  rw [executeDelete, ofRows_clean]
  constructor
  · intro h schema hschema
    exact (hloop schema).mp (h _ _ (bind_eq_ok.mpr ⟨schema, hschema, rfl⟩))
  · intro h writes count hchecks e he
    obtain ⟨schema, hschema, hchecks⟩ := bind_eq_ok.mp hchecks
    obtain ⟨rfl, rfl⟩ := Prod.mk.injEq _ _ _ _ ▸ Except.ok.inj hchecks
    exact (hloop schema).mpr (h schema hschema) e he

/-- **A statement that throws leaves the store as it was** exactly when it has changed no row
before the first one it cannot evaluate. -/
theorem failsClean_iff (store : Store) (sql : Bytes) :
    FailsClean store sql ↔ ∀ stmt, parse sql = .ok stmt → Clean store stmt := by
  unfold FailsClean execute
  rcases hparse : parse sql with e | stmt
  · simp [throws, applyAll]
  · simp only [Except.ok.injEq, forall_eq']
    cases stmt with
    | update s => exact executeUpdate_clean store s
    | delete s => exact executeDelete_clean store s
    | createDatabase s => exact ⟨fun _ => trivial, fun _ _ => ofWrite_clean⟩
    | createTable s => exact ⟨fun _ => trivial, fun _ _ => ofWrite_clean⟩
    | alterTableAddColumn s => exact ⟨fun _ => trivial, fun _ _ => ofWrite_clean⟩
    | insert s => exact ⟨fun _ => trivial, fun _ _ => ofWrite_clean⟩
    | select s => exact ⟨fun _ => trivial, fun _ _ _ => rfl⟩
    | showTables s => exact ⟨fun _ => trivial, fun _ _ _ => rfl⟩
    | showDatabases => exact ⟨fun _ => trivial, fun _ _ _ => rfl⟩

/-- The store after a list of statements, whether they throw or not. -/
def runAll (store : Store) (sqls : List Bytes) : Store :=
  sqls.foldl (fun store sql => applyAll store (execute store sql).1) store

/-- The number of the second row is a valid `INT` literal that fits no 64-bit number. -/
def twoRows : List Bytes := [
  text "CREATE DATABASE d",
  text "CREATE TABLE d.t (k TEXT PRIMARY KEY, n INT)",
  text "INSERT INTO d.t (k, n) VALUES ('a', 1)",
  text "INSERT INTO d.t (k, n) VALUES ('b', 99999999999999999999)"]

/-- **An `UPDATE` throws after it has written**: it rewrites the row `a` before it looks at
the row `b`, whose number cannot be compared. -/
theorem throws_after_writing :
    ¬ ∀ (sqls : List Bytes) (sql : Bytes), FailsClean (runAll .empty sqls) sql := by
  intro hall
  let store := runAll .empty twoRows
  have hrun : (execute store (text "UPDATE d.t SET n = 2 WHERE n = 1")).2 = .error .outOfRange ∧
      (applyAll store (execute store (text "UPDATE d.t SET n = 2 WHERE n = 1")).1).find
        (rowKey (text "d") (text "t") (text "a")) ≠
      store.find (rowKey (text "d") (text "t") (text "a")) := by
    decide +kernel
  exact hrun.2 (by rw [hall twoRows _ _ hrun.1])

end DistDB.SqlAtomic
