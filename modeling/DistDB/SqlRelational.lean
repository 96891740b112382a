import DistDB.Relational
import DistDB.SqlSchemas

/-!
The SQL layer is a relational database: every statement of every sequence returns or throws on the
key-value store what it does on the relations (`answers_relational`).

A store refines a catalog when the databases and the schemas are under their keys and each row of a
relation is under its key, as it is or as it was written under an earlier schema (`Refines`). Every
statement keeps that, also one that throws after it has changed some rows.
-/

namespace DistDB.SqlRelational

open SqlParser SqlTexts SqlExecutor SqlRuns SqlAtomic SqlStore SqlFrame SqlReapply SqlAlter
open SqlCells SqlSchemas Relational WalModel EngineInv EngineMap Checks Bytes OrdMap

section

variable {κ κ' ν μ : Type} [LinearOrder κ] [LinearOrder κ']

lemma forall₂_of_look {f : κ' → κ} (hf : StrictMono f) {R : ν → μ → Prop}
    {l : List (κ × ν)} {m : List (κ' × μ)} (hl : Asc l) (hm : Asc m)
    (hkeys : ∀ e ∈ l, ∃ k, e.1 = f k) (h : ∀ k, Option.Rel R (look (f k) l) (look k m)) :
    List.Forall₂ (fun a b => a.1 = f b.1 ∧ R a.2 b.2) l m := by
  induction l generalizing m with
  | nil =>
    cases m with
    | nil => exact .nil
    | cons e m =>
      have hhead := h e.1
      rw [look, look, if_pos rfl] at hhead
      cases hhead
  | cons a l ih =>
    obtain ⟨hlt, hl'⟩ := List.pairwise_cons.mp hl
    obtain ⟨⟨k, hk⟩, hkeys'⟩ := List.forall_mem_cons.mp hkeys
    have hhead := h k
    rw [look, if_pos hk.symm] at hhead
    obtain ⟨w, hw, hR⟩ : ∃ w, look k m = some w ∧ R a.2 w := by
      cases hlook : look k m with
      | none =>
        rw [hlook] at hhead
        cases hhead
      | some w =>
        rw [hlook] at hhead
        cases hhead with
        | some hR => exact ⟨w, rfl, hR⟩
    cases m with
    | nil => cases hw
    | cons b m =>
      obtain ⟨hltm, hm'⟩ := List.pairwise_cons.mp hm
      -- the least keys go together
      have hbk : b.1 = k := by
        rcases List.mem_cons.mp (mem_of_look hw) with heq | hmem
        · rw [← heq]
        · have hlook := h b.1
          rw [look, if_neg fun heq => (hf (hltm _ hmem)).ne (heq.trans hk),
            look_eq_none_of_lt fun e he => (hf (hltm _ hmem)).trans (hk ▸ hlt e he),
            look, if_pos rfl] at hlook
          cases hlook
      subst hbk
      rw [look, if_pos rfl] at hw
      obtain rfl := Option.some.inj hw
      refine .cons ⟨hk, hR⟩ (ih hl' hm' hkeys' fun k' => ?_)
      by_cases heq : k' = b.1
      · rw [heq, look_eq_none_of_lt (hk ▸ hlt), look_eq_none_of_lt hltm]
        exact .none
      · have hlook := h k'
        rwa [look, if_neg fun hfk => heq (hf.injective (hfk.trans hk)), look, if_neg heq] at hlook

end

/-! ### What is stored -/

/-- The columns of the relation can be stored, and `n` more. -/
structure Sized (n : ℕ) (r : Relation) : Prop where
  ne_nil : r.columns ≠ []
  count : r.columns.length + n < 2 ^ 32
  column : ∀ c ∈ r.columns, SmallColumn c

/-- What is stored for a row of the relation. -/
abbrev StoredAs (r : Relation) : Option Bytes → Option Row → Prop := Option.Rel (Pads r.schema)

/-- The store holds the catalog, which has room for `n` more columns. -/
structure Refines (n : ℕ) (store : Store) (cat : Catalog) : Prop where
  database : ∀ d, store.find (databaseKey d) ≠ none ↔ cat.find d ≠ none
  schema : ∀ d t, IsName d →
    store.find (schemaKey d t) = (relationAt cat d t).map fun r => r.schema.serialize
  sized : ∀ d t r, relationAt cat d t = some r → Sized n r
  rows : ∀ d t r, IsName d → IsName t → relationAt cat d t = some r →
    ∀ pk, StoredAs r (store.find (rowKey d t pk)) (r.rows.find pk)
  absent : ∀ d t, IsName d → IsName t → relationAt cat d t = none →
    ∀ pk, store.find (rowKey d t pk) = none

variable {n : ℕ} {store : Store} {cat : Catalog} {d t : Bytes} {r : Relation}

lemma Sized.mono {m : ℕ} (h : Sized n r) (hle : m ≤ n) : Sized m r :=
  ⟨h.ne_nil, (Nat.add_le_add_left hle _).trans_lt h.count, h.column⟩

lemma Sized.small (h : Sized n r) :
    r.schema.columns.length < 2 ^ 32 ∧ ∀ c ∈ r.schema.columns, SmallColumn c :=
  ⟨(Nat.le_add_right _ n).trans_lt h.count, h.column⟩

namespace Refines

lemma empty : Refines n .empty .empty where
  database _ := iff_of_false (not_not.mpr rfl) (not_not.mpr rfl)
  schema _ _ _ := rfl
  sized _ _ _ h := nomatch h
  rows _ _ _ _ _ h := nomatch h
  absent _ _ _ _ _ _ := rfl

lemma mono {m : ℕ} (h : Refines n store cat) (hle : m ≤ n) : Refines m store cat :=
  ⟨h.database, h.schema, fun d t r hr => (h.sized d t r hr).mono hle, h.rows, h.absent⟩

lemma loadSchema_eq (h : Refines n store cat) (hd : IsName d) :
    loadSchema store d t = (relation cat d t).map Relation.schema := by
  unfold loadSchema relation
  rw [h.schema d t hd]
  cases hr : relationAt cat d t with
  | none => rfl
  | some r =>
    have hsized := h.sized d t r hr
    exact deserialize_serialize_eq hsized.ne_nil hsized.small.1 hsized.small.2

lemma scan_rows (h : Refines n store cat) (hd : IsName d) (ht : IsName t)
    (hr : relationAt cat d t = some r) :
    List.Forall₂ (fun kv e => kv.1 = rowKey d t e.1 ∧ Pads r.schema kv.2 e.2)
      (scan store (rowPrefix d t)) r.rows.entries := by
  refine forall₂_of_look (fun a b hlt => List.append_left_lt hlt) (scan_asc store _) r.rows.asc
    (fun e he => ?_) fun pk => ?_
  · obtain ⟨⟨pk, hpk⟩, -⟩ := mem_scan.mp he
    exact ⟨pk, hpk.symm⟩
  · have hlook : look (rowKey d t pk) (scan store (rowPrefix d t)) =
        store.find (rowKey d t pk) := by
      refine Option.ext fun blob => ?_
      rw [← mem_iff_look (scan_asc store _)]
      exact mem_scan.trans (and_iff_right (prefix_rowKey d t pk))
    rw [hlook]
    exact h.rows d t r hd ht hr pk

lemma set {store' : Store} (h : Refines (n + 1) store cat) (hd : IsName d) (ht : IsName t)
    (hdatabase : cat.find d ≠ none)
    (hother : ∀ key, ¬ Owns d t key → store'.find key = store.find key)
    (hschema : store'.find (schemaKey d t) = some r.schema.serialize) (hsized : Sized n r)
    (hrows : ∀ pk, StoredAs r (store'.find (rowKey d t pk)) (r.rows.find pk)) :
    Refines n store' (setRelation cat d t r) := by
  have howned : ∀ {d' t' : Bytes}, IsName d' → IsName t' → ¬ (d' = d ∧ t' = t) → ∀ pk,
      store'.find (rowKey d' t' pk) = store.find (rowKey d' t' pk) := by
    intro d' t' hd' ht' hne pk
    refine hother _ (owned_once hd ht hd' ht' (fun heq => hne (Prod.mk.inj heq)) ?_)
    exact .inr (prefix_rowKey d' t' pk)
  refine ⟨fun d' => ?_, fun d' t' hd' => ?_, fun d' t' r' hr' => ?_,
    fun d' t' r' hd' ht' hr' pk => ?_, fun d' t' hd' ht' hr' pk => ?_⟩
  · rw [hother _ (database_not_owned d t d'), h.database, setRelation, find_insert]
    split_ifs with heq
    · rw [heq]
      exact iff_of_true hdatabase (Option.some_ne_none _)
    · exact Iff.rfl
  · rw [relationAt_setRelation]
    split_ifs with heq
    · rw [heq.1, heq.2, hschema]
      rfl
    · rw [hother _ (schema_not_owned hd hd' fun hne => heq (Prod.mk.inj hne)), h.schema d' t' hd']
  · rw [relationAt_setRelation] at hr'
    split_ifs at hr' with heq
    · exact Option.some.inj hr' ▸ hsized
    · exact (h.sized d' t' r' hr').mono (Nat.le_succ n)
  · rw [relationAt_setRelation] at hr'
    split_ifs at hr' with heq
    · obtain rfl := Option.some.inj hr'
      obtain ⟨rfl, rfl⟩ := heq
      exact hrows pk
    · rw [howned hd' ht' heq]
      exact h.rows d' t' r' hd' ht' hr' pk
  · rw [relationAt_setRelation] at hr'
    split_ifs at hr' with heq
    rw [howned hd' ht' heq]
    exact h.absent d' t' hd' ht' hr' pk

end Refines

/-! ### Loops over rows -/

section

variable {schema : TableSchema} {whereClause : List Condition} {blob : Bytes} {full : Row}

lemma matchRow_of_pads (h : Pads schema blob full) : matchRow schema whereClause blob =
    (matchesWhere schema full whereClause).map fun b => if b then some full else none := by
  obtain ⟨row, hrow, hpad, -⟩ := h
  rw [matchRow, bind_of_ok hrow, bind_of_ok hpad]
  cases matchesWhere schema full whereClause with
  | error e => rfl
  | ok b => rfl

lemma cells_of_lt {projection : List ℕ} (h : ∀ i ∈ projection, i < full.length) :
    projection.mapM (cell full) = .ok (projection.map fun i => full.getD i []) := by
  induction projection with
  | nil => rfl
  | cons i projection ih =>
    obtain ⟨hi, hrest⟩ := List.forall_mem_cons.mp h
    have hcell : cell full i = .ok (full.getD i []) := by
      rw [cell, List.getD_eq_getElem?_getD, List.getElem?_eq_getElem hi]
      rfl
    rw [List.mapM_cons, hcell, ih hrest]
    rfl

lemma selectRow_of_pads {projection : List ℕ} (h : Pads schema blob full)
    (hlt : ∀ i ∈ projection, i < schema.columns.length) :
    selectRow schema whereClause projection blob =
      (matchesWhere schema full whereClause).map fun b =>
        if b then some (joinTabs (projection.map fun i => full.getD i [])) else none := by
  have hcells : projection.mapM (cell full) = .ok (projection.map fun i => full.getD i []) :=
    cells_of_lt fun i hi => h.choose_spec.2.2.2 ▸ hlt i hi
  rw [selectRow, matchRow_of_pads h]
  cases matchesWhere schema full whereClause with
  | error e => rfl
  | ok b =>
    cases b with
    | false => rfl
    | true =>
      show (projection.mapM (cell full) >>= _) = _
      rw [hcells]
      rfl

end

lemma mapM_found {κ ρ ε α β : Type} {p : ρ → Except ε Bool}
    {g : α → Except ε (Option β)} {f : κ × ρ → β} {as : List α} {rows : List (κ × ρ)}
    (h : List.Forall₂ (fun a e =>
      g a = (p e.2).map fun b => if b then some (f e) else none) as rows) :
    (as.mapM g).map (List.filterMap id) =
      (found p rows).2.map fun _ => (found p rows).1.map f := by
  induction h with
  | nil => rfl
  | @cons a e as rows hae _ ih =>
    rw [List.mapM_cons, hae, found]
    cases hholds : p e.2 with
    | error err => rfl
    | ok b =>
      dsimp only [Except.map, bind, Except.bind] at ih ⊢
      cases hrest : as.mapM g with
      | error err =>
        rw [hrest] at ih
        cases hfound : (found p rows).2 with
        | error err' =>
          rw [hfound] at ih
          exact ih
        | ok u =>
          rw [hfound] at ih
          cases ih
      | ok bs =>
        rw [hrest] at ih
        cases hfound : (found p rows).2 with
        | error err' =>
          rw [hfound] at ih
          cases ih
        | ok u =>
          rw [hfound] at ih
          have hbs := Except.ok.inj ih
          cases b with
          | false => exact congrArg Except.ok hbs
          | true => exact congrArg Except.ok (congrArg (f e :: ·) hbs)

lemma writeRows_found {κ : Type} {schema : TableSchema} {whereClause : List Condition}
    {w : Bytes → Row → Except Exception Mutation} {m : κ × Row → Mutation}
    {kvs : List (Bytes × Bytes)} {rows : List (κ × Row)}
    (h : List.Forall₂ (fun kv e => Pads schema kv.2 e.2 ∧ w kv.1 e.2 = .ok (m e)) kvs rows) :
    writeRows schema whereClause w kvs =
      ((found (fun row => matchesWhere schema row whereClause) rows).1.map m,
        (found (fun row => matchesWhere schema row whereClause) rows).2.map fun _ =>
          (found (fun row => matchesWhere schema row whereClause) rows).1.length) := by
  induction h with
  | nil => rfl
  | @cons kv e kvs rows hkv _ ih =>
    rw [writeRows, matchRow_of_pads hkv.1, found]
    cases matchesWhere schema e.2 whereClause with
    | error err => rfl
    | ok b =>
      cases b with
      | false => exact ih
      | true =>
        simp only [Except.map, if_true, hkv.2, ih]
        cases (found (fun row => matchesWhere schema row whereClause) rows).2 with
        | error err => rfl
        | ok u => rfl

lemma find_applyAll_of_mem {store : Store} {mus : List Mutation} {mu : Mutation}
    (hkeys : mus.Pairwise fun a b => a.record.key ≠ b.record.key) (hmu : mu ∈ mus) :
    (applyAll store mus).find mu.record.key = entryOf mu.record := by
  induction mus generalizing store with
  | nil => cases hmu
  | cons mu' mus ih =>
    obtain ⟨hne, hkeys⟩ := List.pairwise_cons.mp hkeys
    show (applyAll (applyTo store mu') mus).find mu.record.key = _
    rcases List.mem_cons.mp hmu with rfl | hmu
    · rw [find_applyAll fun mu' hmu' => (hne mu' hmu').symm, find_applyTo, if_pos rfl]
    · exact ih hkeys hmu

/-! ### Statements -/

/-- A statement does to the store what it does to the catalog. -/
structure Agrees (n : ℕ) (store : Store) (effect : Effect)
    (result : Catalog × Except Exception Bytes) : Prop where
  answer : effect.2 = result.2
  refines : Refines n (applyAll store effect.1) result.1

lemma throwIf_throws {α : Type} {p : Prop} [Decidable p] {e : Exception}
    {f : Unit → Except Exception α} (h : p) : (throwIf p e >>= f) = .error e := by
  rw [throwIf, if_pos h]
  rfl

lemma agrees_throws (h : Refines (n + 1) store cat) {e : Exception}
    {x : Except Exception (Mutation × Bytes)} {y : Except Exception Catalog} (hx : x = .error e)
    (hy : y = .error e) : Agrees n store (.ofWrite x) (commit cat y) := by
  subst hx hy
  exact ⟨rfl, h.mono (Nat.le_succ n)⟩

lemma agrees_writes {mu : Mutation} {c : Catalog} {x : Except Exception (Mutation × Bytes)}
    {y : Except Exception Catalog} (hx : x = .ok (mu, text "OK")) (hy : y = .ok c)
    (h : Refines n (applyTo store mu) c) : Agrees n store (.ofWrite x) (commit cat y) := by
  subst hx hy
  exact ⟨rfl, h⟩

lemma agrees_read (h : Refines (n + 1) store cat) {x y : Except Exception Bytes} (hxy : x = y) :
    Agrees n store (.ofRead x) (cat, y) :=
  ⟨hxy, h.mono (Nat.le_succ n)⟩

namespace Refines

variable {whereClause : List Condition}

lemma addDatabase (h : Refines (n + 1) store cat) (hfree : cat.find d = none) :
    Refines n (applyTo store (.put (databaseKey d) [])) (cat.insert d .empty) := by
  have hother : ∀ {key}, key ≠ databaseKey d →
      (applyTo store (.put (databaseKey d) [])).find key = store.find key := fun hne =>
    (find_applyTo _ _ _).trans (if_neg hne)
  have hsame : ∀ d' t', relationAt (cat.insert d .empty) d' t' = relationAt cat d' t' := by
    intro d' t'
    unfold relationAt
    rw [find_insert]
    split_ifs with heq
    · rw [heq, hfree]
      rfl
    · rfl
  refine ⟨fun d' => ?_, fun d' t' hd' => ?_, fun d' t' r' hr' => ?_,
    fun d' t' r' hd' ht' hr' pk => ?_, fun d' t' hd' ht' hr' pk => ?_⟩
  · rw [find_insert]
    split_ifs with heq
    · rw [heq, find_put]
      exact iff_of_true (Option.some_ne_none _) (Option.some_ne_none _)
    · have hne : databaseKey d' ≠ databaseKey d := fun hkey => heq (List.append_cancel_left hkey)
      rw [hother hne]
      exact h.database d'
  · rw [hsame, hother (schemaKey_ne_databaseKey d' t' d), h.schema d' t' hd']
  · rw [hsame] at hr'
    exact (h.sized d' t' r' hr').mono (Nat.le_succ n)
  · rw [hsame] at hr'
    rw [hother fun heq => rowPrefix_ne_databaseKey (prefix_rowKey d' t' pk) heq]
    exact h.rows d' t' r' hd' ht' hr' pk
  · rw [hsame] at hr'
    rw [hother fun heq => rowPrefix_ne_databaseKey (prefix_rowKey d' t' pk) heq]
    exact h.absent d' t' hd' ht' hr' pk

lemma createDatabase (h : Refines (n + 1) store cat) (s : CreateDatabaseStatement) :
    Agrees n store (executeCreateDatabase store s) (Relational.createDatabase cat s) := by
  by_cases hfree : cat.find s.name = none
  · have hstore : store.find (databaseKey s.name) = none :=
      not_not.mp fun hne => (h.database _).mp hne hfree
    refine agrees_writes (bind_eq_ok.mpr ⟨(), throwIf_eq_ok.mpr (not_not.mpr hstore), rfl⟩)
      (bind_eq_ok.mpr ⟨(), throwIf_eq_ok.mpr ?_, rfl⟩) (h.addDatabase hfree)
    rw [hfree]
    exact Bool.false_ne_true
  · exact agrees_throws h (throwIf_throws ((h.database _).mpr hfree))
      (throwIf_throws (Option.isSome_iff_ne_none.mpr hfree))

lemma putSchema {c : Relation} (h : Refines (n + 1) store cat) (hd : IsName d) (ht : IsName t)
    (hdatabase : cat.find d ≠ none) (hsized : Sized n c)
    (hrows : ∀ pk, StoredAs c (store.find (rowKey d t pk)) (c.rows.find pk)) :
    Refines n (applyTo store (.put (schemaKey d t) c.schema.serialize))
      (setRelation cat d t c) := by
  refine h.set hd ht hdatabase (fun key hkey => ?_) (find_put _ _ _) hsized fun pk => ?_
  · exact (find_applyTo _ _ _).trans (if_neg fun heq => hkey (.inl heq))
  · have hrow := find_applyTo store (.put (schemaKey d t) c.schema.serialize) (rowKey d t pk)
    rw [hrow.trans (if_neg (rowPrefix_ne_schemaKey (prefix_rowKey d t pk)))]
    exact hrows pk

lemma requireDatabase (h : Refines n store cat) (d : Bytes) :
    requireDatabaseExists store d = (Relational.database cat d).map fun _ => () := by
  unfold requireDatabaseExists Relational.database throwIf
  cases hdb : cat.find d with
  | none => rw [if_pos (not_not.mp fun hne => (h.database d).mp hne hdb)]; rfl
  | some tables => rw [if_neg ((h.database d).mpr (hdb ▸ Option.some_ne_none _))]; rfl

lemma createTable (h : Refines (n + 1) store cat) {sql : Bytes} {s : CreateTableStatement}
    (hparse : parse sql = .ok (.createTable s)) (hsql : sql.length + n < 2 ^ 32) :
    Agrees n store (executeCreateTable store s) (Relational.createTable cat s) := by
  obtain ⟨hd, ht⟩ := target_names hparse rfl
  have hrequire := h.requireDatabase s.dbName
  have hkey := h.schema s.dbName s.tableName hd
  cases hdb : cat.find s.dbName with
  | none =>
    obtain ⟨e, hdatabase⟩ : ∃ e, Relational.database cat s.dbName = .error e := by
      rw [Relational.database, hdb]
      exact ⟨_, rfl⟩
    rw [hdatabase] at hrequire
    refine agrees_throws (e := e) h ?_ ?_
    · exact congrArg (· >>= _) hrequire
    · exact congrArg (· >>= _) hdatabase
  | some tables =>
    have hdatabase : Relational.database cat s.dbName = .ok tables := by
      rw [Relational.database, hdb]
    rw [hdatabase] at hrequire
    have hrelation : relationAt cat s.dbName s.tableName = tables.find s.tableName := by
      rw [relationAt, hdb]
      rfl
    cases htable : tables.find s.tableName with
    | some r =>
      rw [hrelation, htable] at hkey
      refine agrees_throws h ((bind_of_ok hrequire).trans (throwIf_throws ?_))
        ((bind_of_ok hdatabase).trans (throwIf_throws ?_))
      · rw [hkey]
        exact Option.some_ne_none _
      · rw [htable]
        rfl
    | none =>
      rw [hrelation, htable] at hkey
      have hcount := create_count hparse
      obtain ⟨-, hone⟩ := parse_worded hparse
      obtain ⟨-, hsmall⟩ := sized_of_parse hparse (by omega)
      refine agrees_writes (bind_eq_ok.mpr ⟨(), hrequire, bind_eq_ok.mpr
          ⟨(), throwIf_eq_ok.mpr (not_not.mpr hkey), rfl⟩⟩)
        (bind_eq_ok.mpr ⟨tables, hdatabase, bind_eq_ok.mpr ⟨(), throwIf_eq_ok.mpr ?_, rfl⟩⟩)
        (h.putSchema (c := ⟨s.columns, .empty⟩) hd ht ?_ ⟨?_, ?_, hsmall⟩ fun pk => ?_)
      · rw [htable]
        exact Bool.false_ne_true
      · rw [hdb]
        exact Option.some_ne_none _
      · intro hnil
        rw [show s.columns = [] from hnil] at hone
        cases hone
      · exact (Nat.add_le_add_right hcount n).trans_lt hsql
      · rw [h.absent _ _ hd ht (hrelation.trans htable) pk]
        exact .none

section

variable {r : Relation}

lemma loadSchema_of_relation (h : Refines n store cat) (hd : IsName d)
    (hr : relation cat d t = .ok r) : loadSchema store d t = .ok r.schema := by
  rw [h.loadSchema_eq hd, hr]
  rfl

lemma loadSchema_of_error (h : Refines n store cat) (hd : IsName d) {e : Exception}
    (hr : relation cat d t = .error e) : loadSchema store d t = .error e := by
  rw [h.loadSchema_eq hd, hr]
  rfl

lemma database_of_relation (hr : relationAt cat d t = some r) : cat.find d ≠ none := by
  intro hnone
  rw [relationAt, hnone] at hr
  cases hr

lemma storedAs_addColumn {c : ColumnDef} {v : Bytes} (hdefault : c.defaultValue = some v)
    {stored : Option Bytes} {pk : Bytes} (h : StoredAs r stored (r.rows.find pk)) :
    StoredAs (r.addColumn c v) stored ((r.addColumn c v).rows.find pk) := by
  have hrow : (r.addColumn c v).rows.find pk = (r.rows.find pk).map (· ++ [v]) := by
    rw [Relation.addColumn, find_filterMap]
    cases r.rows.find pk <;> rfl
  rw [hrow]
  generalize r.rows.find pk = row at h
  cases h with
  | none => exact .none
  | some hpads => exact .some (hpads.extend hdefault)

end

lemma alterTable (h : Refines (n + 1) store cat) {sql : Bytes} {s : AlterTableAddColumnStatement}
    (hparse : parse sql = .ok (.alterTableAddColumn s)) (hsql : sql.length < 2 ^ 32) :
    Agrees n store (executeAlterTableAddColumn store s) (alterTableAddColumn cat s) := by
  obtain ⟨hd, ht⟩ := target_names hparse rfl
  have hcolumn : SmallColumn s.column := sized_of_parse hparse hsql
  cases hr : relation cat s.dbName s.tableName with
  | error e =>
    refine agrees_throws (e := e) h ?_ ?_
    · rw [h.loadSchema_of_error hd hr]
      rfl
    · rw [hr]
      rfl
  | ok r =>
    have hload := h.loadSchema_of_relation hd hr
    by_cases hname : r.schema.columnIndex s.column.name = none
    swap
    · exact agrees_throws h ((bind_of_ok hload).trans (throwIf_throws hname))
        ((bind_of_ok hr).trans (throwIf_throws hname))
    have hcheck : ∀ e : Exception, throwIf
        (r.schema.columnIndex s.column.name ≠ none) e = .ok () :=
      fun e => throwIf_eq_ok.mpr (not_not.mpr hname)
    cases hdefault : s.column.defaultValue with
    | none =>
      refine agrees_throws
        (e := .runtimeError (text "ALTER TABLE ADD COLUMN requires a DEFAULT value")) h
        ((bind_of_ok hload).trans ((bind_of_ok (hcheck _)).trans ?_))
        ((bind_of_ok hr).trans ((bind_of_ok (hcheck _)).trans ?_))
      all_goals
        rw [hdefault]
        rfl
    | some v =>
      cases hvalid : validateLiteral s.column.type s.column.name v with
      | error e =>
        refine agrees_throws (e := e) h
          ((bind_of_ok hload).trans ((bind_of_ok (hcheck _)).trans ?_))
          ((bind_of_ok hr).trans ((bind_of_ok (hcheck _)).trans ?_))
        all_goals
          rw [hdefault]
          exact congrArg (· >>= _) hvalid
      | ok u =>
        have hat := relation_eq_ok.mp hr
        have hsized := h.sized _ _ r hat
        refine agrees_writes (c := setRelation cat s.dbName s.tableName (r.addColumn s.column v))
          ((bind_of_ok hload).trans ((bind_of_ok (hcheck _)).trans ?_))
          ((bind_of_ok hr).trans ((bind_of_ok (hcheck _)).trans ?_))
          (h.putSchema hd ht (database_of_relation hat) ⟨?_, ?_, ?_⟩
            fun pk => storedAs_addColumn hdefault (h.rows _ _ r hd ht hat pk))
        · rw [hdefault]
          exact bind_of_ok hvalid
        · rw [hdefault]
          exact bind_of_ok hvalid
        · exact List.append_ne_nil_of_right_ne_nil _ (List.cons_ne_nil _ _)
        · have hcount := hsized.count
          show (r.columns ++ [s.column]).length + n < 2 ^ 32
          rw [List.length_append, List.length_singleton]
          omega
        · exact List.forall_mem_append.mpr
            ⟨hsized.column, List.forall_mem_singleton.mpr hcolumn⟩

lemma writeRows (h : Refines (n + 1) store cat) (hd : IsName d) (ht : IsName t)
    (hr : relationAt cat d t = some r) {rows : List (Bytes × Row)}
    (hsub : rows.Sublist r.rows.entries) {f : Row → Option Row} {mu : Bytes × Row → Mutation}
    (hmu : ∀ e ∈ rows, (mu e).record.key = rowKey d t e.1 ∧
      StoredAs r (entryOf (mu e).record) (f e.2)) :
    Refines n (applyAll store (rows.map mu)) (setRelation cat d t (r.change rows f)) := by
  have hkeys : (rows.map mu).Pairwise fun a b => a.record.key ≠ b.record.key := by
    refine List.pairwise_map.mpr ((r.rows.asc.sublist hsub).imp_of_mem fun ha hb hlt heq => ?_)
    rw [(hmu _ ha).1, (hmu _ hb).1] at heq
    exact hlt.ne (rowKey_inj.mp heq)
  have hsized := (h.sized d t r hr).mono (Nat.le_succ n)
  have hof : ∀ m ∈ rows.map mu, ∃ e ∈ rows, mu e = m ∧ m.record.key = rowKey d t e.1 := by
    intro m hm
    obtain ⟨e, he, rfl⟩ := List.mem_map.mp hm
    exact ⟨e, he, rfl, (hmu e he).1⟩
  refine h.set hd ht (database_of_relation hr) (fun key hkey => find_applyAll fun m hm heq => ?_)
    ?_ ⟨hsized.ne_nil, hsized.count, hsized.column⟩ fun pk => ?_
  · obtain ⟨e, -, -, hrow⟩ := hof m hm
    exact hkey (.inr (heq ▸ hrow ▸ prefix_rowKey d t e.1))
  · rw [find_applyAll fun m hm heq => ?_, h.schema d t hd, hr]
    · rfl
    · obtain ⟨e, -, -, hrow⟩ := hof m hm
      exact rowPrefix_ne_schemaKey (prefix_rowKey d t e.1) (hrow.symm.trans heq)
  · have hrow := h.rows d t r hd ht hr pk
    rw [Relation.change, find_filterMap]
    by_cases hin : ∃ row, (pk, row) ∈ rows
    · obtain ⟨row, hin⟩ := hin
      rw [r.rows.mem_entries.mp (hsub.subset hin), Option.bind_some, if_pos hin,
        ← (hmu _ hin).1, find_applyAll_of_mem hkeys (List.mem_map_of_mem hin)]
      exact (hmu _ hin).2
    · rw [find_applyAll fun m hm heq => ?_]
      · generalize store.find (rowKey d t pk) = stored, r.rows.find pk = row at hrow
        cases hrow with
        | none => exact .none
        | some hpads =>
          rw [Option.bind_some, if_neg fun hmem => hin ⟨_, hmem⟩]
          exact .some hpads
      · obtain ⟨e, he, -, hkey⟩ := hof m hm
        exact hin ⟨e.2, rowKey_inj.mp (hkey.symm.trans heq) ▸ he⟩

lemma changeRows (h : Refines (n + 1) store cat) (hd : IsName d) (ht : IsName t)
    (hr : relationAt cat d t = some r) {w : Bytes → Row → Except Exception Mutation}
    {f : Row → Option Row} {m : Bytes × Row → Mutation} (what : Bytes)
    (hmu : ∀ e blob, Pads r.schema blob e.2 → w (rowKey d t e.1) e.2 = .ok (m e) ∧
      (m e).record.key = rowKey d t e.1 ∧ StoredAs r (entryOf (m e).record) (f e.2)) :
    Agrees n store (.ofRows (.ok (SqlExecutor.writeRows r.schema whereClause w
      (scan store (rowPrefix d t)))) what)
      (Relational.changeRows cat d t r whereClause f what) := by
  have hstored : ∀ e ∈ r.rows.entries, ∃ blob, Pads r.schema blob e.2 := by
    intro e he
    have hrow := h.rows d t r hd ht hr e.1
    rw [r.rows.mem_entries.mp he] at hrow
    generalize store.find (rowKey d t e.1) = stored at hrow
    cases hrow with
    | some hpads => exact ⟨_, hpads⟩
  rw [writeRows_found (w := w) (m := m) ((h.scan_rows hd ht hr).imp fun kv e hkv =>
    ⟨hkv.2, hkv.1 ▸ (hmu e kv.2 hkv.2).1⟩)]
  refine ⟨?_, h.writeRows hd ht hr (found_sublist _ _) fun e he => ?_⟩
  · show ((found _ _).2.map _).map _ = (found _ _).2.map _
    cases (found (fun row => matchesWhere r.schema row whereClause) r.rows.entries).2 <;> rfl
  · obtain ⟨blob, hpads⟩ := hstored e ((found_sublist _ _).subset he)
    exact (hmu e blob hpads).2

lemma putRow (h : Refines (n + 1) store cat) (hd : IsName d) (ht : IsName t)
    (hr : relationAt cat d t = some r) {pk : Bytes} {row : Row}
    (hpads : Pads r.schema (encodeRow row) row) :
    Refines n (applyTo store (.put (rowKey d t pk) (encodeRow row)))
      (setRelation cat d t { r with rows := r.rows.insert pk row }) := by
  have hsized := (h.sized d t r hr).mono (Nat.le_succ n)
  have hother : ∀ {key}, key ≠ rowKey d t pk →
      (applyTo store (.put (rowKey d t pk) (encodeRow row))).find key = store.find key := fun hne =>
    (find_applyTo _ _ _).trans (if_neg hne)
  refine h.set hd ht (database_of_relation hr) (fun key hkey => hother ?_) ?_
    ⟨hsized.ne_nil, hsized.count, hsized.column⟩ fun pk' => ?_
  · rintro rfl
    exact hkey (.inr (prefix_rowKey d t pk))
  · rw [hother fun heq => rowPrefix_ne_schemaKey (prefix_rowKey d t pk) heq.symm,
      h.schema d t hd, hr]
    rfl
  · rw [find_insert]
    split_ifs with heq
    · rw [heq, find_put]
      exact .some hpads
    · rw [hother fun hkey => heq (rowKey_inj.mp hkey)]
      exact h.rows d t r hd ht hr pk'

lemma insert (h : Refines (n + 1) store cat) {sql : Bytes} {s : InsertStatement}
    (hparse : parse sql = .ok (.insert s)) (hsql : sql.length < 2 ^ 32) :
    Agrees n store (executeInsert store s) (Relational.insert cat s) := by
  obtain ⟨hd, ht⟩ := target_names hparse rfl
  have hvalues : ∀ v ∈ s.values, v.length < 2 ^ 32 := sized_of_parse hparse hsql
  cases hr : relation cat s.dbName s.tableName with
  | error e =>
    refine agrees_throws (e := e) h ?_ ?_
    · rw [h.loadSchema_of_error hd hr]
      rfl
    · rw [hr]
      rfl
  | ok r =>
    have hload := h.loadSchema_of_relation hd hr
    have hat := relation_eq_ok.mp hr
    cases hinsert : insertRow r.schema s with
    | error e =>
      exact agrees_throws (e := e) h ((bind_of_ok hload).trans (congrArg (· >>= _) hinsert))
        ((bind_of_ok hr).trans (congrArg (· >>= _) hinsert))
    | ok rowPk =>
      obtain ⟨row, pk⟩ := rowPk
      have hrow := h.rows _ _ r hd ht hat pk
      cases hfree : r.rows.find pk with
      | some old =>
        rw [hfree] at hrow
        refine agrees_throws h
          ((bind_of_ok hload).trans ((bind_of_ok hinsert).trans (throwIf_throws fun hnone => ?_)))
          ((bind_of_ok hr).trans ((bind_of_ok hinsert).trans (throwIf_throws (hfree ▸ rfl))))
        rw [hnone] at hrow
        cases hrow
      | none =>
        rw [hfree] at hrow
        have hnone : store.find (rowKey s.dbName s.tableName pk) = none := by
          generalize store.find (rowKey s.dbName s.tableName pk) = stored at hrow
          cases hrow
          rfl
        have hfound : ¬ (r.rows.find pk).isSome = true := by
          rw [hfree]
          exact Bool.false_ne_true
        obtain ⟨hlen, hcells, -⟩ := insertRow_spec (parse_insert hparse) hinsert
        have hpads : Pads r.schema (encodeRow row) row :=
          pads_encodeRow hlen ⟨hlen ▸ (h.sized _ _ r hat).small.1, fun v hv =>
            hvalues v (hcells v hv)⟩
        exact agrees_writes
          (bind_eq_ok.mpr ⟨_, hload, bind_eq_ok.mpr ⟨_, hinsert, bind_eq_ok.mpr
            ⟨(), throwIf_eq_ok.mpr (not_not.mpr hnone), rfl⟩⟩⟩)
          (bind_eq_ok.mpr ⟨_, hr, bind_eq_ok.mpr ⟨_, hinsert, bind_eq_ok.mpr
            ⟨(), throwIf_eq_ok.mpr hfound, rfl⟩⟩⟩)
          (h.putRow hd ht hat hpads)

lemma assign_of_lt {as : List (ℕ × Bytes)} {row : Row} (h : ∀ a ∈ as, a.1 < row.length) :
    assign as row = .ok (assigned as row) := by
  induction as generalizing row with
  | nil => rfl
  | cons a as ih =>
    obtain ⟨ha, has⟩ := List.forall_mem_cons.mp h
    rw [assign, if_pos ha, ih fun a' ha' => by rw [List.length_set]; exact has a' ha']
    rfl

lemma update (h : Refines (n + 1) store cat) {sql : Bytes} {s : UpdateStatement}
    (hparse : parse sql = .ok (.update s)) (hsql : sql.length < 2 ^ 32) :
    Agrees n store (executeUpdate store s) (Relational.update cat s) := by
  obtain ⟨hd, ht⟩ := target_names hparse rfl
  have hliterals : ∀ a ∈ s.assignments, a.2.length < 2 ^ 32 := sized_of_parse hparse hsql
  unfold executeUpdate Relational.update
  cases hr : relation cat s.dbName s.tableName with
  | error e =>
    rw [h.loadSchema_of_error hd hr]
    exact ⟨rfl, h.mono (Nat.le_succ n)⟩
  | ok r =>
    have hat := relation_eq_ok.mp hr
    rw [bind_of_ok (h.loadSchema_of_relation hd hr)]
    dsimp only
    cases has : s.assignments.mapM (checkAssignment r.schema) with
    | error e => exact ⟨rfl, h.mono (Nat.le_succ n)⟩
    | ok as =>
      rw [bind_of_ok rfl]
      refine h.changeRows hd ht hat
        (m := fun e => .put (rowKey s.dbName s.tableName e.1) (encodeRow (assigned as e.2)))
        _ fun e blob hpads => ?_
      have hwhole : e.2.length = r.schema.columns.length := hpads.choose_spec.2.2.2
      have hassign : assign as e.2 = .ok (assigned as e.2) := assign_of_lt fun a ha => by
        obtain ⟨a', -, hcheck⟩ := mem_mapM has a ha
        exact hwhole ▸ checkAssignment_lt hcheck
      obtain ⟨hlen, hcells, -⟩ := assign_spec hassign
      obtain ⟨hcount, hsmall⟩ := hpads.small (h.sized _ _ r hat).small
      refine ⟨by rw [hassign]; rfl, rfl, .some (pads_encodeRow (hlen.trans hwhole)
        ⟨hlen ▸ hcount, fun v hv => ?_⟩)⟩
      rcases hcells v hv with hv | ⟨a, ha, rfl⟩
      · exact hsmall v hv
      · obtain ⟨a', ha', hcheck⟩ := mem_mapM has a ha
        exact (checkAssignment_spec hcheck).2 ▸ hliterals a' ha'

lemma delete (h : Refines (n + 1) store cat) {sql : Bytes} {s : DeleteStatement}
    (hparse : parse sql = .ok (.delete s)) :
    Agrees n store (executeDelete store s) (Relational.delete cat s) := by
  obtain ⟨hd, ht⟩ := target_names hparse rfl
  unfold executeDelete Relational.delete
  cases hr : relation cat s.dbName s.tableName with
  | error e =>
    rw [h.loadSchema_of_error hd hr]
    exact ⟨rfl, h.mono (Nat.le_succ n)⟩
  | ok r =>
    rw [bind_of_ok (h.loadSchema_of_relation hd hr)]
    exact h.changeRows hd ht (relation_eq_ok.mp hr)
      (m := fun e => .delete (rowKey s.dbName s.tableName e.1)) _
      fun e blob _ => ⟨rfl, rfl, .none⟩

lemma select (h : Refines (n + 1) store cat) {sql : Bytes} {s : SelectStatement}
    (hparse : parse sql = .ok (.select s)) :
    Agrees n store (executeSelect store s) (cat, Relational.select cat s) := by
  obtain ⟨hd, ht⟩ := target_names hparse rfl
  refine agrees_read h ?_
  cases hr : relation cat s.dbName s.tableName with
  | error e =>
    rw [h.loadSchema_of_error hd hr, Relational.select, hr]
    rfl
  | ok r =>
    have hat := relation_eq_ok.mp hr
    rw [bind_of_ok (h.loadSchema_of_relation hd hr), Relational.select, bind_of_ok hr]
    dsimp only
    cases hproject : project r.schema s.columns with
    | error e => rfl
    | ok projection =>
      have hlines := mapM_found (g := fun kv : Bytes × Bytes =>
          selectRow r.schema s.whereClause projection kv.2)
        (p := fun row => matchesWhere r.schema row s.whereClause)
        (f := fun e : Bytes × Row => joinTabs (projection.map fun i => e.2.getD i []))
        ((h.scan_rows hd ht hat).imp fun kv e hkv =>
          selectRow_of_pads hkv.2 (project_lt hproject))
      rw [bind_of_ok rfl, bind_of_ok rfl]
      unfold Relation.satisfying
      cases hfound : (found (fun row => matchesWhere r.schema row s.whereClause)
        r.rows.entries).2 with
      | error e =>
        rw [hfound] at hlines
        cases hscan : (scan store (rowPrefix s.dbName s.tableName)).mapM (fun kv =>
            selectRow r.schema s.whereClause projection kv.2) with
        | error e' =>
          rw [hscan] at hlines
          cases hlines
          rfl
        | ok lines =>
          rw [hscan] at hlines
          cases hlines
      | ok u =>
        rw [hfound] at hlines
        cases hscan : (scan store (rowPrefix s.dbName s.tableName)).mapM (fun kv =>
            selectRow r.schema s.whereClause projection kv.2) with
        | error e' =>
          rw [hscan] at hlines
          cases hlines
        | ok lines =>
          rw [hscan] at hlines
          dsimp only [bind, Except.bind, pure, Except.pure]
          rw [Except.ok.inj hlines]
          rfl

lemma listNames_eq {ν : Type} {heading p : Bytes} {m : OrdMap Bytes ν}
    (h : ∀ name, store.find (p ++ name) ≠ none ↔ m.find name ≠ none) :
    listNames store heading p = listing heading (names m) := by
  have hsplit : ∀ kv ∈ scan store p, p ++ kv.1.drop p.length = kv.1 := by
    intro kv hkv
    obtain ⟨⟨name, hname⟩, -⟩ := mem_scan.mp hkv
    rw [← hname, List.drop_left]
  have hsorted : ((scan store p).map fun kv => kv.1.drop p.length).Pairwise (· < ·) := by
    refine List.pairwise_map.mpr ((scan_asc store p).imp_of_mem fun ha hb hlt => ?_)
    rw [← hsplit _ ha, ← hsplit _ hb] at hlt
    exact append_lt_cancel hlt
  have hnames : (scan store p).map (fun kv => kv.1.drop p.length) = names m := by
    refine hsorted.eq_of_mem_iff (List.pairwise_map.mpr m.asc) fun name => ?_
    have hmem : name ∈ names m ↔ m.find name ≠ none := by
      rw [names, List.mem_map, Option.ne_none_iff_exists']
      constructor
      · rintro ⟨e, he, rfl⟩
        exact ⟨e.2, m.mem_entries.mp he⟩
      · rintro ⟨v, hv⟩
        exact ⟨(name, v), m.mem_entries.mpr hv, rfl⟩
    rw [hmem, ← h, List.mem_map]
    constructor
    · rintro ⟨kv, hkv, rfl⟩
      rw [hsplit kv hkv, (mem_scan.mp hkv).2]
      exact Option.some_ne_none _
    · intro hfind
      obtain ⟨blob, hblob⟩ := Option.ne_none_iff_exists'.mp hfind
      exact ⟨(p ++ name, blob), mem_scan.mpr ⟨List.prefix_append _ _, hblob⟩,
        List.drop_left⟩
  rw [listNames, hnames]
  rfl

lemma showTables (h : Refines (n + 1) store cat) {sql : Bytes} {s : ShowTablesStatement}
    (hparse : parse sql = .ok (.showTables s)) :
    Agrees n store (executeShowTables store s) (cat, Relational.showTables cat s) := by
  refine agrees_read h ?_
  have hrequire := h.requireDatabase s.dbName
  have hname := showTables_name hparse
  rw [Relational.showTables]
  cases hdatabase : Relational.database cat s.dbName with
  | error e =>
    rw [hdatabase] at hrequire
    rw [hrequire]
    rfl
  | ok tables =>
    rw [hdatabase] at hrequire
    rw [hrequire]
    refine congrArg Except.ok (listNames_eq fun t => ?_)
    have hdb : cat.find s.dbName = some tables := by
      unfold Relational.database at hdatabase
      cases hdb : cat.find s.dbName with
      | none =>
        rw [hdb] at hdatabase
        cases hdatabase
      | some tables' =>
        rw [hdb] at hdatabase
        rw [Except.ok.inj hdatabase]
    show store.find (schemaKey s.dbName t) ≠ none ↔ _
    rw [h.schema s.dbName t hname, relationAt, hdb]
    exact not_congr Option.map_eq_none_iff

lemma showDatabases (h : Refines (n + 1) store cat) :
    Agrees n store (executeShowDatabases store)
      (cat, .ok (listing (text "database") (names cat))) :=
  agrees_read h (congrArg Except.ok (listNames_eq h.database))

/-- **A statement on the store is the statement on the relations.** -/
lemma execute (h : Refines (n + 1) store cat) {sql : Bytes} (hsql : sql.length + n < 2 ^ 32) :
    Agrees n store (SqlExecutor.execute store sql) (Relational.execute cat sql) := by
  have hshort : sql.length < 2 ^ 32 := (Nat.le_add_right _ n).trans_lt hsql
  unfold SqlExecutor.execute Relational.execute
  cases hparse : parse sql with
  | error e => exact ⟨rfl, h.mono (Nat.le_succ n)⟩
  | ok stmt =>
    cases stmt with
    | createDatabase s => exact h.createDatabase s
    | createTable s => exact h.createTable hparse hsql
    | alterTableAddColumn s => exact h.alterTable hparse hshort
    | insert s => exact h.insert hparse hshort
    | select s => exact h.select hparse
    | update s => exact h.update hparse hshort
    | showTables s => exact h.showTables hparse
    | showDatabases => exact h.showDatabases
    | delete s => exact h.delete hparse

lemma runAll {sqls : List Bytes} (h : Refines (sqls.length + n) store cat)
    (hsqls : ∀ sql ∈ sqls, sql.length + (sqls.length + n) ≤ 2 ^ 32) :
    Refines n (SqlAtomic.runAll store sqls) (catalogAfter cat sqls) := by
  induction sqls generalizing store cat with
  | nil => rwa [List.length_nil, Nat.zero_add] at h
  | cons sql sqls ih =>
    obtain ⟨hsql, hrest⟩ := List.forall_mem_cons.mp hsqls
    rw [List.length_cons, Nat.succ_add] at h hsql
    have hstep := h.execute (show sql.length + (sqls.length + n) < 2 ^ 32 by omega)
    refine ih hstep.refines fun sql' hsql' => ?_
    have := hrest sql' hsql'
    rw [List.length_cons] at this
    omega

end Refines

lemma answers_eq {sqls : List Bytes} (h : Refines sqls.length store cat)
    (hsqls : ∀ sql ∈ sqls, sql.length + sqls.length ≤ 2 ^ 32) :
    SqlAlter.answers SqlExecutor.execute store sqls = Relational.answers cat sqls := by
  induction sqls generalizing store cat with
  | nil => rfl
  | cons sql sqls ih =>
    obtain ⟨hsql, hrest⟩ := List.forall_mem_cons.mp hsqls
    rw [List.length_cons] at h hsql
    have hstep := h.execute (show sql.length + sqls.length < 2 ^ 32 by omega)
    rw [SqlAlter.answers, Relational.answers, hstep.answer, ih hstep.refines]
    intro sql' hsql'
    have := hrest sql' hsql'
    rw [List.length_cons] at this
    omega

/-- **The SQL layer is a relational database**: every statement of every sequence returns or throws
what it does on the relations. -/
theorem answers_relational {sqls : List Bytes}
    (hsqls : ∀ sql ∈ sqls, sql.length + sqls.length ≤ 2 ^ 32) :
    SqlAlter.answers SqlExecutor.execute .empty sqls = Relational.answers .empty sqls :=
  answers_eq Refines.empty hsqls

/-- The `UPDATE` rewrites the first row, which is older than its last column, and throws on the
second. -/
def halfUpdated : List Bytes := [
  text "CREATE DATABASE d",
  text "CREATE TABLE d.t (k TEXT PRIMARY KEY, n INT)",
  text "INSERT INTO d.t (k, n) VALUES ('a', 1)",
  text "INSERT INTO d.t (k, n) VALUES ('b', 99999999999999999999)",
  text "ALTER TABLE d.t ADD COLUMN s TEXT DEFAULT 'x'",
  text "UPDATE d.t SET s = 'y' WHERE n > 0",
  text "SELECT * FROM d.t"]

theorem answers_relational_halfUpdated :
    SqlAlter.answers SqlExecutor.execute .empty halfUpdated =
        Relational.answers .empty halfUpdated ∧
      (Relational.answers .empty halfUpdated)[5]? = some (.error .outOfRange) ∧
      (Relational.answers .empty halfUpdated)[6]? =
        some (.ok (text "k\tn\ts\na\t1\ty\nb\t99999999999999999999\tx")) :=
  ⟨answers_relational (by decide +kernel), by decide +kernel, by decide +kernel⟩

end DistDB.SqlRelational
