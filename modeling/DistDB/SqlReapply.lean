import DistDB.SqlStore

/-!
Running a statement again that was interrupted. The applied index is saved behind the effect of a
command, so a crash can leave a part of its writes behind and the command runs once more.

The writes of a row loop are for different rows, so a second run meets the rows done as they are
now and the others as they were. What is done is done again in the same way, or not at all; but
evaluating the `WHERE` of a row that has been rewritten may throw, and then the rows behind it are
never reached (`rewritten_row_throws`). Exactly when no later row would have been changed, nothing
is lost (`reapplied_iff`).
-/

namespace DistDB.SqlReapply

open SqlParser SqlTexts SqlExecutor SqlAtomic SqlRuns SqlStore WalModel EngineInv EngineMap
open Checks Bytes OrdMap

lemma applyTo_eq_self {store : Store} {mu : Mutation} :
    applyTo store mu = store ↔ store.find mu.record.key = entryOf mu.record := by
  constructor
  · intro h
    have hfind := find_applyTo store mu mu.record.key
    rwa [h, if_pos rfl] at hfind
  · intro h
    refine ext_find fun k => ?_
    rw [find_applyTo]
    split_ifs with hk
    · rw [hk, h]
    · rfl

lemma applyAll_append (store : Store) (ws ws' : List Mutation) :
    applyAll store (ws ++ ws') = applyAll (applyAll store ws) ws' := List.foldl_append

lemma applyAll_idle {store : Store} {ws : List Mutation}
    (h : ∀ mu ∈ ws, applyTo store mu = store) : applyAll store ws = store := by
  induction ws with
  | nil => rfl
  | cons mu ws ih =>
    obtain ⟨hmu, hws⟩ := List.forall_mem_cons.mp h
    rw [applyAll, List.foldl_cons, hmu]
    exact ih hws

abbrev DistinctKeys (ws : List Mutation) : Prop :=
  ws.Pairwise fun a b => a.record.key ≠ b.record.key

lemma applyTo_done {store : Store} {ws : List Mutation} (hws : DistinctKeys ws) {mu : Mutation}
    (hmu : mu ∈ ws) : applyTo (applyAll store ws) mu = applyAll store ws := by
  rw [applyTo_eq_self]
  obtain ⟨before, after, rfl⟩ := List.append_of_mem hmu
  obtain ⟨-, hafter, -⟩ := List.pairwise_append.mp hws
  rw [applyAll_append]
  show (applyAll (applyTo (applyAll store before) mu) after).find _ = _
  rw [find_applyAll fun mu' hmu' => ((List.pairwise_cons.mp hafter).1 mu' hmu').symm, find_applyTo,
    if_pos rfl]

lemma applyTo_other {store : Store} {ws : List Mutation} {mu : Mutation}
    (h : ∀ mu' ∈ ws, mu'.record.key ≠ mu.record.key) :
    applyTo (applyAll store ws) mu = applyAll store ws ↔ applyTo store mu = store := by
  rw [applyTo_eq_self, applyTo_eq_self, find_applyAll h]

/-! ### What a row loop writes -/

section

variable {schema : TableSchema} {whereClause : List Condition}
  {write : Bytes → Row → Except Exception Mutation}

/-- The writes for rows none of which throws. -/
def written (change : Bytes × Bytes → Except Exception (Option Mutation))
    (rows : List (Bytes × Bytes)) : List Mutation :=
  rows.filterMap fun r =>
    match change r with
    | .ok mu => mu
    | .error _ => none

lemma mem_written {change : Bytes × Bytes → Except Exception (Option Mutation)}
    {rows : List (Bytes × Bytes)} {mu : Mutation} :
    mu ∈ written change rows ↔ ∃ r ∈ rows, change r = .ok (some mu) := by
  rw [written, List.mem_filterMap]
  refine exists_congr fun r => and_congr_right fun _ => ?_
  cases change r <;> simp

lemma writeRows_cons_stop {row : Bytes × Bytes} {rows : List (Bytes × Bytes)}
    (h : ¬ Succeeds (rowChange schema whereClause write row)) :
    (writeRows schema whereClause write (row :: rows)).1 = [] := by
  obtain ⟨key, blob⟩ := row
  rw [writeRows]
  rcases hmatch : matchRow schema whereClause blob with e | _ | row
  · rfl
  · exact absurd ⟨_, rowChange_of_none (key, blob) hmatch⟩ h
  · rw [rowChange_of_some (key, blob) hmatch] at h
    rcases hwrite : write key row with e | mu
    · simp only [hwrite]
    · rw [hwrite] at h
      exact absurd ⟨_, rfl⟩ h

lemma writeRows_cons_go {row : Bytes × Bytes} {rows : List (Bytes × Bytes)} {mu : Option Mutation}
    (h : rowChange schema whereClause write row = .ok mu) :
    (writeRows schema whereClause write (row :: rows)).1 =
      mu.toList ++ (writeRows schema whereClause write rows).1 := by
  obtain ⟨key, blob⟩ := row
  rw [writeRows]
  rcases hmatch : matchRow schema whereClause blob with e | _ | row
  · rw [rowChange_of_error (key, blob) hmatch] at h
    cases h
  · rw [rowChange_of_none (key, blob) hmatch] at h
    cases h
    rfl
  · rw [rowChange_of_some (key, blob) hmatch] at h
    rcases hwrite : write key row with e | mu'
    · rw [hwrite] at h
      cases h
    · rw [hwrite] at h
      cases h
      simp only [hwrite]
      rfl

lemma writeRows_split {before after : List (Bytes × Bytes)}
    (h : ∀ r ∈ before, Succeeds (rowChange schema whereClause write r)) :
    (writeRows schema whereClause write (before ++ after)).1 =
      written (rowChange schema whereClause write) before ++
        (writeRows schema whereClause write after).1 := by
  induction before with
  | nil => rfl
  | cons r before ih =>
    obtain ⟨⟨mu, hr⟩, hbefore⟩ := List.forall_mem_cons.mp h
    rw [List.cons_append, writeRows_cons_go hr, ih hbefore, ← List.append_assoc]
    congr 1
    rw [written, written, List.filterMap_cons]
    simp only [hr]
    cases mu <;> rfl

lemma writeRows_within {before after : List (Bytes × Bytes)}
    (h : ∃ r ∈ before, ¬ Succeeds (rowChange schema whereClause write r)) {mu : Mutation}
    (hmu : mu ∈ (writeRows schema whereClause write (before ++ after)).1) :
    mu ∈ written (rowChange schema whereClause write) before := by
  induction before with
  | nil =>
    obtain ⟨r, hr, -⟩ := h
    cases hr
  | cons r before ih =>
    by_cases hr : Succeeds (rowChange schema whereClause write r)
    · obtain ⟨mu₀, hr'⟩ := hr
      rw [List.cons_append, writeRows_cons_go hr'] at hmu
      rcases List.mem_append.mp hmu with hmu | hmu
      · rw [Option.mem_toList] at hmu
        exact mem_written.mpr ⟨r, List.mem_cons_self, by rw [hr', hmu]⟩
      · have hrest : ∃ r ∈ before, ¬ Succeeds (rowChange schema whereClause write r) := by
          obtain ⟨r', hmem, hthrow⟩ := h
          rcases List.mem_cons.mp hmem with rfl | hmem
          · exact absurd ⟨mu₀, hr'⟩ hthrow
          · exact ⟨r', hmem, hthrow⟩
        obtain ⟨r', hmem, hchange⟩ := mem_written.mp (ih hrest hmu)
        exact mem_written.mpr ⟨r', List.mem_cons_of_mem _ hmem, hchange⟩
    · rw [List.cons_append, writeRows_cons_stop hr] at hmu
      cases hmu

lemma mem_writeRows_iff {rows : List (Bytes × Bytes)} {mu : Mutation} :
    mu ∈ (writeRows schema whereClause write rows).1 ↔ ∃ before r after,
      rows = before ++ r :: after ∧
      (∀ r ∈ before, Succeeds (rowChange schema whereClause write r)) ∧
      rowChange schema whereClause write r = .ok (some mu) := by
  constructor
  · intro h
    induction rows with
    | nil => cases h
    | cons r rows ih =>
      by_cases hr : Succeeds (rowChange schema whereClause write r)
      · obtain ⟨mu₀, hr'⟩ := hr
        rw [writeRows_cons_go hr'] at h
        rcases List.mem_append.mp h with h | h
        · rw [Option.mem_toList] at h
          exact ⟨[], r, rows, rfl, nofun, by rw [hr', h]⟩
        · obtain ⟨before, r', after, rfl, hbefore, hchange⟩ := ih h
          exact ⟨r :: before, r', after, rfl,
            List.forall_mem_cons.mpr ⟨⟨mu₀, hr'⟩, hbefore⟩, hchange⟩
      · rw [writeRows_cons_stop hr] at h
        cases h
  · rintro ⟨before, r, after, rfl, hbefore, hchange⟩
    rw [writeRows_split hbefore, writeRows_cons_go hchange]
    simp

lemma cut_of_isPrefix {rows : List (Bytes × Bytes)} {done : List Mutation}
    (h : done <+: (writeRows schema whereClause write rows).1) : ∃ before after,
      rows = before ++ after ∧
      (∀ r ∈ before, Succeeds (rowChange schema whereClause write r)) ∧
      done = written (rowChange schema whereClause write) before := by
  induction rows generalizing done with
  | nil => exact ⟨[], [], rfl, nofun, List.prefix_nil.mp h⟩
  | cons r rows ih =>
    by_cases hr : Succeeds (rowChange schema whereClause write r)
    · obtain ⟨mu, hr'⟩ := hr
      rw [writeRows_cons_go hr'] at h
      have hmore : ∀ {rest}, rest <+: (writeRows schema whereClause write rows).1 →
          ∃ before after, r :: rows = before ++ after ∧
            (∀ r ∈ before, Succeeds (rowChange schema whereClause write r)) ∧
            mu.toList ++ rest = written (rowChange schema whereClause write) before := by
        intro rest hrest
        obtain ⟨before, after, rfl, hbefore, rfl⟩ := ih hrest
        refine ⟨r :: before, after, rfl, List.forall_mem_cons.mpr
          ⟨⟨mu, hr'⟩, hbefore⟩, ?_⟩
        rw [written, written, List.filterMap_cons]
        simp only [hr']
        cases mu <;> rfl
      cases mu with
      | none => exact hmore h
      | some mu =>
        cases done with
        | nil => exact ⟨[], r :: rows, rfl, nofun, rfl⟩
        | cons mu' rest =>
          obtain ⟨rfl, hrest⟩ := List.cons_prefix_cons.mp h
          exact hmore hrest
    · rw [writeRows_cons_stop hr] at h
      exact ⟨[], r :: rows, rfl, nofun, List.prefix_nil.mp h⟩

/-- A row once it is done: rewritten, gone, or as it was. -/
def settled (change : Bytes × Bytes → Except Exception (Option Mutation)) (r : Bytes × Bytes) :
    Option (Bytes × Bytes) :=
  match change r with
  | .ok (some mu) => (entryOf mu.record).map (r.1, ·)
  | _ => some r

lemma scan_applyTo {store : Store} {p : Bytes} {before after : List (Bytes × Bytes)}
    {r : Bytes × Bytes} {mu : Mutation} (hscan : scan store p = before ++ r :: after)
    (hkey : mu.record.key = r.1) :
    scan (applyTo store mu) p =
      before ++ ((entryOf mu.record).map (r.1, ·)).toList ++ after := by
  have hasc : Asc (before ++ r :: after) := hscan ▸ scan_asc store p
  have hmem : ∀ e, e ∈ before ++ r :: after ↔ p <+: e.1 ∧
      store.find e.1 = some e.2 := fun e => by
    rw [← hscan, mem_scan]
  have hsplit := hasc
  rw [Asc, List.pairwise_append, List.pairwise_cons] at hsplit
  obtain ⟨hbefore, ⟨hr, hafter⟩, hcross⟩ := hsplit
  have hother : ∀ e, e ∈ before ∨ e ∈ after → e.1 ≠ r.1 := by
    rintro e (he | he)
    · exact (hcross e he r List.mem_cons_self).ne
    · exact (hr e he).ne'
  have hin : p <+: r.1 := ((hmem r).mp (by simp)).1
  have hnew : Asc (before ++ ((entryOf mu.record).map (r.1, ·)).toList ++ after) := by
    rcases entryOf mu.record with _ | blob
    · exact hasc.sublist (by simp)
    · rw [Option.map_some, Option.toList_some, List.append_assoc, List.singleton_append, Asc,
        List.pairwise_append, List.pairwise_cons]
      refine ⟨hbefore, ⟨hr, hafter⟩, fun a ha b hb => ?_⟩
      rcases List.mem_cons.mp hb with rfl | hb
      · exact hcross a ha r List.mem_cons_self
      · exact hcross a ha b (List.mem_cons_of_mem _ hb)
  refine asc_of_mem (scan_asc _ _) hnew fun e => ?_
  rw [mem_scan, find_applyTo, hkey, List.append_assoc, List.mem_append, List.mem_append,
    Option.mem_toList, Option.map_eq_some_iff]
  by_cases he : e.1 = r.1
  · rw [if_pos he]
    constructor
    · rintro ⟨-, hentry⟩
      exact .inr (.inl ⟨e.2, hentry, Prod.ext he.symm rfl⟩)
    · rintro (hb | ⟨blob, hentry, rfl⟩ | ha)
      · exact absurd he (hother e (.inl hb))
      · exact ⟨hin, hentry⟩
      · exact absurd he (hother e (.inr ha))
  · rw [if_neg he, ← hmem, List.mem_append, List.mem_cons]
    have hne : e ≠ r := fun h => he (by rw [h])
    constructor
    · rintro (hb | rfl | ha)
      · exact .inl hb
      · exact absurd rfl hne
      · exact .inr (.inr ha)
    · rintro (hb | ⟨blob, -, rfl⟩ | ha)
      · exact .inl hb
      · exact absurd rfl he
      · exact .inr (.inr ha)

lemma scan_written {change : Bytes × Bytes → Except Exception (Option Mutation)}
    (hkey : ∀ r mu, change r = .ok (some mu) → mu.record.key = r.1)
    {store : Store} {p : Bytes} {first before after : List (Bytes × Bytes)}
    (hscan : scan store p = first ++ (before ++ after)) :
    scan (applyAll store (written change before)) p =
      first ++ (before.filterMap (settled change) ++ after) := by
  induction before generalizing store first with
  | nil => exact hscan
  | cons r before ih =>
    rw [written, List.filterMap_cons, List.filterMap_cons]
    rcases hr : change r with e | _ | mu
    · have hsettled : settled change r = some r := by rw [settled, hr]
      have hrest := @ih store (first ++ [r]) (by rw [hscan]; simp)
      simpa [hsettled, written] using hrest
    · have hsettled : settled change r = some r := by rw [settled, hr]
      have hrest := @ih store (first ++ [r]) (by rw [hscan]; simp)
      simpa [hsettled, written] using hrest
    · have hsettled : settled change r = (entryOf mu.record).map (r.1, ·) := by rw [settled, hr]
      have hstep := scan_applyTo (hscan.trans (by rw [List.cons_append])) (hkey r mu hr)
      have hrest := @ih (applyTo store mu) (first ++ ((entryOf mu.record).map (r.1, ·)).toList)
        (by rw [hstep, List.append_assoc])
      simp only [hsettled]
      rcases hentry : entryOf mu.record with _ | blob
      · simpa [hentry, written, applyAll] using hrest
      · simpa [hentry, written, applyAll] using hrest

/-! ### A second run -/

/-- What a second run makes of a row that is done, if it can evaluate it: the same, or nothing. -/
def Repeats (change : Bytes × Bytes → Except Exception (Option Mutation)) : Prop :=
  ∀ r mu r', change r = .ok (some mu) → settled change r = some r' →
    ∀ mu', change r' = .ok (some mu') → mu' = mu

/-- Behind a row that is written so that it cannot be evaluated again no row is changed. -/
def StopsLate (store : Store) (change : Bytes × Bytes → Except Exception (Option Mutation))
    (rows : List (Bytes × Bytes)) : Prop :=
  ∀ before row middle later after mu row' mu',
    rows = before ++ row :: (middle ++ later :: after) →
    (∀ r ∈ before ++ row :: middle, Succeeds (change r)) → change row = .ok (some mu) →
    settled change row = some row' → ¬ Succeeds (change row') →
      change later = .ok (some mu') →
    applyTo store mu' = store

lemma rowChange_key (hwrite : ∀ key row mu, write key row = .ok mu → mu.record.key = key)
    {r : Bytes × Bytes} {mu : Mutation}
    (hr : rowChange schema whereClause write r = .ok (some mu)) : mu.record.key = r.1 := by
  unfold rowChange at hr
  obtain ⟨found, -, hr⟩ := bind_eq_ok.mp hr
  cases found with
  | none => cases hr
  | some row =>
    obtain ⟨mu', hmu', hr⟩ := bind_eq_ok.mp hr
    cases hr
    exact hwrite _ _ _ hmu'

lemma applyTo_settled {change : Bytes × Bytes → Except Exception (Option Mutation)}
    (hrepeats : Repeats change) {before : List (Bytes × Bytes)} {store : Store}
    (hdistinct : DistinctKeys (written change before))
    (hbefore : ∀ r ∈ before, Succeeds (change r)) {mu : Mutation}
    (hmu : mu ∈ written change (before.filterMap (settled change))) :
    applyTo (applyAll store (written change before)) mu =
      applyAll store (written change before) := by
  obtain ⟨r', hr', hmu⟩ := mem_written.mp hmu
  obtain ⟨r, hr, hsettled⟩ := List.mem_filterMap.mp hr'
  obtain ⟨_ | mu₀, hr₀⟩ := hbefore r hr
  · have heq : r = r' := by
      rw [settled, hr₀] at hsettled
      exact Option.some.inj hsettled
    rw [← heq, hr₀] at hmu
    cases hmu
  · obtain rfl := hrepeats r mu₀ r' hr₀ hsettled mu hmu
    exact applyTo_done hdistinct (mem_written.mpr ⟨r, hr, hr₀⟩)

/-- **A row loop that is interrupted and run again** leaves what it leaves when it is not
interrupted, wherever the cut falls, exactly when it stops at no rewritten row too early. -/
theorem rows_reapplied_iff {store : Store} {p : Bytes}
    (hwrite : ∀ key row mu, write key row = .ok mu → mu.record.key = key)
    (hrepeats : Repeats (rowChange schema whereClause write)) :
    (∀ done, done <+: (writeRows schema whereClause write (scan store p)).1 →
      applyAll (applyAll store done)
          (writeRows schema whereClause write (scan (applyAll store done) p)).1 =
        applyAll store (writeRows schema whereClause write (scan store p)).1) ↔
    StopsLate store (rowChange schema whereClause write) (scan store p) := by
  set change := rowChange schema whereClause write with hchange
  -- the rows before the cut and behind it, and the store at the cut
  have hdistinct : ∀ before after, scan store p = before ++ after →
      (∀ r ∈ before, Succeeds (change r)) →
      DistinctKeys (written change before ++ (writeRows schema whereClause write after).1) := by
    intro before after hrows hbefore
    rw [← writeRows_split hbefore, ← hrows]
    exact writeRows_distinct hwrite (scan_asc store p)
  have hidle : ∀ before after, scan store p = before ++ after →
      (∀ r ∈ before, Succeeds (change r)) →
        ∀ mu ∈ written change (before.filterMap (settled change)),
      applyTo (applyAll store (written change before)) mu =
        applyAll store (written change before) := fun before after hrows hbefore mu hmu =>
    applyTo_settled hrepeats (List.pairwise_append.mp (hdistinct before after hrows hbefore)).1
      hbefore hmu
  have hscan : ∀ before after, scan store p = before ++ after →
      scan (applyAll store (written change before)) p =
        before.filterMap (settled change) ++ after := fun before after hrows =>
    @scan_written _ (fun r mu hr => rowChange_key hwrite hr) _ _ [] _ _ hrows
  constructor
  · intro hall before row middle later after mu row' mu' hrows hgo hrow hsettled hthrow hlater
    have hrows' : scan store p = (before ++ [row]) ++ (middle ++ later :: after) := by
      rw [hrows]
      simp
    have hsucceeds : ∀ r ∈ before ++ [row], Succeeds (change r) := fun r hr =>
      hgo r (by simp only [List.mem_append, List.mem_cons] at hr ⊢; tauto)
    have hmu' : mu' ∈ (writeRows schema whereClause write (middle ++ later :: after)).1 :=
      mem_writeRows_iff.mpr ⟨middle, later, after, rfl, fun r hr => hgo r
        (by simp [hr]), hlater⟩
    have hrun := hall (written change (before ++ [row])) (by
      rw [hrows', writeRows_split hsucceeds]
      exact List.prefix_append _ _)
    rw [hscan _ _ hrows', applyAll_idle fun mu hmu => hidle _ _ hrows' hsucceeds mu
      (writeRows_within ⟨row', List.mem_filterMap.mpr
        ⟨row, by simp, hsettled⟩, hthrow⟩ hmu),
      hrows', writeRows_split hsucceeds, applyAll_append] at hrun
    have hpairs := List.pairwise_append.mp (hdistinct _ _ hrows' hsucceeds)
    have hsame := (applyAll_eq_self hpairs.2.1).mp hrun.symm mu' hmu'
    exact (applyTo_other fun mu₀ hmu₀ => hpairs.2.2 mu₀ hmu₀ mu' hmu').mp hsame
  · intro hlate done hdone
    obtain ⟨before, after, hrows, hcut, rfl⟩ := cut_of_isPrefix hdone
    have hbefore : ∀ r ∈ before, Succeeds (change r) := hcut
    have hpairs := List.pairwise_append.mp (hdistinct _ _ hrows hbefore)
    rw [hscan _ _ hrows]
    conv_rhs => rw [hrows, writeRows_split hbefore, applyAll_append]
    by_cases hstop : ∃ r ∈ before.filterMap (settled change), ¬ Succeeds (change r)
    · rw [applyAll_idle fun mu hmu => hidle _ _ hrows hbefore mu (writeRows_within hstop hmu)]
      -- nothing is changed behind the rewritten row that throws
      obtain ⟨row', hrow', hthrow⟩ := hstop
      obtain ⟨row, hrow, hsettled⟩ := List.mem_filterMap.mp hrow'
      obtain ⟨_ | mu, hmu⟩ := hbefore row hrow
      · have heq : row = row' := by
          rw [settled, hmu] at hsettled
          exact Option.some.inj hsettled
        rw [← heq] at hthrow
        exact absurd ⟨_, hmu⟩ hthrow
      · obtain ⟨first, middle, rfl⟩ := List.append_of_mem hrow
        refine (applyAll_idle fun mu' hmu' => ?_).symm
        rw [applyTo_other fun mu₀ hmu₀ => hpairs.2.2 mu₀ hmu₀ mu' hmu']
        obtain ⟨passed, later, rest, rfl, hpassed, hlater⟩ := mem_writeRows_iff.mp hmu'
        refine hlate first row (middle ++ passed) later rest mu row' mu' (by rw [hrows]; simp)
          (fun r hr => ?_) hmu hsettled hthrow hlater
        rw [← List.cons_append, ← List.append_assoc] at hr
        rcases List.mem_append.mp hr with hr | hr
        · exact hbefore r hr
        · exact hpassed r hr
    · have hgo : ∀ r ∈ before.filterMap (settled change), Succeeds (change r) := by
        intro r hr
        by_contra hthrow
        exact hstop ⟨r, hr, hthrow⟩
      rw [writeRows_split hgo, applyAll_append,
        applyAll_idle fun mu hmu => hidle _ _ hrows hbefore mu hmu]

end

lemma assign_agree {as : List (ℕ × Bytes)} {row₁ row₂ row' : Row}
    (hlen : row₁.length = row₂.length)
    (hagree : ∀ k, (∀ a ∈ as, a.1 ≠ k) → row₁[k]? = row₂[k]?)
    (h : assign as row₁ = .ok row') :
    assign as row₂ = .ok row' := by
  induction as generalizing row₁ row₂ with
  | nil =>
    cases h
    rw [assign, List.ext_getElem? fun k => (hagree k (List.forall_mem_nil _)).symm]
  | cons a as ih =>
    obtain ⟨idx, literal⟩ := a
    rw [assign] at h ⊢
    split_ifs at h with hlt
    rw [if_pos (hlen ▸ hlt)]
    refine ih (by simpa using hlen) (fun k hk => ?_) h
    by_cases heq : idx = k
    · rw [heq, List.getElem?_set_self (heq ▸ hlt), List.getElem?_set_self (heq ▸ hlen ▸ hlt)]
    · rw [List.getElem?_set_ne heq, List.getElem?_set_ne heq]
      exact hagree k (List.forall_mem_cons.mpr ⟨heq, hk⟩)

lemma assign_again {as : List (ℕ × Bytes)} {row row' : Row} (h : assign as row = .ok row') :
    assign as row' = .ok row' := by
  obtain ⟨hlen, -, hkeep⟩ := assign_spec h
  exact assign_agree hlen.symm (fun k hk => (hkeep k hk).symm) h

lemma padRow_full {schema : TableSchema} {row : Row} (h : schema.columns.length ≤ row.length) :
    padRow schema row = .ok row := by
  rw [padRow, List.drop_eq_nil_iff.mpr h]
  show Except.ok (row ++ []) = _
  rw [List.append_nil]

lemma repeats_rewrite {schema : TableSchema} {whereClause : List Condition}
    {assignments : List (ℕ × Bytes)}
    (hschema : schema.columns.length < 2 ^ 32 ∧ ∀ c ∈ schema.columns, SmallColumn c)
    (hliterals : ∀ a ∈ assignments, a.2.length < 2 ^ 32) :
    Repeats (rowChange schema whereClause (rewrite assignments)) := by
  intro r mu r' hmu hsettled mu' hmu'
  rw [settled, hmu] at hsettled
  obtain ⟨found, hfound, hmu⟩ := bind_eq_ok.mp hmu
  rcases found with _ | row
  · cases hmu
  obtain ⟨_, hrewrite, hmu⟩ := bind_eq_ok.mp hmu
  cases hmu
  unfold rewrite at hrewrite
  rcases hassign : assign assignments row with e | row₁
  · rw [hassign] at hrewrite
    cases hrewrite
  rw [hassign] at hrewrite
  cases hrewrite
  obtain rfl := Option.some.inj hsettled
  obtain ⟨hlen, hcells, -⟩ := assign_spec hassign
  obtain ⟨hrlen, hrcells⟩ := matchRow_small hschema hfound
  obtain ⟨-, stored, missing, -, rfl, hmissing, -⟩ := matchRow_spec hfound
  -- the row that was written is read back as it is, and assigning to it again changes nothing
  have hdecode : decodeRow (encodeRow row₁) = .ok row₁ :=
    decodeRow_encodeRow (hlen ▸ hrlen) fun v hv => by
      rcases hcells v hv with hv | ⟨a, ha, rfl⟩
      · exact hrcells v hv
      · exact hliterals a ha
  have hpad : padRow schema row₁ = .ok row₁ := padRow_full (by
    rw [hlen, List.length_append]
    omega)
  obtain ⟨found', hfound', hmu'⟩ := bind_eq_ok.mp hmu'
  obtain ⟨row₂, hrow₂, hfound'⟩ := bind_eq_ok.mp hfound'
  cases hdecode.symm.trans hrow₂
  obtain ⟨row₃, hrow₃, hfound'⟩ := bind_eq_ok.mp hfound'
  cases hpad.symm.trans hrow₃
  obtain ⟨holds, -, hfound'⟩ := bind_eq_ok.mp hfound'
  cases holds with
  | false =>
    cases hfound'
    cases hmu'
  | true =>
    cases hfound'
    obtain ⟨_, hrewrite, hmu'⟩ := bind_eq_ok.mp hmu'
    cases hmu'
    rw [rewrite, assign_again hassign] at hrewrite
    exact (Except.ok.inj hrewrite).symm

/-! ### Every statement -/

/-- Running the text again on what a part of its writes leaves, wherever it is cut, leaves what one
whole run leaves. -/
def Reapplies (store : Store) (effect : Store → Effect) : Prop :=
  ∀ done, done <+: (effect store).1 →
    applyAll (applyAll store done) (effect (applyAll store done)).1 =
      applyAll store (effect store).1

/-- Behind a row that an `UPDATE` has rewritten so that its `WHERE` throws, the `UPDATE` changes no
row. -/
def Rereadable (store : Store) : Statement → Prop
  | .update s => ∀ schema assignments, loadSchema store s.dbName s.tableName = .ok schema →
      s.assignments.mapM (checkAssignment schema) = .ok assignments →
      StopsLate store (rowChange schema s.whereClause (rewrite assignments))
        (scan store (rowPrefix s.dbName s.tableName))
  | _ => True

lemma reapplies_once {store : Store} {effect : Store → Except Exception (Mutation × Bytes)}
    (h : ∀ mu out, effect store = .ok (mu, out) → ¬ Succeeds (effect (applyTo store mu))) :
    Reapplies store fun store => .ofWrite (effect store) := by
  intro done hdone
  dsimp only at hdone ⊢
  rcases heffect : effect store with e | ⟨mu, out⟩
  · rw [heffect] at hdone
    obtain rfl := List.prefix_nil.mp hdone
    simp only [applyAll, List.foldl_nil, heffect]
  · rw [heffect] at hdone
    cases done with
    | nil => simp only [applyAll, List.foldl_nil, heffect]
    | cons mu' rest =>
      obtain ⟨rfl, hrest⟩ := List.cons_prefix_cons.mp hdone
      obtain rfl := List.prefix_nil.mp hrest
      rcases hagain : effect (applyTo store mu') with e | out'
      · simp only [applyAll, List.foldl_cons, List.foldl_nil]
        rw [hagain]
        rfl
      · exact absurd ⟨_, hagain⟩ (h mu' out heffect)

lemma throwIf_succeeds {p : Prop} [Decidable p] {e : Exception} {α : Type}
    {f : Unit → Except Exception α} (hp : p) : ¬ Succeeds (throwIf p e >>= f) := by
  rw [throwIf, if_pos hp]
  exact succeeds_error e

lemma not_succeeds_bind {α β : Type} {x : Except Exception α} {f : α → Except Exception β}
    (h : ∀ a, x = .ok a → ¬ Succeeds (f a)) : ¬ Succeeds (x >>= f) := by
  rintro ⟨b, hb⟩
  obtain ⟨a, ha, hb⟩ := bind_eq_ok.mp hb
  exact h a ha ⟨b, hb⟩

lemma find_put (store : Store) (key value : Bytes) :
    (applyTo store (.put key value)).find key = some value := find_insert_self store key value

lemma createDatabase_reapplies (store : Store) (s : CreateDatabaseStatement) :
    Reapplies store fun store => executeCreateDatabase store s := by
  refine reapplies_once fun mu out h => ?_
  obtain ⟨_, -, h⟩ := bind_eq_ok.mp h
  cases h
  exact throwIf_succeeds (by rw [find_put]; simp)

lemma createTable_reapplies (store : Store) (s : CreateTableStatement) :
    Reapplies store fun store => executeCreateTable store s := by
  refine reapplies_once fun mu out h => ?_
  obtain ⟨_, -, h⟩ := bind_eq_ok.mp h
  obtain ⟨_, -, h⟩ := bind_eq_ok.mp h
  cases h
  exact not_succeeds_bind fun _ _ => throwIf_succeeds (by rw [find_put]; simp)

lemma alterTable_reapplies (store : Store) {s : AlterTableAddColumnStatement}
    (hcolumn : SmallColumn s.column) :
    Reapplies store fun store => executeAlterTableAddColumn store s := by
  refine reapplies_once fun mu out h => ?_
  obtain ⟨schema, hschema, h⟩ := bind_eq_ok.mp h
  obtain ⟨_, -, h⟩ := bind_eq_ok.mp h
  split at h
  · cases h
  · obtain ⟨_, -, h⟩ := bind_eq_ok.mp h
    cases h
    refine not_succeeds_bind fun schema' hschema' => throwIf_succeeds ?_
    rw [loadSchema, find_put] at hschema'
    obtain ⟨hlen, hsmall⟩ := loadSchema_small hschema
    have heq := @deserialize_serialize ⟨schema.columns ++ [s.column]⟩ _
      (by simpa [or_imp, forall_and] using ⟨hsmall, hcolumn⟩) (by simp; omega) hschema'
    rw [heq, TableSchema.columnIndex, List.findIdx?_append]
    simp

lemma insert_reapplies (store : Store) (s : InsertStatement) :
    Reapplies store fun store => executeInsert store s := by
  refine reapplies_once fun mu out h => ?_
  obtain ⟨schema, hschema, h⟩ := bind_eq_ok.mp h
  obtain ⟨⟨row, pk⟩, hinsert, h⟩ := bind_eq_ok.mp h
  obtain ⟨_, -, h⟩ := bind_eq_ok.mp h
  cases h
  have hload : loadSchema (applyTo store (.put (rowKey s.dbName s.tableName pk) (encodeRow row)))
      s.dbName s.tableName = .ok schema := by
    rw [loadSchema_congr, hschema]
    exact (find_applyTo _ _ _).trans (if_neg fun heq =>
      rowPrefix_ne_schemaKey (prefix_rowKey _ _ _) heq.symm)
  refine not_succeeds_bind fun schema' hschema' => not_succeeds_bind fun r hr => ?_
  cases hload.symm.trans hschema'
  cases hinsert.symm.trans hr
  exact throwIf_succeeds (by rw [find_put]; simp)

lemma loadSchema_rows {store : Store} {d t : Bytes} {done : List Mutation}
    (h : ∀ mu ∈ done, rowPrefix d t <+: mu.record.key) :
    loadSchema (applyAll store done) d t = loadSchema store d t :=
  loadSchema_congr (find_applyAll fun mu hmu => rowPrefix_ne_schemaKey (h mu hmu))

lemma rows_reapplies {store : Store} {d t what : Bytes} {whereClause : List Condition}
    {checks : TableSchema → Except Exception (Bytes → Row → Except Exception Mutation)}
    (hwrite : ∀ schema write, checks schema = .ok write →
      ∀ key row mu, write key row = .ok mu → mu.record.key = key)
    (hrepeats : ∀ schema write, loadSchema store d t = .ok schema →
      checks schema = .ok write → Repeats (rowChange schema whereClause write)) :
    (Reapplies store fun store => .ofRows (do
      let schema ← loadSchema store d t
      let write ← checks schema
      return writeRows schema whereClause write (scan store (rowPrefix d t))) what) ↔
    ∀ schema write, loadSchema store d t = .ok schema → checks schema = .ok write →
      StopsLate store (rowChange schema whereClause write) (scan store (rowPrefix d t)) := by
  have hnone : ∀ {effect : Store → Effect}, (effect store).1 = [] →
      Reapplies store effect := by
    intro effect h done hdone
    rw [h] at hdone
    obtain rfl := List.prefix_nil.mp hdone
    rfl
  rcases hload : loadSchema store d t with e | schema
  · refine ⟨fun _ _ _ h => (nomatch h), fun _ => hnone ?_⟩
    rw [hload]
    rfl
  rcases hchecks : checks schema with e | write
  · refine ⟨?_, fun _ => hnone ?_⟩
    · intro _ schema' write hschema h
      cases hschema
      cases hchecks.symm.trans h
    · rw [hload]
      show (Effect.ofRows (checks schema >>= _) what).1 = []
      rw [hchecks]
      rfl
  have heffect : ∀ st, loadSchema st d t = .ok schema → (Effect.ofRows (do
      let schema ← loadSchema st d t
      let write ← checks schema
      return writeRows schema whereClause write (scan st (rowPrefix d t))) what).1 =
      (writeRows schema whereClause write (scan st (rowPrefix d t))).1 := by
    intro st hst
    rw [hst]
    show (Effect.ofRows (checks schema >>= _) what).1 = _
    rw [hchecks]
    rfl
  have hloop := @rows_reapplied_iff schema whereClause write store (rowPrefix d t)
    (hwrite schema write hchecks) (hrepeats schema write hload hchecks)
  -- row writes leave the schema alone, so the second run passes the same checks
  have hagain : ∀ done, done <+: (writeRows schema whereClause write
      (scan store (rowPrefix d t))).1 → loadSchema (applyAll store done) d t = .ok schema := by
    intro done hdone
    rw [loadSchema_rows, hload]
    intro mu hmu
    obtain ⟨kv, hkv, row, -, hrow⟩ := mem_writeRows (hdone.subset hmu)
    rw [hwrite schema write hchecks _ _ _ hrow]
    exact (mem_scan.mp hkv).1
  constructor
  · rintro h _ write' ⟨⟩ hchecks'
    cases hchecks.symm.trans hchecks'
    refine hloop.mp fun done hdone => ?_
    have hrun := h done (by rw [heffect store hload]; exact hdone)
    rwa [heffect store hload, heffect _ (hagain done hdone)] at hrun
  · intro h done hdone
    rw [heffect store hload] at hdone
    rw [heffect store hload, heffect _ (hagain done hdone)]
    exact hloop.mpr (h schema write rfl hchecks) done hdone

lemma update_reapplies {store : Store} {s : UpdateStatement} (hs : Written (.update s)) :
    (Reapplies store fun store => executeUpdate store s) ↔ Rereadable store (.update s) := by
  have hform : ∀ st, executeUpdate st s = .ofRows (do
      let schema ← loadSchema st s.dbName s.tableName
      let write ← rewrite <$> s.assignments.mapM (checkAssignment schema)
      return writeRows schema s.whereClause write (scan st (rowPrefix s.dbName s.tableName)))
      (text " row(s) updated") := by
    intro st
    unfold executeUpdate
    congr 1
    rcases loadSchema st s.dbName s.tableName with e | schema
    · rfl
    show (s.assignments.mapM (checkAssignment schema) >>= _) =
      (rewrite <$> s.assignments.mapM (checkAssignment schema) >>= _)
    rcases s.assignments.mapM (checkAssignment schema) with e | assignments <;> rfl
  have hchecks : ∀ {schema write}, rewrite <$> s.assignments.mapM (checkAssignment schema) =
      .ok write ↔ ∃ assignments, s.assignments.mapM
        (checkAssignment schema) = .ok assignments ∧ rewrite assignments = write := by
    intro schema write
    rcases s.assignments.mapM (checkAssignment schema) with e | assignments
    · simp [Functor.map, Except.map]
    · simp [Functor.map, Except.map]
  simp only [hform]
  rw [rows_reapplies]
  · constructor
    · intro h schema assignments hschema has
      exact h schema _ hschema (hchecks.mpr ⟨assignments, has, rfl⟩)
    · intro h schema write hschema hwrite
      obtain ⟨assignments, has, rfl⟩ := hchecks.mp hwrite
      exact h schema assignments hschema has
  · intro schema write hwrite key row mu hmu
    obtain ⟨assignments, -, rfl⟩ := hchecks.mp hwrite
    exact rewrite_key hmu
  · intro schema write hschema hwrite
    obtain ⟨assignments, has, rfl⟩ := hchecks.mp hwrite
    refine repeats_rewrite (loadSchema_small hschema) fun a ha => ?_
    obtain ⟨a', ha', hcheck⟩ := mem_mapM has a ha
    exact (checkAssignment_spec hcheck).2 ▸ hs.2 a' ha'

lemma delete_reapplies (store : Store) (s : DeleteStatement) :
    Reapplies store fun store => executeDelete store s := by
  have hgone : ∀ schema r mu r', rowChange schema s.whereClause
      (fun key _ => .ok (.delete key)) r = .ok (some mu) →
      settled (rowChange schema s.whereClause fun key _ => .ok (.delete key)) r ≠ some r' := by
    intro schema r mu r' hmu hsettled
    rw [settled, hmu] at hsettled
    obtain ⟨found, -, hmu⟩ := bind_eq_ok.mp hmu
    rcases found with _ | row
    · cases hmu
    · cases hmu
      cases hsettled
  refine (@rows_reapplies _ _ _ _ _ (fun _ => .ok fun key _ => .ok (.delete key)) ?_ ?_).mpr ?_
  · rintro schema write ⟨⟩ key row mu ⟨⟩
    rfl
  · rintro schema write - ⟨⟩ r mu r' hmu hsettled
    exact absurd hsettled (hgone schema r mu r' hmu)
  · rintro schema write - ⟨⟩ before row middle later after mu row' mu' - - hmu hsettled
    exact absurd hsettled (hgone schema row mu row' hmu)

/-- **Re-applying an interrupted statement is harmless** exactly when, behind a row that an `UPDATE`
has rewritten so that its `WHERE` throws, the `UPDATE` changes no row. -/
theorem reapplied_iff (store : Store) {sql : Bytes} (hsql : sql.length < 2 ^ 32) :
    Reapplies store (fun store => execute store sql) ↔
      ∀ stmt, parse sql = .ok stmt → Rereadable store stmt := by
  unfold execute
  rcases hparse : parse sql with e | stmt
  · refine ⟨fun _ _ h => (nomatch h), ?_⟩
    intro _ done hdone
    obtain rfl := List.prefix_nil.mp hdone
    rfl
  have hwritten := parse_written hparse hsql
  simp only [Except.ok.injEq, forall_eq']
  have hread : ∀ {effect : Store → Effect}, (∀ st, (effect st).1 = []) →
    Reapplies store effect := by
    intro effect h done hdone
    rw [h] at hdone ⊢
    obtain rfl := List.prefix_nil.mp hdone
    rw [h]
    rfl
  cases stmt with
  | update s => exact update_reapplies hwritten
  | delete s => exact iff_of_true (delete_reapplies store s) trivial
  | createDatabase s => exact iff_of_true (createDatabase_reapplies store s) trivial
  | createTable s => exact iff_of_true (createTable_reapplies store s) trivial
  | alterTableAddColumn s => exact iff_of_true (alterTable_reapplies store hwritten.2) trivial
  | insert s => exact iff_of_true (insert_reapplies store s) trivial
  | select s => exact iff_of_true (hread fun _ => rfl) trivial
  | showTables s => exact iff_of_true (hread fun _ => rfl) trivial
  | showDatabases => exact iff_of_true (hread fun _ => rfl) trivial

/-- Two rows with the same number. -/
def twins : List Bytes := [
  text "CREATE DATABASE d",
  text "CREATE TABLE d.t (k TEXT PRIMARY KEY, n INT)",
  text "INSERT INTO d.t (k, n) VALUES ('a', 1)",
  text "INSERT INTO d.t (k, n) VALUES ('b', 1)"]

/-- A deletion of both. -/
theorem reapplied_iff_twins : Reapplies (runAll .empty twins)
    fun store => execute store (text "DELETE FROM d.t WHERE n = 1") := by
  have hparse : parse (text "DELETE FROM d.t WHERE n = 1") =
      .ok (.delete ⟨text "d", text "t", [⟨text "n", .kEq, text "1"⟩]⟩) := by decide +kernel
  refine (reapplied_iff _ (by decide)).mpr fun stmt hstmt => ?_
  cases hparse.symm.trans hstmt
  trivial

/-- **A rewritten row throws**: the first row gets a number that fits no 64-bit integer; the second
run cannot compare it, and never reaches the second row. -/
theorem rewritten_row_throws : ¬ ∀ (sqls : List Bytes) (sql : Bytes),
    Reapplies (runAll .empty sqls) fun store => execute store sql := by
  intro hall
  let sql := text "UPDATE d.t SET n = 99999999999999999999 WHERE n = 1"
  let store := runAll .empty twins
  have hrun : ((applyAll (applyAll store ((execute store sql).1.take 1))
        (execute (applyAll store ((execute store sql).1.take 1)) sql).1).find
          (rowKey (text "d") (text "t") (text "b"))) ≠
      (applyAll store (execute store sql).1).find (rowKey (text "d") (text "t") (text "b")) := by
    decide +kernel
  exact hrun (by rw [hall twins sql _ (List.take_prefix 1 _)])

end DistDB.SqlReapply
