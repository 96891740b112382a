import DistDB.EngineMap
import DistDB.Runs

/-!
Runs of the engine over crashes inside a flush and the compaction behind it.

A crash leaves the disk as it is after one of the durable writes of the call; the engine is
then opened again. The operation in progress is in the log before the first of these
writes, so it counts as applied.

A compaction removes the old tables newest first, after it has dropped the tombstones. A
crash between two removals can leave a table with a value whose tombstone is gone, and the
key comes back (`deleted_key_comes_back`). In a run that never crashes there, the engine
answers as the plain map does after every crash (`crash_safe`).
-/

namespace DistDB.EngineCrash

open SstModel WalModel EngineModel EngineInv EngineFlush EngineMap OrdMap

structure State where
  engine : Except OpenError StorageEngine
  /-- The plain map after the operations so far, the ones in progress at a crash included. -/
  plain : PlainMap

def start : State := ⟨openEngine emptyDisk, .empty⟩

inductive Event
  | op (mu : Mutation)
  /-- A crash inside `mu`, right after the write `p`, and `Open`. -/
  | crash (mu : Mutation) (p : Point)
  /-- A crash between two operations, and `Open`. -/
  | restart

inductive Step : State → Event → State → Prop
  | op {s : State} (mu : Mutation) :
      Step s (.op mu) ⟨s.engine >>= fun e => (mutate e mu).2, applyTo s.plain mu⟩
  | crash {s : State} {e : StorageEngine} (he : s.engine = .ok e) (mu : Mutation) {p : Point}
      {d : Disk} (hd : (p, d) ∈ (mutate e mu).1) :
      Step s (.crash mu p) ⟨openEngine d, applyTo s.plain mu⟩
  | restart {s : State} {e : StorageEngine} (he : s.engine = .ok e) :
      Step s .restart ⟨openEngine e.disk, s.plain⟩

/-- The engine is open and answers as the plain map does. -/
def Faithful (s : State) : Prop := ∃ e, s.engine = .ok e ∧ Answers e s.plain

/-- The tables `mu` may have to write fit their counters. -/
structure WriteOk (s : State) (mu : Mutation) : Prop where
  sizes : Sizes mu
  memtable : ∀ e, s.engine = .ok e → Room (e.memtable.replay mu.record).entries
  merged : Room (tableOf (applyTo s.plain mu))

/-- Right after the write `p` of `mu`, no key without a value has one in the old tables
that are still there. The first table to go is the one `mu` has just flushed. -/
def NoneUncovered (s : State) (mu : Mutation) : Point → Prop
  | .removed n => ∀ e, s.engine = .ok e → ∀ k, (applyTo s.plain mu).find k = none →
      StorageEngine.getTables k (e.sstables.drop (n - 1)) = none
  | _ => True

/-- What a step must meet. -/
def StepOk (s : State) : Event → Prop
  | .op mu => WriteOk s mu
  | .crash mu p => WriteOk s mu ∧ NoneUncovered s mu p
  | .restart => True

/-! ### The invariant -/

def Inv (s : State) : Prop := ∃ e c, s.engine = .ok e ∧ Models e c s.plain

lemma Inv.faithful {s : State} (h : Inv s) : Faithful s := by
  obtain ⟨e, c, he, hm⟩ := h
  exact ⟨e, he, hm.answers⟩

lemma start_inv : Inv start := by
  obtain ⟨e, he, hm⟩ := run_nil
  rw [run] at he
  refine ⟨e, _, ?_, hm⟩
  show openEngine emptyDisk = .ok e
  rw [← he]
  exact (bind_pure _).symm

lemma open_inv {d : Disk} {c : Content} {m : PlainMap} (h : Stored d c.1 c.2)
    (hm : ∀ k, m.find k = c.value k) (hs : PairSizes m) : Inv ⟨openEngine d, m⟩ := by
  obtain ⟨e, he, hholds⟩ := openEngine_holds h
  exact ⟨e, c, he, hholds, hm, hs⟩

lemma room_flushed {e : StorageEngine} {c : Content} {m : PlainMap} (h : Models e c m)
    {mu : Mutation} (hroom : Room (e.memtable.replay mu.record).entries) :
    Room (flushed (afterLog c mu)) := by
  rwa [h.holds.mem, ← memOf_append] at hroom

lemma pointOk_of_noneUncovered {e : StorageEngine} {c : Content} {s : State}
    (he : s.engine = .ok e) (h : Models e c s.plain) {mu : Mutation} {p : Point}
    (hp : NoneUncovered s mu p) : PointOk (afterLog c mu) p := by
  cases p with
  | removed n =>
    intro k hk
    have hnone : (applyTo s.plain mu).find k = none := by rw [value_afterLog h.agrees, hk]
    cases n with
    | zero => exact hk
    | succ n =>
      have hget := hp e he k hnone
      rw [h.holds.tables, Nat.add_sub_cancel, ← List.map_drop,
        getTables_eq fun t ht => h.holds.stored.fits t (List.mem_of_mem_drop ht),
        List.map_drop] at hget
      exact hget
  | _ => trivial

lemma step_inv {s s' : State} {ev : Event} (h : Inv s) (hok : StepOk s ev) (hs : Step s ev s') :
    Inv s' := by
  obtain ⟨e, c, he, hm⟩ := h
  cases hs with
  | op mu =>
    obtain ⟨hsizes, hmem, hmerged⟩ := hok
    obtain ⟨⟨e', hout, hm'⟩, -⟩ :=
      mutate_spec hm hsizes (room_flushed hm (hmem e he)) hmerged
    exact ⟨e', _, by rw [he]; exact hout, hm'⟩
  | @crash e₀ he₀ mu p d hd =>
    obtain ⟨⟨hsizes, hmem, hmerged⟩, hp⟩ := hok
    rw [he] at he₀
    cases he₀
    obtain ⟨-, himages⟩ := mutate_spec hm hsizes (room_flushed hm (hmem e he)) hmerged
    refine open_inv (himages _ hd) (fun k => ?_) (pairSizes_applyTo hm.sizes hsizes)
    rw [value_leaves (pointOk_of_noneUncovered he hm hp)]
    exact value_afterLog hm.agrees mu k
  | @restart e₀ he₀ =>
    rw [he] at he₀
    cases he₀
    exact open_inv hm.holds.stored hm.agrees hm.sizes

/-- **Flush and compaction are crash-safe** in a run whose crashes uncover no value under a
dropped tombstone. -/
theorem crash_safe {s : State} (h : Reach Step StepOk start s) : Faithful s :=
  (h.invariant start_inv fun _ _ _ hs hok hstep => step_inv hs hok hstep).faithful

lemma getTables_of_not_mem {k : Bytes} {ts : List Table}
    (h : ∀ t ∈ ts, ∀ i ∈ t.reader.index, i.1 ≠ k) :
    StorageEngine.getTables k ts = none := by
  induction ts with
  | nil => rfl
  | cons t ts ih =>
    have hlook : t.reader.lookup k = .kNotFound := by
      unfold SSTableReader.lookup
      split
      next => rfl
      next i _ hdrop =>
        have hi : i ∈ t.reader.index :=
          (List.dropWhile_suffix _).subset (hdrop ▸ List.mem_cons_self)
        exact if_pos (h t List.mem_cons_self i hi)
    simp only [StorageEngine.getTables, hlook]
    exact ih fun t' ht' => h t' (List.mem_cons_of_mem _ ht')

/-- The step an event takes, computed. -/
def next (s : State) : Event → Option State
  | .op mu => some ⟨s.engine >>= fun e => (mutate e mu).2, applyTo s.plain mu⟩
  | .crash mu p => do
    let e ← s.engine.toOption
    let (_, d) ← (mutate e mu).1.find? fun i => i.1 = p
    return ⟨openEngine d, applyTo s.plain mu⟩
  | .restart => do
    let e ← s.engine.toOption
    return ⟨openEngine e.disk, s.plain⟩

/-- Every key of the old tables that are still there has a value: enough for
`NoneUncovered`, and decided. -/
def covers (e : StorageEngine) (m : PlainMap) : Point → Bool
  | .removed n => (e.sstables.drop (n - 1)).all fun t =>
      t.reader.index.all fun i => (m.find i.1).isSome
  | _ => true

def writeFits (s : State) (e : StorageEngine) (mu : Mutation) : Bool :=
  decide (Sizes mu) && decide (Room (e.memtable.replay mu.record).entries) &&
    decide (Room (tableOf (applyTo s.plain mu)))

/-- Enough for `StepOk`, and decided. -/
def meets (s : State) : Event → Bool
  | .op mu => s.engine.toOption.any fun e => writeFits s e mu
  | .crash mu p => s.engine.toOption.any fun e =>
      writeFits s e mu && covers e (applyTo s.plain mu) p
  | .restart => true

lemma eq_ok {ε α : Type} {x : Except ε α} {a : α} (h : x.toOption = some a) : x = .ok a := by
  cases x with
  | error => cases h
  | ok => cases h; rfl

lemma noneUncovered_of_covers {s : State} {e : StorageEngine} (he : s.engine = .ok e)
    {mu : Mutation} {p : Point} (h : covers e (applyTo s.plain mu) p = true) :
    NoneUncovered s mu p := by
  cases p with
  | removed n =>
    intro e' he' k hk
    cases he.symm.trans he'
    refine getTables_of_not_mem fun t ht i hi heq => ?_
    have hcov := List.all_eq_true.mp (List.all_eq_true.mp h t ht) i hi
    rw [heq, hk] at hcov
    cases hcov
  | _ => trivial

lemma writeOk_of {s : State} {e : StorageEngine} (he : s.engine = .ok e) {mu : Mutation}
    (h : writeFits s e mu = true) : WriteOk s mu := by
  simp only [writeFits, Bool.and_eq_true, decide_eq_true_eq] at h
  obtain ⟨⟨hsizes, hmem⟩, hmerged⟩ := h
  exact ⟨hsizes, fun e' he' => by cases he.symm.trans he'; exact hmem, hmerged⟩

lemma stepOk_of_meets {s : State} {ev : Event} (h : meets s ev = true) : StepOk s ev := by
  cases ev with
  | op mu =>
    obtain ⟨e, he, hfits⟩ := (Option.any_eq_true _ _).mp h
    exact writeOk_of (eq_ok he) hfits
  | crash mu p =>
    obtain ⟨e, he, hmeets⟩ := (Option.any_eq_true _ _).mp h
    obtain ⟨hfits, hcov⟩ := Bool.and_eq_true_iff.mp hmeets
    exact ⟨writeOk_of (eq_ok he) hfits, noneUncovered_of_covers (eq_ok he) hcov⟩
  | restart => trivial

lemma step_of_next {s s' : State} {ev : Event} (h : next s ev = some s') : Step s ev s' := by
  cases ev with
  | op mu =>
    cases h
    exact .op mu
  | crash mu p =>
    obtain ⟨e, he, h⟩ := Option.bind_eq_some_iff.mp h
    obtain ⟨i, hi, h⟩ := Option.bind_eq_some_iff.mp h
    cases h
    have hp : i.1 = p := by simpa using List.find?_some hi
    subst hp
    exact .crash (eq_ok he) mu (List.mem_of_find?_eq_some hi)
  | restart =>
    obtain ⟨e, he, h⟩ := Option.bind_eq_some_iff.mp h
    cases h
    exact .restart (eq_ok he)

lemma reach_of_next {s : State} {evs : List Event}
    (h : runIf? next (fun s ev => meets s ev = true) start evs = some s) :
    Reach Step StepOk start s := by
  have hrun := reach_runIf? h
  clear h
  induction hrun with
  | refl => exact .refl
  | tail _ hok hs ih => exact ih.tail (stepOk_of_meets hok) (step_of_next hs)

/-- The fourth put crashes while its flush renames the table. Key `e` is written and deleted in
the newest tables; the last delete flushes, compacts, and crashes with the flushed table and one
other table of the four removed. -/
def crashes : List Event :=
  [.op (.put [97] [1]), .op (.put [98] [2]), .op (.put [99] [3]),
    .crash (.put [100] [4]) .flushRename, .op (.put [97] [5]),
    .op (.put [101] [6]), .op (.put [98] [7]), .op (.put [99] [8]), .op (.put [100] [9]),
    .op (.delete [101]), .op (.put [102] [10]), .op (.put [98] [11]),
    .crash (.put [99] [12]) (.removed 2), .restart]

/-- The tables an engine has, newest first, and its answer for a key. -/
def looks (s : State) (key : Bytes) : Option (List ℕ × Option Bytes) :=
  s.engine.toOption.map fun e => (e.sstables.map Table.seq, e.get key)

/-- Behind both crashes the two oldest tables stand below the merged one. -/
theorem crash_safe_two_crashes :
    ∃ s, runIf? next (fun s ev => meets s ev = true) start crashes = some s ∧
      looks s [101] = some ([5, 2, 1], none) ∧ looks s [99] = some ([5, 2, 1], some [12]) ∧
      Faithful s := by
  obtain ⟨s, hs, hdel, hput⟩ := exists_of_any
    (x := runIf? next (fun s ev => meets s ev = true) start crashes)
    (P := fun s => looks s [101] = some ([5, 2, 1], none) ∧
      looks s [99] = some ([5, 2, 1], some [12])) (by decide +kernel)
  exact ⟨s, hs, hdel, hput, crash_safe (reach_of_next hs)⟩

lemma reach_writes (mus : List Mutation) : Reach Step (fun _ _ => True) start
    ⟨run (mus.map Op.write), plain (mus.map Op.write)⟩ := by
  induction mus using List.reverseRecOn with
  | nil =>
    have hrun : run ([].map Op.write) = openEngine emptyDisk := bind_pure _
    rw [hrun]
    exact .refl
  | append_singleton mus mu ih =>
    rw [List.map_append, List.map_singleton, run_append, plain_append]
    exact ih.tail trivial (.op mu)

/-- Key `a` is put, flushed, deleted and flushed again; two more tables follow, the last of
them by the operation after these. -/
def lostTombstone : List Mutation :=
  [.put [97] [1], .put [98] [], .put [99] [], .put [100] [],
    .delete [97], .put [98] [], .put [99] [], .put [100] [],
    .put [98] [], .put [99] [], .put [100] [], .put [101] [],
    .put [98] [], .put [99] [], .put [100] []]

/-- What `Get(a)` answers after a crash with three of the four old tables removed. -/
def answerAfterCrash : Except OpenError (Option (Option Bytes)) := do
  let e ← run (lostTombstone.map Op.write)
  match (mutate e (.put [101] [])).1.find? fun i => i.1 = .removed 3 with
  | none => return none
  | some i => return some ((← openEngine i.2).get [97])

lemma answerAfterCrash_eq : answerAfterCrash.toOption = some (some (some [1])) := by
  decide +kernel

/-- **A deleted key comes back**: the crash leaves the oldest table, with the value, and not
the table with the tombstone. -/
theorem deleted_key_comes_back :
    ¬ ∀ s, Reach Step (fun _ _ => True) start s → Faithful s := by
  intro h
  have heq := answerAfterCrash_eq
  unfold answerAfterCrash at heq
  have hreach := reach_writes lostTombstone
  rcases hrun : run (lostTombstone.map Op.write) with err | e
  · rw [hrun] at heq
    cases heq
  rw [hrun] at heq hreach
  have hbind : ∀ f : StorageEngine → Except OpenError (Option (Option Bytes)),
      (Except.ok e >>= f) = f e := fun _ => rfl
  rw [hbind] at heq
  rcases hfind : (mutate e (.put [101] [])).1.find? fun i => i.1 = .removed 3 with _ | ⟨p, d⟩
  · rw [hfind] at heq
    cases heq
  rw [hfind] at heq
  obtain ⟨e', he', hans⟩ := h _
    (hreach.tail trivial (.crash rfl _ (List.mem_of_find?_eq_some hfind)))
  simp only at he'
  simp only [he'] at heq
  have hget : e'.get [97] = some [1] := by
    simpa [bind, Except.bind, pure, Except.pure, Except.toOption] using heq
  have hplain : (applyTo (plain (lostTombstone.map Op.write)) (.put [101] [])).find [97] =
    none := by
    decide +kernel
  have hnone := hans.get [97]
  rw [hget] at hnone
  exact absurd (hnone.trans hplain) (by simp)

end DistDB.EngineCrash
