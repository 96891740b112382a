import DistDB.EngineSnapshot
import DistDB.FormattedInput
import DistDB.SqlRelational

/-!
The program of `main.cpp`: a storage engine in a directory, raw commands on its keys, and SQL.

Run after run on one directory, it prints what it would print on a plain map that stays
(`console_plain`). When its lines are SQL, it prints what the relations answer
(`console_relational`).
-/

namespace DistDB.Console

open SqlParser SqlExecutor SqlAtomic FormattedInput SstModel WalModel EngineModel EngineInv
open EngineFlush EngineMap Checks

def help : Bytes := text ("Raw KV commands:\n" ++
  "  put <key> <value>\n" ++
  "  get <key>\n" ++
  "  del <key>\n" ++
  "\n" ++
  "SQL statements (single line each):\n" ++
  "  CREATE TABLE t (id TEXT PRIMARY KEY, name TEXT, age INT)\n" ++
  "  INSERT INTO t (id, name, age) VALUES ('u1', 'Alice', 30)\n" ++
  "  SELECT * FROM t WHERE age > 20\n" ++
  "  UPDATE t SET age = 31 WHERE id = 'u1'\n" ++
  "  DELETE FROM t WHERE id = 'u1'\n" ++
  "\n" ++
  "  help\n" ++
  "  exit\n")

def endl : Bytes := [chr '\n']

def sqlWords : List Bytes :=
  [text "CREATE", text "INSERT", text "SELECT", text "UPDATE", text "DELETE"]

/-- What a statement prints. -/
def printed : Except Exception Bytes → Bytes
  | .ok result => result ++ endl
  | .error e => text "ERROR: " ++ e.what ++ endl

/-- `iss >> key`, with what is left; the key is empty when there is none. -/
def readKey (args : Bytes) : Bytes × Bytes := (word args).getD ([], [])

/-- `std::getline(iss, value)`, without a blank in front. -/
def readValue (args : Bytes) : Bytes := if args.head? = some (chr ' ') then args.tail else args

def put (args : Bytes) : List Mutation × Bytes :=
  let (key, rest) := readKey args
  let value := readValue rest
  if key = [] ∨ value = [] then ([], text "usage: put <key> <value>" ++ endl)
  else ([.put key value], text "OK" ++ endl)

def get (find : Bytes → Option Bytes) (args : Bytes) : Bytes :=
  let (key, _) := readKey args
  if key = [] then text "usage: get <key>" ++ endl
  else (find key).getD (text "(not found)") ++ endl

def del (args : Bytes) : List Mutation × Bytes :=
  let (key, _) := readKey args
  if key = [] then ([], text "usage: del <key>" ++ endl)
  else ([.delete key], text "OK" ++ endl)

/-- A line by its first word, on what `Get` finds and on what the executor reads: what it writes
and prints; none ends the loop. -/
def command (find : Bytes → Option Bytes) (store : Store) (line cmd args : Bytes) :
    Option (List Mutation × Bytes) :=
  if toUpper cmd = text "EXIT" ∨ toUpper cmd = text "QUIT" then none
  else if toUpper cmd = text "HELP" then some ([], help)
  else if toUpper cmd ∈ sqlWords then
    let (writes, result) := execute store line
    some (writes, printed result)
  else if cmd = text "put" then some (put args)
  else if cmd = text "get" then some ([], get find args)
  else if cmd = text "del" then some (del args)
  else some ([], text "unknown command: " ++ cmd ++ text " (type 'help')" ++ endl)

/-- A pass of the loop, without the prompt. -/
def pass (find : Bytes → Option Bytes) (store : Store) (line : Bytes) :
    Option (List Mutation × Bytes) :=
  match word line with
  | none => some ([], [])
  | some (cmd, args) => command find store line cmd args

/-- Where the pairs are. What is left of a storage when a write throws is not modelled. -/
structure Storage (ε δ σ : Type) where
  /-- `Open` on a directory. -/
  openDir : δ → Except ε σ
  /-- The directory once the process has ended. -/
  dir : σ → δ
  find : σ → Bytes → Option Bytes
  store : σ → Store
  write : σ → Mutation → Except ε σ

section

variable {ε δ σ : Type} (st : Storage ε δ σ)

/-- The lines of a process, and what each prints. -/
def run : List Bytes → σ → Except ε (σ × List Bytes)
  | [], s => .ok (s, [])
  | line :: lines, s =>
    match pass (st.find s) (st.store s) line with
    | none => .ok (s, [])
    | some (writes, out) => do
      let s ← writes.foldlM st.write s
      let (s, outs) ← run lines s
      return (s, out :: outs)

/-- Processes one after the other, each with its own lines. -/
def runs : List (List Bytes) → δ → Except ε (δ × List (List Bytes))
  | [], d => .ok (d, [])
  | lines :: more, d => do
    let s ← st.openDir d
    let (s, outs) ← run st lines s
    let (d, rest) ← runs more (st.dir s)
    return (d, outs :: rest)

end

/-- The storage engine. -/
def engine : Storage OpenError Disk StorageEngine where
  openDir := openEngine
  dir := StorageEngine.disk
  find := StorageEngine.get
  store := EngineSnapshot.contents
  write e mu := (mutate e mu).2

/-- The limits of the files: the lengths of a pair, and the counters of a table with all of
them. -/
def WriteFits (m : PlainMap) (mu : Mutation) : Prop :=
  (mu.record.key.length < 2 ^ 32 - 1 ∧ mu.record.value.length < 2 ^ 32 - 1) ∧
    (tableOf (applyTo m mu)).length < 2 ^ 32 ∧
    (dataBlock (tableOf (applyTo m mu))).length < 2 ^ 64

instance decidableWriteFits (m : PlainMap) (mu : Mutation) : Decidable (WriteFits m mu) :=
  inferInstanceAs (Decidable (_ ∧ _))

/-- A plain map that is there all the time, and refuses what is beyond the limits of the files. -/
def plainMap : Storage Unit PlainMap PlainMap where
  openDir := .ok
  dir m := m
  find := OrdMap.find
  store m := m
  write m mu := if WriteFits m mu then .ok (applyTo m mu) else .error ()

/-- A storage does what the other one does, as long as that does not fail. -/
structure Simulates {ε δ σ ε' δ' σ' : Type} (a : Storage ε δ σ) (b : Storage ε' δ' σ')
    (R : σ → σ' → Prop) (D : δ → δ' → Prop) : Prop where
  openDir : ∀ {d d' s'}, D d d' → b.openDir d' = .ok s' →
    ∃ s, a.openDir d = .ok s ∧ R s s'
  dir : ∀ {s s'}, R s s' → D (a.dir s) (b.dir s')
  find : ∀ {s s'}, R s s' → a.find s = b.find s'
  store : ∀ {s s'}, R s s' → a.store s = b.store s'
  write : ∀ {s s' mu t'}, R s s' → b.write s' mu = .ok t' →
    ∃ t, a.write s mu = .ok t ∧ R t t'

namespace Simulates

variable {ε δ σ ε' δ' σ' : Type} {a : Storage ε δ σ} {b : Storage ε' δ' σ'}
  {R : σ → σ' → Prop} {D : δ → δ' → Prop}

lemma writes (h : Simulates a b R D) {mus : List Mutation} {s : σ} {s' t' : σ'} (hR : R s s')
    (hb : mus.foldlM b.write s' = .ok t') : ∃ t, mus.foldlM a.write s = .ok t ∧ R t t' := by
  induction mus generalizing s s' with
  | nil =>
    cases hb
    exact ⟨s, rfl, hR⟩
  | cons mu mus ih =>
    obtain ⟨u', hu', hb⟩ := bind_eq_ok.mp hb
    obtain ⟨u, hu, hRu⟩ := h.write hR hu'
    obtain ⟨t, ht, hRt⟩ := ih hRu hb
    exact ⟨t, bind_eq_ok.mpr ⟨u, hu, ht⟩, hRt⟩

lemma run (h : Simulates a b R D) {lines : List Bytes} {s : σ} {s' t' : σ'} {outs : List Bytes}
    (hR : R s s') (hb : Console.run b lines s' = .ok (t', outs)) :
    ∃ t, Console.run a lines s = .ok (t, outs) ∧ R t t' := by
  induction lines generalizing s s' outs with
  | nil =>
    cases hb
    exact ⟨s, rfl, hR⟩
  | cons line lines ih =>
    rw [Console.run, ← h.find hR, ← h.store hR] at hb
    rw [Console.run]
    cases hpass : pass (a.find s) (a.store s) line with
    | none =>
      rw [hpass] at hb
      cases hb
      exact ⟨s, rfl, hR⟩
    | some effect =>
      rw [hpass] at hb
      obtain ⟨u', hu', hb⟩ := bind_eq_ok.mp hb
      obtain ⟨⟨v', outs'⟩, hv', hb⟩ := bind_eq_ok.mp hb
      cases hb
      obtain ⟨u, hu, hRu⟩ := h.writes hR hu'
      obtain ⟨t, ht, hRt⟩ := ih hRu hv'
      exact ⟨t, bind_eq_ok.mpr ⟨u, hu, bind_eq_ok.mpr ⟨_, ht, rfl⟩⟩, hRt⟩

lemma runs (h : Simulates a b R D) {sessions : List (List Bytes)} {d : δ} {d' e' : δ'}
    {outs : List (List Bytes)} (hD : D d d') (hb : Console.runs b sessions d' = .ok (e', outs)) :
    ∃ e, Console.runs a sessions d = .ok (e, outs) ∧ D e e' := by
  induction sessions generalizing d d' outs with
  | nil =>
    cases hb
    exact ⟨d, rfl, hD⟩
  | cons lines more ih =>
    obtain ⟨s', hs', hb⟩ := bind_eq_ok.mp hb
    obtain ⟨⟨t', out⟩, ht', hb⟩ := bind_eq_ok.mp hb
    obtain ⟨⟨f', rest⟩, hf', hb⟩ := bind_eq_ok.mp hb
    cases hb
    obtain ⟨s, hs, hRs⟩ := h.openDir hD hs'
    obtain ⟨t, ht, hRt⟩ := h.run hRs ht'
    obtain ⟨e, he, hDe⟩ := ih (h.dir hRt) hf'
    exact ⟨e, bind_eq_ok.mpr ⟨s, hs, bind_eq_ok.mpr
      ⟨_, ht, bind_eq_ok.mpr ⟨_, he, rfl⟩⟩⟩, hDe⟩

end Simulates

/-- The engine holds the map, and its memtable is not full. -/
def Serves (e : StorageEngine) (m : PlainMap) : Prop := ∃ c, Models e c m ∧ Small c

/-- The directory holds the map. -/
def Keeps (d : Disk) (m : PlainMap) : Prop :=
  ∃ c : Content, Stored d c.1 c.2 ∧ (∀ k, m.find k = c.value k) ∧ PairSizes m ∧ Small c

lemma keeps_empty : Keeps emptyDisk .empty := by
  refine ⟨([], []), ⟨rfl, List.forall_mem_nil _, rfl, List.forall_mem_nil _⟩, fun _ => rfl,
    fun k v hkv => ?_, ?_⟩
  · cases hkv
  · unfold EngineMap.Small
    decide

lemma Keeps.openEngine {d : Disk} {m : PlainMap} (h : Keeps d m) :
    ∃ e, EngineModel.openEngine d = .ok e ∧ Serves e m := by
  obtain ⟨c, hstored, hagrees, hsizes, hsmall⟩ := h
  obtain ⟨e, he, hholds⟩ := openEngine_holds hstored
  exact ⟨e, he, c, ⟨hholds, hagrees, hsizes⟩, hsmall⟩

lemma engine_simulates : Simulates engine plainMap Serves Keeps where
  openDir := by
    rintro d m _ h ⟨⟩
    exact h.openEngine
  dir := by
    rintro e m ⟨c, hm, hc⟩
    exact ⟨c, hm.holds.stored, hm.agrees, hm.sizes, hc⟩
  find := by
    rintro e m ⟨c, hm, -⟩
    exact funext hm.answers.get
  store := by
    rintro e m ⟨c, hm, -⟩
    exact EngineSnapshot.contents_eq hm
  write := by
    rintro e m mu m' ⟨c, hm, hc⟩ hwrite
    dsimp only [plainMap] at hwrite
    split_ifs at hwrite with hfits
    cases hwrite
    obtain ⟨⟨hkey, hvalue⟩, hcount, hdata⟩ := hfits
    have hs : Sizes mu := ⟨hkey, hvalue⟩
    obtain ⟨⟨e', hout, hm'⟩, -⟩ :=
      mutate_spec hm hs (room_of_small hc hs hm.holds.stored.recs) ⟨hcount, hdata⟩
    exact ⟨e', hout, _, hm', small_settled _ _⟩

/-- **The program is one on a plain map**: within the limits of its files it does not fail, every
process prints what it would print on the map as the processes before have left it, and so will
the next one. -/
theorem console_plain {sessions : List (List Bytes)} {m : PlainMap} {outs : List (List Bytes)}
    (hfits : runs plainMap sessions .empty = .ok (m, outs)) :
    ∃ d e, runs engine sessions emptyDisk = .ok (d, outs) ∧ openEngine d = .ok e ∧
      Answers e m := by
  obtain ⟨d, hd, hkeeps⟩ := engine_simulates.runs keeps_empty hfits
  obtain ⟨e, he, c, hm, -⟩ := hkeeps.openEngine
  exact ⟨d, e, hd, he, hm.answers⟩

/-- Two processes; the first one ends at its last line but one, behind a flush. What it has deleted
since is in the log only, which the second one replays and then flushes. -/
def twoProcesses : List (List Bytes) := [
  [text "put a  1", text "put b 2", text "put c 3", text "create database d", text "del b",
    text "EXIT", text "del a"],
  [text "get a", text "get b", text "CREATE DATABASE d", text "del a", text "put c 4",
    text "put e 5", text "get a", text "get c", text "put b"]]

def twoPrinted : List (List Bytes) := [
  [text "OK\n", text "OK\n", text "OK\n", text "OK\n", text "OK\n"],
  [text " 1\n", text "(not found)\n", text "ERROR: database already exists: d\n", text "OK\n",
    text "OK\n", text "OK\n", text "(not found)\n", text "4\n",
    text "usage: put <key> <value>\n"]]

def twoLeft : PlainMap := OrdMap.insertAll .empty
  [(databaseKey (text "d"), []), (text "c", text "4"), (text "e", text "5")]

/-- Each of the processes has written a table. -/
theorem console_plain_twoProcesses : ∃ d e,
    runs engine twoProcesses emptyDisk = .ok (d, twoPrinted) ∧ openEngine d = .ok e ∧
      Answers e twoLeft ∧ e.sstables.map Table.seq = [2, 1] := by
  have hfits : runs plainMap twoProcesses .empty = .ok (twoLeft, twoPrinted) := by decide +kernel
  obtain ⟨d, e, hd, he, hans⟩ := console_plain hfits
  have hseqs : (runs engine twoProcesses emptyDisk).toOption.bind (fun x =>
      (openEngine x.1).toOption.map fun e => e.sstables.map Table.seq) = some [2, 1] := by
    decide +kernel
  rw [hd] at hseqs
  have hopened : (openEngine d).toOption.map (fun e => e.sstables.map Table.seq) = some [2, 1] :=
    hseqs
  rw [he] at hopened
  exact ⟨d, e, hd, he, hans, Option.some.inj hopened⟩

/-! ### SQL -/

/-- The line goes to the executor. -/
def IsSql (line : Bytes) : Prop := ∃ w ∈ word line, toUpper w.1 ∈ sqlWords

lemma sqlWords_apart {w : Bytes} (h : w ∈ sqlWords) :
    ¬ (w = text "EXIT" ∨ w = text "QUIT") ∧ w ≠ text "HELP" := by
  have hall : ∀ w ∈ sqlWords, ¬ (w = text "EXIT" ∨ w = text "QUIT") ∧
      w ≠ text "HELP" := by
    decide +kernel
  exact hall w h

lemma pass_sql {find : Bytes → Option Bytes} {store : Store} {line : Bytes} (h : IsSql line) :
    pass find store line = some ((execute store line).1, printed (execute store line).2) := by
  obtain ⟨w, hword, hcmd⟩ := h
  obtain ⟨hends, hhelp⟩ := sqlWords_apart hcmd
  rw [pass, Option.mem_def.mp hword]
  dsimp only
  rw [command, if_neg hends, if_neg hhelp, if_pos hcmd]

lemma writes_plainMap {mus : List Mutation} {m m' : PlainMap}
    (h : mus.foldlM plainMap.write m = .ok m') : m' = applyAll m mus := by
  induction mus generalizing m with
  | nil =>
    cases h
    rfl
  | cons mu mus ih =>
    obtain ⟨m₁, hwrite, h⟩ := bind_eq_ok.mp h
    dsimp only [plainMap] at hwrite
    split_ifs at hwrite
    cases hwrite
    exact ih h

lemma run_sql {lines : List Bytes} {m m' : PlainMap} {outs : List Bytes}
    (hsql : ∀ line ∈ lines, IsSql line) (h : run plainMap lines m = .ok (m', outs)) :
    m' = runAll m lines ∧ outs = (SqlAlter.answers execute m lines).map printed := by
  induction lines generalizing m outs with
  | nil =>
    cases h
    exact ⟨rfl, rfl⟩
  | cons line lines ih =>
    obtain ⟨hline, hlines⟩ := List.forall_mem_cons.mp hsql
    rw [run, pass_sql hline] at h
    obtain ⟨m₁, hwrites, h⟩ := bind_eq_ok.mp h
    obtain ⟨⟨m₂, rest⟩, hrun, h⟩ := bind_eq_ok.mp h
    cases h
    obtain rfl := writes_plainMap hwrites
    obtain ⟨rfl, rfl⟩ := ih hlines hrun
    exact ⟨rfl, rfl⟩

lemma answers_append (store : Store) (before after : List Bytes) :
    SqlAlter.answers execute store (before ++ after) =
      SqlAlter.answers execute store before ++
        SqlAlter.answers execute (runAll store before) after := by
  induction before generalizing store with
  | nil => rfl
  | cons sql before ih => exact congrArg (_ :: ·) (ih _)

lemma runs_sql {sessions : List (List Bytes)} {m m' : PlainMap} {outs : List (List Bytes)}
    (hsql : ∀ lines ∈ sessions, ∀ line ∈ lines, IsSql line)
    (h : runs plainMap sessions m = .ok (m', outs)) :
    outs.flatten = (SqlAlter.answers execute m sessions.flatten).map printed := by
  induction sessions generalizing m outs with
  | nil =>
    cases h
    rfl
  | cons lines more ih =>
    obtain ⟨hlines, hmore⟩ := List.forall_mem_cons.mp hsql
    obtain ⟨_, hopen, h⟩ := bind_eq_ok.mp h
    cases hopen
    obtain ⟨⟨m₁, out⟩, hrun, h⟩ := bind_eq_ok.mp h
    obtain ⟨⟨m₂, rest⟩, hruns, h⟩ := bind_eq_ok.mp h
    cases h
    obtain ⟨rfl, rfl⟩ := run_sql hlines hrun
    have hrest := ih hmore hruns
    rw [List.flatten_cons, List.flatten_cons, answers_append, List.map_append, hrest]
    rfl

/-- **The program is a relational database**: within the limits of its files, over any number of
processes, every SQL line prints what the relations answer. -/
theorem console_relational {sessions : List (List Bytes)} {m : PlainMap}
    {outs : List (List Bytes)} (hsql : ∀ lines ∈ sessions, ∀ line ∈ lines, IsSql line)
    (hlen : ∀ line ∈ sessions.flatten, line.length + sessions.flatten.length ≤ 2 ^ 32)
    (hfits : runs plainMap sessions .empty = .ok (m, outs)) :
    ∃ d, runs engine sessions emptyDisk = .ok (d, outs) ∧
      outs.flatten = (Relational.answers .empty sessions.flatten).map printed := by
  obtain ⟨d, hd, -⟩ := engine_simulates.runs keeps_empty hfits
  refine ⟨d, hd, ?_⟩
  rw [runs_sql hsql hfits, SqlRelational.answers_eq SqlRelational.Refines.empty hlen]

/-- Three processes on one table. -/
def threeProcesses : List (List Bytes) := [
  [text "CREATE DATABASE d", text "CREATE TABLE d.t (k TEXT PRIMARY KEY, n INT)"],
  [text "INSERT INTO d.t (k, n) VALUES ('b', 2)", text "INSERT INTO d.t (k, n) VALUES ('a', 1)",
    text "insert into d.t (k, n) values ('a', 3)"],
  [text "UPDATE d.t SET n = 5 WHERE n > 1", text "SELECT * FROM d.t"]]

def threePrinted : List (List Bytes) := [
  [text "OK\n", text "OK\n"],
  [text "OK\n", text "OK\n", text "ERROR: duplicate primary key: a\n"],
  [text "1 row(s) updated\n", text "k\tn\na\t1\nb\t5\n"]]

theorem console_relational_threeProcesses : ∃ d,
    runs engine threeProcesses emptyDisk = .ok (d, threePrinted) ∧
      threePrinted.flatten = (Relational.answers .empty threeProcesses.flatten).map printed := by
  have hsql : ∀ lines ∈ threeProcesses, ∀ line ∈ lines, IsSql line := by
    unfold IsSql
    decide +kernel
  have hout : (runs plainMap threeProcesses .empty).map Prod.snd = .ok threePrinted := by
    decide +kernel
  cases hfits : runs plainMap threeProcesses .empty with
  | error e =>
    rw [hfits] at hout
    cases hout
  | ok r =>
    rw [hfits] at hout
    have hprinted : r.2 = threePrinted := Except.ok.inj hout
    rw [← hprinted]
    exact console_relational hsql (by decide +kernel) hfits

end DistDB.Console
