import Mathlib.Data.List.Perm.Basic
import DistDB.PeerSpec
import DistDB.SortedStarts
import DistDB.SqlRouting

/-!
The routing table of `shard/routing.cpp`, from the text of its file to the shard of a key.

`LoadFromFile` skips what it cannot read and does not compare the ranges, and `ShardFor` looks at
their starts only. So every key of some range gets a shard that starts in front of it, and the
shard's range has the key as long as the ranges leave no gap (`shardFor_respects`). In a gap, the
key goes to the shard in front of the gap (`gap_served`).
-/

namespace DistDB.Routing

open Checks FormattedInput Lines NodeModel PeerSpec SortedStarts TxnSystem

structure ShardRange where
  id : ShardId
  startKey : Bytes
  /-- Empty for no end. -/
  endKey : Bytes
  peers : OrdMap NodeId PeerAddress
  deriving DecidableEq

/-- `[start_key, end_key)`. -/
def ShardRange.Contains (s : ShardRange) (key : Bytes) : Prop :=
  s.startKey ≤ key ∧ (s.endKey = [] ∨ key < s.endKey)

structure RoutingTable where
  shards : List ShardRange
  sorted : shards.Pairwise fun a b => a.startKey ≤ b.startKey

/-- `iss >> shard.id >> start_token >> end_token >> peers_token`. -/
def readTokens (line : Bytes) : Option (ShardId × Bytes × Bytes × Bytes) := do
  let (id, line) ← unsigned 32 line
  let (startToken, line) ← word line
  let (endToken, line) ← word line
  let (peersToken, _) ← word line
  pure (id, startToken, endToken, peersToken)

/-- `*` stands for no bound. -/
def bound (token : Bytes) : Bytes := if token = text "*" then [] else token

/-- The shard of a line, if it has one. -/
def readLine (p : Platform) (line : Bytes) : Except Thrown (Option ShardRange) :=
  if line = [] ∨ line.head? = some (chr '#') then .ok none
  else match readTokens line with
    | none => .ok none
    | some (id, startToken, endToken, peersToken) =>
      (parsePeerSpec p peersToken).map fun peers =>
        some ⟨id, bound startToken, bound endToken, peers⟩

/-- The shards of the file, before they are sorted. -/
def readShards (p : Platform) (path : Bytes) (file : Option Bytes) :
    Except Thrown (List ShardRange) :=
  match file with
  | none => .error (.runtimeError (text "failed to open routing table: " ++ path))
  | some content => do
    let shards ← (getlines (chr '\n') content).mapM (readLine p)
    throwIf (shards.reduceOption = []) (.runtimeError (text "routing table is empty: " ++ path))
    pure shards.reduceOption

/-- `LoadFromFile`. `std::sort` may leave shards with one start in any order. -/
def LoadsFromFile (p : Platform) (path : Bytes) (file : Option Bytes) (table : RoutingTable) :
    Prop := ∃ shards, readShards p path file = .ok shards ∧ table.shards.Perm shards

/-! ### Lookup -/

namespace RoutingTable

variable (table : RoutingTable)

def shardFor (key : Bytes) : Except Thrown ShardRange :=
  match lookup ShardRange.startKey table.shards key with
  | none => .error (.runtimeError (text "no shard covers key: " ++ key))
  | some shard => .ok shard

def shard (id : ShardId) : Except Thrown ShardRange :=
  match table.shards.find? fun s => s.id = id with
  | none => .error (.runtimeError (text "unknown shard id: " ++ toText id))
  | some shard => .ok shard

def allShardIds : List ShardId := table.shards.map ShardRange.id

/-- Behind each range that ends, the next one starts at its end at the latest. -/
def Gapless : Prop := ∀ (i : ℕ) s, table.shards[i]? = some s → s.endKey ≠ [] →
  ∃ next, table.shards[i + 1]? = some next ∧ next.startKey ≤ max s.startKey s.endKey

variable {table}

lemma shardFor_eq_ok {key : Bytes} {s : ShardRange} :
    table.shardFor key = .ok s ↔ lookup ShardRange.startKey table.shards key = some s := by
  unfold shardFor
  split <;> simp [*]

lemma succeeds_shardFor {key : Bytes} :
    Succeeds (table.shardFor key) ↔ ∃ s ∈ table.shards, s.startKey ≤ key := by
  have hnone := lookup_eq_none (k := key) table.sorted
  unfold shardFor
  rcases hfound : lookup ShardRange.startKey table.shards key with _ | s
  · refine iff_of_false (by simp) ?_
    rintro ⟨s, hs, hle⟩
    exact absurd hle (not_le.mpr (hnone.mp hfound s hs))
  · refine iff_of_true (by simp) ?_
    by_contra h
    push Not at h
    rw [hnone.mpr h] at hfound
    cases hfound

lemma contains_iff : (∀ key s, table.shardFor key = .ok s → s.Contains key) ↔
    table.Gapless := by
  have hends := ends_iff table.sorted fun s => if s.endKey = [] then none else some s.endKey
  have hstart : ∀ {key s}, lookup ShardRange.startKey table.shards key = some s →
      s.startKey ≤ key := fun h => by
    obtain ⟨-, -, hle, -⟩ := (lookup_eq_some table.sorted).mp h
    exact hle
  constructor
  · intro h i s hi hend
    refine hends.mp (fun key s hs e he => ?_) i s s.endKey hi (if_neg hend)
    obtain ⟨-, hempty | hlt⟩ := h key s (shardFor_eq_ok.mpr hs)
    · simp [hempty] at he
    · split_ifs at he
      cases he
      exact hlt
  · intro h key s hs
    rw [shardFor_eq_ok] at hs
    refine ⟨hstart hs, or_iff_not_imp_left.mpr fun hend => ?_⟩
    refine hends.mpr (fun i s e hi he => ?_) key s hs s.endKey (if_neg hend)
    split_ifs at he with hempty
    cases he
    exact h i s hi hempty

/-- What the dispatch of a statement keeps of the table. -/
def starts (table : RoutingTable) : SqlRouting.RoutingTable where
  shards := table.shards.map fun s => ⟨s.id, s.startKey⟩
  sorted := List.pairwise_map.mpr table.sorted

/-- The dispatch asks this table. -/
theorem shardFor_starts (table : RoutingTable) (key : Bytes) :
    table.starts.shardFor key = (table.shardFor key).toOption.map ShardRange.id := by
  have hmap : table.starts.shardFor key =
      (lookup ShardRange.startKey table.shards key).map ShardRange.id := by
    unfold SqlRouting.RoutingTable.shardFor starts lookup
    rw [List.takeWhile_map, List.getLast?_map, Option.map_map]
    have hle : ((fun s : SqlRouting.ShardRange => decide ¬key < s.startKey) ∘
        fun s : ShardRange => ⟨s.id, s.startKey⟩) = fun s => decide ¬key < s.startKey := by
      funext s
      simp
    rw [hle]
    congr!
  rw [hmap, shardFor]
  cases lookup ShardRange.startKey table.shards key <;> rfl

end RoutingTable

variable {p : Platform} {path : Bytes} {file : Option Bytes} {table : RoutingTable}

/-- **Routing and the ranges**: a key of some range of the file is never refused. The shard it
gets is one of the file and starts at the key or in front of it, and its range has the key for
every key exactly if the ranges, in the order of their starts, leave no gap behind an end. -/
theorem shardFor_respects (hload : LoadsFromFile p path file table) :
    (∀ shards, readShards p path file = .ok shards →
      ∀ s ∈ shards, ∀ key, s.Contains key → Succeeds (table.shardFor key)) ∧
    (∀ shards, readShards p path file = .ok shards → ∀ key s, table.shardFor key = .ok s →
      s ∈ shards ∧ s.startKey ≤ key) ∧
    ((∀ key s, table.shardFor key = .ok s → s.Contains key) ↔ table.Gapless) := by
  obtain ⟨shards, hread, hperm⟩ := hload
  refine ⟨fun shards' hread' s hs key hkey => ?_, fun shards' hread' key s hs => ?_,
    RoutingTable.contains_iff⟩
  · obtain rfl := Except.ok.inj (hread.symm.trans hread')
    exact RoutingTable.succeeds_shardFor.mpr ⟨s, hperm.mem_iff.mpr hs, hkey.1⟩
  · obtain rfl := Except.ok.inj (hread.symm.trans hread')
    obtain ⟨i, hi, hle, -⟩ := (lookup_eq_some table.sorted).mp
      (RoutingTable.shardFor_eq_ok.mp hs)
    exact ⟨hperm.mem_iff.mp (List.mem_of_getElem? hi), hle⟩

def longLong : Platform := ⟨64, thirtyTwo_le⟩

/-- A gap between `b` and `d`, and a line that is not read. -/
def gapFile : Bytes := text "# shards\n1 * b 1=h:1\nx\n2 d * 2=h:2\n"

def host (id : NodeId) : OrdMap NodeId PeerAddress := OrdMap.empty.insert id ⟨text "h", id⟩

def gapTable : RoutingTable where
  shards := [⟨1, [], text "b", host 1⟩, ⟨2, text "d", [], host 2⟩]
  sorted := by decide

lemma loads_gapFile : LoadsFromFile longLong (text "routing.conf") (some gapFile) gapTable :=
  ⟨gapTable.shards, by rfl, .refl _⟩

theorem shardFor_respects_gapFile : Succeeds (gapTable.shardFor (text "a")) :=
  (shardFor_respects loads_gapFile).1 gapTable.shards (by rfl) ⟨1, [], text "b", host 1⟩
    (by decide) (text "a") ⟨by decide, .inr (by decide)⟩

/-- **A key in a gap** goes to the shard in front of the gap, whose range does not have it. -/
theorem gap_served : ¬ ∀ (p : Platform) (path : Bytes) (file : Option Bytes)
    (table : RoutingTable),
    LoadsFromFile p path file table → ∀ key s, table.shardFor key = .ok s →
      s.Contains key := by
  intro h
  have hkey := h longLong (text "routing.conf") (some gapFile) gapTable loads_gapFile (text "c")
    ⟨1, [], text "b", host 1⟩ (by rfl)
  exact absurd hkey.2 (by decide)

end DistDB.Routing
