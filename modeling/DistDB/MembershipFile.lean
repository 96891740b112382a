import DistDB.PeerSpec

/-!
The file of `raft/membership_state.cpp`: three lines with the flag of the node itself, its peers,
and its own address.

`Set` writes the hosts as they are, and `Load` looks for the ends of lines and for separators. So
the file gives the membership back exactly if no host has one of those in it (`load_contents`).
-/

namespace DistDB.MembershipFile

open Checks FormattedInput Lines NodeModel PeerSpec

/-- What `Set` writes. -/
def contents (m : MembershipState) : Bytes :=
  toText (if m.selfIsMember then 1 else 0) ++ chr '\n' :: (formatPeerSpec m.basePeers ++
    chr '\n' :: (m.ownAddress.host ++ chr ':' :: toText m.ownAddress.port ++ [chr '\n']))

/-- The fields before `Load`; the port of the own address is not initialised. -/
def initial (port : ℕ) : MembershipState := ⟨.empty, true, ⟨[], port⟩⟩

/-- `file >> self_flag`: the flag, which is set before, and what is left of the file unless the
stream has failed. An `int` that is too large fails at its limit. -/
def readFlag (content : Bytes) : Bool × Option Bytes :=
  match number content with
  | none => (decide (content.dropWhile isSpace = []), none)
  | some n =>
    if n.magnitude < 2 ^ 31 ∨ n.negative ∧ n.magnitude = 2 ^ 31 then
      (decide (n.magnitude ≠ 0), some n.rest)
    else (true, none)

/-- The own address stays as it was if there is none in the line. -/
def parseOwn (p : Platform) (before : PeerAddress) (line : Bytes) : Except Thrown PeerAddress :=
  match cut (chr ':') line with
  | none => .ok before
  | some (host, port) => do
    let port ← stoul p port
    pure ⟨host, port % 2 ^ 16⟩

/-- The two lines behind the flag; those that cannot be read are empty. -/
def readLines (rest : Option Bytes) : Bytes × Bytes :=
  let lines := getlines (chr '\n') ((rest.getD []).drop 1)
  (lines[0]?.getD [], lines[1]?.getD [])

/-- `Load`, with `has_file_`. -/
def load (p : Platform) (port : ℕ) : Option Bytes → Except Thrown (MembershipState × Bool)
  | none => .ok (initial port, false)
  | some content => do
    let lines := readLines (readFlag content).2
    let peers ← parsePeerSpec p lines.1
    let own ← parseOwn p (initial port).ownAddress lines.2
    pure (⟨peers, (readFlag content).1, own⟩, true)

/-! ### What is read back -/

/-- The numbers fit their types. -/
structure Typed (m : MembershipState) : Prop where
  peers : ∀ peer ∈ m.basePeers.entries, Fits peer
  own : m.ownAddress.port < 2 ^ 16

/-- No host has an end of line in it, nor what ends it in the file. -/
structure Restorable (m : MembershipState) : Prop where
  peers : ∀ peer ∈ m.basePeers.entries, Clean peer.2.host ∧ chr '\n' ∉ peer.2.host
  own : chr ':' ∉ m.ownAddress.host ∧ chr '\n' ∉ m.ownAddress.host

variable {p : Platform} {port : ℕ} {m : MembershipState}

lemma newline_not_mem_formatPeerSpec {peers : OrdMap NodeId PeerAddress}
    (h : ∀ peer ∈ peers.entries, chr '\n' ∉ peer.2.host) :
    chr '\n' ∉ formatPeerSpec peers := by
  intro hc
  rcases mem_intercalate hc with hcomma | ⟨l, hl, hc⟩
  · exact absurd hcomma (by decide)
  · obtain ⟨peer, hpeer, rfl⟩ := List.mem_map.mp hl
    simp only [formatPeer, List.mem_append, List.mem_cons] at hc
    rcases hc with hc | hc | hc | hc | hc
    · exact not_mem_toText (by decide) _ hc
    · exact absurd hc (by decide)
    · exact h peer hpeer hc
    · exact absurd hc (by decide)
    · exact not_mem_toText (by decide) _ hc

lemma readFlag_contents (m : MembershipState) : readFlag (contents m) = (m.selfIsMember,
    some (chr '\n' :: (formatPeerSpec m.basePeers ++
      chr '\n' :: (m.ownAddress.host ++ chr ':' :: toText m.ownAddress.port ++ [chr '\n'])))) := by
  rw [readFlag, contents, number_toText _ (by rw [List.head?_cons]; decide)]
  cases m.selfIsMember <;> simp

lemma readLines_contents (hspec : chr '\n' ∉ formatPeerSpec m.basePeers)
    (hown : chr '\n' ∉ m.ownAddress.host) :
    readLines (readFlag (contents m)).2 =
      (formatPeerSpec m.basePeers, m.ownAddress.host ++ chr ':' :: toText m.ownAddress.port) := by
  have hline : chr '\n' ∉ m.ownAddress.host ++ chr ':' :: toText m.ownAddress.port := by
    simp only [List.mem_append, List.mem_cons, not_or]
    exact ⟨hown, by decide, not_mem_toText (by decide) _⟩
  simp only [readFlag_contents, readLines, Option.getD_some, List.drop_succ_cons, List.drop_zero]
  rw [getlines_append, parts_of_not_mem hspec, getlines_append, parts_of_not_mem hline]
  rfl

lemma parseOwn_contents {before own : PeerAddress} (hport : own.port < 2 ^ 16)
    (hcolon : chr ':' ∉ own.host) :
    parseOwn p before (own.host ++ chr ':' :: toText own.port) = .ok own := by
  rw [parseOwn, cut_append hcolon]
  dsimp only
  rw [stoul_toText p (by omega)]
  change Except.ok (⟨own.host, own.port % 2 ^ 16⟩ : PeerAddress) = _
  rw [Nat.mod_eq_of_lt hport]

/-- What is read as an own address has no colon in its host, and nothing that was not there. -/
lemma parseOwn_clean {line : Bytes} {own : PeerAddress}
    (h : parseOwn p (initial port).ownAddress line = .ok own) :
    chr ':' ∉ own.host ∧ ∀ c ∈ own.host, c ∈ line := by
  unfold parseOwn at h
  split at h
  · cases h
    exact ⟨List.not_mem_nil, fun c hc => absurd hc List.not_mem_nil⟩
  · rename_i host port hcut
    obtain ⟨n, -, h⟩ := bind_eq_ok.mp h
    cases h
    obtain ⟨rfl, hcolon⟩ := cut_eq_some hcut
    exact ⟨hcolon, fun c hc => List.mem_append_left _ hc⟩

lemma newline_not_mem_readLines (rest : Option Bytes) :
    chr '\n' ∉ (readLines rest).1 ∧ chr '\n' ∉ (readLines rest).2 := by
  have hline : ∀ i : ℕ, chr '\n' ∉
      (getlines (chr '\n') ((rest.getD []).drop 1))[i]?.getD [] := fun i => by
    cases hi : (getlines (chr '\n') ((rest.getD []).drop 1))[i]? with
    | none => exact List.not_mem_nil
    | some line => exact not_mem_getlines (List.mem_of_getElem? hi)
  exact ⟨hline 0, hline 1⟩

/-- **What the file gives back**: the membership, exactly if no host has a separator in it that
ends it in the file. -/
theorem load_contents (htyped : Typed m) :
    load p port (some (contents m)) = .ok (m, true) ↔ Restorable m := by
  constructor
  · intro h
    obtain ⟨peers, hpeers, h⟩ := bind_eq_ok.mp h
    obtain ⟨own, hown, h⟩ := bind_eq_ok.mp h
    obtain ⟨hspec, hline⟩ := newline_not_mem_readLines (readFlag (contents m)).2
    obtain rfl : peers = m.basePeers := congrArg (fun x => x.1.basePeers) (Except.ok.inj h)
    obtain rfl : own = m.ownAddress := congrArg (fun x => x.1.ownAddress) (Except.ok.inj h)
    obtain ⟨hcolon, hmem⟩ := parseOwn_clean hown
    refine ⟨fun peer hpeer => ?_, hcolon, fun hc => hline (hmem _ hc)⟩
    obtain ⟨-, hclean, hmem⟩ := parse_clean hpeers hpeer
    exact ⟨hclean, fun hc => hspec (hmem _ hc)⟩
  · intro h
    have hspec := newline_not_mem_formatPeerSpec fun peer hpeer => (h.peers peer hpeer).2
    have hpeers : parsePeerSpec p (formatPeerSpec m.basePeers) = .ok m.basePeers :=
      parse_format fun peer hpeer => ⟨htyped.peers peer hpeer, (h.peers peer hpeer).1⟩
    unfold load
    dsimp only
    rw [readLines_contents hspec h.own.2, hpeers, parseOwn_contents htyped.own h.own.1,
      readFlag_contents]
    rfl

end DistDB.MembershipFile
