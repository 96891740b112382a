import DistDB.NodeModel
import DistDB.Streaming

/-!
The messages of `raft/message.cpp`: each is a byte with its type and then its fields.

Every message is read back from its encoding, and no proper prefix of the encoding is taken
for a message, wherever it is cut (`reads_back`).
-/

namespace DistDB.Wire

open NodeModel Codec Bytes Checks

open Node (RequestVoteRequest RequestVoteResponse AppendEntriesRequest AppendEntriesResponse
  InstallSnapshotRequest InstallSnapshotResponse)

structure ClientRequest where
  command : Bytes
  deriving DecidableEq

structure ClientResponse where
  success : Bool
  index : ℕ
  notLeader : Bool
  leaderHint : NodeId
  error : Bytes
  deriving DecidableEq

structure ReadRequest where
  query : Bytes
  deriving DecidableEq

structure ReadResponse where
  error : Bool
  result : Bytes
  deriving DecidableEq

structure DescribeClusterRequest where
  deriving DecidableEq

structure DescribeClusterResponse where
  id : NodeId
  ownAddress : PeerAddress
  peers : OrdMap NodeId PeerAddress
  deriving DecidableEq

/-- `enum class MessageType : uint8_t`. -/
inductive MessageType
  | kRequestVoteRequest
  | kRequestVoteResponse
  | kAppendEntriesRequest
  | kAppendEntriesResponse
  | kClientRequest
  | kClientResponse
  | kInstallSnapshotRequest
  | kInstallSnapshotResponse
  | kReadRequest
  | kReadResponse
  | kDescribeClusterRequest
  | kDescribeClusterResponse
  deriving DecidableEq

/-- The number of the enumerator. -/
def MessageType.code : MessageType → ℕ
  | .kRequestVoteRequest => 1
  | .kRequestVoteResponse => 2
  | .kAppendEntriesRequest => 3
  | .kAppendEntriesResponse => 4
  | .kClientRequest => 5
  | .kClientResponse => 6
  | .kInstallSnapshotRequest => 7
  | .kInstallSnapshotResponse => 8
  | .kReadRequest => 9
  | .kReadResponse => 10
  | .kDescribeClusterRequest => 11
  | .kDescribeClusterResponse => 12

def truncatedMessage : Exception := .runtimeError (text "corrupt or truncated raft message")

def emptyMessage : Exception := .runtimeError (text "empty raft message")

/-- `PeekMessageType`; a body may start with any byte. -/
def peekMessageType (body : Bytes) : Except Exception ℕ :=
  match body with
  | [] => .error emptyMessage
  | tag :: _ => .ok tag.toNat

/-- What all the encoders do: the type, then the fields. -/
def encodeMessage (type : MessageType) (fields : Bytes) : Bytes := le 1 type.code ++ fields

/-- What all the decoders do: they skip the type and read the fields, and leave unread what
follows. -/
def decodeMessage {α : Type} (fields : Reader Exception α) (body : Bytes) : Except Exception α :=
  Codec.run (do
    let _tag ← num truncatedMessage 1
    fields) body

def encLogEntry (e : LogEntry) : Bytes := le 8 e.index ++ le 8 e.term ++ encStr e.command

def readLogEntry : Reader Exception LogEntry := do
  let index ← num truncatedMessage 8
  let term ← num truncatedMessage 8
  let command ← str truncatedMessage
  return ⟨index, term, command⟩

def encPeer (p : NodeId × PeerAddress) : Bytes :=
  le 4 p.1 ++ encStr p.2.host ++ le 2 p.2.port

def readPeer : Reader Exception (NodeId × PeerAddress) := do
  let id ← num truncatedMessage 4
  let host ← str truncatedMessage
  let port ← num truncatedMessage 2
  return (id, ⟨host, port⟩)

/-- A map, in key order. -/
def encPeers (m : OrdMap NodeId PeerAddress) : Bytes := encVec encPeer m.entries

/-- The entries go into the map one after the other. -/
def readPeers : Reader Exception (OrdMap NodeId PeerAddress) := do
  return OrdMap.insertAll .empty (← vec truncatedMessage readPeer)

def encodeRequestVoteRequest (req : RequestVoteRequest) : Bytes :=
  encodeMessage .kRequestVoteRequest
    (le 8 req.term ++ le 4 req.candidateId ++ le 8 req.lastLogIndex ++ le 8 req.lastLogTerm)

def readRequestVoteRequest : Reader Exception RequestVoteRequest := do
  let term ← num truncatedMessage 8
  let candidateId ← num truncatedMessage 4
  let lastLogIndex ← num truncatedMessage 8
  let lastLogTerm ← num truncatedMessage 8
  return ⟨term, candidateId, lastLogIndex, lastLogTerm⟩

def decodeRequestVoteRequest : Bytes → Except Exception RequestVoteRequest :=
  decodeMessage readRequestVoteRequest

def encodeRequestVoteResponse (resp : RequestVoteResponse) : Bytes :=
  encodeMessage .kRequestVoteResponse (le 8 resp.term ++ encFlag resp.voteGranted)

def readRequestVoteResponse : Reader Exception RequestVoteResponse := do
  let term ← num truncatedMessage 8
  let voteGranted ← flag truncatedMessage
  return ⟨term, voteGranted⟩

def decodeRequestVoteResponse : Bytes → Except Exception RequestVoteResponse :=
  decodeMessage readRequestVoteResponse

def encodeAppendEntriesRequest (req : AppendEntriesRequest) : Bytes :=
  encodeMessage .kAppendEntriesRequest
    (le 8 req.term ++ le 4 req.leaderId ++ le 8 req.prevLogIndex ++ le 8 req.prevLogTerm ++
      encVec encLogEntry req.entries ++ le 8 req.leaderCommit)

def readAppendEntriesRequest : Reader Exception AppendEntriesRequest := do
  let term ← num truncatedMessage 8
  let leaderId ← num truncatedMessage 4
  let prevLogIndex ← num truncatedMessage 8
  let prevLogTerm ← num truncatedMessage 8
  let entries ← vec truncatedMessage readLogEntry
  let leaderCommit ← num truncatedMessage 8
  return ⟨term, leaderId, prevLogIndex, prevLogTerm, entries, leaderCommit⟩

def decodeAppendEntriesRequest : Bytes → Except Exception AppendEntriesRequest :=
  decodeMessage readAppendEntriesRequest

def encodeAppendEntriesResponse (resp : AppendEntriesResponse) : Bytes :=
  encodeMessage .kAppendEntriesResponse
    (le 8 resp.term ++ encFlag resp.success ++ le 8 resp.matchIndex)

def readAppendEntriesResponse : Reader Exception AppendEntriesResponse := do
  let term ← num truncatedMessage 8
  let success ← flag truncatedMessage
  let matchIndex ← num truncatedMessage 8
  return ⟨term, success, matchIndex⟩

def decodeAppendEntriesResponse : Bytes → Except Exception AppendEntriesResponse :=
  decodeMessage readAppendEntriesResponse

def encodeClientRequest (req : ClientRequest) : Bytes :=
  encodeMessage .kClientRequest (encStr req.command)

def readClientRequest : Reader Exception ClientRequest := do
  let command ← str truncatedMessage
  return ⟨command⟩

def decodeClientRequest : Bytes → Except Exception ClientRequest :=
  decodeMessage readClientRequest

def encodeClientResponse (resp : ClientResponse) : Bytes :=
  encodeMessage .kClientResponse
    (encFlag resp.success ++ le 8 resp.index ++ encFlag resp.notLeader ++ le 4 resp.leaderHint ++
      encStr resp.error)

def readClientResponse : Reader Exception ClientResponse := do
  let success ← flag truncatedMessage
  let index ← num truncatedMessage 8
  let notLeader ← flag truncatedMessage
  let leaderHint ← num truncatedMessage 4
  let error ← str truncatedMessage
  return ⟨success, index, notLeader, leaderHint, error⟩

def decodeClientResponse : Bytes → Except Exception ClientResponse :=
  decodeMessage readClientResponse

def encodeInstallSnapshotRequest (req : InstallSnapshotRequest) : Bytes :=
  encodeMessage .kInstallSnapshotRequest
    (le 8 req.term ++ le 4 req.leaderId ++ le 8 req.lastIncludedIndex ++
      le 8 req.lastIncludedTerm ++ encStr req.data ++ encPeers req.membership)

def readInstallSnapshotRequest : Reader Exception InstallSnapshotRequest := do
  let term ← num truncatedMessage 8
  let leaderId ← num truncatedMessage 4
  let lastIncludedIndex ← num truncatedMessage 8
  let lastIncludedTerm ← num truncatedMessage 8
  let data ← str truncatedMessage
  let membership ← readPeers
  return ⟨term, leaderId, lastIncludedIndex, lastIncludedTerm, data, membership⟩

def decodeInstallSnapshotRequest : Bytes → Except Exception InstallSnapshotRequest :=
  decodeMessage readInstallSnapshotRequest

def encodeInstallSnapshotResponse (resp : InstallSnapshotResponse) : Bytes :=
  encodeMessage .kInstallSnapshotResponse (le 8 resp.term)

def readInstallSnapshotResponse : Reader Exception InstallSnapshotResponse := do
  let term ← num truncatedMessage 8
  return ⟨term⟩

def decodeInstallSnapshotResponse : Bytes → Except Exception InstallSnapshotResponse :=
  decodeMessage readInstallSnapshotResponse

def encodeReadRequest (req : ReadRequest) : Bytes :=
  encodeMessage .kReadRequest (encStr req.query)

def readReadRequest : Reader Exception ReadRequest := do
  let query ← str truncatedMessage
  return ⟨query⟩

def decodeReadRequest : Bytes → Except Exception ReadRequest := decodeMessage readReadRequest

def encodeReadResponse (resp : ReadResponse) : Bytes :=
  encodeMessage .kReadResponse (encFlag resp.error ++ encStr resp.result)

def readReadResponse : Reader Exception ReadResponse := do
  let error ← flag truncatedMessage
  let result ← str truncatedMessage
  return ⟨error, result⟩

def decodeReadResponse : Bytes → Except Exception ReadResponse := decodeMessage readReadResponse

def encodeDescribeClusterRequest (_req : DescribeClusterRequest) : Bytes :=
  encodeMessage .kDescribeClusterRequest []

def readDescribeClusterRequest : Reader Exception DescribeClusterRequest := do
  return {}

def decodeDescribeClusterRequest : Bytes → Except Exception DescribeClusterRequest :=
  decodeMessage readDescribeClusterRequest

def encodeDescribeClusterResponse (resp : DescribeClusterResponse) : Bytes :=
  encodeMessage .kDescribeClusterResponse
    (le 4 resp.id ++ encStr resp.ownAddress.host ++ le 2 resp.ownAddress.port ++
      encPeers resp.peers)

def readDescribeClusterResponse : Reader Exception DescribeClusterResponse := do
  let id ← num truncatedMessage 4
  let host ← str truncatedMessage
  let port ← num truncatedMessage 2
  let peers ← readPeers
  return ⟨id, ⟨host, port⟩, peers⟩

def decodeDescribeClusterResponse : Bytes → Except Exception DescribeClusterResponse :=
  decodeMessage readDescribeClusterResponse

/-! ### Values that fit their fields -/

def PeersFit (m : OrdMap NodeId PeerAddress) : Prop :=
  m.entries.length < 2 ^ 32 ∧
    ∀ p ∈ m.entries, p.1 < 2 ^ 32 ∧ p.2.host.length < 2 ^ 32 ∧ p.2.port < 2 ^ 16

def EntriesFit (es : List LogEntry) : Prop :=
  es.length < 2 ^ 32 ∧
    ∀ e ∈ es, e.index < 2 ^ 64 ∧ e.term < 2 ^ 64 ∧ e.command.length < 2 ^ 32

/-- A message of any type. -/
inductive Message
  | requestVoteRequest (req : RequestVoteRequest)
  | requestVoteResponse (resp : RequestVoteResponse)
  | appendEntriesRequest (req : AppendEntriesRequest)
  | appendEntriesResponse (resp : AppendEntriesResponse)
  | clientRequest (req : ClientRequest)
  | clientResponse (resp : ClientResponse)
  | installSnapshotRequest (req : InstallSnapshotRequest)
  | installSnapshotResponse (resp : InstallSnapshotResponse)
  | readRequest (req : ReadRequest)
  | readResponse (resp : ReadResponse)
  | describeClusterRequest (req : DescribeClusterRequest)
  | describeClusterResponse (resp : DescribeClusterResponse)

namespace Message

def type : Message → MessageType
  | requestVoteRequest _ => .kRequestVoteRequest
  | requestVoteResponse _ => .kRequestVoteResponse
  | appendEntriesRequest _ => .kAppendEntriesRequest
  | appendEntriesResponse _ => .kAppendEntriesResponse
  | clientRequest _ => .kClientRequest
  | clientResponse _ => .kClientResponse
  | installSnapshotRequest _ => .kInstallSnapshotRequest
  | installSnapshotResponse _ => .kInstallSnapshotResponse
  | readRequest _ => .kReadRequest
  | readResponse _ => .kReadResponse
  | describeClusterRequest _ => .kDescribeClusterRequest
  | describeClusterResponse _ => .kDescribeClusterResponse

def encode : Message → Bytes
  | requestVoteRequest req => encodeRequestVoteRequest req
  | requestVoteResponse resp => encodeRequestVoteResponse resp
  | appendEntriesRequest req => encodeAppendEntriesRequest req
  | appendEntriesResponse resp => encodeAppendEntriesResponse resp
  | clientRequest req => encodeClientRequest req
  | clientResponse resp => encodeClientResponse resp
  | installSnapshotRequest req => encodeInstallSnapshotRequest req
  | installSnapshotResponse resp => encodeInstallSnapshotResponse resp
  | readRequest req => encodeReadRequest req
  | readResponse resp => encodeReadResponse resp
  | describeClusterRequest req => encodeDescribeClusterRequest req
  | describeClusterResponse resp => encodeDescribeClusterResponse resp

/-- The decoder for this type. -/
def decode (type : MessageType) (body : Bytes) : Except Exception Message :=
  match type with
  | .kRequestVoteRequest => (decodeRequestVoteRequest body).map requestVoteRequest
  | .kRequestVoteResponse => (decodeRequestVoteResponse body).map requestVoteResponse
  | .kAppendEntriesRequest => (decodeAppendEntriesRequest body).map appendEntriesRequest
  | .kAppendEntriesResponse => (decodeAppendEntriesResponse body).map appendEntriesResponse
  | .kClientRequest => (decodeClientRequest body).map clientRequest
  | .kClientResponse => (decodeClientResponse body).map clientResponse
  | .kInstallSnapshotRequest => (decodeInstallSnapshotRequest body).map installSnapshotRequest
  | .kInstallSnapshotResponse => (decodeInstallSnapshotResponse body).map installSnapshotResponse
  | .kReadRequest => (decodeReadRequest body).map readRequest
  | .kReadResponse => (decodeReadResponse body).map readResponse
  | .kDescribeClusterRequest => (decodeDescribeClusterRequest body).map describeClusterRequest
  | .kDescribeClusterResponse => (decodeDescribeClusterResponse body).map describeClusterResponse

/-- The numbers are below the bounds of their types, the strings and lists are shorter than
`2 ^ 32`. -/
def Fits : Message → Prop
  | requestVoteRequest req => req.term < 2 ^ 64 ∧ req.candidateId < 2 ^ 32 ∧
      req.lastLogIndex < 2 ^ 64 ∧ req.lastLogTerm < 2 ^ 64
  | requestVoteResponse resp => resp.term < 2 ^ 64
  | appendEntriesRequest req => req.term < 2 ^ 64 ∧ req.leaderId < 2 ^ 32 ∧
      req.prevLogIndex < 2 ^ 64 ∧ req.prevLogTerm < 2 ^ 64 ∧ EntriesFit req.entries ∧
      req.leaderCommit < 2 ^ 64
  | appendEntriesResponse resp => resp.term < 2 ^ 64 ∧ resp.matchIndex < 2 ^ 64
  | clientRequest req => req.command.length < 2 ^ 32
  | clientResponse resp => resp.index < 2 ^ 64 ∧ resp.leaderHint < 2 ^ 32 ∧
      resp.error.length < 2 ^ 32
  | installSnapshotRequest req => req.term < 2 ^ 64 ∧ req.leaderId < 2 ^ 32 ∧
      req.lastIncludedIndex < 2 ^ 64 ∧ req.lastIncludedTerm < 2 ^ 64 ∧
      req.data.length < 2 ^ 32 ∧ PeersFit req.membership
  | installSnapshotResponse resp => resp.term < 2 ^ 64
  | readRequest req => req.query.length < 2 ^ 32
  | readResponse resp => resp.result.length < 2 ^ 32
  | describeClusterRequest _ => True
  | describeClusterResponse resp => resp.id < 2 ^ 32 ∧ resp.ownAddress.host.length < 2 ^ 32 ∧
      resp.ownAddress.port < 2 ^ 16 ∧ PeersFit resp.peers

end Message

/-! ### Reading back -/

/-- What the decoders share: fields that are read back and no further make a message that is. -/
lemma decodeMessage_encodeMessage {α : Type} {read : Reader Exception α}
    (type : MessageType) {fields : Bytes} {a : α} (hread : ReadsBack read fields a)
    (hstreams : Streams truncatedMessage read) :
    decodeMessage read (encodeMessage type fields) = .ok a ∧
      peekMessageType (encodeMessage type fields) = .ok type.code ∧
      ∀ p, p <+: encodeMessage type fields → p ≠ encodeMessage type fields →
        decodeMessage read p = .error truncatedMessage := by
  have hcode : type.code < 256 ^ 1 := by cases type <;> decide
  have hbody : ReadsBack (do let _tag ← num truncatedMessage 1; read)
      (encodeMessage type fields) a := by
    intro t
    rw [encodeMessage, List.append_assoc, (readsBack_num hcode).step]
    exact hread t
  have hskip : Streams truncatedMessage (do let _tag ← num truncatedMessage 1; read) :=
    (streams_num 1).bind fun _ => hstreams
  refine ⟨?_, ?_, fun p hp hne => ?_⟩
  · have hwhole := hbody []
    rw [List.append_nil] at hwhole
    exact run_eq_ok.mpr ⟨[], hwhole⟩
  · cases type <;> rfl
  · rw [decodeMessage, Codec.run, hskip.truncated hbody hp hne]
    rfl

lemma readsBack_readLogEntry {e : LogEntry}
    (h : e.index < 2 ^ 64 ∧ e.term < 2 ^ 64 ∧ e.command.length < 2 ^ 32) :
    ReadsBack readLogEntry (encLogEntry e) e := by
  intro t
  simp only [encLogEntry, List.append_assoc]
  rw [readLogEntry, (readsBack_num h.1).step, (readsBack_num h.2.1).step,
    (readsBack_str h.2.2).step]
  rfl

lemma readsBack_readPeer {p : NodeId × PeerAddress}
    (h : p.1 < 2 ^ 32 ∧ p.2.host.length < 2 ^ 32 ∧ p.2.port < 2 ^ 16) :
    ReadsBack readPeer (encPeer p) p := by
  intro t
  simp only [encPeer, List.append_assoc]
  rw [readPeer, (readsBack_num h.1).step, (readsBack_str h.2.1).step, (readsBack_num h.2.2).step]
  rfl

lemma readsBack_readPeers {m : OrdMap NodeId PeerAddress} (h : PeersFit m) :
    ReadsBack readPeers (encPeers m) m := by
  intro t
  rw [readPeers, encPeers, (readsBack_vec (fun p hp => readsBack_readPeer (h.2 p hp)) h.1).step,
    OrdMap.insertAll_entries]
  rfl

lemma streams_readLogEntry : Streams truncatedMessage readLogEntry :=
  (streams_num 8).bind fun _ => (streams_num 8).bind fun _ => streams_str.bind fun _ =>
    streams_pure _

lemma streams_readPeers : Streams truncatedMessage readPeers :=
  (streams_vec <| (streams_num 4).bind fun _ => streams_str.bind fun _ =>
    (streams_num 2).bind fun _ => streams_pure _).bind fun _ => streams_pure _

/-- What the wire owes to a message: its decoder gives it back, its type is seen, and no part of
it passes for a message. -/
structure ReadBack (m : Message) : Prop where
  decode : Message.decode m.type m.encode = .ok m
  peek : peekMessageType m.encode = .ok m.type.code
  truncated : ∀ p, p <+: m.encode → p ≠ m.encode →
    Message.decode m.type p = .error truncatedMessage

lemma readBack_of {α : Type} (read : Reader Exception α) {m : Message} {fields : Bytes} {a : α}
    {wrap : α → Message} (hread : ReadsBack read fields a)
    (hstreams : Streams truncatedMessage read) (hm : wrap a = m)
    (hencode : m.encode = encodeMessage m.type fields)
    (hdecode : ∀ body, Message.decode m.type body = (decodeMessage read body).map wrap) :
    ReadBack m := by
  obtain ⟨hwhole, hpeek, hcut⟩ := decodeMessage_encodeMessage m.type hread hstreams
  refine ⟨?_, ?_, fun p hp hne => ?_⟩
  · rw [hdecode, hencode, hwhole, ← hm]
    rfl
  · rw [hencode, hpeek]
  · rw [hencode] at hp hne
    rw [hdecode, hcut p hp hne]
    rfl

/-- **Every message is read back**, by the decoder for its type; its type is seen in its first
byte; and of no message is a part, wherever it is cut, taken for one. -/
theorem reads_back {m : Message} (h : m.Fits) :
    Message.decode m.type m.encode = .ok m ∧
      peekMessageType m.encode = .ok m.type.code ∧
      ∀ p, p <+: m.encode → p ≠ m.encode →
        Message.decode m.type p = .error truncatedMessage := by
  suffices hback : ReadBack m from ⟨hback.decode, hback.peek, hback.truncated⟩
  cases m with
  | requestVoteRequest req =>
    obtain ⟨hterm, hid, hindex, hlast⟩ := h
    refine readBack_of readRequestVoteRequest (fun t => ?_)
      ((streams_num 8).bind fun _ => (streams_num 4).bind fun _ => (streams_num 8).bind fun _ =>
        (streams_num 8).bind fun _ => streams_pure _) rfl rfl fun _ => rfl
    simp only [List.append_assoc]
    rw [readRequestVoteRequest, (readsBack_num hterm).step, (readsBack_num hid).step,
      (readsBack_num hindex).step, (readsBack_num hlast).step]
    rfl
  | requestVoteResponse resp =>
    refine readBack_of readRequestVoteResponse (fun t => ?_)
      ((streams_num 8).bind fun _ => streams_flag.bind fun _ => streams_pure _) rfl rfl fun _ => rfl
    simp only [List.append_assoc]
    rw [readRequestVoteResponse, (readsBack_num h).step, (readsBack_flag _).step]
    rfl
  | appendEntriesRequest req =>
    obtain ⟨hterm, hid, hindex, hprev, hentries, hcommit⟩ := h
    refine readBack_of readAppendEntriesRequest (fun t => ?_)
      ((streams_num 8).bind fun _ => (streams_num 4).bind fun _ => (streams_num 8).bind fun _ =>
        (streams_num 8).bind fun _ => (streams_vec streams_readLogEntry).bind fun _ =>
        (streams_num 8).bind fun _ => streams_pure _) rfl rfl fun _ => rfl
    simp only [List.append_assoc]
    rw [readAppendEntriesRequest, (readsBack_num hterm).step, (readsBack_num hid).step,
      (readsBack_num hindex).step, (readsBack_num hprev).step,
      (readsBack_vec (fun e he => readsBack_readLogEntry (hentries.2 e he)) hentries.1).step,
      (readsBack_num hcommit).step]
    rfl
  | appendEntriesResponse resp =>
    refine readBack_of readAppendEntriesResponse (fun t => ?_)
      ((streams_num 8).bind fun _ => streams_flag.bind fun _ => (streams_num 8).bind fun _ =>
        streams_pure _) rfl rfl fun _ => rfl
    simp only [List.append_assoc]
    rw [readAppendEntriesResponse, (readsBack_num h.1).step, (readsBack_flag _).step,
      (readsBack_num h.2).step]
    rfl
  | clientRequest req =>
    refine readBack_of readClientRequest (fun t => ?_)
      (streams_str.bind fun _ => streams_pure _) rfl rfl fun _ => rfl
    rw [readClientRequest, (readsBack_str h).step]
    rfl
  | clientResponse resp =>
    obtain ⟨hindex, hhint, herror⟩ := h
    refine readBack_of readClientResponse (fun t => ?_)
      (streams_flag.bind fun _ => (streams_num 8).bind fun _ => streams_flag.bind fun _ =>
        (streams_num 4).bind fun _ => streams_str.bind fun _ => streams_pure _) rfl rfl fun _ => rfl
    simp only [List.append_assoc]
    rw [readClientResponse, (readsBack_flag _).step, (readsBack_num hindex).step,
      (readsBack_flag _).step, (readsBack_num hhint).step, (readsBack_str herror).step]
    rfl
  | installSnapshotRequest req =>
    obtain ⟨hterm, hid, hindex, hlast, hdata, hmembers⟩ := h
    refine readBack_of readInstallSnapshotRequest (fun t => ?_)
      ((streams_num 8).bind fun _ => (streams_num 4).bind fun _ => (streams_num 8).bind fun _ =>
        (streams_num 8).bind fun _ => streams_str.bind fun _ => streams_readPeers.bind fun _ =>
        streams_pure _) rfl rfl fun _ => rfl
    simp only [List.append_assoc]
    rw [readInstallSnapshotRequest, (readsBack_num hterm).step, (readsBack_num hid).step,
      (readsBack_num hindex).step, (readsBack_num hlast).step, (readsBack_str hdata).step,
      (readsBack_readPeers hmembers).step]
    rfl
  | installSnapshotResponse resp =>
    refine readBack_of readInstallSnapshotResponse (fun t => ?_)
      ((streams_num 8).bind fun _ => streams_pure _) rfl rfl fun _ => rfl
    rw [readInstallSnapshotResponse, (readsBack_num h).step]
    rfl
  | readRequest req =>
    refine readBack_of readReadRequest (fun t => ?_)
      (streams_str.bind fun _ => streams_pure _) rfl rfl fun _ => rfl
    rw [readReadRequest, (readsBack_str h).step]
    rfl
  | readResponse resp =>
    refine readBack_of readReadResponse (fun t => ?_)
      (streams_flag.bind fun _ => streams_str.bind fun _ => streams_pure _) rfl rfl fun _ => rfl
    simp only [List.append_assoc]
    rw [readReadResponse, (readsBack_flag _).step, (readsBack_str h).step]
    rfl
  | describeClusterRequest req =>
    exact readBack_of readDescribeClusterRequest (a := req) (fun t => rfl)
      (streams_pure _) rfl rfl fun _ => rfl
  | describeClusterResponse resp =>
    obtain ⟨hid, hhost, hport, hpeers⟩ := h
    refine readBack_of readDescribeClusterResponse (fun t => ?_)
      ((streams_num 4).bind fun _ => streams_str.bind fun _ => (streams_num 2).bind fun _ =>
        streams_readPeers.bind fun _ => streams_pure _) rfl rfl fun _ => rfl
    simp only [List.append_assoc]
    rw [readDescribeClusterResponse, (readsBack_num hid).step, (readsBack_str hhost).step,
      (readsBack_num hport).step, (readsBack_readPeers hpeers).step]
    rfl

/-- A snapshot for a cluster of two. -/
def sentSnapshot : Message :=
  .installSnapshotRequest ⟨3, 1, 20, 2, [0, 255],
    OrdMap.insertAll .empty [(1, ⟨text "a", 7000⟩), (2, ⟨text "b", 65535⟩)]⟩

theorem reads_back_snapshot :
    Message.decode .kInstallSnapshotRequest sentSnapshot.encode = .ok sentSnapshot ∧
      Message.decode .kInstallSnapshotRequest (sentSnapshot.encode.take 40) =
        .error truncatedMessage := by
  have h : sentSnapshot.Fits := by
    refine ⟨by decide, by decide, by decide, by decide, by decide, by decide, by decide⟩
  obtain ⟨hdecode, -, hcut⟩ := reads_back h
  exact ⟨hdecode, hcut _ (List.take_prefix 40 _) (by decide)⟩

end DistDB.Wire
