import DistDB.Frames
import DistDB.ReadRequests

/-!
Calls from one process to another: the request goes over a connection of its own to
`HandleMessage` of `raft/node.cpp`, and the answer comes back over it.

Whatever the network does to the two streams, the caller gets what the handler has answered, or an
exception; and the handler has run once, on the request that was sent, or not at all
(`calls_answered`).
-/

namespace DistDB.RemoteCalls

open NodeModel Wire Frames Bytes Checks

open Node (RequestVoteRequest RequestVoteResponse AppendEntriesRequest AppendEntriesResponse
  InstallSnapshotRequest InstallSnapshotResponse)

variable {σ : Type}

/-- The handlers of a node, on whatever they change. -/
structure Handlers (σ : Type) where
  requestVote : σ → RequestVoteRequest → σ × Except Exception RequestVoteResponse
  appendEntries : σ → AppendEntriesRequest → σ × Except Exception AppendEntriesResponse
  client : σ → ClientRequest → σ × Except Exception ClientResponse
  installSnapshot : σ → InstallSnapshotRequest → σ × Except Exception InstallSnapshotResponse
  read : σ → ReadRequest → σ × Except Exception ReadResponse
  describeCluster : σ → DescribeClusterRequest → σ × Except Exception DescribeClusterResponse

def unexpectedType : Exception := .runtimeError (text "unexpected message type received")

/-- A request is decoded and handled, and the answer is encoded. -/
def answer {α β : Type} (decode : Bytes → Except Exception α)
    (handle : σ → α → σ × Except Exception β) (encode : β → Bytes) (s : σ)
    (body : Bytes) :
    σ × Except Exception Bytes :=
  match decode body with
  | .error e => (s, .error e)
  | .ok req => ((handle s req).1, (handle s req).2.map encode)

/-- `HandleMessage`. -/
def handleMessage (h : Handlers σ) (s : σ) (body : Bytes) : σ × Except Exception Bytes :=
  match peekMessageType body with
  | .error e => (s, .error e)
  | .ok type =>
    if type = MessageType.kRequestVoteRequest.code then
      answer decodeRequestVoteRequest h.requestVote encodeRequestVoteResponse s body
    else if type = MessageType.kAppendEntriesRequest.code then
      answer decodeAppendEntriesRequest h.appendEntries encodeAppendEntriesResponse s body
    else if type = MessageType.kClientRequest.code then
      answer decodeClientRequest h.client encodeClientResponse s body
    else if type = MessageType.kInstallSnapshotRequest.code then
      answer decodeInstallSnapshotRequest h.installSnapshot encodeInstallSnapshotResponse s body
    else if type = MessageType.kReadRequest.code then
      answer decodeReadRequest h.read encodeReadResponse s body
    else if type = MessageType.kDescribeClusterRequest.code then
      answer decodeDescribeClusterRequest h.describeCluster encodeDescribeClusterResponse s body
    else (s, .error unexpectedType)

/-- The thread of `AcceptLoop` for one connection: what it leaves, and what it has sent. It catches
every exception. -/
def serveConnection (handler : σ → Bytes → σ × Except Exception Bytes) (s : σ)
    (arrived : List Bytes) (takes : List ℕ) : σ × Bytes :=
  match readFramedMessage arrived with
  | .error _ => (s, [])
  | .ok (request, _) =>
    match handler s request with
    | (s, .error _) => (s, [])
    | (s, .ok response) => (s, (writeFramedMessage takes response).1)

/-- `SendRequest` on a connection: what it has sent, and what it returns. -/
def sendRequest (takes : List ℕ) (arrived : List Bytes) (request : Bytes) :
    Bytes × Except Exception Bytes :=
  match writeFramedMessage takes request with
  | (sent, .error e) => (sent, .error e)
  | (sent, .ok ()) => (sent, (readFramedMessage arrived).map Prod.fst)

/-- The type of the answers that the caller decodes. -/
def answerType : MessageType → MessageType
  | .kRequestVoteRequest => .kRequestVoteResponse
  | .kAppendEntriesRequest => .kAppendEntriesResponse
  | .kClientRequest => .kClientResponse
  | .kInstallSnapshotRequest => .kInstallSnapshotResponse
  | .kReadRequest => .kReadResponse
  | .kDescribeClusterRequest => .kDescribeClusterResponse
  | type => type

/-- The request is one that a node handles. -/
def IsRequest : Message → Prop
  | .requestVoteRequest _ | .appendEntriesRequest _ | .clientRequest _
  | .installSnapshotRequest _ | .readRequest _ | .describeClusterRequest _ => True
  | _ => False

/-- What the handler of a request does and answers, in the same process. -/
def Handlers.run (h : Handlers σ) (s : σ) : Message → σ × Except Exception Message
  | .requestVoteRequest req =>
    ((h.requestVote s req).1, (h.requestVote s req).2.map .requestVoteResponse)
  | .appendEntriesRequest req =>
    ((h.appendEntries s req).1, (h.appendEntries s req).2.map .appendEntriesResponse)
  | .clientRequest req => ((h.client s req).1, (h.client s req).2.map .clientResponse)
  | .installSnapshotRequest req =>
    ((h.installSnapshot s req).1, (h.installSnapshot s req).2.map .installSnapshotResponse)
  | .readRequest req => ((h.read s req).1, (h.read s req).2.map .readResponse)
  | .describeClusterRequest req =>
    ((h.describeCluster s req).1, (h.describeCluster s req).2.map .describeClusterResponse)
  | _ => (s, .error unexpectedType)

variable {h : Handlers σ} {s : σ} {m : Message}

lemma run_type (hm : IsRequest m) {reply : Message} (hreply : (h.run s m).2 = .ok reply) :
    reply.type = answerType m.type := by
  have hmap : ∀ {β : Type} {r : Except Exception β} {wrap : β → Message},
      r.map wrap = .ok reply → ∃ b, wrap b = reply := by
    intro β r wrap hr
    cases r with
    | error e => cases hr
    | ok b => exact ⟨b, Except.ok.inj hr⟩
  cases m <;> first
    | exact hm.elim
    | (obtain ⟨r, rfl⟩ := hmap hreply
       rfl)

/-- A request that comes in whole, as the handler takes it. -/
def Handlers.take (h : Handlers σ) (s : σ) : Except Exception Message →
    σ × Except Exception Bytes
  | .error e => (s, .error e)
  | .ok m => ((h.run s m).1, (h.run s m).2.map Message.encode)

lemma answer_eq {α β : Type} {decode : Bytes → Except Exception α}
    {handle : σ → α → σ × Except Exception β} {encode : β → Bytes}
    {ask : α → Message} {reply : β → Message} {body : Bytes}
    (hrun : ∀ a, h.run s (ask a) = ((handle s a).1, (handle s a).2.map reply))
    (hencode : ∀ b, (reply b).encode = encode b) :
    answer decode handle encode s body = h.take s ((decode body).map ask) := by
  unfold answer
  cases decode body with
  | error e => rfl
  | ok a =>
    show (_, (handle s a).2.map encode) = ((h.run s (ask a)).1, (h.run s (ask a)).2.map _)
    rw [hrun]
    dsimp only
    cases (handle s a).2 with
    | error e => rfl
    | ok b =>
      simp only [Except.map]
      rw [hencode]

lemma handleMessage_eq (hm : IsRequest m) {body : Bytes}
    (hpeek : peekMessageType body = .ok m.type.code) :
    handleMessage h s body = h.take s (Message.decode m.type body) := by
  unfold handleMessage
  rw [hpeek]
  cases m <;> first
    | exact hm.elim
    | exact answer_eq (fun _ => rfl) fun _ => rfl

lemma handleMessage_encode (hm : IsRequest m) (hback : ReadBack m) :
    handleMessage h s m.encode = ((h.run s m).1, (h.run s m).2.map Message.encode) := by
  rw [handleMessage_eq hm hback.peek, hback.decode]
  rfl

lemma handleMessage_truncated (hm : IsRequest m) (hback : ReadBack m) {p : Bytes}
    (hp : p <+: m.encode) (hne : p ≠ m.encode) :
    ∃ e, handleMessage h s p = (s, .error e) := by
  cases p with
  | nil => exact ⟨_, rfl⟩
  | cons tag p =>
    have hpeek : peekMessageType (tag :: p) = .ok m.type.code := by
      obtain ⟨t, ht⟩ := hp
      rw [← hback.peek, ← ht]
      rfl
    rw [handleMessage_eq hm hpeek, hback.truncated _ hp hne]
    exact ⟨_, rfl⟩

/-- A call over a connection of its own: what the sockets take and give at a time, and that of what
one side has sent no more than a part has arrived at the other. -/
structure Call (handler : σ → Bytes → σ × Except Exception Bytes) (s : σ)
    (request : Bytes) where
  /-- What the caller's socket takes. -/
  takes : List ℕ
  /-- The pieces that come to the server. -/
  asked : List Bytes
  /-- What the server's socket takes. -/
  takesBack : List ℕ
  /-- The pieces that come back to the caller. -/
  answered : List Bytes
  asked_prefix : asked.flatten <+: (sendRequest takes answered request).1
  answered_prefix : answered.flatten <+: (serveConnection handler s asked takesBack).2

namespace Call

variable {handler : σ → Bytes → σ × Except Exception Bytes} {request : Bytes}

/-- What the call leaves at the server. -/
def left (c : Call handler s request) : σ := (serveConnection handler s c.asked c.takesBack).1

/-- What `SendRequest` returns. -/
def result (c : Call handler s request) : Except Exception Bytes :=
  (sendRequest c.takes c.answered request).2

end Call

/-- What comes across of a body: from `2 ^ 32` on it is cut. -/
def cut (body : Bytes) : Bytes := body.take (body.length % 2 ^ 32)

lemma sendRequest_sends (takes : List ℕ) (arrived : List Bytes) (request : Bytes) :
    (sendRequest takes arrived request).1 <+: frame request := by
  have hpre := (writeFramedMessage_sends takes request).1
  unfold sendRequest
  split
  · rename_i heq
    rwa [heq] at hpre
  · rename_i heq
    rwa [heq] at hpre

lemma of_sendRequest {takes : List ℕ} {arrived : List Bytes} {request response : Bytes}
    (h : (sendRequest takes arrived request).2 = .ok response) :
    ∃ pieces, readFramedMessage arrived = .ok (response, pieces) := by
  unfold sendRequest at h
  split at h
  · cases h
  · cases hread : readFramedMessage arrived with
    | error e =>
      rw [hread] at h
      cases h
    | ok r =>
      rw [hread] at h
      cases h
      exact ⟨r.2, rfl⟩

lemma read_of_prefix {pieces pieces' : List Bytes} {b body : Bytes}
    (hread : readFramedMessage pieces = .ok (b, pieces')) (hpre : pieces.flatten <+: frame body) :
    b = cut body := by
  obtain ⟨hflat, hlen⟩ := of_readFramedMessage hread
  exact (of_frame_ahead hlen (hflat ▸ hpre)).1

lemma not_read_of_nil {pieces : List Bytes} (hnil : pieces.flatten <+: [])
    (r : Bytes × List Bytes) : readFramedMessage pieces ≠ .ok r := by
  intro h
  obtain ⟨hflat, -⟩ := of_readFramedMessage h
  have hlen := congrArg List.length hflat
  rw [List.prefix_nil.mp hnil, frame, List.append_assoc, List.length_append, length_le,
    List.length_nil] at hlen
  omega

/-- The server does nothing, or it runs the handler on the body that has come in and sends what
is answered, as far as its socket goes. -/
lemma serveConnection_cases (handler : σ → Bytes → σ × Except Exception Bytes) (s : σ)
    (asked : List Bytes) (takes : List ℕ) :
    serveConnection handler s asked takes = (s, []) ∨
      ∃ body pieces, readFramedMessage asked = .ok (body, pieces) ∧
        (serveConnection handler s asked takes).1 = (handler s body).1 ∧
        ((serveConnection handler s asked takes).2 = [] ∨
          ∃ full, (handler s body).2 = .ok full ∧
          (serveConnection handler s asked takes).2 <+: frame full) := by
  unfold serveConnection
  cases hread : readFramedMessage asked with
  | error e => exact .inl rfl
  | ok r =>
    refine .inr ⟨r.1, r.2, rfl, ?_⟩
    dsimp only
    cases hrun : handler s r.1 with
    | mk s' result =>
      cases result with
      | error e => exact ⟨rfl, .inl rfl⟩
      | ok full => exact ⟨rfl, .inr ⟨full, rfl, (writeFramedMessage_sends takes full).1⟩⟩

/-- The handler has run once, on what has come across of the request, or not at all; and when
`SendRequest` returns, it has run, and what is returned is what comes across of its answer. -/
lemma call_once {handler : σ → Bytes → σ × Except Exception Bytes} {request : Bytes}
    (c : Call handler s request) :
    (c.left = s ∨ c.left = (handler s (cut request)).1) ∧
      ∀ response, c.result = .ok response → c.left = (handler s (cut request)).1 ∧
        ∃ full, (handler s (cut request)).2 = .ok full ∧ response = cut full := by
  have hback := c.answered_prefix
  rcases serveConnection_cases handler s c.asked c.takesBack with
    hnone | ⟨body, pieces, hread, hleft, hsent⟩
  · refine ⟨.inl (congrArg Prod.fst hnone), fun response hresult => ?_⟩
    obtain ⟨rest, hresponse⟩ := of_sendRequest hresult
    rw [hnone] at hback
    exact absurd hresponse (not_read_of_nil hback _)
  · obtain rfl := read_of_prefix hread (c.asked_prefix.trans (sendRequest_sends _ _ _))
    refine ⟨.inr hleft, fun response hresult => ⟨hleft, ?_⟩⟩
    obtain ⟨rest, hresponse⟩ := of_sendRequest hresult
    rcases hsent with hnil | ⟨full, hfull, hframe⟩
    · rw [hnil] at hback
      exact absurd hresponse (not_read_of_nil hback _)
    · exact ⟨full, hfull, read_of_prefix hresponse (hback.trans hframe)⟩

/-! ### A request and its answer -/

/-- What the caller gets: the answer, decoded. -/
def Call.reply (c : Call (handleMessage h) s m.encode) : Except Exception Message := do
  Message.decode (answerType m.type) (← c.result)

lemma cut_cases (m : Message) : cut m.encode = m.encode ∨
    (cut m.encode <+: m.encode ∧ cut m.encode ≠ m.encode) := take_mod_cases m.encode

/-- **Whatever the network does** with the two streams, the handler has run once, on the request
that was sent, or not at all; and what the caller gets is an exception, or what the handler has
answered to it. -/
theorem calls_answered (hm : IsRequest m) (hback : ReadBack m)
    (hreply : ∀ reply, (h.run s m).2 = .ok reply → ReadBack reply)
    (c : Call (handleMessage h) s m.encode) :
    (c.left = s ∨ c.left = (h.run s m).1) ∧
      ∀ reply, c.reply = .ok reply → c.left = (h.run s m).1 ∧ (h.run s m).2 = .ok reply := by
  obtain ⟨hleft, hresult⟩ := call_once c
  rcases cut_cases m with hwhole | ⟨hpre, hne⟩
  · rw [hwhole, handleMessage_encode hm hback] at hleft hresult
    refine ⟨hleft, fun reply hc => ?_⟩
    obtain ⟨response, hresponse, hdecode⟩ := bind_eq_ok.mp hc
    obtain ⟨hrun, full, hfull, rfl⟩ := hresult response hresponse
    refine ⟨hrun, ?_⟩
    dsimp only at hfull
    cases hanswer : (h.run s m).2 with
    | error e =>
      rw [hanswer] at hfull
      cases hfull
    | ok answer =>
      rw [hanswer] at hfull
      obtain rfl := Except.ok.inj hfull
      rw [← run_type hm hanswer] at hdecode
      rcases cut_cases answer with hcut | ⟨hpre, hne⟩
      · rw [hcut, (hreply answer hanswer).decode] at hdecode
        exact hdecode
      · rw [(hreply answer hanswer).truncated _ hpre hne] at hdecode
        cases hdecode
  · obtain ⟨e, he⟩ := handleMessage_truncated (h := h) (s := s) hm hback hpre hne
    rw [he] at hleft hresult
    refine ⟨.inl (hleft.elim id id), fun reply hc => ?_⟩
    obtain ⟨response, hresponse, -⟩ := bind_eq_ok.mp hc
    obtain ⟨-, full, hfull, -⟩ := hresult response hresponse
    cases hfull

/-- What a node with this counter answers to a read: the query. -/
def echo : Handlers ℕ where
  requestVote s _ := (s, .error unexpectedType)
  appendEntries s _ := (s, .error unexpectedType)
  client s _ := (s, .error unexpectedType)
  installSnapshot s _ := (s, .error unexpectedType)
  read s req := (s + 1, .ok ⟨false, req.query⟩)
  describeCluster s _ := (s, .error unexpectedType)

def echoRead : Message := .readRequest ⟨text "ok"⟩

def echoReply : Message := .readResponse ⟨false, text "ok"⟩

lemma readBack_echoRead : ReadBack echoRead := by
  refine readBack_of readReadRequest (fun t => ?_)
    (Codec.streams_str.bind fun _ => Codec.streams_pure _) rfl rfl fun _ => rfl
  rw [readReadRequest, (Codec.readsBack_str (by decide)).step]
  rfl

lemma readBack_echoReply : ReadBack echoReply := by
  refine readBack_of readReadResponse (fun t => ?_)
    (Codec.streams_flag.bind fun _ => Codec.streams_str.bind fun _ => Codec.streams_pure _)
    rfl rfl fun _ => rfl
  simp only [List.append_assoc]
  rw [readReadResponse, (Codec.readsBack_flag _).step, (Codec.readsBack_str (by decide)).step]
  rfl

/-- A read that comes in three pieces, and whose answer comes in two. -/
def echoed : Call (handleMessage echo) 4 echoRead.encode where
  takes := [3, 9, 20]
  asked := [[7, 0], [0, 0, 9, 2, 0], [0, 0, 111, 107]]
  takesBack := [20, 20]
  answered := [[8, 0, 0, 0, 10, 0, 2], [0, 0, 0, 111, 107]]
  asked_prefix := by decide +kernel
  answered_prefix := by decide +kernel

lemma echo_run : (echo.run 4 echoRead).2 = .ok echoReply := rfl

theorem calls_answered_echo :
    echoed.reply = .ok echoReply ∧ echoed.left = 5 ∧
      (echo.run 4 echoRead).2 = .ok echoReply := by
  have hreply : echoed.reply = .ok echoReply := rfl
  have h := (calls_answered (m := echoRead) (h := echo) (s := 4) trivial readBack_echoRead
    (fun reply hr => by
      obtain rfl := Except.ok.inj (echo_run.symm.trans hr)
      exact readBack_echoReply) echoed).2 _ hreply
  exact ⟨hreply, h⟩

/-- What reaches the other side, does so whole. -/
structure Call.Delivered (c : Call (handleMessage h) s m.encode) (reply : Message) : Prop where
  sent : (writeFramedMessage c.takes m.encode).2 = .ok ()
  asked : [] ∉ c.asked ∧ c.asked.flatten = frame m.encode
  short : m.encode.length < 2 ^ 31
  answered : [] ∉ c.answered ∧ c.answered.flatten = frame reply.encode
  shortBack : reply.encode.length < 2 ^ 31

/-- When both streams come across, the caller gets the answer. -/
theorem delivered_answered (hm : IsRequest m) (hback : ReadBack m) {reply : Message}
    (hrun : (h.run s m).2 = .ok reply) (hreply : ReadBack reply)
    {c : Call (handleMessage h) s m.encode} (hc : c.Delivered reply) :
    c.left = (h.run s m).1 ∧ c.reply = .ok reply := by
  obtain ⟨pieces, hread, -⟩ := readFramedMessage_of hc.asked.1
    (hc.asked.2.trans (List.append_nil _).symm) hc.short
  obtain ⟨back, hreadBack, -⟩ := readFramedMessage_of hc.answered.1
    (hc.answered.2.trans (List.append_nil _).symm) hc.shortBack
  constructor
  · unfold Call.left serveConnection
    rw [hread]
    dsimp only
    rw [handleMessage_encode hm hback, hrun]
    rfl
  · have hresult : c.result = .ok reply.encode := by
      unfold Call.result sendRequest
      rw [hreadBack]
      split
      · rename_i heq
        have hsent := hc.sent
        rw [heq] at hsent
        cases hsent
      · rfl
    unfold Call.reply
    rw [bind_of_ok hresult, ← run_type hm hrun]
    exact hreply.decode

end DistDB.RemoteCalls
