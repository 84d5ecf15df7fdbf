/-
# Raft nodes and the network

The main loop of `internal/raft/node.go` (`run`, `runFollower`, `runCandidate`, `runLeader`), the
goroutines it starts, `Propose`, the apply loop, and the network between the nodes.

A node's main loop is a program counter (`Phase`); the RPC handlers and the goroutines that wait
for responses act on the same state in between, so the calls the loop makes are separate events:
`BecomeCandidate` and `SetVotedFor` are two, and the loop looks at the state again only when it
says so.  Code that reads the state several times without a lock around it is cut into its reads,
and anything may happen between two of them:

* `updateCommitIndex` collects the indices under the lock, and then reads the term, the commit index
  and the log, and sets the commit index, one after the other (`Update`);
* the goroutine of `sendHeartbeats` reads `nextIndex`, the term there, the entries and the commit
  index (`Draft`), and the goroutine of `runCandidate` the last index and the last term;
* `Propose` looks at the role, reads the term and appends.

A handler is ONE event, and so is the handling of a response.  A handler holds the mutex of the
node, which keeps out other handlers and the notes on responses, but not the calls that take the
mutex of the state only: `BecomeCandidate`, `SetVotedFor`, `SetState`, `BecomeLeader`, the
`BecomeFollower` of a response.  In the code `HandleAppendEntries` of term 3 may have passed its
check, `BecomeCandidate` then raise the term to 4, and the handler's own `BecomeFollower` take it
back to 3.  Such a call in the middle of a handler is not in the model: what happens during a
handler happens before or after it.  The signal on `commitCh` goes with the note it follows.

The network only ever gains packets, and any packet in it may be delivered at any time, any number
of times, or never: that covers delay, reordering, duplication and loss.  A goroutine between two
reads is a packet too (`voteTask`, `heartbeatTask`, `proposal`), with what it has read so far.  A
response carries what its goroutine remembers of the request.  Within one election each peer's
answer is COUNTED once (`pending`).

Recorded besides what the code stores: `Cluster.votes`, the votes given, and `Node.applied`, the
entries passed to `applyFunc`.
-/
import SkyLock.Raft.State
import SkyLock.Lib.Run

namespace SkyLock.Raft

/-! ## 1. Packets and nodes -/

/-- What the goroutine of `sendHeartbeats` has read for its request. -/
inductive Draft
  | blank
  | prev (prevLogIndex : Nat)
  | prevTerm (prevLogIndex prevLogTerm : Nat)
  /-- Only the commit index is missing. -/
  | entries (prevLogIndex prevLogTerm : Nat) (entries : List LogEntry)
  deriving DecidableEq

inductive Packet
  /-- `src` is going to ask `dst` for its vote in the given election and term; it may have read its
  last index already. -/
  | voteTask (src dst : Str) (election term : Nat) (lastLogIndex : Option Nat)
  | voteReq (src dst : Str) (election : Nat) (req : VoteRequest)
  /-- `src` answers the request of `dst`. -/
  | voteResp (src dst : Str) (election : Nat) (req : VoteRequest) (resp : VoteResponse)
  /-- `src` is going to send a heartbeat to `dst`, in the term it read when it started. -/
  | heartbeatTask (src dst : Str) (term : Nat) (draft : Draft)
  | appendReq (src dst : Str) (req : AppendEntriesRequest)
  | appendResp (src dst : Str) (req : AppendEntriesRequest) (resp : AppendEntriesResponse)
  /-- `src` has found itself leader in `Propose` and is going to append the command; it may have
  read its term already. -/
  | proposal (src command : Str) (term : Option Nat)
  deriving DecidableEq

/-- How far `updateCommitIndex` has come. -/
inductive Update
  /-- The index has been picked, and the lock released. -/
  | picked (newCommitIndex : Nat)
  /-- The term has been read. -/
  | dated (newCommitIndex term : Nat)
  /-- The index was larger than the commit index. -/
  | above (newCommitIndex term : Nat)
  /-- The entry there was of the term. -/
  | agreed (newCommitIndex : Nat)
  deriving DecidableEq

/-- Where the main loop is. -/
inductive Phase
  /-- Before the switch in `run`. -/
  | top
  /-- In the select of `runFollower`. -/
  | following
  /-- At the start of `runCandidate`. -/
  | campaign
  /-- Between `BecomeCandidate` and `SetVotedFor`. -/
  | started (term : Nat)
  /-- In the select of `runCandidate`, with the votes so far and the peers still to answer. -/
  | waiting (election term votes : Nat) (pending : List Str)
  /-- At the start of `runLeader`. -/
  | leading
  /-- In the select of `runLeader`. -/
  | idle
  /-- In `updateCommitIndex`, after the select of `runLeader`. -/
  | updating (progress : Update)
  /-- After the select of `runLeader`, before it looks at the state again. -/
  | recheck
  deriving DecidableEq

structure Node where
  st : State
  phase : Phase
  elections : Nat
  commitCh : Bool
  /-- The apply loop, if it is inside its `for`: the next index and the commit index it read. -/
  applying : Option (Nat × Nat)
  applied : List LogEntry

def newNode : Node := ⟨newState, .top, 0, false, none, []⟩

/-- A vote: who gave it, in which term, to whom. -/
structure Ballot where
  voter : Str
  term : Nat
  candidate : Str
  deriving DecidableEq

/-- What an event leaves: the node, the packets it sends and the votes it gives. -/
structure Outcome where
  node : Node
  packets : List Packet
  votes : List Ballot

/-! ## 2. Events -/

inductive Event
  /-- The switch in `run`. -/
  | dispatch
  | electionTimeout
  | becomeCandidate
  /-- `SetVotedFor(n.id)`, and the start of the goroutines that ask for votes. -/
  | voteForSelf
  /-- A vote request fails: its goroutine returns without an answer. -/
  | voteFailed (peer : Str)
  /-- All goroutines are done: count. -/
  | tally
  /-- `sendHeartbeats`, at the start of `runLeader` or when its timer fires. -/
  | sendHeartbeats
  /-- `updateCommitIndex` up to the end of its lock, after a signal on `commitCh`. -/
  | updateCommit
  /-- The next thing `updateCommitIndex` reads or writes. -/
  | updateNext
  /-- `runLeader` looks whether it is still leader. -/
  | leaderCheck
  /-- `Propose` looks whether the node is leader. -/
  | propose (command : Str)
  /-- The apply loop reads the commit index. -/
  | applyRead
  /-- The apply loop handles one index. -/
  | applyNext
  | receive (p : Packet)
  deriving DecidableEq

namespace Node

def withState (n : Node) (st : State) : Node := { n with st }

def goto (n : Node) (phase : Phase) : Node := { n with phase }

/-- An event that sends nothing. -/
def silent (n : Node) : Outcome := ⟨n, [], []⟩

def votesNeeded (peers : List Str) : Nat := (peers.length + 1) / 2 + 1

/-- Is the loop still in the election the answer belongs to, waiting for this peer? -/
def awaits (n : Node) (election : Nat) (peer : Str) : Bool :=
  match n.phase with
  | .waiting e _ _ pending => e = election ∧ peer ∈ pending
  | _ => false

/-- One goroutine of the election is done, with a vote or without. -/
def countVote (n : Node) (peer : Str) (granted : Bool) : Node :=
  match n.phase with
  | .waiting e term votes pending =>
    n.goto (.waiting e term (if granted then votes + 1 else votes) (pending.erase peer))
  | _ => n

/-- The goroutine of `runCandidate` gets an answer.  If its election is over, the votes it counts
belong to nobody, but a larger term still makes the node a follower. -/
def voteReply (n : Node) (election : Nat) (peer : Str) (req : VoteRequest) (resp : VoteResponse) :
    Node :=
  let n' := if resp.term > req.term then n.withState (n.st.becomeFollower resp.term []) else n
  if n.awaits election peer then n'.countVote peer (resp.term ≤ req.term ∧ resp.voteGranted) else n'

/-- The goroutine of `sendHeartbeats` gets an answer. -/
def appendReply (n : Node) (peer : Str) (req : AppendEntriesRequest)
    (resp : AppendEntriesResponse) : Node :=
  if resp.term > req.term then n.withState (n.st.becomeFollower resp.term [])
  else if resp.success then
    { n.withState (n.st.noteSuccess peer req.entries) with commitCh := true }
  else n.withState (n.st.noteFailure peer)

/-- A goroutine of `src` goes on, with what it has read. -/
def goOn (id : Str) (n : Node) (src : Str) (next : Packet) : Option Outcome :=
  if src = id then some ⟨n, [next], []⟩ else none

/-- Delivery of a packet to, or execution of a goroutine of, the node `id`. -/
def receive (id : Str) (n : Node) : Packet → Option Outcome
  | .voteTask src dst election term none =>
    n.goOn id src (.voteTask src dst election term (some (Log.lastIndex n.st.log)))
  | .voteTask src dst election term (some lastLogIndex) =>
    n.goOn id src (.voteReq src dst election ⟨term, id, lastLogIndex, Log.lastTerm n.st.log⟩)
  | .voteReq src dst election req =>
    if dst = id then
      let r := n.st.handleRequestVote req
      some ⟨n.withState r.1, [.voteResp id src election req r.2],
        if r.2.voteGranted then [⟨id, req.term, req.candidateID⟩] else []⟩
    else none
  | .voteResp src dst election req resp =>
    if dst = id then some (n.voteReply election src req resp).silent else none
  | .heartbeatTask src dst term .blank =>
    n.goOn id src (.heartbeatTask src dst term (.prev (n.st.prevIndex dst)))
  | .heartbeatTask src dst term (.prev i) =>
    n.goOn id src (.heartbeatTask src dst term (.prevTerm i (Log.termAt n.st.log i)))
  | .heartbeatTask src dst term (.prevTerm i t) =>
    n.goOn id src (.heartbeatTask src dst term (.entries i t (Log.entriesAfter n.st.log i)))
  | .heartbeatTask src dst term (.entries i t entries) =>
    n.goOn id src (.appendReq src dst ⟨term, id, i, t, entries, n.st.commitIndex⟩)
  | .appendReq src dst req =>
    if dst = id then
      let r := n.st.handleAppendEntries req
      some ⟨n.withState r.1, [.appendResp id src req r.2], []⟩
    else none
  | .appendResp src dst req resp =>
    if dst = id then some (n.appendReply src req resp).silent else none
  | .proposal src command none => n.goOn id src (.proposal src command (some n.st.currentTerm))
  | .proposal src command (some term) =>
    if src = id then some (n.withState (n.st.propose term command)).silent else none

/-- One event at the node `id` with the given peers. -/
def step (id : Str) (peers : List Str) (n : Node) : Event → Option Outcome
  | .dispatch =>
    match n.phase with
    | .top =>
      match n.st.state with
      | .follower => some (n.goto .following).silent
      | .candidate => some (n.goto .campaign).silent
      | .leader => some (n.goto .leading).silent
    | _ => none
  | .electionTimeout =>
    match n.phase with
    | .following => some ((n.withState { n.st with state := .candidate }).goto .top).silent
    | .waiting _ _ _ _ => some (n.goto .top).silent
    | _ => none
  | .becomeCandidate =>
    match n.phase with
    | .campaign =>
      let st := n.st.becomeCandidate
      some ((n.withState st).goto (.started st.currentTerm)).silent
    | _ => none
  | .voteForSelf =>
    match n.phase with
    | .started term =>
      some ⟨{ (n.withState { n.st with votedFor := id }).goto
            (.waiting n.elections term 1 peers) with
                elections := n.elections + 1 },
        peers.map fun peer => .voteTask id peer n.elections term none, [⟨id, term, id⟩]⟩
    | _ => none
  | .voteFailed peer =>
    match n.phase with
    | .waiting _ _ _ pending =>
      if peer ∈ pending then some (n.countVote peer false).silent else none
    | _ => none
  | .tally =>
    match n.phase with
    | .waiting _ _ votes [] =>
      if votes ≥ votesNeeded peers then
        some ((n.withState (n.st.becomeLeader id peers)).goto .top).silent
      else some ((n.withState { n.st with state := .follower }).goto .top).silent
    | _ => none
  | .sendHeartbeats =>
    match n.phase with
    | .leading =>
      some ⟨n.goto .idle, peers.map fun peer => .heartbeatTask id peer n.st.currentTerm .blank, []⟩
    | .idle =>
      some ⟨n.goto .recheck,
        peers.map fun peer => .heartbeatTask id peer n.st.currentTerm .blank, []⟩
    | _ => none
  | .updateCommit =>
    match n.phase with
    | .idle =>
      if n.commitCh then
        some ({ n.goto (.updating (.picked n.st.quorumIndex)) with commitCh := false }).silent
      else none
    | _ => none
  | .updateNext =>
    match n.phase with
    | .updating (.picked index) =>
      some (n.goto (.updating (.dated index n.st.currentTerm))).silent
    | .updating (.dated index term) =>
      if index > n.st.commitIndex then some (n.goto (.updating (.above index term))).silent
      else some (n.goto .recheck).silent
    | .updating (.above index term) =>
      if Log.termAt n.st.log index = term then some (n.goto (.updating (.agreed index))).silent
      else some (n.goto .recheck).silent
    | .updating (.agreed index) =>
      some ((n.withState { n.st with commitIndex := index }).goto .recheck).silent
    | _ => none
  | .leaderCheck =>
    match n.phase with
    | .recheck => some (n.goto (if n.st.state = .leader then .idle else .top)).silent
    | _ => none
  | .propose command =>
    if n.st.state = .leader then some ⟨n, [.proposal id command none], []⟩ else none
  | .applyRead =>
    match n.applying with
    | none =>
      if n.st.commitIndex > n.st.lastApplied then
        some ({ n with applying := some (n.st.lastApplied + 1, n.st.commitIndex) }).silent
      else none
    | some _ => none
  | .applyNext =>
    match n.applying with
    | some (i, commitIndex) =>
      if i ≤ commitIndex then
        match Log.get n.st.log i with
        | some entry =>
          some ({ n.withState { n.st with lastApplied := i } with
                    applying := some ((i + 1) % 2 ^ 64, commitIndex),
                    applied := n.applied ++ [entry] }).silent
        | none => some ({ n with applying := some ((i + 1) % 2 ^ 64, commitIndex) }).silent
      else some ({ n with applying := none }).silent
    | none => none
  | .receive p => receive id n p

end Node

/-! ## 3. The cluster -/

structure Cluster where
  nodes : Str → Node
  net : List Packet
  votes : List Ballot

/-- Every node in `NewState`, nothing sent. -/
def newCluster : Cluster := ⟨fun _ => newNode, [], []⟩

/-- The peers a node is configured with: all the others. -/
def peersOf (ids : List Str) (id : Str) : List Str := ids.filter fun peer => peer ≠ id

/-- An event at a node of the cluster. -/
structure Action where
  node : Str
  event : Event
  deriving DecidableEq

/-- Only packets that have been sent can be received. -/
def Event.available (net : List Packet) : Event → Prop
  | .receive p => p ∈ net
  | _ => True

instance (net : List Packet) (e : Event) : Decidable (e.available net) := by
  unfold Event.available
  split <;> infer_instance

namespace Cluster

/-- The cluster after an event at the node `id`. -/
def put (c : Cluster) (id : Str) (o : Outcome) : Cluster :=
  ⟨Function.update c.nodes id o.node, c.net ++ o.packets, c.votes ++ o.votes⟩

def step (ids : List Str) (c : Cluster) (a : Action) : Option Cluster :=
  if a.node ∈ ids ∧ a.event.available c.net then
    (Node.step a.node (peersOf ids a.node) (c.nodes a.node) a.event).map (c.put a.node)
  else none

theorem put_nodes_self (c : Cluster) (id : Str) (o : Outcome) : (c.put id o).nodes id = o.node :=
  Function.update_self ..

theorem put_nodes_ne (c : Cluster) {id p : Str} (o : Outcome) (h : p ≠ id) :
    (c.put id o).nodes p = c.nodes p := Function.update_of_ne h ..

/-- What holds of the node after its event and of every other node as it is, holds of all. -/
theorem forall_put (c : Cluster) {id : Str} {o : Outcome} {P : Str → Node → Prop}
    (self : P id o.node) (other : ∀ p, p ≠ id → P p (c.nodes p)) (p : Str) :
    P p ((c.put id o).nodes p) := by
  by_cases hp : p = id
  · subst hp
    rw [c.put_nodes_self]
    exact self
  · rw [c.put_nodes_ne o hp]
    exact other p hp

theorem step_eq_some {ids : List Str} {c c' : Cluster} {a : Action} :
    step ids c a = some c' ↔ a.node ∈ ids ∧ a.event.available c.net ∧
      ∃ o, Node.step a.node (peersOf ids a.node) (c.nodes a.node) a.event = some o ∧
        c' = c.put a.node o := by
  unfold step
  rw [Option.ite_none_right_eq_some, and_assoc, Option.map_eq_some_iff]
  refine and_congr_right fun _ => and_congr_right fun _ => exists_congr fun o => ?_
  exact and_congr_right fun _ => eq_comm

end Cluster

theorem mem_peersOf {ids : List Str} {id peer : Str} :
    peer ∈ peersOf ids id ↔ peer ∈ ids ∧ peer ≠ id := by
  simp [peersOf]

theorem nodup_peersOf {ids : List Str} (hnd : ids.Nodup) (id : Str) : (peersOf ids id).Nodup :=
  hnd.filter _

/-- The peers and the node itself make up the cluster. -/
theorem length_peersOf {ids : List Str} {id : Str} (hnd : ids.Nodup) (hid : id ∈ ids) :
    (peersOf ids id).length + 1 = ids.length := by
  have hfilter : peersOf ids id = ids.erase id := by
    rw [hnd.erase_eq_filter]
    exact List.filter_congr fun x _ => by rw [bne, beq_eq_decide, decide_not]
  rw [hfilter, List.length_erase_of_mem hid]
  have := List.length_pos_of_mem hid
  omega

end SkyLock.Raft
