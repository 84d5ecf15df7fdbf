/-
# The state of a Raft node and its RPC handlers

`internal/raft/state.go` and the handlers of `internal/raft/node.go`, as functions of the state.
A handler is one function of the state it starts in.  It holds the mutex of the node from start to
end, but not that of the state, so it is one step only as long as none of the calls that take just
the latter comes in between (`BecomeCandidate`, `SetVotedFor`, `SetState`, `BecomeLeader`, the
`BecomeFollower` of a response).  `appendEntriesRequest`, `voteRequest` and `updateCommitIndex` hold
no lock throughout; here they are what these do if nothing comes in between, and `Node.step` has
them read by read.

Points where the code departs from the textbook, kept as they are:

* `BecomeFollower` clears `votedFor` ALWAYS, also when the term stays the same, and it sets the
  term it is given even if that is a smaller one.
* `BecomeCandidate` leaves `votedFor` alone; the node's vote for itself is a separate step.
* `HandleAppendEntries` replaces everything behind `PrevLogIndex`, and it may LOWER the commit
  index: the new value is the smaller of the leader's and the last new entry, whatever the old
  one was.

Terms and indices are `uint64`; the places that can wrap say so (`% 2 ^ 64`).  Left out:
`lastHeartbeat`, which nothing reads, the timers and logging.
-/
import SkyLock.Lib.Map
import SkyLock.Raft.Log

namespace SkyLock.Raft

/-! ## 1. State -/

inductive NodeState
  | follower
  | candidate
  | leader
  deriving DecidableEq

structure State where
  currentTerm : Nat
  votedFor : Str
  log : Log
  state : NodeState
  leaderID : Str
  commitIndex : Nat
  lastApplied : Nat
  nextIndex : GoMap Str Nat
  matchIndex : GoMap Str Nat

def newState : State where
  currentTerm := 0
  votedFor := []
  log := []
  state := .follower
  leaderID := []
  commitIndex := 0
  lastApplied := 0
  nextIndex := ∅
  matchIndex := ∅

namespace State

def becomeFollower (s : State) (term : Nat) (leaderID : Str) : State :=
  { s with state := .follower, currentTerm := term, leaderID, votedFor := [] }

def becomeCandidate (s : State) : State :=
  { s with state := .candidate, currentTerm := (s.currentTerm + 1) % 2 ^ 64, leaderID := [] }

/-- The same value for every peer. -/
def setAll (m : GoMap Str Nat) (peers : List Str) (v : Nat) : GoMap Str Nat :=
  peers.foldl (fun m peer => m.insert peer v) m

def becomeLeader (s : State) (nodeID : Str) (peers : List Str) : State :=
  { s with
    state := .leader
    leaderID := nodeID
    nextIndex := setAll s.nextIndex peers ((Log.lastIndex s.log + 1) % 2 ^ 64)
    matchIndex := setAll s.matchIndex peers 0 }

end State

theorem find_setAll (v : Nat) (peers : List Str) (m : GoMap Str Nat) (q : Str) :
    (State.setAll m peers v).find q = if q ∈ peers then some v else m.find q := by
  induction peers generalizing m with
  | nil => simp [State.setAll]
  | cons p ps ih =>
    rw [State.setAll, List.foldl_cons, ← State.setAll, ih, GoMap.find_insert]
    by_cases hps : q ∈ ps
    · simp [hps]
    · by_cases hp : q = p <;> simp [hps, hp]

theorem mem_setAll {m : GoMap Str Nat} {peers : List Str} {v : Nat} {q : Str}
    (hq : q ∈ State.setAll m peers v) : q ∈ peers ∨ q ∈ m := by
  obtain ⟨i, hi⟩ := GoMap.mem_iff_find.mp hq
  rw [find_setAll] at hi
  split at hi
  · rename_i hpeer
    exact .inl hpeer
  · exact .inr (GoMap.mem_of_find hi)

/-! ## 2. Requests and responses -/

structure VoteRequest where
  term : Nat
  candidateID : Str
  lastLogIndex : Nat
  lastLogTerm : Nat
  deriving DecidableEq

structure VoteResponse where
  term : Nat
  voteGranted : Bool
  deriving DecidableEq

structure AppendEntriesRequest where
  term : Nat
  leaderID : Str
  prevLogIndex : Nat
  prevLogTerm : Nat
  entries : List LogEntry
  leaderCommit : Nat
  deriving DecidableEq

structure AppendEntriesResponse where
  term : Nat
  success : Bool
  deriving DecidableEq

namespace State

/-! ## 3. The handlers -/

/-- The candidate's log is at least as up to date as ours. -/
def upToDate (s : State) (req : VoteRequest) : Prop :=
  req.lastLogTerm > Log.lastTerm s.log ∨
    req.lastLogTerm = Log.lastTerm s.log ∧ req.lastLogIndex ≥ Log.lastIndex s.log

instance (s : State) (req : VoteRequest) : Decidable (s.upToDate req) :=
  inferInstanceAs (Decidable (_ ∨ _))

/-- The first half of `HandleRequestVote`: a larger term makes the node a follower. -/
def observeTerm (s : State) (term : Nat) : State :=
  if term > s.currentTerm then s.becomeFollower term [] else s

/-- The test of the second half. -/
def grants (s : State) (req : VoteRequest) : Prop :=
  (s.votedFor = [] ∨ s.votedFor = req.candidateID) ∧ s.upToDate req

instance (s : State) (req : VoteRequest) : Decidable (s.grants req) :=
  inferInstanceAs (Decidable (_ ∧ _))

def handleRequestVote (s : State) (req : VoteRequest) : State × VoteResponse :=
  if req.term < s.currentTerm then (s, ⟨s.currentTerm, false⟩)
  else
    let s := s.observeTerm req.term
    if s.grants req then ({ s with votedFor := req.candidateID }, ⟨s.currentTerm, true⟩)
    else (s, ⟨s.currentTerm, false⟩)

/-- The index of the last entry that a request covers. -/
def lastNewEntry (req : AppendEntriesRequest) : Nat :=
  match req.entries.getLast? with
  | some e => e.index
  | none => req.prevLogIndex

/-- The consistency check of `HandleAppendEntries`. -/
def consistent (s : State) (req : AppendEntriesRequest) : Prop :=
  ¬ (req.prevLogIndex > 0 ∧ Log.termAt s.log req.prevLogIndex ≠ req.prevLogTerm)

instance (s : State) (req : AppendEntriesRequest) : Decidable (s.consistent req) :=
  inferInstanceAs (Decidable (¬ _))

/-- Appends the entries of a request that has passed the check; none leave the log alone. -/
def store (s : State) (req : AppendEntriesRequest) : State :=
  if req.entries = [] then s
  else { s with log := (Log.appendEntries s.log req.prevLogIndex req.entries).1 }

/-- Follows the leader's commit index as far as the request reaches. -/
def advanceCommit (s : State) (req : AppendEntriesRequest) : State :=
  if req.leaderCommit > s.commitIndex then
    { s with commitIndex :=
        if lastNewEntry req < req.leaderCommit then lastNewEntry req else req.leaderCommit }
  else s

def handleAppendEntries (s : State) (req : AppendEntriesRequest) :
    State × AppendEntriesResponse :=
  if req.term < s.currentTerm then (s, ⟨s.currentTerm, false⟩)
  else
    let s := s.becomeFollower req.term req.leaderID
    if s.consistent req then ((s.store req).advanceCommit req, ⟨req.term, true⟩)
    else (s, ⟨req.term, false⟩)

/-! ## 4. The sending side -/

/-- What the goroutine of `runCandidate` sends, if the state does not change while it is built. -/
def voteRequest (s : State) (id : Str) (term : Nat) : VoteRequest :=
  ⟨term, id, Log.lastIndex s.log, Log.lastTerm s.log⟩

/-- `nextIndex[peer] - 1` in `uint64`; a missing entry reads as 0. -/
def prevIndex (s : State) (peer : Str) : Nat :=
  ((s.nextIndex.find peer).getD 0 + (2 ^ 64 - 1)) % 2 ^ 64

/-- What the goroutine of `sendHeartbeats` sends, if the state does not change while it is built. -/
def appendEntriesRequest (s : State) (id peer : Str) (term : Nat) : AppendEntriesRequest :=
  let prevLogIndex := s.prevIndex peer
  ⟨term, id, prevLogIndex, Log.termAt s.log prevLogIndex, Log.entriesAfter s.log prevLogIndex,
    s.commitIndex⟩

/-- A successful response: note how far the peer's log now reaches. -/
def noteSuccess (s : State) (peer : Str) (entries : List LogEntry) : State :=
  match entries.getLast? with
  | some e =>
    { s with
      nextIndex := s.nextIndex.insert peer ((e.index + 1) % 2 ^ 64)
      matchIndex := s.matchIndex.insert peer e.index }
  | none => s

/-- A failed response: step back by one, not below 1. -/
def noteFailure (s : State) (peer : Str) : State :=
  if (s.nextIndex.find peer).getD 0 > 1 then
    { s with nextIndex := s.nextIndex.insert peer ((s.nextIndex.find peer).getD 0 - 1) }
  else s

/-- The inner loop for one position: `x` is exchanged with every smaller value to its right. -/
def exchange (x : Nat) : List Nat → Nat × List Nat
  | [] => (x, [])
  | y :: ys =>
    if x > y then
      let r := exchange y ys
      (r.1, x :: r.2)
    else
      let r := exchange x ys
      (r.1, y :: r.2)

/-- The two nested loops of `updateCommitIndex`; the first argument bounds the positions. -/
def exchangeSort : Nat → List Nat → List Nat
  | 0, xs => xs
  | _ + 1, [] => []
  | n + 1, x :: xs =>
    let r := exchange x xs
    r.1 :: exchangeSort n r.2

/-- The values of a map, in the order of its keys. -/
def values (m : GoMap Str Nat) : List Nat :=
  m.sortedKeys.map fun k => (m.find k).getD 0

/-- The index that `updateCommitIndex` picks: element `n / 2` of the sorted list of our own last
index and what is known of the others. -/
def quorumIndex (s : State) : Nat :=
  let matchIndexes := Log.lastIndex s.log :: values s.matchIndex
  (exchangeSort matchIndexes.length matchIndexes)[matchIndexes.length / 2]?.getD 0

/-- `updateCommitIndex`, if nothing else changes the state meanwhile. -/
def updateCommitIndex (s : State) : State :=
  if s.quorumIndex > s.commitIndex ∧ Log.termAt s.log s.quorumIndex = s.currentTerm then
    { s with commitIndex := s.quorumIndex }
  else s

/-- The end of `Propose`: the entry is appended with the term that was read before. -/
def propose (s : State) (term : Nat) (command : Str) : State :=
  { s with log := Log.append s.log ⟨0, term, .command, command⟩ }

end State

end SkyLock.Raft
