/-
# What an event does

`Move` lists the branches of `Node.step`, one constructor each, with what the node is like before
and the outcome.  Few of them touch any given part of the state, and for each part this module
says once everything that can happen to it:

* `Turn`: the OFFICE of the node, that is its term, vote, known leader and role, together with the
  votes it gives;
* `Shift`: where the main loop is in an election;
* `Reads` and `Sent`: how a goroutine goes on, and the packets that are sent;
* `Edit`: the log;
* `Commits` and `Updated`: the commit index, and where `updateCommitIndex` is;
* `Noted`: what it has noted of the logs of others;
* `Aimed`: where the next entries for a peer begin;
* `Pass`: the apply loop.

The invariants of the following modules are read off these and never look at `Node.step` again.
-/
import SkyLock.Raft.Node
import SkyLock.Raft.Replicate

namespace SkyLock.Raft

/-! ## 1. The branches of `Node.step` -/

/-- The loop is not in an election. -/
def Phase.resting : Phase → Prop
  | .started _ => False
  | .waiting _ _ _ _ => False
  | _ => True

/-- The loop is neither in an election nor in `updateCommitIndex`. -/
def Phase.free : Phase → Prop
  | .updating _ => False
  | phase => phase.resting

theorem Phase.free.resting {phase : Phase} (h : phase.free) : phase.resting := by
  cases phase with
  | updating => exact h.elim
  | _ => exact h

/-- **What a goroutine reads next**, between two points where others may act, and what it goes on
with. -/
inductive Reads (id : Str) (n : Node) : Packet → Packet → Prop
  | lastIndex (dst : Str) (election term : Nat) :
    Reads id n (.voteTask id dst election term none)
      (.voteTask id dst election term (some (Log.lastIndex n.st.log)))
  | lastTerm (dst : Str) (election term i : Nat) :
    Reads id n (.voteTask id dst election term (some i))
      (.voteReq id dst election ⟨term, id, i, Log.lastTerm n.st.log⟩)
  | prevIndex (dst : Str) (term : Nat) :
    Reads id n (.heartbeatTask id dst term .blank)
      (.heartbeatTask id dst term (.prev (n.st.prevIndex dst)))
  | prevTerm (dst : Str) (term i : Nat) :
    Reads id n (.heartbeatTask id dst term (.prev i))
      (.heartbeatTask id dst term (.prevTerm i (Log.termAt n.st.log i)))
  | entries (dst : Str) (term i t : Nat) :
    Reads id n (.heartbeatTask id dst term (.prevTerm i t))
      (.heartbeatTask id dst term (.entries i t (Log.entriesAfter n.st.log i)))
  | commitIndex (dst : Str) (term i t : Nat) (entries : List LogEntry) :
    Reads id n (.heartbeatTask id dst term (.entries i t entries))
      (.appendReq id dst ⟨term, id, i, t, entries, n.st.commitIndex⟩)
  | currentTerm (command : Str) :
    Reads id n (.proposal id command none) (.proposal id command (some n.st.currentTerm))

/-- One constructor for each branch of `Node.step`. -/
inductive Move (id : Str) (peers : List Str) (n : Node) : Event → Outcome → Prop
  | dispatch (phase : Phase) (hfree : phase.free) :
    Move id peers n .dispatch (n.goto phase).silent
  | timeout :
    Move id peers n .electionTimeout
      ((n.withState { n.st with state := .candidate }).goto .top).silent
  | giveUp : Move id peers n .electionTimeout (n.goto .top).silent
  | campaign :
    Move id peers n .becomeCandidate
      ((n.withState n.st.becomeCandidate).goto (.started n.st.becomeCandidate.currentTerm)).silent
  | voteForSelf (term : Nat) (hphase : n.phase = .started term) :
    Move id peers n .voteForSelf
      ⟨{ (n.withState { n.st with votedFor := id }).goto (.waiting n.elections term 1 peers) with
          elections := n.elections + 1 },
        peers.map fun peer => .voteTask id peer n.elections term none, [⟨id, term, id⟩]⟩
  | voteFailed (election term votes : Nat) (pending : List Str) (peer : Str)
    (hphase : n.phase = .waiting election term votes pending) :
    Move id peers n (.voteFailed peer) (n.countVote peer false).silent
  | win (election term votes : Nat) (hphase : n.phase = .waiting election term votes [])
    (henough : Node.votesNeeded peers ≤ votes) :
    Move id peers n .tally ((n.withState (n.st.becomeLeader id peers)).goto .top).silent
  | lose :
    Move id peers n .tally ((n.withState { n.st with state := .follower }).goto .top).silent
  | sendHeartbeats (phase : Phase) (hfree : phase.free) :
    Move id peers n .sendHeartbeats
      ⟨n.goto phase, peers.map fun peer => .heartbeatTask id peer n.st.currentTerm .blank, []⟩
  | updateCommit (hsignal : n.commitCh = true) :
    Move id peers n .updateCommit
      ({ n.goto (.updating (.picked n.st.quorumIndex)) with commitCh := false } : Node).silent
  | readTerm (index : Nat) (hphase : n.phase = .updating (.picked index)) :
    Move id peers n .updateNext (n.goto (.updating (.dated index n.st.currentTerm))).silent
  | passIndex (index term : Nat) (hphase : n.phase = .updating (.dated index term))
    (habove : n.st.commitIndex < index) :
    Move id peers n .updateNext (n.goto (.updating (.above index term))).silent
  | passTerm (index term : Nat) (hphase : n.phase = .updating (.above index term))
    (hterm : Log.termAt n.st.log index = term) :
    Move id peers n .updateNext (n.goto (.updating (.agreed index))).silent
  | setCommit (index : Nat) (hphase : n.phase = .updating (.agreed index)) :
    Move id peers n .updateNext
      ((n.withState { n.st with commitIndex := index }).goto .recheck).silent
  | leaveCommit (progress : Update) (hphase : n.phase = .updating progress) :
    Move id peers n .updateNext (n.goto .recheck).silent
  | leaderCheck (phase : Phase) (hfree : phase.free) :
    Move id peers n .leaderCheck (n.goto phase).silent
  | propose (command : Str) (hrole : n.st.state = .leader) :
    Move id peers n (.propose command) ⟨n, [.proposal id command none], []⟩
  | applyRead (hidle : n.applying = none) (hmore : n.st.lastApplied < n.st.commitIndex) :
    Move id peers n .applyRead
      ({ n with applying := some (n.st.lastApplied + 1, n.st.commitIndex) } : Node).silent
  | applyEntry (i commitIndex : Nat) (entry : LogEntry)
    (happlying : n.applying = some (i, commitIndex)) (hi : i ≤ commitIndex)
    (hentry : Log.get n.st.log i = some entry) :
    Move id peers n .applyNext
      ({ n.withState { n.st with lastApplied := i } with
          applying := some ((i + 1) % 2 ^ 64, commitIndex)
          applied := n.applied ++ [entry] } : Node).silent
  | applyGap (i commitIndex : Nat) (happlying : n.applying = some (i, commitIndex))
    (hi : i ≤ commitIndex) (hmissing : Log.get n.st.log i = none) :
    Move id peers n .applyNext
      ({ n with applying := some ((i + 1) % 2 ^ 64, commitIndex) } : Node).silent
  | applyDone (i commitIndex : Nat) (happlying : n.applying = some (i, commitIndex))
    (hi : commitIndex < i) :
    Move id peers n .applyNext ({ n with applying := none } : Node).silent
  | read (task next : Packet) (hread : Reads id n task next) :
    Move id peers n (.receive task) ⟨n, [next], []⟩
  | append (command : Str) (term : Nat) :
    Move id peers n (.receive (.proposal id command (some term)))
      (n.withState (n.st.propose term command)).silent
  | voteReq (src : Str) (election : Nat) (req : VoteRequest) :
    Move id peers n (.receive (.voteReq src id election req))
      ⟨n.withState (n.st.handleRequestVote req).1,
        [.voteResp id src election req (n.st.handleRequestVote req).2],
        if (n.st.handleRequestVote req).2.voteGranted then [⟨id, req.term, req.candidateID⟩]
        else []⟩
  | voteResp (src : Str) (election : Nat) (req : VoteRequest) (resp : VoteResponse) :
    Move id peers n (.receive (.voteResp src id election req resp))
      (n.voteReply election src req resp).silent
  | appendReq (src : Str) (req : AppendEntriesRequest) :
    Move id peers n (.receive (.appendReq src id req))
      ⟨n.withState (n.st.handleAppendEntries req).1,
        [.appendResp id src req (n.st.handleAppendEntries req).2], []⟩
  | appendResp (src : Str) (req : AppendEntriesRequest) (resp : AppendEntriesResponse) :
    Move id peers n (.receive (.appendResp src id req resp)) (n.appendReply src req resp).silent

variable {id : Str} {peers : List Str} {n : Node} {e : Event} {o : Outcome}

theorem move_goOn {src : Str} {task next : Packet} (h : n.goOn id src next = some o)
    (hread : src = id → Reads id n task next) : Move id peers n (.receive task) o := by
  obtain ⟨hsrc, h⟩ := Option.ite_none_right_eq_some.mp h
  obtain rfl := Option.some.inj h
  exact .read task next (hread hsrc)

theorem move_receive {p : Packet} (h : Node.receive id n p = some o) :
    Move id peers n (.receive p) o := by
  cases p with
  | voteTask src dst election term lastLogIndex =>
    cases lastLogIndex with
    | none => exact move_goOn h fun hsrc => hsrc ▸ .lastIndex dst election term
    | some i => exact move_goOn h fun hsrc => hsrc ▸ .lastTerm dst election term i
  | heartbeatTask src dst term draft =>
    cases draft with
    | blank => exact move_goOn h fun hsrc => hsrc ▸ .prevIndex dst term
    | prev i => exact move_goOn h fun hsrc => hsrc ▸ .prevTerm dst term i
    | prevTerm i t => exact move_goOn h fun hsrc => hsrc ▸ .entries dst term i t
    | entries i t entries => exact move_goOn h fun hsrc => hsrc ▸ .commitIndex dst term i t entries
  | proposal src command term =>
    cases term with
    | none => exact move_goOn h fun hsrc => hsrc ▸ .currentTerm command
    | some term =>
      obtain ⟨rfl, hout⟩ := Option.ite_none_right_eq_some.mp h
      obtain rfl := Option.some.inj hout
      exact .append command term
  | voteReq src dst election req =>
    obtain ⟨rfl, hout⟩ := Option.ite_none_right_eq_some.mp h
    obtain rfl := Option.some.inj hout
    exact .voteReq src election req
  | voteResp src dst election req resp =>
    obtain ⟨rfl, hout⟩ := Option.ite_none_right_eq_some.mp h
    obtain rfl := Option.some.inj hout
    exact .voteResp src election req resp
  | appendReq src dst req =>
    obtain ⟨rfl, hout⟩ := Option.ite_none_right_eq_some.mp h
    obtain rfl := Option.some.inj hout
    exact .appendReq src req
  | appendResp src dst req resp =>
    obtain ⟨rfl, hout⟩ := Option.ite_none_right_eq_some.mp h
    obtain rfl := Option.some.inj hout
    exact .appendResp src req resp

theorem move_of_step (h : Node.step id peers n e = some o) : Move id peers n e o := by
  cases e with
  | receive p => exact move_receive h
  | dispatch =>
    simp only [Node.step] at h
    split at h
    · split at h <;> obtain rfl := Option.some.inj h <;> exact .dispatch _ trivial
    · exact absurd h (by simp)
  | electionTimeout =>
    simp only [Node.step] at h
    split at h
    · obtain rfl := Option.some.inj h
      exact .timeout
    · obtain rfl := Option.some.inj h
      exact .giveUp
    · exact absurd h (by simp)
  | becomeCandidate =>
    simp only [Node.step] at h
    split at h
    · obtain rfl := Option.some.inj h
      exact .campaign
    · exact absurd h (by simp)
  | voteForSelf =>
    simp only [Node.step] at h
    split at h
    · rename_i term hphase
      obtain rfl := Option.some.inj h
      exact .voteForSelf term hphase
    · exact absurd h (by simp)
  | voteFailed peer =>
    simp only [Node.step] at h
    split at h
    · rename_i election term votes pending hphase
      rw [Option.ite_none_right_eq_some] at h
      obtain rfl := Option.some.inj h.2
      exact .voteFailed election term votes pending peer hphase
    · exact absurd h (by simp)
  | tally =>
    simp only [Node.step] at h
    split at h
    · rename_i election term votes hphase
      split at h
      · rename_i henough
        obtain rfl := Option.some.inj h
        exact .win election term votes hphase henough
      · obtain rfl := Option.some.inj h
        exact .lose
    · exact absurd h (by simp)
  | sendHeartbeats =>
    simp only [Node.step] at h
    split at h
    · obtain rfl := Option.some.inj h
      exact .sendHeartbeats .idle trivial
    · obtain rfl := Option.some.inj h
      exact .sendHeartbeats .recheck trivial
    · exact absurd h (by simp)
  | updateCommit =>
    simp only [Node.step] at h
    split at h
    · rw [Option.ite_none_right_eq_some] at h
      obtain rfl := Option.some.inj h.2
      exact .updateCommit h.1
    · exact absurd h (by simp)
  | updateNext =>
    simp only [Node.step] at h
    split at h
    · rename_i index hphase
      obtain rfl := Option.some.inj h
      exact .readTerm index hphase
    · rename_i index term hphase
      split at h
      · rename_i habove
        obtain rfl := Option.some.inj h
        exact .passIndex index term hphase habove
      · obtain rfl := Option.some.inj h
        exact .leaveCommit _ hphase
    · rename_i index term hphase
      split at h
      · rename_i hterm
        obtain rfl := Option.some.inj h
        exact .passTerm index term hphase hterm
      · obtain rfl := Option.some.inj h
        exact .leaveCommit _ hphase
    · rename_i index hphase
      obtain rfl := Option.some.inj h
      exact .setCommit index hphase
    · exact absurd h (by simp)
  | leaderCheck =>
    simp only [Node.step] at h
    split at h
    · obtain rfl := Option.some.inj h
      refine .leaderCheck _ ?_
      split <;> trivial
    · exact absurd h (by simp)
  | propose command =>
    simp only [Node.step, Option.ite_none_right_eq_some] at h
    obtain rfl := Option.some.inj h.2
    exact .propose command h.1
  | applyRead =>
    simp only [Node.step] at h
    split at h
    · rename_i hidle
      rw [Option.ite_none_right_eq_some] at h
      obtain rfl := Option.some.inj h.2
      exact .applyRead hidle h.1
    · exact absurd h (by simp)
  | applyNext =>
    simp only [Node.step] at h
    split at h
    · rename_i i commitIndex happlying
      split at h
      · rename_i hi
        split at h
        · rename_i entry hentry
          obtain rfl := Option.some.inj h
          exact .applyEntry i commitIndex entry happlying hi hentry
        · rename_i hmissing
          obtain rfl := Option.some.inj h
          exact .applyGap i commitIndex happlying hi hmissing
      · rename_i hi
        obtain rfl := Option.some.inj h
        exact .applyDone i commitIndex happlying (Nat.not_le.mp hi)
    · exact absurd h (by simp)

/-! ## 2. The office -/

/-- The part of a node's state that elections are about. -/
structure Office where
  term : Nat
  votedFor : Str
  leaderID : Str
  role : NodeState

namespace Office

def following (term : Nat) (leaderID : Str) : Office := ⟨term, [], leaderID, .follower⟩

def campaigning (f : Office) : Office :=
  { f with term := (f.term + 1) % 2 ^ 64, leaderID := [], role := .candidate }

def elected (f : Office) (id : Str) : Office := { f with leaderID := id, role := .leader }

end Office

def State.office (s : State) : Office := ⟨s.currentTerm, s.votedFor, s.leaderID, s.state⟩

/-- The terms of the request and of the response, in a packet that is a response. -/
def Packet.terms : Packet → Option (Nat × Nat)
  | .voteResp _ _ _ req resp => some (req.term, resp.term)
  | .appendResp _ _ req resp => some (req.term, resp.term)
  | _ => none

/-- **What an event does to the office**, and the votes it gives. -/
inductive Turn (id : Str) (peers : List Str) (n : Node) : Event → Outcome → Prop
  | keep {e : Event} {o : Outcome} (office : o.node.st.office = n.st.office)
    (votes : o.votes = []) :
    Turn id peers n e o
  | stand {e : Event} {o : Outcome} (role : NodeState) (hrole : role ≠ .leader)
    (after : o.node.phase = .top) (office : o.node.st.office = { n.st.office with role })
    (votes : o.votes = []) :
    Turn id peers n e o
  | campaign {o : Outcome} (office : o.node.st.office = n.st.office.campaigning)
    (votes : o.votes = []) : Turn id peers n .becomeCandidate o
  | voteSelf {o : Outcome} (term : Nat) (phase : n.phase = .started term)
    (after : o.node.phase = .waiting n.elections term 1 peers)
    (office : o.node.st.office = { n.st.office with votedFor := id })
    (votes : o.votes = [⟨id, term, id⟩]) : Turn id peers n .voteForSelf o
  | follow {o : Outcome} (src : Str) (req : AppendEntriesRequest)
    (hterm : n.st.currentTerm ≤ req.term)
    (office : o.node.st.office = .following req.term req.leaderID) (votes : o.votes = []) :
    Turn id peers n (.receive (.appendReq src id req)) o
  | observe {o : Outcome} (src : Str) (election : Nat) (req : VoteRequest)
    (hterm : n.st.currentTerm < req.term) (office : o.node.st.office = .following req.term [])
    (votes : o.votes = []) : Turn id peers n (.receive (.voteReq src id election req)) o
  | vote {o : Outcome} (src : Str) (election : Nat) (req : VoteRequest)
    (hterm : n.st.currentTerm ≤ req.term) (hgrant : (n.st.observeTerm req.term).grants req)
    (office : o.node.st.office =
      { (n.st.observeTerm req.term).office with votedFor := req.candidateID })
    (votes : o.votes = [⟨id, req.term, req.candidateID⟩]) :
    Turn id peers n (.receive (.voteReq src id election req)) o
  | heed {o : Outcome} (p : Packet) (asked answered : Nat) (hp : p.terms = some (asked, answered))
    (hterm : asked < answered) (office : o.node.st.office = .following answered [])
    (votes : o.votes = []) : Turn id peers n (.receive p) o
  | elect {o : Outcome} (election term votes : Nat)
    (phase : n.phase = .waiting election term votes []) (enough : Node.votesNeeded peers ≤ votes)
    (office : o.node.st.office = n.st.office.elected id) (votes : o.votes = []) :
    Turn id peers n .tally o

section Office

variable (s : State)

theorem office_store (req : AppendEntriesRequest) : (s.store req).office = s.office := by
  unfold State.store
  split <;> rfl

theorem office_advanceCommit (req : AppendEntriesRequest) :
    (s.advanceCommit req).office = s.office := by
  unfold State.advanceCommit
  split <;> rfl

theorem office_noteSuccess (peer : Str) (entries : List LogEntry) :
    (s.noteSuccess peer entries).office = s.office := by
  unfold State.noteSuccess
  split <;> rfl

theorem office_noteFailure (peer : Str) : (s.noteFailure peer).office = s.office := by
  unfold State.noteFailure
  split <;> rfl

/-- A request that is not from the past makes its sender the leader, accepted or not. -/
theorem office_handleAppendEntries {req : AppendEntriesRequest}
    (h : s.currentTerm ≤ req.term) :
    (s.handleAppendEntries req).1.office = .following req.term req.leaderID := by
  rcases handleAppendEntries_cases s req with ⟨hold, -⟩ | ⟨-, -, heq⟩ | ⟨-, -, heq⟩
  · exact absurd h (Nat.not_le.mpr hold)
  · rw [heq]
    rfl
  · rw [heq, office_advanceCommit, office_store]
    rfl

end Office

theorem observeTerm_term {s : State} {term : Nat} (h : s.currentTerm ≤ term) :
    (s.observeTerm term).currentTerm = term := by
  unfold State.observeTerm
  split
  · rfl
  · omega

theorem countVote_st (n : Node) (peer : Str) (granted : Bool) :
    (n.countVote peer granted).st = n.st := by
  unfold Node.countVote
  split <;> rfl

theorem voteReply_st (n : Node) (election : Nat) (peer : Str) (req : VoteRequest)
    (resp : VoteResponse) :
    (n.voteReply election peer req resp).st =
      if resp.term > req.term then n.st.becomeFollower resp.term [] else n.st := by
  unfold Node.voteReply
  by_cases hnew : resp.term > req.term <;> by_cases haw : n.awaits election peer <;>
    simp [hnew, haw, countVote_st, Node.withState]

theorem turn_voteReq (src : Str) (election : Nat) (req : VoteRequest) :
    Turn id peers n (.receive (.voteReq src id election req))
      ⟨n.withState (n.st.handleRequestVote req).1,
        [.voteResp id src election req (n.st.handleRequestVote req).2],
        if (n.st.handleRequestVote req).2.voteGranted then [⟨id, req.term, req.candidateID⟩]
        else []⟩ := by
  unfold State.handleRequestVote
  by_cases hold : req.term < n.st.currentTerm
  · simp only [hold, if_true]
    exact .keep rfl rfl
  · have hterm : n.st.currentTerm ≤ req.term := Nat.not_lt.mp hold
    by_cases hgrant : (n.st.observeTerm req.term).grants req
    · simp only [hold, hgrant, if_false, if_true]
      exact .vote src election req hterm hgrant rfl rfl
    · simp only [hold, hgrant, if_false]
      by_cases hnew : n.st.currentTerm < req.term
      · simp only [State.observeTerm, if_pos hnew]
        exact .observe src election req hnew rfl rfl
      · simp only [State.observeTerm, if_neg hnew]
        exact .keep rfl rfl

theorem turn_voteResp (src : Str) (election : Nat) (req : VoteRequest) (resp : VoteResponse) :
    Turn id peers n (.receive (.voteResp src id election req resp))
      (n.voteReply election src req resp).silent := by
  have hst := voteReply_st n election src req resp
  by_cases hnew : resp.term > req.term
  · rw [if_pos hnew] at hst
    refine .heed _ _ _ rfl hnew ?_ rfl
    rw [Node.silent, hst]
    rfl
  · rw [if_neg hnew] at hst
    refine .keep ?_ rfl
    rw [Node.silent, hst]

theorem turn_appendResp (src : Str) (req : AppendEntriesRequest) (resp : AppendEntriesResponse) :
    Turn id peers n (.receive (.appendResp src id req resp))
      (n.appendReply src req resp).silent := by
  unfold Node.appendReply
  by_cases hnew : resp.term > req.term
  · rw [if_pos hnew]
    exact .heed _ _ _ rfl hnew rfl rfl
  · rw [if_neg hnew]
    split
    · exact .keep (office_noteSuccess _ _ _) rfl
    · exact .keep (office_noteFailure _ _) rfl

theorem turn_appendReq (src : Str) (req : AppendEntriesRequest) (packets : List Packet) :
    Turn id peers n (.receive (.appendReq src id req))
      ⟨n.withState (n.st.handleAppendEntries req).1, packets, []⟩ := by
  rcases handleAppendEntries_cases n.st req with ⟨-, heq⟩ | ⟨hterm, -⟩ | ⟨hterm, -⟩
  · rw [heq]
    exact .keep rfl rfl
  · exact .follow src req hterm (office_handleAppendEntries n.st hterm) rfl
  · exact .follow src req hterm (office_handleAppendEntries n.st hterm) rfl

theorem turn_of_move (h : Move id peers n e o) : Turn id peers n e o := by
  cases h with
  | timeout => exact .stand .candidate (by decide) rfl rfl rfl
  | campaign => exact .campaign rfl rfl
  | voteForSelf term hphase => exact .voteSelf term hphase rfl rfl rfl
  | voteFailed _ _ _ _ peer => exact .keep (by rw [Node.silent, countVote_st]) rfl
  | win election term votes hphase henough =>
    exact .elect election term votes hphase henough rfl rfl
  | lose => exact .stand .follower (by decide) rfl rfl rfl
  | voteReq src election req => exact turn_voteReq src election req
  | voteResp src election req resp => exact turn_voteResp src election req resp
  | appendReq src req => exact turn_appendReq src req _
  | appendResp src req resp => exact turn_appendResp src req resp
  | _ => exact .keep rfl rfl

/-- **Who leads after an event** led the same term before, or has just counted enough votes. -/
theorem leader_of_move (hmove : Move id peers n e o) (hlead : o.node.st.state = .leader) :
    o.node.st.currentTerm = n.st.currentTerm ∧ (n.st.state = .leader ∨
      e = .tally ∧ ∃ election T v, n.phase = .waiting election T v [] ∧
        Node.votesNeeded peers ≤ v) := by
  cases turn_of_move hmove with
  | keep office | voteSelf _ _ _ office =>
    exact ⟨congrArg Office.term office, .inl ((congrArg Office.role office).symm.trans hlead)⟩
  | stand role hrole _ office =>
    exact absurd ((congrArg Office.role office).symm.trans hlead) hrole
  | campaign office | follow _ _ _ office | observe _ _ _ _ office | heed _ _ _ _ _ office =>
    have hrole := (congrArg Office.role office).symm.trans hlead
    exact absurd hrole (by simp [Office.campaigning, Office.following])
  | vote src election req _ _ office =>
    -- a node that stays leader was in the term of the request already
    have hrole : (n.st.observeTerm req.term).state = .leader :=
      (congrArg Office.role office).symm.trans hlead
    have hterm : o.node.st.currentTerm = (n.st.observeTerm req.term).currentTerm :=
      congrArg Office.term office
    unfold State.observeTerm at hrole hterm
    split at hrole
    · exact absurd hrole (by simp [State.becomeFollower])
    · rename_i hold
      rw [if_neg hold] at hterm
      exact ⟨hterm, .inl hrole⟩
  | elect election T v phase enough office =>
    exact ⟨congrArg Office.term office, .inr ⟨rfl, election, T, v, phase, enough⟩⟩

/-! ## 3. The main loop -/

/-- **What an event does to the main loop**, as far as elections are concerned. -/
inductive Shift (id : Str) (peers : List Str) (n : Node) : Event → Outcome → Prop
  | stay {e : Event} {o : Outcome} (phase : o.node.phase = n.phase)
    (elections : o.node.elections = n.elections) : Shift id peers n e o
  | rest {e : Event} {o : Outcome} (phase : o.node.phase.resting)
    (elections : o.node.elections = n.elections) : Shift id peers n e o
  | start {o : Outcome} (office : o.node.st.office = n.st.office.campaigning)
    (phase : o.node.phase = .started o.node.st.currentTerm)
    (elections : o.node.elections = n.elections) : Shift id peers n .becomeCandidate o
  | wait {o : Outcome} (term : Nat) (started : n.phase = .started term)
    (phase : o.node.phase = .waiting n.elections term 1 peers)
    (elections : o.node.elections = n.elections + 1) (votes : o.votes = [⟨id, term, id⟩]) :
    Shift id peers n .voteForSelf o
  /-- A goroutine returns without a vote. -/
  | miss {e : Event} {o : Outcome} (election term votes : Nat) (pending : List Str) (peer : Str)
    (waiting : n.phase = .waiting election term votes pending)
    (phase : o.node.phase = .waiting election term votes (pending.erase peer))
    (elections : o.node.elections = n.elections) : Shift id peers n e o
  /-- A goroutine returns with a vote. -/
  | count {o : Outcome} (election term votes : Nat) (pending : List Str) (peer : Str)
    (req : VoteRequest) (resp : VoteResponse) (hpeer : peer ∈ pending)
    (hgranted : resp.voteGranted = true)
    (waiting : n.phase = .waiting election term votes pending)
    (phase : o.node.phase = .waiting election term (votes + 1) (pending.erase peer))
    (elections : o.node.elections = n.elections) :
    Shift id peers n (.receive (.voteResp peer id election req resp)) o

theorem countVote_elections (n : Node) (peer : Str) (granted : Bool) :
    (n.countVote peer granted).elections = n.elections := by
  unfold Node.countVote
  split <;> rfl

theorem countVote_phase {n : Node} {election term votes : Nat} {pending : List Str}
    (h : n.phase = .waiting election term votes pending) (peer : Str) (granted : Bool) :
    (n.countVote peer granted).phase =
      .waiting election term (if granted then votes + 1 else votes) (pending.erase peer) := by
  unfold Node.countVote
  rw [h]
  rfl

theorem waiting_of_awaits {election : Nat} {peer : Str} (h : n.awaits election peer = true) :
    ∃ term votes pending, n.phase = .waiting election term votes pending ∧ peer ∈ pending := by
  unfold Node.awaits at h
  split at h
  · rename_i e term votes pending hphase
    obtain ⟨rfl, hpeer⟩ := of_decide_eq_true h
    exact ⟨term, votes, pending, hphase, hpeer⟩
  · exact absurd h (by simp)

theorem shift_voteResp (src : Str) (election : Nat) (req : VoteRequest) (resp : VoteResponse) :
    Shift id peers n (.receive (.voteResp src id election req resp))
      (n.voteReply election src req resp).silent := by
  set n' := if resp.term > req.term then n.withState (n.st.becomeFollower resp.term []) else n
    with hn'
  have hphase' : n'.phase = n.phase := by rw [hn']; split <;> rfl
  have helections' : n'.elections = n.elections := by rw [hn']; split <;> rfl
  by_cases hawaits : n.awaits election src = true
  · have hreply : n.voteReply election src req resp =
        n'.countVote src (resp.term ≤ req.term ∧ resp.voteGranted) := by
      rw [Node.voteReply, if_pos hawaits]
    obtain ⟨term, votes, pending, hphase, hmem⟩ := waiting_of_awaits hawaits
    have hcount := countVote_phase (hphase'.trans hphase) src
      (resp.term ≤ req.term ∧ resp.voteGranted)
    have helections := (countVote_elections n' src
      (resp.term ≤ req.term ∧ resp.voteGranted)).trans helections'
    rw [← hreply] at hcount helections
    by_cases hvote : resp.term ≤ req.term ∧ resp.voteGranted
    · rw [decide_eq_true hvote, if_pos rfl] at hcount
      exact .count election term votes pending src req resp hmem hvote.2 hphase hcount helections
    · rw [decide_eq_false hvote] at hcount
      exact .miss election term votes pending src hphase hcount helections
  · have hreply : n.voteReply election src req resp = n' := by
      rw [Node.voteReply, if_neg hawaits]
    refine .stay ?_ ?_
    · rw [Node.silent, hreply, hphase']
    · rw [Node.silent, hreply, helections']

theorem shift_of_move (h : Move id peers n e o) : Shift id peers n e o := by
  cases h with
  | campaign => exact .start rfl rfl rfl
  | voteForSelf term hphase => exact .wait term hphase rfl rfl rfl
  | voteFailed election term votes pending peer hphase =>
    exact .miss election term votes pending peer hphase (countVote_phase hphase peer false)
      (countVote_elections n peer false)
  | voteResp src election req resp => exact shift_voteResp src election req resp
  | appendResp src req resp =>
    unfold Node.appendReply
    split
    · exact .stay rfl rfl
    · split <;> exact .stay rfl rfl
  | dispatch _ hfree | sendHeartbeats _ hfree | leaderCheck _ hfree => exact .rest hfree.resting rfl
  | timeout | giveUp | win | lose | updateCommit | readTerm | passIndex | passTerm | setCommit
  | leaveCommit => exact .rest trivial rfl
  | propose | applyRead | applyEntry | applyGap | applyDone | read | append | voteReq | appendReq =>
    exact .stay rfl rfl

/-! ## 4. Packets -/

/-- **The packets an event sends.** -/
inductive Sent (id : Str) (peers : List Str) (n : Node) : Event → Packet → Prop
  | voteTask (peer : Str) (term : Nat) (hpeer : peer ∈ peers) (phase : n.phase = .started term) :
    Sent id peers n .voteForSelf (.voteTask id peer n.elections term none)
  | voteResp (src : Str) (election : Nat) (req : VoteRequest) :
    Sent id peers n (.receive (.voteReq src id election req))
      (.voteResp id src election req (n.st.handleRequestVote req).2)
  | heartbeatTask (peer : Str) (hpeer : peer ∈ peers) :
    Sent id peers n .sendHeartbeats (.heartbeatTask id peer n.st.currentTerm .blank)
  | appendResp (src : Str) (req : AppendEntriesRequest) :
    Sent id peers n (.receive (.appendReq src id req))
      (.appendResp id src req (n.st.handleAppendEntries req).2)
  | proposal (command : Str) (role : n.st.state = .leader) :
    Sent id peers n (.propose command) (.proposal id command none)
  | read (task next : Packet) (hread : Reads id n task next) :
    Sent id peers n (.receive task) next

theorem sent_of_move {p : Packet} (h : Move id peers n e o) (hp : p ∈ o.packets) :
    Sent id peers n e p := by
  cases h with
  | voteForSelf term hphase =>
    obtain ⟨peer, hpeer, rfl⟩ := List.mem_map.mp hp
    exact .voteTask peer term hpeer hphase
  | sendHeartbeats =>
    obtain ⟨peer, hpeer, rfl⟩ := List.mem_map.mp hp
    exact .heartbeatTask peer hpeer
  | propose command hrole =>
    obtain rfl := List.mem_singleton.mp hp
    exact .proposal command hrole
  | read task next hread =>
    obtain rfl := List.mem_singleton.mp hp
    exact .read task p hread
  | voteReq src election req =>
    obtain rfl := List.mem_singleton.mp hp
    exact .voteResp src election req
  | appendReq src req =>
    obtain rfl := List.mem_singleton.mp hp
    exact .appendResp src req
  | _ => exact absurd hp List.not_mem_nil

/-! ## 5. The log -/

/-- **What an event does to the log.** -/
inductive Edit (id : Str) (n : Node) : Event → Outcome → Prop
  | keep {e : Event} {o : Outcome} (log : o.node.st.log = n.st.log) : Edit id n e o
  | extend {o : Outcome} (command : Str) (term : Nat) (office : o.node.st.office = n.st.office)
    (log : o.node.st.log = Log.append n.st.log ⟨0, term, .command, command⟩) :
    Edit id n (.receive (.proposal id command (some term))) o
  | replace {o : Outcome} (src : Str) (req : AppendEntriesRequest)
    (hterm : n.st.currentTerm ≤ req.term) (consistent : n.st.consistent req)
    (entries : req.entries ≠ []) (office : o.node.st.office = .following req.term req.leaderID)
    (log : o.node.st.log = (Log.appendEntries n.st.log req.prevLogIndex req.entries).1) :
    Edit id n (.receive (.appendReq src id req)) o

theorem noteSuccess_log (s : State) (peer : Str) (entries : List LogEntry) :
    (s.noteSuccess peer entries).log = s.log := by
  unfold State.noteSuccess
  split <;> rfl

theorem noteFailure_log (s : State) (peer : Str) : (s.noteFailure peer).log = s.log := by
  unfold State.noteFailure
  split <;> rfl

theorem observeTerm_log (s : State) (term : Nat) : (s.observeTerm term).log = s.log := by
  unfold State.observeTerm
  split <;> rfl

theorem handleRequestVote_log (s : State) (req : VoteRequest) :
    (s.handleRequestVote req).1.log = s.log := by
  unfold State.handleRequestVote
  by_cases hold : req.term < s.currentTerm
  · simp [hold]
  · by_cases hgrant : (s.observeTerm req.term).grants req <;> simp [hold, hgrant, observeTerm_log]

theorem edit_appendReq (src : Str) (req : AppendEntriesRequest) (packets : List Packet) :
    Edit id n (.receive (.appendReq src id req))
      ⟨n.withState (n.st.handleAppendEntries req).1, packets, []⟩ := by
  rcases handleAppendEntries_cases n.st req with ⟨-, heq⟩ | ⟨-, -, heq⟩ | ⟨hterm, hc, heq⟩
  · rw [heq]
    exact .keep rfl
  · rw [heq]
    exact .keep rfl
  · have hlog : (n.st.handleAppendEntries req).1.log =
        ((n.st.becomeFollower req.term req.leaderID).store req).log := by
      rw [heq, advanceCommit_log]
    unfold State.store at hlog
    by_cases hentries : req.entries = []
    · rw [if_pos hentries] at hlog
      exact .keep hlog
    · rw [if_neg hentries] at hlog
      exact .replace src req hterm hc hentries (office_handleAppendEntries n.st hterm) hlog

theorem edit_of_move (h : Move id peers n e o) : Edit id n e o := by
  cases h with
  | voteFailed _ _ _ _ peer => exact .keep (by rw [Node.silent, countVote_st])
  | append command term => exact .extend command term rfl rfl
  | voteReq src election req => exact .keep (handleRequestVote_log n.st req)
  | voteResp src election req resp =>
    refine .keep ?_
    rw [Node.silent, voteReply_st]
    split <;> rfl
  | appendReq src req => exact edit_appendReq src req _
  | appendResp src req resp =>
    refine .keep ?_
    unfold Node.appendReply
    split
    · rfl
    · split
      · exact noteSuccess_log _ _ _
      · exact noteFailure_log _ _
  | _ => exact .keep rfl

/-- A log is only ever cut by a node that follows. -/
theorem prefix_of_leader (h : Move id peers n e o) (hrole : o.node.st.state = .leader) :
    n.st.log <+: o.node.st.log := by
  cases edit_of_move h with
  | keep log => exact log ▸ List.prefix_rfl
  | extend _ _ _ log => exact log ▸ List.prefix_append _ _
  | replace _ _ _ _ _ office =>
    exact absurd ((congrArg Office.role office).symm.trans hrole) (by simp [Office.following])

/-- Entries carry their positions, whatever is received. -/
theorem wellIndexed_of_move (h : Move id peers n e o) (hidx : Log.WellIndexed n.st.log) :
    Log.WellIndexed o.node.st.log := by
  cases edit_of_move h with
  | keep log => exact log ▸ hidx
  | extend _ _ _ log => exact log ▸ hidx.append _
  | replace _ _ _ _ _ _ log => exact log ▸ hidx.appendEntries _ _

/-! ## 6. The commit index -/

/-- **What an event does to the commit index**: the end of `updateCommitIndex` and the requests of a
leader set it, everything else leaves it. -/
inductive Commits (id : Str) (n : Node) : Event → Outcome → Prop
  | keep {e : Event} {o : Outcome} (commitIndex : o.node.st.commitIndex = n.st.commitIndex) :
    Commits id n e o
  | set {o : Outcome} (index : Nat) (before : n.phase = .updating (.agreed index))
    (after : o.node.phase = .recheck) (commitIndex : o.node.st.commitIndex = index) :
    Commits id n .updateNext o
  | follow {o : Outcome} (src : Str) (req : AppendEntriesRequest)
    (office : o.node.st.office = .following req.term req.leaderID)
    (commitIndex : o.node.st.commitIndex = (n.st.handleAppendEntries req).1.commitIndex) :
    Commits id n (.receive (.appendReq src id req)) o

theorem commitIndex_handleRequestVote (s : State) (req : VoteRequest) :
    (s.handleRequestVote req).1.commitIndex = s.commitIndex := by
  simp only [State.handleRequestVote, State.observeTerm]
  repeat' split
  all_goals rfl

theorem commitIndex_appendReply (n : Node) (peer : Str) (req : AppendEntriesRequest)
    (resp : AppendEntriesResponse) :
    (n.appendReply peer req resp).st.commitIndex = n.st.commitIndex := by
  simp only [Node.appendReply, Node.withState, State.noteSuccess, State.noteFailure]
  repeat' split
  all_goals rfl

theorem commits_of_move (h : Move id peers n e o) : Commits id n e o := by
  cases h with
  | setCommit index hphase => exact .set index hphase rfl rfl
  | voteReq src election req => exact .keep (commitIndex_handleRequestVote n.st req)
  | voteFailed _ _ _ _ peer => exact .keep (by rw [Node.silent, countVote_st])
  | voteResp src election req resp =>
    refine .keep ?_
    rw [Node.silent, voteReply_st]
    split <;> rfl
  | appendReq src req =>
    rcases Nat.lt_or_ge req.term n.st.currentTerm with hold | hterm
    · exact .keep (congrArg State.commitIndex (handleAppendEntries_of_stale hold))
    · exact .follow src req (office_handleAppendEntries n.st hterm) rfl
  | appendResp src req resp => exact .keep (commitIndex_appendReply n src req resp)
  | _ => exact .keep rfl

/-- **How the main loop gets to a point of `updateCommitIndex`.** -/
inductive Updated (n : Node) (o : Outcome) : Update → Prop
  | stay {progress : Update} (before : n.phase = .updating progress) : Updated n o progress
  | pick (signal : n.commitCh = true) (same : o.node.st = n.st) :
    Updated n o (.picked n.st.quorumIndex)
  | date {index : Nat} (before : n.phase = .updating (.picked index)) (same : o.node.st = n.st) :
    Updated n o (.dated index n.st.currentTerm)
  | pass {index term : Nat} (before : n.phase = .updating (.dated index term))
    (habove : n.st.commitIndex < index) (same : o.node.st = n.st) : Updated n o (.above index term)
  | agree {index term : Nat} (before : n.phase = .updating (.above index term))
    (hterm : Log.termAt n.st.log index = term) (same : o.node.st = n.st) :
    Updated n o (.agreed index)

theorem countVote_updating {progress : Update} {peer : Str} {granted : Bool}
    (h : (n.countVote peer granted).phase = .updating progress) : n.phase = .updating progress := by
  unfold Node.countVote at h
  split at h
  · cases h
  · exact h

theorem voteReply_updating {progress : Update} {election : Nat} {peer : Str} {req : VoteRequest}
    {resp : VoteResponse} (h : (n.voteReply election peer req resp).phase = .updating progress) :
    n.phase = .updating progress := by
  unfold Node.voteReply at h
  dsimp only at h
  split at h
  · have hphase := countVote_updating h
    split at hphase <;> exact hphase
  · split at h <;> exact h

theorem appendReply_phase (n : Node) (peer : Str) (req : AppendEntriesRequest)
    (resp : AppendEntriesResponse) : (n.appendReply peer req resp).phase = n.phase := by
  unfold Node.appendReply
  split
  · rfl
  · split <;> rfl

theorem updated_of_move {progress : Update} (h : Move id peers n e o)
    (hphase : o.node.phase = .updating progress) : Updated n o progress := by
  cases h with
  | dispatch phase hfree | sendHeartbeats phase hfree | leaderCheck phase hfree =>
    obtain rfl : phase = .updating progress := hphase
    exact hfree.elim
  | timeout | giveUp | campaign | voteForSelf | win | lose | setCommit | leaveCommit => cases hphase
  | updateCommit hsignal =>
    cases hphase
    exact .pick hsignal rfl
  | readTerm index before =>
    cases hphase
    exact .date before rfl
  | passIndex index term before habove =>
    cases hphase
    exact .pass before habove rfl
  | passTerm index term before hterm =>
    cases hphase
    exact .agree before hterm rfl
  | voteFailed => exact .stay (countVote_updating hphase)
  | voteResp => exact .stay (voteReply_updating hphase)
  | appendResp src req resp => exact .stay ((appendReply_phase n src req resp).symm.trans hphase)
  | propose | applyRead | applyEntry | applyGap | applyDone | read | append | voteReq | appendReq =>
    exact .stay hphase

/-! ## 7. What is noted of the logs of others -/

/-- The notes on the peers, both of them. -/
structure State.SameNotes (s s' : State) : Prop where
  matchIndex : s'.matchIndex = s.matchIndex
  nextIndex : s'.nextIndex = s.nextIndex

theorem sameNotes_handleRequestVote (s : State) (req : VoteRequest) :
    s.SameNotes (s.handleRequestVote req).1 := by
  simp only [State.handleRequestVote, State.observeTerm]
  repeat' split
  all_goals exact ⟨rfl, rfl⟩

theorem sameNotes_handleAppendEntries (s : State) (req : AppendEntriesRequest) :
    s.SameNotes (s.handleAppendEntries req).1 := by
  rcases handleAppendEntries_cases s req with ⟨-, heq⟩ | ⟨-, -, heq⟩ | ⟨-, -, heq⟩
  · rw [heq]
    exact ⟨rfl, rfl⟩
  · rw [heq]
    exact ⟨rfl, rfl⟩
  · rw [heq, State.advanceCommit, State.store]
    split <;> split <;> exact ⟨rfl, rfl⟩

/-- The notes are written when a candidate wins and when the answer to a heartbeat is in. -/
theorem notes_of_move (h : Move id peers n e o) :
    n.st.SameNotes o.node.st ∨ e = .tally ∧ o.node.st = n.st.becomeLeader id peers ∨
      ∃ src req resp, e = .receive (.appendResp src id req resp) ∧
        o = (n.appendReply src req resp).silent := by
  cases h with
  | win => exact .inr (.inl ⟨rfl, rfl⟩)
  | appendResp src req resp => exact .inr (.inr ⟨src, req, resp, rfl, rfl⟩)
  | voteFailed _ _ _ _ peer =>
    rw [Node.silent, countVote_st]
    exact .inl ⟨rfl, rfl⟩
  | voteReq src election req => exact .inl (sameNotes_handleRequestVote n.st req)
  | voteResp src election req resp =>
    rw [Node.silent, voteReply_st]
    left
    split <;> exact ⟨rfl, rfl⟩
  | appendReq src req => exact .inl (sameNotes_handleAppendEntries n.st req)
  | _ => exact .inl ⟨rfl, rfl⟩

/-- **What an event does to `matchIndex`.** -/
inductive Noted (id : Str) (peers : List Str) (n : Node) : Event → Outcome → Prop
  | keep {e : Event} {o : Outcome} (matchIndex : o.node.st.matchIndex = n.st.matchIndex) :
    Noted id peers n e o
  | reset {o : Outcome} (matchIndex : o.node.st.matchIndex = State.setAll n.st.matchIndex peers 0) :
    Noted id peers n .tally o
  | advance {o : Outcome} (src : Str) (req : AppendEntriesRequest) (resp : AppendEntriesResponse)
    (last : LogEntry) (hterm : resp.term ≤ req.term) (success : resp.success = true)
    (hlast : req.entries.getLast? = some last)
    (matchIndex : o.node.st.matchIndex = n.st.matchIndex.insert src last.index) :
    Noted id peers n (.receive (.appendResp src id req resp)) o

theorem noted_appendResp (src : Str) (req : AppendEntriesRequest) (resp : AppendEntriesResponse) :
    Noted id peers n (.receive (.appendResp src id req resp))
      (n.appendReply src req resp).silent := by
  unfold Node.appendReply
  split
  · exact .keep rfl
  · rename_i hterm
    split
    · rename_i hsuccess
      cases hlast : req.entries.getLast? with
      | none => exact .keep (by simp [Node.silent, Node.withState, State.noteSuccess, hlast])
      | some last =>
        refine .advance src req resp last (Nat.not_lt.mp hterm) hsuccess hlast ?_
        simp [Node.silent, Node.withState, State.noteSuccess, hlast]
    · refine .keep ?_
      simp only [Node.silent, Node.withState, State.noteFailure]
      split <;> rfl

theorem noted_of_move (h : Move id peers n e o) : Noted id peers n e o := by
  rcases notes_of_move h with hsame | ⟨rfl, hst⟩ | ⟨src, req, resp, rfl, rfl⟩
  · exact .keep hsame.matchIndex
  · exact .reset (by rw [hst]; rfl)
  · exact noted_appendResp src req resp

/-! ## 8. Where the next entries for a peer begin -/

/-- **What an event does to `nextIndex`.** -/
inductive Aimed (id : Str) (peers : List Str) (n : Node) : Event → Outcome → Prop
  | keep {e : Event} {o : Outcome} (nextIndex : o.node.st.nextIndex = n.st.nextIndex) :
    Aimed id peers n e o
  | reset {o : Outcome} (nextIndex : o.node.st.nextIndex =
      State.setAll n.st.nextIndex peers ((Log.lastIndex n.st.log + 1) % 2 ^ 64)) :
    Aimed id peers n .tally o
  | advance {o : Outcome} (src : Str) (req : AppendEntriesRequest) (resp : AppendEntriesResponse)
    (last : LogEntry) (hlast : req.entries.getLast? = some last)
    (nextIndex : o.node.st.nextIndex = n.st.nextIndex.insert src ((last.index + 1) % 2 ^ 64)) :
    Aimed id peers n (.receive (.appendResp src id req resp)) o
  | retreat {o : Outcome} (src : Str) (req : AppendEntriesRequest) (resp : AppendEntriesResponse)
    (next : Nat) (before : n.st.nextIndex.find src = some next) (hnext : 1 < next)
    (nextIndex : o.node.st.nextIndex = n.st.nextIndex.insert src (next - 1)) :
    Aimed id peers n (.receive (.appendResp src id req resp)) o

theorem aimed_appendResp (src : Str) (req : AppendEntriesRequest) (resp : AppendEntriesResponse) :
    Aimed id peers n (.receive (.appendResp src id req resp))
      (n.appendReply src req resp).silent := by
  unfold Node.appendReply
  split
  · exact .keep rfl
  · split
    · cases hlast : req.entries.getLast? with
      | none => exact .keep (by simp [Node.silent, Node.withState, State.noteSuccess, hlast])
      | some last =>
        refine .advance src req resp last hlast ?_
        simp [Node.silent, Node.withState, State.noteSuccess, hlast]
    · cases hnext : n.st.nextIndex.find src with
      | none => exact .keep (by simp [Node.silent, Node.withState, State.noteFailure, hnext])
      | some next =>
        by_cases hone : 1 < next
        · refine .retreat src req resp next hnext hone ?_
          simp [Node.silent, Node.withState, State.noteFailure, hnext, hone]
        · exact .keep (by simp [Node.silent, Node.withState, State.noteFailure, hnext, hone])

theorem aimed_of_move (h : Move id peers n e o) : Aimed id peers n e o := by
  rcases notes_of_move h with hsame | ⟨rfl, hst⟩ | ⟨src, req, resp, rfl, rfl⟩
  · exact .keep hsame.nextIndex
  · exact .reset (by rw [hst]; rfl)
  · exact aimed_appendResp src req resp

/-! ## 9. The apply loop -/

/-- Where the apply loop is and what it has done. -/
structure Node.SameProgress (n n' : Node) : Prop where
  applying : n'.applying = n.applying
  applied : n'.applied = n.applied
  lastApplied : n'.st.lastApplied = n.st.lastApplied

/-- **What an event does to the apply loop.** -/
inductive Pass (n : Node) : Event → Outcome → Prop
  | idle {e : Event} {o : Outcome} (hread : e ≠ .applyRead) (hnext : e ≠ .applyNext)
    (same : n.SameProgress o.node) : Pass n e o
  | read {o : Outcome} (applying : o.node.applying = some (n.st.lastApplied + 1, n.st.commitIndex))
    (applied : o.node.applied = n.applied)
    (lastApplied : o.node.st.lastApplied = n.st.lastApplied) : Pass n .applyRead o
  | apply {o : Outcome} (i k : Nat) (entry : LogEntry) (before : n.applying = some (i, k))
    (hi : i ≤ k) (hentry : Log.get n.st.log i = some entry)
    (applying : o.node.applying = some ((i + 1) % 2 ^ 64, k))
    (applied : o.node.applied = n.applied ++ [entry])
    (lastApplied : o.node.st.lastApplied = i) : Pass n .applyNext o
  | skip {o : Outcome} (i k : Nat) (before : n.applying = some (i, k)) (hi : i ≤ k)
    (hmissing : Log.get n.st.log i = none)
    (applying : o.node.applying = some ((i + 1) % 2 ^ 64, k)) (applied : o.node.applied = n.applied)
    (lastApplied : o.node.st.lastApplied = n.st.lastApplied) : Pass n .applyNext o
  | done {o : Outcome} (i k : Nat) (before : n.applying = some (i, k)) (hi : k < i)
    (applying : o.node.applying = none) (applied : o.node.applied = n.applied)
    (lastApplied : o.node.st.lastApplied = n.st.lastApplied) : Pass n .applyNext o

theorem countVote_applying (n : Node) (peer : Str) (granted : Bool) :
    (n.countVote peer granted).applying = n.applying ∧
      (n.countVote peer granted).applied = n.applied := by
  unfold Node.countVote
  split <;> exact ⟨rfl, rfl⟩

theorem voteReply_applying (n : Node) (election : Nat) (peer : Str) (req : VoteRequest)
    (resp : VoteResponse) :
    (n.voteReply election peer req resp).applying = n.applying ∧
      (n.voteReply election peer req resp).applied = n.applied := by
  unfold Node.voteReply
  by_cases hnew : resp.term > req.term <;> by_cases haw : n.awaits election peer <;>
    simp [hnew, haw, countVote_applying, Node.withState]

theorem handleRequestVote_lastApplied (s : State) (req : VoteRequest) :
    (s.handleRequestVote req).1.lastApplied = s.lastApplied := by
  simp only [State.handleRequestVote, State.observeTerm]
  repeat' split
  all_goals rfl

theorem handleAppendEntries_lastApplied (s : State) (req : AppendEntriesRequest) :
    (s.handleAppendEntries req).1.lastApplied = s.lastApplied := by
  simp only [State.handleAppendEntries, State.advanceCommit, State.store]
  repeat' split
  all_goals rfl

theorem noteSuccess_lastApplied (s : State) (peer : Str) (entries : List LogEntry) :
    (s.noteSuccess peer entries).lastApplied = s.lastApplied := by
  unfold State.noteSuccess
  split <;> rfl

theorem noteFailure_lastApplied (s : State) (peer : Str) :
    (s.noteFailure peer).lastApplied = s.lastApplied := by
  unfold State.noteFailure
  split <;> rfl

theorem pass_of_move (h : Move id peers n e o) : Pass n e o := by
  cases h with
  | applyRead hidle => exact .read rfl rfl rfl
  | applyEntry i k entry happlying hi hentry =>
    exact .apply i k entry happlying hi hentry rfl rfl rfl
  | applyGap i k happlying hi hmissing => exact .skip i k happlying hi hmissing rfl rfl rfl
  | applyDone i k happlying hi => exact .done i k happlying hi rfl rfl rfl
  | voteFailed _ _ _ _ peer =>
    obtain ⟨happlying, happlied⟩ := countVote_applying n peer false
    exact .idle (by simp) (by simp) ⟨happlying, happlied, by rw [Node.silent, countVote_st]⟩
  | voteReq src election req =>
    exact .idle (by simp) (by simp) ⟨rfl, rfl, handleRequestVote_lastApplied n.st req⟩
  | voteResp src election req resp =>
    obtain ⟨happlying, happlied⟩ := voteReply_applying n election src req resp
    refine .idle (by simp) (by simp) ⟨happlying, happlied, ?_⟩
    rw [Node.silent, voteReply_st]
    split <;> rfl
  | appendReq src req =>
    exact .idle (by simp) (by simp) ⟨rfl, rfl, handleAppendEntries_lastApplied n.st req⟩
  | appendResp src req resp =>
    refine .idle (by simp) (by simp) ?_
    unfold Node.appendReply
    split
    · exact ⟨rfl, rfl, rfl⟩
    · split
      · exact ⟨rfl, rfl, noteSuccess_lastApplied _ _ _⟩
      · exact ⟨rfl, rfl, noteFailure_lastApplied _ _⟩
  | _ => exact .idle (by simp) (by simp) ⟨rfl, rfl, rfl⟩

end SkyLock.Raft
