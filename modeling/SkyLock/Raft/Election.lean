/-
# Elections

Election safety, no two leaders in one term, does NOT hold of the code: an `AppendEntries` of the
current term clears `votedFor`, so a node that has helped one candidate to win can help another in
the same term (`two_leaders_after_heartbeat`).  There are four more ways to lose a vote or to count
one in the wrong term, and `Node.careful` names all five as a condition on single events:

* a vote is given in the current term only if no leader of it has been heard of;
* none is given between `BecomeCandidate` and `SetVotedFor`;
* a response makes the node a follower only of a later term, or when there is nothing to forget;
* `BecomeLeader` is called by a node that is still a candidate in the term it was a candidate in;
* the term counter does not wrap.

In a run of careful events there is one leader per term (`election_safety`).  The invariant ties
three things together for each node: the votes it has given (`Voter`), the votes it has counted
(`Runner`) and the votes behind its office (`Legitimate`).
-/
import SkyLock.Raft.Leadership

namespace SkyLock.Raft

/-! ## 1. Careful events -/

/-- Becoming a follower in `term` forgets neither a vote nor a leader of that term. -/
def State.forgetsNothing (s : State) (term : Nat) : Prop :=
  s.currentTerm < term ∨ s.currentTerm = term ∧ s.votedFor = [] ∧ s.leaderID = []

instance (s : State) (term : Nat) : Decidable (s.forgetsNothing term) :=
  inferInstanceAs (Decidable (_ ∨ _))

/-- If the request is not from the past and passes the test, the node is not about to vote for
itself, and if it is of the current term, no leader of the term is known. -/
def Node.votesOnce (n : Node) (req : VoteRequest) : Prop :=
  n.st.currentTerm ≤ req.term → (n.st.observeTerm req.term).grants req →
    (n.st.currentTerm = req.term → n.st.leaderID = []) ∧ n.phase ≠ .started req.term

instance (n : Node) (req : VoteRequest) : Decidable (n.votesOnce req) :=
  inferInstanceAs (Decidable (_ → _ → _))

/-- If the election is won, it was for the term the node is in, and it is still a candidate. -/
def Node.winsOwnTerm (peers : List Str) (n : Node) : Prop :=
  match n.phase with
  | .waiting _ term votes _ =>
    Node.votesNeeded peers ≤ votes → n.st.currentTerm = term ∧ n.st.state = .candidate
  | _ => True

instance (peers : List Str) (n : Node) : Decidable (n.winsOwnTerm peers) := by
  unfold Node.winsOwnTerm
  generalize n.phase = phase
  induction phase using Phase.casesOn <;> infer_instance

/-- **The condition under which elections are safe.** -/
def Node.careful (peers : List Str) (n : Node) : Event → Prop
  | .becomeCandidate => n.st.currentTerm + 1 < 2 ^ 64
  | .tally => n.winsOwnTerm peers
  | .receive (.voteReq _ _ _ req) => n.votesOnce req
  | .receive (.voteResp _ _ _ req resp) =>
    req.term < resp.term → n.st.forgetsNothing resp.term
  | .receive (.appendResp _ _ req resp) =>
    req.term < resp.term → n.st.forgetsNothing resp.term
  | _ => True

instance (peers : List Str) (n : Node) (e : Event) : Decidable (n.careful peers e) := by
  unfold Node.careful
  induction e using Event.casesOn with
  | receive p => induction p using Packet.casesOn <;> infer_instance
  | _ => infer_instance

def Careful (ids : List Str) (c : Cluster) (a : Action) : Prop :=
  (c.nodes a.node).careful (peersOf ids a.node) a.event

instance (ids : List Str) (c : Cluster) (a : Action) : Decidable (Careful ids c a) :=
  inferInstanceAs (Decidable (Node.careful _ _ _))

theorem State.forgetsNothing.le {s : State} {term : Nat} (h : s.forgetsNothing term) :
    s.currentTerm ≤ term := by
  rcases h with hlt | ⟨heq, -⟩
  · exact hlt.le
  · exact heq.le

theorem forgetsNothing_of_careful {peers : List Str} {n : Node} {p : Packet} {asked answered : Nat}
    (h : n.careful peers (.receive p)) (hp : p.terms = some (asked, answered))
    (hlt : asked < answered) : n.st.forgetsNothing answered := by
  cases p with
  | voteResp _ _ _ req resp | appendResp _ _ req resp =>
    obtain ⟨rfl, rfl⟩ := Prod.mk.inj (Option.some.inj hp)
    exact h hlt
  | _ => exact absurd hp (by simp [Packet.terms])

variable {ids : List Str} {votes : List Ballot} {id : Str} {n : Node} {e : Event} {o : Outcome}

theorem winsTerm_of_careful {peers : List Str} (h : n.careful peers e) : n.winsTerm peers e := by
  cases e with
  | tally =>
    have hwins : n.winsOwnTerm peers := h
    unfold Node.winsOwnTerm at hwins
    simp only [Node.winsTerm]
    split
    · rename_i hphase
      rw [hphase] at hwins
      exact fun henough => (hwins henough).1
    · trivial
  | _ => trivial

theorem State.granted_iff (s : State) (req : VoteRequest) :
    (s.handleRequestVote req).2.voteGranted = true ↔
      s.currentTerm ≤ req.term ∧ (s.observeTerm req.term).grants req := by
  unfold State.handleRequestVote
  by_cases hold : req.term < s.currentTerm
  · simp [hold]
  · by_cases hgrant : (s.observeTerm req.term).grants req
    · simp [hold, hgrant, Nat.not_lt.mp hold]
    · simp [hold, hgrant]

/-! ## 2. What a careful node remembers -/

/-- What a node may assume of a packet it receives. -/
def Packet.Addressed (ids : List Str) (id : Str) : Packet → Prop
  | .voteReq _ _ _ req => req.candidateID ∈ ids ∧ req.candidateID ≠ id
  | .appendReq _ _ req => req.leaderID ∈ ids
  | _ => True

def Event.Addressed (ids : List Str) (id : Str) : Event → Prop
  | .receive p => p.Addressed ids id
  | _ => True

section Careful

variable {peers : List Str}

/-- What the state of the node `p` may hide: that it has voted and heard of a leader, or that it
has voted for another and then for itself in an election that was over. -/
def State.unsure (s : State) (p : Str) : Prop := s.leaderID ≠ [] ∨ s.votedFor = p

/-- Care, with the packets of a cluster, is what a single node needs. -/
theorem keepsVote_of_careful (hids : [] ∉ ids) (hid : id ∈ ids) (hcare : n.careful peers e)
    (haddr : e.Addressed ids id) : n.keepsVote (n.st.unsure id) e := by
  cases e with
  | becomeCandidate => exact hcare
  | receive p =>
    cases p with
    | voteReq src dst election req =>
      intro hterm hgrant
      have honce := hcare hterm hgrant
      refine ⟨fun h0 => hids (h0 ▸ haddr.1), fun heq => ⟨?_, honce.2⟩⟩
      rintro (hleader | hself)
      · exact hleader (honce.1 heq)
      · rcases votedFor_of_grants heq hgrant with hnone | hsame
        · exact hids (hnone ▸ hself ▸ hid)
        · exact haddr.2 (hsame.symm.trans hself)
    | voteResp | appendResp => exact fun hlt => (hcare hlt).le
    | _ => trivial
  | _ => trivial

theorem unsure_of_same (hvote : o.node.st.votedFor = n.st.votedFor)
    (hleader : o.node.st.leaderID = n.st.leaderID)
    (hlost : n.st.unsure id ∨ n.forgets o.node) : o.node.st.unsure id := by
  rcases hlost with hunsure | hforgot
  · unfold State.unsure
    rw [hvote, hleader]
    exact hunsure
  · exact absurd hvote hforgot.2.1

/-- A careful event that stays in the term forgets nothing that the state does not show. -/
theorem unsure_of_move (hids : [] ∉ ids) (hid : id ∈ ids) (hmove : Move id peers n e o)
    (hcare : n.careful peers e) (haddr : e.Addressed ids id)
    (hterm : o.node.st.currentTerm = n.st.currentTerm)
    (hlost : n.st.unsure id ∨ n.forgets o.node) : o.node.st.unsure id := by
  cases turn_of_move hmove with
  | keep office | stand _ _ _ office =>
    exact unsure_of_same (congrArg Office.votedFor office) (congrArg Office.leaderID office) hlost
  | campaign office =>
    have hnew : o.node.st.currentTerm = n.st.currentTerm + 1 :=
      (congrArg Office.term office).trans (Nat.mod_eq_of_lt hcare)
    omega
  | voteSelf _ _ _ office => exact .inr (congrArg Office.votedFor office)
  | follow src req _ office =>
    have hleader : o.node.st.leaderID = req.leaderID := congrArg Office.leaderID office
    exact .inl fun h0 => hids (h0 ▸ hleader ▸ haddr)
  | observe src election req hlt office =>
    have hnew : o.node.st.currentTerm = req.term := congrArg Office.term office
    omega
  | vote src election req hle hgrant office =>
    have hnew : o.node.st.currentTerm = req.term :=
      (congrArg Office.term office).trans (observeTerm_term hle)
    -- the vote is not the first in this term only if it repeats the one that is remembered
    have heq : n.st.currentTerm = req.term := hterm.symm.trans hnew
    have hsure : ¬ n.st.unsure id :=
      ((keepsVote_of_careful hids hid hcare haddr hle hgrant).2 heq).1
    rcases hlost with hunsure | ⟨hsome, hchanged, -⟩
    · exact absurd hunsure hsure
    · have hvote : o.node.st.votedFor = req.candidateID := congrArg Office.votedFor office
      rcases votedFor_of_grants heq hgrant with hnone | hsame
      · exact absurd hnone hsome
      · exact absurd (hvote.trans hsame.symm) hchanged
  | heed p asked answered hterms hlt office =>
    have hnew : o.node.st.currentTerm = answered := congrArg Office.term office
    rcases forgetsNothing_of_careful hcare hterms hlt with hlater | ⟨-, hvote, hleader⟩
    · omega
    · rcases hlost with (hknown | hself) | ⟨hsome, -⟩
      · exact absurd hleader hknown
      · exact absurd (hvote ▸ hself ▸ hid) hids
      · exact absurd hvote hsome
  | elect _ _ _ _ _ office =>
    have hleader : o.node.st.leaderID = id := congrArg Office.leaderID office
    exact .inl fun h0 => hids (h0 ▸ hleader ▸ hid)

theorem keepsTerm_of_careful (hcare : n.careful peers e) : n.keepsTerm e := by
  cases e with
  | becomeCandidate => exact hcare
  | receive p =>
    cases p with
    | voteResp | appendResp => exact fun hlt => (hcare hlt).le
    | _ => trivial
  | _ => trivial

end Careful

/-! ## 3. The invariant -/

section Invariant

variable {c : Cluster} {peers : List Str} {p : Packet}

/-- The network gives a node only what it may assume. -/
theorem Packet.Ok.addressed (h : p.Ok ids c) (hmove : Move id peers n (.receive p) o) :
    p.Addressed ids id := by
  cases hmove with
  | voteReq src election req => exact ⟨h.1 ▸ h.2.member, h.1 ▸ h.2.other⟩
  | appendReq src req => exact h.1 ▸ h.2
  | read task next hread => cases hread <;> trivial
  | _ => trivial

/-- **The invariant of careful runs.** -/
structure Lawful (ids : List Str) (c : Cluster) : Prop where
  voter : ∀ p, Voter ((c.nodes p).st.unsure p) c.votes p (c.nodes p)
  runner : ∀ p election T v pending, (c.nodes p).phase = .waiting election T v pending →
    Runner c.votes (peersOf ids p) p (c.nodes p) election T v pending
  leader : ∀ p, Legitimate ids c.votes p (c.nodes p)
  net : ∀ p ∈ c.net, p.Ok ids c

theorem lawful_newCluster (ids : List Str) : Lawful ids newCluster where
  voter p := .new _ p
  runner := (tallied_newCluster ids).runner
  leader p h := absurd h (by simp [newCluster, newNode, newState])
  net := (tallied_newCluster ids).net

theorem Lawful.tallied (h : Lawful ids c) : Tallied ids c := ⟨h.runner, h.net⟩

theorem Lawful.step (hids : [] ∉ ids) (hnd : ids.Nodup) {c' : Cluster} {a : Action}
    (h : Lawful ids c) (hcare : Careful ids c a) (hstep : Cluster.step ids c a = some c') :
    Lawful ids c' := by
  obtain ⟨hrunner, hnet'⟩ := h.tallied.step hnd hstep
  have hleader := h.tallied.legitimate_step hnd h.leader (winsTerm_of_careful hcare) hstep
  obtain ⟨hid, havail, o, ho, rfl⟩ := Cluster.step_eq_some.mp hstep
  have hmove := move_of_step ho
  have haddr : a.event.Addressed ids a.node := by
    unfold Event.Addressed
    split
    · rename_i p hp
      exact (h.net p (mem_net_of_available havail p hp)).addressed (hp ▸ hmove)
    · trivial
  refine ⟨c.forall_put (P := fun p n => Voter (n.st.unsure p) (c.votes ++ o.votes) p n)
    ?_ fun p hp => ?_, hrunner, hleader, hnet'⟩
  · exact (h.voter _).move (fun h0 => hids (h0 ▸ hid)) hmove
      (keepsVote_of_careful hids hid hcare haddr) (unsure_of_move hids hid hmove hcare haddr)
  · exact (h.voter p).of_other fun b hb hbp => hp ((voter_of_votes hmove hb) ▸ hbp.symm)

theorem lawful_of_run (hids : [] ∉ ids) (hnd : ids.Nodup)
    (hrun : Lts.Run (Cluster.step ids) (Careful ids) newCluster c) : Lawful ids c :=
  hrun.invariant (lawful_newCluster ids) fun _ _ _ h hcare hstep => h.step hids hnd hcare hstep

/-- Votes are never taken back. -/
theorem votes_subset_of_run {ok : Cluster → Action → Prop} {c' : Cluster}
    (hrun : Lts.Run (Cluster.step ids) ok c c') : c.votes ⊆ c'.votes := by
  induction hrun with
  | refl => exact fun _ h => h
  | tail a _ _ hstep ih =>
    obtain ⟨-, -, o, -, rfl⟩ := Cluster.step_eq_some.mp hstep
    exact fun _ h => List.mem_append_left _ (ih h)

/-- Two majorities have a voter in common. -/
theorem exists_common_voter {Q Q' : Finset Str} (hnd : ids.Nodup) (hQ : Q ⊆ ids.toFinset)
    (hQ' : Q' ⊆ ids.toFinset) (hcard : ids.length / 2 + 1 ≤ Q.card)
    (hcard' : ids.length / 2 + 1 ≤ Q'.card) : ∃ q, q ∈ Q ∧ q ∈ Q' := by
  have hlen := List.toFinset_card_of_nodup hnd
  obtain ⟨q, hq⟩ := Finset.inter_nonempty_of_card_lt_card_add_card hQ hQ' (by omega)
  exact ⟨q, Finset.mem_inter.mp hq⟩

/-- **One leader per term.**  In a run of careful events from new nodes, a node that leads a term
and a node that leads the same term then or at any later time are the same. -/
theorem election_safety (hids : [] ∉ ids) (hnd : ids.Nodup) {c' : Cluster}
    (hrun : Lts.Run (Cluster.step ids) (Careful ids) newCluster c)
    (hrun' : Lts.Run (Cluster.step ids) (Careful ids) c c') {i j : Str}
    (hi : (c.nodes i).st.state = .leader) (hj : (c'.nodes j).st.state = .leader)
    (hterm : (c.nodes i).st.currentTerm = (c'.nodes j).st.currentTerm) : i = j := by
  have hlaw := lawful_of_run hids hnd hrun
  have hlaw' := lawful_of_run hids hnd (hrun.trans hrun')
  obtain ⟨Q, -, hQ, hcard, hvotes⟩ := hlaw.leader i hi
  obtain ⟨Q', -, hQ', hcard', hvotes'⟩ := hlaw'.leader j hj
  obtain ⟨q, hq, hq'⟩ := exists_common_voter hnd hQ hQ' hcard hcard'
  have hvote := votes_subset_of_run hrun' (hvotes q hq)
  rw [hterm] at hvote
  exact (hlaw'.voter q).polled.once _ _ _ hvote (hvotes' q hq')

end Invariant


/-! ## 4. Two elections in one term -/

theorem election_safety_first_election :
    ∃ c, Lts.Run (Cluster.step trio) (Careful trio) newCluster c ∧
      (c.nodes n1).st.state = .leader ∧ (c.nodes n1).st.currentTerm = 1 ∧
      ∀ c' j, Lts.Run (Cluster.step trio) (Careful trio) c c' →
        (c'.nodes j).st.state = .leader → (c'.nodes j).st.currentTerm = 1 → n1 = j := by
  obtain ⟨c, hrun, hrole, hterm⟩ : ∃ c, Lts.Run (Cluster.step trio) (Careful trio) newCluster c ∧
      (c.nodes n1).st.state = .leader ∧ (c.nodes n1).st.currentTerm = 1 :=
    Lts.exists_run (winElection n1 n3 n2 ++ heartbeat n1 n3) (by decide +kernel)
  exact ⟨c, hrun, hrole, hterm, fun c' j hrun' hj hjterm =>
    election_safety (by decide +kernel) (by decide +kernel) hrun hrun' hrole hj
      (hterm.trans hjterm.symm)⟩

/-- **A vote given twice.**  `n1` wins term 1 with the vote of `n3`.  Its heartbeat clears the vote
of `n3`, which then gives it to `n2` in the same term: both lead term 1. -/
theorem two_leaders_after_heartbeat :
    ∃ c, Lts.Reach (Cluster.step trio) newCluster c ∧
      (c.nodes n1).st.state = .leader ∧ (c.nodes n1).st.currentTerm = 1 ∧
      (c.nodes n2).st.state = .leader ∧ (c.nodes n2).st.currentTerm = 1 ∧ n1 ≠ n2 :=
  Lts.exists_reach (winElection n1 n3 n2 ++ heartbeat n1 n3 ++
    winElection n2 n3 n1) (by decide +kernel)

end SkyLock.Raft
