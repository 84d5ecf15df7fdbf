/-
# The term and the votes of one node

What a node does does not depend on where its packets come from.  Here it is alone (`Solo`): any
event may happen at any time, and it may receive ANY packet, sent by someone or not.  Every node of
a cluster behaves like that (`reach_seenAt`), so what holds here holds there.

Two promises of a node by itself:

* its term never goes back.  It does, by an answer that comes late: the answer is compared with the
  term of its request, and the node may have moved on since.  `terms_never_go_back_iff` says exactly
  when;
* it votes once in a term.  It does not, because every `BecomeFollower` clears `votedFor`.  It does
  as long as no vote is granted in a term in which one was forgotten (`one_vote_per_term`).

The second rests on `Voter`, what the votes of a node and its state say about each other.  It leaves
open what a forgotten vote shows by (`lost`): on its own the node has a record of it, in a cluster
it has to be read off the state.
-/
import SkyLock.Raft.Calls

namespace SkyLock.Raft

/-! ## 1. Events that keep the term and the vote -/

/-- The term does not go back: neither by a wrap nor by a response. -/
def Node.keepsTerm (n : Node) : Event → Prop
  | .becomeCandidate => n.st.currentTerm + 1 < 2 ^ 64
  | .receive (.voteResp _ _ _ req resp) => req.term < resp.term → n.st.currentTerm ≤ resp.term
  | .receive (.appendResp _ _ req resp) => req.term < resp.term → n.st.currentTerm ≤ resp.term
  | _ => True

instance (n : Node) (e : Event) : Decidable (n.keepsTerm e) := by
  unfold Node.keepsTerm
  induction e using Event.casesOn with
  | receive p => induction p using Packet.casesOn <;> infer_instance
  | _ => infer_instance

/-- From `n` to `n'` a vote is forgotten: `votedFor` named it and now names something else.  What
stands there between `BecomeCandidate` and `SetVotedFor` is of an earlier term. -/
def Node.forgets (n n' : Node) : Prop :=
  n.st.votedFor ≠ [] ∧ n'.st.votedFor ≠ n.st.votedFor ∧ n.phase ≠ .started n.st.currentTerm

instance (n n' : Node) : Decidable (n.forgets n') := inferInstanceAs (Decidable (_ ∧ _))

/-- If the request is not from the past and passes the test, it names a candidate; and if it is of
the current term, no vote of the term is `lost`, and the node is not about to vote for itself. -/
def Node.votesFor (n : Node) (lost : Prop) (req : VoteRequest) : Prop :=
  n.st.currentTerm ≤ req.term → (n.st.observeTerm req.term).grants req →
    req.candidateID ≠ [] ∧
      (n.st.currentTerm = req.term → ¬ lost ∧ n.phase ≠ .started req.term)

instance (n : Node) (lost : Prop) [Decidable lost] (req : VoteRequest) :
    Decidable (n.votesFor lost req) :=
  inferInstanceAs (Decidable (_ → _ → _))

/-- **The condition under which a node votes once in a term**, where `lost` says that it has given
a vote in its current term and forgotten it. -/
def Node.keepsVote (n : Node) (lost : Prop) : Event → Prop
  | .receive (.voteReq _ _ _ req) => n.votesFor lost req
  | e => n.keepsTerm e

instance (n : Node) (lost : Prop) [Decidable lost] (e : Event) :
    Decidable (n.keepsVote lost e) := by
  unfold Node.keepsVote
  split <;> infer_instance

theorem keepsTerm_of_keepsVote {n : Node} {lost : Prop} {e : Event} (h : n.keepsVote lost e) :
    n.keepsTerm e := by
  unfold Node.keepsVote at h
  split at h
  · trivial
  · exact h

theorem le_of_keepsTerm {n : Node} {p : Packet} {asked answered : Nat}
    (h : n.keepsTerm (.receive p)) (hp : p.terms = some (asked, answered))
    (hlt : asked < answered) : n.st.currentTerm ≤ answered := by
  cases p with
  | voteResp _ _ _ req resp | appendResp _ _ req resp =>
    obtain ⟨rfl, rfl⟩ := Prod.mk.inj (Option.some.inj hp)
    exact h hlt
  | _ => exact absurd hp (by simp [Packet.terms])

/-! ## 2. The votes a node has given -/

section Polled

variable {lost lost' : Prop} {votes : List Ballot} {p : Str} {f f' : Office}

/-- What the votes of `p` and its office say about each other: a vote given in the current term is
the one that `votedFor` names, unless one is `lost`. -/
structure Polled (lost : Prop) (votes : List Ballot) (p : Str) (f : Office) : Prop where
  past : ∀ T x, ⟨p, T, x⟩ ∈ votes → T ≤ f.term ∧ x ≠ []
  once : ∀ T x y, ⟨p, T, x⟩ ∈ votes → ⟨p, T, y⟩ ∈ votes → x = y
  current : ∀ x, ⟨p, f.term, x⟩ ∈ votes → f.votedFor = x ∨ lost

theorem Polled.newTerm (h : Polled lost votes p f) (hlt : f.term < f'.term) :
    Polled lost' votes p f' where
  past T x hx := ⟨(h.past T x hx).1.trans hlt.le, (h.past T x hx).2⟩
  once := h.once
  current x hx := absurd (h.past _ x hx).1 (by omega)

theorem Polled.sameTerm (h : Polled lost votes p f) (heq : f'.term = f.term)
    (hcur : ∀ x, ⟨p, f.term, x⟩ ∈ votes → f'.votedFor = x ∨ lost') : Polled lost' votes p f' where
  past T x hx := heq ▸ h.past T x hx
  once := h.once
  current x hx := hcur x (heq ▸ hx)

theorem Polled.cast {T : Nat} {x : Str} (h : Polled lost votes p f) (hT : T ≤ f.term) (hx : x ≠ [])
    (huniq : ∀ y, ⟨p, T, y⟩ ∈ votes → y = x) (hcur : T = f.term → f.votedFor = x) :
    Polled lost (votes ++ [⟨p, T, x⟩]) p f where
  past U y hy := by
    rcases List.mem_append.mp hy with hy | hy
    · exact h.past U y hy
    · simp only [List.mem_singleton, Ballot.mk.injEq, true_and] at hy
      exact ⟨hy.1 ▸ hT, hy.2 ▸ hx⟩
  once U y z hy hz := by
    rcases List.mem_append.mp hy with hy | hy <;> rcases List.mem_append.mp hz with hz | hz
    · exact h.once U y z hy hz
    · simp only [List.mem_singleton, Ballot.mk.injEq, true_and] at hz
      exact (huniq y (hz.1 ▸ hy)).trans hz.2.symm
    · simp only [List.mem_singleton, Ballot.mk.injEq, true_and] at hy
      exact hy.2.trans (huniq z (hy.1 ▸ hz)).symm
    · simp only [List.mem_singleton, Ballot.mk.injEq, true_and] at hy hz
      exact hy.2.trans hz.2.symm
  current y hy := by
    rcases List.mem_append.mp hy with hy | hy
    · exact h.current y hy
    · simp only [List.mem_singleton, Ballot.mk.injEq, true_and] at hy
      exact .inl ((hcur hy.1.symm).trans hy.2.symm)

/-- Votes of others do not matter. -/
theorem Polled.of_other {new : List Ballot} (h : Polled lost votes p f)
    (hnew : ∀ b ∈ new, b.voter ≠ p) : Polled lost (votes ++ new) p f := by
  have hmem : ∀ {T x}, ⟨p, T, x⟩ ∈ votes ++ new → ⟨p, T, x⟩ ∈ votes := fun hx =>
    (List.mem_append.mp hx).resolve_right fun hn => hnew _ hn rfl
  exact
    { past := fun T x hx => h.past T x (hmem hx)
      once := fun T x y hx hy => h.once T x y (hmem hx) (hmem hy)
      current := fun x hx => h.current x (hmem hx) }

end Polled

/-- The votes of a node and its main loop: between `BecomeCandidate` and `SetVotedFor` it has not
voted in its term. -/
structure Voter (lost : Prop) (votes : List Ballot) (p : Str) (n : Node) : Prop where
  polled : Polled lost votes p n.st.office
  started : ∀ T, n.phase = .started T → T ≤ n.st.currentTerm ∧ ∀ x, ⟨p, T, x⟩ ∉ votes

variable {ids : List Str} {votes : List Ballot} {id : Str} {n : Node} {e : Event} {o : Outcome}

section Voter

variable {peers : List Str} {lost lost' : Prop}

/-- A node that grants a request in its own term has no vote, or has voted for the candidate. -/
theorem votedFor_of_grants {req : VoteRequest} (heq : n.st.currentTerm = req.term)
    (hgrant : (n.st.observeTerm req.term).grants req) :
    n.st.votedFor = [] ∨ n.st.votedFor = req.candidateID := by
  rw [State.observeTerm, if_neg (by omega)] at hgrant
  exact hgrant.1

/-- A vote that is granted with care is the only one of its term. -/
theorem unique_of_votesFor {req : VoteRequest} (h : Polled lost votes id n.st.office)
    (hterm : n.st.currentTerm ≤ req.term) (hgrant : (n.st.observeTerm req.term).grants req)
    (hvotes : n.votesFor lost req) (y : Str) (hy : ⟨id, req.term, y⟩ ∈ votes) :
    y = req.candidateID := by
  have heq : n.st.currentTerm = req.term := Nat.le_antisymm hterm (h.past _ y hy).1
  have hcur : ⟨id, n.st.office.term, y⟩ ∈ votes := by
    rw [show n.st.office.term = req.term from heq]
    exact hy
  have hknown : ¬ lost := ((hvotes hterm hgrant).2 heq).1
  have hvote : n.st.votedFor = y := (h.current y hcur).resolve_right hknown
  rcases votedFor_of_grants heq hgrant with hnone | hsame
  · exact absurd (hvote.symm.trans hnone) (h.past _ y hcur).2
  · exact hvote.symm.trans hsame

/-- Events that keep the term never lower it. -/
theorem term_le_of_turn (hturn : Turn id peers n e o) (hkeeps : n.keepsTerm e) :
    n.st.currentTerm ≤ o.node.st.currentTerm := by
  change n.st.office.term ≤ o.node.st.office.term
  cases hturn with
  | keep office | stand _ _ _ office | voteSelf _ _ _ office | elect _ _ _ _ _ office =>
    exact (congrArg Office.term office).ge
  | campaign office =>
    have hterm : n.st.office.campaigning.term = n.st.office.term + 1 := Nat.mod_eq_of_lt hkeeps
    rw [office, hterm]
    exact Nat.le_succ _
  | follow src req hterm office => rw [office]; exact hterm
  | observe src election req hterm office => rw [office]; exact hterm.le
  | vote src election req hterm _ office =>
    rw [office]
    exact hterm.trans (observeTerm_term hterm).ge
  | heed p asked answered hterms hlt office =>
    rw [office]
    exact le_of_keepsTerm hkeeps hterms hlt

/-- The votes given before an event that stays in the term: what it forgets is `lost`. -/
theorem Voter.same (h : Voter lost votes id n)
    (hterm : o.node.st.currentTerm = n.st.currentTerm) (hlost : lost ∨ n.forgets o.node → lost') :
    Polled lost' votes id o.node.st.office := by
  refine h.polled.sameTerm hterm fun x hx => ?_
  rcases h.polled.current x hx with hvote | hl
  · by_cases hsame : o.node.st.votedFor = n.st.votedFor
    · exact .inl (hsame.trans hvote)
    · have hsome : n.st.votedFor ≠ [] := fun h0 => (h.polled.past _ x hx).2 (hvote.symm.trans h0)
      have hphase : n.phase ≠ .started n.st.currentTerm := fun hp => (h.started _ hp).2 x hx
      exact .inr (hlost (.inr ⟨hsome, hsame, hphase⟩))
  · exact .inr (hlost (.inl hl))

theorem Polled.turn (hid : id ≠ []) (h : Voter lost votes id n) (hturn : Turn id peers n e o)
    (hkeeps : n.keepsVote lost e)
    (hlost : o.node.st.currentTerm = n.st.currentTerm → lost ∨ n.forgets o.node → lost') :
    Polled lost' (votes ++ o.votes) id o.node.st.office := by
  have hle := term_le_of_turn hturn (keepsTerm_of_keepsVote hkeeps)
  have hold : Polled lost' votes id o.node.st.office := by
    rcases Nat.lt_or_eq_of_le hle with hlt | heq
    · exact h.polled.newTerm hlt
    · exact h.same heq.symm (hlost heq.symm)
  cases hturn with
  | voteSelf term phase after office hvotes =>
    rw [hvotes]
    obtain ⟨hpast, hnone⟩ := h.started term phase
    refine hold.cast (hpast.trans hle) hid (fun y hy => absurd hy (hnone y)) fun _ => ?_
    exact congrArg Office.votedFor office
  | vote src election req hterm hgrant office hvotes =>
    rw [hvotes]
    have hT : o.node.st.office.term = req.term :=
      (congrArg Office.term office).trans (observeTerm_term hterm)
    refine hold.cast hT.ge (hkeeps hterm hgrant).1
      (unique_of_votesFor h.polled hterm hgrant hkeeps) fun _ => ?_
    exact congrArg Office.votedFor office
  | keep _ hvotes | stand _ _ _ _ hvotes | campaign _ hvotes | follow _ _ _ _ hvotes
  | observe _ _ _ _ _ hvotes | heed _ _ _ _ _ _ hvotes | elect _ _ _ _ _ _ hvotes =>
    rw [hvotes, List.append_nil]
    exact hold

theorem Voter.move (hid : id ≠ []) (h : Voter lost votes id n) (hmove : Move id peers n e o)
    (hkeeps : n.keepsVote lost e)
    (hlost : o.node.st.currentTerm = n.st.currentTerm → lost ∨ n.forgets o.node → lost') :
    Voter lost' (votes ++ o.votes) id o.node := by
  have hturn := turn_of_move hmove
  refine ⟨Polled.turn hid h hturn hkeeps hlost, fun T hT => ?_⟩
  have hle := term_le_of_turn hturn (keepsTerm_of_keepsVote hkeeps)
  cases shift_of_move hmove with
  | stay phase =>
    obtain ⟨hpast, hnone⟩ := h.started T (phase ▸ hT)
    refine ⟨hpast.trans hle, fun x hx => ?_⟩
    rcases List.mem_append.mp hx with hx | hx
    · exact hnone x hx
    · -- the only vote that could be in this term is one that the condition rules out
      cases hturn with
      | voteSelf _ _ after => exact absurd (after.symm.trans hT) (by simp)
      | vote src election req hterm hgrant _ hvotes =>
        rw [hvotes, List.mem_singleton, Ballot.mk.injEq] at hx
        obtain ⟨-, rfl, -⟩ := hx
        have hsame := (hkeeps hterm hgrant).2 (Nat.le_antisymm hterm hpast)
        exact hsame.2 (phase ▸ hT)
      | keep _ hvotes | stand _ _ _ _ hvotes | campaign _ hvotes | follow _ _ _ _ hvotes
      | observe _ _ _ _ _ hvotes | heed _ _ _ _ _ _ hvotes | elect _ _ _ _ _ _ hvotes =>
        rw [hvotes] at hx
        exact absurd hx List.not_mem_nil
  | start office phase =>
    obtain rfl := Phase.started.inj (phase.symm.trans hT)
    have hnew : o.node.st.currentTerm = n.st.currentTerm + 1 :=
      (congrArg Office.term office).trans (Nat.mod_eq_of_lt hkeeps)
    have hvotes : o.votes = [] := by cases hturn <;> assumption
    refine ⟨le_rfl, fun x hx => ?_⟩
    rw [hvotes, List.append_nil] at hx
    have hpast : o.node.st.currentTerm ≤ n.st.currentTerm := (h.polled.past _ x hx).1
    omega
  | rest phase => exact (show (Phase.started T).resting from hT ▸ phase).elim
  | wait _ _ phase | miss _ _ _ _ _ _ phase | count _ _ _ _ _ _ _ _ _ _ phase =>
    exact absurd (phase.symm.trans hT) (by simp)

theorem Voter.new (lost : Prop) (p : Str) : Voter lost [] p newNode where
  polled :=
    { past := fun _ _ h => absurd h List.not_mem_nil
      once := fun _ _ _ h => absurd h List.not_mem_nil
      current := fun _ h => absurd h List.not_mem_nil }
  started T h := absurd h (by simp [newNode])

theorem Voter.of_other {lost : Prop} {p : Str} (h : Voter lost votes p n) {new : List Ballot}
    (hnew : ∀ b ∈ new, b.voter ≠ p) : Voter lost (votes ++ new) p n where
  polled := h.polled.of_other hnew
  started T hT := ⟨(h.started T hT).1, fun x hx =>
    (h.started T hT).2 x ((List.mem_append.mp hx).resolve_right fun hn => hnew _ hn rfl)⟩

theorem voter_of_votes (hmove : Move id peers n e o) {b : Ballot} (hb : b ∈ o.votes) :
    b.voter = id := by
  cases turn_of_move hmove with
  | voteSelf _ _ _ _ hvotes | vote _ _ _ _ _ _ hvotes =>
    rw [hvotes, List.mem_singleton] at hb
    rw [hb]
  | keep _ hvotes | stand _ _ _ _ hvotes | campaign _ hvotes | follow _ _ _ _ hvotes
  | observe _ _ _ _ _ hvotes | heed _ _ _ _ _ _ hvotes | elect _ _ _ _ _ _ hvotes =>
    rw [hvotes] at hb
    exact absurd hb List.not_mem_nil

end Voter

/-! ## 3. A node on its own -/

/-- A node, the votes it has given, and whether it has forgotten a vote of its current term. -/
structure Solo where
  node : Node
  votes : List Ballot
  forgot : Bool

def newSolo : Solo := ⟨newNode, [], false⟩

/-- In a new term there is nothing to forget. -/
def Solo.forgotAfter (s : Solo) (n' : Node) : Bool :=
  n'.st.currentTerm = s.node.st.currentTerm ∧ (s.forgot ∨ s.node.forgets n')

def Solo.step (id : Str) (peers : List Str) (s : Solo) (e : Event) : Option Solo :=
  (Node.step id peers s.node e).map fun o => ⟨o.node, s.votes ++ o.votes, s.forgotAfter o.node⟩

variable {id : Str} {peers : List Str} {n : Node} {e : Event} {o : Outcome}

theorem Solo.step_eq_some {s s' : Solo} : Solo.step id peers s e = some s' ↔
    ∃ o, Node.step id peers s.node e = some o ∧
      s' = ⟨o.node, s.votes ++ o.votes, s.forgotAfter o.node⟩ := by
  rw [Solo.step, Option.map_eq_some_iff]
  exact exists_congr fun o => and_congr_right fun _ => eq_comm

/-- What a cluster run shows of the node `id`. -/
structure SeenAt (id : Str) (c : Cluster) (s : Solo) : Prop where
  node : s.node = c.nodes id
  votes : s.votes = c.votes.filter fun b => b.voter = id

theorem filter_votes_of_move (hmove : Move id peers n e o) (p : Str) :
    (o.votes.filter fun b => b.voter = p) = if p = id then o.votes else [] := by
  split
  · rename_i hp
    exact List.filter_eq_self.mpr fun b hb =>
      decide_eq_true ((voter_of_votes hmove hb).trans hp.symm)
  · rename_i hp
    refine List.filter_eq_nil_iff.mpr fun b hb => ?_
    rw [decide_eq_true_iff, voter_of_votes hmove hb]
    exact fun h => hp h.symm

/-- **A node of a cluster is a node on its own.** -/
theorem reach_seenAt {ids : List Str} {c : Cluster}
    (hrun : Lts.Reach (Cluster.step ids) newCluster c) (p : Str) :
    ∃ s, Lts.Reach (Solo.step p (peersOf ids p)) newSolo s ∧ SeenAt p c s := by
  refine hrun.invariant (P := fun c => ∃ s, Lts.Reach _ newSolo s ∧ SeenAt p c s)
    ⟨newSolo, .refl _, rfl, rfl⟩ ?_
  rintro c a c' ⟨s, hreach, hseen⟩ - hstep
  obtain ⟨-, -, o, ho, rfl⟩ := Cluster.step_eq_some.mp hstep
  have hvotes := filter_votes_of_move (move_of_step ho) p
  by_cases hp : p = a.node
  · subst hp
    rw [← hseen.node] at ho
    refine ⟨_, hreach.tail a.event trivial (Solo.step_eq_some.mpr ⟨o, ho, rfl⟩), ?_, ?_⟩
    · exact (c.put_nodes_self _ o).symm
    · rw [if_pos rfl] at hvotes
      change s.votes ++ o.votes = (c.votes ++ o.votes).filter _
      rw [List.filter_append, hvotes, hseen.votes]
  · refine ⟨s, hreach, hseen.node.trans (c.put_nodes_ne o hp).symm, ?_⟩
    rw [if_neg hp] at hvotes
    change s.votes = (c.votes ++ o.votes).filter _
    rw [List.filter_append, hvotes, List.append_nil, hseen.votes]

/-! ## 4. Clusters of three -/

def n1 : Str := "n1".toList
def n2 : Str := "n2".toList
def n3 : Str := "n3".toList

/-- A cluster of three. -/
def trio : List Str := [n1, n2, n3]

/-- A node times out and stands for election. -/
def campaignOf (p : Str) : List Action :=
  [⟨p, .dispatch⟩, ⟨p, .electionTimeout⟩, ⟨p, .dispatch⟩, ⟨p, .becomeCandidate⟩, ⟨p, .voteForSelf⟩]

/-- `p` asks `q` for its vote in its first election, with an empty log, and gets it. -/
def winVote (p q : Str) : List Action :=
  buildVote p q 0 ⟨1, p, 0, 0⟩ ++ [⟨q, .receive (.voteReq p q 0 ⟨1, p, 0, 0⟩)⟩,
    ⟨p, .receive (.voteResp q p 0 ⟨1, p, 0, 0⟩ ⟨1, true⟩)⟩]

/-- `p` stands in term 1 and wins with the vote of `q`; its request to `r` fails. -/
def winElection (p q r : Str) : List Action :=
  campaignOf p ++ winVote p q ++ [⟨p, .voteFailed r⟩, ⟨p, .tally⟩]

/-- The leader `p` of term 1 sends a heartbeat to `q`; no log has an entry yet. -/
def heartbeat (p q : Str) : List Action :=
  [⟨p, .dispatch⟩, ⟨p, .sendHeartbeats⟩] ++ buildAppend p q ⟨1, p, 0, 0, [], 0⟩ ++
    [⟨q, .receive (.appendReq p q ⟨1, p, 0, 0, [], 0⟩)⟩]

/-- An election times out and the candidate stands again. -/
def standAgain (p : Str) : List Action :=
  [⟨p, .electionTimeout⟩, ⟨p, .dispatch⟩, ⟨p, .becomeCandidate⟩, ⟨p, .voteForSelf⟩]

/-! ## 5. Terms -/

theorem succ_mod_lt {t : Nat} (h : 2 ^ 64 ≤ t + 1) : (t + 1) % 2 ^ 64 < t := by
  rcases Nat.lt_or_eq_of_le h with hlt | heq
  · exact (Nat.mod_lt _ (Nat.two_pow_pos 64)).trans_le (Nat.le_of_lt_succ hlt)
  · rw [← heq, Nat.mod_self]
    omega

/-- The term after an event is not smaller exactly if the event keeps the term. -/
theorem term_le_iff_keepsTerm (hmove : Move id peers n e o) :
    n.st.currentTerm ≤ o.node.st.currentTerm ↔ n.keepsTerm e := by
  refine ⟨fun hle => ?_, term_le_of_turn (turn_of_move hmove)⟩
  cases hmove with
  | campaign =>
    by_contra hwrap
    exact absurd hle (Nat.not_le.mpr (succ_mod_lt (Nat.not_lt.mp hwrap)))
  | voteResp src election req resp =>
    intro hlt
    rw [Node.silent, voteReply_st, if_pos hlt] at hle
    exact hle
  | appendResp src req resp =>
    intro hlt
    rw [Node.silent, Node.appendReply, if_pos hlt] at hle
    exact hle
  | read task next hread => cases hread <;> trivial
  | _ => trivial

/-- **When terms go back.**  Whatever events happen, in whatever order, the term never decreases if
and only if no event is a `BecomeCandidate` at the largest term and none is an answer that is newer
than its request but older than the node. -/
theorem terms_never_go_back_iff (id : Str) (peers : List Str) (events : List Event) :
    ((Lts.states (Solo.step id peers) newSolo events).map
        fun s => s.node.st.currentTerm).Pairwise (· ≤ ·) ↔
      Lts.Meets (Solo.step id peers) (fun s e => s.node.keepsTerm e) newSolo events := by
  rw [← List.isChain_iff_pairwise, List.isChain_map]
  refine Lts.isChain_states_iff (fun s e s' hstep => ?_) events newSolo
  obtain ⟨o, ho, rfl⟩ := Solo.step_eq_some.mp hstep
  exact term_le_iff_keepsTerm (move_of_step ho)

/-- `n1` asks for a vote in term 1, `n2` answers from term 2, and `n1` has gone on to term 3. -/
def outrunAnswer : List Action :=
  campaignOf n1 ++ buildVote n1 n2 0 ⟨1, n1, 0, 0⟩ ++ campaignOf n2 ++ standAgain n2 ++
    [⟨n2, .receive (.voteReq n1 n2 0 ⟨1, n1, 0, 0⟩)⟩] ++ standAgain n1 ++ standAgain n1

/-- **A late answer takes the term back**, from 3 to 2. -/
theorem term_goes_back :
    ∃ c c', Lts.Reach (Cluster.step trio) newCluster c ∧
      Cluster.step trio c ⟨n1, .receive (.voteResp n2 n1 0 ⟨1, n1, 0, 0⟩ ⟨2, false⟩)⟩ = some c' ∧
      (c.nodes n1).st.currentTerm = 3 ∧ (c'.nodes n1).st.currentTerm = 2 := by
  obtain ⟨c, hrun, hbefore, hafter⟩ : ∃ c, Lts.Reach (Cluster.step trio) newCluster c ∧
      (c.nodes n1).st.currentTerm = 3 ∧
      (Cluster.step trio c ⟨n1, .receive (.voteResp n2 n1 0 ⟨1, n1, 0, 0⟩ ⟨2, false⟩)⟩).any
        (fun c' => (c'.nodes n1).st.currentTerm = 2) = true :=
    Lts.exists_reach outrunAnswer (by decide +kernel)
  obtain ⟨c', hstep, hfact⟩ := (Option.any_eq_true _ _).mp hafter
  exact ⟨c, c', hrun, hstep, hbefore, of_decide_eq_true hfact⟩

/-! ## 6. Votes -/

/-- **One vote per term**, in every run in which the term does not go back and each request that is
granted in the current term finds no vote of the term forgotten. -/
theorem one_vote_per_term (hid : id ≠ []) {s : Solo}
    (hrun : Lts.Run (Solo.step id peers) (fun s e => s.node.keepsVote s.forgot e) newSolo s)
    {T : Nat} {x y : Str} (hx : ⟨id, T, x⟩ ∈ s.votes) (hy : ⟨id, T, y⟩ ∈ s.votes) : x = y := by
  have hvoter : Voter s.forgot s.votes id s.node := by
    refine hrun.invariant (P := fun s => Voter s.forgot s.votes id s.node) (.new _ id)
      fun s e s' h hkeeps hstep => ?_
    obtain ⟨o, ho, rfl⟩ := Solo.step_eq_some.mp hstep
    refine h.move hid (move_of_step ho) hkeeps fun hterm hlost => ?_
    exact decide_eq_true ⟨hterm, hlost⟩
  exact hvoter.polled.once T x y hx hy

/-- `n3` votes for `n1` in term 1, twice, follows it, and votes for `n2` in term 2. -/
def twoTerms : List Event :=
  [.receive (.voteReq n1 n3 0 ⟨1, n1, 0, 0⟩), .receive (.voteReq n1 n3 0 ⟨1, n1, 0, 0⟩),
    .receive (.appendReq n1 n3 ⟨1, n1, 0, 0, [], 0⟩), .receive (.voteReq n2 n3 0 ⟨2, n2, 0, 0⟩)]

theorem one_vote_per_term_twoTerms :
    ∃ s, Lts.Run (Solo.step n3 [n1, n2]) (fun s e => s.node.keepsVote s.forgot e) newSolo s ∧
      ⟨n3, 1, n1⟩ ∈ s.votes ∧ ⟨n3, 2, n2⟩ ∈ s.votes ∧ ∀ y, ⟨n3, 1, y⟩ ∈ s.votes → n1 = y := by
  obtain ⟨s, hrun, hfirst, hsecond⟩ : ∃ s,
      Lts.Run (Solo.step n3 [n1, n2]) (fun s e => s.node.keepsVote s.forgot e) newSolo s ∧
      ⟨n3, 1, n1⟩ ∈ s.votes ∧ ⟨n3, 2, n2⟩ ∈ s.votes :=
    Lts.exists_run twoTerms (by decide +kernel)
  exact ⟨s, hrun, hfirst, hsecond, fun y hy => one_vote_per_term (by decide) hrun hfirst hy⟩

/-- **Two votes in one term.**  `n3` votes for `n1` in term 1, hears its heartbeat, and votes for
`n2` in term 1. -/
theorem votes_twice_after_heartbeat :
    ∃ c, Lts.Reach (Cluster.step trio) newCluster c ∧
      ⟨n3, 1, n1⟩ ∈ c.votes ∧ ⟨n3, 1, n2⟩ ∈ c.votes ∧ n1 ≠ n2 :=
  Lts.exists_reach (winElection n1 n3 n2 ++ heartbeat n1 n3 ++ campaignOf n2 ++
    winVote n2 n3) (by decide +kernel)

end SkyLock.Raft
