/-
# An undisturbed election

Safety says what elections never do (`Election.lean`); this is what they achieve.  A node stands,
the other nodes are asked one after the other, each answers or its request fails, and the votes are
counted.  Nothing else happens in between.  Then the outcome is decided by the state the election
starts in: the node becomes leader exactly if it and the nodes that answer and support it are more
than half of the cluster (`election_decided`).

A node supports the candidate if it is in an earlier term or has not voted for another in this one,
and its log is not more up to date.  Nodes that are further than the term of the election are left
out here: one of those turns the candidate into a follower, without stopping the count.
-/
import SkyLock.Raft.Calls
import SkyLock.Raft.Election

namespace SkyLock.Raft

open Lts (Drives)

/-! ## 1. The schedule -/

/-- The request of a node that stands for election now. -/
def candidacy (c : Cluster) (p : Str) : VoteRequest :=
  (c.nodes p).st.voteRequest p (((c.nodes p).st.currentTerm + 1) % 2 ^ 64)

/-- What the node `q` makes of it. -/
def verdict (c : Cluster) (p q : Str) : State × VoteResponse :=
  (c.nodes q).st.handleRequestVote (candidacy c p)

/-- One peer is asked: the request is built, handled and answered, or it fails. -/
def ask (c : Cluster) (p : Str) (answers : Str → Bool) (q : Str) : List Action :=
  let election := (c.nodes p).elections
  let req := candidacy c p
  if answers q then
    buildVote p q election req ++
      [⟨q, .receive (.voteReq p q election req)⟩,
        ⟨p, .receive (.voteResp q p election req (verdict c p q).2)⟩]
  else [⟨p, .voteFailed q⟩]

/-- The whole election. -/
def stand (ids : List Str) (c : Cluster) (p : Str) (answers : Str → Bool) : List Action :=
  [⟨p, .becomeCandidate⟩, ⟨p, .voteForSelf⟩] ++ (peersOf ids p).flatMap (ask c p answers) ++
    [⟨p, .tally⟩]

def Supports (c : Cluster) (p q : Str) : Prop :=
  ((c.nodes q).st.currentTerm < (candidacy c p).term ∨ (c.nodes q).st.votedFor = [] ∨
      (c.nodes q).st.votedFor = p) ∧
    (c.nodes q).st.upToDate (candidacy c p)

instance (c : Cluster) (p q : Str) : Decidable (Supports c p q) :=
  inferInstanceAs (Decidable (_ ∧ _))

/-! ## 2. One vote -/

section Vote

variable {s : State} {req : VoteRequest}

/-- A node that is not further than the election answers in its term. -/
theorem term_of_vote (h : s.currentTerm ≤ req.term) :
    (s.handleRequestVote req).2.term = req.term := by
  have hobserve : (s.observeTerm req.term).currentTerm = req.term := by
    unfold State.observeTerm
    split
    · rfl
    · omega
  rw [State.handleRequestVote, if_neg (Nat.not_lt.mpr h)]
  dsimp only
  split
  · exact hobserve
  · exact hobserve

theorem grants_observeTerm :
    (s.observeTerm req.term).grants req ↔
      (s.currentTerm < req.term ∨ s.votedFor = [] ∨ s.votedFor = req.candidateID) ∧
        s.upToDate req := by
  unfold State.observeTerm
  split
  · rename_i hlt
    exact ⟨fun hg => ⟨.inl hlt, hg.2⟩, fun hs => ⟨.inl rfl, hs.2⟩⟩
  · rename_i hnot
    exact and_congr_left' (or_iff_right hnot).symm

end Vote

theorem granted_iff_supports {c : Cluster} {p q : Str}
    (h : (c.nodes q).st.currentTerm ≤ (candidacy c p).term) :
    (verdict c p q).2.voteGranted = true ↔ Supports c p q := by
  rw [verdict, State.granted_iff, and_iff_right h]
  exact grants_observeTerm

/-! ## 3. The poll -/

/-- The candidate, with the votes so far and the peers that still have to be asked. -/
def candidate (n : Node) (p : Str) (votes : Nat) (pending : List Str) : Node :=
  { n with
    st := { n.st.becomeCandidate with votedFor := p }
    phase := .waiting n.elections n.st.becomeCandidate.currentTerm votes pending
    elections := n.elections + 1 }

section Poll

variable (ids : List Str) (c₀ : Cluster) (p : Str) (answers : Str → Bool)

/-- Does the request to `q` bring a vote? -/
def backs (q : Str) : Bool := answers q && Supports c₀ p q

/-- The peer `q` after it has been asked. -/
def asked (q : Str) : Node :=
  if answers q then (c₀.nodes q).withState (verdict c₀ p q).1 else c₀.nodes q

/-- Where the cluster is when the peers in `rest` have not been asked yet. -/
structure Polling (rest : List Str) (c : Cluster) : Prop where
  standing : ∃ votes, votes + rest.countP (backs c₀ p answers) =
      (peersOf ids p).countP (backs c₀ p answers) + 1 ∧
    c.nodes p = candidate (c₀.nodes p) p votes rest
  tasks : ∀ q ∈ rest, .voteTask p q (c₀.nodes p).elections (candidacy c₀ p).term none ∈ c.net
  sub : ∀ q ∈ rest, q ∈ peersOf ids p
  nodup : rest.Nodup
  pending : ∀ q ∈ rest, c.nodes q = c₀.nodes q
  done : ∀ q ∈ peersOf ids p, q ∉ rest → c.nodes q = asked c₀ p answers q

end Poll

variable {ids : List Str} {c₀ c c' : Cluster} {p q : Str} {answers : Str → Bool} {rest : List Str}
  {votes : Nat}

/-- Polling one peer, from its effect on the two nodes involved. -/
theorem Polling.of_effect (h : Polling ids c₀ p answers (q :: rest) c)
    (hstanding : c.nodes p = candidate (c₀.nodes p) p votes (q :: rest))
    (hp : c'.nodes p = candidate (c₀.nodes p) p
      (if backs c₀ p answers q then votes + 1 else votes) rest)
    (hq : c'.nodes q = asked c₀ p answers q)
    (hother : ∀ r, r ≠ p → r ≠ q → c'.nodes r = c.nodes r) (hnet : c.net ⊆ c'.net) :
    Polling ids c₀ p answers rest c' := by
  obtain ⟨votes', hsum, hstanding'⟩ := h.standing
  obtain rfl : votes' = votes := by
    have hphase := congrArg Node.phase (hstanding'.symm.trans hstanding)
    exact (Phase.waiting.inj hphase).2.2.1
  have hnot : q ∉ rest := (List.nodup_cons.mp h.nodup).1
  refine ⟨⟨_, ?_, hp⟩, fun r hr => hnet (h.tasks r (List.mem_cons_of_mem q hr)),
    fun r hr => h.sub r (List.mem_cons_of_mem q hr), (List.nodup_cons.mp h.nodup).2,
    fun r hr => ?_, fun r hr hnr => ?_⟩
  · rw [List.countP_cons] at hsum
    split
    · rename_i hback
      rw [if_pos hback] at hsum
      omega
    · rename_i hback
      rw [if_neg hback] at hsum
      omega
  · have hne : r ≠ p := (mem_peersOf.mp (h.sub r (List.mem_cons_of_mem q hr))).2
    rw [hother r hne fun heq => hnot (heq ▸ hr)]
    exact h.pending r (List.mem_cons_of_mem q hr)
  · by_cases heq : r = q
    · rw [heq]
      exact hq
    · rw [hother r (mem_peersOf.mp hr).2 heq]
      refine h.done r hr fun hmem => ?_
      rcases List.mem_cons.mp hmem with hrq | hrest
      · exact heq hrq
      · exact hnr hrest

/-- What counting the answer of the first pending peer leaves. -/
theorem countVote_candidate (n : Node) (p q : Str) (votes : Nat) (rest : List Str)
    (granted : Bool) :
    (candidate n p votes (q :: rest)).countVote q granted =
      candidate n p (if granted then votes + 1 else votes) rest := by
  simp [candidate, Node.countVote, Node.goto]

/-- An answer in the election's term is counted. -/
theorem voteReply_candidate (n : Node) {req : VoteRequest} {resp : VoteResponse}
    (hterm : resp.term ≤ req.term) :
    (candidate n p votes (q :: rest)).voteReply n.elections q req resp =
      candidate n p (if resp.voteGranted then votes + 1 else votes) rest := by
  have hawaits : (candidate n p votes (q :: rest)).awaits n.elections q = true := by
    simp [candidate, Node.awaits]
  rw [Node.voteReply, if_neg (Nat.not_lt.mpr hterm), if_pos hawaits, countVote_candidate]
  simp [hterm]

/-- A request that is answered: it is built, handled and its answer counted. -/
theorem polling_answered (hp : p ∈ ids) (hanswers : answers q = true)
    (hterm : (c₀.nodes q).st.currentTerm ≤ (candidacy c₀ p).term)
    (h : Polling ids c₀ p answers (q :: rest) c) :
    ∃ c', Lts.exec (Cluster.step ids) c (ask c₀ p answers q) = some c' ∧
      Polling ids c₀ p answers rest c' := by
  obtain ⟨votes, -, hstanding⟩ := h.standing
  obtain ⟨hq, hqp⟩ := mem_peersOf.mp (h.sub q List.mem_cons_self)
  have hpending := h.pending q List.mem_cons_self
  let election := (c₀.nodes p).elections
  let req := candidacy c₀ p
  have hreq : (c.nodes p).st.voteRequest p req.term = req := by
    rw [hstanding]
    rfl
  -- the cluster with the request, and then with the answer, in the net
  obtain ⟨c₁, hbuild, hc₁⟩ := buildVote_drives hp election req.term c
    ⟨rfl, fun _ hx => hx, h.tasks q List.mem_cons_self⟩
  rw [hreq] at hbuild hc₁
  let c₂ := c₁.put q ⟨(c₀.nodes q).withState (verdict c₀ p q).1,
    [.voteResp q p election req (verdict c₀ p q).2],
    if (verdict c₀ p q).2.voteGranted then [⟨q, req.term, req.candidateID⟩] else []⟩
  have hhandle : Cluster.step ids c₁ ⟨q, .receive (.voteReq p q election req)⟩ = some c₂ := by
    refine Cluster.step_eq_some.mpr ⟨hq, hc₁.task, _, ?_, rfl⟩
    rw [hc₁.nodes, hpending]
    exact if_pos rfl
  let c₃ := c₂.put p (candidate (c₀.nodes p) p
    (if backs c₀ p answers q then votes + 1 else votes) rest).silent
  have hcount : Cluster.step ids c₂ ⟨p, .receive (.voteResp q p election req (verdict c₀ p q).2)⟩ =
      some c₃ := by
    refine Cluster.step_eq_some.mpr
      ⟨hp, List.mem_append_right _ (List.mem_singleton.mpr rfl), _, ?_, rfl⟩
    have hself : c₂.nodes p = candidate (c₀.nodes p) p votes (q :: rest) := by
      rw [c₁.put_nodes_ne _ hqp.symm, hc₁.nodes, hstanding]
    have hback : backs c₀ p answers q = (verdict c₀ p q).2.voteGranted := by
      rw [Bool.eq_iff_iff, granted_iff_supports hterm]
      simp [backs, hanswers]
    rw [hself, hback, Node.step, Node.receive, if_pos rfl]
    exact congrArg (fun n : Node => some n.silent)
      (voteReply_candidate (c₀.nodes p) (term_of_vote hterm).le)
  refine ⟨c₃, ?_, h.of_effect hstanding (c₂.put_nodes_self _ _) ?_ (fun r hr hrq => ?_) ?_⟩
  · rw [ask, if_pos hanswers, Lts.exec_append, hbuild, Option.bind_some,
      Lts.exec_cons_of_step hhandle, Lts.exec_cons_of_step hcount]
    rfl
  · rw [c₂.put_nodes_ne _ hqp, c₁.put_nodes_self, asked, if_pos hanswers]
  · rw [c₂.put_nodes_ne _ hr, c₁.put_nodes_ne _ hrq, hc₁.nodes]
  · exact fun x hx => List.mem_append_left _ (List.mem_append_left _ (hc₁.net hx))

/-- **One request**, answered or failed. -/
theorem polling_ask (hp : p ∈ ids)
    (hterms : ∀ q ∈ peersOf ids p, answers q = true →
      (c₀.nodes q).st.currentTerm ≤ (candidacy c₀ p).term) (q : Str) (rest : List Str) :
    Drives (Cluster.step ids) (Polling ids c₀ p answers (q :: rest)) (ask c₀ p answers q)
      (Polling ids c₀ p answers rest) := by
  intro c h
  by_cases hanswers : answers q = true
  · exact polling_answered hp hanswers (hterms q (h.sub q List.mem_cons_self) hanswers) h
  · obtain ⟨votes, -, hstanding⟩ := h.standing
    obtain ⟨-, hqp⟩ := mem_peersOf.mp (h.sub q List.mem_cons_self)
    let c₁ := c.put p (candidate (c₀.nodes p) p votes rest).silent
    have hstep : Cluster.step ids c ⟨p, .voteFailed q⟩ = some c₁ := by
      refine Cluster.step_eq_some.mpr ⟨hp, trivial, _, ?_, rfl⟩
      rw [hstanding]
      refine (if_pos List.mem_cons_self).trans ?_
      exact congrArg (fun n : Node => some n.silent)
        (countVote_candidate (c₀.nodes p) p q votes rest false)
    have hback : ¬ backs c₀ p answers q = true := by simp [backs, hanswers]
    refine ⟨c₁, ?_, h.of_effect hstanding ?_ ?_
      (fun r hr _ => c.put_nodes_ne _ hr) (List.subset_append_left _ _)⟩
    · rw [ask, if_neg hanswers, Lts.exec_cons_of_step hstep]
      rfl
    · rw [if_neg hback]
      exact c.put_nodes_self _ _
    · rw [c.put_nodes_ne _ hqp, h.pending q List.mem_cons_self, asked, if_neg hanswers]

/-! ## 4. The outcome -/

/-- Standing: from the start of `runCandidate` to the goroutines that ask for votes. -/
theorem polling_start (hnd : ids.Nodup) (hp : p ∈ ids) (hphase : (c₀.nodes p).phase = .campaign) :
    Drives (Cluster.step ids) (· = c₀) [⟨p, .becomeCandidate⟩, ⟨p, .voteForSelf⟩]
      (Polling ids c₀ p answers (peersOf ids p)) := by
  intro c hc
  rw [hc]
  let n := c₀.nodes p
  let c₁ := c₀.put p ((n.withState n.st.becomeCandidate).goto
    (.started n.st.becomeCandidate.currentTerm)).silent
  have hstand : Cluster.step ids c₀ ⟨p, .becomeCandidate⟩ = some c₁ := by
    refine Cluster.step_eq_some.mpr ⟨hp, trivial, _, ?_, rfl⟩
    rw [Node.step, hphase]
  let c₂ := c₁.put p ⟨candidate n p 1 (peersOf ids p),
    (peersOf ids p).map fun q => .voteTask p q n.elections n.st.becomeCandidate.currentTerm none,
    [⟨p, n.st.becomeCandidate.currentTerm, p⟩]⟩
  have hvote : Cluster.step ids c₁ ⟨p, .voteForSelf⟩ = some c₂ := by
    refine Cluster.step_eq_some.mpr ⟨hp, trivial, _, ?_, rfl⟩
    rw [c₀.put_nodes_self]
    rfl
  refine ⟨c₂, ?_, ⟨1, Nat.add_comm _ _, c₁.put_nodes_self _ _⟩, fun q hq => ?_, fun q hq => hq,
    nodup_peersOf hnd p, fun q hq => ?_, fun q hq hnq => absurd hq hnq⟩
  · rw [Lts.exec_cons_of_step hstand, Lts.exec_cons_of_step hvote]
    rfl
  · exact List.mem_append_right _ (List.mem_map.mpr ⟨q, hq, rfl⟩)
  · have hne := (mem_peersOf.mp hq).2
    rw [c₁.put_nodes_ne _ hne, c₀.put_nodes_ne _ hne]

/-- The candidate after the count. -/
def elected (ids : List Str) (c : Cluster) (p : Str) (votes : Nat) : Node :=
  let n := candidate (c.nodes p) p votes []
  if Node.votesNeeded (peersOf ids p) ≤ votes then
    (n.withState (n.st.becomeLeader p (peersOf ids p))).goto .top
  else (n.withState { n.st with state := .follower }).goto .top

/-- **What an undisturbed election leaves**: the candidate with all its votes counted, and each peer
as its own request has left it. -/
theorem stand_drives (hnd : ids.Nodup) (hp : p ∈ ids) (hphase : (c₀.nodes p).phase = .campaign)
    (answers : Str → Bool)
    (hterms : ∀ q ∈ peersOf ids p, answers q = true →
      (c₀.nodes q).st.currentTerm ≤ (candidacy c₀ p).term) :
    Drives (Cluster.step ids) (· = c₀) (stand ids c₀ p answers) fun c =>
      c.nodes p = elected ids c₀ p ((peersOf ids p).countP (backs c₀ p answers) + 1) ∧
        ∀ q ∈ peersOf ids p, c.nodes q = asked c₀ p answers q := by
  have hpoll := Drives.flatMap (polling_ask hp hterms) (peersOf ids p)
  refine ((polling_start hnd hp hphase).append hpoll).append (.single fun c h => ?_)
  obtain ⟨votes, hsum, hstanding⟩ := h.standing
  rw [List.countP_nil, Nat.add_zero] at hsum
  subst hsum
  refine ⟨c.put p (elected ids c₀ p _).silent, ?_, c.put_nodes_self _ _, fun q hq => ?_⟩
  · refine Cluster.step_eq_some.mpr ⟨hp, trivial, _, ?_, rfl⟩
    rw [hstanding, elected]
    dsimp only [Node.step, candidate]
    split <;> rfl
  · rw [c.put_nodes_ne _ (mem_peersOf.mp hq).2]
    exact h.done q hq List.not_mem_nil

/-- **An undisturbed election is decided by the majority.**  A node stands, every peer answers or
its request fails, and no peer that answers is further than the term of the election.  Then the
schedule can be executed, and the node leads the new term afterwards exactly if the peers that
answer and support it, and itself, are more than half of the cluster.  The peers are in the states
that their own requests have put them in. -/
theorem election_decided (hnd : ids.Nodup) (hp : p ∈ ids) (hphase : (c₀.nodes p).phase = .campaign)
    (answers : Str → Bool)
    (hterms : ∀ q ∈ peersOf ids p, answers q = true →
      (c₀.nodes q).st.currentTerm ≤ (candidacy c₀ p).term) :
    ∃ c, Lts.exec (Cluster.step ids) c₀ (stand ids c₀ p answers) = some c ∧
      (c.nodes p).st.currentTerm = (candidacy c₀ p).term ∧
      ((c.nodes p).st.state = .leader ↔
        ids.length < 2 * ((peersOf ids p).countP (fun q => answers q && Supports c₀ p q) + 1)) ∧
      ∀ q ∈ peersOf ids p, (c.nodes q).st =
        if answers q then (verdict c₀ p q).1 else (c₀.nodes q).st := by
  obtain ⟨c, hexec, hself, hpeers⟩ := stand_drives hnd hp hphase answers hterms c₀ rfl
  have hlength := length_peersOf hnd hp
  refine ⟨c, hexec, ?_, ?_, fun q hq => ?_⟩
  · rw [hself, elected]
    dsimp only
    split <;> rfl
  · rw [hself, elected, Node.votesNeeded]
    dsimp only
    change _ ↔ _ < 2 * ((peersOf ids p).countP (backs c₀ p answers) + 1)
    split
    · exact iff_of_true rfl (by omega)
    · refine iff_of_false (fun heq => ?_) (by omega)
      cases heq
  · rw [hpeers q hq, asked]
    split <;> rfl

/-- Of three nodes one stands, and one of the others answers. -/
theorem election_decided_one_answer :
    ∃ c₀ c, Lts.exec (Cluster.step trio) c₀ (stand trio c₀ n1 (· == n3)) = some c ∧
      (c.nodes n1).st.state = .leader := by
  obtain ⟨c₀, -, hphase, hterms, hcount⟩ :
      ∃ c₀, Lts.Reach (Cluster.step trio) newCluster c₀ ∧ (c₀.nodes n1).phase = .campaign ∧
        (∀ q ∈ peersOf trio n1, (q == n3) = true →
          (c₀.nodes q).st.currentTerm ≤ (candidacy c₀ n1).term) ∧
        trio.length < 2 * ((peersOf trio n1).countP (fun q => q == n3 && Supports c₀ n1 q) + 1) :=
    Lts.exists_reach [⟨n1, .dispatch⟩, ⟨n1, .electionTimeout⟩, ⟨n1, .dispatch⟩] (by decide +kernel)
  obtain ⟨c, hexec, -, hlead, -⟩ :=
    election_decided (by decide +kernel) (by decide +kernel) hphase _ hterms
  exact ⟨c₀, c, hexec, hlead.mpr hcount⟩

end SkyLock.Raft
