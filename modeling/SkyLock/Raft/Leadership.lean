/-
# Leaders and the votes behind them

What a candidate counts are votes that were given: each by a different peer, in the term of its
election (`Runner`), and every packet about a vote says what is true of it (`Packet.Ok`).  That much
holds in EVERY run (`Tallied`).

It does not make the leader legitimate.  `runCandidate` captures its term, counts, and then calls
`BecomeLeader`, which leads whatever term the node is in by then (`leads_without_votes`).  A leader
has a majority behind it in its term if each election is won in the term it was for
(`legitimate_leadership`).
-/
import SkyLock.Raft.Voting

namespace SkyLock.Raft

variable {ids : List Str} {votes : List Ballot} {id : Str} {n : Node} {e : Event} {o : Outcome}

/-! ## 1. The votes a candidate has counted -/

/-- A candidate has voted for itself, and every other vote it has counted was given by a different
peer whose answer it no longer waits for. -/
structure Runner (votes : List Ballot) (peers : List Str) (p : Str) (n : Node)
    (election T v : Nat) (pending : List Str) : Prop where
  known : election < n.elections
  nodup : pending.Nodup
  asked : ∀ q ∈ pending, q ∈ peers
  own : ⟨p, T, p⟩ ∈ votes
  counted : ∃ S : Finset Str, (∀ q ∈ S, q ∈ peers ∧ q ∉ pending ∧ ⟨q, T, p⟩ ∈ votes) ∧
    v ≤ S.card + 1

section Runner

variable {peers pending : List Str} {p q : Str} {election T v : Nat} {votes' : List Ballot}

theorem Runner.mono (h : Runner votes peers p n election T v pending) (hsub : votes ⊆ votes')
    {n' : Node} (hn : n'.elections = n.elections) :
    Runner votes' peers p n' election T v pending where
  known := hn ▸ h.known
  nodup := h.nodup
  asked := h.asked
  own := hsub h.own
  counted := by
    obtain ⟨S, hS, hv⟩ := h.counted
    exact ⟨S, fun q hq => ⟨(hS q hq).1, (hS q hq).2.1, hsub (hS q hq).2.2⟩, hv⟩

theorem Runner.miss (h : Runner votes peers p n election T v pending) (q : Str) :
    Runner votes peers p n election T v (pending.erase q) where
  known := h.known
  nodup := h.nodup.erase q
  asked r hr := h.asked r (List.mem_of_mem_erase hr)
  own := h.own
  counted := by
    obtain ⟨S, hS, hv⟩ := h.counted
    exact ⟨S, fun r hr =>
      ⟨(hS r hr).1, fun hmem => (hS r hr).2.1 (List.mem_of_mem_erase hmem), (hS r hr).2.2⟩, hv⟩

theorem Runner.count (h : Runner votes peers p n election T v pending) (hq : q ∈ pending)
    (hvote : ⟨q, T, p⟩ ∈ votes) : Runner votes peers p n election T (v + 1) (pending.erase q) where
  known := h.known
  nodup := h.nodup.erase q
  asked r hr := h.asked r (List.mem_of_mem_erase hr)
  own := h.own
  counted := by
    obtain ⟨S, hS, hv⟩ := h.counted
    have hnew : q ∉ S := fun hmem => (hS q hmem).2.1 hq
    refine ⟨insert q S, fun r hr => ?_, ?_⟩
    · rcases Finset.mem_insert.mp hr with rfl | hr
      · exact ⟨h.asked r hq, h.nodup.not_mem_erase, hvote⟩
      · exact ⟨(hS r hr).1, fun hmem => (hS r hr).2.1 (List.mem_of_mem_erase hmem), (hS r hr).2.2⟩
    · rw [Finset.card_insert_of_notMem hnew]
      omega

/-- A candidate that has counted enough votes has a majority behind it, itself included. -/
theorem Runner.majority (hnd : ids.Nodup) (hp : p ∈ ids)
    (h : Runner votes (peersOf ids p) p n election T v pending)
    (henough : Node.votesNeeded (peersOf ids p) ≤ v) :
    ∃ Q : Finset Str, p ∈ Q ∧ Q ⊆ ids.toFinset ∧ ids.length / 2 + 1 ≤ Q.card ∧
      ∀ q ∈ Q, ⟨q, T, p⟩ ∈ votes := by
  obtain ⟨S, hS, hv⟩ := h.counted
  have hself : p ∉ S := fun hmem => (mem_peersOf.mp (hS p hmem).1).2 rfl
  refine ⟨insert p S, Finset.mem_insert_self p S, fun q hq => ?_, ?_, fun q hq => ?_⟩
  · rcases Finset.mem_insert.mp hq with rfl | hq
    · exact List.mem_toFinset.mpr hp
    · exact List.mem_toFinset.mpr (mem_peersOf.mp (hS q hq).1).1
  · rw [Node.votesNeeded, length_peersOf hnd hp] at henough
    rw [Finset.card_insert_of_notMem hself]
    omega
  · rcases Finset.mem_insert.mp hq with rfl | hq
    · exact h.own
    · exact (hS q hq).2.2

end Runner

/-! ## 2. Packets -/

/-- What a request for a vote says about the candidate: it is in the election it belongs to, in
the term it asks for, or no longer in that election. -/
structure Bid (ids : List Str) (c : Cluster) (candidate peer : Str) (election T : Nat) : Prop where
  member : candidate ∈ ids
  other : candidate ≠ peer
  known : election < (c.nodes candidate).elections
  term : ∀ T' v pending, (c.nodes candidate).phase = .waiting election T' v pending → T' = T

def Packet.Ok (ids : List Str) (c : Cluster) : Packet → Prop
  | .voteTask src dst election T _ => Bid ids c src dst election T
  | .voteReq src dst election req => req.candidateID = src ∧ Bid ids c src dst election req.term
  | .voteResp src dst election req resp =>
    req.candidateID = dst ∧ Bid ids c dst src election req.term ∧
      (resp.voteGranted = true → ⟨src, req.term, dst⟩ ∈ c.votes)
  | .appendReq src _ req => req.leaderID = src ∧ src ∈ ids
  | _ => True

section Step

variable {c : Cluster} {peers : List Str} {p : Packet}

theorem Bid.move {candidate peer : Str} {election T : Nat} (h : Bid ids c candidate peer election T)
    (hmove : Move id peers (c.nodes id) e o) : Bid ids (c.put id o) candidate peer election T := by
  by_cases hcand : candidate = id
  · subst hcand
    have hknown := h.known
    have hterm := h.term
    refine ⟨h.member, h.other, ?_, ?_⟩
    · rw [c.put_nodes_self]
      cases shift_of_move hmove with
      | wait _ _ _ elections => omega
      | stay _ elections | rest _ elections | start _ _ elections
      | miss _ _ _ _ _ _ _ elections | count _ _ _ _ _ _ _ _ _ _ _ elections => omega
    · intro T' v pending hphase
      rw [c.put_nodes_self] at hphase
      cases shift_of_move hmove with
      | stay phase => exact hterm T' v pending (phase ▸ hphase)
      | rest phase =>
        exact (show (Phase.waiting election T' v pending).resting from hphase ▸ phase).elim
      | start _ phase => exact absurd (phase.symm.trans hphase) (by simp)
      | wait _ _ phase =>
        -- a new election has a number no packet carries yet
        injection phase.symm.trans hphase with helection
        omega
      | miss _ _ _ _ _ waiting phase =>
        injection phase.symm.trans hphase with helection hT
        exact hterm _ _ _ (helection ▸ hT ▸ waiting)
      | count _ _ _ _ _ _ _ _ _ waiting phase =>
        injection phase.symm.trans hphase with helection hT
        exact hterm _ _ _ (helection ▸ hT ▸ waiting)
  · exact ⟨h.member, h.other, (c.put_nodes_ne o hcand).symm ▸ h.known,
      (c.put_nodes_ne o hcand).symm ▸ h.term⟩

theorem Packet.Ok.move (h : p.Ok ids c) (hmove : Move id peers (c.nodes id) e o) :
    p.Ok ids (c.put id o) := by
  cases p with
  | voteTask => exact Bid.move h hmove
  | voteReq => exact ⟨h.1, h.2.move hmove⟩
  | voteResp => exact ⟨h.1, h.2.1.move hmove, fun hg => List.mem_append_left _ (h.2.2 hg)⟩
  | appendReq => exact h
  | heartbeatTask | appendResp | proposal => trivial

/-- A packet that an event sends is in order if the one it answers was. -/
theorem Packet.Ok.sent (hid : id ∈ ids) (hmove : Move id (peersOf ids id) (c.nodes id) e o)
    (hnet : ∀ q, e = .receive q → q.Ok ids c) (hp : p ∈ o.packets) : p.Ok ids (c.put id o) := by
  cases sent_of_move hmove hp with
  | voteTask peer term hpeer phase =>
    cases hmove with
    | voteForSelf term' hphase =>
      obtain rfl := Phase.started.inj (phase.symm.trans hphase)
      refine ⟨hid, (mem_peersOf.mp hpeer).2.symm, ?_, fun T' v pending h => ?_⟩
      · rw [c.put_nodes_self]
        exact Nat.lt_succ_self _
      · rw [c.put_nodes_self] at h
        injection h with _ hT
        exact hT.symm
  | voteResp src election req =>
    obtain ⟨hcand, hbid⟩ := hnet _ rfl
    refine ⟨hcand, hbid.move hmove, fun hg => ?_⟩
    cases hmove with
    | voteReq =>
      refine List.mem_append_right _ ?_
      rw [if_pos hg, hcand]
      exact List.mem_singleton_self _
    | read _ _ hread => cases hread
  | read task next hread =>
    have hold := hnet _ rfl
    cases hread with
    | lastIndex => exact Bid.move hold hmove
    | lastTerm => exact ⟨rfl, Bid.move hold hmove⟩
    | commitIndex => exact ⟨rfl, hid⟩
    | prevIndex | prevTerm | entries | currentTerm => trivial
  | heartbeatTask | appendResp | proposal => trivial

/-! ## 3. Counting votes -/

/-- What candidates have counted, and what packets say, agrees with the votes that were given.
That needs no condition on the events. -/
structure Tallied (ids : List Str) (c : Cluster) : Prop where
  runner : ∀ p election T v pending, (c.nodes p).phase = .waiting election T v pending →
    Runner c.votes (peersOf ids p) p (c.nodes p) election T v pending
  net : ∀ p ∈ c.net, p.Ok ids c

theorem tallied_newCluster (ids : List Str) : Tallied ids newCluster where
  runner p election T v pending h := absurd h (by simp [newCluster, newNode])
  net p h := absurd h List.not_mem_nil

theorem Tallied.runner_move (hnd : ids.Nodup) (h : Tallied ids c)
    (hmove : Move id (peersOf ids id) (c.nodes id) e o) (hnet : ∀ q, e = .receive q → q ∈ c.net)
    {election T v : Nat} {pending : List Str}
    (hphase : o.node.phase = .waiting election T v pending) :
    Runner (c.votes ++ o.votes) (peersOf ids id) id o.node election T v pending := by
  have hsub : c.votes ⊆ c.votes ++ o.votes := List.subset_append_left _ _
  cases shift_of_move hmove with
  | stay phase elections => exact (h.runner id _ _ _ _ (phase ▸ hphase)).mono hsub elections
  | rest phase => exact (show (Phase.waiting election T v pending).resting from hphase ▸ phase).elim
  | start _ phase => exact absurd (phase.symm.trans hphase) (by simp)
  | wait term started phase elections hvotes =>
    injection phase.symm.trans hphase with h1 h2 h3 h4
    subst h1 h2 h3 h4
    refine ⟨by omega, nodup_peersOf hnd id, fun q hq => hq, ?_, ∅, by simp, by simp⟩
    rw [hvotes]
    exact List.mem_append_right _ (List.mem_singleton_self _)
  | miss _ _ _ _ peer waiting phase elections =>
    injection phase.symm.trans hphase with h1 h2 h3 h4
    subst h1 h2 h3 h4
    exact ((h.runner id _ _ _ _ waiting).miss peer).mono hsub elections
  | count _ _ _ _ peer req resp hpeer hgranted waiting phase elections =>
    injection phase.symm.trans hphase with h1 h2 h3 h4
    subst h1 h2 h3 h4
    obtain ⟨-, hbid, hvote⟩ := h.net _ (hnet _ rfl)
    have hT := hbid.term _ _ _ waiting
    exact ((h.runner id _ _ _ _ waiting).count hpeer (hT ▸ hvote hgranted)).mono hsub elections

/-- The packet of an event that happens has been sent. -/
theorem mem_net_of_available (havail : e.available c.net) (q : Packet) (hq : e = .receive q) :
    q ∈ c.net := by
  rw [hq] at havail
  exact havail

theorem Tallied.step (hnd : ids.Nodup) {c' : Cluster} {a : Action} (h : Tallied ids c)
    (hstep : Cluster.step ids c a = some c') : Tallied ids c' := by
  obtain ⟨hid, havail, o, ho, rfl⟩ := Cluster.step_eq_some.mp hstep
  have hmove := move_of_step ho
  have hnet := mem_net_of_available havail
  refine ⟨fun p election T v pending hphase => ?_, fun p hp => ?_⟩
  · by_cases hp : p = a.node
    · subst hp
      rw [c.put_nodes_self] at hphase ⊢
      exact h.runner_move hnd hmove hnet hphase
    · rw [c.put_nodes_ne o hp] at hphase ⊢
      exact (h.runner p _ _ _ _ hphase).mono (List.subset_append_left _ _) rfl
  · rcases List.mem_append.mp hp with hp | hp
    · exact (h.net p hp).move hmove
    · exact Packet.Ok.sent hid hmove (fun q hq => h.net q (hnet q hq)) hp

/-! ## 4. Legitimate leaders -/

/-- A leader was elected in its term by a majority, itself included. -/
def Legitimate (ids : List Str) (votes : List Ballot) (p : Str) (n : Node) : Prop :=
  n.st.state = .leader → ∃ Q : Finset Str, p ∈ Q ∧ Q ⊆ ids.toFinset ∧
    ids.length / 2 + 1 ≤ Q.card ∧ ∀ q ∈ Q, ⟨q, n.st.currentTerm, p⟩ ∈ votes

/-- If enough votes have been counted, the node is in the term they were given in. -/
def Node.winsTerm (peers : List Str) (n : Node) : Event → Prop
  | .tally =>
    match n.phase with
    | .waiting _ term votes _ => Node.votesNeeded peers ≤ votes → n.st.currentTerm = term
    | _ => True
  | _ => True

instance (peers : List Str) (n : Node) (e : Event) : Decidable (n.winsTerm peers e) := by
  unfold Node.winsTerm
  split
  · split <;> infer_instance
  · infer_instance

/-- **The condition under which leaders are legitimate.** -/
def WinsTerm (ids : List Str) (c : Cluster) (a : Action) : Prop :=
  (c.nodes a.node).winsTerm (peersOf ids a.node) a.event

instance (ids : List Str) (c : Cluster) (a : Action) : Decidable (WinsTerm ids c a) :=
  inferInstanceAs (Decidable (Node.winsTerm _ _ _))

theorem Tallied.legitimate_move (hnd : ids.Nodup) (hid : id ∈ ids) (h : Tallied ids c)
    (hleg : Legitimate ids c.votes id (c.nodes id))
    (hmove : Move id (peersOf ids id) (c.nodes id) e o)
    (hwins : (c.nodes id).winsTerm (peersOf ids id) e) :
    Legitimate ids (c.votes ++ o.votes) id o.node := by
  intro hlead
  obtain ⟨hterm, hr | ⟨rfl, election, T, v, hphase, henough⟩⟩ := leader_of_move hmove hlead
  · obtain ⟨Q, hself, hQ, hcard, hvotes⟩ := hleg hr
    exact ⟨Q, hself, hQ, hcard, fun q hq => hterm ▸ List.mem_append_left _ (hvotes q hq)⟩
  · obtain ⟨Q, hself, hQ, hcard, hvotes⟩ :=
      (h.runner id _ _ _ _ hphase).majority hnd hid henough
    unfold Node.winsTerm at hwins
    rw [hphase] at hwins
    have hT : o.node.st.currentTerm = T := hterm.trans (hwins henough)
    exact ⟨Q, hself, hQ, hcard, fun q hq => hT ▸ List.mem_append_left _ (hvotes q hq)⟩

theorem Tallied.legitimate_step (hnd : ids.Nodup) {c' : Cluster} {a : Action} (h : Tallied ids c)
    (hleg : ∀ p, Legitimate ids c.votes p (c.nodes p)) (hwins : WinsTerm ids c a)
    (hstep : Cluster.step ids c a = some c') (p : Str) :
    Legitimate ids c'.votes p (c'.nodes p) := by
  obtain ⟨hid, -, o, ho, rfl⟩ := Cluster.step_eq_some.mp hstep
  refine c.forall_put (P := Legitimate ids (c.votes ++ o.votes)) ?_ (fun p _ hlead => ?_) p
  · exact h.legitimate_move hnd hid (hleg _) (move_of_step ho) hwins
  · obtain ⟨Q, hself, hQ, hcard, hvotes⟩ := hleg p hlead
    exact ⟨Q, hself, hQ, hcard, fun q hq => List.mem_append_left _ (hvotes q hq)⟩

/-- Only the nodes of the cluster ever do anything. -/
theorem mem_of_leader {ok : Cluster → Action → Prop}
    (hrun : Lts.Run (Cluster.step ids) ok newCluster c) {p : Str}
    (hlead : (c.nodes p).st.state = .leader) : p ∈ ids := by
  by_contra hp
  have hnew : (c.nodes p).st.state = .follower := by
    refine hrun.invariant (P := fun c => (c.nodes p).st.state = .follower) rfl
      fun c a c' h _ hstep => ?_
    obtain ⟨hid, -, o, -, rfl⟩ := Cluster.step_eq_some.mp hstep
    have hother : p ≠ a.node := fun heq => hp (heq ▸ hid)
    rw [c.put_nodes_ne o hother]
    exact h
  exact absurd (hnew.symm.trans hlead) (by simp)

/-- **Legitimate leadership**, in every run in which elections are won in the term they were for:
whoever leads a term has been given the votes of that many different nodes in it, its own among
them. -/
theorem legitimate_leadership (hnd : ids.Nodup)
    (hrun : Lts.Run (Cluster.step ids) (WinsTerm ids) newCluster c) {p : Str}
    (hlead : (c.nodes p).st.state = .leader) :
    ∃ Q : Finset Str, p ∈ Q ∧ Q ⊆ ids.toFinset ∧ Node.votesNeeded (peersOf ids p) ≤ Q.card ∧
      ∀ q ∈ Q, ⟨q, (c.nodes p).st.currentTerm, p⟩ ∈ c.votes := by
  have hinv : Tallied ids c ∧ ∀ p, Legitimate ids c.votes p (c.nodes p) := by
    refine hrun.invariant (P := fun c => Tallied ids c ∧ ∀ p, Legitimate ids c.votes p (c.nodes p))
      ⟨tallied_newCluster ids, fun p h => absurd h (by simp [newCluster, newNode, newState])⟩ ?_
    rintro c a c' ⟨htallied, hleg⟩ hwins hstep
    exact ⟨htallied.step hnd hstep, htallied.legitimate_step hnd hleg hwins hstep⟩
  obtain ⟨Q, hself, hQ, hcard, hvotes⟩ := hinv.2 p hlead
  refine ⟨Q, hself, hQ, ?_, hvotes⟩
  rw [Node.votesNeeded, length_peersOf hnd (mem_of_leader hrun hlead)]
  exact hcard

end Step

theorem legitimate_leadership_first_election :
    ∃ c, Lts.Run (Cluster.step trio) (WinsTerm trio) newCluster c ∧
      (c.nodes n1).st.state = .leader ∧ ∃ Q : Finset Str, n1 ∈ Q ∧ Q ⊆ trio.toFinset ∧
        Node.votesNeeded (peersOf trio n1) ≤ Q.card ∧
        ∀ q ∈ Q, ⟨q, (c.nodes n1).st.currentTerm, n1⟩ ∈ c.votes := by
  obtain ⟨c, hrun, hrole⟩ : ∃ c, Lts.Run (Cluster.step trio) (WinsTerm trio) newCluster c ∧
      (c.nodes n1).st.state = .leader :=
    Lts.exists_run (winElection n1 n3 n2) (by decide +kernel)
  exact ⟨c, hrun, hrole, legitimate_leadership (by decide +kernel) hrun hrole⟩

/-- `n1` has the votes it needs in term 1.  Before it counts them, `n2` asks it for a vote in
term 2. -/
def interruptedElection : List Action :=
  campaignOf n1 ++ winVote n1 n3 ++ [⟨n1, .voteFailed n2⟩] ++ campaignOf n2 ++ standAgain n2 ++
    buildVote n2 n1 1 ⟨2, n2, 0, 0⟩ ++
    [⟨n1, .receive (.voteReq n2 n1 1 ⟨2, n2, 0, 0⟩)⟩, ⟨n1, .tally⟩]

/-- **A leader without votes.**  `n1` leads term 2, in which nobody has voted for it. -/
theorem leads_without_votes :
    ∃ c, Lts.Reach (Cluster.step trio) newCluster c ∧ (c.nodes n1).st.state = .leader ∧
      (c.nodes n1).st.currentTerm = 2 ∧ ∀ b ∈ c.votes, b.term = 2 → b.candidate ≠ n1 :=
  Lts.exists_reach interruptedElection (by decide +kernel)

end SkyLock.Raft
