/-
# Every orderly event is simulated

The step lemma of the refinement.  An event at a node is replayed in the history by at most two
steps of the protocol (`Evolves`), chosen by what the event does:

* a new term is `advance`, a request of a leader is `hear`, and `accept` if its entries are stored;
* a vote is `vote`; a candidate votes when it takes its new term;
* winning an election is `hear` and `elect`, the append of a proposal is `propose`;
* everything else leaves the history alone.

`Replay` collects what has to be shown for one event: what is new in the node, in the packets and
in the votes.  `Sim.of_replay` adds what stays and what `updateCommitIndex` finds out.
-/
import SkyLock.Raft.Refinement

namespace SkyLock.Raft

open Replication (History)

variable {ids : List Str} {h h' : Chronicle} {c : Cluster} {id : Str} {peers : List Str} {n : Node}
  {e : Event} {o : Outcome} {T : Nat}

/-! ## 1. Candidates -/

theorem inElection_of_move (hmove : Move id peers n e o) (hcare : n.careful peers e)
    (hin : o.node.InElection T) : n.InElection T ∨ n.st.currentTerm < T := by
  cases shift_of_move hmove with
  | stay phase =>
    refine .inl ?_
    rwa [Node.InElection, phase] at hin
  | rest phase =>
    rcases hin with hp | ⟨_, _, _, hp⟩
    · exact (show (Phase.started T).resting from hp ▸ phase).elim
    · exact (show (Phase.waiting _ T _ _).resting from hp ▸ phase).elim
  | start office phase =>
    rcases hin with hp | ⟨_, _, _, hp⟩
    · refine .inr ?_
      have hT := Phase.started.inj (phase.symm.trans hp)
      have hnew : o.node.st.currentTerm = n.st.currentTerm + 1 :=
        (congrArg Office.term office).trans (Nat.mod_eq_of_lt hcare)
      omega
    · exact absurd (phase.symm.trans hp) (by simp)
  | wait term started phase =>
    rcases hin with hp | ⟨_, _, _, hp⟩
    · exact absurd (phase.symm.trans hp) (by simp)
    · injection phase.symm.trans hp with _ hT
      exact .inl (.inl (hT ▸ started))
  | miss _ _ _ _ _ waiting phase =>
    rcases hin with hp | ⟨_, _, _, hp⟩
    · exact absurd (phase.symm.trans hp) (by simp)
    · injection phase.symm.trans hp with _ hT
      exact .inl (.inr ⟨_, _, _, hT ▸ waiting⟩)
  | count _ _ _ _ _ _ _ _ _ waiting phase =>
    rcases hin with hp | ⟨_, _, _, hp⟩
    · exact absurd (phase.symm.trans hp) (by simp)
    · injection phase.symm.trans hp with _ hT
      exact .inl (.inr ⟨_, _, _, hT ▸ waiting⟩)

/-- The parts of the state that a record of a vote or of a role does not touch. -/
structure State.Quiet (s s' : State) : Prop where
  term : s'.currentTerm = s.currentTerm
  leaderID : s'.leaderID = s.leaderID
  log : s'.log = s.log
  commitIndex : s'.commitIndex = s.commitIndex
  nextIndex : s'.nextIndex = s.nextIndex
  matchIndex : s'.matchIndex = s.matchIndex
  role : s'.state = .leader → s.state = .leader

theorem State.Quiet.refl (s : State) : s.Quiet s := ⟨rfl, rfl, rfl, rfl, rfl, rfl, id⟩

theorem State.Quiet.of_role (s : State) {role : NodeState} (hrole : role ≠ .leader) :
    s.Quiet { s with state := role } :=
  ⟨rfl, rfl, rfl, rfl, rfl, rfl, fun hr => absurd hr hrole⟩

theorem State.Quiet.of_vote (s : State) (votedFor : Str) : s.Quiet { s with votedFor } :=
  ⟨rfl, rfl, rfl, rfl, rfl, rfl, id⟩

/-- Only a leader's request and a proposal change the log, and the one makes a follower and the
other needs a leader: while a node is a candidate its log stays. -/
theorem log_of_candidate (hmove : Move id peers n e o) (hord : n.orderly e)
    (hrole : o.node.st.state = .candidate) : o.node.st.log = n.st.log := by
  cases edit_of_move hmove with
  | keep log => exact log
  | extend _ _ office =>
    have hleader : o.node.st.state = .leader := (congrArg Office.role office).trans hord.1
    exact absurd (hleader.symm.trans hrole) (by simp)
  | replace _ _ _ _ _ office =>
    exact absurd ((congrArg Office.role office).symm.trans hrole) (by simp [Office.following])

/-- A node that stands in an election stood in it before with the same log, or has just taken a
new term. -/
theorem standing_of_move (hmove : Move id peers n e o) (hcare : n.careful peers e)
    (hord : n.orderly e) (hs : o.node.Standing T) :
    n.Standing T ∧ o.node.st.log = n.st.log ∨ n.st.currentTerm < T := by
  rcases inElection_of_move hmove hcare hs.election with hin | hlt
  · have hrole : o.node.st.office.role = .candidate := hs.role
    have hterm : o.node.st.office.term = T := hs.term
    have hlog := log_of_candidate hmove hord hs.role
    cases turn_of_move hmove with
    | keep office =>
      rw [office] at hrole hterm
      exact .inl ⟨⟨hrole, hterm, hin⟩, hlog⟩
    | voteSelf _ _ _ office =>
      rw [office] at hrole hterm
      exact .inl ⟨⟨hrole, hterm, hin⟩, hlog⟩
    | stand _ _ after =>
      rcases hs.election with hp | ⟨_, _, _, hp⟩
      · exact absurd (after.symm.trans hp) (by simp)
      · exact absurd (after.symm.trans hp) (by simp)
    | campaign office =>
      rw [office] at hterm
      have hnew : n.st.office.campaigning.term = n.st.currentTerm + 1 := Nat.mod_eq_of_lt hcare
      exact .inr (by omega)
    | follow _ _ _ office | observe _ _ _ _ office | heed _ _ _ _ _ office
    | elect _ _ _ _ _ office =>
      rw [office] at hrole
      exact absurd hrole (by simp [Office.following, Office.elected])
    | vote src election req _ _ office =>
      rw [office] at hrole hterm
      by_cases hnew : req.term > n.st.currentTerm
      · rw [State.observeTerm, if_pos hnew] at hrole
        exact absurd hrole (by simp [State.office, State.becomeFollower])
      · rw [State.observeTerm, if_neg hnew] at hrole hterm
        exact .inl ⟨⟨hrole, hterm, hin⟩, hlog⟩
  · exact .inr hlt

/-! ## 2. What stays -/

section Frame

variable (hmove : Move id peers (c.nodes id) e o) (hcare : (c.nodes id).careful peers e)

include hmove hcare

theorem term_le_put (p : Str) :
    (c.nodes p).st.currentTerm ≤ ((c.put id o).nodes p).st.currentTerm :=
  c.forall_put (P := fun p n => (c.nodes p).st.currentTerm ≤ n.st.currentTerm)
    (term_le_of_turn (turn_of_move hmove) (keepsTerm_of_careful hcare)) (fun _ _ => le_rfl) p

/-- A node of the cluster that stands in an election it has not just started stood in it before,
with the same log. -/
theorem standing_of_put {p : Str} (hord : (c.nodes id).orderly e)
    (hT : T ≤ (c.nodes p).st.currentTerm) (hs : ((c.put id o).nodes p).Standing T) :
    (c.nodes p).Standing T ∧ ((c.put id o).nodes p).st.log = (c.nodes p).st.log := by
  by_cases hp : p = id
  · subst hp
    rw [c.put_nodes_self] at hs ⊢
    rcases standing_of_move hmove hcare hord hs with hold | hlt
    · exact hold
    · exact absurd hT (Nat.not_le.mpr hlt)
  · rw [c.put_nodes_ne o hp] at hs ⊢
    exact ⟨hs, rfl⟩

theorem Packet.Sim.put {p : Packet} (hord : (c.nodes id).orderly e) (hp : p.Sim ids h c)
    (hext : h.Extends h') : p.Sim ids h' (c.put id o) := by
  cases p with
  | voteTask src dst election T lastLogIndex =>
    refine ⟨hp.1.trans (term_le_put hmove hcare src), fun hs => ?_⟩
    obtain ⟨hold, hlog⟩ := standing_of_put hmove hcare hord hp.1 hs
    rw [hlog]
    exact hp.2 hold
  | voteReq src dst election req =>
    refine ⟨hp.1.trans (term_le_put hmove hcare src), fun hs => ?_⟩
    obtain ⟨hold, hlog⟩ := standing_of_put hmove hcare hord hp.1 hs
    rw [hlog]
    exact hp.2 hold
  | voteResp | proposal => trivial
  | heartbeatTask src dst T draft => exact ⟨hp.1, hp.2.mono hext⟩
  | appendReq src dst req =>
    obtain ⟨hdst, hsrc, k, hk⟩ := hp
    refine ⟨hdst, hsrc, k, hext.begun hk.begun, hk.slice.mono (hext.chain _), hk.bounded, ?_⟩
    rw [Log.take_eq_of_prefix (hext.chain _) (hk.bounded.trans hk.slice.stop)]
    exact hk.settled.mono hext le_rfl
  | appendResp src dst req resp =>
    obtain ⟨hsrc, k, hk, hack⟩ := hp
    exact ⟨hsrc, k, hk.mono (hext.chain _), fun hs hne => hext.acked _ _ _ (hack hs hne)⟩

theorem Founded.put (hf : Founded ids c T) : Founded ids (c.put id o) T := by
  obtain ⟨h0, r, Q, hQ, hvotes, hle, hin⟩ := hf
  refine ⟨h0, r, Q, hQ, fun q hq => List.mem_append_left _ (hvotes q hq),
    hle.trans (term_le_put hmove hcare r), fun hin' => ?_⟩
  by_cases hr : r = id
  · subst hr
    rw [c.put_nodes_self] at hin'
    rcases inElection_of_move hmove hcare hin' with hold | hlt
    · exact hin hold
    · omega
  · rw [c.put_nodes_ne o hr] at hin'
    exact hin hin'

end Frame

/-- The term of a candidate with enough votes has had no leader: it is still in its election. -/
theorem not_founded_of_votes (hnd : ids.Nodup) (hlaw : Lawful ids c)
    (hin : (c.nodes id).InElection T) {Q : Finset Str} (hQ : electing ids Q)
    (hvotes : ∀ q ∈ Q, ⟨q, T, id⟩ ∈ c.votes) : ¬ Founded ids c T := by
  rintro ⟨-, r, Q', hQ', hvotes', -, hout⟩
  obtain ⟨q, hq, hq'⟩ := exists_common_voter hnd hQ.1 hQ'.1 hQ.2 hQ'.2
  obtain rfl := (hlaw.voter q).polled.once T _ _ (hvotes q hq) (hvotes' q hq')
  exact hout hin

theorem Backed.put {b : Ballot} (hb : Backed h c b) (hext : h.Extends h') (id : Str) (o : Outcome) :
    Backed h' (c.put id o) b := by
  obtain ⟨dst, election, req, l, hmem, hterm, hvoted, hcovers⟩ := hb
  exact ⟨dst, election, req, l, List.mem_append_left _ hmem, hterm, hext.voted _ _ _ hvoted,
    hcovers⟩

/-! ## 3. Steps of the history -/

/-- The history has taken steps for the node `id`, and nothing has changed for the others. -/
structure Evolves (ids : List Str) (c : Cluster) (id : Str) (h h' : Chronicle) : Prop where
  valid : h'.Valid LogEntry.term (electing ids)
  grows : h.Extends h'
  epoch : ∀ q, q ≠ id → h'.epoch q = h.epoch q
  followed : ∀ q, q ≠ id → h'.followed q = h.followed q
  log : ∀ q, q ≠ id → h'.log q = h.log q
  chain : ∀ q, q ≠ id → (c.nodes q).st.state = .leader →
    h'.chain (c.nodes q).st.currentTerm = h.chain (c.nodes q).st.currentTerm

section Evolves

variable (hv : h.Valid LogEntry.term (electing ids))

theorem Evolves.trans {h'' : Chronicle} (h₁ : Evolves ids c id h h')
    (h₂ : Evolves ids c id h' h'') : Evolves ids c id h h'' where
  valid := h₂.valid
  grows := h₁.grows.trans h₂.grows
  epoch q hq := (h₂.epoch q hq).trans (h₁.epoch q hq)
  followed q hq := (h₂.followed q hq).trans (h₁.followed q hq)
  log q hq := (h₂.log q hq).trans (h₁.log q hq)
  chain q hq hr := (h₂.chain q hq hr).trans (h₁.chain q hq hr)

include hv

theorem Evolves.refl : Evolves ids c id h h :=
  ⟨hv, .refl h, fun _ _ => rfl, fun _ _ => rfl, fun _ _ => rfl, fun _ _ _ => rfl⟩

theorem Evolves.of_step (hstep : History.Step LogEntry.term (electing ids) h h')
    (hepoch : ∀ q, q ≠ id → h'.epoch q = h.epoch q)
    (hfollowed : ∀ q, q ≠ id → h'.followed q = h.followed q)
    (hlog : ∀ q, q ≠ id → h'.log q = h.log q)
    (hchain : ∀ q, q ≠ id → (c.nodes q).st.state = .leader →
      h'.chain (c.nodes q).st.currentTerm = h.chain (c.nodes q).st.currentTerm) :
    Evolves ids c id h h' :=
  ⟨hv.step hstep, hstep.extends hv, hepoch, hfollowed, hlog, hchain⟩

theorem Evolves.advance (hT : h.epoch id < T) : Evolves ids c id h (h.advance id T) :=
  .of_step hv (.advance id T hT) (fun _ hq => Function.update_of_ne hq ..)
    (fun _ hq => Function.update_of_ne hq ..) (fun _ _ => rfl) fun _ _ _ => rfl

theorem Evolves.hear (hT : h.epoch id ≤ T) : Evolves ids c id h (h.hear id T) :=
  .of_step hv (.hear id T hT) (fun _ hq => Function.update_of_ne hq ..)
    (fun _ hq => Function.update_of_ne hq ..) (fun _ _ => rfl) fun _ _ _ => rfl

theorem Evolves.vote (hid : h.followed id = false) : Evolves ids c id h (h.vote id) :=
  .of_step hv (.vote id hid) (fun _ _ => rfl) (fun _ _ => rfl) (fun _ _ => rfl) fun _ _ _ => rfl

theorem Evolves.elect (hnew : h.start (h.epoch id) = none)
    (hwon : ∃ Q, electing ids Q ∧ ∀ q ∈ Q, ∃ l, h.voted q (h.epoch id) l ∧
      History.UpToDate LogEntry.term (h.log id) l)
    (hother : ∀ q, q ≠ id → (c.nodes q).st.state = .leader →
      h.start (c.nodes q).st.currentTerm ≠ none) : Evolves ids c id h (h.elect id) := by
  refine .of_step hv (.elect id hnew hwon) (fun _ _ => rfl) (fun _ _ => rfl) (fun _ _ => rfl) ?_
  intro q hq hr
  have hne : (c.nodes q).st.currentTerm ≠ h.epoch id := fun heq => hother q hq hr (heq ▸ hnew)
  rw [History.chain_elect, if_neg hne]

theorem Evolves.propose {x : LogEntry} (hx : x.term = h.epoch id)
    (hlead : h.log id = h.chain (h.epoch id)) (hbegun : h.start (h.epoch id) ≠ none)
    (hother : ∀ q, q ≠ id → (c.nodes q).st.state = .leader →
      (c.nodes q).st.currentTerm ≠ h.epoch id) : Evolves ids c id h (h.propose id x) :=
  .of_step hv (.propose id x hx hlead hbegun) (fun _ _ => rfl) (fun _ _ => rfl)
    (fun _ hq => Function.update_of_ne hq ..)
    fun q hq hr => Function.update_of_ne (hother q hq hr) ..

theorem Evolves.accept {k : Nat} (hid : h.followed id = true)
    (hbegun : h.start (h.epoch id) ≠ none) (hk : k ≤ (h.chain (h.epoch id)).length)
    (hmay : History.MayReplace LogEntry.term (h.log id) (h.chain (h.epoch id)) k) :
    Evolves ids c id h (h.accept id k) :=
  .of_step hv (.accept id k hid hbegun hk hmay) (fun _ _ => rfl) (fun _ _ => rfl)
    (fun _ hq => Function.update_of_ne hq ..) fun _ _ _ => rfl

end Evolves

/-! ## 4. Replaying one event -/

/-- What has to be shown for an event at `id`. -/
structure Replay (ids : List Str) (c : Cluster) (id : Str) (o : Outcome) (h h' : Chronicle) :
    Prop where
  evolves : Evolves ids c id h h'
  node : NodeSim ids h' id o.node
  founded : ∀ T, h'.start T ≠ none → h.start T ≠ none ∨ Founded ids (c.put id o) T
  chains : ∀ T, Log.WellIndexed (h'.chain T)
  packets : ∀ p ∈ o.packets, p.Sim ids h' (c.put id o)
  votes : ∀ b ∈ o.votes, b.voter ≠ b.candidate → Backed h' (c.put id o) b

section Update

variable (hs : Sim ids h c)

include hs

/-- The index that `updateCommitIndex` picks has been acknowledged by a quorum. -/
theorem reached_quorumIndex (hnd : ids.Nodup) (hid : id ∈ ids)
    (hrole : (c.nodes id).st.state = .leader) :
    Reached ids h (c.nodes id).st.currentTerm (c.nodes id).st.quorumIndex := by
  intro hpos
  have hnode := hs.node id
  have hl := hnode.leads hrole
  have hkeys : (c.nodes id).st.matchIndex.keys = (peersOf ids id).toFinset := by
    ext q
    rw [Finmap.mem_keys, List.mem_toFinset]
    exact ⟨hnode.keys q, hl.keys q⟩
  have hself : id ∉ (c.nodes id).st.matchIndex := fun hmem =>
    (mem_peersOf.mp (hnode.keys id hmem)).2 rfl
  refine ⟨(c.nodes id).st.replicated id (c.nodes id).st.quorumIndex, ⟨fun q hq => ?_, ?_⟩,
    fun q hq => ?_⟩
  · rcases Finset.mem_union.mp hq with hq | hq
    · split at hq
      · rw [Finset.mem_singleton.mp hq]
        exact List.mem_toFinset.mpr hid
      · exact absurd hq (Finset.notMem_empty q)
    · rw [Finset.mem_filter, hkeys, List.mem_toFinset] at hq
      exact List.mem_toFinset.mpr (mem_peersOf.mp hq.1).1
  · have hcard := State.quorumIndex_reached (c.nodes id).st hself
    rwa [hkeys, List.toFinset_card_of_nodup (nodup_peersOf hnd id), length_peersOf hnd hid] at hcard
  · rcases Finset.mem_union.mp hq with hq | hq
    · split at hq
      · rename_i hle
        rw [Finset.mem_singleton.mp hq]
        exact ⟨_, hl.own, hle⟩
      · exact absurd hq (Finset.notMem_empty q)
    · obtain ⟨hmem, hreach⟩ := Finset.mem_filter.mp hq
      obtain ⟨m, hm⟩ := GoMap.mem_iff_find.mp (Finmap.mem_keys.mp hmem)
      rw [hm, Option.getD_some] at hreach
      rcases hl.matched q m hm with rfl | hack
      · omega
      · exact ⟨m, hack, hreach⟩

/-- What a quorum has acknowledged is settled if the entry there is of the leader's term. -/
theorem settledTo_of_reached {N : Nat} (hrole : (c.nodes id).st.state = .leader)
    (hreached : Reached ids h (c.nodes id).st.currentTerm N)
    (hterm : Log.termAt (c.nodes id).st.log N = (c.nodes id).st.currentTerm) :
    SettledTo ids h (c.nodes id).st N := by
  have hl := (hs.node id).leads hrole
  obtain ⟨x, hx, hxterm⟩ := Log.get_of_termAt (hterm.symm ▸ (hs.founded _ hl.begun).1)
  obtain ⟨hpos, hle⟩ := Log.le_length_of_get hx
  obtain ⟨Q, hQ, hack⟩ := hreached hpos
  refine ⟨hle, .inr ⟨_, N - 1, le_rfl, ⟨⟨x, ?_, hxterm.trans hterm⟩, Q, hQ, fun q hq => ?_⟩, ?_⟩⟩
  · rw [hl.chain]
    exact (Log.get_eq_some_iff.mp hx).2
  · obtain ⟨k, hk, hNk⟩ := hack q hq
    exact ⟨k, hk, by omega⟩
  · rw [hl.chain, Nat.sub_add_cancel hpos]

/-- **What `updateCommitIndex` has found out is true** as long as the node leads: no other event of
a leader changes its term or its commit index, or cuts its log. -/
theorem update_of_move (hnd : ids.Nodup) (hid : id ∈ ids) (hmove : Move id peers (c.nodes id) e o)
    (hext : h.Extends h') {u : Update} (hphase : o.node.phase = .updating u)
    (hrole : o.node.st.state = .leader) : u.Sim ids h' o.node.st := by
  obtain ⟨hterm, hr | ⟨rfl, -⟩⟩ := leader_of_move hmove hrole
  · have hold : ∀ {u}, (c.nodes id).phase = .updating u → u.Sim ids h (c.nodes id).st := fun hu =>
      hs.updating id _ hu hr
    cases updated_of_move hmove hphase with
    | stay before =>
      refine (hold before).mono hext hterm ?_ (prefix_of_leader hmove hrole)
      cases commits_of_move hmove with
      | keep commitIndex => exact commitIndex
      | set _ _ after => cases after.symm.trans hphase
      | follow _ _ office =>
        exact absurd ((congrArg Office.role office).symm.trans hrole) (by simp [Office.following])
    | pick _ same =>
      rw [same]
      exact (reached_quorumIndex hs hnd hid hr).mono hext
    | date before same =>
      rw [same]
      exact ⟨rfl, Reached.mono (hold before) hext⟩
    | pass before habove same =>
      rw [same]
      obtain ⟨hT, hreached⟩ := hold before
      exact ⟨hT, habove, hreached.mono hext⟩
    | agree before hentry same =>
      obtain ⟨hT, habove, hreached⟩ := hold before
      have hsettled := settledTo_of_reached hs hr hreached (hentry.trans hT)
      rw [same]
      exact ⟨habove, hsettled.of_prefix hext le_rfl (List.take_prefix _ _)⟩
  · cases hmove <;> cases hphase

end Update

/-- What is new is mirrored, so everything is. -/
theorem Sim.of_replay (hnd : ids.Nodup) (hid : id ∈ ids) (hs : Sim ids h c)
    (hmove : Move id peers (c.nodes id) e o) (hcare : (c.nodes id).careful peers e)
    (hord : (c.nodes id).orderly e) (hr : Replay ids c id o h h') : Sim ids h' (c.put id o) := by
  have hext := hr.evolves.grows
  refine ⟨c.forall_put (P := NodeSim ids h') hr.node fun p hp => ?_, ?_, fun p hp => ?_,
    fun b hb hne => ?_, fun T hT => ?_, hr.chains⟩
  · exact (hs.node p).frame hext (hr.evolves.epoch p hp) (hr.evolves.followed p hp)
      (hr.evolves.log p hp) (hr.evolves.chain p hp)
  · exact c.forall_put (P := fun _ n => ∀ u, n.phase = .updating u → n.st.state = .leader →
      u.Sim ids h' n.st) (fun _ => update_of_move hs hnd hid hmove hext)
      fun p _ u hu hrole => (hs.updating p u hu hrole).mono hext rfl rfl List.prefix_rfl
  · rcases List.mem_append.mp hp with hp | hp
    · exact (hs.net p hp).put hmove hcare hord hext
    · exact hr.packets p hp
  · rcases List.mem_append.mp hb with hb | hb
    · exact (hs.backed b hb hne).put hext id o
    · exact hr.votes b hb hne
  · rcases hr.founded T hT with hold | hnew
    · exact (hs.founded T hold).put hmove hcare
    · exact hnew

end SkyLock.Raft
