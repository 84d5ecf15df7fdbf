/-
# The replay of each event

One lemma for each kind of event, in the order of `Simulation`: events that leave the history
alone, new terms and votes, requests of a leader, and what a leader does.
-/
import SkyLock.Raft.Simulation

namespace SkyLock.Raft

open Replication (History)

variable {ids : List Str} {h h' : Chronicle} {c : Cluster} {id : Str} {peers : List Str}
  {n n' : Node} {e : Event} {o : Outcome} {T : Nat}

/-! ## 1. Events that leave the history alone -/

theorem Leads.congr {p : Str} {s s' : State} (hl : Leads ids h p s)
    (hterm : s'.currentTerm = s.currentTerm) (hlog : s'.log = s.log)
    (hnext : s'.nextIndex = s.nextIndex) (hmatch : s'.matchIndex = s.matchIndex) :
    Leads ids h p s' where
  begun := hterm ▸ hl.begun
  chain := by rw [hterm, hlog, hl.chain]
  own := by
    rw [hterm, hlog]
    exact hl.own
  next q hpeer := by
    rw [State.prevIndex, hnext, hlog]
    exact hl.next q hpeer
  keys q hpeer := hmatch ▸ hl.keys q hpeer
  matched q m hm := by
    rw [hmatch] at hm
    rw [hterm]
    exact hl.matched q m hm

/-- A node whose log, indices and term stay as they were, in a history that may have grown by its
own vote. -/
theorem NodeSim.quiet (hs : NodeSim ids h id n) (hmove : Move id peers n e o)
    (hcare : n.careful peers e) (hord : n.orderly e) (hext : h.Extends h')
    (hq : n.st.Quiet o.node.st)
    (hepoch : h'.epoch id = h.epoch id) (hfollowed : h'.followed id = h.followed id)
    (hlog : h'.log id = h.log id)
    (hchain : h'.chain n.st.currentTerm = h.chain n.st.currentTerm)
    (happlying : ∀ i k, o.node.applying = some (i, k) →
      k = n.st.commitIndex ∨ ∃ j, n.applying = some (j, k))
    (happlied : ∀ x ∈ o.node.applied, x ∈ n.applied ∨ SettledEntry ids h x) :
    NodeSim ids h' id o.node := by
  have hm := hs.mirrors
  refine hs.evolve hext hq.term.ge (fun k _ => hq.log ▸ List.take_prefix k _) ?_
    (hq.log ▸ hs.indexed) (hq.matchIndex ▸ hs.keys)
    (fun hr => ((hs.leads (hq.role hr)).mono hext hchain).congr hq.term hq.log hq.nextIndex
      hq.matchIndex) (fun T hT => ?_) (.inl hq.commitIndex) happlying happlied
  · refine ⟨?_, ?_, ?_⟩
    · rw [hepoch, hm.epoch, hq.term]
    · rw [hfollowed, hm.followed, hq.leaderID]
    · rw [hlog, hm.log, hq.log]
  · rcases standing_of_move hmove hcare hord hT with ⟨hold, hlog'⟩ | hlt
    · rw [hlog']
      exact ⟨(hs.standing T hold).1, hext.voted _ _ _ (hs.standing T hold).2⟩
    · have := hT.term
      have := hq.term
      omega

section Still

variable (hs : Sim ids h c) (hv : h.Valid LogEntry.term (electing ids))
  (hmove : Move id peers (c.nodes id) e o) (hcare : (c.nodes id).careful peers e)
  (hord : (c.nodes id).orderly e)

include hs hv hmove hcare hord

theorem Replay.still_of (hq : (c.nodes id).st.Quiet o.node.st)
    (happlying : ∀ i k, o.node.applying = some (i, k) →
      k = (c.nodes id).st.commitIndex ∨ ∃ j, (c.nodes id).applying = some (j, k))
    (happlied : ∀ x ∈ o.node.applied, x ∈ (c.nodes id).applied ∨ SettledEntry ids h x)
    (hpackets : ∀ p ∈ o.packets, p.Sim ids h (c.put id o))
    (hvotes : ∀ b ∈ o.votes, b.voter = b.candidate) : Replay ids c id o h h where
  evolves := .refl hv
  node := (hs.node id).quiet hmove hcare hord (.refl h) hq rfl rfl rfl rfl happlying happlied
  founded _ hT := .inl hT
  chains := hs.chains
  packets := hpackets
  votes b hb hne := absurd (hvotes b hb) hne

/-- An event of the apply loop: nothing is sent or voted. -/
theorem Replay.still_applying (hq : (c.nodes id).st.Quiet o.node.st)
    (happlying : ∀ i k, o.node.applying = some (i, k) →
      k = (c.nodes id).st.commitIndex ∨ ∃ j, (c.nodes id).applying = some (j, k))
    (happlied : ∀ x ∈ o.node.applied, x ∈ (c.nodes id).applied ∨ SettledEntry ids h x)
    (hpackets : o.packets = []) (hvotes : o.votes = []) : Replay ids c id o h h :=
  Replay.still_of hs hv hmove hcare hord hq happlying happlied
    (fun _ hp => absurd (hpackets ▸ hp) List.not_mem_nil)
    fun _ hb => absurd (hvotes ▸ hb) List.not_mem_nil

/-- An event that only sends. -/
theorem Replay.still_sending (hq : (c.nodes id).st.Quiet o.node.st)
    (happlying : o.node.applying = (c.nodes id).applying)
    (happlied : o.node.applied = (c.nodes id).applied)
    (hpackets : ∀ p ∈ o.packets, p.Sim ids h (c.put id o))
    (hvotes : ∀ b ∈ o.votes, b.voter = b.candidate) : Replay ids c id o h h :=
  Replay.still_of hs hv hmove hcare hord hq (fun i _ hk => .inr ⟨i, happlying ▸ hk⟩)
    (fun _ hx => .inl (happlied ▸ hx)) hpackets hvotes

/-- The usual case: nothing is applied, sent or voted. -/
theorem Replay.still (hq : (c.nodes id).st.Quiet o.node.st)
    (happlying : o.node.applying = (c.nodes id).applying)
    (happlied : o.node.applied = (c.nodes id).applied) (hpackets : o.packets = [])
    (hvotes : o.votes = []) : Replay ids c id o h h :=
  Replay.still_sending hs hv hmove hcare hord hq happlying happlied
    (fun _ hp => absurd (hpackets ▸ hp) List.not_mem_nil)
    fun _ hb => absurd (hvotes ▸ hb) List.not_mem_nil

end Still

/-! ## 2. New terms and votes -/

/-- A node that is a follower after the event. -/
theorem NodeSim.follower {p : Str} (hs : NodeSim ids h p n) (hext : h.Extends h')
    (hterm : n.st.currentTerm ≤ n'.st.currentTerm)
    (hkeep : ∀ k, SettledTo ids h n.st k → n.st.log.take k <+: n'.st.log)
    (hmirrors : Mirrors h' p n'.st) (hindexed : Log.WellIndexed n'.st.log)
    (hmatch : n'.st.matchIndex = n.st.matchIndex) (hrole : n'.st.state = .follower)
    (hcommit : n'.st.commitIndex = n.st.commitIndex ∨ SettledTo ids h' n'.st n'.st.commitIndex)
    (happlying : n'.applying = n.applying) (happlied : n'.applied = n.applied) :
    NodeSim ids h' p n' :=
  hs.evolve hext hterm hkeep hmirrors hindexed (hmatch ▸ hs.keys)
    (fun hr => absurd (hrole.symm.trans hr) (by simp))
    (fun _ hT => absurd (hrole.symm.trans hT.role) (by simp)) hcommit
    (fun i _ hk => .inr ⟨i, happlying ▸ hk⟩) fun _ hx => .inl (happlied ▸ hx)

/-- A node that has taken a new term and knows no leader of it, in the history after `advance`. -/
theorem mirrors_advance (hs : Sim ids h c) {s' : State} (hterm : s'.currentTerm = T)
    (hleader : s'.leaderID = []) (hlog : s'.log = (c.nodes id).st.log) :
    Mirrors (h.advance id T) id s' := by
  refine ⟨?_, ?_, ?_⟩
  · rw [hterm]
    exact Function.update_self ..
  · rw [hleader]
    exact Function.update_self ..
  · rw [hlog]
    exact (hs.node id).mirrors.log

section Terms

variable (hs : Sim ids h c) (hv : h.Valid LogEntry.term (electing ids))
  (hmove : Move id peers (c.nodes id) e o) (hcare : (c.nodes id).careful peers e)
  (hord : (c.nodes id).orderly e)

include hs hv

theorem evolves_advance (hlt : (c.nodes id).st.currentTerm < T) :
    Evolves ids c id h (h.advance id T) :=
  Evolves.advance hv ((hs.node id).mirrors.epoch.symm ▸ hlt)

/-- A node becomes a follower in a later term whose leader it does not know. -/
theorem nodeSim_advance (hlt : (c.nodes id).st.currentTerm < T)
    (hst : o.node.st = (c.nodes id).st.becomeFollower T [])
    (happlying : o.node.applying = (c.nodes id).applying)
    (happlied : o.node.applied = (c.nodes id).applied) :
    NodeSim ids (h.advance id T) id o.node := by
  have hnode := hs.node id
  have hev := evolves_advance hs hv hlt
  have hlog : o.node.st.log = (c.nodes id).st.log := by rw [hst]; rfl
  have hterm : o.node.st.currentTerm = T := by rw [hst]; rfl
  refine hnode.follower hev.grows (hterm ▸ hlt.le) (fun k _ => hlog ▸ List.take_prefix k _)
    (mirrors_advance hs hterm ?_ hlog) (hlog ▸ hnode.indexed) ?_ ?_ (.inl ?_) happlying happlied
  all_goals rw [hst]; rfl

theorem evolves_advance_vote (hlt : (c.nodes id).st.currentTerm < T) :
    Evolves ids c id h ((h.advance id T).vote id) := by
  have hev := evolves_advance hs hv hlt
  exact hev.trans (.vote hev.valid (Function.update_self ..))

omit hv in
/-- A vote in a term that the node has just entered. -/
theorem voted_advance (id : Str) (T : Nat) :
    ((h.advance id T).vote id).voted id T (c.nodes id).st.log := by
  have hepoch : (h.advance id T).epoch id = T := Function.update_self ..
  exact .inr ⟨rfl, hepoch.symm, (hs.node id).mirrors.log.symm⟩

include hmove hcare hord

/-- An answer with a later term. -/
theorem replay_heed {answered : Nat} (hforget : (c.nodes id).st.forgetsNothing answered)
    (hst : o.node.st = (c.nodes id).st.becomeFollower answered [])
    (happlying : o.node.applying = (c.nodes id).applying)
    (happlied : o.node.applied = (c.nodes id).applied) (hpackets : o.packets = [])
    (hvotes : o.votes = []) : ∃ h', Replay ids c id o h h' := by
  rcases hforget with hlt | ⟨heq, -, hleader⟩
  · exact ⟨_, evolves_advance hs hv hlt, nodeSim_advance hs hv hlt hst happlying happlied,
      fun _ hT => .inl hT, hs.chains, fun _ hp => absurd (hpackets ▸ hp) List.not_mem_nil,
      fun _ hb => absurd (hvotes ▸ hb) List.not_mem_nil⟩
  · -- the node is in that term already and has nothing to forget
    refine ⟨h, Replay.still hs hv hmove hcare hord ?_ happlying happlied hpackets hvotes⟩
    rw [hst]
    exact ⟨heq.symm, hleader.symm, rfl, rfl, rfl, rfl,
      fun hr => absurd hr (by simp [State.becomeFollower])⟩

end Terms

/-- `BecomeCandidate`: a new term, and the candidate's log on record. -/
theorem replay_campaign (hs : Sim ids h c) (hv : h.Valid LogEntry.term (electing ids))
    (hcare : (c.nodes id).st.currentTerm + 1 < 2 ^ 64) :
    ∃ h', Replay ids c id (((c.nodes id).withState (c.nodes id).st.becomeCandidate).goto
      (.started (c.nodes id).st.becomeCandidate.currentTerm)).silent h h' := by
  have hnode := hs.node id
  set s' := (c.nodes id).st.becomeCandidate with hs'
  have hterm : s'.currentTerm = (c.nodes id).st.currentTerm + 1 := Nat.mod_eq_of_lt hcare
  have hlt : (c.nodes id).st.currentTerm < s'.currentTerm := by omega
  have hev := evolves_advance_vote hs hv hlt
  have hm : Mirrors (h.advance id s'.currentTerm) id s' := mirrors_advance hs rfl rfl rfl
  have hm' : Mirrors ((h.advance id s'.currentTerm).vote id) id s' :=
    ⟨hm.epoch, hm.followed, hm.log⟩
  refine ⟨_, hev, ?_, fun _ hT => .inl hT, hs.chains, fun p hp => absurd hp List.not_mem_nil,
    fun b hb => absurd hb List.not_mem_nil⟩
  refine hnode.evolve hev.grows hlt.le (fun k _ => List.take_prefix k _) hm' hnode.indexed
    hnode.keys (fun hr => absurd hr (by simp [Node.silent, Node.goto, Node.withState, hs',
      State.becomeCandidate])) (fun T hT => ?_) (.inl rfl) (fun i k hk => .inr ⟨i, hk⟩)
    fun x hx => .inl hx
  obtain rfl : s'.currentTerm = T := hT.term
  exact ⟨by omega, voted_advance hs id s'.currentTerm⟩

section Vote

variable {s : State} {req : VoteRequest}

theorem handleRequestVote_of_stale (hold : req.term < s.currentTerm) :
    s.handleRequestVote req = (s, ⟨s.currentTerm, false⟩) := by
  rw [State.handleRequestVote, if_pos hold]

theorem handleRequestVote_of_grants (hterm : s.currentTerm ≤ req.term)
    (hg : (s.observeTerm req.term).grants req) :
    s.handleRequestVote req = ({ s.observeTerm req.term with votedFor := req.candidateID },
      ⟨(s.observeTerm req.term).currentTerm, true⟩) := by
  rw [State.handleRequestVote, if_neg (Nat.not_lt.mpr hterm)]
  dsimp only
  rw [if_pos hg]

theorem handleRequestVote_of_denies (hterm : s.currentTerm ≤ req.term)
    (hg : ¬ (s.observeTerm req.term).grants req) :
    s.handleRequestVote req =
      (s.observeTerm req.term, ⟨(s.observeTerm req.term).currentTerm, false⟩) := by
  rw [State.handleRequestVote, if_neg (Nat.not_lt.mpr hterm)]
  dsimp only
  rw [if_neg hg]

end Vote

section VoteRequest

variable {src : Str} {election : Nat} {req : VoteRequest}

/-- A vote on record backs the ballot. -/
theorem backed_of_grant (hmem : .voteReq src id election req ∈ c.net)
    (hcand : req.candidateID = src) (hg : ((c.nodes id).st.observeTerm req.term).grants req)
    (hvoted : h'.voted id req.term (c.nodes id).st.log) :
    Backed h' (c.put id o) ⟨id, req.term, req.candidateID⟩ := by
  have hcovers := hg.2
  rw [State.upToDate, observeTerm_log] at hcovers
  exact ⟨id, election, req, (c.nodes id).st.log, List.mem_append_left _ (hcand ▸ hmem), rfl, hvoted,
    hcovers⟩

/-- `HandleRequestVote`. -/
theorem replay_voteReq (hs : Sim ids h c) (hv : h.Valid LogEntry.term (electing ids))
    (hmove : Move id peers (c.nodes id) (.receive (.voteReq src id election req)) o)
    (hcare : (c.nodes id).careful peers (.receive (.voteReq src id election req)))
    (hmem : .voteReq src id election req ∈ c.net) (hcand : req.candidateID = src)
    (ho : o = ⟨(c.nodes id).withState ((c.nodes id).st.handleRequestVote req).1,
      [.voteResp id src election req ((c.nodes id).st.handleRequestVote req).2],
      if ((c.nodes id).st.handleRequestVote req).2.voteGranted
      then [⟨id, req.term, req.candidateID⟩] else []⟩) :
    ∃ h', Replay ids c id o h h' := by
  have hnode := hs.node id
  have hpack : ∀ {h' : Chronicle}, ∀ p ∈ o.packets, p.Sim ids h' (c.put id o) := fun p hp => by
    rw [ho] at hp
    rw [List.mem_singleton.mp hp]
    trivial
  by_cases hold : req.term < (c.nodes id).st.currentTerm
  · rw [handleRequestVote_of_stale hold] at ho
    subst ho
    exact ⟨h, Replay.still_sending hs hv hmove hcare trivial (.refl _) rfl rfl hpack
      fun _ hb => absurd hb List.not_mem_nil⟩
  have hterm : (c.nodes id).st.currentTerm ≤ req.term := Nat.not_lt.mp hold
  by_cases hg : ((c.nodes id).st.observeTerm req.term).grants req
  · rw [handleRequestVote_of_grants hterm hg] at ho
    have honce := hcare hterm hg
    have hvotes : ∀ {h' : Chronicle}, h'.voted id req.term (c.nodes id).st.log →
        ∀ b ∈ o.votes, b.voter ≠ b.candidate → Backed h' (c.put id o) b := fun hvoted b hb _ => by
      rw [ho] at hb
      rw [List.mem_singleton.mp hb]
      exact backed_of_grant hmem hcand hg hvoted
    by_cases hnew : req.term > (c.nodes id).st.currentTerm
    · -- a later term: enter it, then vote
      have hev := evolves_advance_vote hs hv hnew
      have hm : Mirrors (h.advance id req.term) id o.node.st := by
        rw [ho, State.observeTerm, if_pos hnew]
        exact mirrors_advance hs rfl rfl rfl
      refine ⟨_, hev, ?_, fun _ hT => .inl hT, hs.chains, hpack,
        hvotes (voted_advance hs id req.term)⟩
      rw [State.observeTerm, if_pos hnew] at ho
      subst ho
      exact hnode.follower hev.grows hterm (fun k _ => List.take_prefix k _)
        ⟨hm.epoch, hm.followed, hm.log⟩ hnode.indexed rfl rfl (.inl rfl) rfl rfl
    · have heq : (c.nodes id).st.currentTerm = req.term := by omega
      have hfollowed : h.followed id = false := by
        rw [hnode.mirrors.followed, honce.1 heq]
        rfl
      have hev : Evolves ids c id h (h.vote id) := .vote hv hfollowed
      have hvoted : (h.vote id).voted id req.term (c.nodes id).st.log :=
        .inr ⟨rfl, heq ▸ hnode.mirrors.epoch.symm, hnode.mirrors.log.symm⟩
      refine ⟨_, hev, ?_, fun _ hT => .inl hT, hs.chains, hpack, hvotes hvoted⟩
      rw [State.observeTerm, if_neg hnew] at ho
      subst ho
      exact hnode.quiet hmove hcare trivial hev.grows (.of_vote _ _) rfl rfl rfl rfl
        (fun i _ hk => .inr ⟨i, hk⟩) fun _ hx => .inl hx
  · rw [handleRequestVote_of_denies hterm hg] at ho
    by_cases hnew : req.term > (c.nodes id).st.currentTerm
    · rw [State.observeTerm, if_pos hnew] at ho
      subst ho
      exact ⟨_, evolves_advance hs hv hnew, nodeSim_advance hs hv hnew rfl rfl rfl,
        fun _ hT => .inl hT, hs.chains, hpack, fun _ hb => absurd hb List.not_mem_nil⟩
    · rw [State.observeTerm, if_neg hnew] at ho
      subst ho
      exact ⟨h, Replay.still_sending hs hv hmove hcare trivial (.refl _) rfl rfl hpack
        fun _ hb => absurd hb List.not_mem_nil⟩

end VoteRequest

/-! ## 3. Requests of a leader -/

/-- Logs grown from the same chains match. -/
theorem matching_of_grown {l m : Log} (hl : h.Grown LogEntry.term l)
    (hm : h.Grown LogEntry.term m) : Log.Matching l m := by
  intro i x y hx hy hterm
  have hxlen := Log.le_length_of_get hx
  have hylen := Log.le_length_of_get hy
  obtain ⟨h0, hx⟩ := Log.get_eq_some_iff.mp hx
  obtain ⟨-, hy⟩ := Log.get_eq_some_iff.mp hy
  have hpx := (hl _ x hx).2
  have hpy := (hm _ y hy).2
  rw [Nat.sub_add_cancel h0] at hpx hpy
  rw [← hterm] at hpy
  have hlen : (l.take i).length = (m.take i).length := by
    rw [List.length_take, List.length_take]
    omega
  exact (List.prefix_of_prefix_length_le hpx hpy hlen.le).eq_of_length hlen

/-- The conflict that the code could look for is one the protocol allows to replace for. -/
theorem mayReplace_of_replaces {s : State} {Λ : Log} {k : Nat} {req : AppendEntriesRequest}
    (hslice : Slice Λ k req)
    (hr : s.log.length ≤ req.prevLogIndex + req.entries.length ∨ s.conflicts req = true) :
    History.MayReplace LogEntry.term s.log Λ k := by
  have hlen := hslice.length
  rcases hr with hle | hconf
  · exact .inl (hlen ▸ hle)
  · obtain ⟨i, hi, hmatch⟩ := List.any_eq_true.mp hconf
    rw [List.mem_range] at hi
    split at hmatch
    · rename_i x y hx hy
      refine .inr ⟨req.prevLogIndex + i, x, y, by omega, hx, ?_, of_decide_eq_true hmatch⟩
      rw [hslice.entries, List.getElem?_drop, List.getElem?_take_of_lt (by omega)] at hy
      exact hy
    · exact absurd hmatch (by simp)

/-- A log that has the slice has what the leader had committed. -/
theorem settledTo_of_carries {s' : State} {req : AppendEntriesRequest} {k : Nat}
    (hk : Carries ids h req k) (hext : h.Extends h') (hterm : s'.currentTerm = req.term)
    (hpre : (h.chain req.term).take k <+: s'.log) : SettledTo ids h' s' req.leaderCommit := by
  have hstop := hk.slice.stop
  have hlen : ((h.chain req.term).take k).length = k := by
    rw [List.length_take]
    exact Nat.min_eq_left hstop
  refine ⟨hk.bounded.trans (hlen ▸ hpre.length_le), ?_⟩
  rw [Log.take_eq_of_prefix hpre (hlen.symm ▸ hk.bounded), List.take_take,
    Nat.min_eq_left hk.bounded, hterm]
  exact hk.settled.mono hext le_rfl

/-- What a node is after a request of a leader that it heeds, its log and commit index apart. -/
structure Heard (n : Node) (req : AppendEntriesRequest) (n' : Node) : Prop where
  office : n'.st.office = .following req.term req.leaderID
  matchIndex : n'.st.matchIndex = n.st.matchIndex
  applying : n'.applying = n.applying
  applied : n'.applied = n.applied

theorem heard_of_handle {req : AppendEntriesRequest} (hterm : n.st.currentTerm ≤ req.term) :
    Heard n req (n.withState (n.st.handleAppendEntries req).1) :=
  ⟨office_handleAppendEntries n.st hterm, (sameNotes_handleAppendEntries n.st req).1, rfl, rfl⟩

theorem Heard.term {req : AppendEntriesRequest} (hh : Heard n req n') :
    n'.st.currentTerm = req.term := congrArg Office.term hh.office

theorem Heard.mirrors {req : AppendEntriesRequest} (hh : Heard n req n')
    (hleader : req.leaderID ≠ [])
    (hepoch : h.epoch id = req.term) (hfollowed : h.followed id = true)
    (hlog : h.log id = n'.st.log) : Mirrors h id n'.st := by
  have hlead : n'.st.leaderID = req.leaderID := congrArg Office.leaderID hh.office
  refine ⟨hepoch.trans hh.term.symm, ?_, hlog⟩
  rw [hlead, decide_eq_true hleader]
  exact hfollowed

/-- The node that has heard a leader mirrors the history, if its log does. -/
theorem NodeSim.heard {req : AppendEntriesRequest} (hs : NodeSim ids h id n) (hh : Heard n req n')
    (hext : h.Extends h') (hterm : n.st.currentTerm ≤ req.term)
    (hkeep : ∀ k, SettledTo ids h n.st k → n.st.log.take k <+: n'.st.log)
    (hmirrors : Mirrors h' id n'.st) (hindexed : Log.WellIndexed n'.st.log)
    (hcommit : n'.st.commitIndex = n.st.commitIndex ∨ SettledTo ids h' n'.st n'.st.commitIndex) :
    NodeSim ids h' id n' :=
  hs.follower hext (hh.term.symm ▸ hterm) hkeep hmirrors hindexed hh.matchIndex
    (congrArg Office.role hh.office) hcommit hh.applying hh.applied

section Append

variable {src : Str} {req : AppendEntriesRequest} {k : Nat} (hnd : ids.Nodup) (hs : Sim ids h c)
  (hv : h.Valid LogEntry.term (electing ids))

include hnd hv in
/-- Replacing the log by the slice keeps what is settled. -/
theorem keep_of_replaces (hk : Carries ids h req k)
    (hterm : (c.nodes id).st.currentTerm ≤ req.term)
    (hmay : History.MayReplace LogEntry.term (c.nodes id).st.log (h.chain req.term) k) (j : Nat)
    (hj : SettledTo ids h (c.nodes id).st j) :
    (c.nodes id).st.log.take j <+: (h.chain req.term).take k :=
  hmay.prefix_take (List.take_prefix _ _)
    (hj.2.prefix_chain hv (quorums_meet hnd) hterm hk.begun)

include hs hv

/-- What passes the check has the chain up to `PrevLogIndex`. -/
theorem prefix_of_carries (hk : Carries ids h req k) (hc : (c.nodes id).st.consistent req) :
    (h.chain req.term).take req.prevLogIndex <+: (c.nodes id).st.log := by
  refine prefix_of_consistent hk.slice ?_ ?_ hc
  · have hgrown := hv.log id
    rw [(hs.node id).mirrors.log] at hgrown
    exact matching_of_grown hgrown (hv.chain req.term)
  · exact fun x hx => (hs.founded x.term ((hv.chain req.term).start_of_mem hx)).1

theorem evolves_hear (hterm : (c.nodes id).st.currentTerm ≤ req.term) :
    Evolves ids c id h (h.hear id req.term) :=
  .hear hv ((hs.node id).mirrors.epoch.symm ▸ hterm)

/-- A request that leaves the log alone: refused by the check, or without entries. -/
theorem nodeSim_hear (hterm : (c.nodes id).st.currentTerm ≤ req.term)
    (hh : Heard (c.nodes id) req n') (hleader : req.leaderID ≠ [])
    (hlog : n'.st.log = (c.nodes id).st.log)
    (hcommit : n'.st.commitIndex = (c.nodes id).st.commitIndex ∨
      SettledTo ids (h.hear id req.term) n'.st n'.st.commitIndex) :
    NodeSim ids (h.hear id req.term) id n' := by
  have hnode := hs.node id
  have hmirrors : Mirrors (h.hear id req.term) id n'.st :=
    hh.mirrors hleader (Function.update_self ..) (Function.update_self ..)
      (hnode.mirrors.log.trans hlog.symm)
  exact hnode.heard hh (evolves_hear hs hv hterm).grows hterm
    (fun j _ => hlog ▸ List.take_prefix j _)
    hmirrors (hlog ▸ hnode.indexed) hcommit

theorem evolves_accept (hterm : (c.nodes id).st.currentTerm ≤ req.term)
    (hk : Carries ids h req k)
    (hmay : History.MayReplace LogEntry.term (c.nodes id).st.log (h.chain req.term) k) :
    Evolves ids c id h ((h.hear id req.term).accept id k) := by
  have hev := evolves_hear hs hv hterm
  have hepoch : (h.hear id req.term).epoch id = req.term := Function.update_self ..
  have hlog : (h.hear id req.term).log id = (c.nodes id).st.log := (hs.node id).mirrors.log
  refine hev.trans (.accept hev.valid (Function.update_self ..) ?_ ?_ ?_)
  · rw [hepoch]
    exact hk.begun
  · rw [hepoch]
    exact hk.slice.stop
  · rw [hepoch, hlog]
    exact hmay

include hnd in
/-- A request whose entries replace the rest of the log. -/
theorem nodeSim_accept (hterm : (c.nodes id).st.currentTerm ≤ req.term)
    (hh : Heard (c.nodes id) req n') (hleader : req.leaderID ≠ []) (hk : Carries ids h req k)
    (hmay : History.MayReplace LogEntry.term (c.nodes id).st.log (h.chain req.term) k)
    (hlog : n'.st.log = (h.chain req.term).take k)
    (hcommit : n'.st.commitIndex = (c.nodes id).st.commitIndex ∨
      SettledTo ids ((h.hear id req.term).accept id k) n'.st n'.st.commitIndex) :
    NodeSim ids ((h.hear id req.term).accept id k) id n' := by
  have hepoch : (h.hear id req.term).epoch id = req.term := Function.update_self ..
  have hmirrors : Mirrors ((h.hear id req.term).accept id k) id n'.st := by
    refine hh.mirrors hleader hepoch (Function.update_self ..) ((Function.update_self ..).trans ?_)
    rw [hepoch, hlog]
    rfl
  exact (hs.node id).heard hh (evolves_accept hs hv hterm hk hmay).grows hterm
    (fun j hj => hlog ▸ keep_of_replaces hnd hv hk hterm hmay j hj) hmirrors
    (hlog ▸ (hs.chains _).take k) hcommit

include hnd

/-- `HandleAppendEntries`. -/
theorem replay_appendReq
    (hmove : Move id peers (c.nodes id) (.receive (.appendReq src id req)) o)
    (hcare : (c.nodes id).careful peers (.receive (.appendReq src id req)))
    (hord : (c.nodes id).st.replaces req) (hid : id ∈ peersOf ids src) (hk : Carries ids h req k)
    (hleader : req.leaderID ≠ [])
    (ho : o = ⟨(c.nodes id).withState ((c.nodes id).st.handleAppendEntries req).1,
      [.appendResp id src req ((c.nodes id).st.handleAppendEntries req).2], []⟩) :
    ∃ h', Replay ids c id o h h' := by
  have hpack : ∀ {h' : Chronicle}, h.Extends h' →
      (((c.nodes id).st.handleAppendEntries req).2.success = true → req.entries ≠ [] →
        h'.acked id req.term k) → ∀ p ∈ o.packets, p.Sim ids h' (c.put id o) := by
    intro h' hext hack p hp
    rw [ho] at hp
    rw [List.mem_singleton.mp hp]
    exact ⟨hid, k, hk.slice.mono (hext.chain _), hack⟩
  have hvotes : o.votes = [] := by rw [ho]
  have hnone : ∀ {h' : Chronicle}, ∀ b ∈ o.votes, b.voter ≠ b.candidate →
      Backed h' (c.put id o) b := fun b hb => absurd (hvotes ▸ hb) List.not_mem_nil
  rcases Nat.lt_or_ge req.term (c.nodes id).st.currentTerm with hold | hterm
  · -- from the past: refused
    have hfail := mt (fun hsucc => (handleAppendEntries_success.mp hsucc).1) (Nat.not_le.mpr hold)
    have hpack' := hpack (.refl h) fun hsucc => absurd hsucc hfail
    rw [handleAppendEntries_of_stale hold] at ho
    subst ho
    exact ⟨h, Replay.still_sending hs hv hmove hcare hord (.refl _) rfl rfl hpack'
      fun _ hb => absurd hb List.not_mem_nil⟩
  have hst : o.node.st = ((c.nodes id).st.handleAppendEntries req).1 := by rw [ho]; rfl
  have hh : Heard (c.nodes id) req o.node := by
    rw [ho]
    exact heard_of_handle hterm
  have hev := evolves_hear hs hv hterm
  by_cases hc : (c.nodes id).st.consistent req
  · have hprev := prefix_of_carries hs hv hk hc
    obtain ⟨hlog, hcommit⟩ := handleAppendEntries_spec hk.slice (hs.chains _) hterm hc hprev
    rw [← hst] at hlog hcommit
    rw [Nat.min_eq_right hk.bounded] at hcommit
    have hcommit' : ∀ {h' : Chronicle}, h.Extends h' →
        (h.chain req.term).take k <+: o.node.st.log →
        o.node.st.commitIndex = (c.nodes id).st.commitIndex ∨
          SettledTo ids h' o.node.st o.node.st.commitIndex := by
      intro h' hext hpre
      rw [hcommit]
      split
      · exact .inr (settledTo_of_carries hk hext hh.term hpre)
      · exact .inl rfl
    by_cases hnil : req.entries = []
    · -- nothing to store
      rw [if_pos hnil] at hlog
      rw [← hk.slice.entries_eq_nil.mp hnil, ← hlog] at hprev
      exact ⟨_, hev, nodeSim_hear hs hv hterm hh hleader hlog (hcommit' hev.grows hprev),
        fun _ hT => .inl hT, hs.chains, hpack hev.grows fun _ hne => absurd hnil hne, hnone⟩
    · rw [if_neg hnil] at hlog
      have hmay := mayReplace_of_replaces hk.slice (hord hterm hc hnil)
      have hev' := evolves_accept hs hv hterm hk hmay
      have hepoch : (h.hear id req.term).epoch id = req.term := Function.update_self ..
      exact ⟨_, hev', nodeSim_accept hnd hs hv hterm hh hleader hk hmay hlog
          (hcommit' hev'.grows (hlog ▸ List.prefix_rfl)), fun _ hT => .inl hT, hs.chains,
        hpack hev'.grows fun _ _ => .inr ⟨rfl, hepoch.symm, rfl⟩, hnone⟩
  · -- the check fails: the sender is the leader, the log stays
    have hfail := mt (fun hsucc => (handleAppendEntries_success.mp hsucc).2) hc
    rw [handleAppendEntries_of_inconsistent hterm hc] at hst
    have hlog : o.node.st.log = (c.nodes id).st.log := by rw [hst]; rfl
    have hcommit : o.node.st.commitIndex = (c.nodes id).st.commitIndex := by rw [hst]; rfl
    exact ⟨_, hev, nodeSim_hear hs hv hterm hh hleader hlog (.inl hcommit), fun _ hT => .inl hT,
      hs.chains, hpack hev.grows fun hsucc => absurd hsucc hfail, hnone⟩

end Append

/-! ## 4. Leaders -/

theorem lastTerm_eq (l : Log) : History.lastTerm LogEntry.term l = Log.lastTerm l := by
  unfold History.lastTerm Log.lastTerm
  rcases l.getLast? with - | x <;> rfl

/-- A new leader starts with every peer one behind its last entry. -/
theorem leads_becomeLeader {s : State} (hbegun : h.start s.currentTerm ≠ none)
    (hchain : h.chain s.currentTerm = s.log) (hown : h.acked id s.currentTerm s.log.length)
    (hkeys : ∀ q ∈ s.matchIndex, q ∈ peersOf ids id) :
    Leads ids h id (s.becomeLeader id (peersOf ids id)) where
  begun := hbegun
  chain := hchain
  own := hown
  next q hq := by
    rw [State.prevIndex, State.becomeLeader]
    dsimp only
    rw [find_setAll, if_pos hq, Option.getD_some, Log.lastIndex]
    omega
  keys q hq := by
    refine GoMap.mem_iff_find.mpr ⟨0, ?_⟩
    rw [State.becomeLeader, find_setAll, if_pos hq]
  matched q m hm := by
    rw [State.becomeLeader, find_setAll] at hm
    split at hm
    · exact .inl (Option.some.inj hm).symm
    · rename_i hq
      exact absurd (hkeys q (GoMap.mem_of_find hm)) hq

/-- The keys stay the peers. -/
theorem keys_becomeLeader {s : State} (hkeys : ∀ q ∈ s.matchIndex, q ∈ peersOf ids id) :
    ∀ q ∈ (s.becomeLeader id (peersOf ids id)).matchIndex, q ∈ peersOf ids id := by
  intro q hq
  exact (mem_setAll hq).elim (fun hpeer => hpeer) (hkeys q)

section Leaders

variable (hnd : ids.Nodup) (hs : Sim ids h c) (hlaw : Lawful ids c)
  (hv : h.Valid LogEntry.term (electing ids))

include hs

/-- A candidate that has enough votes is up to date with everyone who gave it one. -/
theorem won_of_votes (hst : (c.nodes id).Standing T) {Q : Finset Str} (hQ : electing ids Q)
    (hvotes : ∀ q ∈ Q, ⟨q, T, id⟩ ∈ c.votes) :
    ∃ Q, electing ids Q ∧ ∀ q ∈ Q, ∃ l, h.voted q T l ∧
      History.UpToDate LogEntry.term (c.nodes id).st.log l := by
  refine ⟨Q, hQ, fun q hq => ?_⟩
  by_cases hself : q = id
  · subst hself
    exact ⟨_, ((hs.node q).standing T hst).2, .inr ⟨rfl, le_rfl⟩⟩
  · obtain ⟨dst, election, req, l, hmem, hterm, hvoted, hcovers⟩ :=
      hs.backed _ (hvotes q hq) hself
    obtain ⟨-, hinfo⟩ := hs.net _ hmem
    dsimp only at hterm hinfo hvoted
    obtain ⟨hindex, hlast⟩ := hinfo (hterm ▸ hst)
    refine ⟨l, hvoted, ?_⟩
    rw [History.UpToDate, lastTerm_eq, lastTerm_eq, ← hlast]
    rcases hcovers with hlt | ⟨heq, hle⟩
    · exact .inl hlt
    · exact .inr ⟨heq.symm, by rw [hindex] at hle; exact hle⟩

include hnd hlaw

include hv

/-- `BecomeLeader` after an election that is won. -/
theorem replay_win (hids : [] ∉ ids) (hid : id ∈ ids)
    (hcare : (c.nodes id).careful (peersOf ids id) .tally) {election term votes : Nat}
    (hphase : (c.nodes id).phase = .waiting election term votes [])
    (henough : Node.votesNeeded (peersOf ids id) ≤ votes) :
    ∃ h', Replay ids c id (((c.nodes id).withState
      ((c.nodes id).st.becomeLeader id (peersOf ids id))).goto .top).silent h h' := by
  have hnode := hs.node id
  have hwin : (c.nodes id).winsOwnTerm (peersOf ids id) := hcare
  rw [Node.winsOwnTerm, hphase] at hwin
  obtain ⟨rfl, hrole⟩ := hwin henough
  set term := (c.nodes id).st.currentTerm with hterm
  have hin : (c.nodes id).InElection term := .inr ⟨_, _, _, hphase⟩
  have hst : (c.nodes id).Standing term := ⟨hrole, rfl, hin⟩
  obtain ⟨Q, -, hQ, hcard, hvotes⟩ := (hlaw.runner id _ _ _ _ hphase).majority hnd hid henough
  have hnew : h.start term = none := by
    by_contra hbegun
    exact not_founded_of_votes hnd hlaw hin ⟨hQ, hcard⟩ hvotes (hs.founded term hbegun)
  have hwon := won_of_votes hs hst ⟨hQ, hcard⟩ hvotes
  have hepoch : (h.hear id term).epoch id = term := Function.update_self ..
  have hlog : (h.hear id term).log id = (c.nodes id).st.log := hnode.mirrors.log
  have hev : Evolves ids c id h (h.hear id term) := .hear hv hnode.mirrors.epoch.le
  have hev' : Evolves ids c id h ((h.hear id term).elect id) := by
    refine hev.trans (.elect hev.valid ?_ ?_ fun q _ hr => ((hs.node q).leads hr).begun)
    · rw [hepoch]
      exact hnew
    · rw [hepoch, hlog]
      exact hwon
  have hstart : ∀ T, ((h.hear id term).elect id).start T =
      if T = term then some (c.nodes id).st.log else h.start T := fun T => by
    rw [History.start_elect, hepoch, hlog]
    rfl
  have hchain : ∀ T, ((h.hear id term).elect id).chain T =
      if T = term then (c.nodes id).st.log else h.chain T := fun T => by
    rw [History.chain_elect, hepoch, hlog]
    rfl
  have hown : ((h.hear id term).elect id).acked id term (c.nodes id).st.log.length :=
    .inr ⟨rfl, hepoch.symm, by rw [hlog]⟩
  refine ⟨_, hev', ?_, fun T hT => ?_, fun T => ?_, fun p hp => absurd hp List.not_mem_nil,
    fun b hb => absurd hb List.not_mem_nil⟩
  · have hbegun : ((h.hear id term).elect id).start term ≠ none := by
      rw [hstart, if_pos rfl]
      exact Option.some_ne_none _
    have hled : ((h.hear id term).elect id).chain term = (c.nodes id).st.log := by
      rw [hchain, if_pos rfl]
    refine hnode.evolve hev'.grows le_rfl (fun k _ => List.take_prefix k _) ⟨hepoch, ?_, hlog⟩
      hnode.indexed (keys_becomeLeader hnode.keys)
      (fun _ => leads_becomeLeader hbegun hled hown hnode.keys) ?_ (.inl rfl)
      (fun i _ hk => .inr ⟨i, hk⟩) fun _ hx => .inl hx
    · refine (Function.update_self ..).trans (decide_eq_true ?_).symm
      exact fun h0 => hids (h0 ▸ hid)
    · exact fun T hT => absurd hT.role (by simp [Node.silent, Node.goto, Node.withState,
        State.becomeLeader])
  · by_cases hT' : T = term
    · subst hT'
      refine .inr ⟨(hnode.standing _ hst).1, id, Q, ⟨hQ, hcard⟩,
        fun q hq => List.mem_append_left _ (hvotes q hq), ?_, ?_⟩
      · rw [c.put_nodes_self]
        exact le_rfl
      · rw [c.put_nodes_self]
        rintro (hp | ⟨_, _, _, hp⟩)
        · exact absurd hp (by simp [Node.silent, Node.goto])
        · exact absurd hp (by simp [Node.silent, Node.goto])
    · rw [hstart, if_neg hT'] at hT
      exact .inl hT
  · rw [hchain]
    split
    · exact hnode.indexed
    · exact hs.chains T

/-- The append of a proposal, by a leader of the term it was given. -/
theorem replay_append {term : Nat} (hlead : (c.nodes id).st.leads term) (command : Str) :
    ∃ h', Replay ids c id
      ((c.nodes id).withState ((c.nodes id).st.propose term command)).silent h h' := by
  obtain ⟨hrole, rfl⟩ := hlead
  have hnode := hs.node id
  have hl := hnode.leads hrole
  have hepoch := hnode.mirrors.epoch
  have hlog := hnode.mirrors.log
  set x : LogEntry :=
    ⟨(c.nodes id).st.log.length + 1, (c.nodes id).st.currentTerm, .command, command⟩ with hx
  have hother : ∀ q, q ≠ id → (c.nodes q).st.state = .leader →
      (c.nodes q).st.currentTerm ≠ h.epoch id := by
    intro q hq hr heq
    rw [hepoch] at heq
    obtain ⟨Q, -, hQ, hcard, hvotes⟩ := hlaw.leader q hr
    obtain ⟨Q', -, hQ', hcard', hvotes'⟩ := hlaw.leader id hrole
    obtain ⟨v, hv, hv'⟩ := exists_common_voter hnd hQ hQ' hcard hcard'
    exact hq ((hlaw.voter v).polled.once _ _ _ (heq ▸ hvotes v hv) (hvotes' v hv'))
  have hev : Evolves ids c id h (h.propose id x) :=
    .propose hv hepoch.symm (by rw [hlog, hepoch, hl.chain]) (by rw [hepoch]; exact hl.begun) hother
  have hlog' : (h.propose id x).log id = (c.nodes id).st.log ++ [x] := by
    rw [History.propose, hlog]
    exact Function.update_self ..
  have hchain : ∀ T, (h.propose id x).chain T =
      if T = (c.nodes id).st.currentTerm then (c.nodes id).st.log ++ [x] else h.chain T :=
    fun T => by rw [History.chain_propose, hlog, hepoch]
  have hindexed : Log.WellIndexed ((c.nodes id).st.log ++ [x]) :=
    Log.wellIndexed_concat hnode.indexed rfl
  refine ⟨_, hev, ?_, fun _ hT => .inl hT, fun T => ?_, fun p hp => absurd hp List.not_mem_nil,
    fun b hb => absurd hb List.not_mem_nil⟩
  · refine hnode.evolve hev.grows le_rfl
      (fun k _ => (List.take_prefix k _).trans (List.prefix_append _ _))
      ⟨hepoch, hnode.mirrors.followed, hlog'⟩ hindexed hnode.keys (fun _ => ?_)
      (fun T hT => absurd (hrole.symm.trans hT.role) (by simp)) (.inl rfl)
      (fun i _ hk => .inr ⟨i, hk⟩) fun _ hx => .inl hx
    refine ⟨hl.begun, (hchain _).trans (if_pos rfl), .inr ⟨rfl, hepoch.symm, ?_⟩,
      fun q hq => ?_, hl.keys,
      fun q m hm => (hl.matched q m hm).imp_right (hev.grows.acked _ _ _)⟩
    · rw [hlog]
      exact List.length_append
    · obtain ⟨hsmall, hprev⟩ := hl.next q hq
      exact ⟨hsmall, hprev.trans (List.prefix_append _ [x]).length_le⟩
  · rw [hchain]
    split
    · exact hindexed
    · exact hs.chains T

end Leaders

/-- `SetCommitIndex` in `updateCommitIndex`, whose tests the leader has passed. -/
theorem replay_setCommit (hs : Sim ids h c) (hv : h.Valid LogEntry.term (electing ids))
    (hrole : (c.nodes id).st.state = .leader) {index : Nat}
    (hphase : (c.nodes id).phase = .updating (.agreed index)) :
    ∃ h', Replay ids c id (((c.nodes id).withState
      { (c.nodes id).st with commitIndex := index }).goto .recheck).silent h h' := by
  have hnode := hs.node id
  have hsettled : SettledTo ids h (c.nodes id).st index := (hs.updating id _ hphase hrole).2
  refine ⟨h, .refl hv, ?_, fun _ hT => .inl hT, hs.chains, fun p hp => absurd hp List.not_mem_nil,
    fun b hb => absurd hb List.not_mem_nil⟩
  exact hnode.evolve (.refl h) le_rfl (fun k _ => List.take_prefix k _)
    (hnode.mirrors.congr rfl rfl) hnode.indexed hnode.keys
    (fun _ => (hnode.leads hrole).congr rfl rfl rfl rfl)
    (fun T hT => absurd (hrole.symm.trans hT.role) (by simp)) (.inr hsettled)
    (fun i _ hk => .inr ⟨i, hk⟩) fun _ hx => .inl hx

section Answer

variable {src : Str} {req : AppendEntriesRequest} {resp : AppendEntriesResponse}
  (hs : Sim ids h c) (hv : h.Valid LogEntry.term (electing ids))
  (hmove : Move id peers (c.nodes id) e o) (hcare : (c.nodes id).careful peers e)
  (hord : (c.nodes id).orderly e)

include hs hv hmove hcare hord

/-- An event that changes nothing but the indices of a leader. -/
theorem replay_indices (hoffice : o.node.st.office = (c.nodes id).st.office)
    (hlog : o.node.st.log = (c.nodes id).st.log)
    (hcommit : o.node.st.commitIndex = (c.nodes id).st.commitIndex)
    (hkeys : ∀ q ∈ o.node.st.matchIndex, q ∈ peersOf ids id)
    (hleads : (c.nodes id).st.state = .leader → Leads ids h id o.node.st)
    (happlying : o.node.applying = (c.nodes id).applying)
    (happlied : o.node.applied = (c.nodes id).applied) (hpackets : o.packets = [])
    (hvotes : o.votes = []) : ∃ h', Replay ids c id o h h' := by
  have hnode := hs.node id
  have hterm : o.node.st.currentTerm = (c.nodes id).st.currentTerm := congrArg Office.term hoffice
  refine ⟨h, .refl hv, ?_, fun _ hT => .inl hT, hs.chains,
    fun _ hp => absurd (hpackets ▸ hp) List.not_mem_nil,
    fun _ hb => absurd (hvotes ▸ hb) List.not_mem_nil⟩
  refine hnode.evolve (.refl h) hterm.ge (fun k _ => hlog ▸ List.take_prefix k _)
    (hnode.mirrors.congr hoffice hlog) (hlog ▸ hnode.indexed) hkeys
    (fun hr => hleads ((congrArg Office.role hoffice).symm.trans hr))
    (fun T hT => ?_) (.inl hcommit) (fun i _ hk => .inr ⟨i, happlying ▸ hk⟩)
    fun _ hx => .inl (happlied ▸ hx)
  rcases standing_of_move hmove hcare hord hT with ⟨hold, -⟩ | hlt
  · rw [hlog]
    exact hnode.standing T hold
  · have := hT.term
    omega

end Answer

section Indices

variable {s : State} {src : Str} {req : AppendEntriesRequest} {k : Nat}

/-- A success notes how far the peer has the chain. -/
theorem leads_noteSuccess (hl : Leads ids h id s) (hindexed : Log.WellIndexed s.log)
    (hterm : s.currentTerm = req.term) (hslice : Slice (h.chain req.term) k req)
    (hack : h.acked src req.term k) (hne : req.entries ≠ []) :
    Leads ids h id (s.noteSuccess src req.entries) := by
  rw [← hterm] at hslice hack
  rw [hl.chain] at hslice
  have hlast := hslice.lastNewEntry_eq hindexed
  obtain ⟨x, hx⟩ : ∃ x, req.entries.getLast? = some x := by
    rw [← Option.isSome_iff_exists, List.getLast?_isSome]
    exact hne
  have hxk : x.index = k := by
    rw [State.lastNewEntry, hx] at hlast
    exact hlast
  have hstop := hslice.stop
  rw [State.noteSuccess, hx]
  refine ⟨hl.begun, hl.chain, hl.own, fun q hq => ?_, fun q hq => ?_, fun q m hm => ?_⟩
  · rw [State.prevIndex]
    dsimp only
    rw [GoMap.find_insert]
    split
    · rw [Option.getD_some, hxk]
      omega
    · exact hl.next q hq
  · rw [GoMap.mem_iff_find]
    dsimp only
    rw [GoMap.find_insert]
    split
    · exact ⟨_, rfl⟩
    · exact GoMap.mem_iff_find.mp (hl.keys q hq)
  · dsimp only at hm
    rw [GoMap.find_insert] at hm
    split at hm
    · rename_i heq
      rw [heq, ← Option.some.inj hm, hxk]
      exact .inr hack
    · exact hl.matched q m hm

/-- A failure steps back, and stays in the log. -/
theorem leads_noteFailure (hl : Leads ids h id s) (hsrc : src ∈ peersOf ids id) :
    Leads ids h id (s.noteFailure src) := by
  unfold State.noteFailure
  split
  · rename_i hlt
    refine ⟨hl.begun, hl.chain, hl.own, fun q hq => ?_, hl.keys, hl.matched⟩
    obtain ⟨hsmall, hprev⟩ := hl.next src hsrc
    rw [State.prevIndex] at hprev
    rw [State.prevIndex]
    dsimp only
    rw [GoMap.find_insert]
    split
    · rw [Option.getD_some]
      omega
    · exact hl.next q hq
  · exact hl

end Indices

/-- The goroutine of `sendHeartbeats` gets an answer. -/
theorem replay_appendResp {src : Str} {req : AppendEntriesRequest} {resp : AppendEntriesResponse}
    {k : Nat} (hs : Sim ids h c) (hv : h.Valid LogEntry.term (electing ids))
    (hmove : Move id peers (c.nodes id) (.receive (.appendResp src id req resp)) o)
    (hcare : (c.nodes id).careful peers (.receive (.appendResp src id req resp)))
    (hord : (c.nodes id).orderly (.receive (.appendResp src id req resp)))
    (hsrc : src ∈ peersOf ids id) (hslice : Slice (h.chain req.term) k req)
    (hack : resp.success = true → req.entries ≠ [] → h.acked src req.term k)
    (ho : o = ((c.nodes id).appendReply src req resp).silent) : ∃ h', Replay ids c id o h h' := by
  have hnode := hs.node id
  rw [Node.appendReply] at ho
  by_cases hnew : resp.term > req.term
  · rw [if_pos hnew] at ho
    subst ho
    exact replay_heed hs hv hmove hcare hord (hcare hnew) rfl rfl rfl rfl rfl
  rw [if_neg hnew] at ho
  by_cases hsucc : resp.success = true
  · rw [if_pos hsucc] at ho
    subst ho
    refine replay_indices hs hv hmove hcare hord (office_noteSuccess _ _ _) (noteSuccess_log _ _ _)
      ?_ ?_ ?_
      rfl rfl rfl rfl
    · change ((c.nodes id).st.noteSuccess src req.entries).commitIndex = _
      unfold State.noteSuccess
      split <;> rfl
    · intro q hq
      change q ∈ ((c.nodes id).st.noteSuccess src req.entries).matchIndex at hq
      unfold State.noteSuccess at hq
      split at hq
      · rw [GoMap.mem_iff_find] at hq
        dsimp only at hq
        rw [GoMap.find_insert] at hq
        split at hq
        · rename_i heq
          exact heq ▸ hsrc
        · exact hnode.keys q (GoMap.mem_iff_find.mpr hq)
      · exact hnode.keys q hq
    · intro hrole
      by_cases hne : req.entries = []
      · change Leads ids h id ((c.nodes id).st.noteSuccess src req.entries)
        rw [hne]
        exact hnode.leads hrole
      · have hlead := hord (Nat.not_lt.mp hnew) hsucc hne
        exact leads_noteSuccess (hnode.leads hrole) hnode.indexed hlead.2 hslice
          (hack hsucc hne) hne
  · rw [if_neg hsucc] at ho
    subst ho
    refine replay_indices hs hv hmove hcare hord (office_noteFailure _ _) (noteFailure_log _ _)
      ?_ ?_ (fun hrole => leads_noteFailure (hnode.leads hrole) hsrc) rfl rfl rfl rfl
    · change ((c.nodes id).st.noteFailure src).commitIndex = _
      unfold State.noteFailure
      split <;> rfl
    · change ∀ q ∈ ((c.nodes id).st.noteFailure src).matchIndex, q ∈ peersOf ids id
      unfold State.noteFailure
      split <;> exact hnode.keys

end SkyLock.Raft
