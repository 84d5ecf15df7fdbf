/-
# `nextIndex` does not underflow

The goroutines of `sendHeartbeats` compute `nextIndex[peer] - 1` in `uint64`.  A missing entry reads
as 0, and then the difference is `2 ^ 64 - 1`.  That does not happen: `BecomeLeader` fills in an
entry for every peer before the main loop gets to `runLeader`, no entry is ever removed, and every
value that is written is at least 1.  The last point rests on the log for a success, since the index
that comes back is one that the log has assigned, and on the guard for a failure.

The statement is about ONE node and needs nothing of the others.  Its environment may deliver
anything at any time, also what no peer would send; only a response to a heartbeat answers a request
that the node has sent, possibly long ago, and a goroutine that runs is one that the node has
started.  `party_of_cluster` sees every node of a cluster in this way.

A log is a Go slice, and so shorter than `2 ^ 63`.
-/
import SkyLock.Raft.Calls

namespace SkyLock.Raft

variable {id : Str} {peers : List Str} {n : Node} {e : Event} {o : Outcome}

/-! ## 1. A node and its environment -/

/-- A node with everything it has sent. -/
structure Party where
  node : Node
  sent : List Packet

def newParty : Party := ⟨newNode, []⟩

/-- A goroutine has been started, and a response to `AppendEntries` goes to the call it answers. -/
def Event.answers (sent : List Packet) : Event → Prop
  | .receive (.heartbeatTask src dst term draft) => .heartbeatTask src dst term draft ∈ sent
  | .receive (.appendResp src dst req _) => .appendReq dst src req ∈ sent
  | _ => True

instance (sent : List Packet) (e : Event) : Decidable (e.answers sent) := by
  unfold Event.answers
  split <;> infer_instance

def Party.step (id : Str) (peers : List Str) (x : Party) (e : Event) : Option Party :=
  if e.answers x.sent then
    (Node.step id peers x.node e).map fun o => ⟨o.node, x.sent ++ o.packets⟩
  else none

/-- The log stays one that a Go slice can hold. -/
def Party.fits (id : Str) (peers : List Str) (x : Party) (e : Event) : Prop :=
  ∀ y ∈ Party.step id peers x e, y.node.st.log.length < 2 ^ 63

instance (id : Str) (peers : List Str) (x : Party) (e : Event) :
    Decidable (x.fits id peers e) :=
  inferInstanceAs (Decidable (∀ y ∈ Party.step id peers x e, y.node.st.log.length < 2 ^ 63))

theorem Party.step_eq_some {x y : Party} :
    Party.step id peers x e = some y ↔ e.answers x.sent ∧
      ∃ o, Node.step id peers x.node e = some o ∧ y = ⟨o.node, x.sent ++ o.packets⟩ := by
  unfold Party.step
  rw [Option.ite_none_right_eq_some, Option.map_eq_some_iff]
  refine and_congr_right fun _ => exists_congr fun o => ?_
  exact and_congr_right fun _ => eq_comm

/-! ## 2. The way into `runLeader` -/

/-- The main loop is in `runLeader`. -/
def Phase.leads : Phase → Bool
  | .leading | .idle | .updating _ | .recheck => true
  | _ => false

theorem countVote_leads (n : Node) (peer : Str) (granted : Bool) :
    (n.countVote peer granted).phase.leads = n.phase.leads := by
  unfold Node.countVote
  split
  · rename_i hphase
    rw [hphase]
    rfl
  · rfl

theorem voteReply_leads (n : Node) (election : Nat) (peer : Str) (req : VoteRequest)
    (resp : VoteResponse) :
    (n.voteReply election peer req resp).phase.leads = n.phase.leads := by
  unfold Node.voteReply
  by_cases hnew : resp.term > req.term <;> by_cases haw : n.awaits election peer <;>
    simp [hnew, haw, countVote_leads, Node.withState]

theorem leads_of_sendHeartbeats (h : Node.step id peers n .sendHeartbeats = some o) :
    n.phase.leads = true := by
  simp only [Node.step] at h
  split at h
  · rename_i hphase
    rw [hphase]
    rfl
  · rename_i hphase
    rw [hphase]
    rfl
  · cases h

theorem leads_of_leaderCheck (h : Node.step id peers n .leaderCheck = some o) :
    n.phase.leads = true := by
  simp only [Node.step] at h
  split at h
  · rename_i hphase
    rw [hphase]
    rfl
  · cases h

theorem leads_of_updateCommit (h : Node.step id peers n .updateCommit = some o) :
    n.phase.leads = true := by
  simp only [Node.step] at h
  split at h
  · rename_i hphase
    rw [hphase]
    rfl
  · cases h

theorem leader_of_dispatch (h : Node.step id peers n .dispatch = some o)
    (hleads : o.node.phase.leads = true) : n.st.state = .leader := by
  simp only [Node.step] at h
  split at h
  · split at h <;> obtain rfl := Option.some.inj h
    · cases hleads
    · cases hleads
    · rename_i hrole
      exact hrole
  · cases h

/-- The main loop enters `runLeader` only as a leader. -/
theorem leads_of_step (h : Node.step id peers n e = some o) (hleads : o.node.phase.leads = true) :
    n.phase.leads = true ∨ n.st.state = .leader := by
  cases move_of_step h with
  | dispatch => exact .inr (leader_of_dispatch h hleads)
  | sendHeartbeats => exact .inl (leads_of_sendHeartbeats h)
  | updateCommit => exact .inl (leads_of_updateCommit h)
  | readTerm _ hphase | passIndex _ _ hphase | passTerm _ _ hphase | setCommit _ hphase
  | leaveCommit _ hphase => exact .inl (by rw [hphase]; rfl)
  | leaderCheck => exact .inl (leads_of_leaderCheck h)
  | voteFailed _ _ _ _ peer => exact .inl (countVote_leads n peer false ▸ hleads)
  | voteResp src election req resp => exact .inl (voteReply_leads n election src req resp ▸ hleads)
  | appendResp src req resp => exact .inl (appendReply_phase n src req resp ▸ hleads)
  | timeout | giveUp | campaign | voteForSelf | win | lose => exact absurd hleads nofun
  | propose | applyRead | applyEntry | applyGap | applyDone | read | append | voteReq | appendReq =>
    exact .inl hleads

/-- A node is a leader because it was one, or because it has just filled in `nextIndex`. -/
theorem filled_of_move (h : Move id peers n e o) (hrole : o.node.st.state = .leader) :
    n.st.state = .leader ∨ ∀ peer ∈ peers, peer ∈ o.node.st.nextIndex := by
  rcases (leader_of_move h hrole).2 with hbefore | ⟨rfl, -⟩
  · exact .inl hbefore
  · cases h with
    | lose => exact absurd hrole nofun
    | win =>
      refine .inr fun peer hpeer => ?_
      have hfind := find_setAll ((Log.lastIndex n.st.log + 1) % 2 ^ 64) peers n.st.nextIndex peer
      rw [if_pos hpeer] at hfind
      exact GoMap.mem_of_find hfind

/-! ## 3. The invariant -/

structure Aiming (peers : List Str) (x : Party) : Prop where
  indexed : Log.WellIndexed x.node.st.log
  short : x.node.st.log.length < 2 ^ 63
  positive : ∀ {peer next}, x.node.st.nextIndex.find peer = some next → 1 ≤ next ∧ next < 2 ^ 64
  led : x.node.st.state = .leader ∨ x.node.phase.leads = true →
    ∀ peer ∈ peers, peer ∈ x.node.st.nextIndex
  tasks : ∀ {src dst term draft}, .heartbeatTask src dst term draft ∈ x.sent →
    dst ∈ x.node.st.nextIndex
  drafts : ∀ {src dst term i t entries last},
    .heartbeatTask src dst term (.entries i t entries) ∈ x.sent →
      entries.getLast? = some last → 1 ≤ last.index ∧ last.index < 2 ^ 63
  entries : ∀ {src dst req last}, .appendReq src dst req ∈ x.sent →
    req.entries.getLast? = some last → 1 ≤ last.index ∧ last.index < 2 ^ 63

theorem aiming_newParty (peers : List Str) : Aiming peers newParty := by
  refine ⟨Log.wellIndexed_nil, by decide, ?_, ?_, nofun, nofun, nofun⟩
  · intro peer next h
    exact absurd h nofun
  · rintro (h | h) <;> exact absurd h nofun

/-- No entry of `nextIndex` is removed. -/
theorem Aimed.mem (h : Aimed id peers n e o) {peer : Str} (hpeer : peer ∈ n.st.nextIndex) :
    peer ∈ o.node.st.nextIndex := by
  cases h with
  | keep nextIndex => exact nextIndex ▸ hpeer
  | reset nextIndex =>
    rw [GoMap.mem_iff_find] at hpeer ⊢
    rw [nextIndex, find_setAll]
    split
    · exact ⟨_, rfl⟩
    · exact hpeer
  | advance _ _ _ _ _ nextIndex =>
    rw [nextIndex]
    exact Finmap.mem_insert.mpr (.inr hpeer)
  | retreat _ _ _ _ _ _ nextIndex =>
    rw [nextIndex]
    exact Finmap.mem_insert.mpr (.inr hpeer)

/-- The values that are written are at least 1. -/
theorem Aiming.positive_step {x : Party} (h : Aiming peers x) (hans : e.answers x.sent)
    (ha : Aimed id peers x.node e o) {peer : Str} {next : Nat}
    (hnext : o.node.st.nextIndex.find peer = some next) : 1 ≤ next ∧ next < 2 ^ 64 := by
  have hshort := h.short
  cases ha with
  | keep nextIndex => exact h.positive (nextIndex ▸ hnext)
  | reset nextIndex =>
    rw [nextIndex, find_setAll] at hnext
    split at hnext
    · obtain rfl := Option.some.inj hnext
      rw [Log.lastIndex]
      omega
    · exact h.positive hnext
  | advance src req resp last hlast nextIndex =>
    obtain ⟨hpos, hlt⟩ := h.entries hans hlast
    rw [nextIndex, GoMap.find_insert] at hnext
    split at hnext
    · obtain rfl := Option.some.inj hnext
      omega
    · exact h.positive hnext
  | retreat src req resp v before hv nextIndex =>
    obtain ⟨-, hlt⟩ := h.positive before
    rw [nextIndex, GoMap.find_insert] at hnext
    split at hnext
    · obtain rfl := Option.some.inj hnext
      omega
    · exact h.positive hnext

theorem Aiming.step {x y : Party} (h : Aiming peers x) (hfits : x.fits id peers e)
    (hs : Party.step id peers x e = some y) : Aiming peers y := by
  have hshort := hfits y hs
  obtain ⟨hans, o, ho, rfl⟩ := Party.step_eq_some.mp hs
  have hmove := move_of_step ho
  have haimed := aimed_of_move hmove
  refine ⟨wellIndexed_of_move hmove h.indexed, hshort, h.positive_step hans haimed, ?_, ?_, ?_, ?_⟩
  · intro hled peer hpeer
    have hbefore : (x.node.st.state = .leader ∨ x.node.phase.leads = true) ∨
        ∀ peer ∈ peers, peer ∈ o.node.st.nextIndex := by
      rcases hled with hrole | hleads
      · exact (filled_of_move hmove hrole).imp_left .inl
      · exact .inl (leads_of_step ho hleads).symm
    rcases hbefore with hbefore | hfilled
    · exact haimed.mem (h.led hbefore peer hpeer)
    · exact hfilled peer hpeer
  · intro src dst term draft hp
    rcases List.mem_append.mp hp with hp | hp
    · exact haimed.mem (h.tasks hp)
    · cases sent_of_move hmove hp with
      | heartbeatTask _ hpeer =>
        exact haimed.mem (h.led (.inr (leads_of_sendHeartbeats ho)) _ hpeer)
      | read task _ hread => cases hread <;> exact haimed.mem (h.tasks hans)
  · intro src dst term i t entries last hp hlast
    rcases List.mem_append.mp hp with hp | hp
    · exact h.drafts hp hlast
    · cases sent_of_move hmove hp with
      | read task _ hread =>
        -- the entries are read off the log, and the log has numbered them
        cases hread with
        | entries =>
          rw [entriesAfter_eq_drop] at hlast
          have hmem := List.mem_of_mem_drop (List.mem_of_getLast? hlast)
          have hbounds := h.indexed.index_le hmem
          exact ⟨hbounds.1, hbounds.2.trans_lt h.short⟩
  · intro src dst req last hp hlast
    rcases List.mem_append.mp hp with hp | hp
    · exact h.entries hp hlast
    · cases sent_of_move hmove hp with
      | read task _ hread =>
        cases hread with
        | commitIndex => exact h.drafts hans hlast

/-! ## 4. No underflow -/

theorem prevIndex_eq {s : State} {peer : Str} {next : Nat} (h : s.nextIndex.find peer = some next)
    (hpos : 1 ≤ next) (hlt : next < 2 ^ 64) : s.prevIndex peer = next - 1 := by
  rw [State.prevIndex, h, Option.getD_some]
  omega

/-- `nextIndex` has an entry for the peer from which 1 can be subtracted. -/
def State.Aims (s : State) (peer : Str) : Prop :=
  ∃ next, s.nextIndex.find peer = some next ∧ 1 ≤ next ∧ s.prevIndex peer = next - 1

theorem Aiming.aims {x : Party} (h : Aiming peers x) {peer : Str}
    (hpeer : peer ∈ x.node.st.nextIndex) : x.node.st.Aims peer := by
  obtain ⟨next, hnext⟩ := GoMap.mem_iff_find.mp hpeer
  obtain ⟨hpos, hlt⟩ := h.positive hnext
  exact ⟨next, hnext, hpos, prevIndex_eq hnext hpos hlt⟩

theorem aiming_of_run {x : Party}
    (hrun : Lts.Run (Party.step id peers) (Party.fits id peers) newParty x) : Aiming peers x :=
  hrun.invariant (aiming_newParty peers) fun _ _ _ h hfits hs => h.step hfits hs

/-- **`nextIndex` does not underflow.**  For every node, over every run: when `sendHeartbeats` is
called, and when one of its goroutines runs, `nextIndex` has an entry of at least 1 for the peer,
and `nextIndex[peer] - 1` is the difference. -/
theorem nextIndex_never_underflows {x : Party}
    (hrun : Lts.Run (Party.step id peers) (Party.fits id peers) newParty x) :
    (Node.step id peers x.node .sendHeartbeats ≠ none → ∀ peer ∈ peers, x.node.st.Aims peer) ∧
    ∀ src peer term draft, .heartbeatTask src peer term draft ∈ x.sent → x.node.st.Aims peer := by
  have h := aiming_of_run hrun
  constructor
  · intro hsend peer hpeer
    obtain ⟨o, ho⟩ := Option.ne_none_iff_exists'.mp hsend
    exact h.aims (h.led (.inr (leads_of_sendHeartbeats ho)) peer hpeer)
  · intro src peer term draft hp
    exact h.aims (h.tasks hp)

/-- A node is elected, replicates one entry and is told afterwards that an empty heartbeat of the
same leadership failed. -/
def lateFailure : List Event :=
  let n1 := "n1".toList
  let n2 := "n2".toList
  let entry : LogEntry := ⟨1, 1, .command, "x".toList⟩
  let build (entries : List LogEntry) : List Event :=
    (buildAppend n1 n2 ⟨1, n1, 0, 0, entries, 0⟩).map Action.event
  [.dispatch, .electionTimeout, .dispatch, .becomeCandidate, .voteForSelf,
    .receive (.voteResp n2 n1 0 ⟨1, n1, 0, 0⟩ ⟨1, true⟩), .tally, .dispatch, .sendHeartbeats] ++
  build [] ++ (proposing n1 1 "x".toList).map Action.event ++ build [entry] ++
  [.receive (.appendResp n2 n1 ⟨1, n1, 0, 0, [entry], 0⟩ ⟨1, true⟩),
    .receive (.appendResp n2 n1 ⟨1, n1, 0, 0, [], 0⟩ ⟨1, false⟩)]

theorem nextIndex_never_underflows_lateFailure :
    ∃ x, Lts.Run (Party.step "n1".toList ["n2".toList]) (Party.fits "n1".toList ["n2".toList])
        newParty x ∧
      x.node.st.nextIndex.find "n2".toList = some 1 ∧ x.node.st.Aims "n2".toList := by
  obtain ⟨x, hrun, hone, hsend⟩ : ∃ x, Lts.Run (Party.step "n1".toList ["n2".toList])
      (Party.fits "n1".toList ["n2".toList]) newParty x ∧
      x.node.st.nextIndex.find "n2".toList = some 1 ∧
      (Node.step "n1".toList ["n2".toList] x.node .sendHeartbeats).isSome = true :=
    Lts.exists_run lateFailure (by decide +kernel)
  have hsend' : Node.step "n1".toList ["n2".toList] x.node .sendHeartbeats ≠ none :=
    Option.isSome_iff_ne_none.mp hsend
  exact ⟨x, hrun, hone, (nextIndex_never_underflows hrun).1 hsend' _ List.mem_cons_self⟩

/-! ## 5. The nodes of a cluster -/

def Packet.source : Packet → Str
  | .voteTask src _ _ _ _ | .voteReq src _ _ _ | .voteResp src _ _ _ _ | .heartbeatTask src _ _ _
  | .appendReq src _ _ | .appendResp src _ _ _ | .proposal src _ _ => src

/-- A node of a cluster, with what it has sent. -/
def Cluster.party (c : Cluster) (id : Str) : Party :=
  ⟨c.nodes id, c.net.filter fun p => p.source = id⟩

/-- The logs stay ones that Go slices can hold. -/
def Cluster.fits (ids : List Str) (c : Cluster) (a : Action) : Prop :=
  ∀ c' ∈ Cluster.step ids c a, (c'.nodes a.node).st.log.length < 2 ^ 63

/-- Every response in the net answers a request in the net. -/
def Cluster.Answered (c : Cluster) : Prop :=
  ∀ {src dst req resp}, .appendResp src dst req resp ∈ c.net → .appendReq dst src req ∈ c.net

theorem source_of_move {p : Packet} (h : Move id peers n e o) (hp : p ∈ o.packets) :
    p.source = id := by
  cases sent_of_move h hp with
  | read task next hread => cases hread <;> rfl
  | _ => rfl

theorem Cluster.Answered.step {ids : List Str} {c c' : Cluster} {a : Action} (h : c.Answered)
    (hs : Cluster.step ids c a = some c') : c'.Answered := by
  obtain ⟨-, havail, o, ho, rfl⟩ := Cluster.step_eq_some.mp hs
  intro src dst req resp hp
  refine List.mem_append_left _ ?_
  rcases List.mem_append.mp hp with hp | hp
  · exact h hp
  · have hsent := sent_of_move (move_of_step ho) hp
    generalize a.event = e at hsent havail
    cases hsent with
    | appendResp => exact havail
    | read task _ hread => cases hread

/-- One event of the cluster is an event of the node where it happens, and nothing to the others. -/
theorem party_of_step {ids : List Str} {c c' : Cluster} {a : Action} (h : c.Answered)
    (hfits : c.fits ids a) (hs : Cluster.step ids c a = some c') (id : Str) :
    c'.party id = c.party id ∨
      (c.party id).fits id (peersOf ids id) a.event ∧
        Party.step id (peersOf ids id) (c.party id) a.event = some (c'.party id) := by
  have hshort := hfits c' hs
  obtain ⟨-, havail, o, ho, rfl⟩ := Cluster.step_eq_some.mp hs
  have hsource : ∀ p ∈ o.packets, p.source = a.node := fun p hp =>
    source_of_move (move_of_step ho) hp
  by_cases hid : a.node = id
  · subst hid
    right
    have hans : a.event.answers (c.party a.node).sent := by
      unfold Event.answers
      split
      · rename_i src dst term draft hevent
        rw [hevent] at ho havail
        have hsrc : src = a.node := by
          cases move_of_step ho with
          | read task next hread => cases hread <;> rfl
        exact List.mem_filter.mpr ⟨havail, decide_eq_true hsrc⟩
      · rename_i src dst req resp hevent
        rw [hevent] at ho havail
        simp only [Node.step, Node.receive, Option.ite_none_right_eq_some] at ho
        exact List.mem_filter.mpr ⟨h havail, decide_eq_true ho.1⟩
      · trivial
    have hsent : (c.put a.node o).net.filter (fun p => p.source = a.node) =
        c.net.filter (fun p => p.source = a.node) ++ o.packets := by
      have hall : o.packets.filter (fun p => p.source = a.node) = o.packets :=
        List.filter_eq_self.mpr fun p hp => decide_eq_true (hsource p hp)
      rw [Cluster.put, List.filter_append, hall]
    have hstep : Party.step a.node (peersOf ids a.node) (c.party a.node) a.event =
        some ((c.put a.node o).party a.node) := by
      refine Party.step_eq_some.mpr ⟨hans, o, ho, ?_⟩
      rw [Cluster.party, c.put_nodes_self, hsent]
      rfl
    refine ⟨fun y hy => ?_, hstep⟩
    rw [hstep] at hy
    obtain rfl := Option.some.inj hy
    exact hshort
  · left
    have hnone : o.packets.filter (fun p => p.source = id) = [] :=
      List.filter_eq_nil_iff.mpr fun p hp heq =>
        hid ((hsource p hp).symm.trans (of_decide_eq_true heq))
    rw [Cluster.party, c.put_nodes_ne o (Ne.symm hid), Cluster.put, List.filter_append, hnone,
      List.append_nil]
    rfl

/-- **Each node of a cluster is a party of its own.** -/
theorem party_of_cluster {ids : List Str} {c : Cluster}
    (hrun : Lts.Run (Cluster.step ids) (Cluster.fits ids) newCluster c) (id : Str) :
    Lts.Run (Party.step id (peersOf ids id)) (Party.fits id (peersOf ids id)) newParty
      (c.party id) := by
  have hinv : c.Answered ∧ Lts.Run (Party.step id (peersOf ids id))
      (Party.fits id (peersOf ids id)) newParty (c.party id) := by
    refine hrun.invariant (P := fun c => c.Answered ∧ Lts.Run (Party.step id (peersOf ids id))
      (Party.fits id (peersOf ids id)) newParty (c.party id)) ⟨nofun, .refl _⟩ ?_
    rintro c a c' ⟨hans, hparty⟩ hfits hs
    refine ⟨hans.step hs, ?_⟩
    rcases party_of_step hans hfits hs id with hsame | ⟨hfits', hstep⟩
    · rw [hsame]
      exact hparty
    · exact .tail a.event hparty hfits' hstep
  exact hinv.2

/-- No node of a cluster sends a heartbeat with an index that has wrapped around. -/
theorem aims_of_cluster {ids : List Str} {c : Cluster}
    (hrun : Lts.Run (Cluster.step ids) (Cluster.fits ids) newCluster c) {src peer : Str}
    {term : Nat} {draft : Draft} (hp : .heartbeatTask src peer term draft ∈ c.net) :
    (c.nodes src).st.Aims peer := by
  have h := aiming_of_run (party_of_cluster hrun src)
  exact h.aims (h.tasks (List.mem_filter.mpr ⟨hp, decide_eq_true rfl⟩))

end SkyLock.Raft
