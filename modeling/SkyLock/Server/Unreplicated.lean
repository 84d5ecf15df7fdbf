/-
# Nothing is replicated

`cmd/skylock/main.go` starts a Raft node beside the other components and hands it to the API server,
which asks it who leads.  Nothing calls `Propose`, and nothing calls `SetApplyFunc`.  So in a
cluster as main starts it, whatever its servers are asked and however its elections go, every log
stays empty, every `AppendEntries` is a heartbeat, and no entry is ever committed or applied
(`nothing_is_replicated`).

What a server holds is then the outcome of the requests to THAT server and of nothing else: run by
themselves they lead to the same state.
-/
import SkyLock.Lib.Service
import SkyLock.Raft.Agreement
import SkyLock.Server.Cluster

namespace SkyLock.Server

open Raft (Move Node Outcome Packet State Update)

/-! ## 1. A Raft cluster without proposals -/

section Raft

variable {ids peers : List Str} {id : Str} {n : Node} {e : Raft.Event} {o : Outcome}
  {c c' : Raft.Cluster}

/-- The index that an `updateCommitIndex` has picked. -/
def pickedIndex : Update → Nat
  | .picked index | .dated index _ | .above index _ | .agreed index => index

/-- A node whose log has never been used. -/
structure Idle (n : Node) : Prop where
  log : n.st.log = []
  commitIndex : n.st.commitIndex = 0
  updating : ∀ progress, n.phase = .updating progress → pickedIndex progress = 0
  matchIndex : ∀ q m, n.st.matchIndex.find q = some m → m = 0
  applied : n.applied = []

/-- A request that carries nothing. -/
def Empty (req : Raft.AppendEntriesRequest) : Prop := req.entries = [] ∧ req.leaderCommit = 0

def CarriesNothing : Packet → Prop
  | .heartbeatTask _ _ _ (.entries _ _ es) => es = []
  | .appendReq _ _ req => Empty req
  | .appendResp _ _ req _ => Empty req
  | .proposal _ _ _ => False
  | _ => True

theorem Idle.quorumIndex (h : Idle n) : n.st.quorumIndex = 0 :=
  Nat.le_zero.mp (n.st.quorumIndex_le (by rw [h.log]; exact le_rfl)
    fun q m hq => (h.matchIndex q m hq).le)

/-- A heartbeat changes the office of a node, and nothing else. -/
theorem Idle.handleAppendEntries (h : Idle n) {req : Raft.AppendEntriesRequest} (hreq : Empty req) :
    (n.st.handleAppendEntries req).1.log = [] ∧
      (n.st.handleAppendEntries req).1.commitIndex = 0 := by
  rcases Raft.handleAppendEntries_cases n.st req with ⟨-, heq⟩ | ⟨-, -, heq⟩ | ⟨-, -, heq⟩
  · rw [heq]
    exact ⟨h.log, h.commitIndex⟩
  · rw [heq]
    exact ⟨h.log, h.commitIndex⟩
  · rw [heq, State.advanceCommit, State.store, if_pos hreq.1, hreq.2, if_neg (Nat.not_lt_zero _)]
    exact ⟨h.log, h.commitIndex⟩

theorem idle_newNode : Idle Raft.newNode where
  log := rfl
  commitIndex := rfl
  updating progress hp := by cases hp
  matchIndex q m hq := by cases hq
  applied := rfl

/-- **One event** at a node whose log is unused. -/
theorem Idle.move (h : Idle n) (hmove : Move id peers n e o)
    (hreq : ∀ p, e = .receive p → CarriesNothing p) : Idle o.node := by
  refine ⟨?_, ?_, fun progress hphase => ?_, ?_, ?_⟩
  · cases Raft.edit_of_move hmove with
    | keep log => exact log.trans h.log
    | extend => exact (hreq _ rfl).elim
    | replace src req _ _ entries => exact absurd (hreq _ rfl).1 entries
  · cases Raft.commits_of_move hmove with
    | keep commitIndex => exact commitIndex.trans h.commitIndex
    | set index before _ commitIndex => exact commitIndex.trans (h.updating _ before)
    | follow src req _ commitIndex =>
      exact commitIndex.trans (h.handleAppendEntries (hreq _ rfl)).2
  · cases Raft.updated_of_move hmove hphase with
    | pick => exact h.quorumIndex
    | stay before | date before | pass before | agree before =>
      have hzero := h.updating _ before
      exact hzero
  · cases Raft.noted_of_move hmove with
    | keep matchIndex =>
      rw [matchIndex]
      exact h.matchIndex
    | reset matchIndex =>
      intro q m hq
      rw [matchIndex, Raft.find_setAll] at hq
      split at hq
      · exact (Option.some.inj hq).symm
      · exact h.matchIndex q m hq
    | advance src req resp last _ _ hlast =>
      have hnil : req.entries = [] := (hreq _ rfl).1
      rw [hnil] at hlast
      cases hlast
  · cases Raft.pass_of_move hmove with
    | idle _ _ same => exact same.applied.trans h.applied
    | read _ applied | skip _ _ _ _ _ _ applied | done _ _ _ _ _ applied =>
      exact applied.trans h.applied
    | apply i k entry _ _ hentry =>
      rw [h.log] at hentry
      cases (Raft.Log.get_eq_some_iff.mp hentry).2

/-- A goroutine of such a node has nothing to read. -/
theorem Idle.read (h : Idle n) {task next : Packet} (hread : Raft.Reads id n task next)
    (htask : CarriesNothing task) : CarriesNothing next := by
  cases hread with
  | lastIndex | lastTerm | prevIndex | prevTerm => trivial
  | entries dst term i t =>
    change Raft.Log.entriesAfter n.st.log i = []
    rw [h.log, Raft.entriesAfter_eq_drop, List.drop_nil]
  | commitIndex => exact ⟨htask, h.commitIndex⟩
  | currentTerm => exact htask

theorem Idle.sent (h : Idle n) (hmove : Move id peers n e o) (hpropose : ∀ x, e ≠ .propose x)
    (hreq : ∀ p, e = .receive p → CarriesNothing p) : ∀ p ∈ o.packets, CarriesNothing p := by
  intro p hp
  cases Raft.sent_of_move hmove hp with
  | proposal command => exact absurd rfl (hpropose command)
  | read task next hread => exact h.read hread (hreq task rfl)
  | appendResp src req =>
    have hempty : CarriesNothing (.appendReq src id req) := hreq _ rfl
    exact hempty
  | voteTask | voteResp | heartbeatTask => trivial

/-- Every node's log is unused, and nothing is on its way. -/
structure Quiet (c : Raft.Cluster) : Prop where
  node : ∀ p, Idle (c.nodes p)
  net : ∀ p ∈ c.net, CarriesNothing p

theorem Quiet.step (h : Quiet c) {a : Raft.Action} (hpropose : ∀ x, a.event ≠ .propose x)
    (hstep : Raft.Cluster.step ids c a = some c') : Quiet c' := by
  obtain ⟨-, havail, o, ho, rfl⟩ := Raft.Cluster.step_eq_some.mp hstep
  have hmove := Raft.move_of_step ho
  have hreq : ∀ p, a.event = .receive p → CarriesNothing p := fun p hp =>
    h.net p (Raft.mem_net_of_available havail p hp)
  refine ⟨c.forall_put (P := fun _ n => Idle n) ((h.node a.node).move hmove hreq)
    fun p _ => h.node p, fun p hp => ?_⟩
  rcases List.mem_append.mp hp with hp | hp
  · exact h.net p hp
  · exact (h.node a.node).sent hmove hpropose hreq p hp

end Raft

/-! ## 2. Servers -/

namespace Cluster

variable {ids : List Str} {c c' : Cluster}

/-- The action is not a proposal; main has nobody who makes one. -/
def Unproposed (a : ClusterAction) : Prop := ∀ node command, a ≠ .raft ⟨node, .propose command⟩

/-- What an action of the cluster is to the server `p`. -/
def actionAt (p : Str) : ClusterAction → Option Action
  | .raft _ => none
  | .serve id a => if id = p then some a else none

theorem Quiet.of_step (h : Quiet c.raft) {a : ClusterAction} (hok : Unproposed a)
    (hstep : step ids c a = some c') : Quiet c'.raft := by
  cases a with
  | raft a =>
    obtain ⟨r, hr, rfl⟩ := Option.map_eq_some_iff.mp hstep
    refine h.step (fun x hx => hok a.node x ?_) hr
    rw [← hx]
  | serve id a =>
    obtain ⟨-, hstep⟩ := Option.ite_none_right_eq_some.mp hstep
    obtain ⟨t, -, rfl⟩ := Option.map_eq_some_iff.mp hstep
    exact h

theorem quiet_of_starting (h : Starting c) : Quiet c.raft := by
  rw [h.1]
  exact ⟨fun _ => idle_newNode, fun p hp => absurd hp List.not_mem_nil⟩

/-- One action, at the server `p`: its own requests move it, the others leave it. -/
theorem server_of_step {a : ClusterAction} (hstep : step ids c a = some c') (p : Str) :
    Lts.exec Server.step (c.servers p) (actionAt p a).toList = some (c'.servers p) := by
  cases a with
  | raft a =>
    obtain ⟨r, -, rfl⟩ := Option.map_eq_some_iff.mp hstep
    rfl
  | serve id a =>
    obtain ⟨-, hstep⟩ := Option.ite_none_right_eq_some.mp hstep
    obtain ⟨t, ht, rfl⟩ := Option.map_eq_some_iff.mp hstep
    by_cases hid : id = p
    · subst hid
      have hput : (c.put id t).servers id = t := Function.update_self ..
      rw [actionAt, if_pos rfl, hput]
      simp [Lts.exec, ht]
    · have hput : (c.put id t).servers p = c.servers p := Function.update_of_ne (Ne.symm hid) ..
      rw [actionAt, if_neg hid, hput]
      rfl

/-- **Nothing is replicated.**  In every run of a cluster as main starts it: all logs are empty, no
entry has been committed or applied anywhere, and every request of a leader that is on its way is an
empty heartbeat.  And every server is where the requests to it alone, in their order, lead. -/
theorem nothing_is_replicated {actions : List ClusterAction} (hstart : Starting c)
    (hmain : ∀ a ∈ actions, Unproposed a) (hexec : Lts.exec (step ids) c actions = some c') :
    (∀ p, (c'.raft.nodes p).st.log = [] ∧ (c'.raft.nodes p).st.commitIndex = 0 ∧
      (c'.raft.nodes p).applied = []) ∧
    (∀ src dst req, .appendReq src dst req ∈ c'.raft.net → req.entries = []) ∧
    ∀ p, Lts.exec Server.step (c.servers p) (actions.filterMap (actionAt p)) =
      some (c'.servers p) := by
  have hquiet : Quiet c'.raft := Lts.exec_invariant (P := fun c : Cluster => Quiet c.raft)
    (fun _ _ _ h hok hstep => Quiet.of_step h hok hstep) hmain (quiet_of_starting hstart) hexec
  refine ⟨fun p => ⟨(hquiet.node p).log, (hquiet.node p).commitIndex, (hquiet.node p).applied⟩,
    fun src dst req hmem => (hquiet.net _ hmem).1, fun p => ?_⟩
  exact Lts.exec_filterMap (fun c : Cluster => c.servers p) (actionAt p)
    (fun _ _ _ hstep => server_of_step hstep p) hexec

end Cluster

/-- `n1` becomes leader, and a node is created at its server. -/
def leadAndServe : List ClusterAction :=
  (Raft.winElection Raft.n1 Raft.n3 Raft.n2 ++ Raft.heartbeat Raft.n1 Raft.n3).map .raft ++
    [createLocks Raft.n1]

theorem nothing_is_replicated_lead_and_serve :
    ∃ c, Lts.exec (Cluster.step Raft.trio) newCluster leadAndServe = some c ∧
      (c.raft.nodes Raft.n1).st.log = [] ∧
      Lts.exec step (newCluster.servers Raft.n2)
        (leadAndServe.filterMap (Cluster.actionAt Raft.n2)) = some (c.servers Raft.n2) := by
  obtain ⟨c, hexec⟩ := Option.isSome_iff_exists.mp
    (show (Lts.exec (Cluster.step Raft.trio) newCluster leadAndServe).isSome = true by
      decide +kernel)
  have hmain : ∀ a ∈ leadAndServe, Cluster.Unproposed a := by
    simp [leadAndServe, Raft.winElection, Raft.campaignOf, Raft.winVote, Raft.heartbeat,
      Raft.buildVote, Raft.buildAppend, createLocks, Cluster.Unproposed]
  obtain ⟨hlogs, -, hservers⟩ := Cluster.nothing_is_replicated starting_newCluster hmain hexec
  exact ⟨c, hexec, (hlogs Raft.n1).1, hservers Raft.n2⟩

end SkyLock.Server
