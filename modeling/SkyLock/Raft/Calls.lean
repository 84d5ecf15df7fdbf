/-
# Calls that nothing interrupts

`Node.step` has `Propose`, `updateCommitIndex` and the building of a request read by read.  If
nothing else happens between the reads, each of them is the function of the state that `State.lean`
has for it: the requests are `voteRequest` and `appendEntriesRequest` (`buildVote_drives`,
`buildAppend_drives`), the proposal appends an entry of the current term (`proposing_drives`), and
the commit index moves as `State.updateCommitIndex` says (`updating_drives`).
-/
import SkyLock.Lib.Schedule
import SkyLock.Raft.Effect

namespace SkyLock.Raft

open Lts (Drives)

/-! ## 1. The schedules -/

/-- The goroutine of `runCandidate` builds its request. -/
def buildVote (p q : Str) (election : Nat) (req : VoteRequest) : List Action :=
  [⟨p, .receive (.voteTask p q election req.term none)⟩,
    ⟨p, .receive (.voteTask p q election req.term (some req.lastLogIndex))⟩]

/-- The goroutine of `sendHeartbeats` builds its request. -/
def buildAppend (p q : Str) (req : AppendEntriesRequest) : List Action :=
  [⟨p, .receive (.heartbeatTask p q req.term .blank)⟩,
    ⟨p, .receive (.heartbeatTask p q req.term (.prev req.prevLogIndex))⟩,
    ⟨p, .receive (.heartbeatTask p q req.term (.prevTerm req.prevLogIndex req.prevLogTerm))⟩,
    ⟨p, .receive (.heartbeatTask p q req.term
      (.entries req.prevLogIndex req.prevLogTerm req.entries))⟩]

/-- `Propose`, by a leader of the term. -/
def proposing (p : Str) (term : Nat) (command : Str) : List Action :=
  [⟨p, .propose command⟩, ⟨p, .receive (.proposal p command none)⟩,
    ⟨p, .receive (.proposal p command (some term))⟩]

/-- What `updateCommitIndex` does after it has released its lock: it stops at the first test that
fails. -/
def State.updateSteps (s : State) : Nat :=
  if s.quorumIndex > s.commitIndex then
    if Log.termAt s.log s.quorumIndex = s.currentTerm then 4 else 3
  else 2

/-- `updateCommitIndex`, by a node in the state `s`. -/
def updating (p : Str) (s : State) : List Action :=
  ⟨p, .updateCommit⟩ :: List.replicate s.updateSteps ⟨p, .updateNext⟩

/-- An `updateCommitIndex` whose tests succeed. -/
def raiseCommit (p : Str) : List Action :=
  ⟨p, .updateCommit⟩ :: List.replicate 4 ⟨p, .updateNext⟩

theorem updating_eq_raiseCommit {s : State} (p : Str) (habove : s.quorumIndex > s.commitIndex)
    (hterm : Log.termAt s.log s.quorumIndex = s.currentTerm) : updating p s = raiseCommit p := by
  rw [updating, State.updateSteps, if_pos habove, if_pos hterm]
  rfl

variable {ids : List Str} {c : Cluster} {p q : Str}

/-- A node that has no event in a schedule stays as it is. -/
theorem nodes_of_exec {as : List Action} {c c' : Cluster}
    (h : Lts.exec (Cluster.step ids) c as = some c') (hq : ∀ a ∈ as, a.node ≠ q) :
    c'.nodes q = c.nodes q := by
  induction as generalizing c with
  | nil => rw [Option.some.inj h]
  | cons a as ih =>
    obtain ⟨c₁, hstep, hexec⟩ := Option.bind_eq_some_iff.mp h
    obtain ⟨-, -, o, -, rfl⟩ := Cluster.step_eq_some.mp hstep
    rw [ih hexec fun b hb => hq b (List.mem_cons_of_mem a hb)]
    exact c.put_nodes_ne o (hq a List.mem_cons_self).symm

/-! ## 2. Requests -/

/-- The nodes are those of `c`, and `task` is in the net. -/
structure Holding (c : Cluster) (task : Packet) (c' : Cluster) : Prop where
  nodes : c'.nodes = c.nodes
  net : c.net ⊆ c'.net
  task : task ∈ c'.net

theorem Cluster.put_nodes_same (c : Cluster) (id : Str) (packets : List Packet)
    (votes : List Ballot) : (c.put id ⟨c.nodes id, packets, votes⟩).nodes = c.nodes :=
  Function.update_eq_self id c.nodes

theorem receive_of_reads {n : Node} {task next : Packet} (h : Reads p n task next) :
    Node.receive p n task = some ⟨n, [next], []⟩ := by
  cases h <;> exact if_pos rfl

/-- A goroutine reads something and goes on. -/
theorem read_drives (hp : p ∈ ids) {task next : Packet} (hread : Reads p (c.nodes p) task next) :
    Drives (Cluster.step ids) (Holding c task) [⟨p, .receive task⟩] (Holding c next) := by
  refine .single fun c' h => ⟨c'.put p ⟨c'.nodes p, [next], []⟩, ?_, ?_, fun x hx => ?_, ?_⟩
  · refine Cluster.step_eq_some.mpr ⟨hp, h.task, _, ?_, rfl⟩
    rw [Node.step, h.nodes]
    exact receive_of_reads hread
  · rw [c'.put_nodes_same, h.nodes]
  · exact List.mem_append_left _ (h.net hx)
  · exact List.mem_append_right _ (List.mem_singleton.mpr rfl)

theorem buildVote_drives (hp : p ∈ ids) (election term : Nat) :
    Drives (Cluster.step ids) (Holding c (.voteTask p q election term none))
      (buildVote p q election ((c.nodes p).st.voteRequest p term))
      (Holding c (.voteReq p q election ((c.nodes p).st.voteRequest p term))) :=
  (read_drives hp (.lastIndex q election term)).append
    (read_drives hp (.lastTerm q election term _))

theorem buildAppend_drives (hp : p ∈ ids) (term : Nat) :
    Drives (Cluster.step ids) (Holding c (.heartbeatTask p q term .blank))
      (buildAppend p q ((c.nodes p).st.appendEntriesRequest p q term))
      (Holding c (.appendReq p q ((c.nodes p).st.appendEntriesRequest p q term))) := by
  have hprev := read_drives (c := c) hp (.prevIndex q term)
  dsimp only [buildAppend, State.appendEntriesRequest]
  generalize (c.nodes p).st.prevIndex q = i at hprev ⊢
  have hterm := read_drives (c := c) hp (.prevTerm q term i)
  have hentries := read_drives (c := c) hp
    (.entries q term i (Log.termAt (c.nodes p).st.log i))
  have hcommit := read_drives (c := c) hp (.commitIndex q term i
    (Log.termAt (c.nodes p).st.log i) (Log.entriesAfter (c.nodes p).st.log i))
  exact ((hprev.append hterm).append hentries).append hcommit

/-! ## 3. Proposals and the commit index -/

/-- The node `p` has become `n`, and the others are those of `c`. -/
structure Changed (c : Cluster) (p : Str) (n : Node) (c' : Cluster) : Prop where
  self : c'.nodes p = n
  other : ∀ q, q ≠ p → c'.nodes q = c.nodes q

theorem changed_put {n : Node} {c' : Cluster} (h : Changed c p n c') (o : Outcome) :
    Changed c p o.node (c'.put p o) where
  self := c'.put_nodes_self p o
  other q hq := (c'.put_nodes_ne o hq).trans (h.other q hq)

/-- One event of the node `p`, which finds everything it needs in the node. -/
theorem changed_drives (hp : p ∈ ids) {n n' : Node} {e : Event} (havail : ∀ net, e.available net)
    (hstep : Node.step p (peersOf ids p) n e = some n'.silent) :
    Drives (Cluster.step ids) (Changed c p n) [⟨p, e⟩] (Changed c p n') := by
  refine .single fun c' h => ⟨c'.put p n'.silent, ?_, changed_put h n'.silent⟩
  refine Cluster.step_eq_some.mpr ⟨hp, havail _, _, ?_, rfl⟩
  rw [h.self]
  exact hstep

theorem proposing_drives (hp : p ∈ ids) (hrole : (c.nodes p).st.state = .leader) (command : Str) :
    Drives (Cluster.step ids) (· = c) (proposing p (c.nodes p).st.currentTerm command)
      (Changed c p ((c.nodes p).withState
        ((c.nodes p).st.propose (c.nodes p).st.currentTerm command))) := by
  have hcheck : Drives (Cluster.step ids) (· = c) [⟨p, .propose command⟩]
      (Holding c (.proposal p command none)) := by
    refine .single fun c' h => ?_
    subst h
    refine ⟨c'.put p ⟨c'.nodes p, [.proposal p command none], []⟩, ?_, c'.put_nodes_same p _ _,
      List.subset_append_left _ _, List.mem_append_right _ (List.mem_singleton.mpr rfl)⟩
    exact Cluster.step_eq_some.mpr ⟨hp, trivial, _, if_pos hrole, rfl⟩
  refine (hcheck.append (read_drives hp (.currentTerm command))).append (.single fun c' h => ?_)
  have hsame : Changed c p (c.nodes p) c' :=
    ⟨congrFun h.nodes p, fun q _ => congrFun h.nodes q⟩
  refine ⟨_, ?_, changed_put hsame (Node.silent _)⟩
  refine Cluster.step_eq_some.mpr ⟨hp, h.task, _, ?_, rfl⟩
  rw [hsame.self]
  exact if_pos rfl

/-- The node after an undisturbed `updateCommitIndex`. -/
def Node.afterUpdate (n : Node) : Node :=
  { (n.withState n.st.updateCommitIndex).goto .recheck with commitCh := false }

theorem updating_drives (hp : p ∈ ids) (hphase : (c.nodes p).phase = .idle)
    (hsignal : (c.nodes p).commitCh = true) :
    Drives (Cluster.step ids) (· = c) (updating p (c.nodes p).st)
      (Changed c p (c.nodes p).afterUpdate) := by
  let n := c.nodes p
  let m := { n with commitCh := false }
  let N := n.st.quorumIndex
  have hstart : ∀ c', c' = c → Changed c p n c' := by
    rintro c' rfl
    exact ⟨rfl, fun _ _ => rfl⟩
  have hpick : Drives (Cluster.step ids) (Changed c p n) [⟨p, .updateCommit⟩]
      (Changed c p (m.goto (.updating (.picked N)))) := by
    refine changed_drives hp (fun _ => trivial) ?_
    rw [Node.step, hphase]
    exact if_pos hsignal
  have hdate : Drives (Cluster.step ids) (Changed c p (m.goto (.updating (.picked N))))
      [⟨p, .updateNext⟩] (Changed c p (m.goto (.updating (.dated N n.st.currentTerm)))) :=
    changed_drives hp (fun _ => trivial) rfl
  have hfirst := (hpick.append hdate).mono hstart fun _ h => h
  rw [updating, State.updateSteps, Node.afterUpdate, State.updateCommitIndex]
  by_cases habove : N > n.st.commitIndex
  · have hpass : Drives (Cluster.step ids)
        (Changed c p (m.goto (.updating (.dated N n.st.currentTerm)))) [⟨p, .updateNext⟩]
        (Changed c p (m.goto (.updating (.above N n.st.currentTerm)))) :=
      changed_drives hp (fun _ => trivial) (if_pos habove)
    rw [if_pos habove]
    by_cases hterm : Log.termAt n.st.log N = n.st.currentTerm
    · have hagree : Drives (Cluster.step ids)
          (Changed c p (m.goto (.updating (.above N n.st.currentTerm)))) [⟨p, .updateNext⟩]
          (Changed c p (m.goto (.updating (.agreed N)))) :=
        changed_drives hp (fun _ => trivial) (if_pos hterm)
      rw [if_pos hterm, if_pos ⟨habove, hterm⟩]
      exact ((hfirst.append hpass).append hagree).append
        (changed_drives hp (fun _ => trivial) rfl)
    · rw [if_neg hterm, if_neg fun h => hterm h.2]
      exact (hfirst.append hpass).append (changed_drives hp (fun _ => trivial) (if_neg hterm))
  · rw [if_neg habove, if_neg fun h => habove h.1]
    exact hfirst.append (changed_drives hp (fun _ => trivial) (if_neg habove))

end SkyLock.Raft
