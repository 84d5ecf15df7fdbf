/-
# Who the nodes think leads

`getLeader` of the API answers with the node's `leaderID`, which a client uses to find the leader.
A node sets it when it wins an election and when it hears an `AppendEntries`, and forgets it when
its term changes.

`leader_hints_agree`: if elections are careful and a round of heartbeats is started only by a node
that leads, then no two nodes ever name different leaders for one term, at whatever times they are
asked, and the name is that of the node which was elected.  The condition on heartbeats is needed
because `runLeader` looks at the role, waits for its ticker, and starts the round without looking
again.
-/
import SkyLock.Raft.Matching

namespace SkyLock.Raft

variable {ids peers : List Str} {c c' : Cluster} {id p q : Str} {n : Node} {e : Event} {o : Outcome}
  {T : Nat}

/-! ## 1. The condition -/

/-- A round of heartbeats is started only while the node leads. -/
def Node.leadsWhenSending (n : Node) (e : Event) : Prop :=
  e = .sendHeartbeats → n.st.state = .leader

instance (n : Node) (e : Event) : Decidable (n.leadsWhenSending e) :=
  inferInstanceAs (Decidable (_ → _))

def Announcing (ids : List Str) (c : Cluster) (a : Action) : Prop :=
  Careful ids c a ∧ (c.nodes a.node).leadsWhenSending a.event

instance (ids : List Str) (c : Cluster) (a : Action) : Decidable (Announcing ids c a) :=
  inferInstanceAs (Decidable (_ ∧ _))

/-! ## 2. The invariant -/

/-- The leader that a packet announces has been elected. -/
def Packet.Announces (ids : List Str) (c : Cluster) : Packet → Prop
  | .heartbeatTask src _ T _ => Elected ids c T src
  | .appendReq _ _ req => Elected ids c req.term req.leaderID
  | _ => True

/-- **Every known leader has been elected**, and a leader knows itself. -/
structure Hinted (ids : List Str) (c : Cluster) : Prop where
  lawful : Lawful ids c
  known : ∀ p, (c.nodes p).st.leaderID ≠ [] →
    Elected ids c (c.nodes p).st.currentTerm (c.nodes p).st.leaderID
  self : ∀ p, (c.nodes p).st.state = .leader → (c.nodes p).st.leaderID = p
  net : ∀ p ∈ c.net, p.Announces ids c

theorem hinted_newCluster (ids : List Str) : Hinted ids newCluster where
  lawful := lawful_newCluster ids
  known p hp := absurd rfl hp
  self p hp := absurd hp (by simp [newCluster, newNode, newState])
  net p hp := absurd hp List.not_mem_nil

theorem Packet.Announces.put {p : Packet} (hp : p.Announces ids c) (id : Str) (o : Outcome) :
    p.Announces ids (c.put id o) := by
  cases p with
  | heartbeatTask | appendReq => exact Elected.put hp id o
  | voteTask | voteReq | voteResp | appendResp | proposal => trivial

/-- A goroutine goes on announcing the same leader. -/
theorem announces_of_reads {task next : Packet} (hread : Reads id n task next)
    (htask : task.Announces ids c) : next.Announces ids c := by
  cases hread with
  | lastIndex | lastTerm | currentTerm => trivial
  | prevIndex | prevTerm | entries | commitIndex => exact htask

/-- What a careful event leaves of the hint: nothing, the old one in the same term, the one a
request announces, or the node itself. -/
inductive Hint (id : Str) (n : Node) (e : Event) (o : Outcome) : Prop
  | none (leaderID : o.node.st.leaderID = [])
  | same (leaderID : o.node.st.leaderID = n.st.leaderID)
    (term : o.node.st.currentTerm = n.st.currentTerm)
  | told (src : Str) (req : AppendEntriesRequest) (he : e = .receive (.appendReq src id req))
    (leaderID : o.node.st.leaderID = req.leaderID) (term : o.node.st.currentTerm = req.term)
  | won (role : o.node.st.state = .leader) (leaderID : o.node.st.leaderID = id)

theorem hint_of_turn (hturn : Turn id peers n e o) : Hint id n e o := by
  cases hturn with
  | keep office | stand _ _ _ office | voteSelf _ _ _ office =>
    exact .same (congrArg Office.leaderID office) (congrArg Office.term office)
  | campaign office | observe _ _ _ _ office | heed _ _ _ _ _ office =>
    exact .none (congrArg Office.leaderID office)
  | follow src req _ office =>
    exact .told src req rfl (congrArg Office.leaderID office) (congrArg Office.term office)
  | vote src election req hle hgrant office =>
    have hleader : o.node.st.leaderID = (n.st.observeTerm req.term).leaderID :=
      congrArg Office.leaderID office
    have hterm : o.node.st.currentTerm = (n.st.observeTerm req.term).currentTerm :=
      congrArg Office.term office
    unfold State.observeTerm at hleader hterm
    split at hleader
    · exact .none hleader
    · rename_i hold
      rw [if_neg hold] at hterm
      exact .same hleader hterm
  | elect _ _ _ _ _ office =>
    exact .won (congrArg Office.role office) (congrArg Office.leaderID office)

/-- A node that leads after an event led before it or has just won. -/
theorem self_of_turn (hturn : Turn id peers n e o)
    (hself : n.st.state = .leader → n.st.leaderID = id)
    (hlead : o.node.st.state = .leader) : o.node.st.leaderID = id := by
  cases hturn with
  | keep office | voteSelf _ _ _ office =>
    have hrole : o.node.st.state = n.st.state := congrArg Office.role office
    exact (congrArg Office.leaderID office).trans (hself (hrole ▸ hlead))
  | stand role hrole _ office => exact absurd ((congrArg Office.role office).symm.trans hlead) hrole
  | campaign office | follow _ _ _ office | observe _ _ _ _ office | heed _ _ _ _ _ office =>
    cases (congrArg Office.role office).symm.trans hlead
  | vote src election req hle hgrant office =>
    have hrole : o.node.st.state = (n.st.observeTerm req.term).state := congrArg Office.role office
    have hleader : o.node.st.leaderID = (n.st.observeTerm req.term).leaderID :=
      congrArg Office.leaderID office
    unfold State.observeTerm at hrole hleader
    split at hrole
    · cases hrole.symm.trans hlead
    · rename_i hold
      rw [if_neg hold] at hleader
      exact hleader.trans (hself (hrole ▸ hlead))
  | elect _ _ _ _ _ office => exact congrArg Office.leaderID office

theorem Hinted.step (hids : [] ∉ ids) (hnd : ids.Nodup) {a : Action} (hin : Hinted ids c)
    (hok : Announcing ids c a) (hstep : Cluster.step ids c a = some c') : Hinted ids c' := by
  have hlaw' := hin.lawful.step hids hnd hok.1 hstep
  obtain ⟨-, havail, o, ho, rfl⟩ := Cluster.step_eq_some.mp hstep
  have hmove := move_of_step ho
  have hturn := turn_of_move hmove
  have hnet := mem_net_of_available havail
  have hnode := c.put_nodes_self a.node o
  refine ⟨hlaw', ?_, ?_, fun p hp => ?_⟩
  · refine c.forall_put (P := fun _ n => n.st.leaderID ≠ [] →
      Elected ids (c.put a.node o) n.st.currentTerm n.st.leaderID) (fun hne => ?_)
      fun p _ hne => (hin.known p hne).put _ _
    cases hint_of_turn hturn with
    | none leaderID => exact absurd leaderID hne
    | same leaderID term =>
      rw [leaderID, term]
      exact (hin.known a.node (leaderID ▸ hne)).put _ _
    | told src req he leaderID term =>
      rw [leaderID, term]
      exact Elected.put (hin.net _ (hnet _ he)) _ _
    | won role leaderID =>
      rw [leaderID]
      refine elected_of_leads hlaw' ⟨?_, ?_⟩
      · rw [hnode]
        exact role
      · rw [hnode]
  · exact c.forall_put (P := fun p n => n.st.state = .leader → n.st.leaderID = p)
      (self_of_turn hturn (hin.self a.node)) fun p _ => hin.self p
  · rcases List.mem_append.mp hp with hp | hp
    · exact (hin.net p hp).put _ _
    · generalize he : a.event = e at hmove hok
      cases sent_of_move hmove hp with
      | heartbeatTask peer =>
        exact (elected_of_leads hin.lawful ⟨hok.2 he, rfl⟩).put _ _
      | read task next hread => exact (announces_of_reads hread (hin.net _ (hnet _ he))).put _ _
      | voteTask | voteResp | appendResp | proposal => trivial

theorem hinted_of_run (hids : [] ∉ ids) (hnd : ids.Nodup)
    (hrun : Lts.Run (Cluster.step ids) (Announcing ids) newCluster c) : Hinted ids c :=
  hrun.invariant (hinted_newCluster ids) fun _ _ _ hin hok hstep => hin.step hids hnd hok hstep

/-! ## 3. The answers -/

/-- The body of `getLeader`'s answer. -/
structure LeaderInfo where
  leaderID : Str
  isLeader : Bool
  deriving DecidableEq

/-- `getLeader`: the two values are read one after the other, so the node may have changed. -/
def getLeader (first second : Node) : LeaderInfo := ⟨first.st.leaderID, second.st.state = .leader⟩

/-- **The nodes agree on the leader.**  Two answers of `getLeader`, given by any nodes at any times,
that name a leader for the same term name the same one; and if the second comes from a node that
leads the term, both name that node. -/
theorem leader_hints_agree (hids : [] ∉ ids) (hnd : ids.Nodup)
    (hrun : Lts.Run (Cluster.step ids) (Announcing ids) newCluster c)
    (hrun' : Lts.Run (Cluster.step ids) (Announcing ids) c c') (second second' : Node)
    (hp : (getLeader (c.nodes p) second).leaderID ≠ [])
    (hq : (getLeader (c'.nodes q) second').leaderID ≠ [])
    (hterm : (c.nodes p).st.currentTerm = (c'.nodes q).st.currentTerm) :
    (getLeader (c.nodes p) second).leaderID = (getLeader (c'.nodes q) second').leaderID ∧
      ((c'.nodes q).st.state = .leader → (getLeader (c.nodes p) second).leaderID = q) := by
  have hin := hinted_of_run hids hnd hrun
  have hin' := hinted_of_run hids hnd (hrun.trans hrun')
  obtain ⟨Q, hQ, hvotes⟩ := hin.known p hp
  have hearlier : Elected ids c' (c'.nodes q).st.currentTerm (c.nodes p).st.leaderID :=
    ⟨Q, hQ, fun v hv => hterm ▸ votes_subset_of_run hrun' (hvotes v hv)⟩
  have heq := hearlier.unique hnd hin'.lawful (hin'.known q hq)
  exact ⟨heq, fun hlead => heq.trans (hin'.self q hlead)⟩

/-- After an election and a heartbeat the follower names the leader. -/
theorem leader_hints_agree_first_election :
    ∃ c, Lts.Run (Cluster.step trio) (Announcing trio) newCluster c ∧
      (getLeader (c.nodes n3) (c.nodes n3)).leaderID =
        (getLeader (c.nodes n1) (c.nodes n1)).leaderID ∧
      (getLeader (c.nodes n3) (c.nodes n3)).leaderID = n1 := by
  obtain ⟨c, hrun, hlead, hp, hq, hterm⟩ :
      ∃ c, Lts.Run (Cluster.step trio) (Announcing trio) newCluster c ∧
        (c.nodes n1).st.state = .leader ∧ (c.nodes n3).st.leaderID ≠ [] ∧
        (c.nodes n1).st.leaderID ≠ [] ∧
        (c.nodes n3).st.currentTerm = (c.nodes n1).st.currentTerm :=
    Lts.exists_run (winElection n1 n3 n2 ++ heartbeat n1 n3) (by decide +kernel)
  obtain ⟨heq, hself⟩ := leader_hints_agree (by decide +kernel) (by decide +kernel) hrun (.refl c)
    (c.nodes n3) (c.nodes n1) hp hq hterm
  exact ⟨c, hrun, heq, hself hlead⟩

end SkyLock.Raft
