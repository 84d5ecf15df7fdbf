/-
# The cluster and its history

The cluster refines the replication protocol of `Lib.Replication`: beside every state that a run
of `Orderly` events reaches there is a history (`Chronicle`) that mirrors it.  `Sim` says what
mirroring means: for each node (`NodeSim`) and what its `updateCommitIndex` has found out
(`Update.Sim`), for each packet in the network (`Packet.Sim`), for each vote (`Backed`) and for each
term that has had a leader (`Founded`).

The code needs more than careful elections to refine the protocol.  Five things it leaves open are
the remaining conditions (`Node.orderly`):

* `Propose` appends its entry only while the node still leads the term it has read: it looks at the
  role first, and nothing keeps the node from stepping down before the append;
* a heartbeat is built, from the first read to the last, only while the node leads the term the
  heartbeat is for, and its commit index, which is read last, is not beyond its entries;
* entries are dropped from a log only for entries of another term, or if the request replaces them
  all;
* a success is noted only while the node leads the term of the request;
* `updateCommitIndex` runs, from its start to its end, only while the node leads.
-/
import SkyLock.Lib.Replication
import SkyLock.Raft.Election
import SkyLock.Raft.Quorum
import SkyLock.Raft.Replicate

namespace SkyLock.Raft

open Replication (History)

/-! ## 1. Orderly events -/

/-- Some entry of the request differs in term from the one at its place in the log. -/
def State.conflicts (s : State) (req : AppendEntriesRequest) : Bool :=
  (List.range req.entries.length).any fun i =>
    match s.log[req.prevLogIndex + i]?, req.entries[i]? with
    | some e, some e' => e.term ≠ e'.term
    | _, _ => false

/-- If the request is not from the past, passes the consistency check and has entries, they cover
the log or conflict with it. -/
def State.replaces (s : State) (req : AppendEntriesRequest) : Prop :=
  s.currentTerm ≤ req.term → s.consistent req → req.entries ≠ [] →
    s.log.length ≤ req.prevLogIndex + req.entries.length ∨ s.conflicts req = true

instance (s : State) (req : AppendEntriesRequest) : Decidable (s.replaces req) :=
  inferInstanceAs (Decidable (_ → _ → _ → _))

/-- The node leads the term. -/
def State.leads (s : State) (T : Nat) : Prop := s.state = .leader ∧ s.currentTerm = T

instance (s : State) (T : Nat) : Decidable (s.leads T) := inferInstanceAs (Decidable (_ ∧ _))

/-- The entries that have been read for a request reach up to the commit index. -/
def Draft.reaches (commitIndex : Nat) : Draft → Prop
  | .entries i _ es => commitIndex ≤ i + es.length
  | _ => True

instance (commitIndex : Nat) (draft : Draft) : Decidable (draft.reaches commitIndex) := by
  unfold Draft.reaches
  induction draft using Draft.casesOn <;> infer_instance

/-- **The condition under which replication is safe**, besides that on elections. -/
def Node.orderly (n : Node) : Event → Prop
  | .receive (.proposal _ _ (some term)) => n.st.leads term
  | .receive (.heartbeatTask _ _ term draft) =>
    n.st.leads term ∧ draft.reaches n.st.commitIndex
  | .receive (.appendReq _ _ req) => n.st.replaces req
  | .receive (.appendResp _ _ req resp) =>
    resp.term ≤ req.term → resp.success = true → req.entries ≠ [] → n.st.leads req.term
  | .updateCommit => n.st.state = .leader
  | .updateNext => n.st.state = .leader
  | _ => True

instance (n : Node) (e : Event) : Decidable (n.orderly e) := by
  unfold Node.orderly
  induction e using Event.casesOn with
  | receive p =>
    induction p using Packet.casesOn with
    | proposal src command term => induction term using Option.casesOn <;> infer_instance
    | _ => infer_instance
  | _ => infer_instance

def Orderly (ids : List Str) (c : Cluster) (a : Action) : Prop :=
  Careful ids c a ∧ (c.nodes a.node).orderly a.event

instance (ids : List Str) (c : Cluster) (a : Action) : Decidable (Orderly ids c a) :=
  inferInstanceAs (Decidable (_ ∧ _))

/-! ## 2. Mirroring -/

/-- The history of a cluster. -/
abbrev Chronicle := History Str LogEntry

/-- The history of a cluster in which nothing has happened. -/
def newChronicle : Chronicle where
  epoch _ := 0
  followed _ := false
  log _ := []
  start _ := none
  chain _ := []
  acked _ _ _ := False
  voted _ _ _ := False

def electing (ids : List Str) (Q : Finset Str) : Prop :=
  Q ⊆ ids.toFinset ∧ ids.length / 2 + 1 ≤ Q.card

def committing (ids : List Str) (Q : Finset Str) : Prop :=
  Q ⊆ ids.toFinset ∧ ids.length - ids.length / 2 ≤ Q.card

/-- Every electing quorum meets every committing one. -/
theorem quorums_meet {ids : List Str} (hnd : ids.Nodup) (A B : Finset Str) (hA : electing ids A)
    (hB : committing ids B) : ∃ q, q ∈ A ∧ q ∈ B := by
  have hlen := List.toFinset_card_of_nodup hnd
  have hA2 := hA.2
  have hB2 := hB.2
  obtain ⟨q, hq⟩ := Finset.inter_nonempty_of_card_lt_card_add_card hA.1 hB.1 (by omega)
  exact ⟨q, Finset.mem_inter.mp hq⟩

/-- The node is in the middle of an election for the term. -/
def Node.InElection (n : Node) (T : Nat) : Prop :=
  n.phase = .started T ∨ ∃ election v pending, n.phase = .waiting election T v pending

/-- The node is a candidate in an election for the term it is in. -/
structure Node.Standing (n : Node) (T : Nat) : Prop where
  role : n.st.state = .candidate
  term : n.st.currentTerm = T
  election : n.InElection T

section Relation

variable (ids : List Str) (h : Chronicle)

/-- The first `k` entries of the log have been committed. -/
def SettledTo (s : State) (k : Nat) : Prop :=
  k ≤ s.log.length ∧
    h.Settled LogEntry.term (committing ids) s.currentTerm (s.log.take k)

/-- The entry has been committed at its index. -/
def SettledEntry (e : LogEntry) : Prop :=
  0 < e.index ∧
    ∃ T P, h.Settled LogEntry.term (committing ids) T P ∧ P[e.index - 1]? = some e

structure Mirrors (p : Str) (s : State) : Prop where
  epoch : h.epoch p = s.currentTerm
  followed : h.followed p = decide (s.leaderID ≠ [])
  log : h.log p = s.log

/-- What the history says about a leader. -/
structure Leads (p : Str) (s : State) : Prop where
  begun : h.start s.currentTerm ≠ none
  chain : h.chain s.currentTerm = s.log
  own : h.acked p s.currentTerm s.log.length
  next : ∀ q ∈ peersOf ids p,
    (s.nextIndex.find q).getD 0 < 2 ^ 64 ∧ s.prevIndex q ≤ s.log.length
  keys : ∀ q ∈ peersOf ids p, q ∈ s.matchIndex
  matched : ∀ q m, s.matchIndex.find q = some m → m = 0 ∨ h.acked q s.currentTerm m

/-- What it says about a node. -/
structure NodeSim (p : Str) (n : Node) : Prop where
  mirrors : Mirrors h p n.st
  indexed : Log.WellIndexed n.st.log
  keys : ∀ q ∈ n.st.matchIndex, q ∈ peersOf ids p
  leads : n.st.state = .leader → Leads ids h p n.st
  standing : ∀ T, n.Standing T → T ≠ 0 ∧ h.voted p T n.st.log
  commit : SettledTo ids h n.st n.st.commitIndex
  applying : ∀ i k, n.applying = some (i, k) → SettledTo ids h n.st k
  applied : ∀ e ∈ n.applied, SettledEntry ids h e

/-- The candidate's log, as the request describes it, is at least as up to date as `l`. -/
def VoteRequest.covers (req : VoteRequest) (l : Log) : Prop :=
  req.lastLogTerm > Log.lastTerm l ∨ req.lastLogTerm = Log.lastTerm l ∧ req.lastLogIndex ≥ l.length

/-- A request carries a part of the chain of its term, and a commit index that has been reached. -/
structure Carries (req : AppendEntriesRequest) (k : Nat) : Prop where
  begun : h.start req.term ≠ none
  slice : Slice (h.chain req.term) k req
  bounded : req.leaderCommit ≤ k
  settled : h.Settled LogEntry.term (committing ids) req.term
    ((h.chain req.term).take req.leaderCommit)

/-- A quorum has acknowledged the first `N` entries of the chain of the term. -/
def Reached (T N : Nat) : Prop :=
  0 < N → ∃ Q, committing ids Q ∧ ∀ q ∈ Q, ∃ k, h.acked q T k ∧ N ≤ k

/-- What it says about an `updateCommitIndex` of a leader. -/
def Update.Sim (s : State) : Update → Prop
  | .picked N => Reached ids h s.currentTerm N
  | .dated N T => T = s.currentTerm ∧ Reached ids h s.currentTerm N
  | .above N T => T = s.currentTerm ∧ s.commitIndex < N ∧ Reached ids h s.currentTerm N
  | .agreed N => s.commitIndex < N ∧ SettledTo ids h s N

/-- What it says about a request of the term `T` that is being built. -/
def Draft.Sim (T : Nat) : Draft → Prop
  | .blank => True
  | .prev i => i ≤ (h.chain T).length
  | .prevTerm i t => i ≤ (h.chain T).length ∧ t = Log.termAt (h.chain T) i
  | .entries i t es => ∃ k, Slice (h.chain T) k ⟨T, [], i, t, es, 0⟩

variable (c : Cluster)

/-- What it says about a packet. -/
def Packet.Sim : Packet → Prop
  | .voteTask src _ _ T lastLogIndex =>
    T ≤ (c.nodes src).st.currentTerm ∧
      ((c.nodes src).Standing T → ∀ i, lastLogIndex = some i →
        i = Log.lastIndex (c.nodes src).st.log)
  | .voteReq src _ _ req =>
    req.term ≤ (c.nodes src).st.currentTerm ∧
      ((c.nodes src).Standing req.term →
        req.lastLogIndex = Log.lastIndex (c.nodes src).st.log ∧
          req.lastLogTerm = Log.lastTerm (c.nodes src).st.log)
  | .voteResp _ _ _ _ _ => True
  | .heartbeatTask src dst T draft => dst ∈ peersOf ids src ∧ draft.Sim h T
  | .appendReq src dst req => dst ∈ peersOf ids src ∧ src ∈ ids ∧ ∃ k, Carries ids h req k
  | .appendResp src dst req resp =>
    src ∈ peersOf ids dst ∧ ∃ k, Slice (h.chain req.term) k req ∧
      (resp.success = true → req.entries ≠ [] → h.acked src req.term k)
  | .proposal _ _ _ => True

/-- A vote for another was given for a request, with a log that the request covers. -/
def Backed (b : Ballot) : Prop :=
  ∃ dst election req l, .voteReq b.candidate dst election req ∈ c.net ∧ req.term = b.term ∧
    h.voted b.voter b.term l ∧ req.covers l

/-- The term has had a leader, elected by a majority, whose election is over. -/
def Founded (T : Nat) : Prop :=
  T ≠ 0 ∧ ∃ r Q, electing ids Q ∧ (∀ q ∈ Q, ⟨q, T, r⟩ ∈ c.votes) ∧
    T ≤ (c.nodes r).st.currentTerm ∧ ¬ (c.nodes r).InElection T

/-- **The history mirrors the cluster.** -/
structure Sim : Prop where
  node : ∀ p, NodeSim ids h p (c.nodes p)
  updating : ∀ p u, (c.nodes p).phase = .updating u → (c.nodes p).st.state = .leader →
    u.Sim ids h (c.nodes p).st
  net : ∀ p ∈ c.net, p.Sim ids h c
  backed : ∀ b ∈ c.votes, b.voter ≠ b.candidate → Backed h c b
  founded : ∀ T, h.start T ≠ none → Founded ids c T
  chains : ∀ T, Log.WellIndexed (h.chain T)

end Relation

/-! ## 3. One node -/

section Node

variable {ids : List Str} {h h' : Chronicle} {p : Str} {n n' : Node} {s s' : State} {k : Nat}

theorem SettledTo.of_prefix (hs : SettledTo ids h s k) (hext : h.Extends h')
    (hterm : s.currentTerm ≤ s'.currentTerm) (hpre : s.log.take k <+: s'.log) :
    SettledTo ids h' s' k := by
  have hlen : (s.log.take k).length = k := by
    rw [List.length_take]
    exact Nat.min_eq_left hs.1
  have htake : s'.log.take k = s.log.take k := by
    rw [Log.take_eq_of_prefix hpre hlen.ge, List.take_take, Nat.min_self]
  refine ⟨hlen ▸ hpre.length_le, ?_⟩
  rw [htake]
  exact hs.2.mono hext hterm

theorem SettledEntry.mono {e : LogEntry} (he : SettledEntry ids h e) (hext : h.Extends h') :
    SettledEntry ids h' e := by
  obtain ⟨h0, T, P, hP, hget⟩ := he
  exact ⟨h0, T, P, hP.mono hext le_rfl, hget⟩

theorem Reached.mono {T N : Nat} (hr : Reached ids h T N) (hext : h.Extends h') :
    Reached ids h' T N := by
  intro h0
  obtain ⟨Q, hQ, hack⟩ := hr h0
  refine ⟨Q, hQ, fun q hq => ?_⟩
  obtain ⟨k, hk, hle⟩ := hack q hq
  exact ⟨k, hext.acked q T k hk, hle⟩

/-- What `updateCommitIndex` has found out stays true while the log of the leader grows. -/
theorem Update.Sim.mono {u : Update} (hu : u.Sim ids h s) (hext : h.Extends h')
    (hterm : s'.currentTerm = s.currentTerm) (hcommit : s'.commitIndex = s.commitIndex)
    (hlog : s.log <+: s'.log) : u.Sim ids h' s' := by
  cases u with
  | picked N => exact (hterm ▸ hu : Reached ids h s'.currentTerm N).mono hext
  | dated N T => exact ⟨hu.1.trans hterm.symm, (hterm ▸ hu.2).mono hext⟩
  | above N T => exact ⟨hu.1.trans hterm.symm, hcommit ▸ hu.2.1, (hterm ▸ hu.2.2).mono hext⟩
  | agreed N =>
    obtain ⟨habove, hsettled⟩ := hu
    exact ⟨hcommit ▸ habove,
      hsettled.of_prefix hext hterm.ge ((List.take_prefix _ _).trans hlog)⟩

theorem Draft.Sim.mono {T : Nat} {draft : Draft} (hd : draft.Sim h T) (hext : h.Extends h') :
    draft.Sim h' T := by
  have hpre := hext.chain T
  cases draft with
  | blank => trivial
  | prev i => exact hd.trans hpre.length_le
  | prevTerm i t =>
    exact ⟨hd.1.trans hpre.length_le, hd.2.trans (Log.termAt_eq_of_prefix hpre hd.1).symm⟩
  | entries i t es =>
    obtain ⟨k, hk⟩ := hd
    exact ⟨k, hk.mono hpre⟩

/-- What has to be shown of a node after an event: its log still has what is settled, its office
and indices are mirrored, and whatever is new in the rest has been settled. -/
theorem NodeSim.evolve (hs : NodeSim ids h p n) (hext : h.Extends h')
    (hterm : n.st.currentTerm ≤ n'.st.currentTerm)
    (hkeep : ∀ k, SettledTo ids h n.st k → n.st.log.take k <+: n'.st.log)
    (hmirrors : Mirrors h' p n'.st) (hindexed : Log.WellIndexed n'.st.log)
    (hkeys : ∀ q ∈ n'.st.matchIndex, q ∈ peersOf ids p)
    (hleads : n'.st.state = .leader → Leads ids h' p n'.st)
    (hstanding : ∀ T, n'.Standing T → T ≠ 0 ∧ h'.voted p T n'.st.log)
    (hcommit : n'.st.commitIndex = n.st.commitIndex ∨ SettledTo ids h' n'.st n'.st.commitIndex)
    (happlying : ∀ i k, n'.applying = some (i, k) →
      k = n.st.commitIndex ∨ ∃ j, n.applying = some (j, k))
    (happlied : ∀ e ∈ n'.applied, e ∈ n.applied ∨ SettledEntry ids h e) :
    NodeSim ids h' p n' where
  mirrors := hmirrors
  indexed := hindexed
  keys := hkeys
  leads := hleads
  standing := hstanding
  commit := by
    rcases hcommit with heq | hset
    · rw [heq]
      exact hs.commit.of_prefix hext hterm (hkeep _ hs.commit)
    · exact hset
  applying i k hk := by
    have hset : SettledTo ids h n.st k := by
      rcases happlying i k hk with rfl | ⟨j, hj⟩
      · exact hs.commit
      · exact hs.applying j k hj
    exact hset.of_prefix hext hterm (hkeep k hset)
  applied e he := by
    rcases happlied e he with he | he
    · exact (hs.applied e he).mono hext
    · exact he.mono hext

theorem Leads.mono (hl : Leads ids h p s) (hext : h.Extends h')
    (hchain : h'.chain s.currentTerm = h.chain s.currentTerm) : Leads ids h' p s where
  begun := hext.begun hl.begun
  chain := hchain.trans hl.chain
  own := hext.acked _ _ _ hl.own
  next := hl.next
  keys := hl.keys
  matched q m hm := (hl.matched q m hm).imp_right (hext.acked q _ m)

/-- Only the office and the log are mirrored. -/
theorem Mirrors.congr (hm : Mirrors h p s) (hoffice : s'.office = s.office)
    (hlog : s'.log = s.log) : Mirrors h p s' where
  epoch := hm.epoch.trans (congrArg Office.term hoffice).symm
  followed := by
    rw [hm.followed]
    exact congrArg (fun f => decide (f.leaderID ≠ [])) hoffice.symm
  log := hm.log.trans hlog.symm

/-- A node that an event does not touch. -/
theorem NodeSim.frame (hs : NodeSim ids h p n) (hext : h.Extends h')
    (hepoch : h'.epoch p = h.epoch p) (hfollowed : h'.followed p = h.followed p)
    (hlog : h'.log p = h.log p)
    (hchain : n.st.state = .leader → h'.chain n.st.currentTerm = h.chain n.st.currentTerm) :
    NodeSim ids h' p n :=
  hs.evolve hext le_rfl (fun k _ => List.take_prefix k _)
    ⟨hepoch.trans hs.mirrors.epoch, hfollowed.trans hs.mirrors.followed, hlog.trans hs.mirrors.log⟩
    hs.indexed hs.keys (fun hr => (hs.leads hr).mono hext (hchain hr))
    (fun T hT => ⟨(hs.standing T hT).1, hext.voted _ _ _ (hs.standing T hT).2⟩) (.inl rfl)
    (fun i _ hk => .inr ⟨i, hk⟩) fun _ he => .inl he

end Node

end SkyLock.Raft
