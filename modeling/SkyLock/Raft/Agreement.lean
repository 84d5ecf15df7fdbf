/-
# What the replicas agree on

Consequences of the refinement (`Safety.lean`) for the logs, the commit indices and the state
machines of a whole cluster.  All of them are about runs of orderly events, with any number of
nodes, elections and proposals, and messages that are delayed, reordered, repeated or lost:

* an entry with the same index and term in two logs is preceded by the same entries
  (`logs_match`);
* what some node has committed is in the log of every leader of a later term, and a leader's log
  only grows during its term (`leader_completeness`, `leader_appends_only`);
* no node's commit index goes back, and no committed entry is ever taken out of a log
  (`committed_entries_stay`);
* each node has applied exactly the first `lastApplied` entries of its log, none skipped and none
  twice, and of two nodes one has applied a prefix of what the other has (`replicas_agree`).

The handler of `AppendEntries` can lower the commit index: it assigns the smaller of the leader's
and the last index of the REQUEST, even where the node's own is higher.  It does not in these runs,
since a request reaches as far as its leader had committed.  In the code the commit index is read
after the entries, and the leader may have committed more in between; that no request is built so is
one of the conditions of `Node.orderly`.
-/
import SkyLock.Raft.Safety

namespace SkyLock.Raft

open Replication (History)

variable {ids peers : List Str} {h h' : Chronicle} {c c' : Cluster} {id p q : Str} {n : Node}
  {e : Event} {o : Outcome}

/-! ## 1. Two moments of a run -/

/-- One step, with the history before and after it. -/
theorem replay_step (hids : [] ∉ ids) (hnd : ids.Nodup) {a : Action} (hs : Sim ids h c)
    (hv : h.Valid LogEntry.term (electing ids)) (hlaw : Lawful ids c) (hord : Orderly ids c a)
    (hstep : Cluster.step ids c a = some c') :
    ∃ h' : Chronicle, h'.Valid LogEntry.term (electing ids) ∧ Sim ids h' c' ∧ h.Extends h' := by
  obtain ⟨hid, havail, o, ho, rfl⟩ := Cluster.step_eq_some.mp hstep
  have hmove := move_of_step ho
  obtain ⟨h', hreplay⟩ := replay_of_move hs hv hids hnd hid hlaw hmove hord.1 hord.2
    (mem_net_of_available havail)
  exact ⟨h', hreplay.evolves.valid, hs.of_replay hnd hid hmove hord.1 hord.2 hreplay,
    hreplay.evolves.grows⟩

/-- **The histories of two moments**: the later extends the earlier. -/
theorem histories_of_run (hids : [] ∉ ids) (hnd : ids.Nodup)
    (hrun : Lts.Run (Cluster.step ids) (Orderly ids) newCluster c)
    (hrun' : Lts.Run (Cluster.step ids) (Orderly ids) c c') :
    ∃ h h' : Chronicle, Sim ids h c ∧ h'.Valid LogEntry.term (electing ids) ∧ Sim ids h' c' ∧
      h.Extends h' := by
  obtain ⟨hlaw, h, hv, hs⟩ := refines_of_run hids hnd hrun
  obtain ⟨-, h', hv', hs', hext⟩ := hrun'.invariant
    (P := fun d => Lawful ids d ∧ ∃ h' : Chronicle, h'.Valid LogEntry.term (electing ids) ∧
      Sim ids h' d ∧ h.Extends h')
    ⟨hlaw, h, hv, hs, .refl h⟩ (by
      rintro d a d' ⟨hlaw, h', hv', hs', hext⟩ hord hstep
      obtain ⟨h'', hv'', hs'', hext'⟩ := replay_step hids hnd hs' hv' hlaw hord hstep
      exact ⟨hlaw.step hids hnd hord.1 hstep, h'', hv'', hs'', hext.trans hext'⟩)
  exact ⟨h, h', hs, hv', hs', hext⟩

/-! ## 2. Logs and leaders -/

/-- **Log matching.**  If two logs have an entry of the same term at an index, they are the same up
to it. -/
theorem logs_match (hids : [] ∉ ids) (hnd : ids.Nodup)
    (hrun : Lts.Run (Cluster.step ids) (Orderly ids) newCluster c) {i : Nat} {x y : LogEntry}
    (hx : Log.get (c.nodes p).st.log i = some x) (hy : Log.get (c.nodes q).st.log i = some y)
    (hterm : x.term = y.term) : (c.nodes p).st.log.take i = (c.nodes q).st.log.take i := by
  obtain ⟨-, h, hv, hs⟩ := refines_of_run hids hnd hrun
  have hgrown : ∀ r, h.Grown LogEntry.term (c.nodes r).st.log := fun r =>
    (hs.node r).mirrors.log ▸ hv.log r
  exact matching_of_grown (hgrown p) (hgrown q) i x y hx hy hterm

theorem logs_match_first_entry :
    ∃ c x y, Lts.Run (Cluster.step trio) (Orderly trio) newCluster c ∧
      Log.get (c.nodes n1).st.log 1 = some x ∧ Log.get (c.nodes n3).st.log 1 = some y ∧
      (c.nodes n1).st.log.take 1 = (c.nodes n3).st.log.take 1 := by
  obtain ⟨c, hrun, hx, hy⟩ : ∃ c, Lts.Run (Cluster.step trio) (Orderly trio) newCluster c ∧
      Log.get (c.nodes n1).st.log 1 = some (firstEntry "x".toList) ∧
      Log.get (c.nodes n3).st.log 1 = some (firstEntry "x".toList) :=
    Lts.exists_run (winElection n1 n3 n2 ++ heartbeat n1 n3 ++ commitFirst n1 n3 "x".toList)
      (by decide +kernel)
  exact ⟨c, _, _, hrun, hx, hy,
    logs_match (by decide +kernel) (by decide +kernel) hrun hx hy rfl⟩

/-- **Leader completeness.**  What a node has committed is in the log of every node that then or
later leads a term not before the node's. -/
theorem leader_completeness (hids : [] ∉ ids) (hnd : ids.Nodup)
    (hrun : Lts.Run (Cluster.step ids) (Orderly ids) newCluster c)
    (hrun' : Lts.Run (Cluster.step ids) (Orderly ids) c c')
    (hlead : (c'.nodes q).st.state = .leader)
    (hterm : (c.nodes p).st.currentTerm ≤ (c'.nodes q).st.currentTerm) :
    (c.nodes p).st.log.take (c.nodes p).st.commitIndex <+: (c'.nodes q).st.log := by
  obtain ⟨h, h', hs, hv', hs', hext⟩ := histories_of_run hids hnd hrun hrun'
  have hleads := (hs'.node q).leads hlead
  have hsettled := (hs.node p).commit.2.mono hext le_rfl
  rw [← hleads.chain]
  exact hsettled.prefix_chain hv' (quorums_meet hnd) hterm hleads.begun

/-- `p`, whose log is the first entry, stands in term 2 and wins with the vote of `q`; its request
to `r` fails. -/
def winNext (p q r : Str) : List Action :=
  campaignOf p ++ buildVote p q 0 ⟨2, p, 1, 1⟩ ++
    [⟨q, .receive (.voteReq p q 0 ⟨2, p, 1, 1⟩)⟩,
      ⟨p, .receive (.voteResp q p 0 ⟨2, p, 1, 1⟩ ⟨2, true⟩)⟩, ⟨p, .voteFailed r⟩, ⟨p, .tally⟩]

theorem leader_completeness_next_leader :
    ∃ c c', Lts.Run (Cluster.step trio) (Orderly trio) newCluster c ∧
      Lts.Run (Cluster.step trio) (Orderly trio) c c' ∧ (c.nodes n1).st.commitIndex = 1 ∧
      (c.nodes n1).st.log.take (c.nodes n1).st.commitIndex <+: (c'.nodes n3).st.log := by
  obtain ⟨c, c', hrun, hrun', hcommit, hlead, hterm⟩ : ∃ c c',
      Lts.Run (Cluster.step trio) (Orderly trio) newCluster c ∧
      Lts.Run (Cluster.step trio) (Orderly trio) c c' ∧ (c.nodes n1).st.commitIndex = 1 ∧
      (c'.nodes n3).st.state = .leader ∧
      (c.nodes n1).st.currentTerm ≤ (c'.nodes n3).st.currentTerm :=
    Lts.exists_two_runs
      (winElection n1 n3 n2 ++ heartbeat n1 n3 ++ commitFirst n1 n3 "x".toList)
      (winNext n3 n2 n1) (by decide +kernel)
  exact ⟨c, c', hrun, hrun', hcommit,
    leader_completeness (by decide +kernel) (by decide +kernel) hrun hrun' hlead hterm⟩

/-- **A leader only appends.**  The log that a term's leader has at some time is a prefix of the one
that the term's leader has at any later time. -/
theorem leader_appends_only (hids : [] ∉ ids) (hnd : ids.Nodup)
    (hrun : Lts.Run (Cluster.step ids) (Orderly ids) newCluster c)
    (hrun' : Lts.Run (Cluster.step ids) (Orderly ids) c c')
    (hp : (c.nodes p).st.state = .leader) (hq : (c'.nodes q).st.state = .leader)
    (hterm : (c.nodes p).st.currentTerm = (c'.nodes q).st.currentTerm) :
    (c.nodes p).st.log <+: (c'.nodes q).st.log := by
  obtain ⟨h, h', hs, -, hs', hext⟩ := histories_of_run hids hnd hrun hrun'
  rw [← ((hs.node p).leads hp).chain, ← ((hs'.node q).leads hq).chain, hterm]
  exact hext.chain _

theorem leader_appends_only_first_entry :
    ∃ c c', Lts.Run (Cluster.step trio) (Orderly trio) newCluster c ∧
      Lts.Run (Cluster.step trio) (Orderly trio) c c' ∧
      (c.nodes n1).st.log.length < (c'.nodes n1).st.log.length ∧
      (c.nodes n1).st.log <+: (c'.nodes n1).st.log := by
  obtain ⟨c, c', hrun, hrun', hgrown, hp, hq, hterm⟩ : ∃ c c',
      Lts.Run (Cluster.step trio) (Orderly trio) newCluster c ∧
      Lts.Run (Cluster.step trio) (Orderly trio) c c' ∧
      (c.nodes n1).st.log.length < (c'.nodes n1).st.log.length ∧
      (c.nodes n1).st.state = .leader ∧ (c'.nodes n1).st.state = .leader ∧
      (c.nodes n1).st.currentTerm = (c'.nodes n1).st.currentTerm :=
    Lts.exists_two_runs (winElection n1 n3 n2 ++ heartbeat n1 n3)
      (commitFirst n1 n3 "x".toList) (by decide +kernel)
  exact ⟨c, c', hrun, hrun', hgrown,
    leader_appends_only (by decide +kernel) (by decide +kernel) hrun hrun' hp hq hterm⟩

/-! ## 3. The commit index -/

/-- A request that carries a chain reaches as far as its sender had committed. -/
theorem commitIndex_le_of_carries (hs : Sim ids h c) {req : AppendEntriesRequest} {k : Nat}
    (hk : Carries ids h req k) (s : State) :
    s.commitIndex ≤ (s.handleAppendEntries req).1.commitIndex := by
  rcases handleAppendEntries_cases s req with ⟨-, heq⟩ | ⟨-, -, heq⟩ | ⟨-, -, heq⟩
  · rw [heq]
  · rw [heq]
    exact le_rfl
  · have hlast := hk.slice.lastNewEntry_eq (hs.chains req.term)
    rw [heq, advanceCommit_commitIndex, store_commitIndex, hlast, Nat.min_eq_right hk.bounded]
    split
    · rename_i hgt
      exact (Nat.le_of_lt hgt : s.commitIndex ≤ req.leaderCommit)
    · exact le_rfl

theorem commitIndex_le_step (hs : Sim ids h c) {a : Action} (hord : Orderly ids c a)
    (hstep : Cluster.step ids c a = some c') (p : Str) :
    (c.nodes p).st.commitIndex ≤ (c'.nodes p).st.commitIndex := by
  obtain ⟨-, havail, o, ho, rfl⟩ := Cluster.step_eq_some.mp hstep
  refine c.forall_put (P := fun p n => (c.nodes p).st.commitIndex ≤ n.st.commitIndex) ?_
    (fun _ _ => le_rfl) p
  obtain ⟨id, e⟩ := a
  have hnet := mem_net_of_available havail
  replace hord := hord.2
  dsimp only at hord ho hnet ⊢
  cases commits_of_move (move_of_step ho) with
  | keep commitIndex => exact commitIndex.ge
  | set index before _ commitIndex =>
    rw [commitIndex]
    exact (hs.updating id _ before hord).1.le
  | follow src req _ commitIndex =>
    obtain ⟨-, -, k, hk⟩ := hs.net _ (hnet _ rfl)
    rw [commitIndex]
    exact commitIndex_le_of_carries hs hk _

/-- What is committed at one moment and at a later one, if the index has not gone back. -/
theorem prefix_of_commitIndex_le (hnd : ids.Nodup) (hs : Sim ids h c)
    (hv' : h'.Valid LogEntry.term (electing ids)) (hs' : Sim ids h' c') (hext : h.Extends h')
    (hle : (c.nodes p).st.commitIndex ≤ (c'.nodes p).st.commitIndex) :
    (c.nodes p).st.log.take (c.nodes p).st.commitIndex <+:
      (c'.nodes p).st.log.take (c'.nodes p).st.commitIndex := by
  obtain ⟨hlen, hsettled⟩ := (hs.node p).commit
  obtain ⟨hlen', hsettled'⟩ := (hs'.node p).commit
  rcases (hsettled.mono hext le_rfl).comparable hv' (quorums_meet hnd) hsettled' with hpre | hpre
  · exact hpre
  · -- the later one is at least as long, so they are the same
    have heq := hpre.eq_of_length_le (by
      rw [List.length_take, List.length_take, Nat.min_eq_left hlen, Nat.min_eq_left hlen']
      exact hle)
    rw [heq]

/-- **Committed entries stay.**  No node's commit index goes back, and what a node has committed is
committed there for good. -/
theorem committed_entries_stay (hids : [] ∉ ids) (hnd : ids.Nodup)
    (hrun : Lts.Run (Cluster.step ids) (Orderly ids) newCluster c)
    (hrun' : Lts.Run (Cluster.step ids) (Orderly ids) c c') (p : Str) :
    (c.nodes p).st.commitIndex ≤ (c'.nodes p).st.commitIndex ∧
      (c.nodes p).st.log.take (c.nodes p).st.commitIndex <+:
        (c'.nodes p).st.log.take (c'.nodes p).st.commitIndex := by
  have hle : (c.nodes p).st.commitIndex ≤ (c'.nodes p).st.commitIndex := by
    induction hrun' with
    | refl => exact le_rfl
    | tail a hpast hord hstep ih =>
      obtain ⟨-, h, -, hs⟩ := refines_of_run hids hnd (hrun.trans hpast)
      exact ih.trans (commitIndex_le_step hs hord hstep p)
  obtain ⟨h, h', hs, hv', hs', hext⟩ := histories_of_run hids hnd hrun hrun'
  exact ⟨hle, prefix_of_commitIndex_le hnd hs hv' hs' hext hle⟩

theorem committed_entries_stay_next_leader :
    ∃ c c', Lts.Run (Cluster.step trio) (Orderly trio) newCluster c ∧
      Lts.Run (Cluster.step trio) (Orderly trio) c c' ∧ (c.nodes n1).st.commitIndex = 1 ∧
      (c.nodes n1).st.log.take (c.nodes n1).st.commitIndex <+:
        (c'.nodes n1).st.log.take (c'.nodes n1).st.commitIndex := by
  obtain ⟨c, c', hrun, hrun', hcommit⟩ : ∃ c c',
      Lts.Run (Cluster.step trio) (Orderly trio) newCluster c ∧
      Lts.Run (Cluster.step trio) (Orderly trio) c c' ∧ (c.nodes n1).st.commitIndex = 1 :=
    Lts.exists_two_runs
      (winElection n1 n3 n2 ++ heartbeat n1 n3 ++ commitFirst n1 n3 "x".toList)
      (winNext n3 n2 n1) (by decide +kernel)
  exact ⟨c, c', hrun, hrun', hcommit,
    (committed_entries_stay (by decide +kernel) (by decide +kernel) hrun hrun' n1).2⟩

/-! ## 4. The state machines -/

/-- An index has a successor in `uint64` where a pass of the apply loop goes up to it. -/
def InRange (c : Cluster) (a : Action) : Prop :=
  a.event = .applyRead → (c.nodes a.node).st.commitIndex + 1 < 2 ^ 64

instance (c : Cluster) (a : Action) : Decidable (InRange c a) :=
  inferInstanceAs (Decidable (_ → _))

/-- **What a node has applied**: the first `lastApplied` entries of its log.  A pass is about to
read the next one. -/
structure Replayed (n : Node) : Prop where
  applied : n.applied = n.st.log.take n.st.lastApplied
  committed : n.st.lastApplied ≤ n.st.commitIndex
  pass : ∀ i k, n.applying = some (i, k) →
    i = n.st.lastApplied + 1 ∧ k ≤ n.st.commitIndex ∧ k + 1 < 2 ^ 64

theorem replayed_newNode : Replayed newNode where
  applied := rfl
  committed := le_rfl
  pass i k hik := absurd hik (by simp [newNode])

/-- A log that keeps the first `k` entries keeps the first `j`. -/
theorem take_of_kept {l l' : Log} {j k : Nat} (hkeep : l.take k <+: l') (hlen : k ≤ l.length)
    (hj : j ≤ k) : l'.take j = l.take j := by
  have hle : j ≤ (l.take k).length := by
    rw [List.length_take]
    exact le_min hj (hj.trans hlen)
  rw [Replication.take_eq_of_prefix hkeep hle, List.take_take, Nat.min_eq_left hj]

theorem Replayed.move (hr : Replayed n) (hmove : Move id peers n e o)
    (hfits : e = .applyRead → n.st.commitIndex + 1 < 2 ^ 64)
    (hlen : n.st.commitIndex ≤ n.st.log.length)
    (hle : n.st.commitIndex ≤ o.node.st.commitIndex)
    (hkeep : n.st.log.take n.st.commitIndex <+: o.node.st.log) : Replayed o.node := by
  have hcommitted := hr.committed
  have htake : ∀ {j}, j ≤ n.st.commitIndex → o.node.st.log.take j = n.st.log.take j :=
    take_of_kept hkeep hlen
  cases pass_of_move hmove with
  | idle hread hnext same =>
    refine ⟨?_, ?_, fun i k hik => ?_⟩
    · rw [same.applied, same.lastApplied, htake hcommitted, hr.applied]
    · rw [same.lastApplied]
      exact hcommitted.trans hle
    · obtain ⟨hi, hk, hfit⟩ := hr.pass i k (same.applying ▸ hik)
      exact ⟨same.lastApplied ▸ hi, hk.trans hle, hfit⟩
  | read applying applied lastApplied =>
    refine ⟨?_, ?_, fun i k hik => ?_⟩
    · rw [applied, lastApplied, htake hcommitted, hr.applied]
    · rw [lastApplied]
      exact hcommitted.trans hle
    · rw [applying, Option.some.injEq, Prod.mk.injEq] at hik
      obtain ⟨rfl, rfl⟩ := hik
      exact ⟨by rw [lastApplied], hle, hfits rfl⟩
  | apply i k entry before hi hentry applying applied lastApplied =>
    obtain ⟨hnext, hk, hfit⟩ := hr.pass i k before
    refine ⟨?_, ?_, fun j k' hjk => ?_⟩
    · obtain ⟨-, hget⟩ := Log.get_eq_some_iff.mp hentry
      rw [applied, lastApplied, htake (hi.trans hk), hr.applied, hnext, List.take_add_one]
      rw [hnext, Nat.add_sub_cancel] at hget
      rw [hget]
      rfl
    · rw [lastApplied]
      exact (hi.trans hk).trans hle
    · rw [applying, Option.some.injEq, Prod.mk.injEq, Nat.mod_eq_of_lt (by omega)] at hjk
      obtain ⟨rfl, rfl⟩ := hjk
      exact ⟨by rw [lastApplied], hk.trans hle, hfit⟩
  | skip i k before hi hmissing =>
    -- the index is below the commit index, and so it is in the log
    obtain ⟨hnext, hk, -⟩ := hr.pass i k before
    have hget := List.getElem?_eq_getElem (show i - 1 < n.st.log.length by omega)
    cases hmissing.symm.trans (Log.get_eq_some_iff.mpr ⟨by omega, hget⟩)
  | done i k before hi applying applied lastApplied =>
    refine ⟨?_, ?_, fun j k' hjk => ?_⟩
    · rw [applied, lastApplied, htake hcommitted, hr.applied]
    · rw [lastApplied]
      exact hcommitted.trans hle
    · rw [applying] at hjk
      cases hjk

/-- Everything that holds along a run in which the indices fit. -/
structure InStep (ids : List Str) (c : Cluster) : Prop where
  lawful : Lawful ids c
  refines : Refines ids c
  replayed : ∀ p, Replayed (c.nodes p)

theorem InStep.step (hids : [] ∉ ids) (hnd : ids.Nodup) {a : Action} (hin : InStep ids c)
    (hord : Orderly ids c a) (hfits : InRange c a) (hstep : Cluster.step ids c a = some c') :
    InStep ids c' := by
  obtain ⟨h, hv, hs⟩ := hin.refines
  obtain ⟨h', hv', hs', hext⟩ := replay_step hids hnd hs hv hin.lawful hord hstep
  have hle := commitIndex_le_step hs hord hstep
  have hkeep := fun p =>
    (prefix_of_commitIndex_le hnd hs hv' hs' hext (hle p)).trans (List.take_prefix _ _)
  refine ⟨hin.lawful.step hids hnd hord.1 hstep, ⟨h', hv', hs'⟩, ?_⟩
  obtain ⟨-, -, o, ho, rfl⟩ := Cluster.step_eq_some.mp hstep
  refine c.forall_put (P := fun _ n => Replayed n) ?_ fun p _ => hin.replayed p
  have hself := c.put_nodes_self a.node o
  exact (hin.replayed a.node).move (move_of_step ho) hfits (hs.node a.node).commit.1
    (hself ▸ hle a.node) (hself ▸ hkeep a.node)

theorem inStep_of_run (hids : [] ∉ ids) (hnd : ids.Nodup)
    (hrun : Lts.Run (Cluster.step ids) (fun c a => Orderly ids c a ∧ InRange c a) newCluster c) :
    InStep ids c :=
  hrun.invariant ⟨lawful_newCluster ids, refines_newCluster, fun _ => replayed_newNode⟩
    fun _ _ _ hin hok hstep => hin.step hids hnd hok.1 hok.2 hstep

/-- **The replicas agree.**  Every node has applied the first `lastApplied` entries of its log, and
of any two nodes one has applied a prefix of what the other has.  So whatever the state machine is,
two nodes that have applied equally many entries are in the same state. -/
theorem replicas_agree (hids : [] ∉ ids) (hnd : ids.Nodup)
    (hrun : Lts.Run (Cluster.step ids) (fun c a => Orderly ids c a ∧ InRange c a) newCluster c)
    (p q : Str) :
    (c.nodes p).applied = (c.nodes p).st.log.take (c.nodes p).st.lastApplied ∧
      ((c.nodes p).applied <+: (c.nodes q).applied ∨ (c.nodes q).applied <+: (c.nodes p).applied) ∧
      ∀ {σ : Type} (apply : σ → LogEntry → σ) (init : σ),
        (c.nodes p).st.lastApplied = (c.nodes q).st.lastApplied →
          (c.nodes p).applied.foldl apply init = (c.nodes q).applied.foldl apply init := by
  have hin := inStep_of_run hids hnd hrun
  obtain ⟨h, hv, hs⟩ := hin.refines
  -- what a node has applied is a prefix of what it has committed
  have hpre : ∀ r, (c.nodes r).applied <+: (c.nodes r).st.log.take (c.nodes r).st.commitIndex := by
    intro r
    rw [(hin.replayed r).applied]
    exact List.take_prefix_take_left (hin.replayed r).committed
  have hlength : ∀ r, (c.nodes r).applied.length = (c.nodes r).st.lastApplied := by
    intro r
    rw [(hin.replayed r).applied, List.length_take]
    exact Nat.min_eq_left ((hin.replayed r).committed.trans (hs.node r).commit.1)
  have hcomparable : (c.nodes p).applied <+: (c.nodes q).applied ∨
      (c.nodes q).applied <+: (c.nodes p).applied := by
    rcases (hs.node p).commit.2.comparable hv (quorums_meet hnd) (hs.node q).commit.2 with hle | hle
    · exact Replication.comparable_of_prefix ((hpre p).trans hle) (hpre q)
    · exact Replication.comparable_of_prefix (hpre p) ((hpre q).trans hle)
  refine ⟨(hin.replayed p).applied, hcomparable, fun apply init heq => ?_⟩
  have hlen : (c.nodes p).applied.length = (c.nodes q).applied.length := by
    rw [hlength, hlength, heq]
  rcases hcomparable with hle | hle
  · rw [hle.eq_of_length hlen]
  · rw [hle.eq_of_length hlen.symm]

theorem replicas_agree_first_entry :
    ∃ c, Lts.Run (Cluster.step trio) (fun c a => Orderly trio c a ∧ InRange c a) newCluster c ∧
      (c.nodes n1).applied ≠ [] ∧
      ∀ {σ : Type} (apply : σ → LogEntry → σ) (init : σ),
        (c.nodes n1).applied.foldl apply init = (c.nodes n3).applied.foldl apply init := by
  obtain ⟨c, hrun, happlied, heq⟩ : ∃ c,
      Lts.Run (Cluster.step trio) (fun c a => Orderly trio c a ∧ InRange c a) newCluster c ∧
      (c.nodes n1).applied ≠ [] ∧
      (c.nodes n1).st.lastApplied = (c.nodes n3).st.lastApplied :=
    Lts.exists_run (winElection n1 n3 n2 ++ heartbeat n1 n3 ++ commitFirst n1 n3 "x".toList ++
      applyFirst n1 n3) (by decide +kernel)
  exact ⟨c, hrun, happlied, fun apply init =>
    (replicas_agree (by decide +kernel) (by decide +kernel) hrun n1 n3).2.2 apply init heq⟩

end SkyLock.Raft
