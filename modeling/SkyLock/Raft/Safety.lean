/-
# State machine safety

Two nodes never apply different entries at the same index, in every run whose events are all
orderly (`state_machine_safety`): the cluster refines the replication protocol, what a node applies
has been settled there, and settled logs are prefixes of one another.

In the code as it is they can (`different_entries_applied`): the two leaders that a vote given
twice leads to each commit an entry of their own at index 1.
-/
import SkyLock.Raft.Replay

namespace SkyLock.Raft

open Replication (History)

variable {ids : List Str} {h : Chronicle} {c : Cluster} {id : Str} {e : Event} {o : Outcome}

/-! ## 1. Every event has a replay -/

section Replay

variable (hs : Sim ids h c) (hv : h.Valid LogEntry.term (electing ids))

include hs

/-- What the apply loop hands over has been settled. -/
theorem settledEntry_of_apply {i k : Nat} {x : LogEntry}
    (happlying : (c.nodes id).applying = some (i, k)) (hi : i ≤ k)
    (hx : Log.get (c.nodes id).st.log i = some x) : SettledEntry ids h x := by
  have hnode := hs.node id
  have hindex := hnode.indexed i x hx
  have hset := hnode.applying i k happlying
  rw [← Log.get_take hi] at hx
  obtain ⟨h0, hget⟩ := Log.get_eq_some_iff.mp hx
  exact ⟨hindex ▸ h0, _, _, hset.2, hindex ▸ hget⟩

/-- **What a goroutine goes on with is mirrored**, if it reads in the term its request is for. -/
theorem sim_of_reads {task next : Packet} (hid : id ∈ ids)
    (hread : Reads id (c.nodes id) task next) (hord : (c.nodes id).orderly (.receive task))
    (htask : task.Sim ids h c) : next.Sim ids h c := by
  have hnode := hs.node id
  cases hread with
  | lastIndex => exact ⟨htask.1, fun _ _ hi => (Option.some.inj hi).symm⟩
  | lastTerm => exact ⟨htask.1, fun hst => ⟨htask.2 hst _ rfl, rfl⟩⟩
  | prevIndex dst term =>
    obtain ⟨⟨hrole, rfl⟩, -⟩ := hord
    have hl := hnode.leads hrole
    refine ⟨htask.1, ?_⟩
    rw [Draft.Sim, hl.chain]
    exact (hl.next dst htask.1).2
  | prevTerm dst term i =>
    obtain ⟨⟨hrole, rfl⟩, -⟩ := hord
    refine ⟨htask.1, htask.2, ?_⟩
    rw [(hnode.leads hrole).chain]
  | entries dst term i t =>
    obtain ⟨⟨hrole, rfl⟩, -⟩ := hord
    obtain ⟨hdst, hi, ht⟩ := htask
    have hchain := (hnode.leads hrole).chain
    exact ⟨hdst, _, slice_of_read (hchain ▸ List.prefix_rfl) (hchain ▸ hi) ht⟩
  | commitIndex dst term i t es =>
    obtain ⟨⟨hrole, rfl⟩, hreaches⟩ := hord
    obtain ⟨hdst, k, hslice⟩ := htask
    have hl := hnode.leads hrole
    refine ⟨hdst, hid, k, hl.begun, ⟨hslice.start, hslice.stop, hslice.term, hslice.entries⟩,
      hslice.length ▸ hreaches, ?_⟩
    dsimp only
    rw [hl.chain]
    exact hnode.commit.2
  | currentTerm => trivial

include hv

theorem replay_voteResp {peers : List Str} {src : Str} {election : Nat} {req : VoteRequest}
    {resp : VoteResponse}
    (hmove : Move id peers (c.nodes id) (.receive (.voteResp src id election req resp)) o)
    (hcare : (c.nodes id).careful peers (.receive (.voteResp src id election req resp)))
    (ho : o = ((c.nodes id).voteReply election src req resp).silent) :
    ∃ h', Replay ids c id o h h' := by
  have hst := voteReply_st (c.nodes id) election src req resp
  obtain ⟨happlying, happlied⟩ := voteReply_applying (c.nodes id) election src req resp
  by_cases hnew : resp.term > req.term
  · rw [if_pos hnew] at hst
    subst ho
    exact replay_heed hs hv hmove hcare trivial (hcare hnew) hst happlying happlied rfl rfl
  · rw [if_neg hnew] at hst
    subst ho
    refine ⟨h, Replay.still hs hv hmove hcare trivial ?_ happlying happlied rfl rfl⟩
    rw [Node.silent, hst]
    exact .refl _

theorem replay_of_move (hids : [] ∉ ids) (hnd : ids.Nodup) (hid : id ∈ ids) (hlaw : Lawful ids c)
    (hmove : Move id (peersOf ids id) (c.nodes id) e o)
    (hcare : (c.nodes id).careful (peersOf ids id) e) (hord : (c.nodes id).orderly e)
    (hnet : ∀ q, e = .receive q → q ∈ c.net) : ∃ h', Replay ids c id o h h' := by
  have hm := hmove
  cases hmove with
  | dispatch | giveUp | updateCommit | readTerm | passIndex | passTerm | leaveCommit
  | leaderCheck =>
    exact ⟨h, Replay.still hs hv hm hcare hord (.refl _) rfl rfl rfl rfl⟩
  | timeout =>
    exact ⟨h, Replay.still hs hv hm hcare hord (.of_role _ (by simp)) rfl rfl rfl rfl⟩
  | lose => exact ⟨h, Replay.still hs hv hm hcare hord (.of_role _ (by simp)) rfl rfl rfl rfl⟩
  | campaign => exact replay_campaign hs hv hcare
  | voteForSelf term hphase =>
    refine ⟨h, Replay.still_sending hs hv hm hcare hord (.of_vote _ _) rfl rfl (fun p hp => ?_)
      fun b hb => ?_⟩
    · obtain ⟨peer, -, rfl⟩ := List.mem_map.mp hp
      exact ⟨((hlaw.voter id).started term hphase).1.trans (term_le_put hm hcare id),
        fun _ _ hi => absurd hi (by simp)⟩
    · rw [List.mem_singleton.mp hb]
  | voteFailed election term votes pending peer =>
    obtain ⟨happlying, happlied⟩ := countVote_applying (c.nodes id) peer false
    refine ⟨h, Replay.still hs hv hm hcare hord ?_ happlying happlied rfl rfl⟩
    rw [Node.silent, countVote_st]
    exact .refl _
  | win election term votes hphase henough =>
    exact replay_win hnd hs hlaw hv hids hid hcare hphase henough
  | sendHeartbeats =>
    refine ⟨h, Replay.still_sending hs hv hm hcare hord (.refl _) rfl rfl (fun p hp => ?_)
      fun b hb => absurd hb List.not_mem_nil⟩
    obtain ⟨peer, hpeer, rfl⟩ := List.mem_map.mp hp
    exact ⟨hpeer, trivial⟩
  | setCommit index hphase => exact replay_setCommit hs hv hord hphase
  | propose =>
    refine ⟨h, Replay.still_sending hs hv hm hcare hord (.refl _) rfl rfl (fun p hp => ?_)
      fun b hb => absurd hb List.not_mem_nil⟩
    rw [List.mem_singleton.mp hp]
    trivial
  | append command term => exact replay_append hnd hs hlaw hv hord command
  | applyRead =>
    refine ⟨h, Replay.still_applying hs hv hm hcare hord (.refl _) (fun i k hk => .inl ?_)
      (fun _ hx => .inl hx) rfl rfl⟩
    exact (Prod.mk.inj (Option.some.inj hk)).2.symm
  | applyEntry i k x happlying hi hx =>
    refine ⟨h, Replay.still_applying hs hv hm hcare hord
      ⟨rfl, rfl, rfl, rfl, rfl, rfl, fun hr => hr⟩ (fun j k' hk => .inr ⟨i, ?_⟩) (fun y hy => ?_)
      rfl rfl⟩
    · rw [happlying, (Prod.mk.inj (Option.some.inj hk)).2]
    · rcases List.mem_append.mp hy with hy | hy
      · exact .inl hy
      · rw [List.mem_singleton.mp hy]
        exact .inr (settledEntry_of_apply hs happlying hi hx)
  | applyGap i k happlying =>
    refine ⟨h, Replay.still_applying hs hv hm hcare hord (.refl _) (fun j k' hk => .inr ⟨i, ?_⟩)
      (fun _ hx => .inl hx) rfl rfl⟩
    rw [happlying, (Prod.mk.inj (Option.some.inj hk)).2]
  | applyDone =>
    exact ⟨h, Replay.still_applying hs hv hm hcare hord (.refl _)
      (fun i k hk => absurd hk (by simp [Node.silent])) (fun _ hx => .inl hx) rfl rfl⟩
  | read task next hread =>
    have hnext := sim_of_reads hs hid hread hord (hs.net task (hnet task rfl))
    refine ⟨h, Replay.still_sending hs hv hm hcare hord (.refl _) rfl rfl (fun p hp => ?_)
      fun b hb => absurd hb List.not_mem_nil⟩
    rw [List.mem_singleton.mp hp]
    exact hnext.put hm hcare hord (.refl h)
  | voteReq src election req =>
    obtain ⟨hcand, -⟩ := hlaw.net _ (hnet _ rfl)
    exact replay_voteReq hs hv hm hcare (hnet _ rfl) hcand rfl
  | voteResp src election req resp => exact replay_voteResp hs hv hm hcare rfl
  | appendReq src req =>
    obtain ⟨hdst, -, k, hk⟩ := hs.net _ (hnet _ rfl)
    obtain ⟨hleader, hsrc⟩ := hlaw.net _ (hnet _ rfl)
    have hne : req.leaderID ≠ [] := fun h0 => hids (h0 ▸ hleader ▸ hsrc)
    exact replay_appendReq hnd hs hv hm hcare hord hdst hk hne rfl
  | appendResp src req resp =>
    obtain ⟨hsrc, k, hslice, hack⟩ := hs.net _ (hnet _ rfl)
    exact replay_appendResp hs hv hm hcare hord hsrc hslice hack rfl

end Replay

/-! ## 2. The refinement -/

/-- **The cluster refines the replication protocol**: there is a valid history that mirrors it. -/
def Refines (ids : List Str) (c : Cluster) : Prop :=
  ∃ h : Chronicle, h.Valid LogEntry.term (electing ids) ∧ Sim ids h c

theorem valid_newChronicle : newChronicle.Valid LogEntry.term (electing ids) := by
  have hgrown : newChronicle.Grown LogEntry.term [] := fun i x hx => absurd hx (by simp)
  exact
    { log := fun _ => hgrown
      chain := fun _ => hgrown
      ballot := fun _ _ _ hl => hl.elim
      unborn := fun _ _ => rfl
      begun := fun _ _ hs => absurd hs (by simp [newChronicle])
      older := fun _ _ hs => absurd hs (by simp [newChronicle])
      chainTerm := fun _ _ hx => absurd hx List.not_mem_nil
      logTerm := fun _ _ hx => absurd hx List.not_mem_nil
      acked := fun _ _ _ ha => ha.elim
      voted := fun _ _ _ hl => hl.elim
      won := fun _ _ hs => absurd hs (by simp [newChronicle])
      keptLog := fun _ _ _ _ ha => ha.elim
      keptBallot := fun _ _ _ _ _ _ hl => hl.elim }

theorem refines_newCluster : Refines ids newCluster := by
  refine ⟨newChronicle, valid_newChronicle, ?_⟩
  exact
    { node := fun p =>
        { mirrors := ⟨rfl, rfl, rfl⟩
          indexed := Log.wellIndexed_nil
          keys := fun _ hq => absurd hq Finmap.notMem_empty
          leads := fun hr => absurd hr (by simp [newCluster, newNode, newState])
          standing := fun T hT => absurd hT.role (by simp [newCluster, newNode, newState])
          commit := ⟨le_rfl, .inl rfl⟩
          applying := fun i k hk => absurd hk (by simp [newCluster, newNode])
          applied := fun x hx => absurd hx List.not_mem_nil }
      updating := fun p u hu => absurd hu (by simp [newCluster, newNode])
      net := fun p hp => absurd hp List.not_mem_nil
      backed := fun b hb => absurd hb List.not_mem_nil
      founded := fun T hT => absurd rfl hT
      chains := fun _ => Log.wellIndexed_nil }

theorem Refines.step (hids : [] ∉ ids) (hnd : ids.Nodup) {c' : Cluster} {a : Action}
    (hr : Refines ids c) (hlaw : Lawful ids c) (hord : Orderly ids c a)
    (hstep : Cluster.step ids c a = some c') : Refines ids c' := by
  obtain ⟨h, hv, hs⟩ := hr
  obtain ⟨hid, havail, o, ho, rfl⟩ := Cluster.step_eq_some.mp hstep
  have hmove := move_of_step ho
  have hnet := mem_net_of_available havail
  obtain ⟨h', hreplay⟩ := replay_of_move hs hv hids hnd hid hlaw hmove hord.1 hord.2 hnet
  exact ⟨h', hreplay.evolves.valid, hs.of_replay hnd hid hmove hord.1 hord.2 hreplay⟩

theorem refines_of_run (hids : [] ∉ ids) (hnd : ids.Nodup)
    (hrun : Lts.Run (Cluster.step ids) (Orderly ids) newCluster c) :
    Lawful ids c ∧ Refines ids c :=
  hrun.invariant (P := fun c => Lawful ids c ∧ Refines ids c)
    ⟨lawful_newCluster ids, refines_newCluster⟩ fun _ _ _ hinv hord hstep =>
      ⟨hinv.1.step hids hnd hord.1 hstep, hinv.2.step hids hnd hinv.1 hord hstep⟩

/-- **State machine safety.**  In a run of orderly events, whatever two nodes have handed to their
state machines at the same index is the same. -/
theorem state_machine_safety (hids : [] ∉ ids) (hnd : ids.Nodup)
    (hrun : Lts.Run (Cluster.step ids) (Orderly ids) newCluster c) {p q : Str} {x y : LogEntry}
    (hx : x ∈ (c.nodes p).applied) (hy : y ∈ (c.nodes q).applied) (hindex : x.index = y.index) :
    x.term = y.term ∧ x.type = y.type ∧ x.command = y.command := by
  obtain ⟨-, h, hv, hs⟩ := refines_of_run hids hnd hrun
  obtain ⟨-, T, P, hP, hPx⟩ := (hs.node p).applied x hx
  obtain ⟨-, U, R, hR, hRy⟩ := (hs.node q).applied y hy
  have hxy : x = y := by
    rw [hindex] at hPx
    rcases hP.comparable hv (quorums_meet hnd) hR with hpre | hpre
    · exact Option.some.inj ((Replication.getElem?_of_prefix hpre hPx).symm.trans hRy)
    · exact Option.some.inj (hPx.symm.trans (Replication.getElem?_of_prefix hpre hRy))
  exact ⟨congrArg _ hxy, congrArg _ hxy, congrArg _ hxy⟩

/-! ## 3. Two runs -/

/-- The entry at index 1 of a log, made in term 1. -/
def firstEntry (command : Str) : LogEntry := ⟨1, 1, .command, command⟩

/-- The request of the leader `p` of term 1 that carries its first entry. -/
def firstRequest (p command : Str) : AppendEntriesRequest := ⟨1, p, 0, 0, [firstEntry command], 0⟩

/-- The leader `p` of term 1 appends a first entry to its log and sends it to `q`, which takes it;
`p` then commits and applies it. -/
def commitFirst (p q command : Str) : List Action :=
  proposing p 1 command ++ [⟨p, .sendHeartbeats⟩, ⟨p, .leaderCheck⟩] ++
    buildAppend p q (firstRequest p command) ++
    [⟨q, .receive (.appendReq p q (firstRequest p command))⟩,
      ⟨p, .receive (.appendResp q p (firstRequest p command) ⟨1, true⟩)⟩] ++
    raiseCommit p ++ [⟨p, .leaderCheck⟩, ⟨p, .applyRead⟩, ⟨p, .applyNext⟩]

/-- With its next heartbeat `q` learns that the first entry is committed, and applies it. -/
def applyFirst (p q : Str) : List Action :=
  [⟨p, .sendHeartbeats⟩] ++ buildAppend p q ⟨1, p, 1, 1, [], 1⟩ ++
    [⟨q, .receive (.appendReq p q ⟨1, p, 1, 1, [], 1⟩)⟩, ⟨q, .applyRead⟩, ⟨q, .applyNext⟩]

theorem state_machine_safety_first_entry :
    ∃ c x y, Lts.Run (Cluster.step trio) (Orderly trio) newCluster c ∧
      x ∈ (c.nodes n1).applied ∧ y ∈ (c.nodes n3).applied ∧ x.index = y.index ∧
      x.term = y.term ∧ x.type = y.type ∧ x.command = y.command := by
  obtain ⟨c, hrun, hx, hy⟩ : ∃ c, Lts.Run (Cluster.step trio) (Orderly trio) newCluster c ∧
      firstEntry "x".toList ∈ (c.nodes n1).applied ∧ firstEntry "x".toList ∈ (c.nodes n3).applied :=
    Lts.exists_run (winElection n1 n3 n2 ++ heartbeat n1 n3 ++ commitFirst n1 n3 "x".toList ++
      applyFirst n1 n3) (by decide +kernel)
  exact ⟨c, _, _, hrun, hx, hy, rfl,
    state_machine_safety (by decide +kernel) (by decide +kernel) hrun hx hy rfl⟩

/-- **Two entries at one index.**  `n1` and `n2` both lead term 1.  `n1` has its entry acknowledged
by `n3`, commits it and applies it.  Then `n2` sends its own: `n3` drops the entry of `n1` for it
and acknowledges it too, so `n2` applies another command at index 1. -/
theorem different_entries_applied :
    ∃ c x y, Lts.Reach (Cluster.step trio) newCluster c ∧
      x ∈ (c.nodes n1).applied ∧ y ∈ (c.nodes n2).applied ∧ x.index = y.index ∧
      x.command ≠ y.command := by
  obtain ⟨c, hrun, hx, hy⟩ : ∃ c, Lts.Reach (Cluster.step trio) newCluster c ∧
      firstEntry "x".toList ∈ (c.nodes n1).applied ∧ firstEntry "y".toList ∈ (c.nodes n2).applied :=
    Lts.exists_reach (winElection n1 n3 n2 ++ heartbeat n1 n3 ++ winElection n2 n3 n1 ++
      commitFirst n1 n3 "x".toList ++ heartbeat n2 n3 ++
      commitFirst n2 n3 "y".toList) (by decide +kernel)
  exact ⟨c, _, _, hrun, hx, hy, rfl, by decide +kernel⟩

end SkyLock.Raft
