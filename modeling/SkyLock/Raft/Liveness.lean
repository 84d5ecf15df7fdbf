/-
# A leader with a majority serves

What a cluster achieves when nothing goes wrong between a leader and enough followers.  The leader
takes a command, replicates it with one round of heartbeats, commits it when the answers are in,
tells the followers with the next round, and everybody's apply loop hands it to the state machine,
however many commands there are, while the rest of the cluster does nothing
(`commands_are_applied`).

The followers have to be more than half of the cluster together with the leader, and there has to be
ONE at least.  A leader looks at its commit index only after an answer to a heartbeat, so a cluster
of one node, whose majority is the node itself, elects it and takes its commands but never commits
any of them (`lone_node_never_commits`).
-/
import SkyLock.Raft.Campaign
import SkyLock.Raft.CatchUp
import SkyLock.Raft.Quorum

namespace SkyLock.Raft

open Lts (Drives)

/-! ## 1. The schedule -/

/-- The log `L` with a command proposed in term `T`. -/
def logged (T : Nat) (L : Log) (command : Str) : Log := Log.append L ⟨0, T, .command, command⟩

/-- What a leader with the log `L` sends to a follower that has the first `i` entries. -/
def carrying (p : Str) (T : Nat) (L : Log) (commitIndex i : Nat) : AppendEntriesRequest :=
  ⟨T, p, i, Log.termAt L i, L.drop i, commitIndex⟩

/-- One request of a round: it is built, handled, and its success noted. -/
def beat (p : Str) (req : AppendEntriesRequest) (q : Str) : List Action :=
  buildAppend p q req ++
    [⟨q, .receive (.appendReq p q req)⟩, ⟨p, .receive (.appendResp q p req ⟨req.term, true⟩)⟩]

/-- A round of heartbeats that reaches the followers. -/
def beats (p : Str) (followers : List Str) (req : AppendEntriesRequest) : List Action :=
  [⟨p, .sendHeartbeats⟩, ⟨p, .leaderCheck⟩] ++ followers.flatMap (beat p req)

/-- A pass of the apply loop over one entry. -/
def applyOne (q : Str) : List Action := [⟨q, .applyRead⟩, ⟨q, .applyNext⟩, ⟨q, .applyNext⟩]

/-- A command from its proposal to the state machines. -/
def serve (p : Str) (followers : List Str) (T : Nat) (L : Log) (command : Str) : List Action :=
  let L' := logged T L command
  proposing p T command ++ beats p followers (carrying p T L' L.length L.length) ++
    (raiseCommit p ++ [⟨p, .leaderCheck⟩]) ++
    beats p followers (carrying p T L' L'.length L'.length) ++ (p :: followers).flatMap applyOne

/-- One command after the other. -/
def serveAll (p : Str) (followers : List Str) (T : Nat) : Log → List Str → List Action
  | _, [] => []
  | L, command :: commands =>
    serve p followers T L command ++ serveAll p followers T (logged T L command) commands

/-! ## 2. The nodes during a round -/

/-- A node with the log `L`, its commit index and what it has applied. -/
structure Replica (L : Log) (commitIndex applied : Nat) (n : Node) : Prop where
  log : n.st.log = L
  commitIndex : n.st.commitIndex = commitIndex
  lastApplied : n.st.lastApplied = applied
  applied : n.applied = L.take applied
  applying : n.applying = none

/-- A leader of the term `T` in the select of `runLeader`, whose notes do not exceed `bound`. -/
structure Leading (peers : List Str) (T bound : Nat) (n : Node) : Prop where
  role : n.st.state = .leader
  phase : n.phase = .idle
  term : n.st.currentTerm = T
  keys : n.st.matchIndex.keys = peers.toFinset
  known : ∀ q m, n.st.matchIndex.find q = some m → m ≤ bound

section Round

variable {L L₁ : Log} {T k k₁ a : Nat} {p q : Str} {n : Node} {s : State} {peers : List Str}

/-- The conditions of a round: the followers have `L₁`, the leader the longer `L`. -/
structure Extending (L₁ L : Log) (k₁ k a : Nat) : Prop where
  longer : L₁ <+: L
  indexed : Log.WellIndexed L
  fits : L.length + 1 < 2 ^ 64
  commit : k₁ ≤ k
  committed : k ≤ L.length
  applied : a ≤ L₁.length

theorem length_logged (T : Nat) (L : Log) (command : Str) :
    (logged T L command).length = L.length + 1 := by
  simp [logged, Log.append]

theorem prefix_logged (T : Nat) (L : Log) (command : Str) : L <+: logged T L command :=
  List.prefix_append L _

namespace Extending

variable (h : Extending L₁ L k₁ k a)
include h

theorem drop_eq_nil : L.drop L₁.length = [] ↔ L₁ = L := by
  rw [List.drop_eq_nil_iff]
  exact ⟨fun hle => h.longer.eq_of_length_le hle, fun heq => heq ▸ le_rfl⟩

/-- What the leader builds. -/
theorem request (hr : Replica L k a n)
    (hnext : n.st.nextIndex.find q = some (L₁.length + 1)) :
    n.st.appendEntriesRequest p q T = carrying p T L k L₁.length := by
  have hle := h.longer.length_le
  have hfits := h.fits
  have hprev : n.st.prevIndex q = L₁.length := by
    rw [State.prevIndex, hnext, Option.getD_some]
    omega
  rw [State.appendEntriesRequest, hprev, hr.log, hr.commitIndex, entriesAfter_eq_drop]
  rfl

theorem slice (p : Str) (T : Nat) : Slice L L.length (carrying p T L k L₁.length) where
  start := h.longer.length_le
  stop := le_rfl
  term := rfl
  entries := by rw [List.take_length]; rfl

/-- What a follower does with it. -/
theorem accept (hr : Replica L₁ k₁ a n) (hbehind : n.st.currentTerm ≤ T) :
    (n.st.handleAppendEntries (carrying p T L k L₁.length)).2 = ⟨T, true⟩ ∧
      (n.st.handleAppendEntries (carrying p T L k L₁.length)).1.currentTerm = T ∧
      Replica L k a
        (n.withState (n.st.handleAppendEntries (carrying p T L k L₁.length)).1) := by
  have hlen := h.longer.length_le
  have hconsistent : n.st.consistent (carrying p T L k L₁.length) := by
    rintro ⟨-, hne⟩
    rw [hr.log] at hne
    exact hne (Log.termAt_eq_of_prefix h.longer le_rfl).symm
  have hpre : L.take L₁.length <+: n.st.log := by
    rw [hr.log, ← List.prefix_iff_eq_take.mp h.longer]
  obtain ⟨hlog, hcommit⟩ :=
    handleAppendEntries_spec (h.slice p T) h.indexed hbehind hconsistent hpre
  refine ⟨?_, ?_, ?_, ?_, ?_, ?_, hr.applying⟩
  · rcases handleAppendEntries_cases n.st (carrying p T L k L₁.length) with
      ⟨hold, -⟩ | ⟨-, hnot, -⟩ | ⟨-, -, heq⟩
    · exact absurd hbehind (Nat.not_le.mpr hold)
    · exact absurd hconsistent hnot
    · rw [heq]
      rfl
  · exact congrArg Office.term (office_handleAppendEntries n.st hbehind)
  · refine hlog.trans ?_
    split
    · rename_i hnil
      exact hr.log.trans (h.drop_eq_nil.mp hnil)
    · exact List.take_length
  · refine hcommit.trans ?_
    have hle := h.commit
    have hk := h.committed
    rw [hr.commitIndex]
    change (if k > k₁ then min L.length k else k₁) = k
    split <;> omega
  · exact (handleAppendEntries_lastApplied _ _).trans hr.lastApplied
  · refine hr.applied.trans ?_
    rw [Log.take_eq_of_prefix h.longer h.applied]

/-- What the leader notes of a success. -/
theorem note (s : State) (q : Str) :
    s.noteSuccess q (L.drop L₁.length) =
      if L₁ = L then s
      else { s with
        nextIndex := s.nextIndex.insert q (L.length + 1)
        matchIndex := s.matchIndex.insert q L.length } := by
  have hfits := h.fits
  split
  · rename_i heq
    rw [h.drop_eq_nil.mpr heq]
    rfl
  · rename_i hne
    have hlt : L₁.length < L.length := by
      by_contra hle
      exact hne (h.longer.eq_of_length_le (Nat.not_lt.mp hle))
    obtain ⟨e, he⟩ := Log.exists_get (show 0 < L.length by omega) le_rfl
    have hlast : (L.drop L₁.length).getLast? = some e := by
      rw [List.getLast?_drop, if_neg (by omega), List.getLast?_eq_getElem?]
      exact (Log.get_eq_some_iff.mp he).2
    rw [State.noteSuccess, hlast]
    dsimp only
    rw [h.indexed _ e he, Nat.mod_eq_of_lt hfits]

end Extending

end Round

/-! ## 3. A round -/

section Beats

variable {ids followers rest : List Str} {p q : Str} {T k k₁ a : Nat} {L L₁ : Log} {c c' : Cluster}

/-- What a leader knows and its followers have before a round. -/
structure Ready (ids followers : List Str) (p : Str) (T : Nat) (L₁ L : Log) (k₁ k a : Nat)
    (c : Cluster) : Prop where
  leading : Leading (peersOf ids p) T L.length (c.nodes p)
  leader : Replica L k a (c.nodes p)
  next : ∀ q ∈ followers, (c.nodes p).st.nextIndex.find q = some (L₁.length + 1)
  behind : ∀ q ∈ followers, (c.nodes q).st.currentTerm ≤ T
  follower : ∀ q ∈ followers, Replica L₁ k₁ a (c.nodes q)

/-- Where the cluster is when the followers in `rest` have not got their request yet.  A follower
that has got it is in step with the leader, and the leader knows. -/
structure Beating (ids followers : List Str) (p : Str) (T : Nat) (L₁ L : Log) (k₁ k a : Nat)
    (rest : List Str) (c : Cluster) : Prop where
  leading : Leading (peersOf ids p) T L.length (c.nodes p)
  leader : Replica L k a (c.nodes p)
  nodup : rest.Nodup
  sub : ∀ q ∈ rest, q ∈ followers
  tasks : ∀ q ∈ rest, .heartbeatTask p q T .blank ∈ c.net
  behind : ∀ q ∈ followers, (c.nodes q).st.currentTerm ≤ T
  before : ∀ q ∈ rest, Replica L₁ k₁ a (c.nodes q) ∧
    (c.nodes p).st.nextIndex.find q = some (L₁.length + 1)
  after : ∀ q ∈ followers, q ∉ rest → Replica L k a (c.nodes q) ∧
    (c.nodes p).st.nextIndex.find q = some (L.length + 1) ∧ (c.nodes p).commitCh = true ∧
    (L₁ ≠ L → (c.nodes p).st.matchIndex.find q = some L.length)

/-- A leader that looks whether it still is one goes back to its select. -/
theorem step_leaderCheck (hp : p ∈ ids) (hphase : (c.nodes p).phase = .recheck)
    (hrole : (c.nodes p).st.state = .leader) :
    Cluster.step ids c ⟨p, .leaderCheck⟩ = some (c.put p ((c.nodes p).goto .idle).silent) := by
  refine Cluster.step_eq_some.mpr ⟨hp, trivial, _, ?_, rfl⟩
  rw [Node.step, hphase]
  dsimp only
  rw [if_pos hrole]

/-- The two steps that start a round. -/
theorem beats_start (hp : p ∈ ids) (hnd : followers.Nodup)
    (hpeers : ∀ q ∈ followers, q ∈ peersOf ids p) :
    Drives (Cluster.step ids) (Ready ids followers p T L₁ L k₁ k a)
      [⟨p, .sendHeartbeats⟩, ⟨p, .leaderCheck⟩]
      (Beating ids followers p T L₁ L k₁ k a followers) := by
  intro c h
  let n := c.nodes p
  let c₁ := c.put p ⟨n.goto .recheck,
    (peersOf ids p).map fun peer => .heartbeatTask p peer n.st.currentTerm .blank, []⟩
  have hsend : Cluster.step ids c ⟨p, .sendHeartbeats⟩ = some c₁ := by
    refine Cluster.step_eq_some.mpr ⟨hp, trivial, _, ?_, rfl⟩
    rw [Node.step, h.leading.phase]
  have hphase : c₁.nodes p = n.goto .recheck := c.put_nodes_self _ _
  let c₂ := c₁.put p ((c₁.nodes p).goto .idle).silent
  have hcheck : Cluster.step ids c₁ ⟨p, .leaderCheck⟩ = some c₂ :=
    step_leaderCheck hp (hphase ▸ rfl) (hphase ▸ h.leading.role)
  have hself : c₂.nodes p = n := by
    rw [c₁.put_nodes_self, hphase]
    exact congrArg n.goto h.leading.phase.symm
  have hother : ∀ q ∈ followers, c₂.nodes q = c.nodes q := by
    intro q hq
    have hne := (mem_peersOf.mp (hpeers q hq)).2
    rw [c₁.put_nodes_ne _ hne, c.put_nodes_ne _ hne]
  refine ⟨c₂, ?_, ?_, ?_, hnd, fun q hq => hq, fun q hq => ?_, fun q hq => ?_, fun q hq => ?_,
    fun q hq hnq => absurd hq hnq⟩
  · rw [Lts.exec_cons_of_step hsend, Lts.exec_cons_of_step hcheck]
    rfl
  · rw [hself]
    exact h.leading
  · rw [hself]
    exact h.leader
  · refine List.mem_append_left _ (List.mem_append_right _ (List.mem_map.mpr ⟨q, hpeers q hq, ?_⟩))
    rw [h.leading.term]
  · rw [hother q hq]
    exact h.behind q hq
  · rw [hother q hq, hself]
    exact ⟨h.follower q hq, h.next q hq⟩

/-- The leader after the answer of `q`. -/
def noted (n : Node) (q : Str) (entries : List LogEntry) : Node :=
  { n.withState (n.st.noteSuccess q entries) with commitCh := true }

section Noted

variable {n : Node} {peers : List Str} (hext : Extending L₁ L k₁ k a)
include hext

theorem Leading.noted (h : Leading peers T L.length n) (hq : q ∈ peers) :
    Leading peers T L.length (noted n q (L.drop L₁.length)) := by
  rw [Raft.noted, hext.note]
  split
  · exact ⟨h.role, h.phase, h.term, h.keys, h.known⟩
  · refine ⟨h.role, h.phase, h.term, ?_, fun r m hm => ?_⟩
    · -- `q` is one of the keys already
      ext r
      have hkeys : ∀ x, x ∈ n.st.matchIndex ↔ x ∈ peers := by
        intro x
        rw [← Finmap.mem_keys, h.keys, List.mem_toFinset]
      rw [Finmap.mem_keys, List.mem_toFinset, ← hkeys]
      change r ∈ n.st.matchIndex.insert q L.length ↔ _
      rw [Finmap.mem_insert]
      refine or_iff_right_of_imp fun heq => ?_
      rw [heq, hkeys]
      exact hq
    · change GoMap.find (n.st.matchIndex.insert q L.length) r = some m at hm
      rw [GoMap.find_insert] at hm
      split at hm
      · exact (Option.some.inj hm).ge
      · exact h.known r m hm

theorem Replica.noted {k' a' : Nat} {L' : Log} (h : Replica L' k' a' n) :
    Replica L' k' a' (noted n q (L.drop L₁.length)) := by
  rw [Raft.noted, hext.note]
  split
  · exact ⟨h.log, h.commitIndex, h.lastApplied, h.applied, h.applying⟩
  · exact ⟨h.log, h.commitIndex, h.lastApplied, h.applied, h.applying⟩

theorem nextIndex_noted {r : Str} :
    (noted n q (L.drop L₁.length)).st.nextIndex.find r =
      if r = q ∧ L₁ ≠ L then some (L.length + 1) else n.st.nextIndex.find r := by
  rw [Raft.noted, hext.note]
  by_cases heq : L₁ = L
  · simp [heq, Node.withState]
  · by_cases hr : r = q <;> simp [heq, hr, Node.withState, GoMap.find_insert]

theorem matchIndex_noted {r : Str} :
    (noted n q (L.drop L₁.length)).st.matchIndex.find r =
      if r = q ∧ L₁ ≠ L then some L.length else n.st.matchIndex.find r := by
  rw [Raft.noted, hext.note]
  by_cases heq : L₁ = L
  · simp [heq, Node.withState]
  · by_cases hr : r = q <;> simp [heq, hr, Node.withState, GoMap.find_insert]

end Noted

/-- The cluster after a request of `p` that `q` has accepted, and after the answer. -/
structure Exchanged (p q : Str) (req : AppendEntriesRequest) (c c' : Cluster) : Prop where
  self : c'.nodes p = noted (c.nodes p) q req.entries
  peer : c'.nodes q = (c.nodes q).withState ((c.nodes q).st.handleAppendEntries req).1
  other : ∀ r, r ≠ p → r ≠ q → c'.nodes r = c.nodes r
  net : c.net ⊆ c'.net

/-- A request is built, accepted and answered. -/
theorem exchanged_of_beat {req : AppendEntriesRequest} (hp : p ∈ ids) (hq : q ∈ peersOf ids p)
    (htask : .heartbeatTask p q req.term .blank ∈ c.net)
    (hreq : (c.nodes p).st.appendEntriesRequest p q req.term = req)
    (hresp : ((c.nodes q).st.handleAppendEntries req).2 = ⟨req.term, true⟩) :
    ∃ c', Lts.exec (Cluster.step ids) c (beat p req q) = some c' ∧ Exchanged p q req c c' := by
  obtain ⟨hqids, hqp⟩ := mem_peersOf.mp hq
  obtain ⟨c₁, hbuild, hc₁⟩ := buildAppend_drives hp req.term c ⟨rfl, fun _ hx => hx, htask⟩
  rw [hreq] at hbuild hc₁
  let c₂ := c₁.put q ⟨(c.nodes q).withState ((c.nodes q).st.handleAppendEntries req).1,
    [.appendResp q p req ⟨req.term, true⟩], []⟩
  have hhandle : Cluster.step ids c₁ ⟨q, .receive (.appendReq p q req)⟩ = some c₂ := by
    refine Cluster.step_eq_some.mpr ⟨hqids, hc₁.task, _, ?_, rfl⟩
    rw [hc₁.nodes, ← hresp]
    exact if_pos rfl
  let c₃ := c₂.put p (noted (c.nodes p) q req.entries).silent
  have hnote : Cluster.step ids c₂ ⟨p, .receive (.appendResp q p req ⟨req.term, true⟩)⟩ =
      some c₃ := by
    refine Cluster.step_eq_some.mpr
      ⟨hp, List.mem_append_right _ (List.mem_singleton.mpr rfl), _, ?_, rfl⟩
    rw [c₁.put_nodes_ne _ hqp.symm, hc₁.nodes, Node.step, Node.receive, if_pos rfl,
      Node.appendReply, if_neg (lt_irrefl _), if_pos rfl]
    rfl
  refine ⟨c₃, ?_, c₂.put_nodes_self _ _, ?_, fun r hrp hrq => ?_, fun x hx => ?_⟩
  · rw [beat, Lts.exec_append, hbuild, Option.bind_some, Lts.exec_cons_of_step hhandle,
      Lts.exec_cons_of_step hnote]
    rfl
  · rw [c₂.put_nodes_ne _ hqp, c₁.put_nodes_self]
  · rw [c₂.put_nodes_ne _ hrp, c₁.put_nodes_ne _ hrq, hc₁.nodes]
  · exact List.mem_append_left _ (List.mem_append_left _ (hc₁.net hx))

/-- **One request of a round.** -/
theorem beating_beat (hp : p ∈ ids) (hpeers : ∀ q ∈ followers, q ∈ peersOf ids p)
    (hext : Extending L₁ L k₁ k a) (q : Str) (rest : List Str) :
    Drives (Cluster.step ids) (Beating ids followers p T L₁ L k₁ k a (q :: rest))
      (beat p (carrying p T L k L₁.length) q) (Beating ids followers p T L₁ L k₁ k a rest) := by
  intro c h
  have hfollower := h.sub q List.mem_cons_self
  obtain ⟨hreplica, hnext⟩ := h.before q List.mem_cons_self
  obtain ⟨hresp, hterm, hreplica'⟩ := hext.accept (p := p) hreplica (h.behind q hfollower)
  obtain ⟨c', hexec, hself, hpeer, hothers, hnet⟩ := exchanged_of_beat hp (hpeers q hfollower)
    (h.tasks q List.mem_cons_self) (hext.request h.leader hnext) hresp
  have hself : c'.nodes p = noted (c.nodes p) q (L.drop L₁.length) := hself
  have hother : ∀ r ∈ followers, r ≠ q → c'.nodes r = c.nodes r := fun r hr =>
    hothers r (mem_peersOf.mp (hpeers r hr)).2
  have hnot : q ∉ rest := (List.nodup_cons.mp h.nodup).1
  have hrest : ∀ {r}, r ∈ rest → r ∈ q :: rest := fun hr => List.mem_cons_of_mem q hr
  refine ⟨c', hexec, ?_, ?_, (List.nodup_cons.mp h.nodup).2, fun r hr => h.sub r (hrest hr),
    fun r hr => hnet (h.tasks r (hrest hr)), fun r hr => ?_, fun r hr => ?_, fun r hr hnr => ?_⟩
  · rw [hself]
    exact h.leading.noted hext (hpeers q hfollower)
  · rw [hself]
    exact h.leader.noted hext
  · by_cases hrq : r = q
    · rw [hrq, hpeer]
      exact hterm.le
    · rw [hother r hr hrq]
      exact h.behind r hr
  · have hrq : r ≠ q := fun heq => hnot (heq ▸ hr)
    rw [hother r (h.sub r (hrest hr)) hrq, hself, nextIndex_noted hext,
      if_neg fun hand => hrq hand.1]
    exact h.before r (hrest hr)
  · rw [hself, nextIndex_noted hext, matchIndex_noted hext]
    by_cases hrq : r = q
    · rw [hrq, hpeer]
      refine ⟨hreplica', ?_, rfl, fun hne => if_pos ⟨rfl, hne⟩⟩
      split
      · rfl
      · rename_i hnot
        have heq : L₁ = L := by
          by_contra hne
          exact hnot ⟨rfl, hne⟩
        rw [hnext, heq]
    · rw [hother r hr hrq, if_neg fun hand => hrq hand.1, if_neg fun hand => hrq hand.1]
      obtain ⟨hrep, hnext', -, hmatch⟩ := h.after r hr fun hmem =>
        (List.mem_cons.mp hmem).elim hrq hnr
      exact ⟨hrep, hnext', rfl, hmatch⟩

/-- **A round of heartbeats.** -/
theorem beats_drives (hp : p ∈ ids) (hnd : followers.Nodup)
    (hpeers : ∀ q ∈ followers, q ∈ peersOf ids p) (hext : Extending L₁ L k₁ k a) :
    Drives (Cluster.step ids) (Ready ids followers p T L₁ L k₁ k a)
      (beats p followers (carrying p T L k L₁.length))
      (Beating ids followers p T L₁ L k₁ k a []) :=
  (beats_start hp hnd hpeers).append (.flatMap (beating_beat hp hpeers hext) followers)

end Beats

/-! ## 4. A command -/

section Command

variable {ids followers : List Str} {p : Str} {T : Nat} {L : Log} {c : Cluster}

/-- A cluster that waits for the next command: the leader and its followers have applied the whole
log `L`. -/
abbrev Settled (ids followers : List Str) (p : Str) (T : Nat) (L : Log) (c : Cluster) : Prop :=
  Ready ids followers p T L L L.length L.length L.length c

/-- A leader and followers that are more than half of the cluster together. -/
structure Majority (ids followers : List Str) (p : Str) : Prop where
  distinct : ids.Nodup
  leader : p ∈ ids
  nodup : followers.Nodup
  peers : ∀ q ∈ followers, q ∈ peersOf ids p
  some : followers ≠ []
  half : ids.length < 2 * (followers.length + 1)

theorem propose_drives (hp : p ∈ ids) (hpeers : ∀ q ∈ followers, q ∈ peersOf ids p)
    (command : Str) :
    Drives (Cluster.step ids) (Settled ids followers p T L) (proposing p T command)
      (Ready ids followers p T L (logged T L command) L.length L.length L.length) := by
  intro c h
  obtain ⟨c', hexec, hc'⟩ := proposing_drives hp h.leading.role command c rfl
  rw [h.leading.term] at hexec hc'
  have hself := hc'.self
  have hother : ∀ q ∈ followers, c'.nodes q = c.nodes q := fun q hq =>
    hc'.other q (mem_peersOf.mp (hpeers q hq)).2
  refine ⟨c', hexec, ?_, ?_, fun q hq => ?_, fun q hq => ?_, fun q hq => ?_⟩
  · rw [hself]
    refine ⟨h.leading.role, h.leading.phase, h.leading.term, h.leading.keys, fun q m hm => ?_⟩
    exact (h.leading.known q m hm).trans (prefix_logged T L command).length_le
  · rw [hself]
    refine ⟨?_, h.leader.commitIndex, h.leader.lastApplied, ?_, h.leader.applying⟩
    · exact congrArg (logged T · command) h.leader.log
    · refine h.leader.applied.trans ?_
      rw [Log.take_eq_of_prefix (prefix_logged T L command) le_rfl]
  · rw [hself]
    exact h.next q hq
  · rw [hother q hq]
    exact h.behind q hq
  · rw [hother q hq]
    exact h.follower q hq

/-- The index that a majority has is the one that is picked. -/
theorem quorumIndex_of_majority {s : State} (hm : Majority ids followers p)
    (hkeys : s.matchIndex.keys = (peersOf ids p).toFinset)
    (hknown : ∀ q m, s.matchIndex.find q = some m → m ≤ s.log.length)
    (hall : ∀ q ∈ followers, s.matchIndex.find q = some s.log.length) :
    s.quorumIndex = s.log.length := by
  refine Nat.le_antisymm (s.quorumIndex_le le_rfl hknown) ?_
  have hnot : p ∉ s.matchIndex := by
    rw [← Finmap.mem_keys, hkeys, List.mem_toFinset]
    exact fun hmem => (mem_peersOf.mp hmem).2 rfl
  have hcard : s.matchIndex.keys.card + 1 = ids.length := by
    rw [hkeys, List.toFinset_card_of_nodup (nodup_peersOf hm.distinct p)]
    exact length_peersOf hm.distinct hm.leader
  have hsub : (p :: followers).toFinset ⊆ s.replicated p s.log.length := by
    intro q hq
    rw [State.replicated, if_pos (show s.log.length ≤ Log.lastIndex s.log from le_rfl),
      Finset.mem_union, Finset.mem_singleton, Finset.mem_filter]
    rcases List.mem_cons.mp (List.mem_toFinset.mp hq) with heq | hmem
    · exact .inl heq
    · refine .inr ⟨?_, ?_⟩
      · rw [hkeys, List.mem_toFinset]
        exact hm.peers q hmem
      · rw [hall q hmem, Option.getD_some]
  have hcount : followers.length + 1 ≤ (s.replicated p s.log.length).card := by
    have hnodup : (p :: followers).Nodup :=
      List.nodup_cons.mpr ⟨fun hmem => (mem_peersOf.mp (hm.peers p hmem)).2 rfl, hm.nodup⟩
    rw [← List.length_cons, ← List.toFinset_card_of_nodup hnodup]
    exact Finset.card_le_card hsub
  refine (State.le_card_replicated_iff hnot s.ranked_half s.log.length).mp ?_
  have hhalf := hm.half
  omega

/-- The entry of a command. -/
def entryOf (T : Nat) (L : Log) (command : Str) : LogEntry := ⟨L.length + 1, T, .command, command⟩

theorem logged_eq (T : Nat) (L : Log) (command : Str) :
    logged T L command = L ++ [entryOf T L command] := rfl

theorem get_logged (T : Nat) (L : Log) (command : Str) :
    Log.get (logged T L command) (L.length + 1) = some (entryOf T L command) := by
  rw [Log.get_eq_some_iff, Nat.add_sub_cancel, logged_eq, List.getElem?_concat_length]
  exact ⟨Nat.succ_pos _, rfl⟩

/-- After a round with something new in it, the leader finds the end of its log replicated. -/
theorem Beating.quorumIndex_eq (hm : Majority ids followers p)
    (h : Beating ids followers p T L₁ L k₁ k a [] c) (hne : L₁ ≠ L) :
    (c.nodes p).st.quorumIndex = L.length := by
  have hlog := h.leader.log
  rw [← hlog]
  refine quorumIndex_of_majority hm h.leading.keys ?_ fun q hq => ?_
  · rw [hlog]
    exact h.leading.known
  · rw [hlog]
    exact (h.after q hq List.not_mem_nil).2.2.2 hne

/-- **The leader commits**, once all followers have answered. -/
theorem commit_drives (hm : Majority ids followers p) (command : Str) :
    Drives (Cluster.step ids)
      (Beating ids followers p T L (logged T L command) L.length L.length L.length [])
      (raiseCommit p ++ [⟨p, .leaderCheck⟩])
      (Ready ids followers p T (logged T L command) (logged T L command) L.length
        (logged T L command).length L.length) := by
  intro c h
  obtain ⟨q₀, hq₀⟩ := List.exists_mem_of_ne_nil followers hm.some
  have hne : L ≠ logged T L command := fun heq => by
    have hlen := congrArg List.length heq
    rw [length_logged] at hlen
    omega
  have hlog := h.leader.log
  have hquorum := h.quorumIndex_eq hm hne
  have habove : (c.nodes p).st.quorumIndex > (c.nodes p).st.commitIndex := by
    rw [hquorum, h.leader.commitIndex, length_logged]
    exact Nat.lt_succ_self _
  have hterm : Log.termAt (c.nodes p).st.log (c.nodes p).st.quorumIndex =
      (c.nodes p).st.currentTerm := by
    rw [hquorum, hlog, h.leading.term, length_logged]
    exact Log.termAt_of_get (get_logged T L command)
  obtain ⟨c₁, hupdate, hc₁⟩ := updating_drives hm.leader h.leading.phase
    (h.after q₀ hq₀ List.not_mem_nil).2.2.1 c rfl
  rw [updating_eq_raiseCommit p habove hterm] at hupdate
  let n := { (c.nodes p).withState
    { (c.nodes p).st with commitIndex := (logged T L command).length } with commitCh := false }
  have hphase : c₁.nodes p = n.goto .recheck := by
    rw [hc₁.self, Node.afterUpdate, State.updateCommitIndex, if_pos ⟨habove, hterm⟩, hquorum]
    rfl
  let c₂ := c₁.put p ((c₁.nodes p).goto .idle).silent
  have hcheck : Cluster.step ids c₁ ⟨p, .leaderCheck⟩ = some c₂ :=
    step_leaderCheck hm.leader (hphase ▸ rfl) (hphase ▸ h.leading.role)
  have hself : c₂.nodes p = n.goto .idle := by
    rw [c₁.put_nodes_self, hphase]
    rfl
  have hother : ∀ q ∈ followers, c₂.nodes q = c.nodes q := by
    intro q hq
    have hqp := (mem_peersOf.mp (hm.peers q hq)).2
    rw [c₁.put_nodes_ne _ hqp, hc₁.other q hqp]
  refine ⟨c₂, ?_, ?_, ?_, fun q hq => ?_, fun q hq => ?_, fun q hq => ?_⟩
  · rw [Lts.exec_append, hupdate, Option.bind_some, Lts.exec_cons_of_step hcheck]
    rfl
  · rw [hself]
    exact ⟨h.leading.role, rfl, h.leading.term, h.leading.keys, h.leading.known⟩
  · rw [hself]
    exact ⟨hlog, rfl, h.leader.lastApplied, h.leader.applied, h.leader.applying⟩
  · rw [hself]
    exact (h.after q hq List.not_mem_nil).2.1
  · rw [hother q hq]
    exact h.behind q hq
  · rw [hother q hq]
    exact (h.after q hq List.not_mem_nil).1

/-- The node after a pass of its apply loop over the entry `e` with the index `i`. -/
def Node.afterPass (n : Node) (i : Nat) (e : LogEntry) : Node :=
  { n.withState { n.st with lastApplied := i } with
    applied := n.applied ++ [e]
    applying := none }

/-- **One pass of the apply loop**, over the only entry that is committed and not applied. -/
theorem exec_applyOne {q : Str} {i : Nat} {e : LogEntry} (hq : q ∈ ids)
    (hr : Replica L (i + 1) i (c.nodes q)) (hget : Log.get L (i + 1) = some e)
    (hfits : i + 2 < 2 ^ 64) :
    ∃ c', Lts.exec (Cluster.step ids) c (applyOne q) = some c' ∧
      c'.nodes q = (c.nodes q).afterPass (i + 1) e ∧ (∀ r, r ≠ q → c'.nodes r = c.nodes r) := by
  let n := c.nodes q
  let n₁ := { n with applying := some (i + 1, i + 1) }
  let c₁ := c.put q n₁.silent
  have hread : Cluster.step ids c ⟨q, .applyRead⟩ = some c₁ := by
    refine Cluster.step_eq_some.mpr ⟨hq, trivial, _, ?_, rfl⟩
    rw [Node.step, hr.applying, hr.commitIndex, hr.lastApplied]
    exact if_pos (Nat.lt_succ_self i)
  let n₂ := { n₁.withState { n₁.st with lastApplied := i + 1 } with
    applying := some (i + 2, i + 1)
    applied := n.applied ++ [e] }
  let c₂ := c₁.put q n₂.silent
  have happly : Cluster.step ids c₁ ⟨q, .applyNext⟩ = some c₂ := by
    refine Cluster.step_eq_some.mpr ⟨hq, trivial, _, ?_, rfl⟩
    have hlog : n₁.st.log = L := hr.log
    rw [c.put_nodes_self]
    change (if i + 1 ≤ i + 1 then _ else _) = _
    rw [if_pos le_rfl, Node.silent, hlog, hget]
    dsimp only
    rw [Nat.mod_eq_of_lt hfits]
  let c₃ := c₂.put q (n.afterPass (i + 1) e).silent
  have hdone : Cluster.step ids c₂ ⟨q, .applyNext⟩ = some c₃ := by
    refine Cluster.step_eq_some.mpr ⟨hq, trivial, _, ?_, rfl⟩
    rw [c₁.put_nodes_self]
    exact if_neg (Nat.not_le.mpr (Nat.lt_succ_self (i + 1)))
  refine ⟨c₃, ?_, c₂.put_nodes_self _ _, fun r hr => ?_⟩
  · rw [applyOne, Lts.exec_cons_of_step hread, Lts.exec_cons_of_step happly,
      Lts.exec_cons_of_step hdone]
    rfl
  · rw [c₂.put_nodes_ne _ hr, c₁.put_nodes_ne _ hr, c.put_nodes_ne _ hr]

/-- Where the cluster is when the nodes in `rest` have not applied the command yet. -/
structure Applying (ids followers : List Str) (p : Str) (T : Nat) (L : Log) (applied : Nat)
    (rest : List Str) (c : Cluster) : Prop where
  leading : Leading (peersOf ids p) T L.length (c.nodes p)
  next : ∀ q ∈ followers, (c.nodes p).st.nextIndex.find q = some (L.length + 1)
  behind : ∀ q ∈ followers, (c.nodes q).st.currentTerm ≤ T
  nodup : rest.Nodup
  sub : ∀ q ∈ rest, q ∈ p :: followers
  before : ∀ q ∈ rest, Replica L L.length applied (c.nodes q)
  after : ∀ q ∈ p :: followers, q ∉ rest → Replica L L.length L.length (c.nodes q)

theorem applying_applyOne (hm : Majority ids followers p) (command : Str)
    (hfits : L.length + 2 < 2 ^ 64) (q : Str) (rest : List Str) :
    Drives (Cluster.step ids)
      (Applying ids followers p T (logged T L command) L.length (q :: rest)) (applyOne q)
      (Applying ids followers p T (logged T L command) L.length rest) := by
  intro c h
  have hmem := h.sub q List.mem_cons_self
  have hq : q ∈ ids := by
    rcases List.mem_cons.mp hmem with heq | hfollower
    · exact heq ▸ hm.leader
    · exact (mem_peersOf.mp (hm.peers q hfollower)).1
  have hreplica := h.before q List.mem_cons_self
  rw [length_logged] at hreplica
  obtain ⟨c', hexec, hself, hother⟩ :=
    exec_applyOne hq hreplica (get_logged T L command) hfits
  -- a pass changes nothing but what has been applied
  have hsame : ∀ r, (c'.nodes r).phase = (c.nodes r).phase ∧
      (c'.nodes r).st = { (c.nodes r).st with lastApplied := (c'.nodes r).st.lastApplied } := by
    intro r
    by_cases hrq : r = q
    · rw [hrq, hself]
      exact ⟨rfl, rfl⟩
    · rw [hother r hrq]
      exact ⟨rfl, rfl⟩
  have hnext : (c'.nodes p).st.nextIndex = (c.nodes p).st.nextIndex := by rw [(hsame p).2]
  have hnot := (List.nodup_cons.mp h.nodup).1
  refine ⟨c', hexec, ?_, fun r hr => ?_, fun r hr => ?_, (List.nodup_cons.mp h.nodup).2,
    fun r hr => h.sub r (List.mem_cons_of_mem q hr), fun r hr => ?_, fun r hr hnr => ?_⟩
  · obtain ⟨hphase, hst⟩ := hsame p
    have hlead := h.leading
    refine ⟨?_, hphase.trans hlead.phase, ?_, ?_, ?_⟩
    · rw [hst]
      exact hlead.role
    · rw [hst]
      exact hlead.term
    · rw [hst]
      exact hlead.keys
    · rw [hst]
      exact hlead.known
  · rw [hnext]
    exact h.next r hr
  · rw [(hsame r).2]
    exact h.behind r hr
  · rw [hother r fun heq => hnot (heq ▸ hr)]
    exact h.before r (List.mem_cons_of_mem q hr)
  · by_cases hrq : r = q
    · rw [hrq, hself, length_logged]
      refine ⟨hreplica.log, hreplica.commitIndex, rfl, ?_, rfl⟩
      change (c.nodes q).applied ++ _ = _
      rw [hreplica.applied, ← length_logged T L command, List.take_length, logged_eq,
        List.take_left]
    · rw [hother r hrq]
      exact h.after r hr fun hmem' => (List.mem_cons.mp hmem').elim hrq hnr

/-- **A command is served.** -/
theorem serve_drives (hm : Majority ids followers p) (hL : Log.WellIndexed L)
    (hfits : L.length + 2 < 2 ^ 64) (command : Str) :
    Drives (Cluster.step ids) (Settled ids followers p T L) (serve p followers T L command)
      (Settled ids followers p T (logged T L command)) := by
  have hindexed : Log.WellIndexed (logged T L command) := hL.append _
  have hlength := length_logged T L command
  have hreplicate : Extending L (logged T L command) L.length L.length L.length :=
    ⟨prefix_logged T L command, hindexed, by omega, le_rfl, by omega, le_rfl⟩
  have hconfirm : Extending (logged T L command) (logged T L command) L.length
      (logged T L command).length L.length :=
    ⟨List.prefix_refl _, hindexed, by omega, by omega, le_rfl, by omega⟩
  have hpass := Drives.flatMap (applying_applyOne (T := T) hm command hfits) (p :: followers)
  refine ((((propose_drives hm.leader hm.peers command).append
    (beats_drives hm.leader hm.nodup hm.peers hreplicate)).append
    (commit_drives hm command)).append
    (beats_drives hm.leader hm.nodup hm.peers hconfirm)).append
    (hpass.mono (fun c h => ?_) fun c h => ?_)
  · have hp : p ∉ followers := fun hmem => (mem_peersOf.mp (hm.peers p hmem)).2 rfl
    refine ⟨h.leading, fun q hq => (h.after q hq List.not_mem_nil).2.1, h.behind,
      List.nodup_cons.mpr ⟨hp, hm.nodup⟩, fun q hq => hq, fun q hq => ?_,
      fun q hq hnq => absurd hq hnq⟩
    rcases List.mem_cons.mp hq with heq | hmem
    · exact heq ▸ h.leader
    · exact (h.after q hmem List.not_mem_nil).1
  · exact ⟨h.leading, h.after p List.mem_cons_self List.not_mem_nil, h.next, h.behind,
      fun q hq => h.after q (List.mem_cons_of_mem p hq) List.not_mem_nil⟩

/-- Any number of commands, by induction on their list. -/
theorem serveAll_drives (hm : Majority ids followers p) (commands : List Str) (L : Log)
    (hL : Log.WellIndexed L) (hfits : L.length + commands.length + 1 < 2 ^ 64) :
    Drives (Cluster.step ids) (Settled ids followers p T L) (serveAll p followers T L commands)
      (Settled ids followers p T (commands.foldl (logged T) L)) := by
  induction commands generalizing L with
  | nil => exact .nil fun c h => h
  | cons command commands ih =>
    rw [List.length_cons] at hfits
    refine (serve_drives hm hL (by omega) command).append (ih _ (hL.append _) ?_)
    rw [length_logged]
    omega

end Command

/-! ## 5. From the start -/

section Start

variable {ids followers : List Str} {p : Str}

/-- The node `p` times out and is about to stand; the others have not done anything. -/
structure Woken (p : Str) (c : Cluster) : Prop where
  self : c.nodes p =
    { newNode with st := { newState with state := .candidate }, phase := .campaign }
  other : ∀ q, q ≠ p → c.nodes q = newNode

theorem wake_drives (hp : p ∈ ids) :
    Drives (Cluster.step ids) (· = newCluster)
      [⟨p, .dispatch⟩, ⟨p, .electionTimeout⟩, ⟨p, .dispatch⟩] (Woken p) := by
  intro c hc
  rw [hc]
  let c₁ := newCluster.put p (newNode.goto .following).silent
  have hdispatch : Cluster.step ids newCluster ⟨p, .dispatch⟩ = some c₁ :=
    Cluster.step_eq_some.mpr ⟨hp, trivial, _, rfl, rfl⟩
  let n : Node := { newNode with st := { newState with state := .candidate } }
  let c₂ := c₁.put p n.silent
  have htimeout : Cluster.step ids c₁ ⟨p, .electionTimeout⟩ = some c₂ := by
    refine Cluster.step_eq_some.mpr ⟨hp, trivial, _, ?_, rfl⟩
    rw [newCluster.put_nodes_self]
    rfl
  let c₃ := c₂.put p (n.goto .campaign).silent
  have hstand : Cluster.step ids c₂ ⟨p, .dispatch⟩ = some c₃ := by
    refine Cluster.step_eq_some.mpr ⟨hp, trivial, _, ?_, rfl⟩
    rw [c₁.put_nodes_self]
    rfl
  refine ⟨c₃, ?_, c₂.put_nodes_self _ _, fun q hq => ?_⟩
  · rw [Lts.exec_cons_of_step hdispatch, Lts.exec_cons_of_step htimeout,
      Lts.exec_cons_of_step hstand]
    rfl
  · rw [c₂.put_nodes_ne _ hq, c₁.put_nodes_ne _ hq, newCluster.put_nodes_ne _ hq]
    rfl

namespace Woken

variable {c : Cluster} (h : Woken p c)
include h

theorem candidacy_eq : candidacy c p = ⟨1, p, 0, 0⟩ := by
  rw [candidacy, h.self]
  rfl

theorem behind {q : Str} (hq : q ≠ p) : (c.nodes q).st.currentTerm ≤ (candidacy c p).term := by
  rw [h.other q hq, h.candidacy_eq]
  exact Nat.zero_le 1

theorem supports {q : Str} (hq : q ≠ p) : Supports c p q := by
  rw [Supports, h.other q hq, h.candidacy_eq]
  exact ⟨.inl Nat.zero_lt_one, .inr ⟨rfl, le_rfl⟩⟩

theorem verdict_eq {q : Str} (hq : q ≠ p) :
    verdict c p q = ({ newState with currentTerm := 1, votedFor := p }, ⟨1, true⟩) := by
  rw [verdict, h.other q hq, h.candidacy_eq]
  rfl

end Woken

theorem keys_setAll (peers : List Str) (v : Nat) :
    (State.setAll ∅ peers v).keys = peers.toFinset := by
  ext q
  rw [Finmap.mem_keys, GoMap.mem_iff_find, List.mem_toFinset]
  simp only [find_setAll]
  by_cases hq : q ∈ peers <;> simp [hq]

/-- The followers give their votes. -/
theorem length_le_countP_backs {c : Cluster} (hm : Majority ids followers p) (h : Woken p c) :
    followers.length ≤ (peersOf ids p).countP (backs c p (· ∈ followers)) := by
  rw [List.countP_eq_length_filter]
  refine (List.Nodup.subperm hm.nodup fun q hq => ?_).length_le
  have hpeer := hm.peers q hq
  refine List.mem_filter.mpr ⟨hpeer, ?_⟩
  simp [backs, hq, h.supports (mem_peersOf.mp hpeer).2]

/-- The leader of a first election. -/
def firstLeader (p : Str) (peers : List Str) (phase : Phase) : Node where
  st := { newState with
    currentTerm := 1
    votedFor := p
    state := .leader
    leaderID := p
    nextIndex := State.setAll ∅ peers 1
    matchIndex := State.setAll ∅ peers 0 }
  phase := phase
  elections := 1
  commitCh := false
  applying := none
  applied := []

theorem elected_eq {c : Cluster} {votes : Nat} (h : Woken p c)
    (hvotes : Node.votesNeeded (peersOf ids p) ≤ votes) :
    elected ids c p votes = firstLeader p (peersOf ids p) .top := by
  rw [elected, h.self]
  exact if_pos hvotes

/-- **The first election**, and the steps to the leader's select. -/
theorem elect_drives {c₀ : Cluster} (hm : Majority ids followers p) (h : Woken p c₀) :
    Drives (Cluster.step ids) (· = c₀)
      (stand ids c₀ p (· ∈ followers) ++ [⟨p, .dispatch⟩, ⟨p, .sendHeartbeats⟩])
      (Settled ids followers p 1 []) := by
  refine Drives.append (stand_drives hm.distinct hm.leader (by rw [h.self]) _
    fun q hq _ => h.behind (mem_peersOf.mp hq).2) fun c hc => ?_
  obtain ⟨hself, hpeers⟩ := hc
  have hvotes : Node.votesNeeded (peersOf ids p) ≤
      (peersOf ids p).countP (backs c₀ p (· ∈ followers)) + 1 := by
    have hlength := length_peersOf hm.distinct hm.leader
    have hcount := length_le_countP_backs hm h
    have hhalf := hm.half
    rw [Node.votesNeeded]
    omega
  rw [elected_eq h hvotes] at hself
  let c₁ := c.put p (firstLeader p (peersOf ids p) .leading).silent
  have hdispatch : Cluster.step ids c ⟨p, .dispatch⟩ = some c₁ := by
    refine Cluster.step_eq_some.mpr ⟨hm.leader, trivial, _, ?_, rfl⟩
    rw [hself]
    rfl
  let c₂ := c₁.put p ⟨firstLeader p (peersOf ids p) .idle,
    (peersOf ids p).map fun q => .heartbeatTask p q 1 .blank, []⟩
  have hsend : Cluster.step ids c₁ ⟨p, .sendHeartbeats⟩ = some c₂ := by
    refine Cluster.step_eq_some.mpr ⟨hm.leader, trivial, _, ?_, rfl⟩
    rw [c.put_nodes_self]
    rfl
  have hleader : c₂.nodes p = firstLeader p (peersOf ids p) .idle := c₁.put_nodes_self _ _
  have hfollower : ∀ q ∈ followers,
      c₂.nodes q = newNode.withState { newState with currentTerm := 1, votedFor := p } := by
    intro q hq
    have hne := (mem_peersOf.mp (hm.peers q hq)).2
    rw [c₁.put_nodes_ne _ hne, c.put_nodes_ne _ hne, hpeers q (hm.peers q hq), asked,
      if_pos (decide_eq_true hq), h.verdict_eq hne, h.other q hne]
  refine ⟨c₂, ?_, ?_, ?_, fun q hq => ?_, fun q hq => ?_, fun q hq => ?_⟩
  · rw [Lts.exec_cons_of_step hdispatch, Lts.exec_cons_of_step hsend]
    rfl
  · rw [hleader]
    refine ⟨rfl, rfl, rfl, keys_setAll _ 0, fun q m hq => ?_⟩
    change (State.setAll ∅ (peersOf ids p) 0).find q = some m at hq
    rw [find_setAll] at hq
    split at hq
    · exact (Option.some.inj hq).ge
    · cases hq
  · rw [hleader]
    exact ⟨rfl, rfl, rfl, rfl, rfl⟩
  · rw [hleader]
    exact (find_setAll 1 _ ∅ q).trans (if_pos (hm.peers q hq))
  · rw [hfollower q hq]
    exact le_rfl
  · rw [hfollower q hq]
    exact ⟨rfl, rfl, rfl, rfl, rfl⟩

theorem commands_foldl_logged (T : Nat) (commands : List Str) (L : Log) :
    (commands.foldl (logged T) L).map LogEntry.command = L.map LogEntry.command ++ commands := by
  induction commands generalizing L with
  | nil => simp
  | cons command commands ih =>
    rw [List.foldl_cons, ih, logged_eq, List.map_append, List.append_assoc]
    rfl

/-- Whoever has an event in an election is the candidate or answers. -/
theorem node_of_mem_stand {c : Cluster} {answers : Str → Bool} {a : Action}
    (ha : a ∈ stand ids c p answers) : a.node = p ∨ answers a.node = true := by
  rw [stand, List.append_assoc, List.mem_append, List.mem_append, List.mem_flatMap] at ha
  rcases ha with ha | ⟨q, -, ha⟩ | ha
  · left
    fin_cases ha <;> rfl
  · unfold ask at ha
    dsimp only at ha
    split at ha
    · rename_i hanswers
      fin_cases ha
      · exact .inl rfl
      · exact .inl rfl
      · exact .inr hanswers
      · exact .inl rfl
    · exact .inl (congrArg Action.node (List.mem_singleton.mp ha))
  · exact .inl (congrArg Action.node (List.mem_singleton.mp ha))

theorem node_of_mem_beats {req : AppendEntriesRequest} {a : Action}
    (ha : a ∈ beats p followers req) : a.node ∈ p :: followers := by
  rcases List.mem_append.mp ha with ha | ha
  · fin_cases ha <;> exact List.mem_cons_self
  · obtain ⟨q, hq, ha⟩ := List.mem_flatMap.mp ha
    have hnode : a.node = p ∨ a.node = q := by
      fin_cases ha <;> simp
    rcases hnode with heq | heq
    · exact heq ▸ List.mem_cons_self
    · exact heq ▸ List.mem_cons_of_mem p hq

theorem node_of_mem_serve {T : Nat} {L : Log} {command : Str} {a : Action}
    (ha : a ∈ serve p followers T L command) : a.node ∈ p :: followers := by
  simp only [serve, List.mem_append, List.mem_flatMap] at ha
  rcases ha with (((ha | ha) | ha | ha) | ha) | ⟨q, hq, ha⟩
  · fin_cases ha <;> exact List.mem_cons_self
  · exact node_of_mem_beats ha
  · fin_cases ha <;> exact List.mem_cons_self
  · fin_cases ha
    exact List.mem_cons_self
  · exact node_of_mem_beats ha
  · fin_cases ha <;> exact hq

theorem node_of_mem_serveAll {T : Nat} {commands : List Str} {L : Log} {a : Action}
    (ha : a ∈ serveAll p followers T L commands) : a.node ∈ p :: followers := by
  induction commands generalizing L with
  | nil => cases ha
  | cons command commands ih =>
    rcases List.mem_append.mp ha with ha | ha
    · exact node_of_mem_serve ha
    · exact ih ha

/-- **A leader with a majority serves.**  In every cluster, for every node and every set of others
that makes it a majority and is not empty, and for every list of commands: there is a run from the
start after which the node leads and it and the others have applied exactly these commands, in this
order.  The rest of the cluster has done nothing. -/
theorem commands_are_applied (hm : Majority ids followers p) (commands : List Str)
    (hfits : commands.length + 1 < 2 ^ 64) :
    ∃ c, Lts.Reach (Cluster.step ids) newCluster c ∧ (c.nodes p).st.state = .leader ∧
      (∀ q ∈ p :: followers, (c.nodes q).applied.map LogEntry.command = commands) ∧
      ∀ q, q ∉ p :: followers → c.nodes q = newNode := by
  obtain ⟨c₀, hwake, hwoken⟩ := wake_drives hm.leader newCluster rfl
  obtain ⟨c₁, helect, hsettled⟩ := elect_drives hm hwoken c₀ rfl
  obtain ⟨c, hserve, h⟩ := serveAll_drives hm commands [] Log.wellIndexed_nil
    (by rw [List.length_nil, Nat.zero_add]; exact hfits) c₁ hsettled
  refine ⟨c, ?_, h.leading.role, fun q hq => ?_, fun q hq => ?_⟩
  · exact ((Lts.Run.of_exec hwake).trans (.of_exec helect)).trans (.of_exec hserve)
  · let L := commands.foldl (logged 1) []
    have hreplica : Replica L L.length L.length (c.nodes q) := by
      rcases List.mem_cons.mp hq with heq | hmem
      · exact heq ▸ h.leader
      · exact h.follower q hmem
    rw [hreplica.applied, List.take_length, commands_foldl_logged]
    rfl
  · have hqp : q ≠ p := fun heq => hq (heq ▸ List.mem_cons_self)
    have hfollower : q ∉ followers := fun hmem => hq (List.mem_cons_of_mem p hmem)
    have hserved : c.nodes q = c₁.nodes q :=
      nodes_of_exec hserve fun a ha heq => hq (heq ▸ node_of_mem_serveAll ha)
    refine hserved.trans ((nodes_of_exec helect fun a ha heq => ?_).trans (hwoken.other q hqp))
    subst heq
    rcases List.mem_append.mp ha with ha | ha
    · exact (node_of_mem_stand ha).elim hqp fun hans => hfollower (of_decide_eq_true hans)
    · fin_cases ha
      · exact hqp rfl
      · exact hqp rfl

theorem majority_of_three : Majority trio [n3] n1 where
  distinct := by decide +kernel
  leader := by decide +kernel
  nodup := by decide +kernel
  peers := by decide +kernel
  some := by decide
  half := by decide

theorem commands_are_applied_of_three :
    ∃ c, Lts.Reach (Cluster.step trio) newCluster c ∧
      (∀ q ∈ [n1, n3], (c.nodes q).applied.map LogEntry.command = ["x".toList, "y".toList]) ∧
      c.nodes n2 = newNode := by
  obtain ⟨c, hc, -, happlied, hrest⟩ :=
    commands_are_applied majority_of_three ["x".toList, "y".toList] (by decide)
  exact ⟨c, hc, happlied, hrest n2 (by decide +kernel)⟩

end Start

/-! ## 6. A cluster of one -/

section Lone

variable {p : Str} {n : Node} {e : Event} {o : Outcome} {c : Cluster}

/-- A node that has never been told to look at its commit index. -/
structure Unprompted (n : Node) : Prop where
  commitIndex : n.st.commitIndex = 0
  commitCh : n.commitCh = false
  phase : ∀ progress, n.phase ≠ .updating progress
  applying : n.applying = none
  applied : n.applied = []

/-- A call of `Propose` that is under way. -/
def Packet.isProposal : Packet → Prop
  | .proposal _ _ _ => True
  | _ => False

theorem Unprompted.phase_of_move {peers : List Str} (h : Unprompted n) (hmove : Move p peers n e o)
    (progress : Update) : o.node.phase ≠ .updating progress := by
  intro hphase
  cases updated_of_move hmove hphase with
  | pick signal => cases h.commitCh.symm.trans signal
  | stay before | date before | pass before | agree before => exact h.phase _ before

/-- Without peers a node sends nothing, and nothing prompts it. -/
theorem Unprompted.move (h : Unprompted n) (hown : ∀ x, e = .receive x → x.isProposal)
    (hmove : Move p [] n e o) : Unprompted o.node ∧ ∀ x ∈ o.packets, x.isProposal := by
  have hphase := h.phase_of_move hmove
  obtain ⟨hcommit, hsignal, hbefore, hidle, happlied⟩ := h
  have hnone : ∀ x ∈ ([] : List Packet), x.isProposal := fun x hx => absurd hx List.not_mem_nil
  cases hmove with
  | updateCommit signal => cases hsignal.symm.trans signal
  | readTerm _ before | passIndex _ _ before | passTerm _ _ before | setCommit _ before
  | leaveCommit _ before => exact absurd before (hbefore _)
  | applyRead _ hmore =>
    rw [hcommit] at hmore
    exact absurd hmore (Nat.not_lt_zero _)
  | applyEntry i k entry before | applyGap i k before | applyDone i k before =>
    cases hidle.symm.trans before
  | voteFailed election term votes pending peer hwait =>
    rw [Node.countVote, hwait] at hphase ⊢
    exact ⟨⟨hcommit, hsignal, hphase, hidle, happlied⟩, hnone⟩
  | propose =>
    refine ⟨⟨hcommit, hsignal, hphase, hidle, happlied⟩, fun x hx => ?_⟩
    rw [List.mem_singleton.mp hx]
    trivial
  | read task next hread =>
    refine ⟨⟨hcommit, hsignal, hphase, hidle, happlied⟩, fun x hx => ?_⟩
    have htask := hown task rfl
    rw [List.mem_singleton.mp hx]
    cases hread with
    | currentTerm => trivial
    | _ => exact htask
  | voteReq | voteResp | appendReq | appendResp => exact (hown _ rfl).elim
  | dispatch | timeout | giveUp | campaign | voteForSelf | win | lose | sendHeartbeats
  | leaderCheck | append => exact ⟨⟨hcommit, hsignal, hphase, hidle, happlied⟩, hnone⟩

theorem peersOf_lone (p : Str) : peersOf [p] p = [] := by simp [peersOf]

theorem unprompted_of_reach (hc : Lts.Reach (Cluster.step [p]) newCluster c) :
    (∀ x ∈ c.net, x.isProposal) ∧ Unprompted (c.nodes p) := by
  refine hc.invariant (P := fun c => (∀ x ∈ c.net, x.isProposal) ∧ Unprompted (c.nodes p))
    ⟨fun x hx => absurd hx List.not_mem_nil, rfl, rfl, fun u => Phase.noConfusion, rfl, rfl⟩ ?_
  rintro c a c' ⟨hnet, h⟩ - hstep
  obtain ⟨hid, havail, o, ho, rfl⟩ := Cluster.step_eq_some.mp hstep
  obtain ⟨id, e⟩ := a
  obtain rfl : id = p := List.mem_singleton.mp hid
  rw [peersOf_lone] at ho
  obtain ⟨hnode, hpackets⟩ :=
    h.move (fun x hx => hnet x (mem_net_of_available havail x hx)) (move_of_step ho)
  refine ⟨fun x hx => (List.mem_append.mp hx).elim (hnet x) (hpackets x), ?_⟩
  rw [c.put_nodes_self]
  exact hnode

/-- Where a leader of the term `T` is when the commands in `rest` have not been proposed yet. -/
structure Proposing (p : Str) (T : Nat) (commands rest : List Str) (c : Cluster) : Prop where
  role : (c.nodes p).st.state = .leader
  term : (c.nodes p).st.currentTerm = T
  log : (c.nodes p).st.log.map LogEntry.command ++ rest = commands

/-- A leader takes the commands it is given. -/
theorem proposeAll_drives (T : Nat) (commands : List Str) :
    Drives (Cluster.step [p]) (Proposing p T commands commands)
      (commands.flatMap (proposing p T)) (Proposing p T commands []) := by
  refine .flatMap (I := Proposing p T commands) (fun command rest c h => ?_) commands
  obtain ⟨c', hexec, hc'⟩ :=
    proposing_drives (List.mem_singleton.mpr rfl) h.role command c rfl
  rw [h.term] at hexec hc'
  refine ⟨c', hexec, ?_, ?_, ?_⟩
  · rw [hc'.self]
    exact h.role
  · rw [hc'.self]
    exact h.term
  · rw [hc'.self, ← h.log]
    change (Log.append (c.nodes p).st.log _).map LogEntry.command ++ rest = _
    rw [Log.append, List.map_append, List.append_assoc]
    rfl

/-- **A cluster of one never commits.**  The node becomes leader and takes whatever commands it is
given, but in no run does it commit or apply one. -/
theorem lone_node_never_commits (p : Str) :
    (∀ commands : List Str, ∃ c, Lts.Reach (Cluster.step [p]) newCluster c ∧
      (c.nodes p).st.state = .leader ∧ (c.nodes p).st.log.map LogEntry.command = commands) ∧
    ∀ c, Lts.Reach (Cluster.step [p]) newCluster c →
      (c.nodes p).st.commitIndex = 0 ∧ (c.nodes p).applied = [] := by
  refine ⟨fun commands => ?_, fun c hc => ?_⟩
  · have hp : p ∈ [p] := List.mem_singleton.mpr rfl
    obtain ⟨c₀, hwake, hwoken⟩ := wake_drives hp newCluster rfl
    obtain ⟨c₁, helect, hself, -⟩ := stand_drives (List.nodup_singleton p) hp
      (by rw [hwoken.self]) (fun _ => false)
      (fun q hq _ => hwoken.behind (mem_peersOf.mp hq).2) c₀ rfl
    have hvotes : Node.votesNeeded (peersOf [p] p) ≤
        (peersOf [p] p).countP (backs c₀ p fun _ => false) + 1 := by
      rw [peersOf_lone]
      exact le_rfl
    rw [elected_eq hwoken hvotes] at hself
    have hfirst : Proposing p 1 commands commands c₁ := by
      constructor <;> rw [hself] <;> rfl
    obtain ⟨c, hpropose, hlead, -, hlog⟩ := proposeAll_drives 1 commands c₁ hfirst
    have hrun := ((Lts.Run.of_exec hwake).trans (.of_exec helect)).trans (.of_exec hpropose)
    exact ⟨c, hrun, hlead, (List.append_nil _).symm.trans hlog⟩
  · obtain ⟨-, h⟩ := unprompted_of_reach hc
    exact ⟨h.commitIndex, h.applied⟩

end Lone

end SkyLock.Raft
