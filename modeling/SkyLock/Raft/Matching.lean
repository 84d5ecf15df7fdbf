/-
# What a leader knows of the logs of others

`matchIndex[B] = m` is meant to say that B has the first `m` entries of the leader's log.  In the
code it can stop being true: an `AppendEntries` that was overtaken by a longer one cuts the
follower's log back to what it carries itself, after the longer one has been acknowledged
(`matchIndex_after_truncation`).  And what is noted need not be about this leadership at all.

It is true (`match_index_sound`) in runs of careful elections in which moreover

* `Propose` appends its entry only while the node leads the term it has read;
* heartbeats are started only by a leader;
* when the entries of a request are read, the log still has at `PrevLogIndex` the term that was
  read there;
* a request of the node's own term does not cut off entries without a conflict;
* a leader notes a success only if it is for a request of its term.

Less is asked here than for committing (`Node.orderly`), so the invariant is one of its own.  Every
log has GROWN from the chains of the terms, and the log of a leader is the chain of its term; what
a leader has noted, and what a success on its way to it says, is that the other node HOLDS a part
of this log or has left the term (`Holds`).
-/
import SkyLock.Raft.Replay

namespace SkyLock.Raft

open Replication (History)

/-! ## 1. The condition -/

/-- If the request is of the node's own term, passes the check and has entries, they cover the log
or conflict with it. -/
def State.keepsTail (s : State) (req : AppendEntriesRequest) : Prop :=
  s.currentTerm = req.term → s.consistent req → req.entries ≠ [] →
    s.log.length ≤ req.prevLogIndex + req.entries.length ∨ s.conflicts req = true

instance (s : State) (req : AppendEntriesRequest) : Decidable (s.keepsTail req) :=
  inferInstanceAs (Decidable (_ → _ → _ → _))

/-- The term that has been read for a request is still the one in the log when the entries are. -/
def Draft.current (log : Log) : Draft → Prop
  | .prevTerm i t => Log.termAt log i = t
  | _ => True

instance (log : Log) (draft : Draft) : Decidable (draft.current log) := by
  unfold Draft.current
  induction draft using Draft.casesOn <;> infer_instance

/-- **The condition under which a leader's notes are true**, besides that on elections. -/
def Node.tracks (n : Node) : Event → Prop
  | .sendHeartbeats => n.st.state = .leader
  | .receive (.proposal _ _ (some term)) => n.st.leads term
  | .receive (.heartbeatTask _ _ _ draft) => draft.current n.st.log
  | .receive (.appendReq _ _ req) => n.st.keepsTail req
  | .receive (.appendResp _ _ req resp) =>
    resp.term ≤ req.term → resp.success = true → req.entries ≠ [] →
      n.st.state = .leader → n.st.currentTerm = req.term
  | _ => True

instance (n : Node) (e : Event) : Decidable (n.tracks e) := by
  unfold Node.tracks
  induction e using Event.casesOn with
  | receive p =>
    induction p using Packet.casesOn with
    | proposal src command term => induction term using Option.casesOn <;> infer_instance
    | _ => infer_instance
  | _ => infer_instance

def Tracking (ids : List Str) (c : Cluster) (a : Action) : Prop :=
  Careful ids c a ∧ (c.nodes a.node).tracks a.event

instance (ids : List Str) (c : Cluster) (a : Action) : Decidable (Tracking ids c a) :=
  inferInstanceAs (Decidable (_ ∧ _))

/-! ## 2. The invariant -/

/-- `q` has the first `m` entries of the log of `p`, or has gone on to a later term. -/
structure Holds (c : Cluster) (p q : Str) (m : Nat) : Prop where
  term : (c.nodes p).st.currentTerm ≤ (c.nodes q).st.currentTerm
  bound : m ≤ (c.nodes p).st.log.length
  agrees : (c.nodes q).st.currentTerm = (c.nodes p).st.currentTerm →
    (c.nodes p).st.log.take m <+: (c.nodes q).st.log

section Relation

variable (ids : List Str) (h : Chronicle) (c : Cluster)

/-- A majority has voted for `p` in the term. -/
def Elected (T : Nat) (p : Str) : Prop :=
  ∃ Q, electing ids Q ∧ ∀ q ∈ Q, ⟨q, T, p⟩ ∈ c.votes

/-- Who may send in a term: who has been elected in it, once its chain has been begun. -/
structure Sender (T : Nat) (p : Str) : Prop where
  begun : h.start T ≠ none
  elected : Elected ids c T p

/-- A request carries a part of a log that has grown from the chains; as long as the sender leads
the term of the request, that is its own log. -/
structure Cut (s : State) (req : AppendEntriesRequest) (k : Nat) : Prop where
  grown : ∃ l, h.Grown LogEntry.term l ∧ Log.WellIndexed l ∧ Slice l k req
  own : s.leads req.term → Slice s.log k req

/-- What has been read for a request of the term `T` by a node in the state `s`. -/
def Draft.Traced (s : State) (T : Nat) : Draft → Prop
  | .entries i t es => es ≠ [] → ∃ k, Cut h s ⟨T, [], i, t, es, 0⟩ k
  | _ => True

def Packet.Traced : Packet → Prop
  | .heartbeatTask src dst T draft =>
    dst ∈ peersOf ids src ∧ Sender ids h c T src ∧ draft.Traced h (c.nodes src).st T
  | .appendReq src dst req =>
    dst ∈ peersOf ids src ∧ Sender ids h c req.term src ∧
      (req.entries ≠ [] → ∃ k, Cut h (c.nodes src).st req k)
  | .appendResp src dst req resp =>
    src ∈ peersOf ids dst ∧ h.start req.term ≠ none ∧
      (resp.success = true → (c.nodes dst).st.leads req.term →
        ∀ last, req.entries.getLast? = some last → Holds c dst src last.index)
  | _ => True

/-- What a node is like by itself: its log has grown from the chains, and if it leads, it is the
chain of its term. -/
structure Grounded (p : Str) (n : Node) : Prop where
  grown : h.Grown LogEntry.term n.st.log
  indexed : Log.WellIndexed n.st.log
  begun : n.st.state = .leader → h.start n.st.currentTerm ≠ none
  chain : n.st.state = .leader → h.chain n.st.currentTerm = n.st.log
  elections : ∀ T, n.InElection T → T ≠ 0
  keys : ∀ q ∈ n.st.matchIndex, q ∈ peersOf ids p

/-- **What a leader notes is true.** -/
structure Tracked : Prop where
  node : ∀ p, Grounded ids h p (c.nodes p)
  founded : ∀ T, h.start T ≠ none → Founded ids c T
  unborn : ∀ T, h.start T = none → h.chain T = []
  net : ∀ p ∈ c.net, p.Traced ids h c
  noted : ∀ p, (c.nodes p).st.state = .leader → ∀ q m,
    (c.nodes p).st.matchIndex.find q = some m → m = 0 ∨ Holds c p q m

end Relation

variable {ids : List Str} {h h' : Chronicle} {c : Cluster} {id p q : Str} {e : Event} {o : Outcome}
  {T m : Nat}

theorem grounded_newNode (h : Chronicle) (p : Str) : Grounded ids h p newNode where
  grown i x hx := absurd hx (by simp [newNode, newState])
  indexed := Log.wellIndexed_nil
  begun hr := absurd hr (by simp [newNode, newState])
  chain hr := absurd hr (by simp [newNode, newState])
  elections T hin := by
    rcases hin with hp | ⟨_, _, _, hp⟩
    · exact absurd hp (by simp [newNode])
    · exact absurd hp (by simp [newNode])
  keys q hq := absurd hq Finmap.notMem_empty

theorem tracked_newCluster (hstart : ∀ T, h.start T = none) (hchain : ∀ T, h.chain T = []) :
    Tracked ids h newCluster where
  node := grounded_newNode h
  founded T hT := absurd (hstart T) hT
  unborn T _ := hchain T
  net p hp := absurd hp List.not_mem_nil
  noted p hr := absurd hr (by simp [newCluster, newNode, newState])

/-- A node that an event does not touch. -/
theorem Grounded.mono {n : Node} (hg : Grounded ids h p n) (hext : h.Extends h')
    (hchain : n.st.state = .leader → h'.chain n.st.currentTerm = h.chain n.st.currentTerm) :
    Grounded ids h' p n :=
  { hg with
    grown := hg.grown.mono hext
    begun := fun hr => hext.begun (hg.begun hr)
    chain := fun hr => (hchain hr).trans (hg.chain hr) }

/-! ## 3. Elections -/

theorem Elected.unique (hnd : ids.Nodup) (hlaw : Lawful ids c) (hp : Elected ids c T p)
    (hq : Elected ids c T q) : p = q := by
  obtain ⟨Q, hQ, hvotes⟩ := hp
  obtain ⟨Q', hQ', hvotes'⟩ := hq
  obtain ⟨v, hv, hv'⟩ := exists_common_voter hnd hQ.1 hQ'.1 hQ.2 hQ'.2
  exact (hlaw.voter v).polled.once T _ _ (hvotes v hv) (hvotes' v hv')

theorem elected_of_leads (hlaw : Lawful ids c) (hl : (c.nodes p).st.leads T) :
    Elected ids c T p := by
  obtain ⟨hrole, rfl⟩ := hl
  obtain ⟨Q, -, hQ, hcard, hvotes⟩ := hlaw.leader p hrole
  exact ⟨Q, ⟨hQ, hcard⟩, hvotes⟩

theorem Elected.put (hp : Elected ids c T p) (id : Str) (o : Outcome) :
    Elected ids (c.put id o) T p := by
  obtain ⟨Q, hQ, hvotes⟩ := hp
  exact ⟨Q, hQ, fun q hq => List.mem_append_left _ (hvotes q hq)⟩

theorem Tracked.pos (ht : Tracked ids h c) {l : Log} (hl : h.Grown LogEntry.term l) :
    ∀ x ∈ l, x.term ≠ 0 := fun _ hx => (ht.founded _ (hl.start_of_mem hx)).1

/-- Accepting a part of a grown log gives that log up to where the part ends. -/
theorem Tracked.appendEntries_eq (ht : Tracked ids h c) {l : Log} {k : Nat}
    {req : AppendEntriesRequest} (hl : h.Grown LogEntry.term l) (hidx : Log.WellIndexed l)
    (hslice : Slice l k req) (hc : (c.nodes p).st.consistent req) :
    (Log.appendEntries (c.nodes p).st.log req.prevLogIndex req.entries).1 = l.take k :=
  hslice.appendEntries_eq hidx
    (prefix_of_consistent hslice (matching_of_grown (ht.node p).grown hl) (ht.pos hl) hc)

section Step

variable (hnd : ids.Nodup) (hid : id ∈ ids) (hlaw : Lawful ids c) (ht : Tracked ids h c)
  (hmove : Move id (peersOf ids id) (c.nodes id) e o)
  (hcare : (c.nodes id).careful (peersOf ids id) e) (htracks : (c.nodes id).tracks e)
  (hnet : ∀ q, e = .receive q → q ∈ c.net)

include hnd hid hlaw ht hmove hcare

/-- A node that wins its election is elected in its term, which has not been begun. -/
theorem unbegun_of_win {election T v : Nat} (he : e = .tally)
    (hphase : (c.nodes id).phase = .waiting election T v [])
    (henough : Node.votesNeeded (peersOf ids id) ≤ v) :
    h.start (c.nodes id).st.currentTerm = none ∧
      (c.nodes id).InElection (c.nodes id).st.currentTerm ∧
      Elected ids c (c.nodes id).st.currentTerm id := by
  subst he
  have hwins := winsTerm_of_careful hcare
  simp only [Node.winsTerm, hphase] at hwins
  obtain rfl := hwins henough
  obtain ⟨Q, -, hQ, hcard, hvotes⟩ := (hlaw.runner id _ _ _ _ hphase).majority hnd hid henough
  have hin : (c.nodes id).InElection (c.nodes id).st.currentTerm := .inr ⟨_, _, _, hphase⟩
  refine ⟨?_, hin, Q, ⟨hQ, hcard⟩, hvotes⟩
  by_contra hbegun
  exact not_founded_of_votes hnd hlaw hin ⟨hQ, hcard⟩ hvotes (ht.founded _ hbegun)

/-- Who leads a term that has been begun has led it before. -/
theorem leads_of_put (hbegun : h.start T ≠ none) (hp : ((c.put id o).nodes p).st.leads T) :
    (c.nodes p).st.leads T := by
  by_cases hpid : p = id
  · subst hpid
    rw [c.put_nodes_self] at hp
    obtain ⟨hterm, hr | ⟨he, election, T', v, hphase, henough⟩⟩ := leader_of_move hmove hp.1
    · exact ⟨hr, hterm.symm.trans hp.2⟩
    · have hnone := (unbegun_of_win hnd hid hlaw ht hmove hcare he hphase henough).1
      rw [← hterm, hp.2] at hnone
      exact absurd hnone hbegun
  · rw [c.put_nodes_ne o hpid] at hp
    exact hp

omit hnd hid hlaw ht hcare in
/-- The log of a leader only grows. -/
theorem prefix_put_of_leads (hp : ((c.put id o).nodes p).st.leads T) :
    (c.nodes p).st.log <+: ((c.put id o).nodes p).st.log := by
  by_cases hpid : p = id
  · subst hpid
    rw [c.put_nodes_self] at hp ⊢
    exact prefix_of_leader hmove hp.1
  · rw [c.put_nodes_ne o hpid]

include htracks hnet

omit hid hcare in
/-- What a node has in common with the leader of its term it keeps as long as it is in the term. -/
theorem prefix_put {P : Log} (hlead : (c.nodes p).st.leads T)
    (hq : (c.nodes q).st.currentTerm = T) (hq' : ((c.put id o).nodes q).st.currentTerm = T)
    (hP : P <+: (c.nodes p).st.log) (hPq : P <+: (c.nodes q).st.log) :
    P <+: ((c.put id o).nodes q).st.log := by
  by_cases hqid : q = id
  · subst hqid
    rw [c.put_nodes_self] at hq' ⊢
    cases edit_of_move hmove with
    | keep log => exact log ▸ hPq
    | extend _ _ _ log => exact log ▸ hPq.trans (List.prefix_append _ _)
    | replace src req hterm hc hne office log =>
      -- the request is of this term, so it is the leader's
      have hT : req.term = T := (congrArg Office.term office).symm.trans hq'
      obtain ⟨-, hsender, hcut⟩ := ht.net _ (hnet _ rfl)
      obtain rfl := Elected.unique hnd hlaw (hT ▸ hsender.elected) (elected_of_leads hlaw hlead)
      obtain ⟨k, hk⟩ := hcut hne
      have hslice := hk.own (hT ▸ hlead)
      have hmay := mayReplace_of_replaces hslice (htracks (hq.trans hT.symm) hc hne)
      rw [log, ht.appendEntries_eq (ht.node src).grown (ht.node src).indexed hslice hc]
      exact hmay.prefix_take hPq hP
  · rw [c.put_nodes_ne o hqid]
    exact hPq

/-- What a leader knows of another node stays true. -/
theorem Holds.put (hbegun : h.start T ≠ none) (hp : ((c.put id o).nodes p).st.leads T)
    (hh : Holds c p q m) : Holds (c.put id o) p q m := by
  have hlead := leads_of_put hnd hid hlaw ht hmove hcare hbegun hp
  have hlog := prefix_put_of_leads hmove hp
  have hle := term_le_put hmove hcare q
  have hterm := hh.term
  rw [hlead.2] at hterm
  refine ⟨?_, hh.bound.trans hlog.length_le, fun heq => ?_⟩
  · rw [hp.2]
    exact hterm.trans hle
  · rw [hp.2] at heq
    have hq : (c.nodes q).st.currentTerm = T := Nat.le_antisymm (heq ▸ hle) hterm
    rw [Log.take_eq_of_prefix hlog hh.bound]
    exact prefix_put hnd hlaw ht hmove htracks hnet hlead hq heq (List.take_prefix _ _)
      (hh.agrees (hq.trans hlead.2.symm))

omit htracks hnet in
theorem Cut.put {src : Str} {req : AppendEntriesRequest} {k : Nat}
    (hbegun : h.start req.term ≠ none) (hcut : Cut h (c.nodes src).st req k)
    (hext : h.Extends h') :
    Cut h' ((c.put id o).nodes src).st req k := by
  obtain ⟨⟨l, hl, hidx, hslice⟩, hown⟩ := hcut
  refine ⟨⟨l, hl.mono hext, hidx, hslice⟩, fun hlead' => ?_⟩
  have hlead := leads_of_put hnd hid hlaw ht hmove hcare hbegun hlead'
  exact (hown hlead).mono (prefix_put_of_leads hmove hlead')

theorem Packet.Traced.put {x : Packet} (hx : x.Traced ids h c) (hext : h.Extends h') :
    x.Traced ids h' (c.put id o) := by
  cases x with
  | heartbeatTask src dst T draft =>
    obtain ⟨hdst, hsender, hdraft⟩ := hx
    refine ⟨hdst, ⟨hext.begun hsender.begun, hsender.elected.put id o⟩, ?_⟩
    cases draft with
    | entries i t es =>
      intro hne
      obtain ⟨k, hk⟩ := hdraft hne
      exact ⟨k, hk.put hnd hid hlaw ht hmove hcare hsender.begun hext⟩
    | _ => trivial
  | appendReq src dst req =>
    obtain ⟨hdst, hsender, hcut⟩ := hx
    refine ⟨hdst, ⟨hext.begun hsender.begun, hsender.elected.put id o⟩, fun hne => ?_⟩
    obtain ⟨k, hk⟩ := hcut hne
    exact ⟨k, hk.put hnd hid hlaw ht hmove hcare hsender.begun hext⟩
  | appendResp src dst req resp =>
    obtain ⟨hsrc, hbegun, hholds⟩ := hx
    refine ⟨hsrc, hext.begun hbegun, fun hs hlead' last hlast => ?_⟩
    have hlead := leads_of_put hnd hid hlaw ht hmove hcare hbegun hlead'
    exact Holds.put hnd hid hlaw ht hmove hcare htracks hnet hbegun hlead'
      (hholds hs hlead last hlast)
  | voteTask | voteReq | voteResp | proposal => trivial

end Step

/-! ## 4. New packets -/

section Packets

variable (hnd : ids.Nodup) (hid : id ∈ ids) (hlaw : Lawful ids c) (ht : Tracked ids h c)
  (hmove : Move id (peersOf ids id) (c.nodes id) e o)
  (hcare : (c.nodes id).careful (peersOf ids id) e) (htracks : (c.nodes id).tracks e)
  (hnet : ∀ q, e = .receive q → q ∈ c.net) (hext : h.Extends h')

include ht in
/-- The entries behind an index are a part of the log, if there are any. -/
theorem cut_of_read {i t T commit : Nat} {leader : Str}
    (hterm : Log.termAt (c.nodes id).st.log i = t)
    (hne : Log.entriesAfter (c.nodes id).st.log i ≠ []) :
    Cut h (c.nodes id).st ⟨T, leader, i, t, Log.entriesAfter (c.nodes id).st.log i, commit⟩
      (c.nodes id).st.log.length := by
  have hi : i ≤ (c.nodes id).st.log.length := by
    rw [entriesAfter_eq_drop] at hne
    exact Nat.le_of_not_le (mt List.drop_eq_nil_of_le hne)
  have hslice : Slice (c.nodes id).st.log (c.nodes id).st.log.length
      ⟨T, leader, i, t, Log.entriesAfter (c.nodes id).st.log i, commit⟩ :=
    slice_of_read List.prefix_rfl hi hterm.symm
  exact ⟨⟨_, (ht.node id).grown, (ht.node id).indexed, hslice⟩, fun _ => hslice⟩

include ht in
/-- What a goroutine goes on with. -/
theorem traced_of_reads {task next : Packet} (hread : Reads id (c.nodes id) task next)
    (htracks : (c.nodes id).tracks (.receive task)) (htask : task.Traced ids h c) :
    next.Traced ids h c := by
  cases hread with
  | lastIndex | lastTerm | currentTerm => trivial
  | prevIndex | prevTerm => exact ⟨htask.1, htask.2.1, trivial⟩
  | entries dst term i t =>
    exact ⟨htask.1, htask.2.1, fun hne => ⟨_, cut_of_read ht htracks hne⟩⟩
  | commitIndex dst term i t es =>
    refine ⟨htask.1, htask.2.1, fun hne => ?_⟩
    obtain ⟨k, ⟨l, hl, hidx, hslice⟩, hown⟩ := htask.2.2 hne
    exact ⟨k, ⟨l, hl, hidx, hslice.start, hslice.stop, hslice.term, hslice.entries⟩,
      fun hlead => ⟨hslice.start, (hown hlead).stop, (hown hlead).term, (hown hlead).entries⟩⟩

include ht in
/-- A node that accepts a request of the leader of its term holds what the request carries. -/
theorem holds_of_accept {src : Str} {req : AppendEntriesRequest} {last : LogEntry}
    (hsrc : id ∈ peersOf ids src) (hcut : req.entries ≠ [] → ∃ k, Cut h (c.nodes src).st req k)
    (hlast : req.entries.getLast? = some last)
    (hsucc : ((c.nodes id).st.handleAppendEntries req).2.success = true)
    (hnode : o.node = (c.nodes id).withState ((c.nodes id).st.handleAppendEntries req).1)
    (hlead : ((c.put id o).nodes src).st.leads req.term) :
    Holds (c.put id o) src id last.index := by
  have hother : src ≠ id := fun heq => (mem_peersOf.mp hsrc).2 heq.symm
  have hne : req.entries ≠ [] := fun h0 => by rw [h0] at hlast; exact absurd hlast (by simp)
  obtain ⟨hterm, hc⟩ := handleAppendEntries_success.mp hsucc
  obtain ⟨k, hk⟩ := hcut hne
  rw [c.put_nodes_ne o hother] at hlead
  have hslice := hk.own hlead
  have hindex : last.index = k := by
    have := hslice.lastNewEntry_eq (ht.node src).indexed
    rwa [State.lastNewEntry, hlast] at this
  have hprev := prefix_of_consistent hslice
    (matching_of_grown (ht.node id).grown (ht.node src).grown)
    (ht.pos (ht.node src).grown) hc
  have hlog := (handleAppendEntries_spec hslice (ht.node src).indexed hterm hc hprev).1
  rw [if_neg hne] at hlog
  have hoffice : o.node.st.currentTerm = req.term := by
    rw [hnode]
    exact congrArg Office.term (office_handleAppendEntries _ hterm)
  refine ⟨?_, ?_, fun _ => ?_⟩
  · rw [c.put_nodes_ne o hother, c.put_nodes_self, hlead.2, hoffice]
  · rw [c.put_nodes_ne o hother, hindex]
    exact hslice.stop
  · rw [c.put_nodes_ne o hother, c.put_nodes_self, hindex, hnode]
    exact hlog ▸ List.prefix_rfl

include hnd hid hlaw ht hmove hcare htracks hnet hext

theorem Packet.Traced.sent {x : Packet} (hx : x ∈ o.packets) : x.Traced ids h' (c.put id o) := by
  cases sent_of_move hmove hx with
  | heartbeatTask peer hpeer =>
    have hlead : (c.nodes id).st.leads (c.nodes id).st.currentTerm := ⟨htracks, rfl⟩
    exact ⟨hpeer, ⟨hext.begun ((ht.node id).begun htracks), (elected_of_leads hlaw hlead).put id o⟩,
      trivial⟩
  | read task next hread =>
    have hnext := traced_of_reads ht hread htracks (ht.net task (hnet task rfl))
    exact hnext.put hnd hid hlaw ht hmove hcare htracks hnet hext
  | appendResp src req =>
    obtain ⟨hdst, hsender, hcut⟩ := ht.net _ (hnet _ rfl)
    refine ⟨hdst, hext.begun hsender.begun, fun hsucc hlead last hlast => ?_⟩
    cases hmove with
    | read _ _ hread => cases hread
    | appendReq => exact holds_of_accept ht hdst hcut hlast hsucc rfl hlead
  | voteTask | voteResp | proposal => trivial

end Packets

/-! ## 5. One event -/

/-- The history after an event that leaves the node in the state `s`: the log of a leader is the
chain of its term. -/
def Chronicle.after (h : Chronicle) (s : State) : Chronicle :=
  if s.state = .leader then h.grow s.currentTerm s.log else h

theorem unborn_after (ht : Tracked ids h c) {s : State}
    (hT : (Chronicle.after h s).start T = none) : (Chronicle.after h s).chain T = [] := by
  unfold Chronicle.after at hT ⊢
  split at hT
  · rename_i hrole
    rw [History.start_grow] at hT
    rw [if_pos hrole, History.chain_grow]
    split at hT
    · exact absurd hT (Option.some_ne_none _)
    · rename_i hne
      rw [if_neg hne]
      exact ht.unborn T hT
  · rename_i hrole
    rw [if_neg hrole]
    exact ht.unborn T hT

theorem chain_after_of_ne {s : State} (hne : s.state = .leader → T ≠ s.currentTerm) :
    (Chronicle.after h s).chain T = h.chain T := by
  unfold Chronicle.after
  split
  · rename_i hrole
    rw [History.chain_grow, if_neg (hne hrole)]
  · rfl

theorem keys_after (ht : Tracked ids h c)
    (hmove : Move id (peersOf ids id) (c.nodes id) e o)
    (hnet : ∀ q, e = .receive q → q ∈ c.net) (hq : q ∈ o.node.st.matchIndex) :
    q ∈ peersOf ids id := by
  cases noted_of_move hmove with
  | keep hkeep => exact (ht.node id).keys q (hkeep ▸ hq)
  | reset hreset =>
    rw [hreset] at hq
    exact (mem_setAll hq).elim (fun hpeer => hpeer) ((ht.node id).keys q)
  | advance src req resp last _ _ _ hadvance =>
    obtain ⟨hsrc, -⟩ := ht.net _ (hnet _ rfl)
    obtain ⟨m, hm⟩ := GoMap.mem_iff_find.mp hq
    rw [hadvance, GoMap.find_insert] at hm
    split at hm
    · rename_i heq
      exact heq ▸ hsrc
    · exact (ht.node id).keys q (GoMap.mem_of_find hm)

/-- A new leader has noted nothing. -/
theorem noted_after_win (ht : Tracked ids h c)
    (hmove : Move id (peersOf ids id) (c.nodes id) e o) (he : e = .tally)
    (hrole : o.node.st.state = .leader)
    (hm : o.node.st.matchIndex.find q = some m) : m = 0 := by
  subst he
  cases hmove with
  | win =>
    change (State.setAll (c.nodes id).st.matchIndex (peersOf ids id) 0).find q = some m at hm
    rw [find_setAll] at hm
    split at hm
    · exact (Option.some.inj hm).symm
    · rename_i hq
      exact absurd ((ht.node id).keys q (GoMap.mem_of_find hm)) hq
  | lose => exact absurd hrole (by simp [Node.silent, Node.goto, Node.withState])

section Event

variable (hnd : ids.Nodup) (hid : id ∈ ids) (hlaw : Lawful ids c)
  (hlaw' : Lawful ids (c.put id o)) (ht : Tracked ids h c)
  (hmove : Move id (peersOf ids id) (c.nodes id) e o)
  (hcare : (c.nodes id).careful (peersOf ids id) e) (htracks : (c.nodes id).tracks e)
  (hnet : ∀ q, e = .receive q → q ∈ c.net)

include hnd hid hlaw ht hmove hcare

theorem extends_after : h.Extends (Chronicle.after h o.node.st) := by
  unfold Chronicle.after
  split
  · rename_i hrole
    refine History.extends_grow ?_
    obtain ⟨hterm, hr | ⟨he, election, T, v, hphase, henough⟩⟩ := leader_of_move hmove hrole
    · rw [hterm, (ht.node id).chain hr]
      exact prefix_of_leader hmove hrole
    · have hnone := (unbegun_of_win hnd hid hlaw ht hmove hcare he hphase henough).1
      rw [hterm, ht.unborn _ hnone]
      exact List.nil_prefix
  · exact .refl h

theorem founded_after (hT : (Chronicle.after h o.node.st).start T ≠ none) :
    Founded ids (c.put id o) T := by
  by_cases hold : h.start T ≠ none
  · exact (ht.founded T hold).put hmove hcare
  · rw [not_not] at hold
    -- a chain is begun only by a node that has just won
    unfold Chronicle.after at hT
    split at hT
    · rename_i hrole
      rw [History.start_grow] at hT
      split at hT
      · rename_i heq
        obtain ⟨hterm, hr | ⟨he, election, T', v, hphase, henough⟩⟩ := leader_of_move hmove hrole
        · rw [heq, hterm] at hold
          exact absurd hold ((ht.node id).begun hr)
        · obtain ⟨-, hin, Q, hQ, hvotes⟩ :=
            unbegun_of_win hnd hid hlaw ht hmove hcare he hphase henough
          have hTn : T = (c.nodes id).st.currentTerm := heq.trans hterm
          refine ⟨hTn ▸ (ht.node id).elections _ hin, id, Q, hQ, fun q hq => ?_, ?_, ?_⟩
          · rw [hTn]
            exact List.mem_append_left _ (hvotes q hq)
          · rw [c.put_nodes_self]
            exact heq.le
          · rw [c.put_nodes_self]
            subst he
            cases hmove with
            | win =>
              rintro (hp | ⟨_, _, _, hp⟩)
              · exact absurd hp (by simp [Node.silent, Node.goto])
              · exact absurd hp (by simp [Node.silent, Node.goto])
            | lose => exact absurd hrole (by simp [Node.silent, Node.goto, Node.withState])
      · exact absurd hold hT
    · exact absurd hold hT

theorem grown_after (htracks : (c.nodes id).tracks e) (hnet : ∀ q, e = .receive q → q ∈ c.net) :
    (Chronicle.after h o.node.st).Grown LogEntry.term o.node.st.log := by
  have hext := extends_after hnd hid hlaw ht hmove hcare
  have hold := (ht.node id).grown.mono hext
  cases edit_of_move hmove with
  | keep log => exact log ▸ hold
  | extend command term office log =>
    obtain ⟨hrole, rfl⟩ : (c.nodes id).st.leads term := htracks
    have hterm : o.node.st.currentTerm = (c.nodes id).st.currentTerm := congrArg Office.term office
    have hafter : Chronicle.after h o.node.st =
        h.grow (c.nodes id).st.currentTerm o.node.st.log := by
      rw [← hterm]
      exact if_pos ((congrArg Office.role office).trans hrole)
    rw [hafter] at hold ⊢
    rw [log] at hold ⊢
    refine hold.concat (History.start_grow_ne_none _ _ _) ?_
    rw [History.chain_grow, if_pos rfl]
    rfl
  | replace src req hterm hc hne _ log =>
    obtain ⟨-, -, hcut⟩ := ht.net _ (hnet _ rfl)
    obtain ⟨k, ⟨l, hl, hidx, hslice⟩, -⟩ := hcut hne
    rw [log, ht.appendEntries_eq hl hidx hslice hc]
    exact (hl.mono hext).take k

theorem grounded_after (htracks : (c.nodes id).tracks e)
    (hnet : ∀ q, e = .receive q → q ∈ c.net) :
    Grounded ids (Chronicle.after h o.node.st) id o.node where
  grown := grown_after hnd hid hlaw ht hmove hcare htracks hnet
  indexed := wellIndexed_of_move hmove (ht.node id).indexed
  begun hrole := by
    rw [Chronicle.after, if_pos hrole]
    exact History.start_grow_ne_none _ _ _
  chain hrole := by
    rw [Chronicle.after, if_pos hrole, History.chain_grow, if_pos rfl]
  elections T hin := by
    rcases inElection_of_move hmove hcare hin with hold | hlt
    · exact (ht.node id).elections T hold
    · omega
  keys q hq := keys_after ht hmove hnet hq

include htracks hnet

/-- What a leader has noted is true after the event. -/
theorem noted_after (hrole : o.node.st.state = .leader)
    (hm : o.node.st.matchIndex.find q = some m) : m = 0 ∨ Holds (c.put id o) id q m := by
  obtain ⟨hterm, hr | ⟨he, -⟩⟩ := leader_of_move hmove hrole
  · have hlead : (c.nodes id).st.leads (c.nodes id).st.currentTerm := ⟨hr, rfl⟩
    have hlead' : ((c.put id o).nodes id).st.leads (c.nodes id).st.currentTerm := by
      rw [c.put_nodes_self]
      exact ⟨hrole, hterm⟩
    have hput : ∀ {q m}, Holds c id q m → Holds (c.put id o) id q m :=
      Holds.put hnd hid hlaw ht hmove hcare htracks hnet ((ht.node id).begun hr) hlead'
    cases noted_of_move hmove with
    | keep hkeep => exact (ht.noted id hr q m (hkeep ▸ hm)).imp_right hput
    | reset hreset => exact .inl (noted_after_win ht hmove rfl hrole hm)
    | advance src req resp last hle hsucc hlast hadvance =>
      rw [hadvance, GoMap.find_insert] at hm
      split at hm
      · rename_i heq
        -- the success is for a request of this term, so it says what it should
        have hne : req.entries ≠ [] := fun h0 => by rw [h0] at hlast; exact absurd hlast (by simp)
        have hT : (c.nodes id).st.currentTerm = req.term := htracks hle hsucc hne hr
        obtain ⟨-, -, hholds⟩ := ht.net _ (hnet _ rfl)
        rw [heq, ← Option.some.inj hm]
        exact .inr (hput (hholds hsucc (hT ▸ hlead) last hlast))
      · exact (ht.noted id hr q m hm).imp_right hput
  · exact .inl (noted_after_win ht hmove he hrole hm)

include hlaw'

/-- **Every event keeps the notes true.** -/
theorem Tracked.move : Tracked ids (Chronicle.after h o.node.st) (c.put id o) := by
  have hext := extends_after hnd hid hlaw ht hmove hcare
  refine ⟨fun p => ?_, fun T hT => founded_after hnd hid hlaw ht hmove hcare hT,
    fun _ => unborn_after ht, fun x hx => ?_, fun p hr q m hm => ?_⟩
  · by_cases hp : p = id
    · subst hp
      rw [c.put_nodes_self]
      exact grounded_after hnd hid hlaw ht hmove hcare htracks hnet
    · rw [c.put_nodes_ne o hp]
      refine (ht.node p).mono hext fun hr => chain_after_of_ne fun hrole heq => hp ?_
      -- two leaders of one term are the same node
      have hother : ((c.put id o).nodes p).st.leads o.node.st.currentTerm := by
        rw [c.put_nodes_ne o hp]
        exact ⟨hr, heq⟩
      have hself : ((c.put id o).nodes id).st.leads o.node.st.currentTerm := by
        rw [c.put_nodes_self]
        exact ⟨hrole, rfl⟩
      exact Elected.unique hnd hlaw' (elected_of_leads hlaw' hother) (elected_of_leads hlaw' hself)
  · rcases List.mem_append.mp hx with hx | hx
    · exact Packet.Traced.put hnd hid hlaw ht hmove hcare htracks hnet (ht.net x hx) hext
    · exact Packet.Traced.sent hnd hid hlaw ht hmove hcare htracks hnet hext hx
  · by_cases hp : p = id
    · subst hp
      rw [c.put_nodes_self] at hr hm
      exact noted_after hnd hid hlaw ht hmove hcare htracks hnet hr hm
    · rw [c.put_nodes_ne o hp] at hr hm
      have hlead : ((c.put id o).nodes p).st.leads (c.nodes p).st.currentTerm := by
        rw [c.put_nodes_ne o hp]
        exact ⟨hr, rfl⟩
      exact (ht.noted p hr q m hm).imp_right
        (Holds.put hnd hid hlaw ht hmove hcare htracks hnet ((ht.node p).begun hr) hlead)

end Event

/-! ## 6. All runs -/

theorem Tracked.step (hids : [] ∉ ids) (hnd : ids.Nodup) {c' : Cluster} {a : Action}
    (ht : Tracked ids h c) (hlaw : Lawful ids c) (hok : Tracking ids c a)
    (hstep : Cluster.step ids c a = some c') : ∃ h', Tracked ids h' c' := by
  have hlaw' := hlaw.step hids hnd hok.1 hstep
  obtain ⟨hid, havail, o, ho, rfl⟩ := Cluster.step_eq_some.mp hstep
  exact ⟨_, Tracked.move hnd hid hlaw hlaw' ht (move_of_step ho) hok.1 hok.2
    (mem_net_of_available havail)⟩

theorem tracked_of_run (hids : [] ∉ ids) (hnd : ids.Nodup)
    (hrun : Lts.Run (Cluster.step ids) (Tracking ids) newCluster c) :
    Lawful ids c ∧ ∃ h, Tracked ids h c := by
  refine hrun.invariant (P := fun c => Lawful ids c ∧ ∃ h, Tracked ids h c)
    ⟨lawful_newCluster ids, newChronicle, tracked_newCluster (fun _ => rfl) fun _ => rfl⟩ ?_
  rintro c a c' ⟨hlaw, h, ht⟩ hok hstep
  exact ⟨hlaw.step hids hnd hok.1 hstep, ht.step hids hnd hlaw hok hstep⟩

/-- **`matchIndex` is sound**, in every run whose events meet the condition: what a leader has
noted of a node that is not in a later term are entries it has, and the node has them too. -/
theorem match_index_sound (hids : [] ∉ ids) (hnd : ids.Nodup)
    (hrun : Lts.Run (Cluster.step ids) (Tracking ids) newCluster c)
    (hlead : (c.nodes p).st.state = .leader) (hm : (c.nodes p).st.matchIndex.find q = some m)
    (hq : (c.nodes q).st.currentTerm ≤ (c.nodes p).st.currentTerm) :
    m ≤ (c.nodes p).st.log.length ∧ ∀ i, 1 ≤ i → i ≤ m →
      Log.get (c.nodes q).st.log i = Log.get (c.nodes p).st.log i := by
  obtain ⟨-, h, ht⟩ := tracked_of_run hids hnd hrun
  rcases ht.noted p hlead q m hm with rfl | hh
  · exact ⟨Nat.zero_le _, fun i h1 h0 => by omega⟩
  · refine ⟨hh.bound, fun i _ hi => ?_⟩
    have hpre := hh.agrees (Nat.le_antisymm hq hh.term)
    have hlen : i ≤ ((c.nodes p).st.log.take m).length := by
      rw [List.length_take]
      exact le_min hi (hi.trans hh.bound)
    rw [Log.get_eq_of_prefix hpre hlen, Log.get_take hi]

/-- Two entries of term 1. -/
def entryX : LogEntry := ⟨1, 1, .command, "x".toList⟩
def entryY : LogEntry := ⟨2, 1, .command, "y".toList⟩

/-- The request of the leader `n1` of term 1 for a node that has nothing yet. -/
def requestOf (entries : List LogEntry) : AppendEntriesRequest := ⟨1, n1, 0, 0, entries, 0⟩

/-- `n1` leads term 1.  It sends its first entry to `n3`, then both; the second request arrives
first and is acknowledged. -/
def acknowledgeTwo : List Action :=
  winElection n1 n3 n2 ++ [⟨n1, .dispatch⟩, ⟨n1, .sendHeartbeats⟩] ++
    proposing n1 1 entryX.command ++ buildAppend n1 n3 (requestOf [entryX]) ++
    proposing n1 1 entryY.command ++ [⟨n1, .sendHeartbeats⟩, ⟨n1, .leaderCheck⟩] ++
    buildAppend n1 n3 (requestOf [entryX, entryY]) ++
    [⟨n3, .receive (.appendReq n1 n3 (requestOf [entryX, entryY]))⟩,
      ⟨n1, .receive (.appendResp n3 n1 (requestOf [entryX, entryY]) ⟨1, true⟩)⟩]

theorem match_index_sound_two_entries :
    ∃ c, Lts.Run (Cluster.step trio) (Tracking trio) newCluster c ∧
      (c.nodes n1).st.state = .leader ∧ (c.nodes n1).st.matchIndex.find n3 = some 2 ∧
      2 ≤ (c.nodes n1).st.log.length ∧ ∀ i, 1 ≤ i → i ≤ 2 →
        Log.get (c.nodes n3).st.log i = Log.get (c.nodes n1).st.log i := by
  obtain ⟨c, hrun, hlead, hm, hterm⟩ : ∃ c,
      Lts.Run (Cluster.step trio) (Tracking trio) newCluster c ∧ (c.nodes n1).st.state = .leader ∧
      (c.nodes n1).st.matchIndex.find n3 = some 2 ∧
      (c.nodes n3).st.currentTerm ≤ (c.nodes n1).st.currentTerm :=
    Lts.exists_run acknowledgeTwo (by decide +kernel)
  exact ⟨c, hrun, hlead, hm,
    match_index_sound (by decide +kernel) (by decide +kernel) hrun hlead hm hterm⟩

/-- **Acknowledged and cut off.**  After `n3` has acknowledged both entries, the first request
arrives: `n3` has one entry left, and `n1` still takes it to have two. -/
theorem matchIndex_after_truncation :
    ∃ c, Lts.Reach (Cluster.step trio) newCluster c ∧ (c.nodes n1).st.state = .leader ∧
      (c.nodes n1).st.matchIndex.find n3 = some 2 ∧
      (c.nodes n3).st.currentTerm ≤ (c.nodes n1).st.currentTerm ∧
      Log.get (c.nodes n3).st.log 2 ≠ Log.get (c.nodes n1).st.log 2 :=
  Lts.exists_reach (acknowledgeTwo ++
    [⟨n3, .receive (.appendReq n1 n3 (requestOf [entryX]))⟩]) (by decide +kernel)

end SkyLock.Raft
