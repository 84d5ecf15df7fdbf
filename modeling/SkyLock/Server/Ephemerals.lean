/-
# Ephemeral nodes and their sessions

An ephemeral node should not outlive its session.  Two things break that here.  `Heartbeat` on an
expired session deletes it without calling `onExpire`, so nobody ever deletes its nodes
(`orphan_after_heartbeat`); and neither `createNode` nor `TryLock` looks whether the session
exists, `RegisterEphemeral`'s answer being ignored.

`Attended` excludes exactly these two: an ephemeral node is only created for a session that is in
the manager (or whose clean-up is still pending), and an expired session that beats has no nodes.
Under it every ephemeral node has its session in the manager, or the callback that will delete
it on the way (`Covered`).
-/
import SkyLock.Store.Closure
import SkyLock.Server.Basic

namespace SkyLock.Server

open Store

variable {s s' : Sys} {a : Action} {st st' : Store} {sid : Str}

/-! ## 1. Orphans -/

/-- Every ephemeral node carries the id of a session that is in the manager. -/
def NoOrphans (s : Sys) : Prop :=
  ∀ k n, s.lock.store.nodes.find k = some n → n.ephemeral = true →
    n.sessionID ∈ s.sessions.sessions

/-- A client makes an ephemeral node, is late with its next heartbeat and sends it. -/
def lateHeartbeat : List Action :=
  [.createSession "s1".toList "alice".toList 10,
    .createNode "e".toList [] true false "s1".toList,
    .registerEphemeral "s1".toList "/e".toList, .tick (11 * 10 ^ 9), .heartbeat "s1".toList]

theorem orphan_after_heartbeat :
    ¬ ∀ s, Lts.Reach step (newServer (30 * 10 ^ 9) (300 * 10 ^ 9) 0) s → s.expiring = [] →
      NoOrphans s := by
  intro hall
  obtain ⟨s, hrun, hexp, hgone, heph, hsid⟩ : ∃ s,
      Lts.Reach step (newServer (30 * 10 ^ 9) (300 * 10 ^ 9) 0) s ∧ s.expiring = [] ∧
      "s1".toList ∉ s.sessions.sessions ∧
      (s.lock.store.nodes.find "/e".toList).map Node.ephemeral = some true ∧
      (s.lock.store.nodes.find "/e".toList).map Node.sessionID = some "s1".toList :=
    Lts.exists_reach lateHeartbeat (by decide +kernel)
  rw [Option.map_eq_some_iff] at heph hsid
  obtain ⟨n, hn, heph⟩ := heph
  obtain ⟨n', hn', hsid⟩ := hsid
  obtain rfl : n = n' := Option.some.inj (hn.symm.trans hn')
  have hin := hall s hrun hexp _ n hn heph
  rw [hsid] at hin
  exact hgone hin

/-! ## 2. The store operation of a server step -/

/-- The store operation that an action makes, if it makes one. -/
def Sys.op? (s : Sys) (a : Action) : Option StoreOp := (lockAction a).bind s.lock.op?

theorem store_runLock {t : Sys} (ht : t.lock = s.lock) (h : t.runLock a = some s') :
    Lock.Leaves s.lock.store s'.lock.store (s.op? a) ∧ s'.sessions = t.sessions ∧
      s'.expiring = t.expiring := by
  unfold Sys.runLock at h
  unfold Sys.op?
  split at h
  · rename_i la hla
    rw [Option.map_eq_some_iff] at h
    obtain ⟨l, hl, rfl⟩ := h
    rw [hla, Option.bind_some]
    rw [ht] at hl
    exact ⟨Lock.store_of_step hl, rfl, rfl⟩
  · rename_i hla
    obtain rfl := Option.some.inj h
    rw [hla, Option.bind_none]
    exact ⟨congrArg Lock.Sys.store ht, rfl, rfl⟩

/-- The sessions whose nodes are looked after: those in the manager, and those whose clean-up is
pending. -/
def Sys.Keeps (s : Sys) (sid : Str) : Prop := sid ∈ s.sessions.sessions ∨ sid ∈ s.expiring

instance (s : Sys) (sid : Str) : Decidable (s.Keeps sid) := inferInstanceAs (Decidable (_ ∨ _))

/-- A step that only runs the lock system keeps all sessions. -/
theorem keeps_runLock {t : Sys} (h : t.runLock a = some s') (hlock : t.lock = s.lock)
    (hsessions : t.sessions = s.sessions) (hexpiring : t.expiring = s.expiring) :
    Lock.Leaves s.lock.store s'.lock.store (s.op? a) ∧ ∀ sid, s.Keeps sid → s'.Keeps sid := by
  obtain ⟨hst, hss, hex⟩ := store_runLock hlock h
  refine ⟨hst, fun sid hk => ?_⟩
  unfold Sys.Keeps
  rw [hss, hex, hsessions, hexpiring]
  exact hk

/-- **One step, as far as nodes and sessions go.**  The store changes by the step's operation, and
a session is dropped only by its own late heartbeat or after its clean-up. -/
theorem step_keeps (h : step s a = some s') :
    Lock.Leaves s.lock.store s'.lock.store (s.op? a) ∧
      ∀ sid, s.Keeps sid → s'.Keeps sid ∨
        (a = .heartbeat sid ∧
          ∃ session, s.sessions.sessions.find sid = some session ∧
            session.isExpired s.now = true) ∨
        ∃ order, a = .onExpire sid order := by
  cases a with
  | tick now =>
    simp only [step, Option.ite_none_right_eq_some, Option.some.injEq] at h
    obtain ⟨-, rfl⟩ := h
    exact ⟨rfl, fun sid hk => Or.inl hk⟩
  | createSession id clientID ttlSeconds =>
    simp only [step] at h
    split at h
    · obtain rfl := Option.some.inj h
      exact ⟨rfl, fun sid hk => Or.inl hk⟩
    · simp only [Option.ite_none_left_eq_some, Option.some.injEq] at h
      obtain ⟨-, rfl⟩ := h
      refine ⟨rfl, fun sid hk => Or.inl ?_⟩
      rcases hk with hk | hk
      · exact Or.inl (Session.Manager.mem_create _ _ _ _ hk)
      · exact Or.inr hk
  | heartbeat sessionID =>
    obtain rfl := Option.some.inj h
    refine ⟨rfl, fun sid hk => ?_⟩
    rcases hk with hk | hk
    · rcases Session.Manager.mem_heartbeat sessionID s.now hk with hk' | ⟨rfl, session, hs, he⟩
      · exact Or.inl (Or.inl hk')
      · exact Or.inr (Or.inl ⟨rfl, session, hs, he⟩)
    · exact Or.inl (Or.inr hk)
  | closeSession sessionID =>
    simp only [step] at h
    split at h
    · rename_i sessions session hc
      obtain rfl := Option.some.inj h
      refine ⟨rfl, fun sid hk => Or.inl ?_⟩
      rcases hk with hk | hk
      · rcases Session.Manager.mem_close sessionID hk with hk' | ⟨rfl, -⟩
        · rw [hc] at hk'
          exact Or.inl hk'
        · exact Or.inr (List.mem_append_right _ (List.mem_singleton.mpr rfl))
      · exact Or.inr (List.mem_append_left _ hk)
    · obtain rfl := Option.some.inj h
      exact ⟨rfl, fun sid hk => Or.inl hk⟩
  | checkExpirations order =>
    simp only [step, Option.ite_none_right_eq_some, Option.some.injEq] at h
    obtain ⟨-, rfl⟩ := h
    refine ⟨rfl, fun sid hk => Or.inl ?_⟩
    rcases hk with hk | hk
    · rcases Session.Manager.mem_checkExpirations order hk with hk' | hk'
      · exact Or.inl hk'
      · exact Or.inr (List.mem_append_right _ hk')
    · exact Or.inr (List.mem_append_left _ hk)
  | onExpire sessionID order =>
    simp only [step, Option.ite_none_right_eq_some] at h
    obtain ⟨-, h⟩ := h
    obtain ⟨hst, hss, hex⟩ := store_runLock rfl h
    refine ⟨hst, fun sid hk => ?_⟩
    by_cases hsid : sid = sessionID
    · exact Or.inr (Or.inr ⟨order, by rw [hsid]⟩)
    · refine Or.inl ?_
      unfold Sys.Keeps
      rw [hss, hex]
      rcases hk with hk | hk
      · exact Or.inl hk
      · exact Or.inr ((List.mem_erase_of_ne hsid).mpr hk)
  | registerEphemeral sessionID key =>
    simp only [step, Option.ite_none_right_eq_some, Option.some.injEq] at h
    obtain ⟨-, rfl⟩ := h
    refine ⟨rfl, fun sid hk => Or.inl ?_⟩
    rcases hk with hk | hk
    · exact Or.inl (Session.Manager.mem_registerEphemeral _ _ hk)
    · exact Or.inr hk
  | inner la =>
    simp only [step, Option.ite_none_right_eq_some] at h
    obtain ⟨hst, hk⟩ := keeps_runLock h.2 rfl rfl rfl
    exact ⟨hst, fun sid h => Or.inl (hk sid h)⟩
  | createNode | setNode | deleteNode | acquireLock | releaseLock =>
    simp only [step] at h
    obtain ⟨hst, hk⟩ := keeps_runLock h rfl rfl rfl
    exact ⟨hst, fun sid h => Or.inl (hk sid h)⟩

/-! ## 3. The condition, and what it guarantees -/

/-- The operation does not create an ephemeral node, or the node's session is looked after. -/
def OpAttended (s : Sys) : StoreOp → Prop
  | .create p d true sid sq =>
    s.Keeps sid ∨ ((s.lock.store.create p d true sid sq).2.toOption).isNone = true
  | _ => True

/-- A heartbeat that comes too late finds no node of its session. -/
def BeatAttended (s : Sys) : Action → Prop
  | .heartbeat sid => (s.sessions.sessions.find sid).any (fun se => se.isExpired s.now) = true →
      s.lock.store.nodes.keysWhere (ownedBy sid) = ∅
  | _ => True

/-- No ephemeral node is made without its session, and no session is dropped without its nodes. -/
def Attended (s : Sys) (a : Action) : Prop := (∀ op ∈ s.op? a, OpAttended s op) ∧ BeatAttended s a

instance (s : Sys) : DecidablePred (OpAttended s) := by
  intro op
  unfold OpAttended
  split <;> infer_instance

instance (s : Sys) : DecidablePred (BeatAttended s) := by
  intro a
  unfold BeatAttended
  split <;> infer_instance

instance (s : Sys) (a : Action) : Decidable (Attended s a) := inferInstanceAs (Decidable (_ ∧ _))

structure Covered (s : Sys) : Prop where
  tree : Tree s.lock.store
  kept : ∀ {k n}, s.lock.store.nodes.find k = some n → n.ephemeral = true → s.Keeps n.sessionID

/-- Where an ephemeral node after a step comes from: it was there, or an attended operation made
it. -/
theorem Covered.origin (h : Covered s) (hok : ∀ op ∈ s.op? a, OpAttended s op)
    (hst : Lock.Leaves s.lock.store st' (s.op? a)) {k : Str} {n' : Node}
    (hn' : st'.nodes.find k = some n') (heph : n'.ephemeral = true) :
    s.Keeps n'.sessionID := by
  cases hop : s.op? a with
  | none =>
    rw [hop] at hst
    rw [show st' = s.lock.store from hst] at hn'
    exact h.kept hn' heph
  | some op =>
    rw [hop] at hst hok
    rcases h.tree.step_origin hst hn' with ⟨n, hn, hsame, -⟩ | ⟨p, d, eph, sid, sq, rfl, hmade, rfl⟩
    · rw [hsame.sessionID]
      rw [hsame.ephemeral] at heph
      exact h.kept hn heph
    · obtain rfl : eph = true := heph
      rcases hok _ rfl with hk | hnone
      · exact hk
      · rw [hmade] at hnone
        exact absurd hnone (by simp [Except.toOption])

theorem Covered.step (h : Covered s) (hok : Attended s a) (hs : step s a = some s') :
    Covered s' := by
  obtain ⟨hst, hkeep⟩ := step_keeps hs
  refine ⟨?_, ?_⟩
  · cases hop : s.op? a with
    | none =>
      rw [hop] at hst
      rw [show s'.lock.store = s.lock.store from hst]
      exact h.tree
    | some op =>
      rw [hop] at hst
      exact h.tree.step hst
  · intro k n' hn' heph
    have hk := h.origin hok.1 hst hn' heph
    rcases hkeep _ hk with hk' | ⟨rfl, session, hses, hexp⟩ | ⟨order, rfl⟩
    · exact hk'
    · -- a late heartbeat: the node would be one of the session's, and there are none
      have hnone := hok.2 (by rw [hses]; exact hexp)
      have hsame : s'.lock.store = s.lock.store := hst
      rw [hsame] at hn'
      have hmem : k ∈ s.lock.store.nodes.keysWhere (ownedBy n'.sessionID) :=
        GoMap.mem_keysWhere.mpr ⟨n', hn', by simp [ownedBy, heph]⟩
      rw [hnone] at hmem
      exact absurd hmem (Finset.notMem_empty k)
    · -- a clean-up: the node would have been deleted
      have hst' : Store.step s.lock.store (.deleteEphemerals n'.sessionID order) =
          some s'.lock.store := hst
      rcases h.tree.step_origin hst' hn' with ⟨n, hn, hsame, -⟩ | ⟨_, _, _, _, _, hop, -, -⟩
      · have hdel : Deletes s.lock.store k (.deleteEphemerals n'.sessionID order) :=
          ⟨n, hn, hsame.ephemeral ▸ heph, hsame.sessionID.symm⟩
        rw [gone_of_deletes hst' hdel] at hn'
        exact absurd hn' (by simp)
      · exact absurd hop (by simp)

/-- **No orphaned ephemerals as long as sessions are attended to.**  In every run from main's
initial state whose steps all meet `Attended`, in every state with no expiry callback pending,
every ephemeral node carries the id of a session in the manager. -/
theorem no_orphaned_ephemerals {defaultTTL maxTTL now : Int}
    (hrun : Lts.Run step Attended (newServer defaultTTL maxTTL now) s) (hexp : s.expiring = []) :
    NoOrphans s := by
  have h₀ : Covered (newServer defaultTTL maxTTL now) := by
    refine ⟨tree_newStore, ?_⟩
    intro k n hn heph
    have hn₀ : newStore.nodes.find k = some n := hn
    rw [newStore, GoMap.find_singleton] at hn₀
    split at hn₀
    · rw [← Option.some.inj hn₀] at heph
      exact absurd heph (by decide)
    · exact absurd hn₀ (by simp)
  have h : Covered s := hrun.invariant h₀ fun s a t hc hok hs => hc.step hok hs
  intro k n hn heph
  rcases h.kept hn heph with hk | hk
  · exact hk
  · rw [hexp] at hk
    exact absurd hk List.not_mem_nil

/-- A session with a node and a lock ends by a timely expiry: the clean-up removes both. -/
theorem no_orphaned_ephemerals_expiry :
    ∃ s, Lts.Run step Attended (newServer (30 * 10 ^ 9) (300 * 10 ^ 9) 0) s ∧
      "/locks/x/lock-0000000001".toList ∉ s.lock.store.nodes ∧
      (s.lock.store.nodes.find "/f".toList).map Node.ephemeral = some true ∧ NoOrphans s := by
  obtain ⟨s, hrun, hexp, hgone, hf⟩ : ∃ s,
      Lts.Run step Attended (newServer (30 * 10 ^ 9) (300 * 10 ^ 9) 0) s ∧ s.expiring = [] ∧
      "/locks/x/lock-0000000001".toList ∉ s.lock.store.nodes ∧
      (s.lock.store.nodes.find "/f".toList).map Node.ephemeral = some true :=
    Lts.exists_run [.createNode "locks".toList [] false false [],
      .createSession "s1".toList "alice".toList 10, .createSession "s2".toList "bob".toList 60,
      .acquireLock 0 "x".toList "alice".toList "s1".toList 0, .inner (.advance 0),
      .inner (.advance 0), .inner (.advance 0), .inner (.advance 0),
      .createNode "/f".toList [] true false "s2".toList, .tick (11 * 10 ^ 9),
      .checkExpirations ["s1".toList],
      .onExpire "s1".toList ["/locks/x/lock-0000000001".toList]] (by decide +kernel)
  exact ⟨s, hrun, hgone, hf, no_orphaned_ephemerals hrun hexp⟩

end SkyLock.Server
