/-
# The life of a session

The session manager under any sequence of calls at times that do not go back.  Beside the manager
the system keeps what its answers were: for every session ever created its time to live, the times
of its heartbeats and whether it has been closed (`Record`), and the ids handed to `onExpire`
(`notified`).  A fresh uuid is an id that no earlier session had.

`Fate` says once what a call does to ONE session.  Two results are read off it.

* A session that has left the manager should have been handed to `onExpire` exactly once.  `Close`
  and the sweep do that, but `Heartbeat` drops an expired session without a word
  (`expired_heartbeat_not_notified`): every session is cleaned up once if and only if no heartbeat
  meets its session expired and still in the map (`cleaned_up_once_iff`).
* A session that beats in time is never dropped, the sweep leaves no session that is due, and a
  session that is gone stays gone (`sessions_expire_when_due`).
-/
import SkyLock.Lib.Run
import SkyLock.Session.Manager

namespace SkyLock.Session

/-! ## 1. Calls at times -/

/-- What the callers know of a session: the times of its heartbeats, the latest first, start with
its creation. -/
structure Record where
  ttl : Int
  beats : List Int
  closed : Bool
  deriving DecidableEq

structure Lifecycle where
  manager : Manager
  now : Int
  records : GoMap Str Record
  /-- The ids handed to `onExpire`, called or scheduled. -/
  notified : List Str

def newLifecycle (defaultTTL maxTTL start : Int) : Lifecycle :=
  ⟨newManager defaultTTL maxTTL, start, ∅, []⟩

inductive Call
  | create (id clientID : Str) (ttl : Int)
  | heartbeat (sessionID : Str)
  | close (sessionID : Str)
  | registerEphemeral (sessionID key : Str)
  | checkExpirations (order : List Str)

structure TimedCall where
  time : Int
  call : Call

namespace Lifecycle

/-- Changes the record of a session, if there is one. -/
def amend (records : GoMap Str Record) (id : Str) (f : Record → Record) : GoMap Str Record :=
  match records.find id with
  | some r => records.insert id (f r)
  | none => records

/-- A call at the given time. -/
def perform (s : Lifecycle) (now : Int) : Call → Option Lifecycle
  | .create id clientID ttl =>
    if id ∈ s.records then none
    else
      let r := s.manager.create id clientID ttl now
      some { s with manager := r.1, now, records := s.records.insert id ⟨r.2.ttl, [now], false⟩ }
  | .heartbeat id =>
    let beat : Record → Record := fun r => { r with beats := now :: r.beats }
    some { s with
      manager := (s.manager.heartbeat id now).1, now, records := amend s.records id beat }
  | .close id =>
    match (s.manager.close id).2 with
    | some _ =>
      some { s with
        manager := (s.manager.close id).1
        now
        records := amend s.records id fun r => { r with closed := true }
        notified := s.notified ++ [id] }
    | none => some { s with now }
  | .registerEphemeral id key =>
    some { s with manager := (s.manager.registerEphemeral id key).1, now }
  | .checkExpirations order =>
    if s.manager.IsExpiry now order then
      some { s with
        manager := s.manager.checkExpirations order, now, notified := s.notified ++ order }
    else none

/-- Times do not go back. -/
def step (s : Lifecycle) (a : TimedCall) : Option Lifecycle :=
  if s.now ≤ a.time then s.perform a.time a.call else none

/-- The time to live and the last heartbeat that the manager has for a session. -/
def clock (s : Lifecycle) (id : Str) : Option (Int × Int) :=
  (s.manager.sessions.find id).map fun session => (session.ttl, session.lastHeartbeat)

/-- Only sessions that have been created are in the manager. -/
def Known (s : Lifecycle) : Prop :=
  ∀ id, s.records.find id = none → s.manager.sessions.find id = none

end Lifecycle

open Lifecycle

variable {s t : Lifecycle} {a : TimedCall} {id : Str}

theorem find_amend (records : GoMap Str Record) (id k : Str) (f : Record → Record) :
    (amend records id f).find k = if k = id then (records.find id).map f else records.find k := by
  unfold amend
  cases hr : records.find id with
  | none => exact GoMap.find_eq_ite_of_none hr k
  | some r => exact GoMap.find_insert ..

theorem clock_eq_none : s.clock id = none ↔ id ∉ s.manager.sessions := by
  rw [clock, Option.map_eq_none_iff, GoMap.find_eq_none]

theorem clock_of_unknown (hknown : s.Known) (hr : s.records.find id = none) : s.clock id = none :=
  Option.map_eq_none_iff.mpr (hknown id hr)

theorem close_of_find {session : Session} (h : s.manager.sessions.find id = some session) :
    (s.manager.close id).2 = some session := by
  rw [Manager.close, h]

theorem close_of_none (h : s.manager.sessions.find id = none) : (s.manager.close id).2 = none := by
  rw [Manager.close, h]

/-! ## 2. What a call does to one session -/

/-- **The five things that can happen to a session.** -/
inductive Fate (s : Lifecycle) (a : TimedCall) (t : Lifecycle) (id : Str) : Prop
  | same (clock : t.clock id = s.clock id) (record : t.records.find id = s.records.find id)
    (count : t.notified.count id = s.notified.count id)
  | born (ttl : Int) (fresh : s.records.find id = none) (clock : t.clock id = some (ttl, a.time))
    (record : t.records.find id = some ⟨ttl, [a.time], false⟩)
    (count : t.notified.count id = s.notified.count id)
  | beat (r : Record) (call : a.call = .heartbeat id) (known : s.records.find id = some r)
    (record : t.records.find id = some { r with beats := a.time :: r.beats })
    (clock : t.clock id = (s.clock id).bind fun c =>
      if a.time - c.2 > c.1 then none else some (c.1, a.time))
    (count : t.notified.count id = s.notified.count id)
  | closed (r : Record) (there : s.clock id ≠ none) (known : s.records.find id = some r)
    (gone : t.clock id = none) (record : t.records.find id = some { r with closed := true })
    (count : t.notified.count id = s.notified.count id + 1)
  | swept (ttl last : Int) (there : s.clock id = some (ttl, last)) (due : a.time - last > ttl)
    (gone : t.clock id = none) (record : t.records.find id = s.records.find id)
    (count : t.notified.count id = s.notified.count id + 1)

theorem fate_create {k clientID : Str} {ttl now : Int}
    (h : s.perform now (.create k clientID ttl) = some t) :
    Fate s ⟨now, .create k clientID ttl⟩ t id := by
  simp only [perform, Option.ite_none_left_eq_some] at h
  obtain ⟨hfresh, h⟩ := h
  obtain rfl := Option.some.inj h
  by_cases hid : id = k
  · subst hid
    refine .born (s.manager.clampTTL ttl) (GoMap.find_eq_none.mpr hfresh) ?_ ?_ rfl
    · simp [clock, Manager.find_create]
    · simp [GoMap.find_insert, Manager.create]
  · refine .same ?_ ?_ rfl
    · simp [clock, Manager.find_create, hid]
    · simp [GoMap.find_insert, hid]

theorem fate_heartbeat {k : Str} {now : Int} (hknown : s.Known)
    (h : s.perform now (.heartbeat k) = some t) : Fate s ⟨now, .heartbeat k⟩ t id := by
  obtain rfl := Option.some.inj h
  by_cases hid : id = k
  · subst hid
    cases hr : s.records.find id with
    | none =>
      refine .same ?_ ?_ rfl
      · simp [clock, Manager.find_heartbeat, hknown id hr]
      · simp [find_amend, hr]
    | some r =>
      refine .beat r rfl hr ?_ ?_ rfl
      · simp [find_amend, hr]
      · cases hs : s.manager.sessions.find id with
        | none => simp [clock, Manager.find_heartbeat, hs]
        | some session =>
          by_cases hexp : now - session.lastHeartbeat > session.ttl <;>
            simp [clock, Manager.find_heartbeat, hs, isExpired, hexp]
  · refine .same ?_ ?_ rfl
    · simp [clock, Manager.find_heartbeat, hid]
    · simp [find_amend, hid]

theorem fate_close {k : Str} {now : Int} (hknown : s.Known)
    (h : s.perform now (.close k) = some t) : Fate s ⟨now, .close k⟩ t id := by
  cases hs : s.manager.sessions.find k with
  | none =>
    simp only [perform, close_of_none hs, Option.some.injEq] at h
    subst h
    exact .same rfl rfl rfl
  | some session =>
    simp only [perform, close_of_find hs, Option.some.injEq] at h
    subst h
    by_cases hid : id = k
    · subst hid
      cases hr : s.records.find id with
      | none => exact absurd ((hknown id hr).symm.trans hs) (by simp)
      | some r =>
        refine .closed r ?_ hr ?_ ?_ ?_
        · simp [clock, hs]
        · simp [clock, Manager.find_close]
        · simp [find_amend, hr]
        · simp
    · refine .same ?_ ?_ ?_
      · simp [clock, Manager.find_close, hid]
      · simp [find_amend, hid]
      · simp [Ne.symm hid]

theorem fate_registerEphemeral {k key : Str} {now : Int}
    (h : s.perform now (.registerEphemeral k key) = some t) :
    Fate s ⟨now, .registerEphemeral k key⟩ t id := by
  obtain rfl := Option.some.inj h
  refine .same ?_ rfl rfl
  by_cases hid : id = k
  · subst hid
    cases hs : s.manager.sessions.find id <;> simp [clock, Manager.find_registerEphemeral, hs]
  · simp [clock, Manager.find_registerEphemeral, hid]

theorem mem_order {now : Int} {order : List Str} (h : s.manager.IsExpiry now order) :
    id ∈ order ↔ ∃ ttl last, s.clock id = some (ttl, last) ∧ now - last > ttl := by
  rw [← List.mem_toFinset, h.2, GoMap.mem_keysWhere]
  simp [clock, isExpired]

theorem fate_checkExpirations {order : List Str} {now : Int}
    (h : s.perform now (.checkExpirations order) = some t) :
    Fate s ⟨now, .checkExpirations order⟩ t id := by
  simp only [perform, Option.ite_none_right_eq_some] at h
  obtain ⟨hexp, h⟩ := h
  obtain rfl := Option.some.inj h
  have hcount : order.count id = if id ∈ order then 1 else 0 := hexp.1.count
  by_cases hid : id ∈ order
  · obtain ⟨ttl, last, hclock, hdue⟩ := (mem_order hexp).mp hid
    refine .swept ttl last hclock hdue ?_ rfl ?_
    · simp [clock, Manager.find_checkExpirations, hid]
    · simp [hcount, hid]
  · refine .same ?_ rfl ?_
    · simp [clock, Manager.find_checkExpirations, hid]
    · simp [hcount, hid]

theorem step_eq_some : step s a = some t ↔ s.now ≤ a.time ∧ s.perform a.time a.call = some t :=
  Option.ite_none_right_eq_some

theorem fate_of_step (hknown : s.Known) (h : step s a = some t) (id : Str) : Fate s a t id := by
  obtain ⟨-, h⟩ := step_eq_some.mp h
  obtain ⟨now, call⟩ := a
  cases call with
  | create => exact fate_create h
  | heartbeat => exact fate_heartbeat hknown h
  | close => exact fate_close hknown h
  | registerEphemeral => exact fate_registerEphemeral h
  | checkExpirations => exact fate_checkExpirations h

theorem now_of_step (h : step s a = some t) : t.now = a.time := by
  obtain ⟨-, h⟩ := step_eq_some.mp h
  obtain ⟨now, call⟩ := a
  cases call with
  | create =>
    simp only [perform, Option.ite_none_left_eq_some] at h
    exact (congrArg Lifecycle.now (Option.some.inj h.2)).symm
  | checkExpirations =>
    simp only [perform, Option.ite_none_right_eq_some] at h
    exact (congrArg Lifecycle.now (Option.some.inj h.2)).symm
  | close =>
    simp only [perform] at h
    split at h <;> exact (congrArg Lifecycle.now (Option.some.inj h)).symm
  | heartbeat | registerEphemeral => exact (congrArg Lifecycle.now (Option.some.inj h)).symm

/-- Nothing enters the manager without a record. -/
theorem known_of_step (hknown : s.Known) (h : step s a = some t) : t.Known := by
  intro id hid
  cases fate_of_step hknown h id with
  | same clock record =>
    exact Option.map_eq_none_iff.mp (clock.trans (clock_of_unknown hknown (record ▸ hid)))
  | swept _ _ there _ _ record =>
    exact absurd (there.symm.trans (clock_of_unknown hknown (record ▸ hid))) (by simp)
  | born _ _ _ record | beat _ _ _ record | closed _ _ _ _ record =>
    exact absurd (record.symm.trans hid) (by simp)

theorem known_newLifecycle (defaultTTL maxTTL start : Int) :
    (newLifecycle defaultTTL maxTTL start).Known := fun _ _ => rfl

/-! ## 3. Cleaned up once -/

/-- Whoever has left has been handed to `onExpire` once, and whoever is there has not. -/
def CleanedUpOnce (s : Lifecycle) : Prop :=
  ∀ id ∈ s.records, (id ∉ s.manager.sessions → s.notified.count id = 1) ∧
    (id ∈ s.manager.sessions → s.notified.count id = 0)

/-- The call is not a heartbeat that meets its session expired and still in the map. -/
def InTime (s : Lifecycle) (a : TimedCall) : Prop :=
  ∀ id session, a.call = .heartbeat id → s.manager.sessions.find id = some session →
    session.isExpired a.time = false

/-- The same for every id, with 0 for the ids that nobody has had. -/
structure Settled (s : Lifecycle) : Prop where
  known : s.Known
  fresh : ∀ id, s.records.find id = none → s.notified.count id = 0
  gone : ∀ id r, s.records.find id = some r → s.clock id = none → s.notified.count id = 1
  here : ∀ id, s.clock id ≠ none → s.notified.count id = 0

theorem CleanedUpOnce.of_settled (h : Settled s) : CleanedUpOnce s := by
  intro id hid
  obtain ⟨r, hr⟩ := GoMap.mem_iff_find.mp hid
  refine ⟨fun hout => h.gone id r hr (clock_eq_none.mpr hout), fun hin => h.here id fun hnone => ?_⟩
  exact clock_eq_none.mp hnone hin

theorem isExpired_of_clock {session : Session} {ttl last now : Int}
    (hs : s.manager.sessions.find id = some session) (hc : s.clock id = some (ttl, last)) :
    session.isExpired now = decide (now - last > ttl) := by
  simp only [clock, hs, Option.map_some, Option.some.injEq, Prod.mk.injEq] at hc
  obtain ⟨rfl, rfl⟩ := hc
  rfl

/-- A heartbeat in time leaves the session in the manager. -/
theorem InTime.beat (hok : InTime s a) (hcall : a.call = .heartbeat id) {ttl last : Int}
    (hc : s.clock id = some (ttl, last)) : ¬ a.time - last > ttl := by
  obtain ⟨session, hs, -⟩ := Option.map_eq_some_iff.mp hc
  have hexp := hok id session hcall hs
  rw [isExpired_of_clock hs hc] at hexp
  exact of_decide_eq_false hexp

theorem Settled.step (h : Settled s) (hok : InTime s a) (hstep : Lifecycle.step s a = some t) :
    Settled t := by
  have hfate := fate_of_step h.known hstep
  refine ⟨known_of_step h.known hstep, fun id hr => ?_, fun id r hr hgone => ?_,
    fun id hthere => ?_⟩
  · cases hfate id with
    | same _ record count => rw [count, h.fresh id (record ▸ hr)]
    | swept _ _ there _ _ record =>
      exact absurd (there.symm.trans (clock_of_unknown h.known (record ▸ hr))) (by simp)
    | born _ _ _ record | beat _ _ _ record | closed _ _ _ _ record =>
      exact absurd (record.symm.trans hr) (by simp)
  · cases hfate id with
    | same clock record count => rw [count, h.gone id r (record ▸ hr) (clock ▸ hgone)]
    | born _ _ clock => exact absurd (clock.symm.trans hgone) (by simp)
    | beat r' call known _ clock count =>
      cases hc : s.clock id with
      | none => rw [count, h.gone id r' known hc]
      | some c =>
        have hlive : ¬ a.time - c.2 > c.1 := hok.beat call hc
        rw [clock, hc, Option.bind_some, if_neg hlive] at hgone
        cases hgone
    | closed _ there _ _ _ count => rw [count, h.here id there]
    | swept _ _ there _ _ _ count => rw [count, h.here id (by simp [there])]
  · cases hfate id with
    | same clock _ count => rw [count, h.here id (clock ▸ hthere)]
    | born _ fresh _ _ count => rw [count, h.fresh id fresh]
    | beat _ _ _ _ clock count =>
      rw [count]
      refine h.here id fun hnone => hthere ?_
      rw [clock, hnone, Option.bind_none]
    | closed _ _ _ gone | swept _ _ _ _ gone => exact absurd gone hthere

/-- A late heartbeat leaves a session behind that nobody was told about. -/
theorem not_cleanedUpOnce_of_late (h : Settled s) (hstep : Lifecycle.step s a = some t)
    (hlate : ¬ InTime s a) : ¬ CleanedUpOnce t := by
  simp only [InTime, not_forall, Bool.not_eq_false] at hlate
  obtain ⟨id, session, hcall, hs, hexp⟩ := hlate
  obtain ⟨-, hstep⟩ := step_eq_some.mp hstep
  rw [hcall] at hstep
  obtain rfl := Option.some.inj hstep
  intro hclean
  cases hr : s.records.find id with
  | none => exact absurd ((h.known id hr).symm.trans hs) (by simp)
  | some r =>
    have hrecord := find_amend s.records id id fun r => { r with beats := a.time :: r.beats }
    rw [if_pos rfl, hr] at hrecord
    have hgone : (s.manager.heartbeat id a.time).1.sessions.find id = none := by
      simp [Manager.find_heartbeat, hs, hexp]
    have hone := (hclean id (GoMap.mem_of_find hrecord)).1 (GoMap.find_eq_none.mp hgone)
    have hzero : s.notified.count id = 0 := h.here id (by simp [clock, hs])
    exact absurd (hone.symm.trans hzero) (by decide)

theorem settled_newLifecycle (defaultTTL maxTTL start : Int) :
    Settled (newLifecycle defaultTTL maxTTL start) where
  known := known_newLifecycle defaultTTL maxTTL start
  fresh _ _ := rfl
  gone _ _ hr _ := by simp [newLifecycle] at hr
  here _ h := absurd rfl h

/-- **Every ended session is cleaned up once, exactly if no heartbeat comes too late.**  Along any
list of calls, in every state: a session that was created and has left the manager has been handed
to `onExpire` exactly once, and one that is still there has not; if and only if no call is a
heartbeat for a session that is in the map and has expired. -/
theorem cleaned_up_once_iff (defaultTTL maxTTL start : Int) (calls : List TimedCall) :
    (∀ s ∈ Lts.states step (newLifecycle defaultTTL maxTTL start) calls, CleanedUpOnce s) ↔
      Lts.Meets step InTime (newLifecycle defaultTTL maxTTL start) calls := by
  have hnew := settled_newLifecycle defaultTTL maxTTL start
  refine Lts.forall_states_iff (J := Settled) (fun s a t hs hstep => ⟨?_, ?_⟩) calls hnew
    (.of_settled hnew)
  · constructor
    · intro hclean
      by_contra hlate
      exact not_cleanedUpOnce_of_late hs hstep hlate hclean
    · intro hok
      exact .of_settled (hs.step hok hstep)
  · intro hok
    exact hs.step hok hstep

/-- A session with 10 ns to live. -/
def shortSession : List TimedCall := [⟨0, .create "s".toList "c".toList 10⟩]

/-- **A session nobody is told about.**  It lives 10 ns, beats after 11, and is gone without a call
of `onExpire`; no later sweep will find it. -/
theorem expired_heartbeat_not_notified :
    ∃ s, Lts.Reach step (newLifecycle 10 10 0) s ∧ "s".toList ∈ s.records ∧
      "s".toList ∉ s.manager.sessions ∧ s.notified.count "s".toList = 0 :=
  Lts.exists_reach (shortSession ++ [⟨11, .heartbeat "s".toList⟩]) (by decide +kernel)

/-! ## 4. Expiry in time -/

/-- From the creation over all heartbeats to `now` there is never more than the time to live
between two neighbours. -/
def Record.Regular (r : Record) (now : Int) : Prop :=
  (now :: r.beats).IsChain fun later earlier => later - earlier ≤ r.ttl

theorem Record.Regular.anti {r : Record} {now now' : Int} (h : r.Regular now') (hle : now ≤ now') :
    r.Regular now := by
  unfold Record.Regular at h ⊢
  cases hb : r.beats with
  | nil => simp
  | cons b bs =>
    rw [hb, List.isChain_cons_cons] at h
    rw [List.isChain_cons_cons]
    exact ⟨by omega, h.2⟩

theorem Record.Regular.due {r : Record} {now b : Int} {bs : List Int} (h : r.Regular now)
    (hb : r.beats = b :: bs) : now - b ≤ r.ttl := by
  rw [Record.Regular, hb, List.isChain_cons_cons] at h
  exact h.1

/-- Whoever has not been closed and beats regularly is in the manager, with its last heartbeat. -/
def Kept (s : Lifecycle) : Prop :=
  ∀ id r, s.records.find id = some r → r.closed = false → r.Regular s.now →
    ∃ last rest, r.beats = last :: rest ∧ s.clock id = some (r.ttl, last)

theorem kept_of_step (hknown : s.Known) (h : Kept s) (hstep : step s a = some t) : Kept t := by
  have hle := (step_eq_some.mp hstep).1
  have hnow := now_of_step hstep
  intro id r hr hopen hreg
  rw [hnow] at hreg
  cases fate_of_step hknown hstep id with
  | same clock record =>
    obtain ⟨last, rest, hb, hc⟩ := h id r (record ▸ hr) hopen (hreg.anti hle)
    exact ⟨last, rest, hb, clock.trans hc⟩
  | born ttl _ clock record =>
    obtain rfl := Option.some.inj (hr.symm.trans record)
    exact ⟨a.time, [], rfl, clock⟩
  | beat r' _ known record clock =>
    obtain rfl := Option.some.inj (hr.symm.trans record)
    -- the record before the heartbeat was regular up to now, so the session was still there
    have hreg' : r'.Regular a.time := (List.isChain_cons_cons.mp hreg).2
    obtain ⟨last, rest, hb, hc⟩ := h id r' known hopen (hreg'.anti hle)
    have hdue := hreg'.due hb
    refine ⟨a.time, r'.beats, rfl, ?_⟩
    rw [clock, hc, Option.bind_some, if_neg (by omega)]
  | closed r' _ _ _ record =>
    obtain rfl := Option.some.inj (hr.symm.trans record)
    exact absurd hopen (by simp)
  | swept ttl last there due _ record =>
    obtain ⟨last', rest, hb, hc⟩ := h id r (record ▸ hr) hopen (hreg.anti hle)
    obtain ⟨rfl, rfl⟩ := Prod.mk.inj (Option.some.inj (there.symm.trans hc))
    have hdue := hreg.due hb
    omega

/-- Whoever has been created and is gone stays gone. -/
theorem gone_of_step (hknown : s.Known) (hstep : step s a = some t)
    (h : (∃ r, s.records.find id = some r) ∧ s.clock id = none) :
    (∃ r, t.records.find id = some r) ∧ t.clock id = none := by
  obtain ⟨⟨r, hr⟩, hc⟩ := h
  cases fate_of_step hknown hstep id with
  | same clock record => exact ⟨⟨r, record.trans hr⟩, clock.trans hc⟩
  | born _ fresh => exact absurd (fresh.symm.trans hr) (by simp)
  | beat _ _ _ record clock => exact ⟨⟨_, record⟩, by rw [clock, hc, Option.bind_none]⟩
  | closed _ there => exact absurd hc there
  | swept _ _ there => exact absurd (there.symm.trans hc) (by simp)

/-- After a sweep nobody who is due is left. -/
theorem not_due_of_sweep {now : Int} {order : List Str} {session : Session}
    (hstep : step s ⟨now, .checkExpirations order⟩ = some t)
    (hs : t.manager.sessions.find id = some session) :
    ¬ now - session.lastHeartbeat > session.ttl := by
  obtain ⟨-, hstep⟩ := step_eq_some.mp hstep
  simp only [perform, Option.ite_none_right_eq_some] at hstep
  obtain ⟨hexp, hstep⟩ := hstep
  obtain rfl := Option.some.inj hstep
  intro hdue
  rw [Manager.find_checkExpirations] at hs
  split at hs
  · cases hs
  · rename_i hid
    exact hid ((mem_order hexp).mpr ⟨_, _, by rw [clock, hs]; rfl, hdue⟩)

/-- **Sessions expire exactly when they should.**  In every state of every run:
* a session that has not been closed and whose heartbeats, from its creation up to a time not
  before the last call, are never more than its time to live apart is in the manager;
* right after a sweep no session is in the manager whose last heartbeat is longer ago than that;
* once a session has left, every later `Heartbeat`, `Close` and `RegisterEphemeral` for its id
  returns false. -/
theorem sessions_expire_when_due (defaultTTL maxTTL start : Int)
    (hrun : Lts.Reach step (newLifecycle defaultTTL maxTTL start) s) :
    (∀ id r now, s.records.find id = some r → r.closed = false → s.now ≤ now → r.Regular now →
      id ∈ s.manager.sessions) ∧
    (∀ now order t id session, step s ⟨now, .checkExpirations order⟩ = some t →
      t.manager.sessions.find id = some session → ¬ now - session.lastHeartbeat > session.ttl) ∧
    (∀ t id, Lts.Reach step s t → id ∈ s.records → id ∉ s.manager.sessions →
      ∀ now key, (t.manager.heartbeat id now).2 = false ∧ (t.manager.close id).2 = none ∧
        (t.manager.registerEphemeral id key).2 = false) := by
  obtain ⟨hknown, hkept⟩ := hrun.invariant (P := fun s => s.Known ∧ Kept s)
    ⟨known_newLifecycle defaultTTL maxTTL start, fun id r hr => by simp [newLifecycle] at hr⟩
    fun s a t h _ hstep => ⟨known_of_step h.1 hstep, kept_of_step h.1 h.2 hstep⟩
  refine ⟨fun id r now hr hopen hle hreg => ?_, fun now order t id session => not_due_of_sweep, ?_⟩
  · obtain ⟨last, rest, -, hc⟩ := hkept id r hr hopen (hreg.anti hle)
    by_contra hout
    rw [clock_eq_none.mpr hout] at hc
    cases hc
  · intro t id hrun' hid hout now key
    obtain ⟨-, -, hc⟩ := hrun'.invariant
      (P := fun s => s.Known ∧ (∃ r, s.records.find id = some r) ∧ s.clock id = none)
      ⟨hknown, GoMap.mem_iff_find.mp hid, clock_eq_none.mpr hout⟩
      fun s a t h _ hstep => ⟨known_of_step h.1 hstep, gone_of_step h.1 hstep h.2⟩
    have hnone : t.manager.sessions.find id = none := Option.map_eq_none_iff.mp hc
    refine ⟨?_, close_of_none hnone, ?_⟩
    · rw [Manager.heartbeat, hnone]
    · rw [Manager.registerEphemeral, hnone]

/-- A session that beats after 10 ns is there 10 ns later, and the sweep after 21 takes it. -/
theorem sessions_expire_when_due_once :
    ∃ s t, Lts.Reach step (newLifecycle 10 10 0) s ∧ "s".toList ∈ s.manager.sessions ∧
      step s ⟨21, .checkExpirations ["s".toList]⟩ = some t ∧
      ∀ session, t.manager.sessions.find "s".toList = some session →
        ¬ 21 - session.lastHeartbeat > session.ttl := by
  obtain ⟨s, hrun, hrecord, hnow, hsweep⟩ : ∃ s, Lts.Reach step (newLifecycle 10 10 0) s ∧
      s.records.find "s".toList = some ⟨10, [10, 0], false⟩ ∧ s.now = 10 ∧
      (step s ⟨21, .checkExpirations ["s".toList]⟩).isSome :=
    Lts.exists_reach (shortSession ++ [⟨10, .heartbeat "s".toList⟩]) (by decide +kernel)
  obtain ⟨t, ht⟩ := Option.isSome_iff_exists.mp hsweep
  obtain ⟨hkept, hswept, -⟩ := sessions_expire_when_due 10 10 0 hrun
  refine ⟨s, t, hrun, hkept _ _ 20 hrecord rfl (by omega) ?_, ht, fun session => ?_⟩
  · simp [Record.Regular]
  · exact hswept 21 _ t _ session ht

end SkyLock.Session
