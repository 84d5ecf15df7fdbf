/-
# The session of a connected client

`Client.Connect` opens a session and starts a goroutine that sends a heartbeat every third of the
session's time to live (`pkg/client/client.go`).  A heartbeat that fails is logged and not repeated
before the next tick.  This module puts the goroutine beside the session manager of the server, with
a clock.

The third is taken in WHOLE SECONDS, rounded down.  What is left of the time to live is the margin
for late messages and for heartbeats that fail, and as long as it suffices and nobody closes the
session, the session is not lost (`session_kept`): with the thirty seconds that `Connect` asks for
and the five that it allows for a heartbeat, a heartbeat may fail as long as the next one does not.

Below three seconds a third is no time at all, and `time.NewTicker` panics.  `Connect` runs into
this exactly if the server's maximum is below three seconds (`connect_panics_iff`).

The answer carries the time to live as a floating point number of seconds.  The model divides the
integer number of nanoseconds, which gives the same for every time to live below some days.
-/
import SkyLock.Lib.Run
import SkyLock.Server.Handlers
import SkyLock.Session.Lifecycle

namespace SkyLock.Server

def heartbeat (m : Session.Manager) (sessionID : Str) (now : Int) :
    Session.Manager × Reply String :=
  let r := m.heartbeat sessionID now
  if r.2 then (r.1, .ok 200 "ok") else (r.1, .error 404 "session not found or expired")

/-- The request is one action of the server. -/
theorem step_heartbeat (s : Sys) (sessionID : Str) :
    step s (.heartbeat sessionID) =
      some { s with sessions := (heartbeat s.sessions sessionID s.now).1 } := by
  simp only [step, heartbeat]
  split <;> rfl

end SkyLock.Server

namespace SkyLock.Client

open Session (Lifecycle TimedCall)

/-! ## 1. The system -/

/-- `time.Duration(result.TTL/3) * time.Second`. -/
def heartbeatInterval (ttl : Int) : Int := ttl / (3 * 10 ^ 9) * 10 ^ 9

/-- `time.NewTicker`, which panics if the interval is not positive. -/
def newTicker (interval : Int) : Option Int := if interval ≤ 0 then none else some interval

/-- The next tick after one that was due at `due` and is received at `time`.  The channel of the
ticker holds one tick, and those that came while it was full are lost. -/
def nextTick (due interval time : Int) : Int := due + ((time - due) / interval + 1) * interval

/-- Where the client is. -/
inductive Pc
  /-- The answer to `Connect` is on its way. -/
  | connecting
  /-- The loop waits for the ticker. -/
  | selecting
  /-- A heartbeat is on its way. -/
  | requesting
  /-- The server has handled the heartbeat, and the answer is on its way. -/
  | answering
  deriving DecidableEq

/-- The client and the clock of its ticker. -/
structure Loop where
  ttl : Int
  /-- When the tick is due that the loop waits for or works on; while `Connect` runs, when the
  server has made the session. -/
  due : Int
  /-- While a heartbeat is under way, when the tick after it is due. -/
  next : Int
  /-- How many heartbeats have failed since one was answered.  The code does not count them; the
  count is for the assumption `Timely`. -/
  missed : Nat
  pc : Pc
  deriving DecidableEq

structure Sys where
  server : Lifecycle
  loop : Loop

inductive Action
  /-- Somebody else's call, or the server's own. -/
  | other (a : TimedCall)
  /-- `Connect` returns, and the ticker starts. -/
  | connected (time : Int)
  /-- The loop receives from the ticker and sends a heartbeat. -/
  | tick (time : Int)
  /-- The heartbeat reaches the server. -/
  | arrive (time : Int)
  /-- The answer reaches the loop. -/
  | answered (time : Int)
  /-- `doRequest` returns without an answer: the heartbeat or its answer is lost, or the five
  seconds of its context are over. -/
  | failed (time : Int)

def Action.time : Action → Int
  | other a => a.time
  | connected time | tick time | arrive time | answered time | failed time => time

/-- A step of the client with the session `id`. -/
def step (id : Str) (s : Sys) : Action → Option Sys
  | .other a => (Lifecycle.step s.server a).map fun server => { s with server }
  | .connected time =>
    if s.loop.pc = .connecting ∧ s.server.now ≤ time then
      (newTicker (heartbeatInterval s.loop.ttl)).map fun interval =>
        { server := { s.server with now := time }
          loop := { s.loop with due := time + interval, pc := .selecting } }
    else none
  | .tick time =>
    if s.loop.pc = .selecting ∧ s.loop.due ≤ time ∧ s.server.now ≤ time then
      some ⟨{ s.server with now := time }, { s.loop with
        next := nextTick s.loop.due (heartbeatInterval s.loop.ttl) time
        pc := .requesting }⟩
    else none
  | .arrive time =>
    if s.loop.pc = .requesting then
      (Lifecycle.step s.server ⟨time, .heartbeat id⟩).map fun server =>
        ⟨server, { s.loop with pc := .answering }⟩
    else none
  | .answered time =>
    if s.loop.pc = .answering ∧ s.server.now ≤ time then
      some ⟨{ s.server with now := time }, { s.loop with
        due := s.loop.next, missed := 0, pc := .selecting }⟩
    else none
  | .failed time =>
    -- a heartbeat that comes through later is somebody else's call
    if (s.loop.pc = .requesting ∨ s.loop.pc = .answering) ∧ s.server.now ≤ time then
      some ⟨{ s.server with now := time }, { s.loop with
        due := s.loop.next, missed := s.loop.missed + 1, pc := .selecting }⟩
    else none

/-- The client right after the server has made its session. -/
def connecting (server : Lifecycle) (ttl : Int) : Sys :=
  ⟨server, ⟨ttl, server.now, 0, 0, .connecting⟩⟩

def Action.closes (id : Str) : Action → Bool
  | other ⟨_, .close k⟩ => k = id
  | _ => false

def Action.fails : Action → Bool
  | failed _ => true
  | _ => false

/-- **The timing assumption.**  What is due is over at most `latency` later: the answer to
`Connect`, and the whole exchange of a heartbeat.  At most `n` heartbeats fail in a row.  And nobody
closes the session. -/
def Timely (id : Str) (latency : Int) (n : Nat) (s : Sys) (a : Action) : Prop :=
  a.time ≤ s.loop.due + latency ∧ a.closes id = false ∧ (a.fails = true → s.loop.missed < n)

instance (id : Str) (latency : Int) (n : Nat) (s : Sys) (a : Action) :
    Decidable (Timely id latency n s a) :=
  inferInstanceAs (Decidable (_ ∧ _ ∧ _))

/-! ## 2. What a call does to somebody's clock -/

section Clock

variable {s t : Lifecycle} {a : TimedCall} {id : Str} {ttl last : Int}

/-- **A call leaves a live session alone**, or is its heartbeat. -/
theorem clock_of_step (hknown : s.Known) (hc : s.clock id = some (ttl, last))
    (hlive : a.time - last ≤ ttl) (hclose : a.call ≠ .close id)
    (h : Lifecycle.step s a = some t) :
    (a.call = .heartbeat id ∧ t.clock id = some (ttl, a.time)) ∨
      (a.call ≠ .heartbeat id ∧ t.clock id = s.clock id) := by
  obtain ⟨-, h⟩ := Session.step_eq_some.mp h
  rw [hc]
  obtain ⟨time, call⟩ := a
  obtain ⟨session, hs, heq⟩ := Option.map_eq_some_iff.mp hc
  cases heq
  have hlive' : session.isExpired time = false := by
    rw [Session.isExpired, decide_eq_false_iff_not]
    exact not_lt.mpr hlive
  cases call with
  | create k clientID ttl =>
    obtain ⟨hfresh, h⟩ := Option.ite_none_left_eq_some.mp h
    obtain rfl := Option.some.inj h
    have hne : id ≠ k := by
      rintro rfl
      rw [hknown id (GoMap.find_eq_none.mpr hfresh)] at hs
      cases hs
    exact .inr ⟨by simp, by simp [Lifecycle.clock, Session.Manager.find_create, hne, hs]⟩
  | heartbeat k =>
    obtain rfl := Option.some.inj h
    by_cases hk : id = k
    · subst hk
      exact .inl ⟨rfl, by simp [Lifecycle.clock, Session.Manager.find_heartbeat, hs, hlive']⟩
    · refine .inr ⟨by simp [Ne.symm hk], ?_⟩
      simp [Lifecycle.clock, Session.Manager.find_heartbeat, hk, hs]
  | close k =>
    have hne : id ≠ k := by
      rintro rfl
      exact hclose rfl
    rw [Lifecycle.perform] at h
    refine .inr ⟨by simp, ?_⟩
    split at h
    · obtain rfl := Option.some.inj h
      simp [Lifecycle.clock, Session.Manager.find_close, hne, hs]
    · obtain rfl := Option.some.inj h
      simp [Lifecycle.clock, hs]
  | registerEphemeral k key =>
    obtain rfl := Option.some.inj h
    refine .inr ⟨by simp, ?_⟩
    by_cases hk : id = k
    · subst hk
      simp [Lifecycle.clock, Session.Manager.find_registerEphemeral, hs]
    · simp [Lifecycle.clock, Session.Manager.find_registerEphemeral, hk, hs]
  | checkExpirations order =>
    obtain ⟨hexpiry, h⟩ := Option.ite_none_right_eq_some.mp h
    obtain rfl := Option.some.inj h
    have hout : id ∉ order := by
      rw [Session.mem_order hexpiry]
      rintro ⟨ttl', last', hc', hdue⟩
      cases hc.symm.trans hc'
      exact absurd hlive (not_le.mpr hdue)
    refine .inr ⟨by simp, ?_⟩
    simp [Lifecycle.clock, Session.Manager.find_checkExpirations, hout, hs]

end Clock

/-! ## 3. The invariant -/

/-- **The margin**: what is left of the time to live when `n` heartbeats have failed covers the
delay of the last good one and of the next. -/
structure Margin (ttl latency : Int) (n : Nat) : Prop where
  nonneg : 0 ≤ latency
  prompt : latency < heartbeatInterval ttl
  covers : (n + 1) * heartbeatInterval ttl + 2 * latency ≤ ttl

/-- How long before the tick is due the last heartbeat can have been. -/
def slack (ttl latency : Int) (loop : Loop) : Int :=
  match loop.pc with
  | .connecting | .answering => 0
  | .selecting | .requesting => (loop.missed + 1) * heartbeatInterval ttl + latency

/-- **The invariant**: the last heartbeat is not too old for what is due next. -/
structure Alive (id : Str) (ttl latency : Int) (n : Nat) (s : Sys) : Prop where
  known : s.server.Known
  agreed : s.loop.ttl = ttl
  missed_le : s.loop.missed ≤ n
  begun : s.loop.pc = .requesting → s.loop.due ≤ s.server.now
  next_eq : s.loop.pc = .requesting ∨ s.loop.pc = .answering →
    s.loop.next = s.loop.due + heartbeatInterval ttl
  clock : ∃ last, s.server.clock id = some (ttl, last) ∧ last ≤ s.server.now ∧
    s.server.now - last ≤ ttl ∧ s.loop.due ≤ last + slack ttl latency s.loop

section Alive

variable {s s' : Sys} {a : Action} {id : Str} {ttl latency : Int} {n : Nat}

theorem Margin.interval_pos (hm : Margin ttl latency n) : 0 < heartbeatInterval ttl :=
  hm.nonneg.trans_lt hm.prompt

/-- Each heartbeat that may fail has an interval. -/
theorem Margin.missed_mul_le (hm : Margin ttl latency n) {missed : Nat} (h : missed ≤ n) :
    heartbeatInterval ttl ≤ ((missed : Int) + 1) * heartbeatInterval ttl ∧
      ((missed : Int) + 1) * heartbeatInterval ttl ≤ (n + 1) * heartbeatInterval ttl := by
  have hpos := hm.interval_pos.le
  constructor
  · exact le_mul_of_one_le_left hpos (by omega)
  · exact mul_le_mul_of_nonneg_right (by omega) hpos

/-- What happens in time finds the session alive. -/
theorem Margin.live (hm : Margin ttl latency n) {loop : Loop} {time last : Int}
    (hmissed : loop.missed ≤ n) (hdue : loop.due ≤ last + slack ttl latency loop)
    (htime : time ≤ loop.due + latency) : time - last ≤ ttl := by
  obtain ⟨hone, hall⟩ := hm.missed_mul_le hmissed
  have hpos := hm.interval_pos
  have hnonneg := hm.nonneg
  have hcovers := hm.covers
  rw [slack] at hdue
  split at hdue <;> omega

/-- A tick that is received in time is followed by the next one. -/
theorem Margin.nextTick_eq (hm : Margin ttl latency n) {due time : Int} (hdue : due ≤ time)
    (htime : time ≤ due + latency) :
    nextTick due (heartbeatInterval ttl) time = due + heartbeatInterval ttl := by
  have hprompt := hm.prompt
  rw [nextTick, Int.ediv_eq_zero_of_lt (by omega) (by omega), zero_add, one_mul]

/-- Somebody else's call leaves the session alive. -/
theorem Alive.other (hm : Margin ttl latency n) (h : Alive id ttl latency n s) {a : TimedCall}
    (htime : a.time ≤ s.loop.due + latency) (hclose : a.call ≠ .close id) {server : Lifecycle}
    (hstep : Lifecycle.step s.server a = some server) :
    Alive id ttl latency n { s with server } := by
  obtain ⟨last, hc, hpast, hlive, hdue⟩ := h.clock
  have hage := hm.live h.missed_le hdue htime
  have hnow := Session.now_of_step hstep
  have hle := (Session.step_eq_some.mp hstep).1
  refine ⟨Session.known_of_step h.known hstep, h.agreed, h.missed_le,
    fun hpc => (h.begun hpc).trans (hle.trans hnow.ge), h.next_eq, ?_⟩
  rcases clock_of_step h.known hc hage hclose hstep with ⟨-, hbeat⟩ | ⟨-, hsame⟩
  · exact ⟨a.time, hbeat, hnow.ge, by dsimp only; omega, by dsimp only; omega⟩
  · exact ⟨last, hsame.trans hc, by dsimp only; omega, by dsimp only; omega, hdue⟩

/-- **A heartbeat that may fail.**  The tick after it is one interval later, and so is the slack. -/
theorem Alive.failed (hm : Margin ttl latency n) (h : Alive id ttl latency n s) {time : Int}
    (hpc : s.loop.pc = .requesting ∨ s.loop.pc = .answering) (hle : s.server.now ≤ time)
    (htime : time ≤ s.loop.due + latency) (hmissed : s.loop.missed < n) :
    Alive id ttl latency n ⟨{ s.server with now := time }, { s.loop with
      due := s.loop.next, missed := s.loop.missed + 1, pc := .selecting }⟩ := by
  obtain ⟨last, hc, hpast, hlive, hdue⟩ := h.clock
  obtain ⟨hone, -⟩ := hm.missed_mul_le h.missed_le
  have hpos := hm.interval_pos
  have hnonneg := hm.nonneg
  have hnext := h.next_eq hpc
  have hslack : slack ttl latency s.loop ≤
      (s.loop.missed + 1) * heartbeatInterval ttl + latency := by
    rcases hpc with hpc | hpc <;> simp only [slack, hpc] <;> omega
  refine ⟨h.known, h.agreed, hmissed, by simp, by simp, last, hc, hpast.trans hle,
    hm.live h.missed_le hdue htime, ?_⟩
  simp only [slack, Nat.cast_add, Nat.cast_one]
  rw [add_mul _ 1, one_mul]
  omega

theorem Alive.step (hm : Margin ttl latency n) (h : Alive id ttl latency n s)
    (hok : Timely id latency n s a) (hs : step id s a = some s') : Alive id ttl latency n s' := by
  obtain ⟨last, hc, hpast, hlive, hdue⟩ := h.clock
  obtain ⟨htime, hopen, hfails⟩ := hok
  have hage := hm.live h.missed_le hdue htime
  obtain ⟨hone, hall⟩ := hm.missed_mul_le h.missed_le
  have hpos := hm.interval_pos
  have hnonneg := hm.nonneg
  cases a with
  | other a =>
    obtain ⟨server, hstep, rfl⟩ := Option.map_eq_some_iff.mp hs
    refine h.other hm htime ?_ hstep
    obtain ⟨time, call⟩ := a
    rintro rfl
    simp [Action.closes] at hopen
  | connected time =>
    obtain ⟨⟨hpc, hle⟩, hs⟩ := Option.ite_none_right_eq_some.mp hs
    obtain ⟨interval, hticker, rfl⟩ := Option.map_eq_some_iff.mp hs
    obtain ⟨-, hinterval⟩ := Option.ite_none_left_eq_some.mp hticker
    rw [h.agreed] at hinterval
    cases hinterval
    simp only [slack, hpc] at hdue
    dsimp only [Action.time] at htime hage
    refine ⟨h.known, h.agreed, h.missed_le, by simp, by simp, last, hc, ?_, ?_, ?_⟩ <;>
      dsimp only [slack] <;> omega
  | tick time =>
    obtain ⟨⟨hpc, hnow, hle⟩, hs⟩ := Option.ite_none_right_eq_some.mp hs
    obtain rfl := Option.some.inj hs
    simp only [slack, hpc] at hdue
    dsimp only [Action.time] at hage htime
    refine ⟨h.known, h.agreed, h.missed_le, fun _ => hnow, fun _ => ?_, last, hc, ?_, ?_, hdue⟩
    · rw [h.agreed]
      exact hm.nextTick_eq hnow htime
    · dsimp only
      omega
    · exact hage
  | arrive time =>
    obtain ⟨hpc, hs⟩ := Option.ite_none_right_eq_some.mp hs
    obtain ⟨server, hstep, rfl⟩ := Option.map_eq_some_iff.mp hs
    have hnow := Session.now_of_step hstep
    have hle := (Session.step_eq_some.mp hstep).1
    have hbegun := h.begun hpc
    dsimp only [Action.time] at hage hle hnow
    rcases clock_of_step h.known hc hage (by simp) hstep with ⟨-, hbeat⟩ | ⟨hother, -⟩
    · refine ⟨Session.known_of_step h.known hstep, h.agreed, h.missed_le, by simp,
        fun _ => h.next_eq (.inl hpc), time, hbeat, hnow.ge, ?_, ?_⟩ <;>
        dsimp only [slack] <;> omega
    · exact absurd rfl hother
  | answered time =>
    obtain ⟨⟨hpc, hle⟩, hs⟩ := Option.ite_none_right_eq_some.mp hs
    obtain rfl := Option.some.inj hs
    have hnext := h.next_eq (.inr hpc)
    simp only [slack, hpc] at hdue
    dsimp only [Action.time] at hage
    refine ⟨h.known, h.agreed, Nat.zero_le n, by simp, by simp, last, hc, ?_, ?_, ?_⟩ <;>
      simp only [slack, Nat.cast_zero, zero_add, one_mul] <;> omega
  | failed time =>
    obtain ⟨⟨hpc, hle⟩, hs⟩ := Option.ite_none_right_eq_some.mp hs
    obtain rfl := Option.some.inj hs
    exact h.failed hm hpc hle htime (hfails rfl)

theorem alive_connecting {server₀ server : Lifecycle} {clientID : Str} {time requested : Int}
    (hknown : server₀.Known)
    (hcreate : Lifecycle.step server₀ ⟨time, .create id clientID requested⟩ = some server)
    (hm : Margin (server₀.manager.clampTTL requested) latency n) :
    Alive id (server₀.manager.clampTTL requested) latency n
      (connecting server (server₀.manager.clampTTL requested)) := by
  have hnow : server.now = time := Session.now_of_step hcreate
  have hclock : server.clock id = some (server₀.manager.clampTTL requested, time) := by
    obtain ⟨-, hperform⟩ := Session.step_eq_some.mp hcreate
    obtain ⟨-, hserver⟩ := Option.ite_none_left_eq_some.mp hperform
    rw [← Option.some.inj hserver]
    simp [Lifecycle.clock, Session.Manager.find_create]
  have hlive : server.now - time ≤ server₀.manager.clampTTL requested := by
    have hall := (hm.missed_mul_le (Nat.zero_le n)).2
    have hcovers := hm.covers
    have hpos := hm.interval_pos
    have hnonneg := hm.nonneg
    simp only [Nat.cast_zero, zero_add, one_mul] at hall
    omega
  exact ⟨Session.known_of_step hknown hcreate, rfl, Nat.zero_le n, by simp [connecting],
    by simp [connecting], time, hclock, hnow.ge, hlive, by simp [connecting, slack, hnow]⟩

end Alive

/-! ## 4. The session is kept -/

/-- **A connected client keeps its session.**  A client opens a session at a server in any state
and runs its loop.  If everything is in time, no more than `n` heartbeats fail in a row, the margin
allows for that and nobody closes the session, then at every moment the session is there and has not
expired, and a heartbeat that is in time is accepted. -/
theorem session_kept {defaultTTL maxTTL start time requested latency : Int} {n : Nat}
    {id clientID : Str} {server₀ server : Lifecycle} {s : Sys}
    (hreach : Lts.Reach Lifecycle.step (Session.newLifecycle defaultTTL maxTTL start) server₀)
    (hcreate : Lifecycle.step server₀ ⟨time, .create id clientID requested⟩ = some server)
    (hm : Margin (server₀.manager.clampTTL requested) latency n)
    (hrun : Lts.Run (step id) (Timely id latency n)
      (connecting server (server₀.manager.clampTTL requested)) s) :
    (∃ session, s.server.manager.sessions.find id = some session ∧
      session.isExpired s.server.now = false) ∧
    ∀ now, now ≤ s.loop.due + latency →
      (Server.heartbeat s.server.manager id now).2 = .ok 200 "ok" := by
  have hknown : server₀.Known :=
    hreach.invariant (Session.known_newLifecycle defaultTTL maxTTL start)
      fun _ _ _ h _ hstep => Session.known_of_step h hstep
  have halive := hrun.invariant (alive_connecting hknown hcreate hm)
    fun _ _ _ h hok hstep => h.step hm hok hstep
  obtain ⟨last, hc, -, hlive, hdue⟩ := halive.clock
  obtain ⟨session, hsession, -⟩ := Option.map_eq_some_iff.mp hc
  have hexpired : ∀ now, now - last ≤ server₀.manager.clampTTL requested →
      session.isExpired now = false := by
    intro now hage
    rw [Session.isExpired_of_clock hsession hc, decide_eq_false_iff_not]
    exact not_lt.mpr hage
  refine ⟨⟨session, hsession, hexpired _ hlive⟩, fun now hnow => ?_⟩
  have hnot := hexpired now (hm.live halive.missed_le hdue hnow)
  simp [Server.heartbeat, Session.Manager.heartbeat, hsession, hnot]

/-- The first heartbeat gets no answer in five seconds, and the second takes five to arrive. -/
def firstFails : List Action :=
  [.connected 0, .tick (10 * 10 ^ 9), .failed (15 * 10 ^ 9), .tick (20 * 10 ^ 9),
    .arrive (25 * 10 ^ 9)]

theorem session_kept_firstFails :
    ∃ server s session, Lifecycle.step (Session.newLifecycle (10 * 10 ^ 9) (60 * 10 ^ 9) 0)
        ⟨0, .create "s".toList "alice".toList (30 * 10 ^ 9)⟩ = some server ∧
      Lts.Run (step "s".toList) (Timely "s".toList (5 * 10 ^ 9) 1)
        (connecting server (30 * 10 ^ 9)) s ∧
      s.server.now = 25 * 10 ^ 9 ∧ s.server.manager.sessions.find "s".toList = some session ∧
      session.isExpired s.server.now = false := by
  obtain ⟨server, hcreate⟩ : ∃ server,
      Lifecycle.step (Session.newLifecycle (10 * 10 ^ 9) (60 * 10 ^ 9) 0)
        ⟨0, .create "s".toList "alice".toList (30 * 10 ^ 9)⟩ = some server := ⟨_, rfl⟩
  obtain ⟨s, hrun, hnow⟩ : ∃ s, Lts.Run (step "s".toList) (Timely "s".toList (5 * 10 ^ 9) 1)
      (connecting server (30 * 10 ^ 9)) s ∧ s.server.now = 25 * 10 ^ 9 := by
    cases hcreate
    exact Lts.exists_run firstFails (by decide +kernel)
  obtain ⟨session, hsession, hlive⟩ :=
    (session_kept (.refl _) hcreate ⟨by decide, by decide, by decide⟩ hrun).1
  exact ⟨server, s, session, hcreate, hrun, hnow, hsession, hlive⟩

/-- **When `Connect` panics.**  It asks for thirty seconds; the server grants at most its maximum,
and the ticker of the loop panics exactly if that is below three. -/
theorem connect_panics_iff {m : Session.Manager} (hm : m.defaultTTL ≤ m.maxTTL) (id : Str)
    {clientID : Str} (hclient : clientID ≠ []) (now : Int) :
    ∃ info, (Server.createSession m id clientID 30 now).2 = .ok 201 info ∧
      (newTicker (heartbeatInterval info.ttl) = none ↔ m.maxTTL < 3 * 10 ^ 9) := by
  have hduration : Server.duration 30 (10 ^ 9) = 30 * 10 ^ 9 := by decide
  refine ⟨⟨id, m.clampTTL (30 * 10 ^ 9)⟩, ?_, ?_⟩
  · rw [Server.createSession, if_neg hclient, hduration]
    rfl
  · rw [Server.clampTTL_eq m hm, if_neg (by norm_num), newTicker, heartbeatInterval]
    dsimp only
    rw [ite_eq_left_iff]
    simp only [reduceCtorEq, imp_false, not_not]
    omega

theorem connect_panics_iff_default :
    ∃ info, (Server.createSession Server.defaultSessions "s1".toList "alice".toList 30 0).2 =
        .ok 201 info ∧
      (newTicker (heartbeatInterval info.ttl) = none ↔
        Server.defaultSessions.maxTTL < 3 * 10 ^ 9) :=
  connect_panics_iff (by decide) "s1".toList (by decide) 0

end SkyLock.Client
