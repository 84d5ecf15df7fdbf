/-
# The session manager

`internal/session/manager.go`: a map from session ids to sessions, each with the time of its last
heartbeat.  A session leaves the map in three ways, and they differ in one point: `Close` and
`checkExpirations` hand it to the `onExpire` callback, `Heartbeat` on an expired session just
DELETES it.

Times and durations are integers (nanoseconds); the clock is an argument of every function that
reads it.  `checkExpirations` ranges over a Go map, so it takes the order in which it meets the
expired sessions as an argument (`IsExpiry`).  A fresh uuid is an argument of `create`.

Left out: logging, `CreatedAt`, which nothing reads, and the background loop, whose ticks are the
calls of `checkExpirations`.
-/
import SkyLock.Lib.Path
import SkyLock.Lib.Map

namespace SkyLock

structure Session where
  id : Str
  clientID : Str
  lastHeartbeat : Int
  ttl : Int
  ephemeralKeys : List Str
  deriving DecidableEq

namespace Session

def isExpired (s : Session) (now : Int) : Bool := now - s.lastHeartbeat > s.ttl

structure Manager where
  sessions : GoMap Str Session
  defaultTTL : Int
  maxTTL : Int

def newManager (defaultTTL maxTTL : Int) : Manager := ⟨∅, defaultTTL, maxTTL⟩

namespace Manager

/-- `Create`'s validation of the requested time to live. -/
def clampTTL (m : Manager) (ttl : Int) : Int :=
  let ttl := if ttl ≤ 0 then m.defaultTTL else ttl
  if ttl > m.maxTTL then m.maxTTL else ttl

def create (m : Manager) (id clientID : Str) (ttl now : Int) : Manager × Session :=
  let session : Session := ⟨id, clientID, now, m.clampTTL ttl, []⟩
  ({ m with sessions := m.sessions.insert id session }, session)

/-- `Heartbeat`: an expired session is deleted on the spot, without any callback. -/
def heartbeat (m : Manager) (sessionID : Str) (now : Int) : Manager × Bool :=
  match m.sessions.find sessionID with
  | none => (m, false)
  | some session =>
    if session.isExpired now then ({ m with sessions := m.sessions.erase sessionID }, false)
    else
      ({ m with sessions := m.sessions.insert sessionID { session with lastHeartbeat := now } },
        true)

/-- `Close`; the result is the session that goes to `onExpire`, or `none` for `false`. -/
def close (m : Manager) (sessionID : Str) : Manager × Option Session :=
  match m.sessions.find sessionID with
  | none => (m, none)
  | some session => ({ m with sessions := m.sessions.erase sessionID }, some session)

def registerEphemeral (m : Manager) (sessionID key : Str) : Manager × Bool :=
  match m.sessions.find sessionID with
  | none => (m, false)
  | some session =>
    let session := { session with ephemeralKeys := session.ephemeralKeys ++ [key] }
    ({ m with sessions := m.sessions.insert sessionID session }, true)

/-- The orders in which `checkExpirations` may meet the expired sessions. -/
def IsExpiry (m : Manager) (now : Int) (order : List Str) : Prop :=
  order.Nodup ∧ order.toFinset = m.sessions.keysWhere fun s => s.isExpired now

instance (m : Manager) (now : Int) (order : List Str) : Decidable (IsExpiry m now order) :=
  inferInstanceAs (Decidable (_ ∧ _))

/-- `checkExpirations`: every session of the order is deleted (and handed to `onExpire`). -/
def checkExpirations (m : Manager) (order : List Str) : Manager :=
  { m with sessions := order.foldl (fun ss id => ss.erase id) m.sessions }

/-! ## The session under an id afterwards -/

section Find

variable (m : Manager) (id k : Str)

theorem find_create (clientID : Str) (ttl now : Int) :
    (m.create id clientID ttl now).1.sessions.find k =
      if k = id then some ⟨id, clientID, now, m.clampTTL ttl, []⟩ else m.sessions.find k :=
  GoMap.find_insert ..

theorem find_heartbeat (now : Int) :
    (m.heartbeat id now).1.sessions.find k =
      if k = id then
        (m.sessions.find id).bind fun session =>
          if session.isExpired now then none else some { session with lastHeartbeat := now }
      else m.sessions.find k := by
  unfold heartbeat
  cases hs : m.sessions.find id with
  | none => exact GoMap.find_eq_ite_of_none hs k
  | some session =>
    dsimp only [Option.bind_some]
    split
    · exact GoMap.find_erase ..
    · exact GoMap.find_insert ..

theorem find_close :
    (m.close id).1.sessions.find k = if k = id then none else m.sessions.find k := by
  unfold close
  cases hs : m.sessions.find id with
  | none => exact GoMap.find_eq_ite_of_none hs k
  | some session => exact GoMap.find_erase ..

theorem find_registerEphemeral (key : Str) :
    (m.registerEphemeral id key).1.sessions.find k =
      if k = id then
        (m.sessions.find id).map fun session =>
          { session with ephemeralKeys := session.ephemeralKeys ++ [key] }
      else m.sessions.find k := by
  unfold registerEphemeral
  cases hs : m.sessions.find id with
  | none => exact GoMap.find_eq_ite_of_none hs k
  | some session => exact GoMap.find_insert ..

theorem find_foldl_erase : ∀ (order : List Str) (ss : GoMap Str Session),
    GoMap.find (order.foldl (fun ss id => ss.erase id) ss) k =
      if k ∈ order then none else ss.find k
  | [], ss => by simp
  | x :: order, ss => by
    rw [List.foldl_cons, find_foldl_erase order, GoMap.find_erase]
    by_cases hx : k = x <;> by_cases ho : k ∈ order <;> simp [hx, ho]

theorem find_checkExpirations (order : List Str) :
    (m.checkExpirations order).sessions.find k =
      if k ∈ order then none else m.sessions.find k := find_foldl_erase k order m.sessions

end Find

/-! ## Which sessions are there afterwards -/

variable {m : Manager} {sid : Str}

theorem mem_create (id clientID : Str) (ttl now : Int) (h : sid ∈ m.sessions) :
    sid ∈ (m.create id clientID ttl now).1.sessions := Finmap.mem_insert.mpr (Or.inr h)

theorem mem_registerEphemeral (id key : Str) (h : sid ∈ m.sessions) :
    sid ∈ (m.registerEphemeral id key).1.sessions := by
  unfold registerEphemeral
  split
  · exact h
  · exact Finmap.mem_insert.mpr (Or.inr h)

/-- `Heartbeat` loses a session only if it is the one that beats, and has expired. -/
theorem mem_heartbeat (id : Str) (now : Int) (h : sid ∈ m.sessions) :
    sid ∈ (m.heartbeat id now).1.sessions ∨
      sid = id ∧ ∃ session, m.sessions.find id = some session ∧ session.isExpired now = true := by
  unfold heartbeat
  split
  · exact Or.inl h
  · rename_i session hs
    by_cases he : session.isExpired now = true
    · rw [if_pos he]
      by_cases hid : sid = id
      · exact Or.inr ⟨hid, session, hs, he⟩
      · exact Or.inl (Finmap.mem_erase.mpr ⟨hid, h⟩)
    · rw [if_neg he]
      exact Or.inl (Finmap.mem_insert.mpr (Or.inr h))

theorem mem_close (id : Str) (h : sid ∈ m.sessions) :
    sid ∈ (m.close id).1.sessions ∨ sid = id ∧ (m.close id).2.isSome = true := by
  unfold close
  split
  · exact Or.inl h
  · by_cases hid : sid = id
    · exact Or.inr ⟨hid, rfl⟩
    · exact Or.inl (Finmap.mem_erase.mpr ⟨hid, h⟩)

theorem mem_checkExpirations (order : List Str) (h : sid ∈ m.sessions) :
    sid ∈ (m.checkExpirations order).sessions ∨ sid ∈ order := by
  by_cases hin : sid ∈ order
  · exact Or.inr hin
  · obtain ⟨session, hs⟩ := GoMap.mem_iff_find.mp h
    have hfind := m.find_checkExpirations sid order
    rw [if_neg hin, hs] at hfind
    exact Or.inl (GoMap.mem_of_find hfind)

end Manager

end Session

end SkyLock
