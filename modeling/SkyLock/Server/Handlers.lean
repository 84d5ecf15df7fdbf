/-
# Handlers of the API, with their answers

Two of the handlers of `internal/api/server.go` here turn a number of the request into the one they
pass on, and both do it in 64-bit arithmetic before anything is checked.

`createSession` multiplies the requested seconds by `10 ^ 9`.  The product wraps around, and the
clamp in the session manager sees what is left: a very long time to live becomes the default, or a
fraction of a second.

`deleteNode` reads the digits of the version into an accumulator that starts at -1, its value for
"any version", and not at 0.  `k` digits of `v` come out as `v - 10 ^ k`, which is negative, and a
negative version is no condition (`parseVersion_itoa`).  So a conditional delete deletes always.

`getLockInfo` puts together what two functions of the lock manager say of a lock's directory.
-/
import SkyLock.Server.Basic

namespace SkyLock.Server

open Store

/-! ## 1. Answers -/

/-- The answer to a request: a status with a body, an error with its message, or none because the
handler has dereferenced a nil pointer. -/
inductive Reply (α : Type)
  | ok (status : Nat) (body : α)
  | error (status : Nat) (message : String)
  | panicked
  deriving DecidableEq

/-! ## 2. `createSession` -/

/-- The body of the answer.  The code converts the time to live to a number of seconds; here it is
the session's own, in nanoseconds. -/
structure SessionInfo where
  sessionID : Str
  ttl : Int
  deriving DecidableEq

def createSession (m : Session.Manager) (id clientID : Str) (ttlSeconds now : Int) :
    Session.Manager × Reply SessionInfo :=
  if clientID = [] then (m, .error 400 "client_id required")
  else
    let ttl := duration ttlSeconds (10 ^ 9)
    let r := m.create id clientID ttl now
    (r.1, .ok 201 ⟨r.2.id, r.2.ttl⟩)

/-- The request is one action of the server. -/
theorem step_createSession (s : Sys) {id : Str} (clientID : Str) (ttlSeconds : Int)
    (hid : id ∉ s.sessions.sessions) :
    step s (.createSession id clientID ttlSeconds) =
      some { s with sessions := (createSession s.sessions id clientID ttlSeconds s.now).1 } := by
  simp only [step, createSession, if_neg hid]
  split <;> rfl

/-- The time to live that a request asks for: the default unless it is positive, and at most the
largest one, in exact arithmetic. -/
def requestedTTL (m : Session.Manager) (ttlSeconds : Int) : Int :=
  if ttlSeconds ≤ 0 then m.defaultTTL else min (ttlSeconds * 10 ^ 9) m.maxTTL

/-- The product fits into 64 bits, or what it wraps to is clamped to the same. -/
def TTLSurvives (m : Session.Manager) (ttlSeconds : Int) : Prop :=
  let nanoseconds := ttlSeconds * 10 ^ 9
  let wrapped := duration ttlSeconds (10 ^ 9)
  (-2 ^ 63 ≤ nanoseconds ∧ nanoseconds < 2 ^ 63) ∨
    (2 ^ 63 ≤ nanoseconds ∧ (m.maxTTL ≤ wrapped ∨ wrapped ≤ 0 ∧ m.defaultTTL = m.maxTTL)) ∨
    (nanoseconds < -2 ^ 63 ∧ (wrapped ≤ 0 ∨ min wrapped m.maxTTL = m.defaultTTL))

theorem duration_of_fits {n unit : Int} (hlow : -2 ^ 63 ≤ n * unit) (hhigh : n * unit < 2 ^ 63) :
    duration n unit = n * unit :=
  Int.bmod_eq_of_le (by omega) (by omega)

theorem clampTTL_eq (m : Session.Manager) (hm : m.defaultTTL ≤ m.maxTTL) (ttl : Int) :
    m.clampTTL ttl = if ttl ≤ 0 then m.defaultTTL else min ttl m.maxTTL := by
  unfold Session.Manager.clampTTL
  dsimp only
  split
  · rw [if_neg (not_lt.mpr hm)]
  · split
    · rename_i hgt
      exact (min_eq_right hgt.le).symm
    · rename_i hle
      exact (min_eq_left (not_lt.mp hle)).symm

theorem clampTTL_duration_iff {m : Session.Manager} (hpos : 0 < m.defaultTTL)
    (hm : m.defaultTTL ≤ m.maxTTL) (hmax : m.maxTTL < 2 ^ 63) (ttlSeconds : Int) :
    m.clampTTL (duration ttlSeconds (10 ^ 9)) = requestedTTL m ttlSeconds ↔
      TTLSurvives m ttlSeconds := by
  rw [clampTTL_eq m hm]
  unfold requestedTTL TTLSurvives
  dsimp only
  by_cases hfits : -2 ^ 63 ≤ ttlSeconds * 10 ^ 9 ∧ ttlSeconds * 10 ^ 9 < 2 ^ 63
  · rw [duration_of_fits hfits.1 hfits.2]
    refine iff_of_true ?_ (.inl hfits)
    have hsign : ttlSeconds * 10 ^ 9 ≤ 0 ↔ ttlSeconds ≤ 0 := by omega
    simp only [hsign]
  · generalize duration ttlSeconds (10 ^ 9) = wrapped
    by_cases hsign : ttlSeconds ≤ 0
    · rw [if_pos hsign]
      split <;> omega
    · -- the product is beyond the largest time to live
      rw [if_neg hsign, min_eq_right (show m.maxTTL ≤ ttlSeconds * 10 ^ 9 by omega)]
      split <;> omega

/-- **When a session gets the time to live that was requested.** -/
theorem session_ttl_iff {m : Session.Manager} (hpos : 0 < m.defaultTTL)
    (hm : m.defaultTTL ≤ m.maxTTL) (hmax : m.maxTTL < 2 ^ 63) (id : Str) {clientID : Str}
    (hclient : clientID ≠ []) (ttlSeconds now : Int) :
    ∃ session, (createSession m id clientID ttlSeconds now).1.sessions.find id = some session ∧
      (createSession m id clientID ttlSeconds now).2 = .ok 201 ⟨id, session.ttl⟩ ∧
      (session.ttl = requestedTTL m ttlSeconds ↔ TTLSurvives m ttlSeconds) := by
  refine ⟨⟨id, clientID, now, m.clampTTL (duration ttlSeconds (10 ^ 9)), []⟩, ?_, ?_,
    clampTTL_duration_iff hpos hm hmax ttlSeconds⟩
  · rw [createSession, if_neg hclient]
    dsimp only
    rw [Session.Manager.find_create, if_pos rfl]
  · rw [createSession, if_neg hclient]
    rfl

/-- The session manager with the times of the default configuration. -/
def defaultSessions : Session.Manager := Session.newManager (10 * 10 ^ 9) (60 * 10 ^ 9)

theorem session_ttl_thirty :
    ∃ session, (createSession defaultSessions "s1".toList "alice".toList 30 0).1.sessions.find
        "s1".toList = some session ∧ session.ttl = 30 * 10 ^ 9 := by
  have hfits : TTLSurvives defaultSessions 30 := .inl (by decide)
  have hclient : "alice".toList ≠ [] := by decide
  obtain ⟨session, hfind, -, hiff⟩ := session_ttl_iff (m := defaultSessions) (by decide) (by decide)
    (by decide) "s1".toList hclient 30 0
  exact ⟨session, hfind, (hiff.mpr hfits).trans (by decide)⟩

/-- The session's time to live after a request for so many seconds. -/
def ttlAfter (ttlSeconds : Int) : Option Int :=
  ((createSession defaultSessions "s1".toList "alice".toList ttlSeconds 0).1.sessions.find
    "s1".toList).map Session.ttl

/-- **The product wraps around**: three hundred years become the ten seconds of the default, six
hundred years become a third of a second, and so does a negative number. -/
theorem session_ttl_wraps :
    (ttlAfter 9223372037 = some (10 * 10 ^ 9) ∧
      requestedTTL defaultSessions 9223372037 = 60 * 10 ^ 9) ∧
    (ttlAfter 18446744074 = some 290448384 ∧
      requestedTTL defaultSessions 18446744074 = 60 * 10 ^ 9) ∧
    ttlAfter (-18446744073) = some 709551616 ∧
      requestedTTL defaultSessions (-18446744073) = 10 * 10 ^ 9 := by
  decide +kernel

/-! ## 3. `deleteNode` -/

/-- The version that `deleteNode` reads out of the query: `int64` arithmetic on the characters. -/
def parseVersion (versionStr : Str) : Int :=
  if versionStr = [] then -1
  else
    versionStr.foldl
      (fun version c => Int.bmod (version * 10 + ((c.toNat : Int) - 48)) (2 ^ 64)) (-1)

def deleteNode (s : Store) (target versionStr : Str) : Store × Reply Unit :=
  match s.delete (nodePath target) (parseVersion versionStr) with
  | .ok s' => (s', .ok 204 ())
  | .error (.err .nodeNotFound) => (s, .error 404 "node not found")
  | .error (.err .versionMismatch) => (s, .error 409 "version mismatch")
  | .error (.err .notEmpty) => (s, .error 400 "node has children")
  | .error (.err e) => (s, .error 500 e.error)
  | .error .nilDereference => (s, .panicked)

/-- The request is one action of the server. -/
theorem step_deleteNode (s : Sys) (target versionStr : Str) :
    (step s (.deleteNode target (parseVersion versionStr))).map (fun s' => s'.lock.store) =
      some (deleteNode s.lock.store target versionStr).1 := by
  simp only [step, Sys.runLock, lockAction, Lock.step, Lock.Sys.runOp, Store.step, deleteNode]
  cases s.lock.store.delete (nodePath target) (parseVersion versionStr) with
  | ok s' => rfl
  | error fault =>
    cases fault with
    | nilDereference => rfl
    | err e => cases e <;> rfl

/-- The loop computes modulo `2 ^ 64`: each digit shifts what was there, the -1 included. -/
theorem foldl_version (digits : Str) (hdigits : ∀ c ∈ digits, Text.IsDigit c) (version : Int) :
    digits.foldl (fun version c => Int.bmod (version * 10 + ((c.toNat : Int) - 48)) (2 ^ 64))
        (Int.bmod version (2 ^ 64)) =
      Int.bmod (version * 10 ^ digits.length + Text.value digits) (2 ^ 64) := by
  induction digits generalizing version with
  | nil => simp
  | cons c digits ih =>
    obtain ⟨d, hd, rfl⟩ := hdigits c List.mem_cons_self
    have hdigit : ((Text.digitChar d).toNat : Int) - 48 = d := by
      rw [Text.toNat_digitChar hd]
      omega
    have hround : Int.bmod (Int.bmod version (2 ^ 64) * 10 + d) (2 ^ 64) =
        Int.bmod (version * 10 + d) (2 ^ 64) := by
      rw [← Int.bmod_add_bmod, Int.bmod_mul_bmod, Int.bmod_add_bmod]
    rw [List.foldl_cons, hdigit, hround,
      ih (fun c hc => hdigits c (List.mem_cons_of_mem _ hc)) (version * 10 + d)]
    congr 1
    rw [Text.value_cons, Text.digitValue_digitChar hd, List.length_cons, pow_succ]
    push_cast
    ring

theorem itoa_ne_nil (v : Nat) : itoa v ≠ [] := by
  intro hnil
  have hvalue := value_itoa v
  rw [hnil, Text.value_nil] at hvalue
  subst hvalue
  exact absurd hnil (by decide)

/-- The digits of `v` are few enough for `v - 10 ^ k` to be in the range of `int64`. -/
theorem pow_length_itoa_le {v : Nat} (hv : v < 2 ^ 63) :
    10 ^ (itoa v).length ≤ v + 2 ^ 63 := by
  have hlength : (itoa v).length ≤ 19 := length_itoa_le (by decide) (by omega)
  rcases hlength.lt_or_eq with hlt | heq
  · have hpow : 10 ^ (itoa v).length ≤ 10 ^ 18 := Nat.pow_le_pow_right (by decide) (by omega)
    omega
  · -- nineteen digits without a leading zero
    have hbig : 10 ^ 18 ≤ v := by
      by_contra hsmall
      have := length_itoa_le (k := 18) (by decide) (Nat.lt_of_not_le hsmall)
      omega
    rw [heq]
    omega

/-- **The digits of `v` are read as `v - 10 ^ k`.** -/
theorem parseVersion_itoa {v : Nat} (hv : v < 2 ^ 63) :
    parseVersion (itoa v) = (v : Int) - 10 ^ (itoa v).length := by
  have hfold := foldl_version (itoa v) (itoa_digits v) (-1)
  rw [show Int.bmod (-1) (2 ^ 64) = -1 from by decide, value_itoa] at hfold
  have hlow : ((10 ^ (itoa v).length : Nat) : Int) ≤ v + 2 ^ 63 := by
    exact_mod_cast pow_length_itoa_le hv
  push_cast at hlow
  rw [parseVersion, if_neg (itoa_ne_nil v), hfold]
  have hrange : -1 * (10 : Int) ^ (itoa v).length + v = v - 10 ^ (itoa v).length := by ring
  have hpos : (0 : Int) < 10 ^ (itoa v).length := by positivity
  rw [hrange]
  exact Int.bmod_eq_of_le (by omega) (by omega)

theorem parseVersion_itoa_neg {v : Nat} (hv : v < 2 ^ 63) : parseVersion (itoa v) < 0 := by
  have hlt := Text.value_lt (itoa_digits v)
  rw [value_itoa] at hlt
  have hlt' : (v : Int) < 10 ^ (itoa v).length := by exact_mod_cast hlt
  rw [parseVersion_itoa hv]
  omega

/-- A conditional delete: the node goes exactly if the version is its own, and otherwise there is a
version mismatch and nothing changes. -/
def HonoursVersion (s : Store) (target : Str) (n : Node) (v : Nat) : Prop :=
  (normalizePath (nodePath target) ∉ (deleteNode s target (itoa v)).1.nodes ↔ v = n.version) ∧
    (v ≠ n.version → deleteNode s target (itoa v) = (s, .error 409 "version mismatch"))

/-- **A conditional delete deletes always**, and so it honours the version exactly if the version
happens to be the right one. -/
theorem deleteNode_unconditional {s : Store} (hs : Lts.Reach Store.step newStore s) {target : Str}
    {n : Node} (hn : s.nodes.find (normalizePath (nodePath target)) = some n)
    (hroot : normalizePath (nodePath target) ≠ root) (hleaf : n.children = []) {v : Nat}
    (hv : v < 2 ^ 63) :
    deleteNode s target (itoa v) = (s.unlink (normalizePath (nodePath target)), .ok 204 ()) ∧
      normalizePath (nodePath target) ∉ (deleteNode s target (itoa v)).1.nodes ∧
      (HonoursVersion s target n v ↔ v = n.version) := by
  have hdel := delete_of_matches (tree_of_reach hs) hn hroot
    (versionMatches_of_neg (parseVersion_itoa_neg hv) n) hleaf
  have hreply : deleteNode s target (itoa v) =
      (s.unlink (normalizePath (nodePath target)), .ok 204 ()) := by
    rw [deleteNode, hdel]
  have hgone : normalizePath (nodePath target) ∉ (deleteNode s target (itoa v)).1.nodes := by
    rw [hreply]
    exact Finmap.notMem_erase_self
  refine ⟨hreply, hgone, fun h => h.1.mp hgone, fun heq => ⟨?_, fun hne => absurd heq hne⟩⟩
  exact iff_of_true hgone heq

theorem deleteNode_unconditional_matching :
    ∃ s n, Lts.Reach Store.step newStore s ∧
      s.nodes.find (normalizePath (nodePath "a".toList)) = some n ∧ n.version = 1 ∧
      HonoursVersion s "a".toList n 1 := by
  obtain ⟨s, hs, hn⟩ : ∃ s, Lts.Reach Store.step newStore s ∧
      s.nodes.find (normalizePath (nodePath "a".toList)) =
        some (freshNode newStore "/a".toList [] false [] false) :=
    Lts.exists_reach [.create "/a".toList [] false [] false] (by decide +kernel)
  exact ⟨s, _, hs, hn, rfl,
    (deleteNode_unconditional hs hn (by decide) rfl (by decide)).2.2.mpr rfl⟩

/-- **A node of version 1 is deleted by a request that asks for version 7.** -/
theorem deleteNode_ignores_version :
    ∃ s, Lts.Reach Store.step newStore s ∧
      (s.nodes.find (normalizePath (nodePath "a".toList))).map Node.version = some 1 ∧
      (deleteNode s "a".toList "7".toList).2 = .ok 204 () ∧
      normalizePath (nodePath "a".toList) ∉ (deleteNode s "a".toList "7".toList).1.nodes :=
  Lts.exists_reach [.create "/a".toList [] false [] false] (by decide +kernel)

/-! ## 4. `getLockInfo` -/

/-- The body of the answer. -/
structure LockInfo where
  name : Str
  locked : Bool
  holder : Str
  queueLength : Nat
  deriving DecidableEq

def getLockInfo (s : Store) (lockName : Str) : Reply LockInfo :=
  match Lock.getLockHolder s lockName with
  | .error e => .error 500 e.error
  | .ok holder => .ok 200 ⟨lockName, holder ≠ [], holder, Lock.getQueueLength s lockName⟩

end SkyLock.Server
