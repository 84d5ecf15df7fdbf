/-
# The watch manager

`internal/watch/watcher.go`: a map from paths to lists of watchers, each with a channel of ten
slots.  A watcher leaves the map in two ways, by `Unwatch` and, if it is not persistent, by the
first event on its path; both CLOSE its channel.  Sending on a closed channel and closing one twice
are panics in Go, and so they are outcomes here (`Panic`), to be ruled out.

The lists hold pointers.  A pointer is the watcher's id here, and what it points to is in `heap`,
which keeps every watcher that `Watch` ever returned; a fresh uuid is an id that is not in it.  A
watcher carries its channel: what is in the buffer, whether it is closed, and what its client has
received so far.

`Watcher.next` says what each action should do to ONE watcher, without any map, list or loop.  The
code does exactly that to every watcher, and keeps the open ones in the lists (`Effect`,
`effect_of_step`).  So the channels are used safely (`watch_channels_safe`).

Left out: the texts of the event types and the logging that prints them.
-/
import SkyLock.Lib.Map
import SkyLock.Lib.Run
import SkyLock.Lib.Text

namespace SkyLock.Watch

/-! ## 1. Events, watchers and the manager -/

inductive EventType
  | created
  | deleted
  | dataChanged
  | childrenChanged
  deriving DecidableEq

structure Event where
  id : Str
  type : EventType
  path : Str
  data : Str
  version : Nat
  deriving DecidableEq

/-- A watcher and its channel. -/
structure Watcher where
  path : Str
  persistent : Bool
  triggered : Bool
  buffer : List Event
  closed : Bool
  /-- What the client has taken out of the channel. -/
  received : List Event
  deriving DecidableEq

abbrev Heap := GoMap Str Watcher

structure Manager where
  watchers : GoMap Str (List Str)
  heap : Heap

def newManager : Manager := ⟨∅, ∅⟩

/-- How the runtime stops a goroutine. -/
inductive Panic
  | sendOnClosed
  | closeOfClosed
  | nilDereference
  deriving DecidableEq

/-- The size of an event channel. -/
def capacity : Nat := 10

namespace Watcher

/-- A send that does not block: into the buffer, or nowhere if it is full. -/
def accept (w : Watcher) (event : Event) : Watcher :=
  if w.buffer.length < capacity then { w with buffer := w.buffer ++ [event] } else w

/-- To be removed after this event? -/
def oneShot (w : Watcher) : Bool := !w.persistent && !w.triggered

/-- The body of the first loop of `TriggerEvent`. -/
def notified (w : Watcher) (event : Event) : Watcher :=
  if w.oneShot then { w.accept event with triggered := true } else w.accept event

/-- The client takes an event out of the channel, if there is one. -/
def receive (w : Watcher) : Watcher :=
  match w.buffer with
  | e :: rest => { w with buffer := rest, received := w.received ++ [e] }
  | [] => w

def shut (w : Watcher) : Watcher := { w with closed := true }

end Watcher

/-! ## 2. The operations -/

namespace Manager

def watch (m : Manager) (id path : Str) (persistent : Bool) : Manager where
  watchers := m.watchers.insert path ((m.watchers.find path).getD [] ++ [id])
  heap := m.heap.insert id ⟨path, persistent, false, [], false, []⟩

/-- Go's `close`. -/
def closeChannel (heap : Heap) (id : Str) : Except Panic Heap :=
  match heap.find id with
  | none => .error .nilDereference
  | some w => if w.closed then .error .closeOfClosed else .ok (heap.insert id w.shut)

/-- Cleans up an empty path. -/
def prune (watchers : GoMap Str (List Str)) (path : Str) : GoMap Str (List Str) :=
  if (watchers.find path).getD [] = [] then watchers.erase path else watchers

def unwatch (m : Manager) (id : Str) : Except Panic Manager :=
  match m.heap.find id with
  | none => .error .nilDereference
  | some watcher =>
    match m.watchers.find watcher.path with
    | none => .ok m
    | some ids =>
      if id ∈ ids then
        match closeChannel m.heap id with
        | .error e => .error e
        | .ok heap => .ok ⟨prune (m.watchers.insert watcher.path (ids.erase id)) watcher.path, heap⟩
      else .ok ⟨prune m.watchers watcher.path, m.heap⟩

/-- The first loop of `TriggerEvent`: sends to every watcher, and collects those to remove. -/
def notify (event : Event) : Heap → List Str → Except Panic (Heap × List Str)
  | heap, [] => .ok (heap, [])
  | heap, id :: ids =>
    match heap.find id with
    | none => .error .nilDereference
    | some w =>
      if w.closed then .error .sendOnClosed
      else
        match notify event (heap.insert id (w.notified event)) ids with
        | .error e => .error e
        | .ok (heap, toRemove) => .ok (heap, if w.oneShot then id :: toRemove else toRemove)

/-- The second loop: closes and takes out of the list whatever has been collected. -/
def discard : List Str → Heap → List Str → Except Panic (List Str × Heap)
  | ids, heap, [] => .ok (ids, heap)
  | ids, heap, id :: toRemove =>
    if id ∈ ids then
      match closeChannel heap id with
      | .error e => .error e
      | .ok heap => discard (ids.erase id) heap toRemove
    else discard ids heap toRemove

def triggerEvent (m : Manager) (event : Event) : Except Panic Manager :=
  match m.watchers.find event.path with
  | none => .ok m
  | some ids =>
    match notify event m.heap ids with
    | .error e => .error e
    | .ok (heap, toRemove) =>
      match discard ids heap toRemove with
      | .error e => .error e
      | .ok (ids, heap) => .ok ⟨prune (m.watchers.insert event.path ids) event.path, heap⟩

def receive (m : Manager) (id : Str) : Manager :=
  match m.heap.find id with
  | some w => { m with heap := m.heap.insert id w.receive }
  | none => m

def getWatchCount (m : Manager) (path : Str) : Nat := ((m.watchers.find path).getD []).length

def getTotalWatchCount (m : Manager) : Nat := ∑ path ∈ m.watchers.keys, m.getWatchCount path

end Manager

inductive Action
  | watch (id path : Str) (persistent : Bool)
  | unwatch (id : Str)
  | trigger (event : Event)
  | receive (id : Str)

/-- One call.  `Unwatch` is called with a watcher that `Watch` has returned; a call that panics does
not return. -/
def step (m : Manager) : Action → Option Manager
  | .watch id path persistent =>
    if id ∈ m.heap then none else some (m.watch id path persistent)
  | .unwatch id => if id ∈ m.heap then (m.unwatch id).toOption else none
  | .trigger event => (m.triggerEvent event).toOption
  | .receive id => some (m.receive id)

/-! ## 3. One watcher -/

/-- What an event on its path does to a watcher. -/
def Watcher.fire (w : Watcher) (event : Event) : Watcher :=
  if w.persistent then w.accept event else { w.accept event with triggered := true, closed := true }

/-- **What an action does to the watcher `id`.** -/
def Watcher.next (id : Str) (w : Watcher) : Action → Watcher
  | .watch _ _ _ => w
  | .unwatch id' => if id' = id then w.shut else w
  | .trigger event => if w.closed = false ∧ event.path = w.path then w.fire event else w
  | .receive id' => if id' = id then w.receive else w

namespace Watcher

variable (w : Watcher) (event : Event) (id : Str) (a : Action)

@[simp] theorem accept_path : (w.accept event).path = w.path := by
  unfold accept
  split <;> rfl

@[simp] theorem accept_persistent : (w.accept event).persistent = w.persistent := by
  unfold accept
  split <;> rfl

@[simp] theorem accept_closed : (w.accept event).closed = w.closed := by
  unfold accept
  split <;> rfl

@[simp] theorem accept_triggered : (w.accept event).triggered = w.triggered := by
  unfold accept
  split <;> rfl

@[simp] theorem notified_closed : (w.notified event).closed = w.closed := by
  unfold notified
  split <;> simp

@[simp] theorem fire_path : (w.fire event).path = w.path := by
  unfold fire
  split <;> simp

@[simp] theorem fire_persistent : (w.fire event).persistent = w.persistent := by
  unfold fire
  split <;> simp

@[simp] theorem receive_path : w.receive.path = w.path := by
  unfold receive
  split <;> rfl

@[simp] theorem receive_persistent : w.receive.persistent = w.persistent := by
  unfold receive
  split <;> rfl

@[simp] theorem receive_closed : w.receive.closed = w.closed := by
  unfold receive
  split <;> rfl

theorem next_unwatch (id' : Str) :
    w.next id (.unwatch id') = if id' = id then w.shut else w := rfl

theorem next_trigger : w.next id (.trigger event) =
    if w.closed = false ∧ event.path = w.path then w.fire event else w := rfl

theorem next_receive (id' : Str) :
    w.next id (.receive id') = if id' = id then w.receive else w := rfl

@[simp] theorem next_path : (w.next id a).path = w.path := by
  cases a <;> simp only [next] <;> split <;> simp [shut]

@[simp] theorem next_persistent : (w.next id a).persistent = w.persistent := by
  cases a <;> simp only [next] <;> split <;> simp [shut]

/-- A channel is not opened again. -/
theorem next_closed (h : w.closed = true) : (w.next id a).closed = true := by
  cases a <;> simp only [next] <;> first | exact h | (split <;> simp_all [shut])

/-- A watcher that waits for its only event has not been triggered. -/
def Waiting : Prop := w.closed = false → w.persistent = false → w.triggered = false

variable {w}

theorem Waiting.next (h : w.Waiting) : (w.next id a).Waiting := by
  unfold Waiting at h ⊢
  cases a with
  | watch => exact h
  | unwatch id' =>
    simp only [Watcher.next]
    split
    · simp [shut]
    · exact h
  | trigger e =>
    simp only [Watcher.next]
    split
    · unfold fire
      split
      · simpa using h
      · simp
    · exact h
  | receive id' =>
    simp only [Watcher.next, receive]
    split
    · split <;> exact h
    · exact h

/-- The two loops of `TriggerEvent` together fire a watcher that waits. -/
theorem fire_eq (h : w.Waiting) (hopen : w.closed = false) :
    w.fire event = if w.oneShot then (w.notified event).shut else w.notified event := by
  unfold fire notified oneShot
  cases hp : w.persistent with
  | true => simp
  | false => simp [h hopen hp, shut]

end Watcher

/-! ## 4. The loops -/

section Loops

variable {heap : Heap} {ids toRemove : List Str} {event : Event} {id : Str} {w : Watcher}

/-- The pointer is valid and the channel open. -/
def IsOpen (heap : Heap) (id : Str) : Prop := ∃ w, heap.find id = some w ∧ w.closed = false

/-- Is the watcher to be removed after its next event? -/
def oneShotAt (heap : Heap) (id : Str) : Bool := (heap.find id).any Watcher.oneShot

theorem closeChannel_of_isOpen (h : IsOpen heap id) :
    ∃ heap', Manager.closeChannel heap id = .ok heap' ∧
      ∀ k, heap'.find k = if k = id then (heap.find id).map Watcher.shut else heap.find k := by
  obtain ⟨w, hw, hopen⟩ := h
  refine ⟨heap.insert id w.shut, ?_, fun k => ?_⟩
  · simp [Manager.closeChannel, hw, hopen]
  · rw [GoMap.find_insert, hw, Option.map_some]

/-- **The first loop** sends to every watcher of the list and collects the one-shot ones. -/
theorem notify_spec (event : Event) : ∀ (ids : List Str) (heap : Heap), ids.Nodup →
    (∀ id ∈ ids, IsOpen heap id) →
    ∃ heap', Manager.notify event heap ids = .ok (heap', ids.filter (oneShotAt heap)) ∧
      ∀ k, heap'.find k =
        if k ∈ ids then (heap.find k).map fun w => w.notified event else heap.find k := by
  intro ids
  induction ids with
  | nil =>
    intro heap _ _
    exact ⟨heap, rfl, by simp⟩
  | cons id ids ih =>
    intro heap hnd hopen
    obtain ⟨hid, hnd⟩ := List.nodup_cons.mp hnd
    obtain ⟨w, hw, hclosed⟩ := hopen id List.mem_cons_self
    have hfind : ∀ k, GoMap.find (heap.insert id (w.notified event)) k =
        if k = id then some (w.notified event) else heap.find k := fun k => GoMap.find_insert ..
    have hother : ∀ k ∈ ids, GoMap.find (heap.insert id (w.notified event)) k = heap.find k := by
      intro k hk
      have hne : k ≠ id := fun h => hid (h ▸ hk)
      rw [hfind, if_neg hne]
    obtain ⟨heap', hnotify, hheap'⟩ := ih (heap.insert id (w.notified event)) hnd fun k hk => by
      obtain ⟨w', hw', hc'⟩ := hopen k (List.mem_cons_of_mem _ hk)
      exact ⟨w', (hother k hk).trans hw', hc'⟩
    have hfilter : ids.filter (oneShotAt (heap.insert id (w.notified event))) =
        ids.filter (oneShotAt heap) :=
      List.filter_congr fun k hk => by rw [oneShotAt, oneShotAt, hother k hk]
    have hshot : oneShotAt heap id = w.oneShot := by rw [oneShotAt, hw, Option.any_some]
    refine ⟨heap', ?_, fun k => ?_⟩
    · simp only [Manager.notify, hw, hclosed, hnotify, hfilter, List.filter_cons, hshot]
      simp
    · rw [hheap' k, hfind]
      by_cases hk : k = id
      · subst hk
        simp [hid, hw]
      · simp [hk]

/-- **The second loop** closes what has been collected and takes it out of the list. -/
theorem discard_spec : ∀ (toRemove ids : List Str) (heap : Heap), toRemove.Nodup → ids.Nodup →
    (∀ id ∈ toRemove, id ∈ ids ∧ IsOpen heap id) →
    ∃ heap', Manager.discard ids heap toRemove = .ok (ids.filter (· ∉ toRemove), heap') ∧
      ∀ k, heap'.find k = if k ∈ toRemove then (heap.find k).map Watcher.shut else heap.find k := by
  intro toRemove
  induction toRemove with
  | nil =>
    intro ids heap _ _ _
    exact ⟨heap, by simp [Manager.discard], by simp⟩
  | cons id toRemove ih =>
    intro ids heap hnd hids hopen
    obtain ⟨hid, hnd⟩ := List.nodup_cons.mp hnd
    obtain ⟨hmem, hopenid⟩ := hopen id List.mem_cons_self
    obtain ⟨heap₁, hclose, hheap₁⟩ := closeChannel_of_isOpen hopenid
    have hrest : ∀ k ∈ toRemove, k ∈ ids.erase id ∧ IsOpen heap₁ k := by
      intro k hk
      have hne : k ≠ id := fun h => hid (h ▸ hk)
      obtain ⟨hkids, w, hw, hc⟩ := hopen k (List.mem_cons_of_mem _ hk)
      exact ⟨(List.mem_erase_of_ne hne).mpr hkids, w, by rw [hheap₁, if_neg hne, hw], hc⟩
    obtain ⟨heap', hdiscard, hheap'⟩ := ih (ids.erase id) heap₁ hnd (hids.erase id) hrest
    refine ⟨heap', ?_, fun k => ?_⟩
    · have hfilter : (ids.erase id).filter (· ∉ toRemove) = ids.filter (· ∉ id :: toRemove) := by
        rw [hids.erase_eq_filter, List.filter_filter]
        refine List.filter_congr fun k _ => ?_
        by_cases hk : k = id <;> simp [hk]
      rw [Manager.discard, if_pos hmem, hclose]
      dsimp only
      rw [hdiscard, hfilter]
    · rw [hheap' k, hheap₁ k]
      by_cases hk : k = id
      · subst hk
        simp [hid]
      · simp [hk]

end Loops

/-! ## 5. The manager -/

/-- The watchers of a path. -/
def Manager.listAt (m : Manager) (path : Str) : List Str := (m.watchers.find path).getD []

/-- **The invariant.**  The open watchers are exactly the listed ones, each once and under its own
path, and no path has an empty list. -/
structure Sound (m : Manager) : Prop where
  proper : ∀ path, m.watchers.find path ≠ some []
  nodup : ∀ path, (m.listAt path).Nodup
  listed : ∀ path id, id ∈ m.listAt path ↔
    ∃ w, m.heap.find id = some w ∧ w.closed = false ∧ w.path = path
  waiting : ∀ id w, m.heap.find id = some w → w.Waiting

/-- **What an action does to the watchers that exist**, and to the lists. -/
structure Effect (m : Manager) (a : Action) (m' : Manager) : Prop where
  heap : ∀ id, m'.heap.find id = (m.heap.find id).map fun w => w.next id a
  list : ∀ path, m'.listAt path = (m.listAt path).filter fun id =>
    (m'.heap.find id).any fun w => !w.closed
  proper : ∀ path, m'.watchers.find path ≠ some []

section Lists

variable {m m' : Manager} {path : Str} {a : Action} {event : Event} {id : Str} {w : Watcher}

theorem find_prune (watchers : GoMap Str (List Str)) (path p : Str) :
    (Manager.prune watchers path).find p =
      if p = path ∧ (watchers.find path).getD [] = [] then none else watchers.find p := by
  unfold Manager.prune
  split
  · rename_i h
    rw [GoMap.find_erase]
    simp [h]
  · rename_i h
    simp [h]

theorem listAt_prune (watchers : GoMap Str (List Str)) (heap : Heap) (path p : Str) :
    (Manager.mk (Manager.prune watchers path) heap).listAt p = (watchers.find p).getD [] := by
  simp only [Manager.listAt, find_prune]
  split
  · rename_i h
    simp [h.1, h.2]
  · rfl

theorem prune_proper {watchers : GoMap Str (List Str)}
    (h : ∀ p, p ≠ path → watchers.find p ≠ some []) (p : Str) :
    (Manager.prune watchers path).find p ≠ some [] := by
  rw [find_prune]
  split
  · simp
  · rename_i hne
    by_cases hp : p = path
    · subst hp
      intro hnil
      exact hne ⟨rfl, by rw [hnil]; rfl⟩
    · exact h p hp

/-- A list keeps what is still open. -/
theorem Sound.filter_eq_self (h : Sound m) {heap : Heap}
    (hsame : ∀ id ∈ m.listAt path, heap.find id = m.heap.find id) :
    (m.listAt path).filter (fun id => (heap.find id).any fun w => !w.closed) = m.listAt path := by
  refine List.filter_eq_self.mpr fun id hid => ?_
  obtain ⟨w, hw, hopen, -⟩ := (h.listed path id).mp hid
  rw [hsame id hid, hw]
  simp [hopen]

theorem Sound.of_effect (h : Sound m) (he : Effect m a m') : Sound m' where
  proper := he.proper
  nodup path := he.list path ▸ (h.nodup path).filter _
  listed path id := by
    rw [he.list path, List.mem_filter, h.listed path id, he.heap id]
    cases hw : m.heap.find id with
    | none => simp
    | some w =>
      simp only [Option.some.injEq, exists_eq_left', Option.map_some, Option.any_some,
        Watcher.next_path, Bool.not_eq_true']
      constructor
      · rintro ⟨⟨-, hp⟩, hc⟩
        exact ⟨hc, hp⟩
      · rintro ⟨hc, hp⟩
        refine ⟨⟨?_, hp⟩, hc⟩
        by_contra hclosed
        rw [Bool.not_eq_false] at hclosed
        exact absurd (w.next_closed id a hclosed) (by simp [hc])
  waiting id w' hw' := by
    rw [he.heap id, Option.map_eq_some_iff] at hw'
    obtain ⟨w, hw, rfl⟩ := hw'
    exact Watcher.Waiting.next id a (h.waiting id w hw)

/-- An action that changes no watcher and no list. -/
theorem Effect.of_same (h : Sound m)
    (hsame : ∀ id w, m.heap.find id = some w → w.next id a = w) : Effect m a m := by
  refine ⟨fun id => ?_, fun path => (h.filter_eq_self fun _ _ => rfl).symm, h.proper⟩
  cases hw : m.heap.find id with
  | none => rfl
  | some w => rw [Option.map_some, hsame id w hw]

/-- An action that changes watchers of one path only, and takes the closed ones out of its list. -/
theorem Effect.of_path (h : Sound m) {heap : Heap} {ids : List Str}
    (hheap : ∀ id, heap.find id = (m.heap.find id).map fun w => w.next id a)
    (hframe : ∀ id w, m.heap.find id = some w → w.closed = false → w.path ≠ path →
      w.next id a = w)
    (hids : ids = (m.listAt path).filter fun id => (heap.find id).any fun w => !w.closed) :
    Effect m a ⟨Manager.prune (m.watchers.insert path ids) path, heap⟩ := by
  refine ⟨hheap, fun p => ?_, prune_proper fun p hp => ?_⟩
  · rw [listAt_prune, GoMap.find_insert]
    by_cases hp : p = path
    · subst hp
      rw [if_pos rfl, Option.getD_some, hids]
    · rw [if_neg hp]
      refine (h.filter_eq_self fun id hid => ?_).symm
      obtain ⟨w, hw, hopen, rfl⟩ := (h.listed p id).mp hid
      rw [hheap, hw, Option.map_some, hframe id w hw hopen hp]
  · rw [GoMap.find_insert, if_neg hp]
    exact h.proper p

theorem listAt_of_find {ids : List Str} (h : m.watchers.find path = some ids) :
    m.listAt path = ids := by
  rw [Manager.listAt, h, Option.getD_some]

theorem Sound.notMem_of_none (h : Sound m) (hnone : m.watchers.find path = none)
    (hw : m.heap.find id = some w) (hpath : w.path = path) : w.closed = true := by
  by_contra hopen
  rw [Bool.not_eq_true] at hopen
  have hmem := (h.listed path id).mpr ⟨w, hw, hopen, hpath⟩
  simp [Manager.listAt, hnone] at hmem

/-! ### The four actions -/

theorem effect_receive (h : Sound m) (id : Str) : Effect m (.receive id) (m.receive id) := by
  have hheap : ∀ k, (m.receive id).heap.find k =
      (m.heap.find k).map fun w => w.next k (.receive id) := by
    intro k
    unfold Manager.receive
    cases hw : m.heap.find id with
    | none =>
      by_cases hk : k = id
      · subst hk
        simp [hw]
      · simp [Watcher.next, Ne.symm hk]
    | some w =>
      dsimp only
      rw [GoMap.find_insert]
      by_cases hk : k = id
      · subst hk
        simp [hw, Watcher.next]
      · simp [hk, Watcher.next, Ne.symm hk]
  have hwatchers : (m.receive id).watchers = m.watchers := by
    unfold Manager.receive
    split <;> rfl
  refine ⟨hheap, fun path => ?_, fun path => hwatchers ▸ h.proper path⟩
  rw [Manager.listAt, hwatchers]
  refine (List.filter_eq_self.mpr fun k hk => ?_).symm
  obtain ⟨w, hw, hopen, -⟩ := (h.listed path k).mp hk
  rw [hheap k, hw]
  simp only [Option.map_some, Option.any_some, Watcher.next]
  split <;> simp [hopen]

/-- `Unwatch` of a watcher that is closed already changes nothing. -/
theorem unwatch_of_closed (h : Sound m) (hw : m.heap.find id = some w) (hclosed : w.closed = true) :
    m.unwatch id = .ok m := by
  have hid : id ∉ m.listAt w.path := by
    intro hid
    obtain ⟨w', hw', hopen, -⟩ := (h.listed _ _).mp hid
    obtain rfl := Option.some.inj (hw.symm.trans hw')
    exact absurd hclosed (by simp [hopen])
  simp only [Manager.unwatch, hw]
  cases hf : m.watchers.find w.path with
  | none => rfl
  | some ids =>
    have hne : ids ≠ [] := fun h0 => h.proper w.path (h0 ▸ hf)
    rw [listAt_of_find hf] at hid
    simp [hid, Manager.prune, hf, hne]

/-- **`Unwatch`** closes the channel if it is open. -/
theorem effect_unwatch (h : Sound m) (hw : m.heap.find id = some w) :
    ∃ m', m.unwatch id = .ok m' ∧ Effect m (.unwatch id) m' := by
  cases hc : w.closed with
  | true =>
    refine ⟨m, unwatch_of_closed h hw hc, .of_same h fun k v hv => ?_⟩
    simp only [Watcher.next]
    split
    · rename_i hk
      subst hk
      obtain rfl := Option.some.inj (hw.symm.trans hv)
      rw [Watcher.shut, ← hc]
    · rfl
  | false =>
    have hid := (h.listed w.path id).mpr ⟨w, hw, hc, rfl⟩
    obtain ⟨ids, hids⟩ : ∃ ids, m.watchers.find w.path = some ids := by
      by_contra hnone
      rw [← Option.ne_none_iff_exists', not_not] at hnone
      simp [Manager.listAt, hnone] at hid
    have hlist := listAt_of_find hids
    rw [hlist] at hid
    obtain ⟨heap', hclose, hheap'⟩ := closeChannel_of_isOpen ⟨w, hw, hc⟩
    refine ⟨⟨Manager.prune (m.watchers.insert w.path (ids.erase id)) w.path, heap'⟩, ?_,
      .of_path h (fun k => ?_) (fun k v hv _ hpath => ?_) ?_⟩
    · simp [Manager.unwatch, hw, hids, hid, hclose]
    · rw [hheap']
      by_cases hk : k = id
      · subst hk
        simp [Watcher.next]
      · simp [hk, Watcher.next, Ne.symm hk]
    · have hk : id ≠ k := by
        rintro rfl
        obtain rfl := Option.some.inj (hw.symm.trans hv)
        exact hpath rfl
      simp [Watcher.next, hk]
    · have hnd := h.nodup w.path
      rw [hlist] at hnd ⊢
      rw [hnd.erase_eq_filter]
      refine List.filter_congr fun k hk => ?_
      obtain ⟨v, hv, hopen, -⟩ := (h.listed w.path k).mp (hlist ▸ hk)
      rw [hheap']
      by_cases hkid : k = id
      · subst hkid
        simp [hw, Watcher.shut]
      · simp [hkid, hv, hopen]

/-- **`TriggerEvent`** fires every open watcher of the path. -/
theorem effect_trigger (h : Sound m) (event : Event) :
    ∃ m', m.triggerEvent event = .ok m' ∧ Effect m (.trigger event) m' := by
  cases hf : m.watchers.find event.path with
  | none =>
    refine ⟨m, by simp [Manager.triggerEvent, hf], .of_same h fun k w hw => ?_⟩
    simp only [Watcher.next]
    split
    · rename_i hc
      exact absurd (h.notMem_of_none hf hw hc.2.symm) (by simp [hc.1])
    · rfl
  | some ids =>
    have hlist := listAt_of_find hf
    have hnd := h.nodup event.path
    rw [hlist] at hnd
    have hlisted : ∀ k, k ∈ ids ↔ ∃ w, m.heap.find k = some w ∧ w.closed = false ∧
        w.path = event.path := fun k => hlist ▸ h.listed event.path k
    have hopen : ∀ k ∈ ids, IsOpen m.heap k := by
      intro k hk
      obtain ⟨w, hw, hc, -⟩ := (hlisted k).mp hk
      exact ⟨w, hw, hc⟩
    obtain ⟨heap₁, hnotify, hheap₁⟩ := notify_spec event ids m.heap hnd hopen
    have hopen₁ : ∀ k ∈ ids.filter (oneShotAt m.heap), k ∈ ids ∧ IsOpen heap₁ k := by
      intro k hk
      have hkids := (List.mem_filter.mp hk).1
      obtain ⟨w, hw, hopen, -⟩ := (hlisted k).mp hkids
      refine ⟨hkids, w.notified event, ?_, by simp [hopen]⟩
      rw [hheap₁, if_pos hkids, hw, Option.map_some]
    obtain ⟨heap₂, hdiscard, hheap₂⟩ := discard_spec (ids.filter (oneShotAt m.heap)) ids heap₁
      (hnd.filter _) hnd hopen₁
    have hheap : ∀ k, heap₂.find k = (m.heap.find k).map fun w => w.next k (.trigger event) := by
      intro k
      rw [hheap₂, hheap₁]
      cases hw : m.heap.find k with
      | none => simp
      | some w =>
        by_cases hk : k ∈ ids
        · obtain ⟨w', hw', hopen, hpath⟩ := (hlisted k).mp hk
          obtain rfl := Option.some.inj (hw.symm.trans hw')
          have hshot : oneShotAt m.heap k = w.oneShot := by rw [oneShotAt, hw, Option.any_some]
          have hfire := Watcher.fire_eq event (h.waiting k w hw) hopen
          by_cases hs : w.oneShot <;> simp [hk, hshot, hs, Watcher.next, hopen, hpath, hfire]
        · have hno : ¬ (w.closed = false ∧ event.path = w.path) := fun hc =>
            hk ((hlisted k).mpr ⟨w, hw, hc.1, hc.2.symm⟩)
          simp [hk, Watcher.next, hno]
    have hresult : m.triggerEvent event = .ok ⟨Manager.prune (m.watchers.insert event.path
        (ids.filter (· ∉ ids.filter (oneShotAt m.heap)))) event.path, heap₂⟩ := by
      simp only [Manager.triggerEvent, hf, hnotify, hdiscard]
    refine ⟨_, hresult, .of_path h hheap (fun k w hw _ hpath => ?_) ?_⟩
    · simp [Watcher.next, Ne.symm hpath]
    · rw [hlist]
      refine List.filter_congr fun k hk => ?_
      obtain ⟨w, hw, hopen, hpath⟩ := (hlisted k).mp hk
      have hshot : oneShotAt m.heap k = w.oneShot := by rw [oneShotAt, hw, Option.any_some]
      rw [hheap₂, hheap₁]
      by_cases hs : w.oneShot <;> simp [hk, hw, hshot, hs, hopen, Watcher.shut]

/-- A new watcher is open, and listed last under its path. -/
theorem Sound.watch (h : Sound m) (hid : m.heap.find id = none) (path : Str) (persistent : Bool) :
    Sound (m.watch id path persistent) := by
  have hfind : ∀ k, (m.watch id path persistent).heap.find k =
      if k = id then some ⟨path, persistent, false, [], false, []⟩ else m.heap.find k :=
    fun k => GoMap.find_insert ..
  have hwatchers : ∀ p, (m.watch id path persistent).watchers.find p =
      if p = path then some (m.listAt path ++ [id]) else m.watchers.find p :=
    fun p => GoMap.find_insert ..
  have hlist : ∀ p, (m.watch id path persistent).listAt p =
      if p = path then m.listAt path ++ [id] else m.listAt p := by
    intro p
    rw [Manager.listAt, hwatchers]
    split <;> rfl
  have hnew : ∀ p, id ∉ m.listAt p := by
    intro p hmem
    obtain ⟨w, hw, -⟩ := (h.listed p id).mp hmem
    exact absurd (hw.symm.trans hid) (by simp)
  refine ⟨fun p => ?_, fun p => ?_, fun p k => ?_, fun k w hw => ?_⟩
  · rw [hwatchers]
    split
    · simp
    · exact h.proper p
  · rw [hlist]
    split
    · exact List.nodup_append.mpr ⟨h.nodup path, List.nodup_singleton id, fun a ha b hb hab =>
        hnew path (List.mem_singleton.mp hb ▸ hab ▸ ha)⟩
    · exact h.nodup p
  · rw [hlist, hfind]
    by_cases hk : k = id
    · subst hk
      by_cases hp : p = path
      · simp [hp]
      · simp [hp, hnew p, Ne.symm hp]
    · rw [if_neg hk]
      by_cases hp : p = path
      · subst hp
        simp [hk, h.listed p k]
      · simp [hp, h.listed p k]
  · rw [hfind] at hw
    split at hw
    · obtain rfl := Option.some.inj hw
      exact fun _ _ => rfl
    · exact h.waiting k w hw

/-- **What a step does.**  It makes a new watcher, or it does to every watcher what
`Watcher.next` says. -/
theorem effect_of_step (h : Sound m) (hstep : step m a = some m') :
    (∃ id path persistent, a = .watch id path persistent ∧ m.heap.find id = none ∧
      m' = m.watch id path persistent) ∨ Effect m a m' := by
  cases a with
  | watch id path persistent =>
    simp only [step, Option.ite_none_left_eq_some] at hstep
    obtain ⟨hfresh, hstep⟩ := hstep
    exact .inl ⟨id, path, persistent, rfl, GoMap.find_eq_none.mpr hfresh,
      (Option.some.inj hstep).symm⟩
  | unwatch id =>
    simp only [step, Option.ite_none_right_eq_some] at hstep
    obtain ⟨hid, hstep⟩ := hstep
    obtain ⟨w, hw⟩ := GoMap.mem_iff_find.mp hid
    obtain ⟨m₁, hm₁, heffect⟩ := effect_unwatch h hw
    rw [hm₁] at hstep
    obtain rfl := Option.some.inj hstep
    exact .inr heffect
  | trigger event =>
    obtain ⟨m₁, hm₁, heffect⟩ := effect_trigger h event
    simp only [step, hm₁] at hstep
    obtain rfl := Option.some.inj hstep
    exact .inr heffect
  | receive id =>
    obtain rfl := Option.some.inj hstep
    exact .inr (effect_receive h id)

theorem Sound.step (h : Sound m) (hstep : step m a = some m') : Sound m' := by
  rcases effect_of_step h hstep with ⟨id, path, persistent, -, hfresh, rfl⟩ | heffect
  · exact h.watch hfresh path persistent
  · exact h.of_effect heffect

/-- Each watcher that exists takes its own step. -/
theorem next_of_step (h : Sound m) (hstep : step m a = some m') (hw : m.heap.find id = some w) :
    m'.heap.find id = some (w.next id a) := by
  rcases effect_of_step h hstep with ⟨id', path, persistent, rfl, hfresh, rfl⟩ | heffect
  · have hne : id ≠ id' := fun h => by rw [h, hfresh] at hw; cases hw
    rw [Manager.watch, GoMap.find_insert, if_neg hne, hw]
    rfl
  · rw [heffect.heap, hw, Option.map_some]

theorem sound_newManager : Sound newManager where
  proper path := by simp [newManager]
  nodup path := by simp [newManager, Manager.listAt]
  listed path id := by simp [newManager, Manager.listAt]
  waiting id w hw := by simp [newManager] at hw

theorem sound_of_reach (hreach : Lts.Reach step newManager m) : Sound m :=
  hreach.invariant sound_newManager fun _ _ _ h _ hstep => h.step hstep

/-! ## 6. Safety -/

/-- The open watchers are counted path by path. -/
theorem Sound.getTotalWatchCount (h : Sound m) :
    m.getTotalWatchCount = (m.heap.keysWhere fun w => !w.closed).card := by
  have hopen : ∀ {id}, id ∈ m.heap.keysWhere (fun w => !w.closed) ↔
      ∃ w, m.heap.find id = some w ∧ w.closed = false := by
    intro id
    simp [GoMap.mem_keysWhere]
  -- every open watcher is counted under its path
  let pathOf : Str → Str := fun id => ((m.heap.find id).map Watcher.path).getD []
  have hmaps : ∀ id ∈ m.heap.keysWhere (fun w => !w.closed), pathOf id ∈ m.watchers.keys := by
    intro id hid
    obtain ⟨w, hw, hc⟩ := hopen.mp hid
    have hmem := (h.listed w.path id).mpr ⟨w, hw, hc, rfl⟩
    have hpath : pathOf id = w.path := by simp [pathOf, hw]
    rw [hpath, Finmap.mem_keys]
    by_contra hnone
    simp [Manager.listAt, GoMap.find_eq_none.mpr hnone] at hmem
  rw [Finset.card_eq_sum_card_fiberwise hmaps]
  refine Finset.sum_congr rfl fun path _ => ?_
  have hfiber : (m.heap.keysWhere fun w => !w.closed).filter (fun id => pathOf id = path) =
      (m.listAt path).toFinset := by
    ext id
    rw [Finset.mem_filter, hopen, List.mem_toFinset, h.listed]
    constructor
    · rintro ⟨⟨w, hw, hc⟩, hp⟩
      exact ⟨w, hw, hc, by simpa [pathOf, hw] using hp⟩
    · rintro ⟨w, hw, hc, hp⟩
      exact ⟨⟨w, hw, hc⟩, by simpa [pathOf, hw] using hp⟩
  rw [hfiber, List.toFinset_card_of_nodup (h.nodup path)]
  rfl

/-- **Watch channels are used safely.**  After any calls:
* neither `Unwatch`, of any watcher that `Watch` ever returned, nor `TriggerEvent` panics: nothing
  is sent on a closed channel and no channel is closed twice;
* a watcher's channel is open exactly if the watcher is in the map;
* it is in there once and under its own path, and no path has an empty list;
* `GetTotalWatchCount` is the number of open watchers. -/
theorem watch_channels_safe (hreach : Lts.Reach step newManager m) :
    (∀ id ∈ m.heap, ∃ m', m.unwatch id = .ok m') ∧
    (∀ event, ∃ m', m.triggerEvent event = .ok m') ∧
    (∀ id w, m.heap.find id = some w →
      (w.closed = false ↔ ∃ path ids, m.watchers.find path = some ids ∧ id ∈ ids)) ∧
    (∀ path ids id, m.watchers.find path = some ids → id ∈ ids →
      ids.count id = 1 ∧ ∃ w, m.heap.find id = some w ∧ w.path = path) ∧
    (∀ path, m.watchers.find path ≠ some []) ∧
    m.getTotalWatchCount = (m.heap.keysWhere fun w => !w.closed).card := by
  have h := sound_of_reach hreach
  refine ⟨fun id hid => ?_, fun event => ?_, fun id w hw => ⟨fun hc => ?_, ?_⟩,
    fun path ids id hf hid => ?_, h.proper, h.getTotalWatchCount⟩
  · obtain ⟨w, hw⟩ := GoMap.mem_iff_find.mp hid
    obtain ⟨m', hm', -⟩ := effect_unwatch h hw
    exact ⟨m', hm'⟩
  · obtain ⟨m', hm', -⟩ := effect_trigger h event
    exact ⟨m', hm'⟩
  · have hmem := (h.listed w.path id).mpr ⟨w, hw, hc, rfl⟩
    cases hf : m.watchers.find w.path with
    | none => simp [Manager.listAt, hf] at hmem
    | some ids => exact ⟨w.path, ids, hf, listAt_of_find hf ▸ hmem⟩
  · rintro ⟨path, ids, hf, hid⟩
    obtain ⟨w', hw', hc, -⟩ := (h.listed path id).mp (listAt_of_find hf ▸ hid)
    rw [Option.some.inj (hw.symm.trans hw')]
    exact hc
  · have hlist := listAt_of_find hf
    obtain ⟨w, hw, -, hp⟩ := (h.listed path id).mp (hlist ▸ hid)
    exact ⟨List.count_eq_one_of_mem (hlist ▸ h.nodup path) hid, w, hw, hp⟩

end Lists

/-- Two watchers of one path, one of them persistent; an event, and `Unwatch` of both, twice. -/
def fireAndUnwatch : List Action :=
  [.watch "v".toList "/a".toList false, .watch "w".toList "/a".toList true,
    .trigger ⟨"e".toList, .created, "/a".toList, [], 1⟩, .unwatch "v".toList,
    .unwatch "w".toList, .unwatch "w".toList]

theorem watch_channels_safe_twice :
    ∃ m, Lts.Reach step newManager m ∧ "w".toList ∈ m.heap ∧
      ∃ m', m.unwatch "w".toList = .ok m' := by
  obtain ⟨m, hreach, hin⟩ : ∃ m, Lts.Reach step newManager m ∧ "w".toList ∈ m.heap :=
    Lts.exists_reach fireAndUnwatch (by decide +kernel)
  exact ⟨m, hreach, hin, (watch_channels_safe hreach).1 _ hin⟩

end SkyLock.Watch
