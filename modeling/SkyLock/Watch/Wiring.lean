/-
# From the store to the watchers

main wires the store to the watch manager: every successful mutation starts a GOROUTINE that calls
`TriggerCreate`, `TriggerDataChange` or `TriggerDelete`.  Nothing orders these goroutines among each
other, and the one that `Create` starts is handed the node itself, not a copy.  It evaluates its two
arguments, the node's data and its version, when it gets to run, without the store's mutex.

So each goroutine is a `Task` of its own here, numbered by the mutation that started it, and the
system takes one step for each thing that can come in between: a store operation, the reading of an
argument, the call of `TriggerEvent`, and what clients do with their watchers.  A task of `Create`
looks at the node in the store for as long as it is that node that is there; once the node has been
deleted, it looks at what the node was then.  So it finds what the last `Set` has made of the node
(`create_task_reads_latest`).  A store operation is one step with all the tasks that it starts.
`DeleteEphemerals` starts one for each node while it still holds the mutex; these carry nothing but
a path, so that it makes no difference that here they run after the whole loop.

Recorded besides what the code stores: `history`, the mutations in their order, each with what the
node was right after it, and for one watcher the events that it is sent, each with the number of
its task (`noteTold`).

A watcher is told the history of its path if every task that it hears comes before the younger ones
of the path, and a task of `Create` with the arguments that it was started with; and, once all
tasks of the path are done, only if (`watch_follows_history_iff`).  A task of `Create` has these
arguments if no `Set` of the node comes before it has read them (`ReadsFirst`).
-/
import SkyLock.Store.Ops
import SkyLock.Store.Versions
import SkyLock.Watch.Delivery

namespace SkyLock.Wiring

open Store Watch

/-! ## 1. The system -/

/-- A mutation of one node, and what the node was right after it. -/
structure Change where
  type : EventType
  path : Str
  data : Str
  version : Nat
  deriving DecidableEq

/-- The event that should tell of a change. -/
def Change.event (c : Change) (id : Str) : Event := ⟨id, c.type, c.path, c.data, c.version⟩

/-- What an event tells, without its id. -/
def Change.ofEvent (e : Event) : Change := ⟨e.type, e.path, e.data, e.version⟩

/-- What a store operation changes, in the order in which the code does it. -/
def changes (s : Store) : StoreOp → List Change
  | .create p d eph sid sq =>
    match (s.create p d eph sid sq).2 with
    | .ok path => [⟨.created, path, d, 1⟩]
    | .error _ => []
  | .set p d v =>
    match (s.set p d v).2 with
    | .ok n => [⟨.dataChanged, normalizePath p, n.data, n.version⟩]
    | .error _ => []
  | .delete p v =>
    match s.delete p v with
    | .ok _ => [⟨.deleted, normalizePath p, [], 0⟩]
    | .error _ => []
  | .deleteEphemerals _ order => order.map fun path => ⟨.deleted, path, [], 0⟩

/-- A goroutine that has been started and has not triggered its event yet. -/
inductive Task
  /-- The callback of `Create`.  `node` is what its node was when it was deleted, if it has been;
  `data` and `version` are the arguments, as far as they have been evaluated. -/
  | create (path : Str) (node : Option (Nat × Str)) (data : Option Str) (version : Option Nat)
  /-- A callback whose arguments cannot change any more: `Set` passes a copy, `Delete` the path. -/
  | call (c : Change)
  deriving DecidableEq

namespace Task

def start (c : Change) : Task :=
  match c.type with
  | .created => .create c.path none none none
  | _ => .call c

def path : Task → Str
  | create path _ _ _ => path
  | call c => c.path

/-- What the task will tell, once it has its arguments. -/
def change? : Task → Option Change
  | create path _ (some data) (some version) => some ⟨.created, path, data, version⟩
  | create _ _ _ _ => none
  | call c => some c

/-- Version and data that the task finds in its node. -/
def shows (s : Store) : Task → Option (Nat × Str)
  | create path none _ _ => valueAt s.nodes path
  | create _ (some value) _ _ => some value
  | call c => some (c.version, c.data)

/-- It does not matter what it has read before. -/
theorem shows_create (s : Store) (path : Str) (node : Option (Nat × Str)) (data data' : Option Str)
    (version version' : Option Nat) :
    (create path node data version).shows s = (create path node data' version').shows s := by
  cases node <;> rfl

/-- The store goes from `s` to `s'`: a node that is taken out stays as it was. -/
def detach (s s' : Store) : Task → Task
  | create path none data version =>
    create path (if path ∈ s'.nodes then none else valueAt s.nodes path) data version
  | t => t

def readData (s : Store) : Task → Option Task
  | create path node none version =>
    ((create path node none version).shows s).map fun v => create path node (some v.2) version
  | _ => none

def readVersion (s : Store) : Task → Option Task
  | create path node data none =>
    ((create path node data none).shows s).map fun v => create path node data (some v.1)
  | _ => none

end Task

structure Sys where
  store : Store
  history : List Change
  tasks : List (Nat × Task)
  watch : Manager

/-- The system as main sets it up. -/
def newSys : Sys := ⟨newStore, [], [], newManager⟩

inductive Action
  | op (op : StoreOp)
  /-- A task of `Create` evaluates `node.Data`. -/
  | readData (n : Nat)
  /-- A task of `Create` evaluates `node.Version`. -/
  | readVersion (n : Nat)
  /-- A task calls `TriggerEvent`, which draws the id of the event. -/
  | fire (n : Nat) (id : Str)
  | watch (id path : Str) (persistent : Bool)
  | unwatch (id : Str)
  | receive (id : Str)

namespace Sys

/-- The task that the mutation number `n` has started. -/
def task (s : Sys) (n : Nat) : Option Task := (s.tasks.find? fun x => x.1 = n).map Prod.snd

/-- A store operation: every change starts a task. -/
def mutate (s : Sys) (op : StoreOp) (st : Store) : Sys :=
  { s with
    store := st
    history := s.history ++ changes s.store op
    tasks := s.tasks.map (fun x => (x.1, x.2.detach s.store st)) ++
      ((changes s.store op).zipIdx s.history.length).map fun x => (x.2, Task.start x.1) }

def setTask (s : Sys) (n : Nat) (t : Task) : Sys :=
  { s with tasks := s.tasks.map fun x => if x.1 = n then (n, t) else x }

/-- The task is done. -/
def finish (s : Sys) (n : Nat) (m : Manager) : Sys :=
  { s with tasks := s.tasks.filter fun x => x.1 ≠ n, watch := m }

end Sys

def step (s : Sys) : Action → Option Sys
  | .op op => (Store.step s.store op).map fun st => s.mutate op st
  | .readData n => ((s.task n).bind fun t => t.readData s.store).map fun t => s.setTask n t
  | .readVersion n => ((s.task n).bind fun t => t.readVersion s.store).map fun t => s.setTask n t
  | .fire n id =>
    ((s.task n).bind Task.change?).bind fun c =>
      (Watch.step s.watch (.trigger (c.event id))).map fun m => s.finish n m
  | .watch id path persistent =>
    (Watch.step s.watch (.watch id path persistent)).map fun m => { s with watch := m }
  | .unwatch id => (Watch.step s.watch (.unwatch id)).map fun m => { s with watch := m }
  | .receive id => (Watch.step s.watch (.receive id)).map fun m => { s with watch := m }

/-- Is the watcher registered on the path? -/
def Sys.hears (s : Sys) (id path : Str) : Bool :=
  (s.watch.heap.find id).any fun w => !w.closed && decide (path = w.path)

/-- What the watcher is told: the events that are triggered on its path, and by which tasks. -/
def noteTold (id : Str) (s : Sys) (a : Action) (told : List (Nat × Event)) : List (Nat × Event) :=
  match a with
  | .fire n eventID =>
    match (s.task n).bind Task.change? with
    | some c => if s.hears id c.path then told ++ [(n, c.event eventID)] else told
    | none => told
  | _ => told

/-- The system with the record of one watcher. -/
abbrev toldStep (id : Str) :
    Sys × List (Nat × Event) → Action → Option (Sys × List (Nat × Event)) :=
  Lts.recorded step (noteTold id)

/-! ## 2. What a step does -/

variable {s s' : Sys} {a : Action} {n : Nat} {t : Task} {c : Change} {id p : Str}

theorem mem_of_task (h : s.task n = some t) : (n, t) ∈ s.tasks := by
  obtain ⟨x, hx, rfl⟩ := Option.map_eq_some_iff.mp h
  have hn : x.1 = n := by simpa using List.find?_some hx
  exact hn ▸ List.mem_of_find?_eq_some hx

/-- A call of a client. -/
inductive Client : Action → Watch.Action → Prop
  | watch (id path : Str) (persistent : Bool) :
    Client (.watch id path persistent) (.watch id path persistent)
  | unwatch (id : Str) : Client (.unwatch id) (.unwatch id)
  | receive (id : Str) : Client (.receive id) (.receive id)

/-- A task of `Create` evaluates one of its arguments. -/
inductive Task.Read (st : Store) : Task → Task → Prop
  | data {path : Str} {node : Option (Nat × Str)} {version : Option Nat} {v : Nat × Str}
    (hv : (create path node none version).shows st = some v) :
    Read st (create path node none version) (create path node (some v.2) version)
  | version {path : Str} {node : Option (Nat × Str)} {data : Option Str} {v : Nat × Str}
    (hv : (create path node data none).shows st = some v) :
    Read st (create path node data none) (create path node data (some v.1))

/-- What can happen. -/
inductive Move (s : Sys) : Action → Sys → Prop
  | op {op : StoreOp} {st : Store} (h : Store.step s.store op = some st) :
    Move s (.op op) (s.mutate op st)
  | read {a : Action} {n : Nat} {t t' : Task} (ha : a = .readData n ∨ a = .readVersion n)
    (ht : s.task n = some t) (hread : t.Read s.store t') : Move s a (s.setTask n t')
  | fire {n : Nat} {id : Str} {t : Task} {c : Change} {m : Manager} (ht : s.task n = some t)
    (hc : t.change? = some c) (h : Watch.step s.watch (.trigger (c.event id)) = some m) :
    Move s (.fire n id) (s.finish n m)
  | client {a : Action} {b : Watch.Action} {m : Manager} (ha : Client a b)
    (h : Watch.step s.watch b = some m) : Move s a { s with watch := m }

theorem read_of_readData {st : Store} {t' : Task} (h : t.readData st = some t') :
    t.Read st t' := by
  unfold Task.readData at h
  split at h
  · obtain ⟨v, hv, rfl⟩ := Option.map_eq_some_iff.mp h
    exact .data hv
  · cases h

theorem read_of_readVersion {st : Store} {t' : Task} (h : t.readVersion st = some t') :
    t.Read st t' := by
  unfold Task.readVersion at h
  split at h
  · obtain ⟨v, hv, rfl⟩ := Option.map_eq_some_iff.mp h
    exact .version hv
  · cases h

theorem move_of_step (h : step s a = some s') : Move s a s' := by
  cases a <;> simp only [step, Option.map_eq_some_iff, Option.bind_eq_some_iff] at h
  case op op =>
    obtain ⟨st, hst, rfl⟩ := h
    exact .op hst
  case readData n =>
    obtain ⟨t', ⟨t, ht, hread⟩, rfl⟩ := h
    exact .read (.inl rfl) ht (read_of_readData hread)
  case readVersion n =>
    obtain ⟨t', ⟨t, ht, hread⟩, rfl⟩ := h
    exact .read (.inr rfl) ht (read_of_readVersion hread)
  case fire n id =>
    obtain ⟨c, ⟨t, ht, hc⟩, m, hm, rfl⟩ := h
    exact .fire ht hc hm
  all_goals
    obtain ⟨m, hm, rfl⟩ := h
    exact .client (by constructor) hm

/-! ## 3. What a task of `Create` finds -/

/-- A node, and one more change: is it still in the store, and version and data that it has. -/
def Change.pass (path : Str) (v : Bool × Nat × Str) (c : Change) : Bool × Nat × Str :=
  if v.1 = true ∧ c.path = path then
    if c.type = .deleted then (false, v.2) else (true, c.version, c.data)
  else v

/-- What has become of a node that was made by the change `c`. -/
def Change.after (c : Change) (later : List Change) : Bool × Nat × Str :=
  later.foldl (pass c.path) (true, c.version, c.data)

@[simp] theorem pass_of_gone (path : Str) (v : Nat × Str) (c : Change) :
    c.pass path (false, v) = (false, v) := by
  simp [Change.pass]

theorem foldl_pass_of_gone (path : Str) (v : Nat × Str) (cs : List Change) :
    cs.foldl (Change.pass path) (false, v) = (false, v) := by
  induction cs with
  | nil => rfl
  | cons c cs ih => rw [List.foldl_cons, pass_of_gone, ih]

theorem foldl_pass_deleted (path : Str) (v : Nat × Str) (order : List Str) :
    (order.map fun q => (⟨.deleted, q, [], 0⟩ : Change)).foldl (Change.pass path) (true, v) =
      (decide (path ∉ order), v) := by
  induction order with
  | nil => simp
  | cons q order ih =>
    rw [List.map_cons, List.foldl_cons]
    by_cases hq : q = path
    · simp [Change.pass, hq, foldl_pass_of_gone]
    · simp [Change.pass, hq, ih, Ne.symm hq]

/-- **The changes of an operation say what happens to a node.** -/
theorem foldl_pass_changes {st st' : Store} {op : StoreOp} {v : Nat × Str}
    (hv : valueAt st.nodes p = some v) (hstep : Store.step st op = some st') :
    (changes st op).foldl (Change.pass p) (true, v) =
      ((valueAt st'.nodes p).isSome, (valueAt st'.nodes p).getD v) := by
  have hmem : p ∈ st.nodes := mem_iff_valueAt.mpr (by simp [hv])
  cases op with
  | create q d eph sid sq =>
    obtain rfl := Option.some.inj hstep
    rw [valueAt_create eph sq hmem, hv, changes]
    cases hq : (st.create q d eph sid sq).2 with
    | error e => rfl
    | ok path =>
      have hne : path ≠ p := fun h => create_ok_fresh hq (h ▸ hmem)
      simp [Change.pass, hne]
  | set q d w =>
    obtain rfl := Option.some.inj hstep
    rw [changes]
    rcases set_cases st q d w with ⟨e, herr, hsame⟩ | ⟨n, -, hok, -, hr⟩
    · rw [herr, hsame, hv]
      rfl
    · rw [hok, hr.valueAt]
      by_cases hp : p = normalizePath q
      · simp [Change.pass, hp, Node.value]
      · rw [if_neg hp, hv]
        simp [Change.pass, Ne.symm hp]
  | delete q w =>
    simp only [Store.step] at hstep
    rw [changes]
    cases hq : st.delete q w with
    | error e =>
      simp only [hq, Option.some.injEq] at hstep
      simp [← hstep, hv]
    | ok st₁ =>
      simp only [hq, Option.some.injEq] at hstep
      subst hstep
      rw [delete_eq_unlink hq, valueAt_unlink, hv]
      by_cases hp : p = normalizePath q
      · simp [Change.pass, hp]
      · simp [Change.pass, hp, Ne.symm hp]
  | deleteEphemerals sid order =>
    simp only [Store.step, Option.ite_none_right_eq_some] at hstep
    obtain rfl := Option.some.inj hstep.2
    rw [changes, foldl_pass_deleted, valueAt_deleteEphemerals, hv]
    by_cases hp : p ∈ order <;> simp [hp]

/-- The task stems from the change `c`, which the changes `later` came after. -/
def Task.Runs (st : Store) (c : Change) (later : List Change) : Task → Prop
  | create path node data version =>
    c.type = .created ∧ c.path = path ∧ (c.after later).1 = node.isNone ∧
      (create path node data version).shows st = some (c.after later).2
  | call c' => c' = c

theorem Task.Runs.path_eq {st : Store} {later : List Change} (h : t.Runs st c later) :
    t.path = c.path := by
  cases t with
  | create => exact h.2.1.symm
  | call c' => exact congrArg Change.path h

/-- A task follows its node through an operation. -/
theorem Task.Runs.detach {st st' : Store} {op : StoreOp} {later : List Change}
    (h : t.Runs st c later) (hstep : Store.step st op = some st') :
    (t.detach st st').Runs st' c (later ++ changes st op) := by
  cases t with
  | call c' => exact h
  | create path node data version =>
    obtain ⟨htype, rfl, hgone, hshows⟩ := h
    have hafter : c.after (later ++ changes st op) =
        (changes st op).foldl (Change.pass c.path) (c.after later) := List.foldl_append
    cases node with
    | some v =>
      have hlast : c.after later = (false, v) := Prod.ext hgone (Option.some.inj hshows).symm
      rw [hlast, foldl_pass_of_gone] at hafter
      exact ⟨htype, rfl, by rw [hafter]; rfl, by rw [hafter]; rfl⟩
    | none =>
      have hlast : c.after later = (true, (c.after later).2) := Prod.ext hgone rfl
      rw [hlast, foldl_pass_changes hshows hstep] at hafter
      by_cases hmem : c.path ∈ st'.nodes
      · have hsome := Option.ne_none_iff_isSome.mp (mem_iff_valueAt.mp hmem)
        obtain ⟨v, hv⟩ := Option.isSome_iff_exists.mp hsome
        simp only [Task.detach, if_pos hmem]
        exact ⟨htype, rfl, by rw [hafter, hv]; rfl, by rw [hafter, hv]; exact hv⟩
      · have hnone : valueAt st'.nodes c.path = none := not_not.mp (mt mem_iff_valueAt.mpr hmem)
        have hv : valueAt st.nodes c.path = some (c.after later).2 := hshows
        simp only [Task.detach, if_neg hmem, hv]
        exact ⟨htype, rfl, by rw [hafter, hnone]; rfl, by rw [hafter, hnone]; rfl⟩

theorem Task.Read.path_eq {st : Store} {t' : Task} (h : t.Read st t') : t'.path = t.path := by
  cases h <;> rfl

/-- What a task reads is not what it follows. -/
theorem Task.Runs.read {st : Store} {later : List Change} {t' : Task} (h : t.Runs st c later)
    (hread : t.Read st t') : t'.Runs st c later := by
  cases hread with
  | data | version =>
    obtain ⟨htype, hpath, hgone, hshows⟩ := h
    exact ⟨htype, hpath, hgone, (shows_create ..).trans hshows⟩

/-- **How a task starts**: with its arguments, or looking at the node as its change, the last one
of the operation, has made it. -/
theorem start_cases {st st' : Store} {op : StoreOp} {i : Nat}
    (hstep : Store.step st op = some st') (hc : (changes st op)[i]? = some c) :
    Task.start c = .call c ∨
      Task.start c = .create c.path none none none ∧ c.type = .created ∧
        valueAt st'.nodes c.path = some (c.version, c.data) ∧
        (changes st op).drop (i + 1) = [] := by
  cases op with
  | create q d eph sid sq =>
    obtain rfl := Option.some.inj hstep
    rw [changes] at hc ⊢
    cases hq : (st.create q d eph sid sq).2 with
    | error e => simp [hq] at hc
    | ok path =>
      simp only [hq, List.getElem?_singleton, Option.ite_none_right_eq_some] at hc
      obtain ⟨rfl, hc⟩ := hc
      obtain rfl := Option.some.inj hc
      exact .inr ⟨rfl, rfl, valueAt_create_ok (Prod.ext rfl hq), rfl⟩
  | set q d w =>
    rw [changes] at hc
    cases hq : (st.set q d w).2 with
    | error e => simp [hq] at hc
    | ok n =>
      simp only [hq, List.getElem?_singleton, Option.ite_none_right_eq_some] at hc
      obtain rfl := Option.some.inj hc.2
      exact .inl rfl
  | delete q w =>
    rw [changes] at hc
    cases hq : st.delete q w with
    | error e => simp [hq] at hc
    | ok st₁ =>
      simp only [hq, List.getElem?_singleton, Option.ite_none_right_eq_some] at hc
      obtain rfl := Option.some.inj hc.2
      exact .inl rfl
  | deleteEphemerals sid order =>
    rw [changes, List.getElem?_map] at hc
    obtain ⟨q, -, rfl⟩ := Option.map_eq_some_iff.mp hc
    exact .inl rfl

/-- A task starts with the node as its change has left it. -/
theorem runs_start {st st' : Store} {op : StoreOp} {i : Nat}
    (hstep : Store.step st op = some st') (hc : (changes st op)[i]? = some c) :
    (Task.start c).Runs st' c ((changes st op).drop (i + 1)) := by
  rcases start_cases hstep hc with heq | ⟨heq, htype, hvalue, hlast⟩
  · rw [heq]
    rfl
  · rw [heq, hlast]
    exact ⟨htype, rfl, rfl, hvalue⟩

/-- **The invariant of the system**: every task stems from its change and has followed its node. -/
structure Wf (s : Sys) : Prop where
  tasks : ∀ x ∈ s.tasks, ∃ c, s.history[x.1]? = some c ∧
    x.2.Runs s.store c (s.history.drop (x.1 + 1))
  sound : Sound s.watch

theorem wf_newSys : Wf newSys where
  tasks := by simp [newSys]
  sound := sound_newManager

/-- The tasks after a store operation: the old ones, and one for each change. -/
theorem mem_tasks_mutate {op : StoreOp} {st : Store} {x : Nat × Task} :
    x ∈ (s.mutate op st).tasks ↔
      (∃ y ∈ s.tasks, x = (y.1, y.2.detach s.store st)) ∨
      ∃ i c, (changes s.store op)[i]? = some c ∧ x = (s.history.length + i, Task.start c) := by
  simp only [Sys.mutate, List.mem_append, List.mem_map, Prod.exists]
  refine or_congr ?_ ⟨?_, ?_⟩
  · simp only [eq_comm]
  · rintro ⟨c, k, hmem, rfl⟩
    obtain ⟨hle, hc⟩ := List.mem_zipIdx_iff_le_and_getElem?_sub.mp hmem
    exact ⟨k - s.history.length, c, hc, by rw [Nat.add_sub_cancel' hle]⟩
  · rintro ⟨i, c, hc, rfl⟩
    refine ⟨c, s.history.length + i, List.mem_zipIdx_iff_le_and_getElem?_sub.mpr ⟨?_, ?_⟩, rfl⟩
    · exact Nat.le_add_right ..
    · rwa [Nat.add_sub_cancel_left]

/-- The tasks after a task has read something: only what it knows has changed. -/
theorem mem_tasks_setTask {t' : Task} {x : Nat × Task} (hx : x ∈ (s.setTask n t').tasks) :
    x = (n, t') ∨ x ∈ s.tasks := by
  obtain ⟨y, hy, rfl⟩ := List.mem_map.mp hx
  split
  · exact .inl rfl
  · exact .inr hy

theorem Wf.step (h : Wf s) (hs : step s a = some s') : Wf s' := by
  cases move_of_step hs with
  | @op op st hst =>
    refine ⟨fun x hx => ?_, h.sound⟩
    rcases mem_tasks_mutate.mp hx with ⟨y, hy, rfl⟩ | ⟨i, c, hc, rfl⟩
    · obtain ⟨c, hc, hruns⟩ := h.tasks y hy
      have hlt := (List.getElem?_eq_some_iff.mp hc).1
      refine ⟨c, ?_, ?_⟩
      · exact (List.getElem?_append_left hlt).trans hc
      · simp only [Sys.mutate]
        rw [List.drop_append_of_le_length hlt]
        exact hruns.detach hst
    · refine ⟨c, ?_, ?_⟩
      · rw [Sys.mutate, List.getElem?_append_right (Nat.le_add_right ..), Nat.add_sub_cancel_left]
        exact hc
      · have hdrop : (s.mutate op st).history.drop (s.history.length + i + 1) =
            (changes s.store op).drop (i + 1) := by
          rw [Sys.mutate, Nat.add_assoc, List.drop_length_add_append]
        rw [hdrop]
        exact runs_start hst hc
  | read ha ht hread =>
    refine ⟨fun x hx => ?_, h.sound⟩
    rcases mem_tasks_setTask hx with rfl | hx
    · obtain ⟨c, hc, hruns⟩ := h.tasks _ (mem_of_task ht)
      exact ⟨c, hc, hruns.read hread⟩
    · exact h.tasks x hx
  | fire ht hc hm => exact ⟨fun x hx => h.tasks x (List.mem_of_mem_filter hx), h.sound.step hm⟩
  | client ha hm => exact ⟨h.tasks, h.sound.step hm⟩

theorem wf_of_reach (hs : Lts.Reach step newSys s) : Wf s :=
  hs.invariant wf_newSys fun _ _ _ h _ hstep => h.step hstep

/-- **A task of `Create` reads the latest.**  Whenever it evaluates one of its arguments, it gets
what the last change of its node has made of it, up to the node's deletion. -/
theorem create_task_reads_latest {path : Str} {node : Option (Nat × Str)} {data : Option Str}
    {version : Option Nat} (hs : Lts.Reach step newSys s)
    (ht : s.task n = some (.create path node data version)) :
    ∃ c, s.history[n]? = some c ∧ c.type = .created ∧ c.path = path ∧
      (data = none → step s (.readData n) = some (s.setTask n
        (.create path node (some (c.after (s.history.drop (n + 1))).2.2) version))) ∧
      (version = none → step s (.readVersion n) = some (s.setTask n
        (.create path node data (some (c.after (s.history.drop (n + 1))).2.1)))) := by
  obtain ⟨c, hc, htype, hpath, -, hshows⟩ := (wf_of_reach hs).tasks _ (mem_of_task ht)
  refine ⟨c, hc, htype, hpath, ?_, ?_⟩
  · rintro rfl
    simp [step, ht, Task.readData, hshows]
  · rintro rfl
    simp [step, ht, Task.readVersion, hshows]

/-! ## 4. The record of a watcher -/

section Told

variable {told : List (Nat × Event)} {w : Watcher} {x y : Sys × List (Nat × Event)}

theorem hears_iff {path : Str} (hw : s.watch.heap.find id = some w) :
    s.hears id path = true ↔ w.closed = false ∧ path = w.path := by
  simp [Sys.hears, hw]

theorem noteTold_fire {eventID : Str} (ht : s.task n = some t) (hc : t.change? = some c) :
    noteTold id s (.fire n eventID) told =
      if s.hears id c.path then told ++ [(n, c.event eventID)] else told := by
  simp only [noteTold, ht, Option.bind_some, hc]

theorem noteTold_client {b : Watch.Action} (ha : Client a b) : noteTold id s a told = told := by
  cases ha <;> rfl

theorem noteTold_read (ha : a = .readData n ∨ a = .readVersion n) :
    noteTold id s a told = told := by
  rcases ha with rfl | rfl <;> rfl

theorem toldStep_eq_some : toldStep id x a = some y ↔
    step x.1 a = some y.1 ∧ y.2 = noteTold id x.1 a x.2 := by
  rw [toldStep, Lts.recorded, Option.map_eq_some_iff]
  constructor
  · rintro ⟨t, ht, rfl⟩
    exact ⟨ht, rfl⟩
  · rintro ⟨ht, hy⟩
    exact ⟨y.1, ht, Prod.ext rfl hy.symm⟩

/-- A step does to the watchers what one action of the manager does, or nothing. -/
theorem watch_of_step (hs : step s a = some s') :
    s'.watch = s.watch ∨ ∃ b, Watch.step s.watch b = some s'.watch := by
  cases move_of_step hs with
  | op | read => exact .inl rfl
  | fire _ _ hm => exact .inr ⟨_, hm⟩
  | client _ hm => exact .inr ⟨_, hm⟩

/-- A watcher stays what it is, and is not opened again. -/
theorem find_of_step (h : Wf s) (hs : step s a = some s') (hw : s.watch.heap.find id = some w) :
    ∃ w', s'.watch.heap.find id = some w' ∧ w'.persistent = w.persistent ∧ w'.path = w.path ∧
      (w.closed = true → w'.closed = true) := by
  rcases watch_of_step hs with heq | ⟨b, hb⟩
  · exact ⟨w, heq ▸ hw, rfl, rfl, fun hc => hc⟩
  · exact ⟨w.next id b, next_of_step h.sound hb hw, by simp, by simp, w.next_closed id b⟩

/-- **A persistent watcher with room in its channel is delivered what it is told.** -/
theorem delivered_of_step (h : Wf s) (hs : step s a = some s')
    (hw : s.watch.heap.find id = some w) (hp : w.persistent = true)
    (hroom : w.buffer.length < capacity) (hdel : w.delivered = told.map Prod.snd) :
    ∃ w', s'.watch.heap.find id = some w' ∧
      w'.delivered = (noteTold id s a told).map Prod.snd := by
  cases move_of_step hs with
  | op => exact ⟨w, hw, hdel⟩
  | read ha =>
    rw [noteTold_read ha]
    exact ⟨w, hw, hdel⟩
  | @client _ b m ha hm =>
    refine ⟨w.next id b, next_of_step h.sound hm hw, ?_⟩
    rw [noteTold_client ha, ← hdel]
    cases ha with
    | watch => rfl
    | unwatch id' =>
      rw [Watcher.next_unwatch]
      split <;> rfl
    | receive id' =>
      rw [Watcher.next_receive]
      split
      · exact Watcher.delivered_receive
      · rfl
  | @fire n eventID t c m ht hc hm =>
    refine ⟨_, next_of_step h.sound hm hw, ?_⟩
    rw [noteTold_fire ht hc, Watcher.next_trigger, Watcher.fire, if_pos hp]
    by_cases hheard : s.hears id c.path = true
    · have hopen : w.closed = false ∧ (c.event eventID).path = w.path := (hears_iff hw).mp hheard
      rw [if_pos hheard, if_pos hopen, Watcher.delivered_accept, if_pos hroom, hdel]
      simp
    · have hdeaf : ¬ (w.closed = false ∧ (c.event eventID).path = w.path) :=
        mt (hears_iff hw).mpr hheard
      rw [if_neg hheard, if_neg hdeaf, hdel]

/-! ## 5. Following the history -/

/-- The events come in the order of the changes, and each tells of its change. -/
structure Follows (history : List Change) (told : List (Nat × Event)) : Prop where
  order : told.Pairwise fun x y => x.1 < y.1
  values : ∀ x ∈ told, history[x.1]? = some (.ofEvent x.2)

instance (history : List Change) (told : List (Nat × Event)) : Decidable (Follows history told) :=
  decidable_of_iff
    ((told.Pairwise fun x y => x.1 < y.1) ∧ ∀ x ∈ told, history[x.1]? = some (.ofEvent x.2))
    ⟨fun h => ⟨h.1, h.2⟩, fun h => ⟨h.1, h.2⟩⟩

/-- The task tells of its change.  Only a task of `Create` may fail to. -/
def Task.Truthful (change : Option Change) : Task → Prop
  | create path node data version => (create path node data version).change? = change
  | call _ => True

instance (change : Option Change) : ∀ t : Task, Decidable (t.Truthful change)
  | .create path node data version =>
    inferInstanceAs (Decidable ((Task.create path node data version).change? = change))
  | .call _ => inferInstanceAs (Decidable True)

/-- **The condition**: while the watcher is registered, the task that triggers an event on its path
is the oldest one of that path, and it tells of its change. -/
def InTurn (id p : Str) (x : Sys × List (Nat × Event)) : Action → Prop
  | .fire n _ => x.1.hears id p = true → ∀ t ∈ x.1.task n, t.path = p →
    (∀ y ∈ x.1.tasks, y.2.path = p → n ≤ y.1) ∧ t.Truthful x.1.history[n]?
  | _ => True

instance (id p : Str) (x : Sys × List (Nat × Event)) : ∀ a, Decidable (InTurn id p x a)
  | .fire n _ => inferInstanceAs (Decidable (x.1.hears id p = true → ∀ t ∈ x.1.task n, t.path = p →
    (∀ y ∈ x.1.tasks, y.2.path = p → n ≤ y.1) ∧ t.Truthful x.1.history[n]?))
  | .op _ | .readData _ | .readVersion _ | .watch _ _ _ | .unwatch _ | .receive _ =>
    inferInstanceAs (Decidable True)

/-- The channel of the watcher is not full. -/
def HasRoom (id : Str) (x : Sys × List (Nat × Event)) (_ : Action) : Prop :=
  ∀ w ∈ x.1.watch.heap.find id, w.buffer.length < capacity

instance (id : Str) (x : Sys × List (Nat × Event)) (a : Action) : Decidable (HasRoom id x a) :=
  inferInstanceAs (Decidable (∀ w ∈ x.1.watch.heap.find id, w.buffer.length < capacity))

/-- What holds of a persistent watcher on `p` and its record, whatever happens. -/
structure Watched (id p : Str) (x : Sys × List (Nat × Event)) : Prop where
  wf : Wf x.1
  watcher : ∃ w, x.1.watch.heap.find id = some w ∧ w.persistent = true ∧ w.path = p
  past : ∀ y ∈ x.2, y.1 < x.1.history.length

/-- The record follows the history, and everything that is still to come comes later. -/
structure OnTrack (p : Str) (x : Sys × List (Nat × Event)) : Prop where
  follows : Follows x.1.history x.2
  ahead : ∀ y ∈ x.2, ∀ z ∈ x.1.tasks, z.2.path = p → y.1 < z.1

theorem detach_path (st st' : Store) (t : Task) : (t.detach st st').path = t.path := by
  unfold Task.detach
  split <;> rfl

theorem change?_path (hc : t.change? = some c) : t.path = c.path := by
  unfold Task.change? at hc
  split at hc
  · exact Option.some.inj hc ▸ rfl
  · cases hc
  · exact Option.some.inj hc ▸ rfl

/-- A task is truthful if what it tells is its change. -/
theorem Task.Runs.truthful_iff {st : Store} {later : List Change} {c' : Change}
    (h : t.Runs st c later) (hc : t.change? = some c') : t.Truthful (some c) ↔ c = c' := by
  cases t with
  | create path node data version =>
    rw [Task.Truthful, hc, Option.some.injEq, eq_comm]
  | call c₁ =>
    obtain rfl : c₁ = c := h
    exact iff_of_true trivial (Option.some.inj hc)

/-- Tasks of one number are tasks of one path. -/
theorem Wf.path_eq (h : Wf s) {z : Nat × Task} (hz : z ∈ s.tasks) (ht : s.task n = some t)
    (hn : z.1 = n) : z.2.path = t.path := by
  obtain ⟨c, hc, hruns⟩ := h.tasks z hz
  obtain ⟨c', hc', hruns'⟩ := h.tasks _ (mem_of_task ht)
  rw [hn] at hc
  obtain rfl := Option.some.inj (hc.symm.trans hc')
  rw [hruns.path_eq, hruns'.path_eq]

/-- **What a step means to a watcher**: nothing, or a task of its path is done and it is told. -/
inductive Turn (id p : Str) (x : Sys × List (Nat × Event)) (a : Action)
    (y : Sys × List (Nat × Event)) : Prop
  | quiet (told : y.2 = x.2) (history : x.1.history <+: y.1.history) (inTurn : InTurn id p x a)
    (tasks : ∀ z ∈ y.1.tasks, (∃ z₀ ∈ x.1.tasks, z₀.1 = z.1 ∧ z₀.2.path = z.2.path) ∨
      x.1.history.length ≤ z.1)
    (kept : x.1.hears id p = true → ∀ z₀ ∈ x.1.tasks, z₀.2.path = p →
      ∃ z ∈ y.1.tasks, z.1 = z₀.1 ∧ z.2.path = p)
  | heard {n : Nat} {eventID : Str} {t : Task} {c : Change} (action : a = .fire n eventID)
    (hears : x.1.hears id p = true) (task : x.1.task n = some t) (change : t.change? = some c)
    (path : t.path = p)
    (told : y.2 = x.2 ++ [(n, c.event eventID)]) (history : y.1.history = x.1.history)
    (tasks : y.1.tasks = x.1.tasks.filter fun z => z.1 ≠ n)

theorem turn_of_step (h : Watched id p x) (hs : toldStep id x a = some y) : Turn id p x a y := by
  obtain ⟨s, told⟩ := x
  obtain ⟨s', told'⟩ := y
  obtain ⟨hs, hnote⟩ := toldStep_eq_some.mp hs
  dsimp only at hs hnote
  cases move_of_step hs with
  | @op op st hst =>
    refine .quiet hnote (List.prefix_append ..) trivial (fun z hz => ?_) fun _ z₀ hz₀ hp => ?_
    · rcases mem_tasks_mutate.mp hz with ⟨z₀, hz₀, rfl⟩ | ⟨i, c, -, rfl⟩
      · exact .inl ⟨z₀, hz₀, rfl, (detach_path ..).symm⟩
      · exact .inr (Nat.le_add_right ..)
    · exact ⟨_, mem_tasks_mutate.mpr (.inl ⟨z₀, hz₀, rfl⟩), rfl, (detach_path ..).trans hp⟩
  | @read _ n t t' ha ht hread =>
    have hfree : InTurn id p (s, told) a := by rcases ha with rfl | rfl <;> trivial
    refine .quiet (hnote.trans (noteTold_read ha)) List.prefix_rfl hfree (fun z hz => ?_)
      fun _ z₀ hz₀ hp => ?_
    · rcases mem_tasks_setTask hz with rfl | hz
      · exact .inl ⟨_, mem_of_task ht, rfl, hread.path_eq.symm⟩
      · exact .inl ⟨z, hz, rfl, rfl⟩
    · refine ⟨_, List.mem_map.mpr ⟨z₀, hz₀, rfl⟩, ?_⟩
      split
      · rename_i hn
        exact ⟨hn.symm, hread.path_eq.trans ((h.wf.path_eq hz₀ ht hn).symm.trans hp)⟩
      · exact ⟨rfl, hp⟩
  | @client _ b m ha hm =>
    have hfree : InTurn id p (s, told) a := by cases ha <;> trivial
    exact .quiet (hnote.trans (noteTold_client ha)) List.prefix_rfl hfree
      (fun z hz => .inl ⟨z, hz, rfl, rfl⟩) fun _ z₀ hz₀ hp => ⟨z₀, hz₀, rfl, hp⟩
  | @fire n eventID t c m ht hc hm =>
    rw [noteTold_fire ht hc, ← change?_path hc] at hnote
    by_cases hheard : s.hears id t.path = true
    · obtain ⟨w, hw, -, hpath⟩ := h.watcher
      have hp : t.path = p := ((hears_iff hw).mp hheard).2.trans hpath
      rw [if_pos hheard] at hnote
      exact .heard rfl (hp ▸ hheard) ht hc hp hnote rfl rfl
    · rw [if_neg hheard] at hnote
      refine .quiet hnote List.prefix_rfl (fun hp t' ht' hpath => ?_) (fun z hz => ?_)
        fun hp z₀ hz₀ hpath => ?_
      · obtain rfl := Option.some.inj (ht.symm.trans ht')
        exact absurd (hpath ▸ hp) hheard
      · exact .inl ⟨z, List.mem_of_mem_filter hz, rfl, rfl⟩
      · -- the task that is done is one of another path
        have hne : z₀.1 ≠ n := fun hn =>
          hheard (h.wf.path_eq hz₀ ht hn ▸ hpath.symm ▸ hp)
        exact ⟨z₀, List.mem_filter.mpr ⟨hz₀, decide_eq_true hne⟩, rfl, hpath⟩

theorem Watched.step (h : Watched id p x) (hs : toldStep id x a = some y) : Watched id p y := by
  have hstep := (toldStep_eq_some.mp hs).1
  refine ⟨h.wf.step hstep, ?_, ?_⟩
  · obtain ⟨w, hw, hp, hpath⟩ := h.watcher
    obtain ⟨w', hw', hp', hpath', -⟩ := find_of_step h.wf hstep hw
    exact ⟨w', hw', hp'.trans hp, hpath'.trans hpath⟩
  · cases turn_of_step h hs with
    | quiet htold hhistory =>
      rw [htold]
      exact fun z hz => (h.past z hz).trans_le hhistory.length_le
    | @heard n eventID t c _ _ ht _ _ htold hhistory _ =>
      rw [htold, hhistory]
      intro z hz
      rcases List.mem_append.mp hz with hz | hz
      · exact h.past z hz
      · obtain ⟨c₀, hc₀, -⟩ := h.wf.tasks _ (mem_of_task ht)
        rw [List.mem_singleton.mp hz]
        exact (List.getElem?_eq_some_iff.mp hc₀).1

/-- What has been told of is not written again. -/
theorem Watched.getElem?_history (h : Watched id p x) (hhistory : x.1.history <+: y.1.history)
    {z : Nat × Event} (hz : z ∈ x.2) : y.1.history[z.1]? = x.1.history[z.1]? := by
  obtain ⟨cs, hcs⟩ := hhistory
  rw [← hcs, List.getElem?_append_left (h.past z hz)]

/-- What a task of the path adds to the record. -/
theorem Watched.truthful_iff (h : Watched id p x) {eventID : Str} (ht : x.1.task n = some t)
    (hc : t.change? = some c) : t.Truthful x.1.history[n]? ↔
      x.1.history[n]? = some (.ofEvent (c.event eventID)) := by
  obtain ⟨c₀, hc₀, hruns⟩ := h.wf.tasks _ (mem_of_task ht)
  dsimp only at hc₀
  rw [hc₀, hruns.truthful_iff hc, Option.some.injEq]
  rfl

/-- **A step in turn keeps the record on track.** -/
theorem OnTrack.step (htrack : OnTrack p x) (h : Watched id p x) (hturn : InTurn id p x a)
    (hs : toldStep id x a = some y) : OnTrack p y := by
  cases turn_of_step h hs with
  | quiet htold hhistory _ htasks _ =>
    refine ⟨⟨?_, ?_⟩, ?_⟩ <;> rw [htold]
    · exact htrack.follows.order
    · exact fun z hz => (h.getElem?_history hhistory hz).trans (htrack.follows.values z hz)
    · intro e he z hz hp
      rcases htasks z hz with ⟨z₀, hz₀, hn, hpath⟩ | hnew
      · exact hn ▸ htrack.ahead e he z₀ hz₀ (hpath.trans hp)
      · exact (h.past e he).trans_le hnew
  | @heard n eventID t c ha hopen ht hc hp htold hhistory htasks =>
    subst ha
    obtain ⟨holdest, htruth⟩ := hturn hopen t ht hp
    refine ⟨⟨?_, ?_⟩, ?_⟩ <;> rw [htold]
    · refine List.pairwise_append.mpr ⟨htrack.follows.order, List.pairwise_singleton .., ?_⟩
      intro e he z hz
      rw [List.mem_singleton.mp hz]
      exact htrack.ahead e he _ (mem_of_task ht) hp
    · rw [hhistory, List.forall_mem_append, List.forall_mem_singleton]
      exact ⟨htrack.follows.values, (h.truthful_iff ht hc).mp htruth⟩
    · rw [htasks, List.forall_mem_append, List.forall_mem_singleton]
      refine ⟨fun e he z hz => htrack.ahead e he z (List.mem_of_mem_filter hz), ?_⟩
      intro z hz hpath
      obtain ⟨hz, hne⟩ := List.mem_filter.mp hz
      exact lt_of_le_of_ne (holdest z hz hpath) (Ne.symm (of_decide_eq_true hne))

/-- **A record that is on track was so before, and the step was in turn**, if the watcher is still
registered. -/
theorem OnTrack.of_step (htrack : OnTrack p y) (h : Watched id p x)
    (hs : toldStep id x a = some y) (hopen : x.1.hears id p = true) :
    OnTrack p x ∧ InTurn id p x a := by
  obtain ⟨⟨horder, hvalues⟩, hahead⟩ := htrack
  cases turn_of_step h hs with
  | quiet htold hhistory hturn _ hkept =>
    rw [htold] at horder hvalues hahead
    refine ⟨⟨⟨horder, fun z hz => ?_⟩, fun e he z₀ hz₀ hp => ?_⟩, hturn⟩
    · exact (h.getElem?_history hhistory hz).symm.trans (hvalues z hz)
    · obtain ⟨z, hz, hn, hpath⟩ := hkept hopen z₀ hz₀ hp
      exact hn ▸ hahead e he z hz hpath
  | @heard n eventID t c ha _ ht hc hp htold hhistory htasks =>
    subst ha
    rw [htold] at horder hvalues hahead
    rw [hhistory, List.forall_mem_append, List.forall_mem_singleton] at hvalues
    rw [htasks, List.forall_mem_append, List.forall_mem_singleton] at hahead
    obtain ⟨hbefore, -, hlast⟩ := List.pairwise_append.mp horder
    -- a task of the path is this one, or it is still there afterwards
    have hrest : ∀ z ∈ x.1.tasks, z.1 = n ∨ z ∈ x.1.tasks.filter fun z => z.1 ≠ n := by
      intro z hz
      by_cases hn : z.1 = n
      · exact .inl hn
      · exact .inr (List.mem_filter.mpr ⟨hz, decide_eq_true hn⟩)
    refine ⟨⟨⟨hbefore, hvalues.1⟩, fun e he z hz hpath => ?_⟩, fun _ t' ht' _ => ⟨?_, ?_⟩⟩
    · rcases hrest z hz with hn | hz
      · exact hn ▸ hlast e he _ (List.mem_singleton_self _)
      · exact hahead.1 e he z hz hpath
    · intro z hz hpath
      rcases hrest z hz with hn | hz
      · exact hn.ge
      · exact (hahead.2 z hz hpath).le
    · obtain rfl := Option.some.inj (ht.symm.trans ht')
      exact (h.truthful_iff ht hc).mpr hvalues.2

/-- A watcher that is registered was so before. -/
theorem Watched.hears_of_step (h : Watched id p x) (hs : toldStep id x a = some y)
    (hopen : y.1.hears id p = true) : x.1.hears id p = true := by
  obtain ⟨w, hw, -, hpath⟩ := h.watcher
  obtain ⟨w', hw', -, -, hclosed⟩ := find_of_step h.wf (toldStep_eq_some.mp hs).1 hw
  have hw'open := ((hears_iff hw').mp hopen).1
  refine (hears_iff hw).mpr ⟨?_, hpath.symm⟩
  exact Bool.eq_false_iff.mpr fun hc => Bool.eq_false_iff.mp hw'open (hclosed hc)

/-- A new watcher has been told nothing. -/
theorem find_of_watch (hwatch : step s (.watch id p true) = some s') :
    s'.watch.heap.find id = some ⟨p, true, false, [], false, []⟩ := by
  simp only [step, Watch.step, Option.map_eq_some_iff, Option.ite_none_left_eq_some] at hwatch
  obtain ⟨m, ⟨-, hm⟩, rfl⟩ := hwatch
  obtain rfl := Option.some.inj hm
  rw [Manager.watch, GoMap.find_insert, if_pos rfl]

/-- **The run of a watcher with room in its channel.** -/
theorem delivered_of_run (hrun : Lts.Run (toldStep id) (HasRoom id) x y) (h : Watched id p x)
    (hdel : ∃ w, x.1.watch.heap.find id = some w ∧ w.delivered = x.2.map Prod.snd) :
    ∃ w, y.1.watch.heap.find id = some w ∧ w.delivered = y.2.map Prod.snd := by
  refine (hrun.invariant (P := fun x => Watched id p x ∧ ∃ w, x.1.watch.heap.find id = some w ∧
    w.delivered = x.2.map Prod.snd) ⟨h, hdel⟩ ?_).2
  rintro x a y ⟨h, w, hw, hdel⟩ hroom hs
  obtain ⟨hstep, hnote⟩ := toldStep_eq_some.mp hs
  obtain ⟨w', hw', hp, -⟩ := h.watcher
  obtain rfl := Option.some.inj (hw.symm.trans hw')
  exact ⟨h.step hs, hnote ▸ delivered_of_step h.wf hstep hw hp (hroom w hw) hdel⟩

/-- **A run in turn.** -/
theorem onTrack_of_run (hrun : Lts.Run (toldStep id) (InTurn id p) x y) (h : Watched id p x)
    (htrack : OnTrack p x) : OnTrack p y :=
  (hrun.invariant (P := fun x => Watched id p x ∧ OnTrack p x) ⟨h, htrack⟩
    fun _ _ _ h hturn hs => ⟨h.1.step hs, h.2.step h.1 hturn hs⟩).2

/-- **A run that ends on track.** -/
theorem inTurn_of_onTrack {as : List Action} (h : Watched id p x)
    (hexec : Lts.exec (toldStep id) x as = some y) (hopen : y.1.hears id p = true)
    (htrack : OnTrack p y) : Lts.Meets (toldStep id) (InTurn id p) x as := by
  refine (Lts.meets_of_last (J := Watched id p)
    (P := fun x => x.1.hears id p = true ∧ OnTrack p x) (fun _ _ _ h hs => h.step hs) ?_
    as h hexec ⟨hopen, htrack⟩).2
  rintro x a y h hs ⟨hopen, htrack⟩
  have hopen := h.hears_of_step hs hopen
  obtain ⟨htrack, hturn⟩ := htrack.of_step h hs hopen
  exact ⟨⟨hopen, htrack⟩, hturn⟩

/-! ## 6. Following the schedule -/

/-- A task of `Create` whose node is in the store and who has something left to read of it. -/
def Task.reading : Task → Bool
  | create _ none data version => data.isNone || version.isNone
  | _ => false

/-- **The condition on the schedule, for the values**: no `Set` updates a node before the task of
its creation has read it. -/
def ReadsFirst (p : Str) (s : Sys) : Action → Prop
  | .op op => (update p s.store op).isSome = true →
    ∀ y ∈ s.tasks, y.2.path = p → y.2.reading = false
  | _ => True

instance (p : Str) (s : Sys) : ∀ a, Decidable (ReadsFirst p s a)
  | .op op => inferInstanceAs (Decidable ((update p s.store op).isSome = true →
    ∀ y ∈ s.tasks, y.2.path = p → y.2.reading = false))
  | .fire _ _ | .readData _ | .readVersion _ | .watch _ _ _ | .unwatch _ | .receive _ =>
    inferInstanceAs (Decidable True)

/-- **The condition on the schedule, for the order**: while the watcher is registered, the task
that triggers an event on its path is the oldest one of that path. -/
def InOrder (id p : Str) (x : Sys × List (Nat × Event)) : Action → Prop
  | .fire n _ => x.1.hears id p = true → ∀ t ∈ x.1.task n, t.path = p →
    ∀ y ∈ x.1.tasks, y.2.path = p → n ≤ y.1
  | _ => True

instance (id p : Str) (x : Sys × List (Nat × Event)) : ∀ a, Decidable (InOrder id p x a)
  | .fire n _ => inferInstanceAs (Decidable (x.1.hears id p = true → ∀ t ∈ x.1.task n, t.path = p →
    ∀ y ∈ x.1.tasks, y.2.path = p → n ≤ y.1))
  | .op _ | .readData _ | .readVersion _ | .watch _ _ _ | .unwatch _ | .receive _ =>
    inferInstanceAs (Decidable True)

/-- What the task has read, and what it would read now, is what the change `c` has made. -/
def Task.AsMade (st : Store) (c : Change) : Task → Prop
  | create path node data version =>
    (∀ d ∈ data, d = c.data) ∧ (∀ v ∈ version, v = c.version) ∧
      (data = none ∨ version = none →
        (create path node data version).shows st = some (c.version, c.data))
  | call _ => True

/-- The tasks of the path know their nodes as these were made. -/
def Faithful (p : Str) (s : Sys) : Prop :=
  ∀ x ∈ s.tasks, x.2.path = p → ∀ c, s.history[x.1]? = some c → x.2.AsMade s.store c

theorem asMade_start {st st' : Store} {op : StoreOp} {i : Nat}
    (hstep : Store.step st op = some st') (hc : (changes st op)[i]? = some c) :
    (Task.start c).AsMade st' c := by
  rcases start_cases hstep hc with heq | ⟨heq, -, hvalue, -⟩
  · rw [heq]
    trivial
  · rw [heq]
    exact ⟨by simp, by simp, fun _ => hvalue⟩

theorem Task.AsMade.read {st : Store} {t' : Task} (h : t.AsMade st c) (hread : t.Read st t') :
    t'.AsMade st c := by
  cases hread with
  | data hv =>
    obtain ⟨-, hversion, hshows⟩ := h
    have hnow := hshows (.inl rfl)
    obtain rfl := Option.some.inj (hv.symm.trans hnow)
    exact ⟨by simp, hversion, fun _ => (shows_create ..).trans hnow⟩
  | version hv =>
    obtain ⟨hdata, -, hshows⟩ := h
    have hnow := hshows (.inr rfl)
    obtain rfl := Option.some.inj (hv.symm.trans hnow)
    exact ⟨hdata, by simp, fun _ => (shows_create ..).trans hnow⟩

/-- An operation that does not update the node of a task that is reading. -/
theorem Task.AsMade.detach {st st' : Store} {op : StoreOp} (h : t.AsMade st c)
    (hstep : Store.step st op = some st')
    (hkeep : t.reading = true → update t.path st op = none) :
    (t.detach st st').AsMade st' c := by
  cases t with
  | call => trivial
  | create path node data version =>
    obtain ⟨hdata, hversion, hshows⟩ := h
    cases node with
    | some v => exact ⟨hdata, hversion, hshows⟩
    | none =>
      refine ⟨hdata, hversion, fun hleft => ?_⟩
      have hv : valueAt st.nodes path = some (c.version, c.data) := hshows hleft
      by_cases hmem : path ∈ st'.nodes
      · obtain ⟨n, hn, hvalue⟩ := exists_find_of_valueAt hv
        have hnone : update path st op = none := by
          refine hkeep ?_
          rcases hleft with rfl | rfl <;> simp [Task.reading]
        rcases value_of_step hn hstep hmem with ⟨u, hu, -⟩ | ⟨-, hafter⟩
        · rw [hnone] at hu
          cases hu
        · rw [if_pos hmem, ← hvalue]
          exact hafter
      · rw [if_neg hmem, hv]
        rfl

theorem faithful_newSys : Faithful p newSys := by
  simp [Faithful, newSys]

/-- **A step that meets the condition keeps what the tasks know true.** -/
theorem Faithful.step (h : Faithful p s) (hwf : Wf s) (hok : ReadsFirst p s a)
    (hs : step s a = some s') : Faithful p s' := by
  cases move_of_step hs with
  | @op op st hst =>
    intro x hx hp c hc
    rcases mem_tasks_mutate.mp hx with ⟨y, hy, rfl⟩ | ⟨i, c', hc', rfl⟩
    · obtain ⟨c₀, hc₀, -⟩ := hwf.tasks y hy
      have hlt := (List.getElem?_eq_some_iff.mp hc₀).1
      obtain rfl := Option.some.inj (((List.getElem?_append_left hlt).symm.trans hc).symm.trans hc₀)
      have hpath : y.2.path = p := (detach_path ..).symm.trans hp
      refine (h y hy hpath c hc₀).detach hst fun hreading => ?_
      rw [hpath]
      by_contra hsome
      have hread := hok (Option.isSome_iff_ne_none.mpr hsome) y hy hpath
      rw [hreading] at hread
      cases hread
    · rw [Sys.mutate, List.getElem?_append_right (Nat.le_add_right ..),
        Nat.add_sub_cancel_left] at hc
      obtain rfl := Option.some.inj (hc'.symm.trans hc)
      exact asMade_start hst hc'
  | read ha ht hread =>
    intro x hx hp c hc
    rcases mem_tasks_setTask hx with rfl | hx
    · exact (h _ (mem_of_task ht) (hread.path_eq.symm.trans hp) c hc).read hread
    · exact h x hx hp c hc
  | fire => exact fun x hx => h x (List.mem_of_mem_filter hx)
  | client => exact h

theorem faithful_of_run (hrun : Lts.Run step (ReadsFirst p) newSys s) : Faithful p s :=
  (hrun.invariant (P := fun s => Wf s ∧ Faithful p s) ⟨wf_newSys, faithful_newSys⟩
    fun _ _ _ h hok hs => ⟨h.1.step hs, h.2.step h.1 hok hs⟩).2

/-- A task that knows its node as it was made tells of its change. -/
theorem Task.Runs.truthful {st : Store} {later : List Change} {c' : Change}
    (h : t.Runs st c later) (hmade : t.AsMade st c) (hc : t.change? = some c') :
    t.Truthful (some c) := by
  cases t with
  | call => trivial
  | create path node data version =>
    obtain ⟨htype, hpath, -⟩ := h
    obtain ⟨hdata, hversion, -⟩ := hmade
    unfold Task.change? at hc
    split at hc
    · rename_i path' node' d v heq
      cases heq
      rw [Task.Truthful, Task.change?, hdata d rfl, hversion v rfl, ← hpath, ← htype]
    · cases hc
    · rename_i heq
      cases heq

/-- **A schedule is in turn if it is in order and the tasks read first.** -/
theorem Faithful.inTurn (hf : Faithful p x.1) (h : Watched id p x) (horder : InOrder id p x a)
    (hs : toldStep id x a = some y) : InTurn id p x a := by
  cases turn_of_step h hs with
  | quiet _ _ hturn => exact hturn
  | @heard n eventID t c ha hopen ht hc hp =>
    subst ha
    intro _ t' ht' _
    obtain rfl := Option.some.inj (ht.symm.trans ht')
    obtain ⟨c₀, hc₀, hruns⟩ := h.wf.tasks _ (mem_of_task ht)
    have htruth := hruns.truthful (hf _ (mem_of_task ht) hp c₀ hc₀) hc
    exact ⟨horder hopen t ht hp, hc₀ ▸ htruth⟩

/-- **A run on schedule.** -/
theorem onTrack_of_schedule
    (hrun : Lts.Run (toldStep id) (fun x a => InOrder id p x a ∧ ReadsFirst p x.1 a) x y)
    (h : Watched id p x) (hf : Faithful p x.1) (htrack : OnTrack p x) : OnTrack p y := by
  refine (hrun.invariant (P := fun x => Watched id p x ∧ Faithful p x.1 ∧ OnTrack p x)
    ⟨h, hf, htrack⟩ ?_).2.2
  rintro x a y ⟨h, hf, htrack⟩ ⟨horder, hreads⟩ hs
  have hturn := hf.inTurn h horder hs
  exact ⟨h.step hs, hf.step h.wf hreads (toldStep_eq_some.mp hs).1, htrack.step h hturn hs⟩

end Told

/-- **Watchers and the history of the store.**  Let a persistent watcher be registered on a path at
any time, and let anything happen afterwards, its channel never being full.  It has then been
delivered what `told` records, and
* this follows the history of the path if every task that triggers an event on the path while the
  watcher is registered is the oldest one of the path and tells of its change;
* if the watcher is registered to the end, and the tasks of the path are all done, it does so only
  then;
* on the schedule: it does so if these tasks are each the oldest one of the path, and from the start
  no `Set` has updated a node at the path before the task of its `Create` had read it. -/
theorem watch_follows_history_iff {s₀ s₁ : Sys} {told : List (Nat × Event)} {as : List Action}
    (hreach : Lts.Reach step newSys s₀) (hwatch : step s₀ (.watch id p true) = some s₁)
    (hexec : Lts.exec (toldStep id) (s₁, []) as = some (s, told))
    (hroom : Lts.Meets (toldStep id) (HasRoom id) (s₁, []) as) :
    (∃ w, s.watch.heap.find id = some w ∧ w.delivered = told.map Prod.snd) ∧
    (Lts.Meets (toldStep id) (InTurn id p) (s₁, []) as → Follows s.history told) ∧
    (s.hears id p = true → (∀ x ∈ s.tasks, x.2.path ≠ p) → Follows s.history told →
      Lts.Meets (toldStep id) (InTurn id p) (s₁, []) as) ∧
    (Lts.Run step (ReadsFirst p) newSys s₀ →
      Lts.Meets (toldStep id) (fun x a => InOrder id p x a ∧ ReadsFirst p x.1 a) (s₁, []) as →
      Follows s.history told) := by
  have hnew := find_of_watch hwatch
  have hstart : Watched id p (s₁, []) :=
    ⟨(wf_of_reach hreach).step hwatch, ⟨_, hnew, rfl, rfl⟩, by simp⟩
  have htrack : OnTrack p (s₁, []) := ⟨⟨.nil, by simp⟩, by simp⟩
  refine ⟨?_, fun hturn => ?_, fun hopen hidle hfollows => ?_, fun hbefore hschedule => ?_⟩
  · exact delivered_of_run (.of_meets hexec hroom) hstart ⟨_, hnew, rfl⟩
  · exact (onTrack_of_run (.of_meets hexec hturn) hstart htrack).follows
  · have hdone : OnTrack p (s, told) :=
      ⟨hfollows, fun _ _ z hz hp => absurd hp (hidle z hz)⟩
    exact inTurn_of_onTrack hstart hexec hopen hdone
  · have hf := (faithful_of_run hbefore).step (a := .watch id p true) (wf_of_reach hreach) trivial
      hwatch
    exact (onTrack_of_schedule (.of_meets hexec hschedule) hstart hf htrack).follows

/-- main has set everything up and a client watches `/a`. -/
def watchingA : Sys := { newSys with watch := newManager.watch "w".toList "/a".toList true }

theorem step_watchingA : step newSys (.watch "w".toList "/a".toList true) = some watchingA := rfl

/-- What a client has seen at the end of a list of actions. -/
theorem exists_delivered (id : Str) (x : Sys × List (Nat × Event))
    {P : Sys → List (Nat × Event) → Watcher → Prop} [∀ s told w, Decidable (P s told w)]
    (as : List Action)
    (h : ((Lts.exec (toldStep id) x as).any fun y =>
      (y.1.watch.heap.find id).any fun w => decide (P y.1 y.2 w)) = true) :
    ∃ s told w, Lts.exec (toldStep id) x as = some (s, told) ∧
      s.watch.heap.find id = some w ∧ P s told w := by
  obtain ⟨y, hy, h⟩ := (Option.any_eq_true _ _).mp h
  obtain ⟨w, hw, hP⟩ := (Option.any_eq_true _ _).mp h
  exact ⟨y.1, y.2, w, hy, hw, of_decide_eq_true hP⟩

/-- The node is made and updated, and the callbacks run in this order, each at once. -/
def promptRun : List Action :=
  [.op (.create "/a".toList "x".toList false [] false), .readData 0, .readVersion 0,
    .fire 0 "1".toList, .op (.set "/a".toList "y".toList (-1)), .fire 1 "2".toList]

theorem watch_follows_history_prompt :
    ∃ s told w, step newSys (.watch "w".toList "/a".toList true) = some watchingA ∧
      Lts.exec (toldStep "w".toList) (watchingA, []) promptRun = some (s, told) ∧
      s.watch.heap.find "w".toList = some w ∧ w.delivered = told.map Prod.snd ∧
      told.length = 2 ∧ Follows s.history told := by
  obtain ⟨s, told, w, hexec, hw, hlen⟩ := exists_delivered "w".toList (watchingA, [])
    promptRun (P := fun _ told _ => told.length = 2) (by decide +kernel)
  obtain ⟨⟨w', hw', hdel⟩, -, -, hfollows⟩ :=
    watch_follows_history_iff (.refl newSys) step_watchingA hexec (by decide +kernel)
  obtain rfl := Option.some.inj (hw.symm.trans hw')
  exact ⟨s, told, w, step_watchingA, hexec, hw, hdel, hlen,
    hfollows (.refl newSys) (by decide +kernel)⟩

/-- The node is updated before the callback of its creation looks at it. -/
def lateRead : List Action :=
  [.op (.create "/a".toList "x".toList false [] false), .op (.set "/a".toList "y".toList (-1)),
    .readData 0, .readVersion 0, .fire 0 "1".toList, .fire 1 "2".toList]

/-- The callback of the update overtakes that of the creation. -/
def overtaking : List Action :=
  [.op (.create "/a".toList "x".toList false [] false), .readData 0, .readVersion 0,
    .op (.set "/a".toList "y".toList (-1)), .fire 1 "2".toList, .fire 0 "1".toList]

/-- The two changes of `/a` in the runs above. -/
def madeAndUpdated : List Change :=
  [⟨.created, "/a".toList, "x".toList, 1⟩, ⟨.dataChanged, "/a".toList, "y".toList, 2⟩]

/-- **A watcher can be told of a creation with what an update has made of the node, and it can be
told of the update first.** -/
theorem watch_departs_from_history :
    step newSys (.watch "w".toList "/a".toList true) = some watchingA ∧
    (Lts.Meets (toldStep "w".toList) (HasRoom "w".toList) (watchingA, []) lateRead ∧
      ∃ s told w, Lts.exec (toldStep "w".toList) (watchingA, []) lateRead = some (s, told) ∧
        s.watch.heap.find "w".toList = some w ∧ s.history = madeAndUpdated ∧
        w.delivered = [⟨"1".toList, .created, "/a".toList, "y".toList, 2⟩,
          ⟨"2".toList, .dataChanged, "/a".toList, "y".toList, 2⟩] ∧
        ¬ Follows s.history told) ∧
    Lts.Meets (toldStep "w".toList) (HasRoom "w".toList) (watchingA, []) overtaking ∧
      ∃ s told w, Lts.exec (toldStep "w".toList) (watchingA, []) overtaking = some (s, told) ∧
        s.watch.heap.find "w".toList = some w ∧ s.history = madeAndUpdated ∧
        w.delivered = [⟨"2".toList, .dataChanged, "/a".toList, "y".toList, 2⟩,
          ⟨"1".toList, .created, "/a".toList, "x".toList, 1⟩] ∧
        ¬ Follows s.history told := by
  refine ⟨step_watchingA, ⟨by decide +kernel, ?_⟩, by decide +kernel, ?_⟩
  · exact exists_delivered "w".toList (watchingA, []) lateRead (by decide +kernel)
  · exact exists_delivered "w".toList (watchingA, []) overtaking (by decide +kernel)

end SkyLock.Wiring
