/-
# What a watcher is told has happened

The callbacks of the store run as goroutines, so a watcher is told of the changes in any order, and
the callback of `Create` reads its node only when it runs.  This module says what is left whatever
the order: every event that a watcher ever gets, persistent or not, stems from a change of its path,
no change is told of twice, and what the event says of the node was once true of it
(`watch_events_sound`).

The invariant (`Sourced`) keeps a list of the changes that the watcher has been told of.  A change
has one callback, and a callback that has triggered its event is gone, so no change enters the
list twice.
-/
import SkyLock.Watch.Wiring

namespace SkyLock.Wiring

open Store Watch

variable {s s' : Sys} {a : Action} {n : Nat} {t : Task} {c : Change} {id : Str}

/-! ## 1. Telling of a change -/

/-- The event tells of the change `c`, which the changes `later` came after.  A deletion or an
update is told of as it was; a creation with data and a version that its node had at some time,
not necessarily at the same. -/
structure Change.Tells (c : Change) (later : List Change) (e : Event) : Prop where
  type : e.type = c.type
  path : e.path = c.path
  exact : c.type ≠ .created → e.data = c.data ∧ e.version = c.version
  data : ∃ i, e.data = (c.after (later.take i)).2.2
  version : ∃ j, e.version = (c.after (later.take j)).2.1

/-- The event tells of the change number `n`. -/
def Told (history : List Change) (n : Nat) (e : Event) : Prop :=
  ∃ c, history[n]? = some c ∧ c.Tells (history.drop (n + 1)) e

/-- What a task has read so far was once true of its node. -/
def Task.HasRead (c : Change) (later : List Change) : Task → Prop
  | create _ _ data version =>
    (∀ d ∈ data, ∃ i, d = (c.after (later.take i)).2.2) ∧
      ∀ v ∈ version, ∃ j, v = (c.after (later.take j)).2.1
  | call _ => True

/-- What was true at some time stays so. -/
theorem exists_take_append {α β : Type*} {f : List α → β} {b : β} {later : List α} (more : List α)
    (h : ∃ i, b = f (later.take i)) : ∃ i, b = f ((later ++ more).take i) := by
  obtain ⟨i, hi⟩ := h
  refine ⟨min i later.length, ?_⟩
  rw [List.take_append_of_le_length (Nat.min_le_right ..), ← List.take_eq_take_min]
  exact hi

theorem Change.Tells.append {later : List Change} {e : Event} (h : c.Tells later e)
    (more : List Change) : c.Tells (later ++ more) e :=
  ⟨h.type, h.path, h.exact, exists_take_append (f := fun l => (c.after l).2.2) more h.data,
    exists_take_append (f := fun l => (c.after l).2.1) more h.version⟩

theorem Task.HasRead.append {later : List Change} (h : t.HasRead c later) (more : List Change) :
    t.HasRead c (later ++ more) := by
  cases t with
  | call => trivial
  | create path node data version =>
    exact ⟨fun d hd => exists_take_append (f := fun l => (c.after l).2.2) more (h.1 d hd),
      fun v hv => exists_take_append (f := fun l => (c.after l).2.1) more (h.2 v hv)⟩

theorem Told.append {history : List Change} {e : Event} (h : Told history n e)
    (more : List Change) : Told (history ++ more) n e := by
  obtain ⟨c, hc, htells⟩ := h
  have hlt := (List.getElem?_eq_some_iff.mp hc).1
  refine ⟨c, (List.getElem?_append_left hlt).trans hc, ?_⟩
  rw [List.drop_append_of_le_length hlt]
  exact htells.append more

theorem Told.lt {history : List Change} {e : Event} (h : Told history n e) :
    n < history.length := by
  obtain ⟨c, hc, -⟩ := h
  exact (List.getElem?_eq_some_iff.mp hc).1

/-- A task that has its arguments tells of its change. -/
theorem Task.Runs.tells {st : Store} {later : List Change} {c' : Change} (h : t.Runs st c later)
    (hread : t.HasRead c later) (hc : t.change? = some c') (eventID : Str) :
    c.Tells later (c'.event eventID) := by
  cases t with
  | call c₀ =>
    obtain rfl : c₀ = c := h
    obtain rfl := Option.some.inj hc
    exact ⟨rfl, rfl, fun _ => ⟨rfl, rfl⟩, ⟨0, rfl⟩, 0, rfl⟩
  | create path node data version =>
    obtain ⟨htype, rfl, -⟩ := h
    obtain ⟨hdata, hversion⟩ := hread
    cases data with
    | none => cases hc
    | some d =>
      cases version with
      | none => cases hc
      | some v =>
        obtain rfl := Option.some.inj hc
        exact ⟨htype.symm, rfl, fun hne => absurd htype hne, hdata d rfl, hversion v rfl⟩

/-! ## 2. What the tasks have read -/

/-- Every task has read what was once true. -/
def Reads (s : Sys) : Prop :=
  ∀ z ∈ s.tasks, ∀ c, s.history[z.1]? = some c → z.2.HasRead c (s.history.drop (z.1 + 1))

theorem hasRead_start (c c' : Change) (later : List Change) :
    (Task.start c).HasRead c' later := by
  unfold Task.start
  split
  · exact ⟨by simp, by simp⟩
  · trivial

theorem hasRead_detach {st st' : Store} {later : List Change} (h : t.HasRead c later) :
    (t.detach st st').HasRead c later := by
  unfold Task.detach
  split
  · exact h
  · exact h

/-- What a task reads now is what its node has come to. -/
theorem hasRead_of_read {st : Store} {later : List Change} {t' : Task} (hruns : t.Runs st c later)
    (h : t.HasRead c later) (hread : t.Read st t') : t'.HasRead c later := by
  have hnow : later.take later.length = later := List.take_length
  cases hread with
  | data hv =>
    obtain ⟨-, -, -, hshows⟩ := hruns
    obtain rfl := Option.some.inj (hv.symm.trans hshows)
    refine ⟨fun d hd => ⟨later.length, ?_⟩, h.2⟩
    rw [hnow]
    exact (Option.some.inj hd).symm
  | version hv =>
    obtain ⟨-, -, -, hshows⟩ := hruns
    obtain rfl := Option.some.inj (hv.symm.trans hshows)
    refine ⟨h.1, fun d hd => ⟨later.length, ?_⟩⟩
    rw [hnow]
    exact (Option.some.inj hd).symm

theorem Reads.step (h : Reads s) (hwf : Wf s) (hs : step s a = some s') : Reads s' := by
  cases move_of_step hs with
  | @op op st hst =>
    intro z hz c hc
    rcases mem_tasks_mutate.mp hz with ⟨y, hy, rfl⟩ | ⟨i, c', -, rfl⟩
    · obtain ⟨c₀, hc₀, -⟩ := hwf.tasks y hy
      have hlt := (List.getElem?_eq_some_iff.mp hc₀).1
      obtain rfl := Option.some.inj (((List.getElem?_append_left hlt).symm.trans hc).symm.trans hc₀)
      simp only [Sys.mutate]
      rw [List.drop_append_of_le_length hlt]
      exact (hasRead_detach (h y hy c hc₀)).append _
    · exact hasRead_start c' c _
  | read ha ht hread =>
    intro z hz c hc
    rcases mem_tasks_setTask hz with rfl | hz
    · obtain ⟨c', hc', hruns⟩ := hwf.tasks _ (mem_of_task ht)
      obtain rfl := Option.some.inj (hc.symm.trans hc')
      exact hasRead_of_read hruns (h _ (mem_of_task ht) c hc) hread
    · exact h z hz c hc
  | fire => exact fun z hz => h z (List.mem_of_mem_filter hz)
  | client => exact h

/-! ## 3. What the watchers have been told -/

/-- What an action puts into the channel of a watcher: nothing, or the event on its path. -/
theorem delivered_next (w : Watcher) (id : Str) (b : Watch.Action) :
    (w.next id b).delivered = w.delivered ∨
      ∃ e, b = .trigger e ∧ e.path = w.path ∧ (w.next id b).delivered = w.delivered ++ [e] := by
  cases b with
  | watch => exact .inl rfl
  | unwatch id' =>
    rw [Watcher.next_unwatch]
    split <;> exact .inl rfl
  | receive id' =>
    rw [Watcher.next_receive]
    split
    · exact .inl Watcher.delivered_receive
    · exact .inl rfl
  | trigger e =>
    rw [Watcher.next_trigger]
    split
    · rename_i hheard
      have hfire : (w.fire e).delivered = (w.accept e).delivered := by
        unfold Watcher.fire
        split <;> rfl
      rw [hfire, Watcher.delivered_accept]
      split
      · exact .inr ⟨e, rfl, hheard.2, rfl⟩
      · exact .inl (List.append_nil _)
    · exact .inl rfl

/-- A watcher of the new state was there before, or it is new and has got nothing. -/
theorem find_before {m m' : Manager} {b : Watch.Action} {w' : Watcher} (h : Sound m)
    (hstep : Watch.step m b = some m') (hw' : m'.heap.find id = some w') :
    (∃ w, m.heap.find id = some w ∧ w' = w.next id b) ∨ w'.delivered = [] := by
  cases hw : m.heap.find id with
  | some w =>
    have hnext := next_of_step h hstep hw
    exact .inl ⟨w, rfl, Option.some.inj (hw'.symm.trans hnext)⟩
  | none =>
    rcases effect_of_step h hstep with ⟨id', path, persistent, rfl, hfresh, rfl⟩ | heffect
    · rw [Manager.watch, GoMap.find_insert] at hw'
      split at hw'
      · obtain rfl := Option.some.inj hw'
        exact .inr rfl
      · rw [hw] at hw'
        cases hw'
    · rw [heffect.heap, hw] at hw'
      cases hw'

/-- **The events of a watcher and the changes they tell of.**  The callbacks of these changes are
done. -/
structure Sourced (s : Sys) (w : Watcher) (ns : List Nat) : Prop where
  nodup : ns.Nodup
  done : ∀ n ∈ ns, ∀ z ∈ s.tasks, z.1 ≠ n
  told : List.Forall₂ (Told s.history) ns w.delivered
  path : ∀ e ∈ w.delivered, e.path = w.path

/-- **The invariant.** -/
structure Accountable (s : Sys) : Prop where
  wf : Wf s
  reads : Reads s
  sourced : ∀ id w, s.watch.heap.find id = some w → ∃ ns, Sourced s w ns

section Sourced

variable {w w' : Watcher} {ns : List Nat}

theorem sourced_nil (hdel : w.delivered = []) : Sourced s w [] := by
  refine ⟨List.nodup_nil, fun n hn => absurd hn List.not_mem_nil, ?_, ?_⟩
  · rw [hdel]
    exact .nil
  · rw [hdel]
    exact fun e he => absurd he List.not_mem_nil

/-- The watcher gets nothing. -/
theorem Sourced.quiet (h : Sourced s w ns) (htasks : ∀ z ∈ s'.tasks, ∃ z₀ ∈ s.tasks, z₀.1 = z.1)
    (hhistory : s'.history = s.history) (hdel : w'.delivered = w.delivered)
    (hpath : w'.path = w.path) : Sourced s' w' ns := by
  refine ⟨h.nodup, fun n hn z hz => ?_, ?_, ?_⟩
  · obtain ⟨z₀, hz₀, heq⟩ := htasks z hz
    exact heq ▸ h.done n hn z₀ hz₀
  · rw [hhistory, hdel]
    exact h.told
  · rw [hdel, hpath]
    exact h.path

/-- The store goes on: what has been told of is past. -/
theorem Sourced.mutate {op : StoreOp} {st : Store} (h : Sourced s w ns) :
    Sourced (s.mutate op st) w ns := by
  have hlt : ∀ n ∈ ns, n < s.history.length :=
    ((List.forall₂_and_left ns w.delivered).mp (h.told.imp fun _ _ hold => ⟨hold.lt, hold⟩)).1
  refine ⟨h.nodup, fun n hn z hz => ?_, h.told.imp fun n e hold => hold.append _, h.path⟩
  rcases mem_tasks_mutate.mp hz with ⟨y, hy, rfl⟩ | ⟨i, c, -, rfl⟩
  · exact h.done n hn y hy
  · exact ((hlt n hn).trans_le (Nat.le_add_right ..)).ne'

/-- The callback number `n` tells the watcher. -/
theorem Sourced.fire {m : Manager} {e : Event} (h : Sourced s w ns) (ht : s.task n = some t)
    (htold : Told s.history n e) (hpath : e.path = w.path)
    (hdel : w'.delivered = w.delivered ++ [e]) (hpath' : w'.path = w.path) :
    Sourced (s.finish n m) w' (ns ++ [n]) := by
  have hnew : n ∉ ns := fun hn => h.done n hn _ (mem_of_task ht) rfl
  refine ⟨?_, fun k hk z hz => ?_, ?_, ?_⟩
  · rw [← List.concat_eq_append]
    exact h.nodup.concat hnew
  · obtain ⟨hz, hne⟩ := List.mem_filter.mp hz
    rcases List.mem_append.mp hk with hk | hk
    · exact h.done k hk z hz
    · rw [List.mem_singleton.mp hk]
      exact of_decide_eq_true hne
  · rw [hdel]
    exact List.rel_append h.told (.cons htold .nil)
  · rw [hdel, hpath', List.forall_mem_append, List.forall_mem_singleton]
    exact ⟨h.path, hpath⟩

end Sourced

theorem accountable_newSys : Accountable newSys where
  wf := wf_newSys
  reads z hz := by simp [newSys] at hz
  sourced id w hw := by simp [newSys, newManager] at hw

theorem Accountable.step (h : Accountable s) (hs : step s a = some s') : Accountable s' := by
  refine ⟨h.wf.step hs, h.reads.step h.wf hs, fun id w' hw' => ?_⟩
  cases move_of_step hs with
  | op =>
    obtain ⟨ns, hns⟩ := h.sourced id w' hw'
    exact ⟨ns, hns.mutate⟩
  | read ha ht =>
    obtain ⟨ns, hns⟩ := h.sourced id w' hw'
    refine ⟨ns, hns.quiet (fun z hz => ?_) rfl rfl rfl⟩
    rcases mem_tasks_setTask hz with rfl | hz
    · exact ⟨_, mem_of_task ht, rfl⟩
    · exact ⟨z, hz, rfl⟩
  | @fire n eventID t c m ht hc hm =>
    rcases find_before h.wf.sound hm hw' with ⟨w, hw, rfl⟩ | hnew
    · obtain ⟨ns, hns⟩ := h.sourced id w hw
      rcases delivered_next w id (.trigger (c.event eventID)) with hsame | ⟨e, he, hpath, hdel⟩
      · exact ⟨ns, hns.quiet (fun z hz => ⟨z, List.mem_of_mem_filter hz, rfl⟩) rfl hsame
          (Watcher.next_path ..)⟩
      · cases he
        obtain ⟨c₀, hc₀, hruns⟩ := h.wf.tasks _ (mem_of_task ht)
        have htells := hruns.tells (h.reads _ (mem_of_task ht) c₀ hc₀) hc eventID
        exact ⟨ns ++ [n], hns.fire ht ⟨c₀, hc₀, htells⟩ hpath hdel (Watcher.next_path ..)⟩
    · exact ⟨[], sourced_nil hnew⟩
  | @client _ b m ha hm =>
    rcases find_before h.wf.sound hm hw' with ⟨w, hw, rfl⟩ | hnew
    · obtain ⟨ns, hns⟩ := h.sourced id w hw
      rcases delivered_next w id b with hsame | ⟨e, rfl, -⟩
      · exact ⟨ns, hns.quiet (fun z hz => ⟨z, hz, rfl⟩) rfl hsame (Watcher.next_path ..)⟩
      · -- a client triggers no event
        cases ha
    · exact ⟨[], sourced_nil hnew⟩

/-! ## 4. Soundness -/

/-- No operation of the store changes a list of children for itself. -/
theorem type_ne_childrenChanged {st : Store} {op : StoreOp} (hc : c ∈ changes st op) :
    c.type ≠ .childrenChanged := by
  cases op
  case deleteEphemerals sid order =>
    obtain ⟨path, -, rfl⟩ := List.mem_map.mp hc
    simp
  all_goals
    rw [changes] at hc
    split at hc
    · rw [List.mem_singleton.mp hc]
      simp
    · cases hc

theorem history_ne_childrenChanged (hs : Lts.Reach step newSys s) :
    ∀ c ∈ s.history, c.type ≠ .childrenChanged := by
  refine hs.invariant (P := fun s => ∀ c ∈ s.history, c.type ≠ .childrenChanged) (by simp [newSys])
    fun s a s' h _ hstep => ?_
  cases move_of_step hstep with
  | op =>
    rw [Sys.mutate, List.forall_mem_append]
    exact ⟨h, fun c hc => type_ne_childrenChanged hc⟩
  | read => exact h
  | fire => exact h
  | client => exact h

/-- **Watch events are sound.**  In every state that the store, its callbacks and the watch manager
reach together, whatever the interleaving, the events that a watcher has got can be told apart by
the changes they stem from: each stems from a change of the watcher's path, and no two from the same
one.  An update or a deletion is told of as it was, a creation with data and a version that the node
had at some time before it was deleted.  Nobody is ever told that the children of a node have
changed. -/
theorem watch_events_sound {w : Watcher} (hs : Lts.Reach step newSys s)
    (hw : s.watch.heap.find id = some w) :
    ∃ ns : List Nat, ns.Nodup ∧ List.Forall₂ (Told s.history) ns w.delivered ∧
      ∀ e ∈ w.delivered, e.path = w.path ∧ e.type ≠ .childrenChanged := by
  have hacc : Accountable s :=
    hs.invariant accountable_newSys fun _ _ _ h _ hstep => h.step hstep
  obtain ⟨ns, hns⟩ := hacc.sourced id w hw
  refine ⟨ns, hns.nodup, hns.told, fun e he => ⟨hns.path e he, ?_⟩⟩
  have htypes : List.Forall₂ (fun e n => e.type ≠ .childrenChanged ∧ Told s.history n e)
      w.delivered ns := by
    refine hns.told.flip.imp fun e n hold => ⟨?_, hold⟩
    obtain ⟨c, hc, htells⟩ := hold
    rw [htells.type]
    exact history_ne_childrenChanged hs c (List.mem_of_getElem? hc)
  exact ((List.forall₂_and_left w.delivered ns).mp htypes).1 e he

/-- A client watches `/a`; the node is made and updated, and both callbacks run after that. -/
theorem watch_events_sound_lateRead :
    ∃ s w ns, Lts.Reach step newSys s ∧ s.watch.heap.find "w".toList = some w ∧
      w.delivered.length = 2 ∧ List.Nodup ns ∧ List.Forall₂ (Told s.history) ns w.delivered := by
  obtain ⟨s, hs, hfacts⟩ : ∃ s, Lts.Reach step newSys s ∧
      (s.watch.heap.find "w".toList).map (fun w => w.delivered.length) = some 2 :=
    Lts.exists_reach (.watch "w".toList "/a".toList true :: lateRead) (by decide +kernel)
  obtain ⟨w, hw, hlen⟩ := Option.map_eq_some_iff.mp hfacts
  obtain ⟨ns, hnodup, htold, -⟩ := watch_events_sound hs hw
  exact ⟨s, w, ns, hs, hw, hlen, hnodup, htold⟩

end SkyLock.Wiring
