/-
# What a watcher is delivered

The events of a watcher as a function of what has happened since it was registered.  One that is
not persistent gets the first event on its path, unless it is unwatched before (`firstEvent`).  A
persistent one gets every event on its path until it is unwatched, except those that come while its
channel is full (`accepted`, which counts the events in the channel along the way).

Both are said of the ACTIONS alone.  The proof goes through the single watcher: in any run of the
manager it takes the steps of `Watcher.next` and no others (`find_of_exec`), and these are folded
over the list of actions (`delivered_of_persistent`, `delivered_of_oneShot`).
-/
import SkyLock.Watch.Manager

namespace SkyLock.Watch

/-! ## 1. What should be delivered -/

/-- The events triggered on a path. -/
def triggersOn (path : Str) : List Action → List Event
  | [] => []
  | .trigger event :: as =>
    if event.path = path then event :: triggersOn path as else triggersOn path as
  | .watch _ _ _ :: as | .unwatch _ :: as | .receive _ :: as => triggersOn path as

/-- The first event on the path, if it comes before the watcher is unwatched. -/
def firstEvent (id path : Str) : List Action → List Event
  | [] => []
  | .trigger event :: as => if event.path = path then [event] else firstEvent id path as
  | .unwatch id' :: as => if id' = id then [] else firstEvent id path as
  | .watch _ _ _ :: as | .receive _ :: as => firstEvent id path as

/-- The events on the path until the watcher is unwatched, without those that find `capacity`
events in the channel; `n` counts them. -/
def accepted (id path : Str) : Nat → List Action → List Event
  | _, [] => []
  | n, .trigger event :: as =>
    if event.path = path ∧ n < capacity then event :: accepted id path (n + 1) as
    else accepted id path n as
  | n, .unwatch id' :: as => if id' = id then [] else accepted id path n as
  | n, .receive id' :: as => accepted id path (if id' = id then n - 1 else n) as
  | n, .watch _ _ _ :: as => accepted id path n as

theorem accepted_sublist (id path : Str) :
    ∀ (as : List Action) (n : Nat), (accepted id path n as).Sublist (triggersOn path as) := by
  intro as
  induction as with
  | nil => simp [accepted, triggersOn]
  | cons a as ih =>
    intro n
    cases a with
    | watch => exact ih n
    | unwatch id' =>
      simp only [accepted, triggersOn]
      split
      · exact List.nil_sublist _
      · exact ih n
    | trigger event =>
      simp only [accepted, triggersOn]
      by_cases hp : event.path = path
      · by_cases hn : n < capacity
        · simpa [hp, hn] using ih (n + 1)
        · simpa [hp, hn] using (ih n).cons event
      · simpa [hp] using ih n
    | receive id' => exact ih _

theorem firstEvent_sublist (id path : Str) (as : List Action) :
    (firstEvent id path as).Sublist (triggersOn path as) := by
  induction as with
  | nil => simp [firstEvent, triggersOn]
  | cons a as ih =>
    cases a with
    | watch | receive => exact ih
    | unwatch id' =>
      simp only [firstEvent, triggersOn]
      split
      · exact List.nil_sublist _
      · exact ih
    | trigger event =>
      simp only [firstEvent, triggersOn]
      split
      · exact List.singleton_sublist.mpr List.mem_cons_self
      · exact ih

/-! ## 2. One watcher over a list of actions -/

namespace Watcher

/-- Everything that was ever put into the channel. -/
def delivered (w : Watcher) : List Event := w.received ++ w.buffer

variable {w : Watcher} {id : Str}

theorem delivered_receive : w.receive.delivered = w.delivered := by
  unfold receive delivered
  split
  · rename_i e rest hbuf
    simp [hbuf]
  · rfl

theorem length_receive : w.receive.buffer.length = w.buffer.length - 1 := by
  unfold receive
  split
  · rename_i e rest hbuf
    simp [hbuf]
  · rename_i hbuf
    simp [hbuf]

theorem delivered_accept (event : Event) :
    (w.accept event).delivered =
      w.delivered ++ if w.buffer.length < capacity then [event] else [] := by
  unfold accept delivered
  split <;> simp

/-- A closed channel gets nothing more. -/
theorem delivered_of_closed (as : List Action) : ∀ {w : Watcher}, w.closed = true →
    (as.foldl (next id) w).delivered = w.delivered := by
  induction as with
  | nil => exact fun _ => rfl
  | cons a as ih =>
    intro w hc
    rw [List.foldl_cons, ih (w.next_closed id a hc)]
    cases a with
    | watch => rfl
    | unwatch id' =>
      rw [next_unwatch]
      split <;> rfl
    | trigger event => simp [next_trigger, hc]
    | receive id' =>
      rw [next_receive]
      split
      · exact delivered_receive
      · rfl

/-- **A persistent watcher** gets what `accepted` says. -/
theorem delivered_of_persistent (as : List Action) : ∀ {w : Watcher}, w.closed = false →
    w.persistent = true →
    (as.foldl (next id) w).delivered =
      w.delivered ++ accepted id w.path w.buffer.length as := by
  induction as with
  | nil => simp [accepted]
  | cons a as ih =>
    intro w hc hp
    rw [List.foldl_cons]
    cases a with
    | watch => exact ih hc hp
    | unwatch id' =>
      rw [next_unwatch, accepted]
      split
      · rw [delivered_of_closed as rfl, List.append_nil]
        rfl
      · exact ih hc hp
    | trigger event =>
      rw [next_trigger, accepted]
      by_cases hpath : event.path = w.path
      · have hfire : w.fire event = w.accept event := by rw [fire, if_pos hp]
        rw [if_pos ⟨hc, hpath⟩, hfire, ih (by simp [hc]) (by simp [hp]), delivered_accept,
          accept_path]
        by_cases hroom : w.buffer.length < capacity
        · simp [hpath, hroom, accept]
        · simp [hroom, accept]
      · rw [if_neg (mt And.right hpath), if_neg (mt And.left hpath)]
        exact ih hc hp
    | receive id' =>
      rw [next_receive, accepted]
      split
      · rw [ih (by simp [hc]) (by simp [hp]), delivered_receive, length_receive, receive_path]
      · exact ih hc hp

/-- **A one-shot watcher** with room in its channel gets the first event. -/
theorem delivered_of_oneShot (as : List Action) : ∀ {w : Watcher}, w.closed = false →
    w.persistent = false → w.buffer = [] →
    (as.foldl (next id) w).delivered = w.delivered ++ firstEvent id w.path as := by
  induction as with
  | nil => simp [firstEvent]
  | cons a as ih =>
    intro w hc hp hbuf
    rw [List.foldl_cons]
    cases a with
    | watch => exact ih hc hp hbuf
    | unwatch id' =>
      rw [next_unwatch, firstEvent]
      split
      · rw [delivered_of_closed as rfl, List.append_nil]
        rfl
      · exact ih hc hp hbuf
    | trigger event =>
      rw [next_trigger, firstEvent]
      by_cases hpath : event.path = w.path
      · have hclosed : (w.fire event).closed = true := by simp [fire, hp]
        have hfire : (w.fire event).delivered = (w.accept event).delivered := by
          simp [fire, hp, delivered]
        have hroom : w.buffer.length < capacity := by
          rw [hbuf]
          decide
        rw [if_pos ⟨hc, hpath⟩, delivered_of_closed as hclosed, hfire, delivered_accept,
          if_pos hroom, if_pos hpath]
      · rw [if_neg (mt And.right hpath), if_neg hpath]
        exact ih hc hp hbuf
    | receive id' =>
      have hempty : w.receive = w := by simp [receive, hbuf]
      rw [next_receive, firstEvent, hempty, ite_self]
      exact ih hc hp hbuf

end Watcher

/-! ## 3. The manager -/

section Manager

variable {m m' : Manager} {id path : Str} {w : Watcher} {event : Event}

/-- **A watcher takes its own steps**, whatever else the manager does. -/
theorem find_of_exec : ∀ (as : List Action) {m : Manager} {w : Watcher}, Sound m →
    Lts.exec step m as = some m' → m.heap.find id = some w →
    m'.heap.find id = some (as.foldl (Watcher.next id) w) := by
  intro as
  induction as with
  | nil =>
    intro m w _ hexec hw
    obtain rfl := Option.some.inj hexec
    exact hw
  | cons a as ih =>
    intro m w h hexec hw
    simp only [Lts.exec, Option.bind_eq_some_iff] at hexec
    obtain ⟨m₁, hstep, hexec⟩ := hexec
    exact ih (h.step hstep) hexec (next_of_step h hstep hw)

/-- The map holds a list exactly where there are watchers. -/
theorem Sound.find_eq (h : Sound m) (path : Str) :
    m.watchers.find path = if m.listAt path = [] then none else some (m.listAt path) := by
  unfold Manager.listAt
  cases hf : m.watchers.find path with
  | none => simp
  | some ids =>
    have hne : ids ≠ [] := fun h0 => h.proper path (h0 ▸ hf)
    simp [hne]

/-- An event on one path does not reach the others. -/
theorem trigger_frame (h : Sound m) (hok : m.triggerEvent event = .ok m') :
    (∀ path, path ≠ event.path → m'.watchers.find path = m.watchers.find path) ∧
    ∀ id w, m.heap.find id = some w → w.path ≠ event.path → m'.heap.find id = some w := by
  obtain ⟨m₁, hm₁, heffect⟩ := effect_trigger h event
  obtain rfl := Except.ok.inj (hok.symm.trans hm₁)
  have hheap : ∀ id w, m.heap.find id = some w → w.path ≠ event.path →
      m'.heap.find id = some w := by
    intro id w hw hne
    rw [heffect.heap, hw, Option.map_some, Watcher.next_trigger,
      if_neg (mt And.right (Ne.symm hne))]
  refine ⟨fun path hne => ?_, hheap⟩
  have hlist : m'.listAt path = m.listAt path := by
    rw [heffect.list]
    refine h.filter_eq_self fun id hid => ?_
    obtain ⟨w, hw, -, rfl⟩ := (h.listed path id).mp hid
    rw [hw, hheap id w hw hne]
  rw [(h.of_effect heffect).find_eq, h.find_eq, hlist]

/-- **Watch delivery.**  Let a watcher be registered at any time, and let anything happen
afterwards.  Not persistent, it has been delivered exactly the first event triggered on its path
since, if there was one before it was unwatched; persistent, exactly those events triggered on its
path before it was unwatched that did not find ten events in its channel.  Either way they come in
the order of the triggers, each once.  And whenever an event is triggered, the watchers and
channels of all other paths stay as they are. -/
theorem watch_delivery {m₀ m₁ : Manager} {persistent : Bool} {as : List Action}
    (hreach : Lts.Reach step newManager m₀)
    (hwatch : step m₀ (.watch id path persistent) = some m₁)
    (hexec : Lts.exec step m₁ as = some m) :
    (∃ w, m.heap.find id = some w ∧
      w.delivered = (if persistent then accepted id path 0 as else firstEvent id path as) ∧
      w.delivered.Sublist (triggersOn path as)) ∧
    ∀ event m', m.triggerEvent event = .ok m' →
      (∀ p, p ≠ event.path → m'.watchers.find p = m.watchers.find p) ∧
      ∀ k w, m.heap.find k = some w → w.path ≠ event.path → m'.heap.find k = some w := by
  have hsound := sound_of_reach hreach
  have hsound₁ := hsound.step hwatch
  simp only [step, Option.ite_none_left_eq_some] at hwatch
  obtain rfl := Option.some.inj hwatch.2
  have hnew : (m₀.watch id path persistent).heap.find id =
      some ⟨path, persistent, false, [], false, []⟩ := by
    rw [Manager.watch, GoMap.find_insert, if_pos rfl]
  have hfind := find_of_exec as hsound₁ hexec hnew
  have hsound_m : Sound m := (Lts.Run.of_exec hexec).invariant hsound₁ fun _ _ _ h _ => h.step
  refine ⟨⟨_, hfind, ?_⟩, fun event m' hok => trigger_frame hsound_m hok⟩
  cases persistent with
  | true =>
    have hdel := @Watcher.delivered_of_persistent id as ⟨path, true, false, [], false, []⟩ rfl rfl
    rw [hdel]
    exact ⟨rfl, accepted_sublist id path as 0⟩
  | false =>
    have hdel := @Watcher.delivered_of_oneShot id as ⟨path, false, false, [], false, []⟩ rfl rfl
      rfl
    rw [hdel]
    exact ⟨rfl, firstEvent_sublist id path as⟩

end Manager

/-- An event with the given id. -/
def eventOn (path id : Str) : Event := ⟨id, .dataChanged, path, [], 1⟩

/-- Another watcher, two events on the path and one on another. -/
def threeEvents : List Action :=
  [.watch "v".toList "/a".toList false, .trigger (eventOn "/b".toList "0".toList),
    .trigger (eventOn "/a".toList "1".toList), .receive "w".toList,
    .trigger (eventOn "/a".toList "2".toList)]

theorem watch_delivery_threeEvents :
    ∃ m₁ m w, step newManager (.watch "w".toList "/a".toList true) = some m₁ ∧
      Lts.exec step m₁ threeEvents = some m ∧ m.heap.find "w".toList = some w ∧
      w.delivered = [eventOn "/a".toList "1".toList, eventOn "/a".toList "2".toList] := by
  have hexec : ((step newManager (.watch "w".toList "/a".toList true)).bind fun m₁ =>
      Lts.exec step m₁ threeEvents).isSome = true := by
    decide +kernel
  obtain ⟨m, hm⟩ := Option.isSome_iff_exists.mp hexec
  obtain ⟨m₁, hm₁, hm⟩ := Option.bind_eq_some_iff.mp hm
  obtain ⟨⟨w, hw, hdelivered, -⟩, -⟩ := watch_delivery (.refl newManager) hm₁ hm
  exact ⟨m₁, m, w, hm₁, hm, hw, hdelivered.trans (by decide +kernel)⟩

end SkyLock.Watch
