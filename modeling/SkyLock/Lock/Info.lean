/-
# What is reported of a lock

`getLockInfo` reports the data of the first child of a lock's directory as the holder, a non-empty
holder as "locked", and the number of ALL children as the length of the queue.  So the length is
never the number of clients that wait: the holder's own node is a child too.  And a holder whose
owner is the empty text is reported as no holder.

Nothing is assumed about lock names here.  The directory of a name like `x` can have children that
are not queue nodes: `TryLock` for `x/a` makes the directory `/locks/x/a`.  Such a child counts for
the length, and if it sorts first it hides the holder.  `Kinds` says that there is nothing else:
each child is the queue node of a call, with the call's owner in it, or a directory without data.

The runs are those of the lock manager alone: calls of `TryLock` and `Unlock`, timeouts and the end
of sessions.
-/
import SkyLock.Lock.Cleanup
import SkyLock.Server.Handlers

namespace SkyLock.Lock

open Store Sys Slash Server

variable {s s' : Sys} {a : Action} {st : Store} {i : Nat} {l : Lock} {ds : List Str} {name : Str}
  {x : Sys × GoMap Str Nat}

/-! ## 1. Who is in line -/

/-- Nobody but the lock manager uses the store, apart from sessions that end. -/
def LockTraffic : Action → Prop
  | .node (.deleteEphemerals _ _) => True
  | .node _ => False
  | _ => True

instance : DecidablePred LockTraffic := by
  intro a
  unfold LockTraffic
  split <;> infer_instance

/-- No node of the store is in the directory of the name. -/
def NothingBelow (st : Store) (name : Str) : Prop :=
  ∀ k ∈ st.nodes, parentPath k ≠ normalizePath (lockPath name)

/-- The calls whose own queue node stands in the directory of the name. -/
def inLine (x : Sys × GoMap Str Nat) (name : Str) : Finset Nat :=
  x.1.calls.keys.filter fun i => (x.1.lockOf i).any fun l =>
    directory l = normalizePath (lockPath name) ∧ x.2.find l.path = some i ∧
      l.path ∈ x.1.store.nodes

theorem mem_inLine : i ∈ inLine x name ↔
    ∃ l, x.1.lockOf i = some l ∧ directory l = normalizePath (lockPath name) ∧
      Stands x i l.path := by
  have hcall : ∀ {l}, x.1.lockOf i = some l → i ∈ x.1.calls := by
    intro l hl
    obtain ⟨c, hc, -⟩ := Option.bind_eq_some_iff.mp hl
    exact GoMap.mem_of_find hc
  simp only [inLine, Finset.mem_filter, Finmap.mem_keys, Option.any_eq_true, decide_eq_true_eq]
  constructor
  · rintro ⟨-, l, hl, hdir, hstands⟩
    exact ⟨l, hl, hdir, hstands⟩
  · rintro ⟨l, hl, hdir, hstands⟩
    exact ⟨hcall hl, l, hl, hdir, hstands⟩

/-- Between the creation of its node and the end of its wait. -/
def Phase.waits : Phase → Bool
  | check | register | waiting | recheck => true
  | _ => false

def Pc.waits : Pc → Bool
  | queued _ ph => ph.waits
  | _ => false

/-- The call is waiting for its lock. -/
def Sys.waits (s : Sys) (i : Nat) : Bool := (s.calls.find i).any fun c => c.pc.waits

/-- The clients that wait for the lock. -/
def waitingClients (x : Sys × GoMap Str Nat) (name : Str) : Finset Nat :=
  (inLine x name).filter fun i => x.1.waits i

theorem not_waits_of_granted (h : s.granted i = true) : s.waits i = false := by
  unfold Sys.granted at h
  unfold Sys.waits
  cases hc : s.calls.find i with
  | none => rfl
  | some c =>
    rw [hc] at h
    cases hpc : c.pc with
    | queued l ph =>
      simp only [Option.any_some, hpc, Pc.granted, Pc.waits] at h ⊢
      cases ph <;> first | rfl | cases h
    | ensure | mkdir | enqueue | failed => simp [hpc, Pc.waits]

/-! ## 2. The children of the directory -/

/-- Each child of the directory is the queue node of a call, with its owner in it, or a node that
stays and has no data. -/
def Kinds (ds : List Str) (x : Sys × GoMap Str Nat) : Prop :=
  ∀ e n, IsElem e → x.1.store.nodes.find (render (ds ++ [e])) = some n →
    (∃ i l, x.1.lockOf i = some l ∧ l.path = render (ds ++ [e]) ∧ Stands x i l.path ∧
      n.data = l.owner) ∨ n.ephemeral = false ∧ n.data = []

/-- A queue node that stays where it is stays its call's own. -/
theorem Stands.keep {made : GoMap Str Nat} {p : Str} (h : Stands (s, made) i p)
    (hmem : p ∈ s'.store.nodes) : Stands (s', noteMade s a made) i p :=
  ⟨(find_noteMade h.2).trans h.1, hmem⟩

theorem Kinds.step {made : GoMap Str Nat} (hc : Clean (s, made)) (h : Kinds ds (s, made))
    (ha : LockTraffic a) (hs : step s a = some s') : Kinds ds (s', noteMade s a made) := by
  intro e n' he hn'
  have hstore := store_of_step hs
  -- an old node with the data it had keeps its kind
  have hold : ∀ {n}, s.store.nodes.find (render (ds ++ [e])) = some n → n.Same n' →
      n'.data = n.data →
      (∃ i l, s'.lockOf i = some l ∧ l.path = render (ds ++ [e]) ∧
        Stands (s', noteMade s a made) i l.path ∧ n'.data = l.owner) ∨
        n'.ephemeral = false ∧ n'.data = [] := by
    intro n hn hsame hdata
    rcases h e n he hn with ⟨i, l, hl, hpath, hstands, howner⟩ | ⟨hstays, hnone⟩
    · refine .inl ⟨i, l, lockOf_of_step hs hl, hpath, hstands.keep ?_, hdata.trans howner⟩
      rw [hpath]
      exact GoMap.mem_of_find hn'
    · exact .inr ⟨hsame.ephemeral.trans hstays, hdata.trans hnone⟩
  cases hop : s.op? a with
  | none =>
    rw [hop] at hstore
    rw [show s'.store = s.store from hstore] at hn'
    exact hold hn' (.refl n') rfl
  | some op =>
    rw [hop] at hstore
    have hmakes := makes_of_op hop
    rcases hc.tree.step_origin hstore hn' with
      ⟨n, hn, hsame, hdata | ⟨p, d, v, rfl, -⟩⟩ | ⟨p, d, eph, sid, sq, rfl, hok, rfl⟩
    · exact hold hn hsame hdata
    · -- nobody calls `Set`
      cases hmakes
      exact ha.elim
    · cases hmakes with
      | mkdir => exact .inr ⟨rfl, rfl⟩
      | enqueue i c hcall hpc =>
        obtain ⟨-, hl⟩ := step_enqueue hcall hpc hok hs
        refine .inl ⟨i, c.lockAt (render (ds ++ [e])), hl, rfl, ⟨?_, GoMap.mem_of_find hn'⟩, rfl⟩
        have henq : s.enqueuing (.advance i) = some i := by
          simp [Sys.enqueuing, hcall, hpc]
        simp only [noteMade, hop, hok, henq, GoMap.find_insert]
        exact if_pos rfl
      | node => exact ha.elim

/-! ## 3. The report -/

/-- What is known of the directory of a name, along the runs considered. -/
structure Reported (name : Str) (ds : List Str) (x : Sys × GoMap Str Nat) : Prop where
  elems : Elems ds
  away : ds ≠ []
  dir : normalizePath (lockPath name) = render ds
  clean : Clean x
  kinds : Kinds ds x

theorem isLocked_eq (st : Store) (name : Str) :
    isLocked st name = decide (0 < getQueueLength st name) := by
  unfold isLocked getQueueLength
  split <;> rfl

theorem getQueueLength_eq {par : Node}
    (hpar : st.nodes.find (normalizePath (lockPath name)) = some par) :
    getQueueLength st name = par.children.length := by
  rw [getQueueLength, getChildren, hpar]
  exact List.length_insertionSort _ _

namespace Reported

variable {par : Node} (h : Reported name ds x)
include h

/-- The node of a call in line is a child of the directory. -/
theorem line (hi : i ∈ inLine x name) :
    ∃ l, x.1.lockOf i = some l ∧ Stands x i l.path ∧
      l.path = render (ds ++ [queueName (ticket l)]) := by
  obtain ⟨l, hl, hdir, hstands⟩ := mem_inLine.mp hi
  obtain ⟨ds', hq⟩ := h.clean.shaped i l hl
  rw [h.dir] at hdir
  obtain rfl : ds' = ds := render_injective hq.elems h.elems (hq.dir.symm.trans hdir)
  exact ⟨l, hl, hstands, hq.path⟩

/-- A child that is the queue node of a call is that of a call in line. -/
theorem mem_line (hl : x.1.lockOf i = some l) {e : Str} (he : IsElem e)
    (hpath : l.path = render (ds ++ [e])) (hstands : Stands x i l.path) : i ∈ inLine x name := by
  obtain ⟨ds', hq⟩ := h.clean.shaped i l hl
  have heq := render_injective (h.elems.concat he) (hq.elems.concat (isElem_queueName _))
    (hpath.symm.trans hq.path)
  obtain ⟨rfl, -⟩ := List.append_inj' heq rfl
  exact mem_inLine.mpr ⟨l, hl, hq.dir.trans h.dir.symm, hstands⟩

/-- The directory is there if somebody is in line. -/
theorem exists_dir (hi : i ∈ inLine x name) :
    ∃ par, x.1.store.nodes.find (render ds) = some par := by
  obtain ⟨l, -, hstands, hpath⟩ := h.line hi
  obtain ⟨n, hn⟩ := GoMap.mem_iff_find.mp hstands.2
  rw [hpath] at hn
  obtain ⟨par, hpar, -⟩ := h.clean.tree.parent h.elems (isElem_queueName _) hn
  exact ⟨par, hpar⟩

theorem baseName_mem (hpar : x.1.store.nodes.find (render ds) = some par)
    (hi : i ∈ inLine x name) (hl : x.1.lockOf i = some l) : baseName l.path ∈ par.children := by
  obtain ⟨l', hl', hstands, hpath⟩ := h.line hi
  obtain rfl := Option.some.inj (hl.symm.trans hl')
  obtain ⟨n, hn⟩ := GoMap.mem_iff_find.mp hstands.2
  rw [hpath] at hn ⊢
  rw [baseName_concat (isElem_queueName _)]
  exact h.clean.tree.listed h.elems (isElem_queueName _) h.away hn hpar

/-- The name of the node of a call in line. -/
theorem injOn_baseName :
    Set.InjOn (fun i => (x.1.lockOf i).map fun l => baseName l.path) (inLine x name) := by
  intro i hi j hj heq
  obtain ⟨l, hl, hstands, hpath⟩ := h.line hi
  obtain ⟨l', hl', hstands', hpath'⟩ := h.line hj
  dsimp only at heq
  rw [hl, hl', Option.map_some, Option.map_some, hpath, hpath',
    baseName_concat (isElem_queueName _), baseName_concat (isElem_queueName _)] at heq
  -- two calls have no node in common
  have hsame : l.path = l'.path := by rw [hpath, hpath', Option.some.inj heq]
  rw [hsame] at hstands
  exact Option.some.inj (hstands.1.symm.trans hstands'.1)

/-- **Everybody in line counts.** -/
theorem card_line_le (hpar : x.1.store.nodes.find (render ds) = some par) :
    (inLine x name).card ≤ par.children.length := by
  have hmaps : ∀ i ∈ inLine x name, (x.1.lockOf i).map (fun l => baseName l.path) ∈
      par.children.toFinset.image some := by
    intro i hi
    obtain ⟨l, hl, -⟩ := h.line hi
    rw [hl, Option.map_some, Finset.mem_image]
    exact ⟨_, List.mem_toFinset.mpr (h.baseName_mem hpar hi hl), rfl⟩
  calc (inLine x name).card ≤ (par.children.toFinset.image some).card :=
        Finset.card_le_card_of_injOn _ hmaps h.injOn_baseName
    _ ≤ par.children.toFinset.card := Finset.card_image_le
    _ ≤ par.children.length := List.toFinset_card_le _

/-- If there is nothing but queue nodes, nobody else counts. -/
theorem card_line_eq (hpar : x.1.store.nodes.find (render ds) = some par)
    (honly : ∀ c ∈ par.children, ∃ j ∈ inLine x name, ∃ l, x.1.lockOf j = some l ∧
      c = baseName l.path) : (inLine x name).card = par.children.length := by
  refine le_antisymm (h.card_line_le hpar) ?_
  have hsurj : par.children.toFinset.image some ⊆
      (inLine x name).image fun i => (x.1.lockOf i).map fun l => baseName l.path := by
    intro y hy
    obtain ⟨c, hc, rfl⟩ := Finset.mem_image.mp hy
    obtain ⟨j, hj, l, hl, rfl⟩ := honly c (List.mem_toFinset.mp hc)
    exact Finset.mem_image.mpr ⟨j, hj, by rw [hl]; rfl⟩
  calc par.children.length = par.children.toFinset.card :=
        (List.toFinset_card_of_nodup (h.clean.tree.nodup hpar)).symm
    _ = (par.children.toFinset.image some).card :=
        (Finset.card_image_of_injective _ (Option.some_injective _)).symm
    _ ≤ _ := (Finset.card_le_card hsurj).trans Finset.card_image_le

/-- **What is reported**: the owner if a queue node comes first, and nothing if a directory does. -/
theorem getLockInfo_cases (hpar : x.1.store.nodes.find (render ds) = some par) :
    ∃ holder, getLockInfo x.1.store name =
        .ok 200 ⟨name, holder ≠ [], holder, par.children.length⟩ ∧
      (holder = [] ∨ ∃ i ∈ inLine x name, ∃ l, x.1.lockOf i = some l ∧ holder = l.owner) ∧
      ∀ i ∈ inLine x name, ∀ l, x.1.lockOf i = some l →
        (∀ c ∈ par.children, baseName l.path ≤ c) → holder = l.owner := by
  have hlength : getQueueLength x.1.store name = par.children.length :=
    getQueueLength_eq (by rw [h.dir]; exact hpar)
  rcases getLockHolder_cases h.clean.tree h.elems h.dir hpar with
    ⟨hnone, hholder⟩ | ⟨first, n, hfirst, hleast, hn, hholder⟩
  · refine ⟨[], ?_, .inl rfl, fun i hi l hl _ => ?_⟩
    · rw [getLockInfo, hholder, hlength]
    · have hmem := h.baseName_mem hpar hi hl
      rw [hnone] at hmem
      exact absurd hmem List.not_mem_nil
  · have he := (h.clean.tree.sound h.elems hpar hfirst).1
    have hkind := h.kinds first n he hn
    refine ⟨n.data, ?_, ?_, fun i hi l hl hmin => ?_⟩
    · rw [getLockInfo, hholder, hlength]
    · rcases hkind with ⟨i, l, hl, hpath, hstands, howner⟩ | ⟨-, hempty⟩
      · exact .inr ⟨i, h.mem_line hl he hpath hstands, l, hl, howner⟩
      · exact .inl hempty
    · -- the first child is the node of this call, and no other call's
      obtain ⟨l', hl', hstands, hpath⟩ := h.line hi
      obtain rfl := Option.some.inj (hl.symm.trans hl')
      obtain rfl : queueName (ticket l) = first := by
        have hmem := h.baseName_mem hpar hi hl
        rw [hpath, baseName_concat (isElem_queueName _)] at hmem hmin
        exact le_antisymm (hmin _ hfirst) (hleast _ hmem)
      rw [← hpath] at hn
      rcases hkind with ⟨j, l', hl', hpath', hstands', howner⟩ | ⟨hstays, -⟩
      · rw [hpath', ← hpath] at hstands'
        obtain rfl := Option.some.inj (hstands.1.symm.trans hstands'.1)
        rw [howner, Option.some.inj (hl.symm.trans hl')]
      · exact absurd ((h.clean.own hstands).2 n hn) (by rw [hstays]; decide)

end Reported

/-! ## 4. Whole runs -/

/-- The directory of a name, with nothing in it, is not the root. -/
theorem dir_ne_root (hready : LocksReady st) (hbelow : NothingBelow st name) :
    normalizePath (lockPath name) ≠ render [] := by
  intro hroot
  obtain ⟨n, hn, -⟩ := hready
  exact hbelow _ (GoMap.mem_of_find hn) (hroot ▸ by decide)

/-- The hypothesis is met by every name that is a path element. -/
theorem nothingBelow_of_isElem (h : Tree st) (hready : LocksReady st) (hname : IsElem name) :
    NothingBelow st name := by
  intro k hk hparent
  obtain ⟨n, hn⟩ := GoMap.mem_iff_find.mp hk
  obtain ⟨-, es, hes, rfl⟩ := h.keys hn
  rw [normalizePath_lockPath hname] at hparent
  rcases List.eq_nil_or_concat es with rfl | ⟨es, e, rfl⟩
  · exact render_ne_nil _ hparent.symm
  · rw [List.concat_eq_append] at hes hparent hn
    obtain ⟨hes, he⟩ := hes.of_concat
    rw [parentPath_concat hes he] at hparent
    obtain rfl := render_injective hes (elems_lockDir hname) hparent
    rw [nothing_in_lockDir h hready hname he] at hn
    cases hn

theorem Reported.start (handler : DeleteHandler) (hst : Lts.Reach Store.step newStore st)
    (hready : LocksReady st) (hbelow : NothingBelow st name) :
    ∃ ds, Reported name ds (manager st handler, ∅) := by
  obtain ⟨ds, hds, hd⟩ := normalizePath_elems (lockPath name)
  refine ⟨ds, hds, ?_, hd, clean_manager hst, fun e n he hn => ?_⟩
  · rintro rfl
    exact dir_ne_root hready hbelow hd
  · exact absurd ((parentPath_concat hds he).trans hd.symm) (hbelow _ (GoMap.mem_of_find hn))

theorem Reported.of_run {handler : DeleteHandler} (hst : Lts.Reach Store.step newStore st)
    (hready : LocksReady st) (hbelow : NothingBelow st name)
    (hrun : Lts.Run (Lts.recorded step noteMade) (fun _ a => LockTraffic a)
      (manager st handler, ∅) x) : ∃ ds, Reported name ds x := by
  obtain ⟨ds, h⟩ := Reported.start handler hst hready hbelow
  refine ⟨ds, hrun.invariant h ?_⟩
  rintro ⟨s, made⟩ a y h ha hs
  refine ⟨h.elems, h.away, h.dir, h.clean.step hs, ?_⟩
  simp only [Lts.recorded, Option.map_eq_some_iff] at hs
  obtain ⟨s', hs, rfl⟩ := hs
  exact h.kinds.step h.clean ha hs

/-- The holder is in line and does not wait. -/
theorem waiting_ssubset (ha : x.1.Acquired i l) (hi : i ∈ inLine x name) :
    waitingClients x name ⊂ inLine x name := by
  refine Finset.filter_ssubset.mpr ⟨i, hi, ?_⟩
  rw [not_waits_of_granted ha.2]
  decide

/-- If everybody else waits, there is one more in line than there are waiting. -/
theorem card_waiting (ha : x.1.Acquired i l) (hi : i ∈ inLine x name)
    (hothers : ∀ j ∈ inLine x name, j ≠ i → x.1.waits j = true) :
    (waitingClients x name).card + 1 = (inLine x name).card := by
  have herase : waitingClients x name = (inLine x name).erase i := by
    ext j
    simp only [waitingClients, Finset.mem_filter, Finset.mem_erase]
    constructor
    · rintro ⟨hj, hwaits⟩
      refine ⟨?_, hj⟩
      rintro rfl
      exact absurd hwaits (by rw [not_waits_of_granted ha.2]; decide)
    · rintro ⟨hne, hj⟩
      exact ⟨hj, hothers j hj hne⟩
  rw [herase]
  exact Finset.card_erase_add_one hi

/-- **What is reported of a lock.**  While a call in line for `name` has the lock, the queue length
that is reported is above the number of clients that wait, so it is never that number.  It is the
number of children of the directory, which is one more than the number of waiting clients if there
are only queue nodes in it.  The holder is the holder's owner as long as the holder's node is the
first child, and "locked" says whether that text is empty.  With nobody in line, nobody is reported
to hold the lock; the length is zero only if there is no directory of another lock in this one. -/
theorem lock_info_exact {handler : DeleteHandler} (hst : Lts.Reach Store.step newStore st)
    (hready : LocksReady st) (hbelow : NothingBelow st name)
    (hrun : Lts.Run (Lts.recorded step noteMade) (fun _ a => LockTraffic a)
      (manager st handler, ∅) x) :
    (∀ i l, x.1.Acquired i l → i ∈ inLine x name →
      isLocked x.1.store name = true ∧ ∃ info, getLockInfo x.1.store name = .ok 200 info ∧
        (waitingClients x name).card < info.queueLength) ∧
    ∀ par, x.1.store.nodes.find (normalizePath (lockPath name)) = some par →
      (∀ i l, x.1.Acquired i l → i ∈ inLine x name →
        ((∀ c ∈ par.children, baseName l.path ≤ c) →
          getLockInfo x.1.store name =
            .ok 200 ⟨name, l.owner ≠ [], l.owner, par.children.length⟩) ∧
        ((∀ j ∈ inLine x name, j ≠ i → x.1.waits j = true) →
          (∀ c ∈ par.children, ∃ j ∈ inLine x name, ∃ l', x.1.lockOf j = some l' ∧
            c = baseName l'.path) →
          par.children.length = (waitingClients x name).card + 1)) ∧
      (inLine x name = ∅ →
        getLockInfo x.1.store name = .ok 200 ⟨name, false, [], par.children.length⟩) := by
  obtain ⟨ds, h⟩ := Reported.of_run hst hready hbelow hrun
  refine ⟨fun i l ha hi => ?_, fun par hpar => ⟨fun i l ha hi => ⟨fun hfirst => ?_,
    fun hothers honly => ?_⟩, fun hempty => ?_⟩⟩
  · obtain ⟨par, hpar⟩ := h.exists_dir hi
    obtain ⟨holder, hinfo, -⟩ := h.getLockInfo_cases hpar
    have hlt := (Finset.card_lt_card (waiting_ssubset ha hi)).trans_le (h.card_line_le hpar)
    refine ⟨?_, _, hinfo, hlt⟩
    rw [isLocked_eq, getQueueLength_eq (by rw [h.dir]; exact hpar), decide_eq_true_eq]
    exact Nat.zero_lt_of_lt hlt
  · rw [h.dir] at hpar
    obtain ⟨holder, hinfo, -, hholder⟩ := h.getLockInfo_cases hpar
    rw [hinfo, hholder i hi l ha.1 hfirst]
  · rw [h.dir] at hpar
    rw [card_waiting ha hi hothers, h.card_line_eq hpar honly]
  · rw [h.dir] at hpar
    obtain ⟨holder, hinfo, rfl | ⟨i, hi, -⟩, -⟩ := h.getLockInfo_cases hpar
    · exact hinfo
    · rw [hempty] at hi
      exact absurd hi (Finset.notMem_empty i)

/-- Bob waits behind Alice. -/
theorem lock_info_exact_contention :
    ∃ x info, Lts.Run (Lts.recorded step noteMade) (fun _ a => LockTraffic a)
        (manager locksStore .watchManager, ∅) x ∧
      x.1.Acquired 0 aliceLock ∧ waitingClients x "x".toList = {1} ∧
      getLockInfo x.1.store "x".toList = .ok 200 info ∧ 1 < info.queueLength := by
  obtain ⟨x, hrun, hl, hg, hline, hwait⟩ : ∃ x,
      Lts.Run (Lts.recorded step noteMade) (fun _ a => LockTraffic a)
        (manager locksStore .watchManager, ∅) x ∧
      x.1.lockOf 0 = some aliceLock ∧ x.1.granted 0 = true ∧ 0 ∈ inLine x "x".toList ∧
      waitingClients x "x".toList = {1} :=
    Lts.exists_run contention (by decide +kernel)
  have hbelow := nothingBelow_of_isElem (tree_of_reach reach_locksStore) locksReady_locksStore
    (show IsElem "x".toList by decide)
  have hexact := lock_info_exact reach_locksStore locksReady_locksStore hbelow hrun
  obtain ⟨-, info, hinfo, hlt⟩ := hexact.1 0 aliceLock ⟨hl, hg⟩ hline
  rw [hwait] at hlt
  exact ⟨x, info, hrun, ⟨hl, hg⟩, hwait, hinfo, hlt⟩

/-- Alice locks `x` alone. -/
def lockAlone (owner : Str) : List Action :=
  [.tryLock 0 "x".toList owner "s1".toList 5, .advance 0, .advance 0, .advance 0, .advance 0]

/-- Bob asks for `x/a`, and `TryLock` makes its directory in that of `x`. -/
def lockInside : List Action :=
  [.tryLock 1 "x/a".toList "bob".toList "s2".toList 5, .advance 1, .advance 1]

/-- **The report is wrong**: with one client waiting it says two; of a holder with the empty owner,
and of one behind the directory of another lock, it says that nobody has the lock; and of a lock
that nobody asks for, that one client does. -/
theorem lock_info_wrong :
    (∃ x, Lts.Run (Lts.recorded step noteMade) (fun _ a => LockTraffic a)
        (manager locksStore .watchManager, ∅) x ∧
      x.1.lockOf 0 = some aliceLock ∧ x.1.granted 0 = true ∧ inLine x "x".toList = {0, 1} ∧
      waitingClients x "x".toList = {1} ∧
      getLockInfo x.1.store "x".toList = .ok 200 ⟨"x".toList, true, "alice".toList, 2⟩) ∧
    (∃ x, Lts.Run (Lts.recorded step noteMade) (fun _ a => LockTraffic a)
        (manager locksStore .watchManager, ∅) x ∧
      x.1.granted 0 = true ∧ inLine x "x".toList = {0} ∧
      getLockInfo x.1.store "x".toList = .ok 200 ⟨"x".toList, false, [], 1⟩) ∧
    (∃ x, Lts.Run (Lts.recorded step noteMade) (fun _ a => LockTraffic a)
        (manager locksStore .watchManager, ∅) x ∧
      x.1.lockOf 0 = some aliceLock ∧ x.1.granted 0 = true ∧ inLine x "x".toList = {0} ∧
      getLockInfo x.1.store "x".toList = .ok 200 ⟨"x".toList, false, [], 2⟩) ∧
    ∃ x, Lts.Run (Lts.recorded step noteMade) (fun _ a => LockTraffic a)
        (manager locksStore .watchManager, ∅) x ∧
      inLine x "x".toList = ∅ ∧
      getLockInfo x.1.store "x".toList = .ok 200 ⟨"x".toList, false, [], 1⟩ := by
  refine ⟨?_, ?_, ?_, ?_⟩
  · exact Lts.exists_run contention (by decide +kernel)
  · exact Lts.exists_run (lockAlone []) (by decide +kernel)
  · exact Lts.exists_run (lockAlone "alice".toList ++ lockInside) (by decide +kernel)
  · exact Lts.exists_run (lockAlone "alice".toList ++
      [.unlock aliceLock, .unlockDelete aliceLock.path] ++ lockInside) (by decide +kernel)

end SkyLock.Lock
