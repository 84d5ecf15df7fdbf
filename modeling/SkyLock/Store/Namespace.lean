/-
# The store is a namespace

What the store is FOR, said without paths, maps and cached lists: a `Namespace` assigns entries to
addresses, lists of names, and counts.  A node is created below an entry that is not ephemeral, it
is deleted when nothing is below it, and the end of a session takes out the entries it owns.

`store_refines_namespace` says that the store does just that.  Whatever calls are made, it gives the
answers the namespace gives, error by error, and `Store.view` shows the namespace in it.  Three
things in the code do not look like it:

* the guard of `Delete` reads a cached list, the namespace asks whether an entry is below;
* `Create` treats the root path apart, the namespace does not: the address `[]` is its own parent,
  and a sequential name is put after `dropLast`;
* `DeleteEphemerals` is a loop that edits two nodes per round, the namespace filters.

`GetChildren` of the root is the one call that is left out, since its list can be incomplete
(`Children.lean`).
-/
import SkyLock.Lib.Service
import SkyLock.Store.Laws

namespace SkyLock.Store

open Slash

/-! ## 1. Namespaces -/

/-- What is stored at an address. -/
structure Entry where
  data : Str
  version : Nat
  ephemeral : Bool
  sessionID : Str
  sequential : Bool
  sequence : Nat
  deriving DecidableEq

structure Namespace where
  entry : List Str → Option Entry
  counter : Nat

/-- A negative version is no condition. -/
def Entry.allows (x : Entry) (expectedVersion : Int) : Prop :=
  expectedVersion < 0 ∨ expectedVersion = x.version

instance (x : Entry) (v : Int) : Decidable (x.allows v) := inferInstanceAs (Decidable (_ ∨ _))

def Entry.write (x : Entry) (data : Str) : Entry :=
  { x with data, version := (x.version + 1) % 2 ^ 64 }

/-- Does the entry go when the session ends? -/
def Entry.belongs (sessionID : Str) (x : Entry) : Bool := x.ephemeral && x.sessionID == sessionID

namespace Namespace

/-- Only the root. -/
def empty : Namespace where
  entry := Function.update (fun _ => none) [] (some ⟨[], 0, false, [], false, 0⟩)
  counter := 0

def put (ns : Namespace) (a : List Str) (x? : Option Entry) : Namespace :=
  { ns with entry := Function.update ns.entry a x? }

def count (ns : Namespace) (sequential : Bool) : Namespace :=
  if sequential then { ns with counter := (ns.counter + 1) % 2 ^ 64 } else ns

/-- Where a new entry goes: a sequential one has the counter in its name. -/
def seat (ns : Namespace) (a : List Str) (sequential : Bool) : List Str :=
  if sequential then a.dropLast ++ [a.getLastD [] ++ formatSequence ns.counter] else a

def create (ns : Namespace) (a : List Str) (data : Str) (ephemeral : Bool) (sessionID : Str)
    (sequential : Bool) : Namespace × Except StoreErr (List Str) :=
  match ns.entry a.dropLast with
  | none => (ns, .error .nodeNotFound)
  | some parent =>
    if parent.ephemeral then (ns, .error .ephemeralParent)
    else
      let ns := ns.count sequential
      let b := ns.seat a sequential
      if (ns.entry b).isSome then (ns, .error .nodeExists)
      else (ns.put b (some ⟨data, 1, ephemeral, sessionID, sequential, ns.counter⟩), .ok b)

def get (ns : Namespace) (a : List Str) : Except StoreErr Entry :=
  match ns.entry a with
  | none => .error .nodeNotFound
  | some x => .ok x

def set (ns : Namespace) (a : List Str) (data : Str) (expectedVersion : Int) :
    Namespace × Except StoreErr Entry :=
  match ns.entry a with
  | none => (ns, .error .nodeNotFound)
  | some x =>
    if x.allows expectedVersion then (ns.put a (some (x.write data)), .ok (x.write data))
    else (ns, .error .versionMismatch)

/-- Some entry is directly below the address. -/
def HasChild (ns : Namespace) (a : List Str) : Prop := ∃ e, (ns.entry (a ++ [e])).isSome = true

open Classical in
noncomputable def delete (ns : Namespace) (a : List Str) (expectedVersion : Int) :
    Namespace × Except StoreErr Unit :=
  if a = [] then (ns, .error .deleteRoot)
  else
    match ns.entry a with
    | none => (ns, .error .nodeNotFound)
    | some x =>
      if x.allows expectedVersion then
        if ns.HasChild a then (ns, .error .notEmpty) else (ns.put a none, .ok ())
      else (ns, .error .versionMismatch)

/-- The end of a session. -/
def expire (ns : Namespace) (sessionID : Str) : Namespace :=
  { ns with entry := fun a => (ns.entry a).filter fun x => !x.belongs sessionID }

/-- The paths name the entries of the session, each once. -/
def Lists (ns : Namespace) (sessionID : Str) (paths : List Str) : Prop :=
  paths.Nodup ∧ ∀ p, p ∈ paths ↔
    ∃ a x, p = render a ∧ ns.entry a = some x ∧ x.belongs sessionID = true

open Classical in
/-- The names directly below an address, in order. -/
noncomputable def children (ns : Namespace) (a : List Str) : Except StoreErr (List Str) :=
  match ns.entry a with
  | none => .error .nodeNotFound
  | some _ =>
    if h : {e | (ns.entry (a ++ [e])).isSome = true}.Finite then
      .ok (h.toFinset.toList.insertionSort (· ≤ ·))
    else .ok []

end Namespace

/-! ## 2. Calls and their answers -/

inductive Request
  | write (op : StoreOp)
  | get (nodePath : Str)
  | existsPath (nodePath : Str)
  | getChildren (nodePath : Str)
  deriving DecidableEq

inductive Answer
  | created (path : Str)
  | entry (path : Str) (x : Entry)
  | deleted
  | removed (paths : List Str)
  | present (b : Bool)
  | children (names : List Str)
  | refused (e : StoreErr)
  | crashed
  deriving DecidableEq

/-- An answer that is an error or a result. -/
def Answer.ofExcept {α : Type} (f : α → Answer) : Except StoreErr α → Answer
  | .ok x => f x
  | .error e => .refused e

def Node.entry (n : Node) : Entry :=
  ⟨n.data, n.version, n.ephemeral, n.sessionID, n.sequential, n.sequence⟩

/-- The store after a call. -/
def next (s : Store) : Request → Option Store
  | .write op => step s op
  | _ => some s

/-- What the caller gets. -/
def answer (s : Store) : Request → Answer
  | .write (.create p d eph sid sq) => .ofExcept .created (s.create p d eph sid sq).2
  | .write (.set p d v) => .ofExcept (fun n => .entry n.path n.entry) (s.set p d v).2
  | .write (.delete p v) =>
    match s.delete p v with
    | .ok _ => .deleted
    | .error (.err e) => .refused e
    | .error .nilDereference => .crashed
  | .write (.deleteEphemerals _ order) => .removed order
  | .get p => .ofExcept (fun n => .entry n.path n.entry) (s.get p)
  | .existsPath p => .present (s.existsPath p)
  | .getChildren p => .ofExcept .children (s.getChildren p)

/-- The address that a path names. -/
def address (p : Str) : List Str := ((normalizePath p).splitOn '/').filter (· ≠ [])

open Classical in
noncomputable def Namespace.next (ns : Namespace) : Request → Option Namespace
  | .write (.create p d eph sid sq) => some (ns.create (address p) d eph sid sq).1
  | .write (.set p d v) => some (ns.set (address p) d v).1
  | .write (.delete p v) => some (ns.delete (address p) v).1
  | .write (.deleteEphemerals sid order) =>
    if ns.Lists sid order then some (ns.expire sid) else none
  | _ => some ns

noncomputable def Namespace.answer (ns : Namespace) : Request → Answer
  | .write (.create p d eph sid sq) =>
    .ofExcept (fun a => .created (render a)) (ns.create (address p) d eph sid sq).2
  | .write (.set p d v) => .ofExcept (.entry (render (address p))) (ns.set (address p) d v).2
  | .write (.delete p v) => .ofExcept (fun _ => .deleted) (ns.delete (address p) v).2
  | .write (.deleteEphemerals _ order) => .removed order
  | .get p => .ofExcept (.entry (render (address p))) (ns.get (address p))
  | .existsPath p => .present (ns.entry (address p)).isSome
  | .getChildren p => .ofExcept .children (ns.children (address p))

/-- Every call but `GetChildren` of the root. -/
def Request.offRoot : Request → Prop
  | .getChildren p => normalizePath p ≠ root
  | _ => True

instance (r : Request) : Decidable r.offRoot := by
  unfold Request.offRoot
  induction r using Request.casesOn <;> infer_instance

/-! ## 3. The namespace in the store -/

variable {s s' : Store} {a ds es : List Str} {e p : Str}

instance (es : List Str) : Decidable (Elems es) := inferInstanceAs (Decidable (∀ e ∈ es, _))

/-- The entries by address.  Addresses are made of path elements. -/
def view (s : Store) : Namespace where
  entry a := if Elems a then (s.nodes.find (render a)).map Node.entry else none
  counter := s.seqCounter

@[simp] theorem view_counter (s : Store) : s.view.counter = s.seqCounter := rfl

theorem view_entry (s : Store) (ha : Elems a) :
    s.view.entry a = (s.nodes.find (render a)).map Node.entry := if_pos ha

theorem view_entry_of_not (s : Store) (ha : ¬ Elems a) : s.view.entry a = none := if_neg ha

theorem elems_of_view (h : (s.view.entry a).isSome = true) : Elems a := by
  by_contra hno
  rw [view_entry_of_not s hno] at h
  exact absurd h (by simp)

theorem address_of_render (hes : Elems es) (hp : normalizePath p = render es) :
    address p = es := by
  rw [address, hp]
  rcases eq_or_ne es [] with rfl | hne
  · rw [splitOn_root]
    rfl
  · rw [splitOn_render hne hes, List.filter_cons_of_neg (by simp)]
    exact List.filter_eq_self.mpr fun e he => by simpa using (hes e he).1

/-- A path names an address, and normalises to its rendering. -/
theorem address_spec (p : Str) : Elems (address p) ∧ normalizePath p = render (address p) := by
  obtain ⟨es, hes, hp⟩ := normalizePath_elems p
  rw [address_of_render hes hp]
  exact ⟨hes, hp⟩

/-- A change at one path is a change at one address. -/
theorem view_eq_put (hes : Elems es) {x? : Option Entry} (hcounter : s'.seqCounter = s.seqCounter)
    (hlookup : ∀ k, (s'.nodes.find k).map Node.entry =
      if k = render es then x? else (s.nodes.find k).map Node.entry) :
    s'.view = s.view.put es x? := by
  refine congrArg₂ Namespace.mk (funext fun a => ?_) hcounter
  by_cases ha : Elems a
  · rw [if_pos ha, hlookup]
    by_cases hae : a = es
    · rw [hae, if_pos rfl, Function.update_self]
    · rw [if_neg fun h => hae (render_injective ha hes h), Function.update_of_ne hae,
        view_entry s ha]
  · have hae : a ≠ es := fun h => ha (h ▸ hes)
    rw [if_neg ha, Function.update_of_ne hae, view_entry_of_not s ha]

theorem view_newStore : newStore.view = Namespace.empty := by
  refine congrArg₂ Namespace.mk (funext fun a => ?_) rfl
  by_cases ha : a = []
  · subst ha
    rfl
  · rw [Function.update_of_ne ha]
    split
    · rename_i hel
      have hne : render a ≠ root := fun h => ha (render_injective hel elems_nil h)
      rw [newStore, GoMap.find_singleton, if_neg hne]
      rfl
    · rfl

theorem bump_view (s : Store) (sq : Bool) : (s.bump sq).view = s.view.count sq := by
  cases sq <;> rfl

theorem mem_nodes_iff_view (hes : Elems es) :
    render es ∈ s.nodes ↔ (s.view.entry es).isSome = true := by
  rw [GoMap.mem_iff_find, view_entry s hes, Option.isSome_map, Option.isSome_iff_exists]

theorem allows_iff (v : Int) (n : Node) : n.entry.allows v ↔ versionMatches v n = true := by
  rw [Entry.allows, versionMatches, decide_eq_true_iff]
  show v < 0 ∨ v = (n.version : Int) ↔ _
  omega

/-! ## 4. Call by call -/

theorem Namespace.create_of_parent {ns : Namespace} {parent : Entry}
    (hparent : ns.entry a.dropLast = some parent) (hdurable : parent.ephemeral = false) (d : Str)
    (eph : Bool) (sid : Str) (sq : Bool) :
    ns.create a d eph sid sq =
      if ((ns.count sq).entry ((ns.count sq).seat a sq)).isSome then
        (ns.count sq, .error .nodeExists)
      else
        ((ns.count sq).put ((ns.count sq).seat a sq)
          (some ⟨d, 1, eph, sid, sq, (ns.count sq).counter⟩), .ok ((ns.count sq).seat a sq)) := by
  simp [Namespace.create, hparent, hdurable]

/-- The address of a new node. -/
theorem seat_concat (s : Store) (ds : List Str) (e : Str) (sq : Bool) :
    (s.view.count sq).seat (ds ++ [e]) sq = ds ++ [leafName s e sq] := by
  rw [← bump_view, Namespace.seat, leafName]
  cases sq <;> simp

theorem create_view_below (hds : Elems ds) (he : IsElem e)
    (hp : normalizePath p = render (ds ++ [e])) (d : Str) (eph : Bool) (sid : Str) (sq : Bool) :
    ((s.create p d eph sid sq).1.view, (s.create p d eph sid sq).2) =
      ((s.view.create (ds ++ [e]) d eph sid sq).1,
        (s.view.create (ds ++ [e]) d eph sid sq).2.map render) := by
  have hparent : s.view.entry (ds ++ [e]).dropLast = (s.nodes.find (render ds)).map Node.entry := by
    rw [List.dropLast_concat, view_entry s hds]
  have hle := isElem_leafName s he sq
  have hleaf := hds.concat hle
  rw [create_below hds he hp]
  cases hlk : s.nodes.find (render ds) with
  | none =>
    rw [hlk] at hparent
    rw [Namespace.create, hparent]
    rfl
  | some par =>
    rw [hlk] at hparent
    by_cases hpe : par.ephemeral = true
    · rw [Namespace.create, hparent]
      simp [Node.entry, hpe, Except.map]
    · rw [Namespace.create_of_parent hparent (Bool.eq_false_iff.mpr hpe), seat_concat, ← bump_view]
      have hmem : render (ds ++ [leafName s e sq]) ∈ s.nodes ↔
          ((s.bump sq).view.entry (ds ++ [leafName s e sq])).isSome = true := by
        rw [← mem_nodes_iff_view hleaf, bump_nodes]
      dsimp only
      rw [if_neg hpe]
      by_cases hnew : render (ds ++ [leafName s e sq]) ∈ s.nodes
      · rw [if_pos hnew, if_pos (hmem.mp hnew)]
        rfl
      · rw [if_neg hnew, if_neg (mt hmem.mpr hnew)]
        refine Prod.ext (view_eq_put hleaf rfl fun k => ?_) rfl
        have hne : render ds ≠ render (ds ++ [leafName s e sq]) := (render_concat_ne hds hle).symm
        dsimp only
        rw [GoMap.find_insert, GoMap.find_insert, bump_nodes]
        by_cases hk : k = render ds
        · rw [if_pos hk, if_neg (hk ▸ hne), hk, hlk]
          rfl
        · rw [if_neg hk]
          split <;> rfl

theorem create_view_root (h : Tree s) (hp : normalizePath p = root) (d : Str) (eph : Bool)
    (sid : Str) (sq : Bool) :
    ((s.create p d eph sid sq).1.view, (s.create p d eph sid sq).2) =
      ((s.view.create [] d eph sid sq).1, (s.view.create [] d eph sid sq).2.map render) := by
  obtain ⟨r, hr, hre⟩ := h.root
  have hparent : s.view.entry ([] : List Str).dropLast = some r.entry := by
    rw [List.dropLast_nil, view_entry s elems_nil]
    exact congrArg (Option.map Node.entry) hr
  rw [create_root h hp, Namespace.create_of_parent hparent hre, ← bump_view]
  cases sq with
  | false =>
    have hroot : (s.view.entry []).isSome = true := by
      rw [← List.dropLast_nil, hparent]
      rfl
    simp [Namespace.seat, hroot, Except.map]
  | true =>
    have hseat : (s.bump true).view.seat [] true = [formatSequence (s.bump true).seqCounter] := rfl
    have hel : IsElem (formatSequence (s.bump true).seqCounter) :=
      isElem_append_formatSequence (e := []) List.not_mem_nil _
    have hels : Elems [formatSequence (s.bump true).seqCounter] := elems_nil.concat hel
    have hmem : render [formatSequence (s.bump true).seqCounter] ∈ s.nodes ↔
        ((s.bump true).view.entry [formatSequence (s.bump true).seqCounter]).isSome = true := by
      rw [← mem_nodes_iff_view hels, bump_nodes]
    rw [hseat]
    simp only [if_true, hmem]
    split
    · rfl
    · refine Prod.ext (view_eq_put hels rfl fun k => ?_) rfl
      dsimp only
      rw [GoMap.find_insert, bump_nodes]
      split <;> rfl

/-- **`Create`.** -/
theorem create_view (h : Tree s) (p d : Str) (eph : Bool) (sid : Str) (sq : Bool) :
    ((s.create p d eph sid sq).1.view, (s.create p d eph sid sq).2) =
      ((s.view.create (address p) d eph sid sq).1,
        (s.view.create (address p) d eph sid sq).2.map render) := by
  obtain ⟨hes, hp⟩ := address_spec p
  rcases List.eq_nil_or_concat' (address p) with hnil | ⟨ds, e, heq⟩
  · rw [hnil] at hp ⊢
    exact create_view_root h hp d eph sid sq
  · rw [heq] at hes hp ⊢
    exact create_view_below hes.of_concat.1 hes.of_concat.2 hp d eph sid sq

/-- **`Set`.** -/
theorem set_view (h : Tree s) (p d : Str) (v : Int) :
    ((s.set p d v).1.view, (s.set p d v).2.map fun n => (n.path, n.entry)) =
      ((s.view.set (address p) d v).1,
        (s.view.set (address p) d v).2.map fun x => (render (address p), x)) := by
  obtain ⟨hes, hp⟩ := address_spec p
  have hentry := view_entry s hes
  cases hlk : s.nodes.find (render (address p)) with
  | none =>
    rw [hlk] at hentry
    rw [show s.set p d v = (s, .error .nodeNotFound) by simp [set, hp, hlk],
      show s.view.set (address p) d v = (s.view, .error .nodeNotFound) by
        simp [Namespace.set, hentry]]
    rfl
  | some n =>
    rw [hlk] at hentry
    have hallows := allows_iff v n
    by_cases hv : versionMatches v n = true
    · rw [show s.set p d v = ({ s with nodes := s.nodes.insert (render (address p)) (n.updated d) },
          .ok (n.updated d)) by simp [set, hp, hlk, hv],
        show s.view.set (address p) d v = (s.view.put (address p) (some (n.entry.write d)),
          .ok (n.entry.write d)) by simp [Namespace.set, hentry, hallows.mpr hv]]
      refine Prod.ext (view_eq_put hes rfl fun k => ?_)
        (congrArg (fun q => Except.ok (q, n.entry.write d)) (h.keys hlk).1)
      dsimp only
      rw [GoMap.find_insert]
      split <;> rfl
    · rw [show s.set p d v = (s, .error .versionMismatch) by simp [set, hp, hlk, hv],
        show s.view.set (address p) d v = (s.view, .error .versionMismatch) by
          simp [Namespace.set, hentry, mt hallows.mp hv]]
      rfl

/-- The cached list of a node other than the root is empty exactly if nothing is below it. -/
theorem hasChild_iff (h : Tree s) (hes : Elems es) (hne : es ≠ []) {n : Node}
    (hn : s.nodes.find (render es) = some n) : s.view.HasChild es ↔ n.children ≠ [] := by
  constructor
  · rintro ⟨c, hc⟩
    have hel := elems_of_view hc
    rw [← mem_nodes_iff_view hel, GoMap.mem_iff_find] at hc
    obtain ⟨m, hm⟩ := hc
    exact List.ne_nil_of_mem (h.listed hes hel.of_concat.2 hne hm hn)
  · intro hch
    obtain ⟨c, hc⟩ := List.exists_mem_of_ne_nil _ hch
    obtain ⟨hce, m, hm⟩ := h.sound hes hn hc
    exact ⟨c, (mem_nodes_iff_view (hes.concat hce)).mp (GoMap.mem_of_find hm)⟩

/-- Taking out a leaf. -/
theorem Unlinked.view_eq {n par : Node} (hu : Unlinked s s' ds e n par)
    (hcounter : s'.seqCounter = s.seqCounter) : s'.view = s.view.put (ds ++ [e]) none := by
  refine view_eq_put (hu.elems.concat hu.elem) hcounter fun k => ?_
  rw [hu.lookup]
  split
  · rfl
  · split
    · rename_i hk
      rw [hk, hu.parent]
      rfl
    · rfl

theorem deleted_view (h : Tree s) (hds : Elems ds) (he : IsElem e) {n : Node}
    (hn : s.nodes.find (render (ds ++ [e])) = some n) (hleaf : n.children = []) :
    (s.unlink (render (ds ++ [e]))).view = s.view.put (ds ++ [e]) none := by
  obtain ⟨par, -, hu⟩ := unlinked_unlink h hds he hn hleaf
  exact hu.view_eq rfl

/-- **`Delete`.** -/
theorem delete_view (h : Tree s) (p : Str) (v : Int) :
    (∃ err, s.delete p v = .error (.err err) ∧
        s.view.delete (address p) v = (s.view, .error err)) ∨
      ∃ t, s.delete p v = .ok t ∧ s.view.delete (address p) v = (t.view, .ok ()) := by
  obtain ⟨hes, hp⟩ := address_spec p
  rcases List.eq_nil_or_concat' (address p) with hnil | ⟨ds, e, heq⟩
  · rw [hnil] at hp
    refine .inl ⟨.deleteRoot, ?_, ?_⟩
    · rw [delete, hp]
      exact if_pos rfl
    · rw [Namespace.delete, if_pos hnil]
  · rw [heq] at hes hp ⊢
    have hne : ds ++ [e] ≠ [] := by simp
    have hroot := render_concat_ne_root hes.of_concat.1 hes.of_concat.2
    have hentry := view_entry s hes
    cases hlk : s.nodes.find (render (ds ++ [e])) with
    | none =>
      rw [hlk] at hentry
      exact .inl ⟨.nodeNotFound, by simp [delete, hp, hroot, hlk],
        by simp [Namespace.delete, hentry]⟩
    | some n =>
      rw [hlk] at hentry
      have hallows := allows_iff v n
      have hchild := hasChild_iff h hes hne hlk
      by_cases hv : versionMatches v n = true
      · by_cases hch : n.children = []
        · refine .inr ⟨s.unlink (render (ds ++ [e])), ?_, ?_⟩
          · rw [← hp]
            exact delete_of_matches h (hp ▸ hlk) (hp ▸ hroot) hv hch
          · have hnone : ¬ s.view.HasChild (ds ++ [e]) := fun hc => hchild.mp hc hch
            rw [deleted_view h hes.of_concat.1 hes.of_concat.2 hlk hch]
            simp [Namespace.delete, hentry, hallows.mpr hv, hnone]
        · exact .inl ⟨.notEmpty, by simp [delete, hp, hroot, hlk, hv, hch],
            by simp [Namespace.delete, hentry, hallows.mpr hv, hchild.mpr hch]⟩
      · exact .inl ⟨.versionMismatch, by simp [delete, hp, hroot, hlk, hv],
          by simp [Namespace.delete, hentry, mt hallows.mp hv]⟩

theorem IsListing.lists (h : Tree s) {sid : Str} {order : List Str}
    (hl : IsListing s sid order) : s.view.Lists sid order := by
  refine ⟨hl.1, fun k => ?_⟩
  rw [hl.mem_iff]
  constructor
  · rintro ⟨n, hn, heph, hsid⟩
    obtain ⟨-, es, hes, rfl⟩ := h.keys hn
    refine ⟨es, n.entry, rfl, ?_, ?_⟩
    · rw [view_entry s hes, hn]
      rfl
    · simp [Entry.belongs, Node.entry, heph, hsid]
  · rintro ⟨es, x, rfl, hx, hbelongs⟩
    have hes : Elems es := elems_of_view (s := s) (by rw [hx]; rfl)
    rw [view_entry s hes] at hx
    obtain ⟨n, hn, rfl⟩ := Option.map_eq_some_iff.mp hx
    simp only [Entry.belongs, Node.entry, Bool.and_eq_true, beq_iff_eq] at hbelongs
    exact ⟨n, hn, hbelongs.1, hbelongs.2⟩

/-- **`DeleteEphemerals`.** -/
theorem deleteEphemerals_view (h : Tree s) {sid : Str} {order : List Str}
    (hl : IsListing s sid order) : (s.deleteEphemerals order).view = s.view.expire sid := by
  refine congrArg₂ Namespace.mk (funext fun a => ?_) (foldl_unlink_seqCounter order s)
  by_cases ha : Elems a
  · rw [if_pos ha, view_entry s ha, find_deleteEphemerals order h.listable]
    cases hn : s.nodes.find (render a) with
    | none => split <;> rfl
    | some n =>
      have hmem : render a ∈ order ↔ n.entry.belongs sid = true := by
        rw [hl.mem_iff, hn]
        simp [Entry.belongs, Node.entry]
      by_cases hown : n.entry.belongs sid = true
      · rw [if_pos (hmem.mpr hown), Option.map_some, Option.filter_some_neg (by simpa using hown)]
        rfl
      · rw [if_neg (mt hmem.mp hown), Option.map_some, Option.map_some, Option.map_some,
          Option.filter_some_pos (by simpa using hown)]
        rfl
  · rw [if_neg ha, view_entry_of_not s ha]
    rfl

/-- **`Get`.** -/
theorem get_view (h : Tree s) (p : Str) :
    (s.get p).map (fun n => (n.path, n.entry)) =
      (s.view.get (address p)).map fun x => (render (address p), x) := by
  obtain ⟨hes, hp⟩ := address_spec p
  rw [get, Namespace.get, hp, view_entry s hes]
  cases hlk : s.nodes.find (render (address p)) with
  | none => rfl
  | some n => exact congrArg (fun q => Except.ok (q, n.entry)) (h.keys hlk).1

/-- **`GetChildren`**, away from the root. -/
theorem getChildren_view (h : Tree s) (hroot : normalizePath p ≠ root) :
    s.getChildren p = s.view.children (address p) := by
  obtain ⟨hes, hp⟩ := address_spec p
  have hne : address p ≠ [] := fun hnil => hroot (by rw [hp, hnil]; rfl)
  rw [getChildren, Namespace.children, hp, view_entry s hes]
  cases hlk : s.nodes.find (render (address p)) with
  | none => rfl
  | some n =>
    have hmem : ∀ c, c ∈ n.children ↔ (s.view.entry (address p ++ [c])).isSome = true := by
      intro c
      constructor
      · intro hc
        obtain ⟨hce, m, hm⟩ := h.sound hes hlk hc
        exact (mem_nodes_iff_view (hes.concat hce)).mp (GoMap.mem_of_find hm)
      · intro hc
        have hel := elems_of_view hc
        obtain ⟨m, hm⟩ := GoMap.mem_iff_find.mp ((mem_nodes_iff_view hel).mpr hc)
        exact h.listed hes hel.of_concat.2 hne hm hlk
    have hfin : {e | (s.view.entry (address p ++ [e])).isSome = true}.Finite :=
      n.children.toFinset.finite_toSet.subset fun c hc => by simpa using (hmem c).mpr hc
    simp only [Option.map_some]
    rw [dif_pos hfin]
    refine congrArg Except.ok ((GoMap.insertionSort_eq_sort (h.nodup hlk) fun c => ?_).trans
      (GoMap.insertionSort_eq_sort (Finset.nodup_toList _) fun c => Finset.mem_toList).symm)
    rw [hmem, Set.Finite.mem_toFinset]
    rfl

/-! ## 5. The refinement -/

theorem ofExcept_map {α β : Type} (f : β → Answer) (g : α → β) (r : Except StoreErr α) :
    Answer.ofExcept f (r.map g) = .ofExcept (fun x => f (g x)) r := by
  cases r <;> rfl

theorem ofExcept_congr {α β γ : Type} (f : γ → Answer) {g : α → γ} {g' : β → γ}
    {r : Except StoreErr α} {r' : Except StoreErr β} (h : r.map g = r'.map g') :
    Answer.ofExcept (fun x => f (g' x)) r' = .ofExcept (fun x => f (g x)) r := by
  rw [← ofExcept_map f g', ← ofExcept_map f g, h]

/-- **One call.** -/
theorem view_step (h : Tree s) {r : Request} (hr : r.offRoot) (hs : next s r = some s') :
    s.view.next r = some s'.view ∧ s.view.answer r = s.answer r := by
  cases r with
  | get p =>
    obtain rfl := Option.some.inj hs
    refine ⟨rfl, ?_⟩
    exact ofExcept_congr (fun q : Str × Entry => .entry q.1 q.2) (get_view h p)
  | existsPath p =>
    obtain rfl := Option.some.inj hs
    obtain ⟨hes, hp⟩ := address_spec p
    refine ⟨rfl, congrArg Answer.present ?_⟩
    rw [existsPath, hp, Bool.eq_iff_iff, decide_eq_true_iff, mem_nodes_iff_view hes]
  | getChildren p =>
    obtain rfl := Option.some.inj hs
    exact ⟨rfl, congrArg (Answer.ofExcept .children) (getChildren_view h hr).symm⟩
  | write op =>
    cases op with
    | create p d eph sid sq =>
      obtain rfl := Option.some.inj hs
      obtain ⟨hview, hresult⟩ := Prod.mk.inj (create_view h p d eph sid sq)
      refine ⟨congrArg some hview.symm, ?_⟩
      rw [Namespace.answer, answer, hresult, ofExcept_map]
    | set p d v =>
      obtain rfl := Option.some.inj hs
      obtain ⟨hview, hresult⟩ := Prod.mk.inj (set_view h p d v)
      refine ⟨congrArg some hview.symm, ?_⟩
      exact ofExcept_congr (fun q : Str × Entry => .entry q.1 q.2) hresult
    | delete p v =>
      simp only [Store.next, Store.step] at hs
      rw [Namespace.next, Namespace.answer, answer]
      rcases delete_view h p v with ⟨err, hdel, hview⟩ | ⟨t, hdel, hview⟩
      · rw [hdel] at hs ⊢
        obtain rfl := Option.some.inj hs
        rw [hview]
        exact ⟨rfl, rfl⟩
      · rw [hdel] at hs ⊢
        obtain rfl := Option.some.inj hs
        rw [hview]
        exact ⟨rfl, rfl⟩
    | deleteEphemerals sid order =>
      simp only [Store.next, Store.step] at hs
      split at hs
      · rename_i hl
        obtain rfl := Option.some.inj hs
        rw [Namespace.next, if_pos (hl.lists h), deleteEphemerals_view h hl]
        exact ⟨rfl, rfl⟩
      · cases hs

theorem Tree.next (h : Tree s) {r : Request} (hs : Store.next s r = some s') : Tree s' := by
  cases r with
  | write op => exact h.step hs
  | get | existsPath | getChildren => exact Option.some.inj hs ▸ h

/-- **The store is a namespace.**  Whatever calls are made of a new store, other than `GetChildren`
of the root, the namespace takes the same calls, gives the same answers to all of them, and is in
the end what the store shows. -/
theorem store_refines_namespace {requests : List Request} (hroot : ∀ r ∈ requests, r.offRoot)
    (hexec : Lts.exec next newStore requests = some s) :
    Lts.exec Namespace.next .empty requests = some s.view ∧
      Lts.answers Namespace.next Namespace.answer .empty requests =
        Lts.answers next answer newStore requests := by
  have hsim : ∀ t ns r t', Tree t ∧ ns = t.view → r.offRoot → next t r = some t' →
      ∃ ns', Namespace.next ns r = some ns' ∧ (Tree t' ∧ ns' = t'.view) ∧
        Namespace.answer ns r = answer t r := by
    rintro t _ r t' ⟨ht, rfl⟩ hr hs
    obtain ⟨hnext, hanswer⟩ := view_step ht hr hs
    exact ⟨t'.view, hnext, ⟨ht.next hs, rfl⟩, hanswer⟩
  obtain ⟨ns, hns, ⟨-, rfl⟩, hanswers⟩ := Lts.answers_of_simulation hsim hroot
    ⟨tree_newStore, view_newStore.symm⟩ hexec
  exact ⟨hns, hanswers⟩

/-- A directory with a sequential entry, a listing of it, and a deletion that it refuses. -/
def sampleRequests : List Request :=
  [.write (.create "/a".toList [] false [] false), .write (.create "/a/b-".toList [] false [] true),
    .getChildren "/a/".toList, .write (.delete "/a".toList (-1))]

theorem store_refines_namespace_sample :
    ∃ s, Lts.exec next newStore sampleRequests = some s ∧
      Lts.exec Namespace.next .empty sampleRequests = some s.view ∧
      Lts.answers Namespace.next Namespace.answer .empty sampleRequests =
        Lts.answers next answer newStore sampleRequests := by
  obtain ⟨s, hexec⟩ := Option.isSome_iff_exists.mp
    (show (Lts.exec next newStore sampleRequests).isSome = true by decide +kernel)
  exact ⟨s, hexec, store_refines_namespace (by decide +kernel) hexec⟩

end SkyLock.Store
