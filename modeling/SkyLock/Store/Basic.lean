/-
# The hierarchical store

`internal/store/store.go`: a map from paths to nodes, each node with a CACHED list of the names
of its children.  The four mutators (`Create`, `Set`, `Delete`, `DeleteEphemerals`) each run under
the store's mutex, so one call is one atomic step and `step` is the store as a transition system.

Three points where the model keeps what the code really does:

* `Create` computes the parent from the path as REQUESTED, before a sequence number is appended,
  and the counter moves even if the creation then fails.
* `Delete` dereferences the parent without checking that it is there.  That outcome is a value
  here (`Fault.nilDereference`), so that its absence is a theorem.
* `DeleteEphemerals` ranges over a Go map and then sorts by length with an unstable sort, so the
  order in which it removes nodes is not determined.  The model takes the order as an argument
  and accepts every order the code can produce (`IsListing`).

Left out: `CreateTime` and `ModifyTime`, which nothing reads, and logging.  Go converts freely
between `[]byte` and `string` without changing a byte, so node data is text like everything else.
-/
import SkyLock.Lib.Run
import SkyLock.Lib.Map
import SkyLock.Store.Sequence

namespace SkyLock

open Slash

/-! ## 1. Nodes, the store and its errors -/

structure Store.Node where
  path : Str
  data : Str
  version : Nat
  ephemeral : Bool
  sessionID : Str
  sequential : Bool
  sequence : Nat
  children : List Str
  deriving DecidableEq

structure Store where
  nodes : GoMap Str Store.Node
  seqCounter : Nat

namespace Store

inductive StoreErr
  | nodeExists
  | nodeNotFound
  | versionMismatch
  | notEmpty
  | ephemeralParent
  | deleteRoot
  deriving DecidableEq

/-- The texts of the errors, as `Error()` returns them. -/
def StoreErr.error : StoreErr → String
  | nodeExists => "node already exists"
  | nodeNotFound => "node not found"
  | versionMismatch => "version mismatch"
  | notEmpty => "node has children"
  | ephemeralParent => "cannot create child under ephemeral node"
  | deleteRoot => "cannot delete root"

/-- How `Delete` can fail to delete: with an error, or by a nil pointer dereference. -/
inductive Fault
  | err (e : StoreErr)
  | nilDereference
  deriving DecidableEq

/-- The path of the root node. -/
def root : Str := ['/']

/-- `NewStore`: the root node and nothing else. -/
def newStore : Store where
  nodes := Finmap.singleton root
    { path := root, data := [], version := 0, ephemeral := false, sessionID := [],
      sequential := false, sequence := 0, children := [] }
  seqCounter := 0

/-! ## 2. Paths -/

def normalizePath (p : Str) : Str :=
  if p = [] then root
  else
    let p := if Text.hasPrefix p root then p else '/' :: p
    clean p

def parentPath (p : Str) : Str :=
  if p = root then []
  else
    let parent := dir p
    if parent = ['.'] then root else parent

def baseName (p : Str) : Str := base p

/-! ## 3. The operations -/

/-- `Create`'s check of the parent: it must be there and must not be ephemeral. -/
def checkParent (s : Store) (parent : Str) : Option StoreErr :=
  if parent = [] then none
  else
    match s.nodes.find parent with
    | none => some .nodeNotFound
    | some p => if p.ephemeral then some .ephemeralParent else none

/-- Appends a name to a parent's children; the empty parent path stands for "no parent". -/
def addChild (nodes : GoMap Str Node) (parent name : Str) : GoMap Str Node :=
  if parent = [] then nodes
  else
    match nodes.find parent with
    | none => nodes
    | some p => nodes.insert parent { p with children := p.children ++ [name] }

/-- Removes the first occurrence of a name from a parent's children. -/
def dropChild (nodes : GoMap Str Node) (parent name : Str) : GoMap Str Node :=
  if parent = [] then nodes
  else
    match nodes.find parent with
    | none => nodes
    | some p => nodes.insert parent { p with children := p.children.erase name }

/-- What `Create` stores: `Sequence` is the counter's value even for a plain node. -/
def freshNode (s : Store) (path data : Str) (ephemeral : Bool) (sessionID : Str)
    (sequential : Bool) : Node :=
  { path, data, version := 1, ephemeral, sessionID, sequential, sequence := s.seqCounter,
    children := [] }

/-- The atomic increment of the sequence counter, a `uint64`. -/
def bump (s : Store) (sequential : Bool) : Store :=
  if sequential then { s with seqCounter := (s.seqCounter + 1) % 2 ^ 64 } else s

@[simp] theorem bump_nodes (s : Store) (sq : Bool) : (s.bump sq).nodes = s.nodes := by
  cases sq <;> rfl

/-- The path a node really gets: a sequential one has the counter appended. -/
def actualPath (s : Store) (nodePath : Str) (sequential : Bool) : Str :=
  if sequential then nodePath ++ formatSequence s.seqCounter else nodePath

def create (s : Store) (nodePath data : Str) (ephemeral : Bool) (sessionID : Str)
    (sequential : Bool) : Store × Except StoreErr Str :=
  let nodePath := normalizePath nodePath
  let parent := parentPath nodePath
  match checkParent s parent with
  | some e => (s, .error e)
  | none =>
    let s := bump s sequential
    let actual := actualPath s nodePath sequential
    if actual ∈ s.nodes then (s, .error .nodeExists)
    else
      let node := freshNode s actual data ephemeral sessionID sequential
      let nodes := addChild (s.nodes.insert actual node) parent (baseName actual)
      ({ s with nodes }, .ok actual)

/-- `Get` returns a copy of the node. -/
def get (s : Store) (nodePath : Str) : Except StoreErr Node :=
  match s.nodes.find (normalizePath nodePath) with
  | none => .error .nodeNotFound
  | some n => .ok n

/-- The compare-and-set test of `Set` and `Delete`: a negative version matches anything. -/
def versionMatches (expectedVersion : Int) (n : Node) : Bool :=
  ¬ (expectedVersion ≥ 0 ∧ expectedVersion.toNat ≠ n.version)

/-- What `Set` writes: new data, and the version (a `uint64`) up by one. -/
def Node.updated (n : Node) (data : Str) : Node :=
  { n with data, version := (n.version + 1) % 2 ^ 64 }

def set (s : Store) (nodePath data : Str) (expectedVersion : Int) :
    Store × Except StoreErr Node :=
  let nodePath := normalizePath nodePath
  match s.nodes.find nodePath with
  | none => (s, .error .nodeNotFound)
  | some n =>
    if versionMatches expectedVersion n then
      ({ s with nodes := s.nodes.insert nodePath (n.updated data) }, .ok (n.updated data))
    else (s, .error .versionMismatch)

/-- Takes a node out of the map and out of its parent's children. -/
def unlink (s : Store) (nodePath : Str) : Store :=
  { s with nodes := (dropChild s.nodes (parentPath nodePath) (baseName nodePath)).erase nodePath }

def delete (s : Store) (nodePath : Str) (expectedVersion : Int) : Except Fault Store :=
  let nodePath := normalizePath nodePath
  if nodePath = root then .error (.err .deleteRoot)
  else
    match s.nodes.find nodePath with
    | none => .error (.err .nodeNotFound)
    | some n =>
      if versionMatches expectedVersion n then
        if n.children ≠ [] then .error (.err .notEmpty)
        else if parentPath nodePath ≠ [] ∧ parentPath nodePath ∉ s.nodes then
          .error .nilDereference
        else .ok (unlink s nodePath)
      else .error (.err .versionMismatch)

/-- Go's `len` of a string: its UTF-8 length. -/
def byteLen (p : Str) : Nat := (p.map Char.utf8Size).sum

/-- The nodes `DeleteEphemerals` collects. -/
def ownedBy (sessionID : Str) (n : Node) : Bool := n.ephemeral && n.sessionID == sessionID

/-- The orders in which `DeleteEphemerals` may list the nodes of a session: all of them, each
once, longer paths first. -/
def IsListing (s : Store) (sessionID : Str) (order : List Str) : Prop :=
  order.Nodup ∧ order.toFinset = s.nodes.keysWhere (ownedBy sessionID) ∧
    order.Pairwise fun a b => byteLen b ≤ byteLen a

instance (s : Store) (sessionID : Str) (order : List Str) :
    Decidable (IsListing s sessionID order) := inferInstanceAs (Decidable (_ ∧ _ ∧ _))

/-- The removal loop of `DeleteEphemerals`, over the order in which it listed the nodes. -/
def deleteEphemerals (s : Store) (order : List Str) : Store := order.foldl unlink s

/-- `GetChildren` sorts a copy of the cached list. -/
def getChildren (s : Store) (nodePath : Str) : Except StoreErr (List Str) :=
  match s.nodes.find (normalizePath nodePath) with
  | none => .error .nodeNotFound
  | some n => .ok (n.children.insertionSort (· ≤ ·))

/-- `Exists`. -/
def existsPath (s : Store) (nodePath : Str) : Bool := normalizePath nodePath ∈ s.nodes

/-! ## 4. The store as a transition system -/

inductive StoreOp
  | create (nodePath data : Str) (ephemeral : Bool) (sessionID : Str) (sequential : Bool)
  | set (nodePath data : Str) (expectedVersion : Int)
  | delete (nodePath : Str) (expectedVersion : Int)
  | deleteEphemerals (sessionID : Str) (order : List Str)
  deriving DecidableEq

/-- One call.  A failed call still happens: what it leaves of the store is the next state. -/
def step (s : Store) : StoreOp → Option Store
  | .create p d eph sid sq => some (create s p d eph sid sq).1
  | .set p d v => some (set s p d v).1
  | .delete p v =>
    match delete s p v with
    | .ok s' => some s'
    | .error _ => some s
  | .deleteEphemerals sid order =>
    if IsListing s sid order then some (deleteEphemerals s order) else none

end Store

end SkyLock
