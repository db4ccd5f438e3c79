import OasValidator.Library.Cells
import OasValidator.PathTrie

/-! The trie as the nodes that `new` makes and pointers between them.  A pointer is the address of a
node; following one to a node that does not live has no defined behaviour, and neither has releasing
such a node. -/

namespace OasValidator.PathTrie.Linked

open Library.Cells Library.Table

/-- A `Node`, with the addresses of its children. -/
structure Cell where
  dir : Bytes := []
  isParam : Bool := false
  fragIdx : Nat := 0
  children : List (Bytes × Nat) := []

/-- `*node`. -/
def deref (node : Nat) (heap : Heap Cell) : Except Fault Cell :=
  match heap.cells node with
  | some cell => .ok cell
  | none => .error .undefined

/-- `node->children[dir] = child`. -/
def setChild (node : Nat) (dir : Bytes) (child : Nat) (heap : Heap Cell) :
    Except Fault (Heap Cell) := do
  let cell ← deref node heap
  pure (heap.store node { cell with children := put dir child cell.children })

/-- The pairs of a map, in the order of a loop over it. -/
def entries (order : Hashing) (children : List (Bytes × Nat)) : List (Bytes × Nat) :=
  (order.iterate (keys children)).filterMap fun dir => (children.lookup dir).map (dir, ·)

/-! ### `Insert` and `Search` -/

/-- The loop of `insert`, from a node that `fragmentIndex` fragments lead to. -/
def insertFrom (fragmentIndex : Nat) :
    List Bytes → Nat → Heap Cell → Except Fault (Heap Cell)
  | [], _, heap => .ok heap
  | dir :: rest, node, heap => do
    let cell ← deref node heap
    let heap :=
      if isParamDir dir then heap.store node { cell with isParam := true, dir := dir } else heap
    match cell.children.lookup dir with
    | some child => insertFrom (fragmentIndex + 1) rest child heap
    | none =>
      let (newNode, heap) := heap.alloc { fragIdx := fragmentIndex + 1 }
      let heap ← setChild node dir newNode heap
      insertFrom (fragmentIndex + 1) rest newNode heap

def insert (path : Bytes) (root : Nat) (heap : Heap Cell) : Except Fault (Heap Cell) :=
  insertFrom 0 (Library.Cut.cut slash path) root heap

/-- `node->children.begin()->second`, undefined on an empty map. -/
def beginChild (order : Hashing) (cell : Cell) : Except Fault Nat :=
  match (order.first (keys cell.children)).bind fun dir => cell.children.lookup dir with
  | some child => .ok child
  | none => .error .undefined

/-- The loop of `search`. -/
def searchFrom (order : Hashing) (heap : Heap Cell) (oasPath : Bytes) :
    List (Bytes × ParamRange) → Nat → Except Fault (Bool × Bytes)
  | [], _ => .ok (true, oasPath.dropLast)
  | (dir, _) :: rest, node => do
    let cell ← deref node heap
    match cell.children.lookup dir with
    | none =>
      if cell.isParam then
        searchFrom order heap (oasPath ++ (cell.dir ++ [slash])) rest (← beginChild order cell)
      else pure (false, [])
    | some child => searchFrom order heap (oasPath ++ (dir ++ [slash])) rest child

def search (order : Hashing) (root : Nat) (path : Bytes) (heap : Heap Cell) :
    Except Fault (Bool × Bytes) :=
  searchFrom order heap [] (fragments path) root

/-- The loop of the other `search`. -/
def searchParamsFrom (order : Hashing) (heap : Heap Cell) (oasPath : Bytes)
    (paramIdxs : ParamIdxs) :
    List (Bytes × ParamRange) → Nat → Except Fault (Bool × Bytes × ParamIdxs)
  | [], _ => .ok (true, oasPath.dropLast, paramIdxs)
  | (dir, range) :: rest, node => do
    let cell ← deref node heap
    match cell.children.lookup dir with
    | none =>
      if cell.isParam then
        searchParamsFrom order heap (oasPath ++ (cell.dir ++ [slash]))
          (emplace cell.fragIdx range paramIdxs) rest (← beginChild order cell)
      else pure (false, [], paramIdxs)
    | some child => searchParamsFrom order heap (oasPath ++ (dir ++ [slash])) paramIdxs rest child

def searchParams (order : Hashing) (root : Nat) (path : Bytes) (paramIdxs : ParamIdxs)
    (heap : Heap Cell) : Except Fault (Bool × Bytes × ParamIdxs) :=
  searchParamsFrom order heap [] paramIdxs (fragments path) root

/-! ### Copies and destruction

A descent that goes deeper than there are nodes has met a cycle and does not end, which is undefined;
the functions take the depth that is left. -/

/-- The pointer that `CopyNode` takes by reference: `root_`, or a pointer in a map of children. -/
inductive Slot where
  | root
  | child (node : Nat) (dir : Bytes)

/-- `thisNode = node`.  The caller keeps `root_`. -/
def Slot.assign : Slot → Nat → Heap Cell → Except Fault (Heap Cell)
  | .root, _, heap => .ok heap
  | .child parent dir, node, heap => setChild parent dir node heap

/-- The new node has the pointers of the old one until its children are copied. -/
def copyNode (order : Hashing) :
    Nat → Slot → Nat → Heap Cell → Except Fault (Nat × Heap Cell)
  | 0, _, _, _ => .error .undefined
  | depth + 1, thisNode, otherNode, heap => do
    let other ← deref otherNode heap
    let (node, heap) := heap.alloc other
    let heap ← thisNode.assign node heap
    let heap ← (entries order other.children).foldlM
      (fun heap child => do
        let (_, heap) ← copyNode order depth (.child node child.1) child.2 heap
        pure heap)
      heap
    pure (node, heap)

/-- `delete node`. -/
def free (node : Nat) (heap : Heap Cell) : Except Fault (Heap Cell) := do
  let _ ← deref node heap
  pure (heap.release node)

def deleteNode (order : Hashing) : Nat → Nat → Heap Cell → Except Fault (Heap Cell)
  | 0, _, _ => .error .undefined
  | depth + 1, node, heap => do
    let cell ← deref node heap
    let heap ← (entries order cell.children).foldlM
      (fun heap child => deleteNode order depth child.2 heap) heap
    free node heap

/-- The part that the copy constructor and the assignment share.  The first node it makes is lost, as
`CopyNode` makes the root again. -/
def copyRoot (order : Hashing) (otherRoot : Nat) (heap : Heap Cell) :
    Except Fault (Nat × Heap Cell) := do
  let other ← deref otherRoot heap
  let (_, heap) := heap.alloc other
  copyNode order heap.next .root otherRoot heap

/-! ### Programs -/

/-- The nodes, and the `root_` of each living trie under the address of the trie. -/
structure Tries where
  heap : Heap Cell := {}
  roots : Nat → Option Nat := fun _ => none

inductive Op where
  | construct (trie : Nat)
  | copyConstruct (trie other : Nat)
  | assign (trie other : Nat)
  | insert (trie : Nat) (path : Bytes)
  | search (trie : Nat) (path : Bytes)
  | searchParams (trie : Nat) (path : Bytes) (paramIdxs : ParamIdxs)
  | destroy (trie : Nat)

/-- What an operation hands back: whether a path was found, under which key, and the ranges. -/
inductive Answer where
  | done
  | found (result : Bool × Bytes)
  | foundParams (result : Bool × Bytes × ParamIdxs)

/-- One operation, if it is one that a program can make: a trie is constructed where none lives, and
used where one does. -/
def step (order : Hashing) (s : Tries) : Op → Option (Except Fault (Tries × Answer))
  | .construct trie =>
    match s.roots trie with
    | some _ => none
    | none =>
      let (root, heap) := s.heap.alloc {}
      some (.ok (⟨heap, Function.update s.roots trie (some root)⟩, .done))
  | .copyConstruct trie other =>
    match s.roots trie, s.roots other with
    | none, some otherRoot => some do
      let (root, heap) ← copyRoot order otherRoot s.heap
      pure (⟨heap, Function.update s.roots trie (some root)⟩, .done)
    | _, _ => none
  | .assign trie other =>
    match s.roots trie, s.roots other with
    | some root, some otherRoot =>
      if trie = other then some (.ok (s, .done))
      else some do
        let heap ← deleteNode order s.heap.next root s.heap
        let (root, heap) ← copyRoot order otherRoot heap
        pure (⟨heap, Function.update s.roots trie (some root)⟩, .done)
    | _, _ => none
  | .insert trie path =>
    (s.roots trie).map fun root => do
      let heap ← insert path root s.heap
      pure (⟨heap, s.roots⟩, .done)
  | .search trie path =>
    (s.roots trie).map fun root => do
      let result ← search order root path s.heap
      pure (s, .found result)
  | .searchParams trie path paramIdxs =>
    (s.roots trie).map fun root => do
      let result ← searchParams order root path paramIdxs s.heap
      pure (s, .foundParams result)
  | .destroy trie =>
    (s.roots trie).map fun root => do
      let heap ← deleteNode order s.heap.next root s.heap
      pure (⟨heap, Function.update s.roots trie none⟩, .done)

/-- Operations one after the other, and what they hand back. -/
def run (order : Hashing) (s : Tries) : List Op → Option (Except Fault (Tries × List Answer))
  | [] => some (.ok (s, []))
  | op :: ops =>
    match step order s op with
    | none => none
    | some (.error e) => some (.error e)
    | some (.ok (s, answer)) =>
      (run order s ops).map fun r => r.map fun p => (p.1, answer :: p.2)

end OasValidator.PathTrie.Linked
