import KushDB.Library.Bytes
import KushDB.TupleIdxTable.Children

/-! # The radix tree of tuples

A tuple is a key of the bytes of its values. Inner nodes carry the bytes that all keys below them share, leaves carry the
whole key. The length of a key is four times the number of values as an `int32_t`, which is compared with unsigned
positions, so it is the number of bytes modulo 2^32. Reads behind the bytes of a key fail.

The iterator keeps the inner nodes from the leaf it is at up to the root, with the position of the child it took in each.
-/

namespace KushDB.TupleIdxTable

abbrev Tuple := List (BitVec 32)

def valueBytes (value : BitVec 32) : List Byte :=
  (Bytes.encode 4 value.toNat).map BitVec.toFin

structure Key where
  tuple : Tuple
  length : Nat

def Key.data (key : Key) : List Byte :=
  key.tuple.flatMap valueBytes

def createKey (tuple : Tuple) : Key :=
  { tuple, length := 4 * tuple.length % 2 ^ 32 }

inductive Node
  | leaf (value : Key)
  | inner (compressed : List Byte) (children : Children Node)

/-! ## Insertion -/

/-- The first position from `pos` on at which the keys differ, or `some none` if the leaf is already there. -/
def leafMismatch (existing key : Key) : Nat → Nat → Option (Option Nat)
  | 0, _ => none
  | fuel + 1, pos =>
    if pos = existing.length ∧ existing.length = key.length then
      some none
    else do
      let one ← existing.data[pos]?
      let other ← key.data[pos]?
      if one = other then leafMismatch existing key fuel (pos + 1) else some (some pos)

def prefixMismatch (key : Key) : Nat → List Byte → Option Nat
  | _, [] => some 0
  | depth, byte :: compressed => do
    let other ← key.data[depth]?
    if other ≠ byte then some 0 else (prefixMismatch key (depth + 1) compressed).map (· + 1)

/-- A node of 4 children with the two nodes that the bytes lead to. -/
def branch (compressed : List Byte) (oldByte : Byte) (old : Node) (newByte : Byte) (key : Key) : Node :=
  .inner compressed (((Children.node4 []).insertLeaf oldByte old).insertLeaf newByte (.leaf key))

def insertImpl (key : Key) : Nat → Option Node → Nat → Option (Node × Bool)
  | 0, _, _ => none
  | _ + 1, none, _ => some (.leaf key, true)
  | _ + 1, some (.leaf existing), depth => do
    match ← leafMismatch existing key (existing.data.length + 1) depth with
    | none => some (.leaf existing, false)
    | some pos =>
      let oldByte ← existing.data[pos]?
      let newByte ← key.data[pos]?
      some (branch ((key.data.drop depth).take (pos - depth)) oldByte (.leaf existing) newByte key, true)
  | fuel + 1, some (.inner compressed children), depth => do
    let mismatchPos ← prefixMismatch key depth compressed
    if mismatchPos ≠ compressed.length then
      let oldByte ← compressed[mismatchPos]?
      let newByte ← key.data[depth + mismatchPos]?
      let old := Node.inner (compressed.drop (mismatchPos + 1)) children
      some (branch (compressed.take mismatchPos) oldByte old newByte key, true)
    else
      let byte ← key.data[depth + compressed.length]?
      match children.getChildPos byte with
      | some pos =>
        let child ← children.getChild pos
        let (child, added) ← insertImpl key fuel (some child) (depth + compressed.length + 1)
        some (.inner compressed (children.setChild pos child), added)
      | none => some (.inner compressed (children.insertLeaf byte (.leaf key)), true)

def insert (tree : Option Node) (tuple : Tuple) : Option (Node × Bool) :=
  insertImpl (createKey tuple) ((createKey tuple).data.length + 1) tree 0

def insertAll : Option Node → List Tuple → Option (Option Node × List Bool)
  | tree, [] => some (tree, [])
  | tree, tuple :: tuples => do
    let (tree, added) ← insert tree tuple
    let (tree, results) ← insertAll (some tree) tuples
    some (tree, added :: results)

/-! ## Iteration -/

/-- The entries of the stack below the depth, the top first. -/
structure Iterator where
  node : Option Key
  stack : List (Node × Option Nat)

def createIt : Iterator :=
  { node := none, stack := [] }

def beginImpl : Nat → Iterator → Node → Option Iterator
  | 0, _, _ => none
  | _ + 1, it, .leaf value => some { it with node := some value }
  | fuel + 1, it, .inner compressed children => do
    let pos ← children.firstPos
    let next ← children.getChild pos
    beginImpl fuel { it with stack := (.inner compressed children, some pos) :: it.stack } next

def skipLeaf (it : Iterator) : Iterator :=
  match it.stack with
  | (.leaf _, _) :: stack => { it with stack }
  | _ => it

def nextLoop : Nat → Iterator → Option (Iterator × Bool)
  | 0, _ => none
  | fuel + 1, it =>
    match it.stack with
    | [] => some (it, false)
    | (.leaf value, _) :: _ => some ({ it with node := some value }, true)
    | (.inner compressed children, pos) :: stack =>
      match children.getNextPos pos with
      | some next => do
        let child ← children.getChild next
        nextLoop fuel { it with stack := (child, none) :: (.inner compressed children, some next) :: stack }
      | none => nextLoop fuel { it with stack }

def iteratorNext (fuel : Nat) (it : Iterator) : Option (Iterator × Bool) :=
  nextLoop fuel (skipLeaf it)

/-- The tuples that the iterator is at after each call that finds one, up to the call that finds none. -/
def visitRest (fuel : Nat) : Nat → Iterator → Option (List Tuple)
  | 0, _ => none
  | calls + 1, it => do
    let (it, found) ← iteratorNext fuel it
    if found then
      let value ← it.node
      let tuples ← visitRest fuel calls it
      some (value.tuple :: tuples)
    else
      some []

def visit (fuel : Nat) : Option Node → Option (List Tuple)
  | none => some []
  | some tree => do
    let it ← beginImpl fuel createIt tree
    let value ← it.node
    let tuples ← visitRest fuel fuel it
    some (value.tuple :: tuples)

end KushDB.TupleIdxTable
