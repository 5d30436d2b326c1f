import KushDB.ColumnIndex.EntryFormat
import KushDB.Execution.SplitPipeline
import KushDB.Library.Grouping
import KushDB.Runtime.FileTable

/-! # The column index on disk

The file starts with the mask and a table of 64 bit offsets. The entries of a slot are written one behind the other and
then linked, from the last to the first, into a list that starts at the slot. The loop that links them counts down in a
32 bit integer. The file may have held other bytes before.
-/

namespace KushDB.ColumnIndex

open KushDB.Bytes KushDB.Execution KushDB.Runtime Grouping

/-! ## Hashes of numbers -/

def hash64 (k : BitVec 64) : BitVec 64 :=
  let m := 0xc6a4a7935bd1e995
  let h := 0x8445d61a4e774912 ^^^ (8 * m)
  let k := k * m
  let k := k ^^^ (k >>> 47)
  let k := k * m
  let h := h ^^^ k
  let h := h * m
  let h := h ^^^ (h >>> 47)
  let h := h * m
  let h := h ^^^ (h >>> 47)
  h ||| (1 <<< 63)

/-- A number is extended with its sign and then cut to its own width. -/
def toUInt64 {width : Nat} (key : BitVec (8 * width)) : BitVec 64 :=
  key.signExtend 64 &&& BitVec.ofNat 64 (256 ^ width - 1)

/-! ## Writing -/

section

variable {K : Type} (format : EntryFormat K) (hash : K → BitVec 64)

abbrev Entry (K : Type) : Type := K × List (BitVec 32)

def entryLength (entry : Entry K) : Nat := format.keySize + 16 + entry.2.length * 4 + format.tailLength entry.1

def tableEnd (bits : Nat) : Nat := 8 + 2 ^ bits * 8

def fileLength (index : List (Entry K)) : Nat :=
  tableEnd (bitsOf index.length) + (index.map (entryLength format)).sum

def posOf (bits : Nat) (key : K) : Nat := (hash key).toNat &&& (2 ^ bits - 1)

def inSlot (bits : Nat) (group : Nat × List (Entry K)) (entry : Entry K) : Bool := group.1 = posOf hash bits entry.1

def newSlot (bits : Nat) (entry : Entry K) : Nat × List (Entry K) := (posOf hash bits entry.1, [entry])

def pushEntry (group : Nat × List (Entry K)) (entry : Entry K) : Nat × List (Entry K) := (group.1, group.2 ++ [entry])

/-- The entries of each slot, in the order in which the map is iterated over. -/
def posToEntries (index : List (Entry K)) : List (Nat × List (Entry K)) :=
  groupsOf (inSlot hash (bitsOf index.length)) (newSlot hash (bitsOf index.length)) pushEntry index

def writeOne (state : File × Nat × List Nat) (entry : Entry K) : Option (File × Nat × List Nat) :=
  let (file, offset, offsets) := state
  (format.writeEntry file offset entry).map fun file => (file, offset + entryLength format entry, offsets ++ [offset])

def link (pos : Nat) (file : File) (offset : Nat) : Option File := do
  let head ← file.readNat (8 + pos * 8) 8
  let file ← file.writeNat (offset + format.keySize + 8) 8 head
  file.writeNat (8 + pos * 8) 8 offset

def linkLoop (pos : Nat) (offsets : List Nat) : Nat → File → Option File
  | 0, file => some file
  | i + 1, file => do
    let offset ← offsets[i]?
    let file ← link format pos file offset
    linkLoop pos offsets i file

/-- How many entries the loop links, counted from the first. -/
def linkCount (size : Nat) : Nat := (int32 ((size : Int) - 1) + 1).toNat

def writeGroup (state : File × Nat) (group : Nat × List (Entry K)) : Option (File × Nat) := do
  let (file, offset, offsets) ← group.2.foldlM (writeOne format) (state.1, state.2, [])
  let file ← linkLoop format group.1 offsets (linkCount offsets.length) file
  some (file, offset)

/-- The groups come in the order in which their map is iterated over. No file can have 2^63 bytes. -/
def serialize (old : Nat → Byte) (index : List (Entry K)) (groups : List (Nat × List (Entry K))) : Option File := do
  let bits := bitsOf index.length
  let length := fileLength format index % 2 ^ 64
  if 2 ^ 63 ≤ length then none
  let file : File := ⟨length, old⟩
  let file ← file.writeNat 0 8 (2 ^ bits - 1)
  let file ← file.write 8 (List.replicate (2 ^ bits * 8) 0)
  let (file, _) ← groups.foldlM (writeGroup format) (file, tableEnd bits)
  some file

/-! ## Reading -/

/-- The data of a bucket are in the file, or there are none. -/
structure Bucket where
  data : Option Nat
  size : Int
deriving DecidableEq, Repr

def Bucket.values (file : File) (bucket : Bucket) : Option (List (BitVec 32)) :=
  match bucket.data with
  | none => some []
  | some offset => readValues file offset bucket.size.toNat

/-- Entries have positive offsets below the length, so a list that is longer has come back to one of its entries and goes
on for ever. -/
def find [DecidableEq K] (file : File) (key : K) : Nat → Nat → Option Bucket
  | 0, _ => none
  | fuel + 1, pos =>
    if pos = 0 then some ⟨none, 0⟩
    else do
      let entryKey ← format.readKey file pos
      if entryKey = key then
        let size ← file.readNat (pos + format.keySize) 8
        some ⟨some (pos + format.keySize + 16), int32 size⟩
      else
        let next ← file.readNat (pos + format.keySize + 8) 8
        find file key fuel next

def get [DecidableEq K] (file : File) (key : K) : Option Bucket := do
  let mask ← file.readNat 0 8
  let pos ← file.readNat (8 + ((hash key).toNat &&& mask) * 8) 8
  find format file key (file.length + 1) pos

end

end KushDB.ColumnIndex
