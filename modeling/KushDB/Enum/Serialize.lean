import KushDB.Enum.Loader
import KushDB.Runtime.FileTable

/-! # The dictionary in a file

First come two numbers, the offset of the entries and the mask, then a table of 64 bit offsets, then one entry of 16
bytes for each number, then the strings. The entries are found by their numbers, or through the table by linear probing
with the hashes of the strings. The file may have held other bytes before.
-/

namespace KushDB.Enum

open KushDB.Bytes KushDB.Execution KushDB.Runtime

def entryOffset (bits : Nat) : Nat := 16 + 2 ^ bits * 8

def fileLength (index : List (List Byte × Int)) : Nat :=
  entryOffset (bitsOf index.length) + (index.map fun item => 16 + item.1.length + 1).sum

/-- The items by their numbers, which have to be indices of a vector of their size. -/
def keysInOrder (index : List (List Byte × Int)) : Option (List (List Byte × Int)) := do
  let keys ← index.foldlM (fun keys item =>
    if 0 ≤ item.2 ∧ item.2 < (index.length : Int) then some (keys.set item.2.toNat (some item)) else none)
    (List.replicate index.length none)
  keys.mapM id

def writeEntry (bits : Nat) (state : File × Nat) (item : List Byte × Int) : Option (File × Nat) := do
  let entry := entryOffset bits + item.2.toNat * 16
  let file ← state.1.writeNat entry 8 state.2
  let file ← file.writeNat (entry + 8) 4 item.1.length
  let file ← file.writeNat (entry + 12) 4 item.2.toNat
  let file ← file.write state.2 (item.1 ++ [0])
  some (file, state.2 + item.1.length + 1)

/-- The loop changes nothing, so one that has seen the whole table goes on for ever. -/
def emptySlot (file : File) (mask : Nat) : Nat → Nat → Option Nat
  | 0, _ => none
  | fuel + 1, pos => do
    let entry ← file.readNat (16 + pos * 8) 8
    if entry ≠ 0 then emptySlot file mask fuel ((pos + 1) &&& mask) else some pos

def insertKey (hash : List Byte → BitVec 64) (bits : Nat) (file : File) (item : List Byte × Int) : Option File := do
  let mask := 2 ^ bits - 1
  let pos ← emptySlot file mask (2 ^ bits) ((hash item.1).toNat &&& mask)
  file.writeNat (16 + pos * 8) 8 (entryOffset bits + item.2.toNat * 16)

/-- The items come in the order in which the map is iterated over. -/
def serialize (hash : List Byte → BitVec 64) (old : Nat → Byte) (index : List (List Byte × Int)) : Option File := do
  let bits := bitsOf index.length
  let file : File := ⟨fileLength index, old⟩
  let keys ← keysInOrder index
  let file ← file.writeNat 0 8 (entryOffset bits)
  let (file, _) ← keys.foldlM (writeEntry bits) (file, entryOffset bits + index.length * 16)
  let file ← file.writeNat 8 8 (2 ^ bits - 1)
  let file ← file.write 16 (List.replicate (2 ^ bits * 8) 0)
  index.foldlM (insertKey hash bits) file

/-! ## Reading -/

def getKey (file : File) (value : Int) : Option (List Byte) := do
  let entries ← file.readNat 0 8
  if value < 0 then none
  let entry := entries + value.toNat * 16
  let strLen ← file.readNat (entry + 8) 4
  let strOffset ← file.readNat entry 8
  file.read strOffset strLen

def findValue (file : File) (mask : Nat) (value : List Byte) : Nat → Nat → Option Int
  | 0, _ => none
  | fuel + 1, pos => do
    let entry ← file.readNat (16 + pos * 8) 8
    if entry = 0 then return -1
    let strOffset ← file.readNat entry 8
    let strLen ← file.readNat (entry + 8) 4
    let str ← file.read strOffset strLen
    if str = value then
      let id ← file.readNat (entry + 12) 4
      return int32 id
    findValue file mask value fuel ((pos + 1) &&& mask)

def getValue (hash : List Byte → BitVec 64) (file : File) (value : List Byte) : Option Int := do
  let mask ← file.readNat 8 8
  findValue file mask value (mask + 1) ((hash value).toNat &&& mask)

end KushDB.Enum
