import SampleDB.BTreeDirs

/-!
An index is a file of leaves and a file of directory pages, whose root is block 0. A lookup
goes through the directory to the leaf for a key; an insertion goes on with the entry of
the block that a full leaf gave its records to, and grows a new root over the directory
when that becomes full. The loops through the levels of the directory take a bound on the
number of their rounds.
-/
namespace SampleDB.BTreeIndexes

open Words Pages Blocks Schemas Rollback TableScans KeyOrder BTreePages BTreeLeaves BTreeDirs

/-- `Layout::lengthInBytes` of the key field. -/
def keyBytes (type : FieldType) (length : ℕ) : ℕ :=
  match type with
  | .varchar => 4 + length
  | _ => 4

/-- `createIndexLayout`. In front of the key are the flag, the block and the id. -/
def leafLayout (type : FieldType) (length : ℕ) : Layout :=
  ⟨type, length, 4 + 4 + 4 + keyBytes type length, by omega⟩

/-- In front of the key are the flag and the block. -/
def dirLayout (type : FieldType) (length : ℕ) : Layout :=
  ⟨type, length, 4 + 4 + keyBytes type length, by omega⟩

/-- The key of the first entry of the directory. -/
def minVal (type : FieldType) : Value :=
  match type with
  | .integer => .int (-2147483648)
  | _ => .string []

/-- The leaf that is open: its block, its slot and its key. -/
structure Cursor where
  contents : ℕ
  currentSlot : ℤ
  key : Value
  deriving DecidableEq

structure BTreeIndex where
  type : FieldType
  length : ℕ
  leafFile : IndexFile Rid
  dirFile : IndexFile ℕ
  leaf : Option Cursor
  deriving DecidableEq

namespace BTreeIndex

/-- A file without leaves gets an empty one. Its page is not closed. -/
def openLeaves (B : BlockSize) (L : Layout) (file : IndexFile Rid) : Result (IndexFile Rid) := do
  if file.blocks.length = 0 then
    let file := (file.append L B).pin 0
    return file.put 0 ((← file.contents 0).format L (-1))
  else return file

/-- A file without a root gets one, with an entry for all keys. -/
def openDir (B : BlockSize) (L : Layout) (file : IndexFile ℕ) : Result (IndexFile ℕ) := do
  if file.blocks.length = 0 then
    let file := (file.append L B).pin 0
    let c ← insertDir L ((← file.contents 0).format L 0) 0 (minVal L.dataval) 0
    return (file.put 0 c).unpin 0
  else return file

/-- The constructor. -/
def new (B : BlockSize) (type : FieldType) (length : ℕ) (leafFile : IndexFile Rid)
    (dirFile : IndexFile ℕ) : Result BTreeIndex := do
  let leafFile ← openLeaves B (leafLayout type length) leafFile
  let dirFile ← openDir B (dirLayout type length) dirFile
  return ⟨type, length, leafFile, dirFile, none⟩

def leafOf (idx : BTreeIndex) : Layout := leafLayout idx.type idx.length

def dirOf (idx : BTreeIndex) : Layout := dirLayout idx.type idx.length

def withLeaf (idx : BTreeIndex) (leaf : BTreeLeaf) : BTreeIndex :=
  { idx with leafFile := leaf.file, leaf := some ⟨leaf.contents, leaf.currentSlot, leaf.key⟩ }

def close (idx : BTreeIndex) : BTreeIndex :=
  match idx.leaf with
  | some leaf => { idx with leafFile := idx.leafFile.unpin leaf.contents, leaf := none }
  | none => idx

/-- The block of the leaf for a key. -/
def findLeaf (fuel : ℕ) (idx : BTreeIndex) (key : Value) : Result (ℕ × BTreeIndex) := do
  let (blk, root) ← (BTreeDir.new idx.dirFile 0).search idx.dirOf fuel key
  return (blk, { idx with dirFile := root.close })

def openLeaf (idx : BTreeIndex) (blk : ℕ) (key : Value) : Result BTreeLeaf :=
  BTreeLeaf.new idx.leafOf idx.leafFile blk key

def beforeFirst (fuel : ℕ) (idx : BTreeIndex) (key : Value) : Result BTreeIndex := do
  let (blk, idx) ← idx.close.findLeaf fuel key
  return idx.withLeaf (← idx.openLeaf blk key)

/-- Without an open leaf a null pointer is followed. -/
def currentLeaf (idx : BTreeIndex) : Result BTreeLeaf :=
  match idx.leaf with
  | some leaf => .ok ⟨idx.leafFile, leaf.contents, leaf.currentSlot, leaf.key⟩
  | none => .error .outside

def next (idx : BTreeIndex) : Result (Bool × BTreeIndex) := do
  let (found, leaf) ← (← idx.currentLeaf).next idx.leafOf
  return (found, idx.withLeaf leaf)

def getDataRid (idx : BTreeIndex) : Result Rid := do
  (← idx.currentLeaf).dataRid idx.leafOf

/-- The entry that the root returned becomes the second one of a new root. -/
def growRoot (B : BlockSize) (L : Layout) (root : BTreeDir) : Option DirEntry → Result BTreeDir
  | some newEntry => root.makeNewRoot L B newEntry
  | none => .ok root

/-- The entry that the leaf returned goes into the directory. -/
def insertInDir (B : BlockSize) (fuel : ℕ) (idx : BTreeIndex) :
    Option DirEntry → Result BTreeIndex
  | some dirEntry => do
      let (root, newEntry) ←
        (BTreeDir.new idx.dirFile 0).insert idx.dirOf B dirEntry fuel
      let root ← growRoot B idx.dirOf root newEntry
      return { idx with dirFile := root.close }
  | none => .ok idx

def insert (B : BlockSize) (fuel : ℕ) (idx : BTreeIndex) (dataval : Value) (datarid : Rid) :
    Result BTreeIndex := do
  let idx ← idx.beforeFirst fuel dataval
  let (leaf, dirEntry) ← (← idx.currentLeaf).insert idx.leafOf B datarid
  (idx.withLeaf leaf).close.insertInDir B fuel dirEntry

def remove (fuel : ℕ) (idx : BTreeIndex) (dataval : Value) (datarid : Rid) :
    Result BTreeIndex := do
  let idx ← idx.beforeFirst fuel dataval
  let leaf ← (← idx.currentLeaf).remove idx.leafOf datarid fuel
  return (idx.withLeaf leaf).close

end BTreeIndex

end SampleDB.BTreeIndexes
