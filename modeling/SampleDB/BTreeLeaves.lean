import SampleDB.BTreePages

/-!
Leaves of an index. A leaf is opened for a key, in front of the first record that is not
smaller. A leaf with records of one key only goes on in overflow blocks, and its flag is the
number of the first of them; a negative flag ends the chain.
-/
namespace SampleDB.BTreeLeaves

open Words Pages Blocks Schemas Rollback TableScans KeyOrder BTreePages

structure DirEntry where
  dataVal : Value
  blockNum : ℕ
  deriving DecidableEq

/-- `contents` is the block of the page that the leaf stands in. -/
structure BTreeLeaf where
  file : IndexFile Rid
  contents : ℕ
  currentSlot : ℤ
  key : Value
  deriving DecidableEq

namespace BTreeLeaf

variable (L : Layout)

/-- The constructor. -/
def new (file : IndexFile Rid) (blk : ℕ) (key : Value) : Result BTreeLeaf := do
  let file := file.pin blk
  let slot ← (← file.contents blk).findSlotBefore L key
  return ⟨file, blk, slot, key⟩

def close (leaf : BTreeLeaf) : IndexFile Rid := leaf.file.unpin leaf.contents

def page (leaf : BTreeLeaf) : Result (Contents Rid) := leaf.file.contents leaf.contents

def tryOverflow (leaf : BTreeLeaf) : Result (Bool × BTreeLeaf) := do
  let c ← leaf.page
  let firstKey ← c.getDataVal L 0
  if (!(← equal leaf.key firstKey)) || c.getFlag < 0 then return (false, leaf)
  else
    let next := c.getFlag.toNat
    return (true, { leaf with file := leaf.close.pin next, contents := next, currentSlot := 0 })

/-- The current slot holds the key of the leaf. -/
def atKey (leaf : BTreeLeaf) : Result Bool := do
  let c ← leaf.page
  if leaf.currentSlot ≥ c.numRecs then return false
  else equal (← c.getDataVal L leaf.currentSlot) leaf.key

def next (leaf : BTreeLeaf) : Result (Bool × BTreeLeaf) := do
  let leaf := { leaf with currentSlot := leaf.currentSlot + 1 }
  if ← leaf.atKey L then return (true, leaf) else leaf.tryOverflow L

def dataRid (leaf : BTreeLeaf) : Result Rid := do
  getDataRid L (← leaf.page) leaf.currentSlot

/-- The loop of `remove`, in at most so many rounds. -/
def remove (datarid : Rid) : ℕ → BTreeLeaf → Result BTreeLeaf
  | 0, _ => .error .outside
  | n + 1, leaf => do
      let (found, leaf) ← leaf.next L
      if found then
        if (← leaf.dataRid L) = datarid then
          let c ← (← leaf.page).remove L leaf.currentSlot
          return { leaf with file := leaf.file.put leaf.contents c }
        else remove datarid n leaf
      else return leaf

/-- The record of the leaf's key goes into the slot. -/
def insertAt (leaf : BTreeLeaf) (slot : ℤ) (datarid : Rid) : Result BTreeLeaf := do
  let c ← insertLeaf L (← leaf.page) slot leaf.key datarid
  return { leaf with file := leaf.file.put leaf.contents c, currentSlot := slot }

/-- The page has an overflow block, and its first key is larger than the key of the leaf. -/
def isBelow (leaf : BTreeLeaf) : Result Bool := do
  let c ← leaf.page
  if c.getFlag ≥ 0 then greater (← c.getDataVal L 0) leaf.key else return false

/-- All records move to a new block, which keeps the overflow block. -/
def insertBelow (B : BlockSize) (leaf : BTreeLeaf) (datarid : Rid) :
    Result (BTreeLeaf × Option DirEntry) := do
  let c ← leaf.page
  let firstVal ← c.getDataVal L 0
  let (newBlk, file) ← leaf.file.split L B leaf.contents 0 c.getFlag
  let file ← file.setFlag leaf.contents (-1)
  let leaf ← { leaf with file := file }.insertAt L 0 datarid
  return (leaf, some ⟨firstVal, newBlk⟩)

/-- The loop that looks for the next key, in at most so many rounds. -/
def moveRight (c : Contents Rid) (splitKey : Value) : ℕ → ℤ → Result ℤ
  | 0, _ => .error .outside
  | n + 1, splitPos => do
      if ← equal (← c.getDataVal L splitPos) splitKey then moveRight c splitKey n (splitPos + 1)
      else return splitPos

/-- The loop that looks for the first record with the key, in at most so many rounds. -/
def moveLeft (c : Contents Rid) (splitKey : Value) : ℕ → ℤ → Result ℤ
  | 0, _ => .error .outside
  | n + 1, splitPos => do
      if ← equal (← c.getDataVal L (splitPos - 1)) splitKey then
        moveLeft c splitKey n (splitPos - 1)
      else return splitPos

/-- The place of the split, and the key there. -/
def findSplit (c : Contents Rid) (firstKey : Value) : Result (ℤ × Value) := do
  let splitPos := c.numRecs.tdiv 2
  let splitKey ← c.getDataVal L splitPos
  if ← equal splitKey firstKey then
    let splitPos ← moveRight L c splitKey (c.slots.length + 1) splitPos
    return (splitPos, ← c.getDataVal L splitPos)
  else
    let splitPos ← moveLeft L c splitKey (c.slots.length + 1) splitPos
    return (splitPos, splitKey)

/-- All but the first record move to an overflow block. -/
def addOverflow (B : BlockSize) (leaf : BTreeLeaf) (c : Contents Rid) :
    Result (BTreeLeaf × Option DirEntry) := do
  let (newBlk, file) ← leaf.file.split L B leaf.contents 1 c.getFlag
  let file ← file.setFlag leaf.contents newBlk
  return ({ leaf with file := file }, none)

def splitMiddle (B : BlockSize) (leaf : BTreeLeaf) (c : Contents Rid) (firstKey : Value) :
    Result (BTreeLeaf × Option DirEntry) := do
  let (splitPos, splitKey) ← findSplit L c firstKey
  let (newBlk, file) ← leaf.file.split L B leaf.contents splitPos (-1)
  return ({ leaf with file := file }, some ⟨splitKey, newBlk⟩)

/-- What happens to a page that has become full. -/
def splitFull (B : BlockSize) (leaf : BTreeLeaf) : Result (BTreeLeaf × Option DirEntry) := do
  let c ← leaf.page
  let firstKey ← c.getDataVal L 0
  let lastKey ← c.getDataVal L (c.numRecs - 1)
  if ← equal lastKey firstKey then leaf.addOverflow L B c
  else leaf.splitMiddle L B c firstKey

/-- `none` is the null entry. -/
def insert (B : BlockSize) (leaf : BTreeLeaf) (datarid : Rid) :
    Result (BTreeLeaf × Option DirEntry) := do
  if ← leaf.isBelow L then leaf.insertBelow L B datarid
  else
    let leaf ← leaf.insertAt L (leaf.currentSlot + 1) datarid
    if (← leaf.page).isFull L B then leaf.splitFull L B else return (leaf, none)

end BTreeLeaf

end SampleDB.BTreeLeaves
