import SampleDB.BTreeLeaves

/-!
The directory of an index. An entry of a page leads to the block for the keys from its own
key up to the one of the next entry; the flag of a page is its level, and the entries of
level zero lead to leaves.
-/
namespace SampleDB.BTreeDirs

open Words Pages Blocks Schemas Rollback KeyOrder BTreePages BTreeLeaves

/-- `contents` is the block of the page that the directory stands in. -/
structure BTreeDir where
  file : IndexFile ℕ
  contents : ℕ
  deriving DecidableEq

namespace BTreeDir

variable (L : Layout)

/-- The constructor. -/
def new (file : IndexFile ℕ) (blk : ℕ) : BTreeDir := ⟨file.pin blk, blk⟩

def close (dir : BTreeDir) : IndexFile ℕ := dir.file.unpin dir.contents

def page (dir : BTreeDir) : Result (Contents ℕ) := dir.file.contents dir.contents

/-- The slot for the key is the one behind the smaller keys if that slot holds the key. -/
def slotOf (c : Contents ℕ) (key : Value) : Result ℤ := do
  let slot ← c.findSlotBefore L key
  if ← equal (← c.getDataVal L (slot + 1)) key then return slot + 1 else return slot

def findChildBlock (dir : BTreeDir) (key : Value) : Result ℕ := do
  let c ← dir.page
  getChildNum L c (← slotOf L c key)

/-- The loop of `search`, in at most so many rounds. -/
def searchFrom (key : Value) : ℕ → BTreeDir → ℕ → Result (ℕ × BTreeDir)
  | 0, _, _ => .error .outside
  | n + 1, dir, childBlk => do
      if (← dir.page).getFlag > 0 then
        let dir := new dir.close childBlk
        searchFrom key n dir (← dir.findChildBlock L key)
      else return (childBlk, dir)

def search (fuel : ℕ) (dir : BTreeDir) (key : Value) : Result (ℕ × BTreeDir) := do
  searchFrom L key fuel dir (← dir.findChildBlock L key)

/-- What happens to a page that has become full. -/
def splitFull (B : BlockSize) (dir : BTreeDir) (c : Contents ℕ) :
    Result (BTreeDir × Option DirEntry) := do
  let splitPos := c.numRecs.tdiv 2
  let splitVal ← c.getDataVal L splitPos
  let (newBlk, file) ← dir.file.split L B dir.contents splitPos c.getFlag
  return ({ dir with file := file }, some ⟨splitVal, newBlk⟩)

/-- `none` is the null entry. -/
def insertEntry (B : BlockSize) (dir : BTreeDir) (dirEntry : DirEntry) :
    Result (BTreeDir × Option DirEntry) := do
  let c ← dir.page
  let newSlot := 1 + (← c.findSlotBefore L dirEntry.dataVal)
  let c ← insertDir L c newSlot dirEntry.dataVal dirEntry.blockNum
  let dir := { dir with file := dir.file.put dir.contents c }
  if c.isFull L B then dir.splitFull L B c else return (dir, none)

def makeNewRoot (B : BlockSize) (dir : BTreeDir) (dirEntry : DirEntry) : Result BTreeDir := do
  let c ← dir.page
  let firstVal ← c.getDataVal L 0
  let (newBlk, file) ← dir.file.split L B dir.contents 0 c.getFlag
  let (dir, _) ← { dir with file := file }.insertEntry L B ⟨firstVal, newBlk⟩
  let (dir, _) ← dir.insertEntry L B dirEntry
  let file ← dir.file.setFlag dir.contents (c.getFlag + 1)
  return { dir with file := file }

/-- The entry that a child returned goes into the page. -/
def insertReturned (B : BlockSize) (dir : BTreeDir) :
    Option DirEntry → Result (BTreeDir × Option DirEntry)
  | some newEntry => dir.insertEntry L B newEntry
  | none => .ok (dir, none)

/-- The recursion ends after at most so many levels. -/
def insert (B : BlockSize) (dirEntry : DirEntry) :
    ℕ → BTreeDir → Result (BTreeDir × Option DirEntry)
  | 0, _ => .error .outside
  | n + 1, dir => do
      if (← dir.page).getFlag = 0 then dir.insertEntry L B dirEntry
      else
        let childBlk ← dir.findChildBlock L dirEntry.dataVal
        let (child, newEntry) ← insert B dirEntry n (new dir.file childBlk)
        { dir with file := child.close }.insertReturned L B newEntry

end BTreeDir

end SampleDB.BTreeDirs
