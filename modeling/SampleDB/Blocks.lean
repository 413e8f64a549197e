import SampleDB.Pages

/-!
Block identifiers, and files as FileMgr leaves them. FileMgr has two effects on a
file: it writes a whole block, and it appends a zeroed block. A file is kept as
the sequence of these effects, so that every prefix of it is a file a crash can
leave behind; its blocks are their replay.
-/
namespace SampleDB.Blocks

open Words Pages

structure BlockId where
  fileName : Bytes
  number : Int32
  deriving DecidableEq, Repr

def BlockId.isNull (blk : BlockId) : Bool := blk.fileName.isEmpty

/-- A block size is an `int`. A page below four bytes has no room for one word. -/
structure BlockSize where
  bytes : ℕ
  word_le : 4 ≤ bytes
  lt_int : bytes < 2147483648
  deriving DecidableEq

/-! The block size of the program is 400. -/

theorem word_le_standard : 4 ≤ 400 := by decide

theorem standard_lt_int : 400 < 2147483648 := by decide

inductive FileEffect
  | append
  | write (blk : ℕ) (p : Page)
  deriving DecidableEq, Repr

/-- A write behind the end of the file leaves a gap of zeros. -/
def FileEffect.apply (B : BlockSize) (blocks : List Page) : FileEffect → List Page
  | .append => blocks ++ [zeroPage B.bytes]
  | .write blk p =>
      if blk < blocks.length then blocks.set blk p
      else blocks ++ List.replicate (blk - blocks.length) (zeroPage B.bytes) ++ [p]

/-- The effects on one file, the oldest first. -/
abbrev File := List FileEffect

namespace File

def blocks (B : BlockSize) (f : File) : List Page := f.foldl (FileEffect.apply B) []

def length (B : BlockSize) (f : File) : ℕ := (f.blocks B).length

def append (f : File) : File := f ++ [.append]

def write (f : File) (blk : ℕ) (p : Page) : File := f ++ [.write blk p]

/-- A read behind the end of the file gives zeros. -/
def read (B : BlockSize) (f : File) (blk : ℤ) : Page :=
  if 0 ≤ blk then ((f.blocks B)[blk.toNat]?).getD (zeroPage B.bytes) else zeroPage B.bytes

@[simp] theorem length_nil (B : BlockSize) : length B [] = 0 := rfl

theorem blocks_append (B : BlockSize) (f : File) :
    f.append.blocks B = f.blocks B ++ [zeroPage B.bytes] := by
  simp [blocks, append, FileEffect.apply]

@[simp] theorem length_append (B : BlockSize) (f : File) :
    f.append.length B = f.length B + 1 := by
  simp [length, blocks_append]

theorem blocks_write (B : BlockSize) (f : File) (blk : ℕ) (p : Page)
    (h : blk < f.length B) : (f.write blk p).blocks B = (f.blocks B).set blk p := by
  unfold length blocks at *
  simp [write, FileEffect.apply, h]

theorem length_write (B : BlockSize) (f : File) (blk : ℕ) (p : Page)
    (h : blk < f.length B) : (f.write blk p).length B = f.length B := by
  unfold length
  rw [blocks_write B f blk p h, List.length_set]

theorem read_append (B : BlockSize) (f : File) (blk : ℕ) (h : blk < f.length B) :
    f.append.read B blk = f.read B blk := by
  unfold length at h
  unfold read
  rw [if_pos (by omega), if_pos (by omega), Int.toNat_natCast, blocks_append,
    List.getElem?_append_left h]

theorem read_append_self (B : BlockSize) (f : File) :
    f.append.read B (f.length B) = zeroPage B.bytes := by
  unfold read length
  rw [if_pos (by omega), Int.toNat_natCast, blocks_append, List.getElem?_concat_length]
  rfl

theorem read_write_self (B : BlockSize) (f : File) (blk : ℕ) (p : Page)
    (h : blk < f.length B) : (f.write blk p).read B blk = p := by
  have hlen := h
  unfold length at hlen
  unfold read
  rw [if_pos (by omega), Int.toNat_natCast, blocks_write B f blk p h,
    List.getElem?_set_self hlen, Option.getD_some]

theorem read_write_ne (B : BlockSize) (f : File) (blk other : ℕ) (p : Page)
    (h : blk < f.length B) (hne : other ≠ blk) :
    (f.write blk p).read B other = f.read B other := by
  unfold read
  rw [if_pos (by omega), if_pos (by omega), Int.toNat_natCast, blocks_write B f blk p h,
    List.getElem?_set_ne (by omega)]

end File

end SampleDB.Blocks
