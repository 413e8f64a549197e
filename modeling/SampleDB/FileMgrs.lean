import SampleDB.Pages
import SampleDB.SparseLists
import Mathlib.Logic.Function.Basic

/-!
FileMgr over the bytes of its files. Every file has one stream, which stays open. Offsets
and file lengths are reduced to 32 bits. A seek to a negative offset fails, and a stream that
has failed neither reads nor writes until it is cleared, which only a short read does. A
name stands for a file of its own, and the device has no errors.
-/
namespace SampleDB.FileMgrs

open Slices Words Pages SparseLists

/-- A block size is a positive `int`. -/
structure BlockBytes where
  bytes : ℕ
  pos : 0 < bytes
  lt_int : bytes < 2147483648

/-- A page for one block. -/
abbrev Block (B : BlockBytes) := {p : Page // p.length = B.bytes}

def zeroBlock (B : BlockBytes) : Block B := ⟨zeroPage B.bytes, zeroPage_length B.bytes⟩

/-- `std::fstream`. -/
structure Stream where
  position : ℕ
  failbit : Bool
  deriving DecidableEq

namespace Stream

def new : Stream := ⟨0, false⟩

def seekp (s : Stream) (offset : ℤ) : Stream :=
  if s.failbit then s
  else if offset < 0 then { s with failbit := true }
  else { s with position := offset.toNat }

/-- A write behind the end of the file leaves a gap of zeros. -/
def write (s : Stream) (file : Bytes) (b : Bytes) : Stream × Bytes :=
  if s.failbit then (s, file)
  else ({ s with position := s.position + b.length }, writeAt 0 file s.position b)

/-- The bytes that were read; a short read fails. -/
def read (s : Stream) (file : Bytes) (n : ℕ) : Stream × Bytes :=
  if s.failbit then (s, [])
  else (⟨s.position + (slice file s.position n).length,
    decide ((slice file s.position n).length < n)⟩, slice file s.position n)

def clear (s : Stream) : Stream := { s with failbit := false }

end Stream

/-- The files of the directory and the streams that are open. -/
structure FileMgr (Name : Type) where
  files : Name → Option Bytes
  openFiles : Name → Option Stream

namespace FileMgr

variable {Name : Type} [DecidableEq Name] (B : BlockBytes)

def new (files : Name → Option Bytes) : FileMgr Name := ⟨files, fun _ => none⟩

def content (m : FileMgr Name) (fileName : Name) : Bytes := (m.files fileName).getD []

def put (m : FileMgr Name) (fileName : Name) (s : Stream) (content : Bytes) : FileMgr Name :=
  ⟨Function.update m.files fileName (some content),
    Function.update m.openFiles fileName (some s)⟩

/-- A file that does not exist is created. -/
def getFile (m : FileMgr Name) (fileName : Name) : Stream × FileMgr Name :=
  match m.openFiles fileName with
  | some s => (s, m)
  | none => (Stream.new, m.put fileName Stream.new (m.content fileName))

/-- `file_size` throws for a file that does not exist. -/
def length (m : FileMgr Name) (fileName : Name) : Int32 :=
  match m.files fileName with
  | some content => Int32.ofInt ((toInt content.length).tdiv B.bytes)
  | none => 0

def write (m : FileMgr Name) (fileName : Name) (number : Int32) (p : Block B) : FileMgr Name :=
  let (s, m) := m.getFile fileName
  let (s, content) := (s.seekp (toInt (number.toInt * B.bytes))).write (m.content fileName) p.1
  m.put fileName s content

def append (m : FileMgr Name) (fileName : Name) : Int32 × FileMgr Name :=
  let (s, m) := m.getFile fileName
  let newBlkNum := m.length B fileName
  let (s, content) := (s.seekp (toInt (newBlkNum.toInt * B.bytes))).write (m.content fileName)
    (zeroBlock B).1
  (newBlkNum, m.put fileName s content)

/-- What a read leaves in a page. After a short read as many bytes as are missing are set to
zero, from the first one on. -/
def fill (p : Page) (got : Bytes) : Page :=
  let p := splice p 0 got
  if got.length < B.bytes then splice p 0 (zeroPage (B.bytes - got.length)) else p

def read (m : FileMgr Name) (fileName : Name) (number : Int32) (p : Block B) :
    Page × FileMgr Name :=
  let (s, m) := m.getFile fileName
  let (s, got) := (s.seekp (toInt (number.toInt * B.bytes))).read (m.content fileName) B.bytes
  (fill B p.1 got,
    m.put fileName (if got.length < B.bytes then s.clear else s) (m.content fileName))

end FileMgr

inductive Op (Name : Type) (B : BlockBytes)
  | append (fileName : Name)
  | write (fileName : Name) (number : Int32) (p : Block B)
  | read (fileName : Name) (number : Int32) (p : Block B)

/-- What a call gives back: the number of the new block, or what is in the page then. -/
inductive Outcome
  | appended (number : Int32)
  | written
  | page (p : Page)
  deriving DecidableEq

def FileMgr.step {Name : Type} [DecidableEq Name] {B : BlockBytes} (m : FileMgr Name) :
    Op Name B → Outcome × FileMgr Name
  | .append f => (.appended (m.append B f).1, (m.append B f).2)
  | .write f n p => (.written, m.write B f n p)
  | .read f n p => (.page (m.read B f n p).1, (m.read B f n p).2)

end SampleDB.FileMgrs
