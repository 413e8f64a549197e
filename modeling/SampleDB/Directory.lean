import Mathlib.Logic.Function.Basic
import SampleDB.Blocks
import SampleDB.Statements

/-!
The database directory as FileMgr keeps it, and the names of the files in it: a table, the
two parts of an index, a temporary table and the log. A file manager that is constructed
removes the files whose name begins with `temp`.
-/
namespace SampleDB.Directory

open Pages Blocks Lexer Statements

abbrev FileName := Text

abbrev Directory := FileName → Option File

/-- What FileMgr does with a file; each of them opens it first. -/
inductive FileOp
  | read
  | append
  | write (blk : ℕ) (p : Page)

/-- A file that is not there is created. -/
def getFile (file : Option File) : File := file.getD []

def FileOp.apply (file : Option File) : FileOp → File
  | .read => getFile file
  | .append => (getFile file).append
  | .write blk p => (getFile file).write blk p

def access (d : Directory) (fileName : FileName) (op : FileOp) : Directory :=
  Function.update d fileName (some (op.apply (d fileName)))

/-- `find("temp") == 0`. -/
def isTemp (fileName : FileName) : Bool := "temp".toList.isPrefixOf fileName

/-- The constructor of FileMgr. -/
def start (d : Directory) : Directory :=
  fun fileName => if isTemp fileName then none else d fileName

/-- TableScan. -/
def tableFile (tblname : Name) : FileName := tblname ++ ".tbl".toList

/-- BTreeIndex. -/
def leafTable (indexName : Name) : FileName := indexName ++ "leaf".toList

def dirTable (indexName : Name) : FileName := indexName ++ "dir".toList

/-- `nextTableName`, by the number that the counter has reached. -/
def tempName (n : ℕ) : Name := "temp".toList ++ (ToString.toString n).toList

def logFile : FileName := "sampledb.log".toList

/-- What a CREATE statement makes files for. -/
inductive Object
  | table (tblname : Name)
  | index (indexName : Name)
  deriving DecidableEq

def Object.name : Object → Name
  | .table tblname => tblname
  | .index indexName => indexName

def Object.files : Object → List FileName
  | .table tblname => [tableFile tblname]
  | .index indexName => [leafTable indexName, dirTable indexName]

def creates : Command → Option Object
  | .createTable data => some (.table data.tableName)
  | .createIndex data => some (.index data.indexName)
  | _ => none

theorem access_self (d : Directory) (fileName : FileName) (op : FileOp) :
    access d fileName op fileName = some (op.apply (d fileName)) := Function.update_self ..

theorem access_ne {d : Directory} {fileName fileName' : FileName} {op : FileOp}
    (h : fileName' ≠ fileName) : access d fileName op fileName' = d fileName' :=
  Function.update_of_ne h _ _

theorem isTemp_iff {fileName : FileName} : isTemp fileName = true ↔ "temp".toList <+: fileName := by
  unfold isTemp
  exact List.isPrefixOf_iff_prefix

theorem isTemp_tempFile (n : ℕ) : isTemp (tableFile (tempName n)) = true := by
  rw [isTemp_iff]
  unfold tableFile tempName
  rw [List.append_assoc]
  exact List.prefix_append _ _

/-- What is put behind a name does not complete the prefix. -/
theorem prefix_append_iff {pre name suffix : Text}
    (h : ∀ c, suffix.head? = some c → c ∉ pre) (hne : suffix ≠ []) :
    pre <+: name ++ suffix ↔ pre <+: name := by
  constructor
  · intro hpre
    rcases Nat.lt_or_ge name.length pre.length with hlt | hge
    · obtain ⟨c, suffix, rfl⟩ := List.exists_cons_of_ne_nil hne
      have hmem : pre[name.length]? = some c := by
        obtain ⟨rest, heq⟩ := hpre
        have hget : (pre ++ rest)[name.length]? = some c := by
          rw [heq, List.getElem?_append_right (Nat.le_refl _), Nat.sub_self]
          rfl
        rwa [List.getElem?_append_left hlt] at hget
      exact absurd (List.mem_of_getElem? hmem) (h c rfl)
    · exact List.prefix_of_prefix_length_le hpre (List.prefix_append name suffix) hge
  · exact fun hpre => hpre.trans (List.prefix_append name suffix)

/-- Only the name decides whether a file is removed. -/
theorem isTemp_file {o : Object} {fileName : FileName} (h : fileName ∈ o.files) :
    isTemp fileName = true ↔ "temp".toList <+: o.name := by
  rw [isTemp_iff]
  cases o with
  | table tblname =>
    rw [List.mem_singleton.mp h]
    refine prefix_append_iff ?_ (by decide)
    intro c hc
    cases hc
    decide
  | index indexName =>
    rcases List.mem_cons.mp h with rfl | h
    · refine prefix_append_iff ?_ (by decide)
      intro c hc
      cases hc
      decide
    · rw [List.mem_singleton.mp h]
      refine prefix_append_iff ?_ (by decide)
      intro c hc
      cases hc
      decide

end SampleDB.Directory
