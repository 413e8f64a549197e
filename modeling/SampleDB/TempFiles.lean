import SampleDB.Directory
import SampleDB.Runs
import SampleDB.SqlParser

/-!
Temporary tables and the clean-up, next to the files of the user. Statements create
tables and indexes and work on files; a temporary table takes the next number of its
process. A database that is opened again starts with the clean-up, in the same process or
in a new one. A table or an index is left alone just where its name does not begin with
`temp`.
-/
namespace SampleDB.TempFiles

open Blocks Lexer Statements SqlParser Directory Runs

variable (overflow : ℕ → Option Int32)

/-- The files that statements work on. -/
inductive Target
  | part (o : Object) (i : Fin o.files.length)
  | log

def Target.fileName : Target → FileName
  | .part o i => o.files.get i
  | .log => logFile

inductive Action
  /-- A CREATE statement. -/
  | create (text : Text)
  /-- A statement or a query, on a file of its own. -/
  | access (t : Target) (op : FileOp)
  /-- The constructor of TempTable. -/
  | newTemp
  /-- A scan of a temporary table. -/
  | temp (n : ℕ) (op : FileOp)
  /-- The database is closed and opened. -/
  | reopen (newProcess : Bool)

structure State where
  directory : Directory
  objects : List Object
  nextTableNum : ℕ

/-- A new database, in a process that has had temporary tables before. -/
def State.new (nextTableNum : ℕ) : State := ⟨fun _ => none, [], nextTableNum⟩

def step (s : State) : Action → Option State
  | .create text =>
      match parse (updateCmd overflow) text with
      | .ok cmd => (creates cmd).map (fun o => { s with objects := o :: s.objects })
      | .error _ => none
  | .access t op => some { s with directory := access s.directory t.fileName op }
  | .newTemp => some { s with nextTableNum := s.nextTableNum + 1 }
  | .temp n op =>
      if 0 < n ∧ n ≤ s.nextTableNum then
        some { s with directory := access s.directory (tableFile (tempName n)) op }
      else none
  | .reopen newProcess =>
      some { s with
        directory := start s.directory
        nextTableNum := if newProcess then 0 else s.nextTableNum }

def Step (s : State) (a : Action) (s' : State) : Prop := step overflow s a = some s'

/-- The clean-up removes the file, or a temporary table opens or writes it. -/
def Touches (s : State) (fileName : FileName) : Action → Prop
  | .temp n _ => fileName = tableFile (tempName n)
  | .reopen _ => isTemp fileName = true ∧ s.directory fileName ≠ none
  | _ => False

/-- What the statements alone make of a file. -/
def replay (fileName : FileName) (file : Option File) : List Action → Option File
  | [] => file
  | .access t op :: actions =>
      replay fileName (if fileName = t.fileName then some (op.apply file) else file) actions
  | _ :: actions => replay fileName file actions

/-- A created table or index is never touched, and its files have what statements wrote. -/
structure Undisturbed (o : Object) : Prop where
  apart : ∀ n actions s a s', Run (Step overflow) (State.new n) actions s → o ∈ s.objects →
    Step overflow s a s' → ∀ fileName ∈ o.files, ¬ Touches s fileName a
  kept : ∀ n actions s, Run (Step overflow) (State.new n) actions s → o ∈ s.objects →
    ∀ fileName ∈ o.files, s.directory fileName = replay fileName none actions

/-- A CREATE statement accepts the name. -/
def Creatable (o : Object) : Prop :=
  ∃ text cmd, parse (updateCmd overflow) text = .ok cmd ∧ creates cmd = some o

section Steps

variable {s s' : State} {a : Action} {fileName : FileName} {o : Object}

theorem not_touches (h : isTemp fileName = false) : ¬ Touches s fileName a := by
  cases a with
  | temp n op =>
    rintro rfl
    rw [isTemp_tempFile] at h
    cases h
  | reopen newProcess =>
    rintro ⟨htemp, -⟩
    rw [h] at htemp
    cases htemp
  | _ => exact id

/-- A step that is no statement leaves the file as it is. -/
theorem step_directory (h : isTemp fileName = false) (hstep : Step overflow s a s') :
    s'.directory fileName = replay fileName (s.directory fileName) [a] := by
  unfold Step at hstep
  cases a with
  | create text =>
    rw [step] at hstep
    split at hstep
    · obtain ⟨o, -, rfl⟩ := Option.map_eq_some_iff.mp hstep
      rfl
    · cases hstep
  | access t op =>
    cases hstep
    unfold replay
    by_cases heq : fileName = t.fileName
    · rw [if_pos heq, heq]
      exact access_self ..
    · rw [if_neg heq]
      exact access_ne heq
  | newTemp =>
    cases hstep
    rfl
  | temp n op =>
    rw [step] at hstep
    split at hstep
    · cases hstep
      refine access_ne ?_
      rintro rfl
      rw [isTemp_tempFile] at h
      cases h
    · cases hstep
  | reopen newProcess =>
    cases hstep
    show start s.directory fileName = s.directory fileName
    unfold start
    rw [h]
    rfl

theorem replay_cons (file : Option File) (actions : List Action) :
    replay fileName file (a :: actions) = replay fileName (replay fileName file [a]) actions := by
  cases a <;> rfl

/-- The same of a run. -/
theorem run_directory (h : isTemp fileName = false) {actions : List Action}
    (hrun : Run (Step overflow) s actions s') :
    s'.directory fileName = replay fileName (s.directory fileName) actions := by
  induction hrun with
  | nil s => rfl
  | cons hstep _ ih => rw [ih, step_directory overflow h hstep, ← replay_cons]

end Steps

/-- Which tables and indexes the temporary files and the clean-up leave alone. -/
theorem undisturbed_iff {o : Object} (hcreate : Creatable overflow o) :
    Undisturbed overflow o ↔ ¬ "temp".toList <+: o.name := by
  constructor
  · intro h hpre
    obtain ⟨text, cmd, hparse, ho⟩ := hcreate
    obtain ⟨fileName, hmem⟩ : ∃ fileName, fileName ∈ o.files := by
      cases o with
      | table tblname => exact ⟨_, List.mem_singleton_self _⟩
      | index indexName => exact ⟨_, List.mem_cons_self⟩
    obtain ⟨i, hi⟩ := List.get_of_mem hmem
    -- the object is created, its file is written, and the database is opened again
    have hstep : Step overflow (State.new 0) (.create text) ⟨fun _ => none, [o], 0⟩ := by
      unfold Step
      rw [step, hparse]
      show (creates cmd).map _ = _
      rw [ho]
      rfl
    have hrun : Run (Step overflow) (State.new 0) [.create text, .access (.part o i) .append]
        ⟨access (fun _ => none) (o.files.get i) .append, [o], 0⟩ :=
      .cons hstep (.cons rfl (.nil _))
    refine h.apart 0 _ _ (.reopen true) _ hrun List.mem_cons_self rfl fileName hmem
      ⟨(isTemp_file hmem).mpr hpre, ?_⟩
    show access (fun _ => none) (o.files.get i) .append fileName ≠ none
    rw [hi, access_self]
    exact Option.some_ne_none _
  · intro hpre
    have hfile : ∀ fileName ∈ o.files, isTemp fileName = false :=
      fun fileName hmem => Bool.eq_false_iff.mpr (fun h => hpre ((isTemp_file hmem).mp h))
    exact ⟨fun _ _ _ _ _ _ _ _ fileName hmem => not_touches (hfile fileName hmem),
      fun _ _ _ hrun _ fileName hmem => run_directory overflow (hfile fileName hmem) hrun⟩

/-- An index of two files that are left alone. -/
theorem undisturbed_iff_index : Undisturbed (fun _ => none) (.index "tem".toList) :=
  (undisturbed_iff (fun _ => none)
    ⟨"create index tem on t ( a )".toList, .createIndex ⟨"tem".toList, "t".toList, "a".toList⟩,
      rfl, rfl⟩).mpr (by decide)

/-- A table of temperatures is removed when the database is opened again. -/
theorem not_undisturbed_temperature : ¬ ∀ o : Object, Creatable (fun _ => none) o →
    Undisturbed (fun _ => none) o := by
  intro h
  have hcreate : Creatable (fun _ => none) (.table "temperature".toList) :=
    ⟨"CREATE TABLE temperature ( deg int )".toList, _, rfl, rfl⟩
  have hrun : Run (Step (fun _ => none)) (State.new 0)
      [.create "CREATE TABLE temperature ( deg int )".toList,
        .access (.part (.table "temperature".toList) ⟨0, by decide⟩) .append] _ :=
    .cons rfl (.cons rfl (.nil _))
  refine (h _ hcreate).apart 0 _ _ (.reopen true) _ hrun List.mem_cons_self rfl
    (tableFile "temperature".toList) (List.mem_singleton_self _) ⟨by decide, ?_⟩
  show access _ (tableFile "temperature".toList) _ (tableFile "temperature".toList) ≠ none
  rw [access_self]
  exact Option.some_ne_none _

end SampleDB.TempFiles
