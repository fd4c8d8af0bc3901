/-
Recurrence/Journal/File.lean

Where the file of a journal lies.

A journal writes into an empty directory of its own.  The directory of the file
is made with all that lead to it; the file itself only fits into a directory
that is there.  Paths are followed by their names alone: an empty name and a
single dot stay, two dots go up.
-/
import Recurrence.Text.Blank

namespace Recurrence

open Text (Chars)

/-- Why a file cannot be written. -/
inductive FileError where
  /-- A directory on its way is missing. -/
  | missingDirectory
  /-- There is a directory in its place. -/
  | isDirectory
  /-- A name holds the character zero. -/
  | badName
  /-- A name is too long. -/
  | longName
deriving DecidableEq

/-- A place below the root or near the directory of the journal. -/
structure FilePath where
  /-- Whether it lies below the root. -/
  absolute : Bool
  /-- How far it lies above the directory of the journal. -/
  up : Nat
  /-- The names on the way, the last one first. -/
  names : List Chars
deriving DecidableEq

namespace FilePath

/-- The directory of the journal. -/
def home : FilePath := ⟨false, 0, []⟩

/-- Follow one name of a path. -/
def follow (p : FilePath) (name : Chars) : FilePath :=
  if name = [] ∨ name = ['.'] then p
  else if name = ['.', '.'] then
    match p.names with
    | _ :: names => { p with names }
    | [] => if p.absolute then p else { p with up := p.up + 1 }
  else { p with names := name :: p.names }

/-- Where a path starts that is followed from a place. -/
def start (p : FilePath) (path : Chars) : FilePath :=
  if path.head? = some '/' then ⟨true, 0, []⟩ else p

/-- The places on the way along names, the last one included. -/
def visited (p : FilePath) : List Chars → List FilePath
  | [] => [p]
  | name :: names => p :: visited (p.follow name) names

/-- The place that a path leads to. -/
def resolve (p : FilePath) (path : Chars) : FilePath :=
  (Text.pieces '/' path).foldl follow (p.start path)

/-- The most bytes of a name. -/
def maxNameBytes : Nat := 255

/-- Whether a name is too long. -/
def isLong (name : Chars) : Bool := decide (maxNameBytes < (String.ofList name).utf8ByteSize)

/-- Check that there are directories along names, the last one first. -/
def checkWay (p : FilePath) (directories : List FilePath) : List Chars → Except FileError Unit
  | [] => .ok ()
  | name :: names => do
    checkWay p directories names
    if isLong name then throw .longName
    unless directories.contains { p with names := name :: names } do throw .missingDirectory

/-- Check that a file can be written at a place. -/
def checkFile (p : FilePath) (directories : List FilePath) : Except FileError Unit :=
  match p.names with
  | [] => .error .isDirectory
  | name :: names => do
    checkWay p directories names
    if isLong name then throw .longName
    if directories.contains p then throw .isDirectory

end FilePath

/-- Check that a journal can be written to a file in a directory; without one the
file lies in the directory of the journal. -/
def checkJournalFile (directory : Option String) (file : String) : Except FileError Unit := do
  let path := (directory.getD "").toList
  let names := Text.pieces '/' path
  if '\x00' ∈ path then throw .badName
  if names.any FilePath.isLong then throw .longName
  let directories := (FilePath.home.start path).visited names
  if '\x00' ∈ file.toList then throw .badName
  ((FilePath.home.resolve path).resolve file.toList).checkFile directories

example : (checkJournalFile (some "logs/today") "../all.log").toOption.isSome := by decide +kernel
example : (checkJournalFile none "logs/all.log").toOption.isNone := by decide +kernel

end Recurrence
