import Lox.History

/-! The files that a program can see, and where the histories are kept. -/
namespace Lox

abbrev Path := List Text

namespace Path

def slash : UInt8 := '/'.toUInt8

def parts : Text → List Text
  | [] => [[]]
  | b :: bs =>
    if b = slash then [] :: parts bs
    else match parts bs with
      | [] => [[b]]
      | p :: ps => (b :: p) :: ps

def step (path : Path) (part : Text) : Path :=
  if part = [] || part = Text.ofString "." then path
  else if part = Text.ofString ".." then path.dropLast
  else path ++ [part]

def ofText (cwd : Path) (t : Text) : Path :=
  (parts t).foldl step (if t.head? = some slash then [] else cwd)

def toText (path : Path) : Text := "/" ++ Text.join "/" path

end Path

inductive Entry where
  | file (content : Text)
  | history (h : History)

structure Directory where
  cwd : Path
  entries : List (Path × Entry)
  /-- Directories that are there even if no file is in them. -/
  folders : List Path := []

inductive FileError where
  | missing
  | isDirectory
  | notDirectory
deriving DecidableEq

def FileError.message : FileError → String
  | missing => "no such file or directory"
  | isDirectory => "is a directory"
  | notDirectory => "not a directory"

namespace Directory

def isDirectory (d : Directory) (path : Path) : Bool :=
  -- it leads to the working directory, to another directory or to a file
  path.isPrefixOf d.cwd || d.folders.any path.isPrefixOf ||
    d.entries.any fun e => path.isPrefixOf e.1 && path.length < e.1.length

def isBlocked (d : Directory) (path : Path) : Bool :=
  d.entries.any fun e => e.1.isPrefixOf path && e.1.length < path.length

def wantsDirectory (name : Text) : Bool := name.getLast? = some Path.slash

def find (d : Directory) (name : Text) : Except FileError Entry :=
  let path := Path.ofText d.cwd name
  if d.isDirectory path then .error .isDirectory
  else if d.isBlocked path then .error .notDirectory
  else match d.entries.lookup path with
    | some entry => if wantsDirectory name then .error .notDirectory else .ok entry
    | none => .error .missing

def putHistory (d : Directory) (name : Text) (h : History) : Directory :=
  let path := Path.ofText d.cwd name
  { d with entries := (path, .history h) :: d.entries.filter fun e => e.1 ≠ path }

inductive HistoryError where
  | file (e : FileError)
  | notHistory

/-- Opens a history; a file that does not exist or is empty becomes an empty one. -/
def openHistory (d : Directory) (name : Text) : Except HistoryError History :=
  match d.find name with
  | .ok (.history h) => .ok h
  | .ok (.file []) => .ok Bucket.empty
  | .ok (.file _) => .error .notHistory
  | .error .missing =>
    if !d.isDirectory (Path.ofText d.cwd name).dropLast then .error (.file .missing)
    else if wantsDirectory name then .error (.file .isDirectory)
    else .ok Bucket.empty
  | .error e => .error (.file e)

def HistoryError.message (name : Text) : HistoryError → Text
  | file e => "open " ++ name ++ ": " ++ e.message
  | notHistory => "invalid database"

end Directory
end Lox
