/-!
Files by name. What reads and writes files is given as a `FileSystem`, so the
same programs run on real files and on a `Directory` held in memory.
-/

namespace StagedCompiler

inductive FileFault where
  | notFound
  | notADirectory
  | isADirectory
  | nameTooLong
  /-- A name holds the character that ends names for the system. -/
  | nulInName
  | notText
  /-- Any other reason, in the words of the system. -/
  | other (reason : String)
deriving DecidableEq

def FileFault.message : FileFault → String
  | notFound => "No such file or directory (os error 2)"
  | notADirectory => "Not a directory (os error 20)"
  | isADirectory => "Is a directory (os error 21)"
  | nameTooLong => "File name too long (os error 36)"
  | nulInName => "file name contained an unexpected NUL byte"
  | notText => "stream did not contain valid UTF-8"
  | other reason => reason

class FileSystem (m : Type → Type) where
  read : String → m (Except FileFault ByteArray)
  write : String → ByteArray → m (Except FileFault Unit)

def readText {m : Type → Type} [Monad m] [FileSystem m] (path : String) :
    m (Except FileFault String) := do
  match ← FileSystem.read path with
  | .ok bytes =>
    match String.fromUTF8? bytes with
    | some text => return .ok text
    | none => return .error .notText
  | .error fault => return .error fault

namespace Path

def steps (path : String) : List String :=
  ((path.split (· == '/')).toStringList).filter (· != "")

def splitLast (mark : Char) (text : String) : Option (String × String) :=
  let cs := text.toList.reverse
  let tail := cs.takeWhile (· != mark)
  if tail.length = cs.length then none
  else some (String.ofList (cs.drop (tail.length + 1)).reverse, String.ofList tail.reverse)

/-- A file name with its extension replaced. The extension starts at the last
dot, and a name that only starts with a dot has none. If nothing but two dots
is left without the extension, these name the folder above and take none. -/
def nameWithExtension (name extension : String) : String :=
  match splitLast '.' name with
  | some (stem, _) =>
    if stem = "" then name ++ "." ++ extension
    else if stem = "." then ".."
    else stem ++ "." ++ extension
  | none => name ++ "." ++ extension

def withExtension (path extension : String) : String :=
  match splitLast '/' path with
  | some (folder, name) => folder ++ "/" ++ nameWithExtension name extension
  | none => nameWithExtension path extension

end Path

inductive Entry where
  | file (content : ByteArray)
  | folder

structure Directory where
  entries : List (List String × Entry) := []

/-- Where a path leads: to a place below the directory, or to a folder outside
of it, of which nothing is known. -/
inductive Location where
  | inside (place : List String)
  | outside

def Location.up : Location → Location
  | inside [] | outside => outside
  | inside place => inside place.dropLast

namespace Directory

def maxNameBytes : Nat := 255

def maxPathBytes : Nat := 4095

/-- The entry at a place; the directory itself is a folder, and so is what a
deeper entry stands in. -/
def find? (d : Directory) (place : List String) : Option Entry :=
  if place.isEmpty then some .folder
  else
    match d.entries.lookup place with
    | some entry => some entry
    | none =>
      if d.entries.any fun (other, _) => place.isPrefixOf other then some .folder else none

def put (d : Directory) (place : List String) (entry : Entry) : Directory :=
  if d.entries.any fun (other, _) => other == place then
    ⟨d.entries.map fun (other, old) => if other == place then (other, entry) else (other, old)⟩
  else ⟨d.entries ++ [(place, entry)]⟩

def enter (l : Location) (name : String) : Except FileFault Location :=
  if name = "." then .ok l
  else if name = ".." then .ok l.up
  else if maxNameBytes < name.utf8ByteSize then .error .nameTooLong
  else
    match l with
    | .inside place => .ok (.inside (place ++ [name]))
    | .outside => .error .notFound

/-- What stands at a location; outside there are only folders. -/
def entry? (d : Directory) : Location → Option Entry
  | .inside place => d.find? place
  | .outside => some .folder

def folder (d : Directory) (l : Location) : Except FileFault Location :=
  match d.entry? l with
  | some .folder => .ok l
  | some (.file _) => .error .notADirectory
  | none => .error .notFound

def walk (d : Directory) (l : Location) : List String → Except FileFault Location
  | [] => d.folder l
  | name :: names => do d.walk (← enter (← d.folder l) name) names

def locate (d : Directory) (path : String) : Except FileFault (Location × String) := do
  if path.contains '\x00' then throw .nulInName
  if path = "" then throw .notFound
  if maxPathBytes < path.utf8ByteSize then throw .nameTooLong
  let names := Path.steps path
  let start : Location := if path.startsWith "/" then .outside else .inside []
  return (← d.walk start names.dropLast, names.getLast?.getD ".")

/-- The content of a file. A path that ends in a slash leads to no file. -/
def read (d : Directory) (path : String) : Except FileFault ByteArray := do
  let (folder, name) ← d.locate path
  match d.entry? (← enter folder name) with
  | some (.file content) =>
    if path.endsWith "/" then .error .notADirectory else .ok content
  | some .folder => .error .isADirectory
  | none => .error .notFound

/-- The directory with a file written. A path that ends in a slash is refused
whatever it leads to. -/
def write (d : Directory) (path : String) (content : ByteArray) : Except FileFault Directory := do
  let (folder, name) ← d.locate path
  if path.endsWith "/" then throw .isADirectory
  match ← enter folder name with
  | .outside => .error .isADirectory
  | .inside place =>
    match d.find? place with
    | some .folder => .error .isADirectory
    | _ => .ok (d.put place (.file content))

end Directory

instance : FileSystem (StateM Directory) where
  read path := fun d => (d.read path, d)
  write path content := fun d =>
    match d.write path content with
    | .ok d => (.ok (), d)
    | .error fault => (.error fault, d)

end StagedCompiler
