import CosignedLedger.Store.Path
import CosignedLedger.Store.RecordLog

/-!
# Folders and files

Folders and files by location, below one root. A path is followed part by part through the folders
that are there, so `..` leads back only out of a folder that exists.
-/

namespace CosignedLedger

abbrev Location := List String

inductive DiskEntry where
  | folder
  | file (contents : Bytes)
deriving DecidableEq

structure Disk where
  entries : List (Location × DiskEntry)
  /-- The size above which no write takes a file. -/
  limit : Option Nat
deriving DecidableEq

namespace Disk

def empty : Disk := ⟨[], none⟩

instance : Inhabited Disk := ⟨empty⟩

def entry? (d : Disk) (location : Location) : Option DiskEntry :=
  if location = [] then some .folder else d.entries.lookup location

def replaceEntry (location : Location) (entry : DiskEntry) :
    List (Location × DiskEntry) → List (Location × DiskEntry)
  | [] => [(location, entry)]
  | e :: es =>
    if e.1 = location then (location, entry) :: es else e :: replaceEntry location entry es

def setEntry (d : Disk) (location : Location) (entry : DiskEntry) : Disk :=
  { d with entries := replaceEntry location entry d.entries }

def setContents (d : Disk) (location : Location) (bytes : Bytes) : Disk :=
  d.setEntry location (.file bytes)

/-! ### Following paths -/

def look (d : Disk) (folder : Location) (name : String) :
    Except FileFault (Option DiskEntry) :=
  if Path.nameLimit < name.utf8ByteSize then .error .nameTooLong
  else .ok (d.entry? (folder ++ [name]))

def enter (d : Disk) (folder : Location) (part : String) : Except FileFault Location :=
  if part = "." then .ok folder
  else if part = ".." then .ok folder.dropLast
  else match d.look folder part with
    | .error fault => .error fault
    | .ok none => .error .notFound
    | .ok (some (.file _)) => .error .notFolder
    | .ok (some .folder) => .ok (folder ++ [part])

def walk (d : Disk) (folder : Location) : List String → Except FileFault Location
  | [] => .ok folder
  | part :: parts =>
    match d.enter folder part with
    | .error fault => .error fault
    | .ok folder => d.walk folder parts

/-- The folder in which the last part of a path is looked up, and that part if it is a name. A
path without one leads to a folder. -/
def approach (d : Disk) (parts : List String) : Except FileFault (Location × Option String) :=
  match d.walk [] parts.dropLast with
  | .error fault => .error fault
  | .ok folder => .ok (folder, parts.getLast?.filter fun part => part ≠ "." ∧ part ≠ "..")

/-- Where a file with the given path is, or would be made, and what is there. -/
def locate (d : Disk) (text : String) : Except FileFault (Location × Option DiskEntry) :=
  match Path.check text with
  | .error fault => .error fault
  | .ok () =>
    match d.approach (Path.parts text) with
    | .error fault => .error fault
    | .ok (_, none) => .error .isFolder
    | .ok (folder, some name) =>
      if Path.endsInSlash text then .error .isFolder
      else match d.look folder name with
        | .error fault => .error fault
        | .ok entry => .ok (folder ++ [name], entry)

def file? (d : Disk) (text : String) : Option (Location × Bytes) :=
  match d.locate text with
  | .ok (location, some (.file bytes)) => some (location, bytes)
  | _ => none

def contents (d : Disk) (text : String) : Bytes := ((d.file? text).map (·.2)).getD []

/-! ### Making folders and files -/

/-- Makes a folder unless there is one; the folder that it stands in must be there. -/
def makeFolder (d : Disk) (parts : List String) : Except FileFault Unit × Disk :=
  match d.walk [] parts, d.approach parts with
  | .ok _, _ => (.ok (), d)
  | .error _, .error fault => (.error fault, d)
  | .error fault, .ok (_, none) => (.error fault, d)
  | .error _, .ok (folder, some name) =>
    match d.look folder name with
    | .error fault => (.error fault, d)
    | .ok (some _) => (.error .fileExists, d)
    | .ok none => (.ok (), d.setEntry (folder ++ [name]) .folder)

/-- Makes the folder to which the first parts of a path lead, `count` of them. If the folder that
it stands in is missing, that one is made first, in the same way. -/
def makeFolders (parts : List String) : (count : Nat) → Disk → Except FileFault Unit × Disk
  | 0, d => (.ok (), d)
  | count + 1, d =>
    match d.makeFolder (parts.take (count + 1)) with
    | (.error .notFound, d) =>
      match makeFolders parts count d with
      | (.error fault, d) => (.error fault, d)
      | (.ok (), d) => d.makeFolder (parts.take (count + 1))
    | done => done

def makeFolderOf (d : Disk) (text : String) : Except FileFault Unit × Disk :=
  let folder := Path.folder text
  if folder = "" then (.ok (), d)
  else match Path.check folder with
    | .error fault => (.error fault, d)
    | .ok () =>
      let parts := (Path.parts folder).filter (· ≠ ".")
      makeFolders parts parts.length d

def makeFile (d : Disk) (text : String) : Except FileFault Location × Disk :=
  match d.locate text with
  | .error fault => (.error fault, d)
  | .ok (_, some .folder) => (.error .isFolder, d)
  | .ok (location, some (.file _)) => (.ok location, d)
  | .ok (location, none) => (.ok location, d.setContents location [])

/-- Makes a file ready for use, with the folder in which it stands. -/
def openFile (d : Disk) (text : String) : Except FileFault Location × Disk :=
  match d.makeFolderOf text with
  | (.error fault, d) => (.error fault, d)
  | (.ok (), d) => d.makeFile text

def write (d : Disk) (text : String) (bytes : Bytes) : Except FileFault Unit × Disk :=
  match d.openFile text with
  | (.error fault, d) => (.error fault, d)
  | (.ok location, d) => (.ok (), d.setContents location bytes)

end Disk

namespace BlockLog

/-- Acts on the contents of a file, which must be there. -/
def inFile {α : Type} (text : String) (action : Bytes → Except StoreError α × Bytes) (d : Disk) :
    Except StoreError α × Disk :=
  match d.file? text with
  | none => (.error (.log (.file text .notFound)), d)
  | some (location, contents) =>
    let (result, contents) := action contents
    (result, d.setContents location contents)

def onDisk (text : String) : BlockLog Disk where
  load := inFile text (loadRecords text)
  append b d := inFile text (appendRecord text (.upTo d.limit) b) d

end BlockLog

inductive Storage where
  | memory (blocks : List Block)
  | failing (room : Nat)
  | file (path : String)

namespace Storage

def fileIn (folder : String) : Storage :=
  .file (if folder = "" || Path.endsInSlash folder then folder ++ "blocks.log"
    else folder ++ "/blocks.log")

def prepare (s : Storage) (d : Disk) : Except StoreError Unit × Disk :=
  match s with
  | file path =>
    match d.openFile path with
    | (.error fault, d) => (.error (.log (.file path fault)), d)
    | (.ok _, d) => (.ok (), d)
  | _ => (.ok (), d)

def log : BlockLog (Storage × Disk) where
  load
    | (memory blocks, d) =>
      let (result, blocks) := BlockLog.inMemory.load blocks
      (result, memory blocks, d)
    | (failing room, d) =>
      let (result, room) := BlockLog.failing.load room
      (result, failing room, d)
    | (file path, d) =>
      let (result, d) := (BlockLog.onDisk path).load d
      (result, file path, d)
  append b
    | (memory blocks, d) =>
      let (result, blocks) := BlockLog.inMemory.append b blocks
      (result, memory blocks, d)
    | (failing room, d) =>
      let (result, room) := BlockLog.failing.append b room
      (result, failing room, d)
    | (file path, d) =>
      let (result, d) := (BlockLog.onDisk path).append b d
      (result, file path, d)

end Storage

end CosignedLedger
