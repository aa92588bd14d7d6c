import Markdown.Command.Path

set_option autoImplicit false

namespace Markdown

/-- What keeps octets from being stored, with its number and its words. -/
structure DeviceFault where
  code : Nat
  words : Text

def DeviceFault.message (fault : DeviceFault) : Text :=
  systemFault fault.code fault.words

structure Files where
  /-- There is a file, and not a directory, under the path. -/
  isFile : Path → Except FileFault Bool
  read : Path → Except FileFault (List UInt8)
  /-- Why the path cannot be opened for writing, if it cannot. A file that is opened is empty. -/
  openFault? : Path → Option FileFault
  /-- What ends the writing to a file that was opened, if something does, and the number of octets
  stored before. -/
  storeFault? : Path → List UInt8 → Option (Nat × DeviceFault)

/-- The name of an entry of a directory, in octets. -/
abbrev EntryName := List UInt8

inductive DiskEntry where
  | file (content : List UInt8)
  | directory

/-- A directory tree: the entries under their paths from its root. -/
structure Disk where
  entries : List (List EntryName × DiskEntry)
  /-- The directory that relative paths start from. -/
  here : List EntryName

namespace Disk

def get? (disk : Disk) (place : List EntryName) : Option DiskEntry :=
  (disk.entries.find? fun entry => entry.1 == place).map (·.2)

/-- The tree with an entry, which takes the place of what stood there. -/
def put (disk : Disk) (place : List EntryName) (entry : DiskEntry) : Disk :=
  { disk with entries := disk.entries.filter (·.1 != place) ++ [(place, entry)] }

/-- The tree with a directory, and with those that it lies in. -/
def addDirectory (disk : Disk) (place : List EntryName) : Disk :=
  (List.range' 1 place.length).foldl (fun disk count => disk.put (place.take count) .directory)
    disk

/-- The tree with a file, and with the directories that it lies in. -/
def addFile (disk : Disk) (place : List EntryName) (content : List UInt8) : Disk :=
  (disk.addDirectory place.dropLast).put place (.file content)

def empty (here : List EntryName) : Disk :=
  Disk.addDirectory ⟨[], here⟩ here

/-- The longest name that an entry may have, in octets. -/
def longestName : Nat := 255

/-- The length from which on a path is refused as a whole, in octets. -/
def refusedLength : Nat := 4096

def dot : UInt8 := 0x2e

def slash : UInt8 := 0x2f

/-- Where names lead to from a directory, and the entry there. The last one may be missing. The root
lies in itself. -/
def walk (disk : Disk) :
    List EntryName → List EntryName → Except FileFaultKind (List EntryName × Option DiskEntry)
  | [], place => .ok (place, some .directory)
  | name :: rest, place =>
    if name = [dot] then walk disk rest place
    else if name = [dot, dot] then walk disk rest place.dropLast
    else if longestName < name.length then .error .nameTooLong
    else
      let inner := place ++ [name]
      match disk.get? inner with
      | some .directory => walk disk rest inner
      | some (.file content) =>
        if rest.isEmpty then .ok (inner, some (.file content)) else .error .notDirectory
      | none => if rest.isEmpty then .ok (inner, none) else .error .missing

def namesOf (octets : List UInt8) : List EntryName :=
  (Text.splitAt (· == slash) octets).filter (! ·.isEmpty)

def resolve (disk : Disk) (path : Path) :
    Except FileFaultKind (List EntryName × Option DiskEntry) := do
  let octets ← path.text.nameOctets.mapError .unencodable
  if octets.contains 0 then throw .nullCharacter
  if refusedLength ≤ octets.length then throw .nameTooLong
  disk.walk (namesOf octets) (if path.anchor.isEmpty then disk.here else [])

def isFile (disk : Disk) (path : Path) : Except FileFault Bool :=
  match disk.resolve path with
  | .ok (_, some (.file _)) => .ok true
  | .ok _ => .ok false
  | .error kind => if kind = .nameTooLong then .error ⟨kind, path⟩ else .ok false

def read (disk : Disk) (path : Path) : Except FileFault (List UInt8) :=
  match disk.resolve path with
  | .ok (_, some (.file content)) => .ok content
  | .ok (_, some .directory) => .error ⟨.isDirectory, path⟩
  | .ok (_, none) => .error ⟨.missing, path⟩
  | .error kind => .error ⟨kind, path⟩

def openFault? (disk : Disk) (path : Path) : Option FileFault :=
  match disk.resolve path with
  | .ok (_, some .directory) => some ⟨.isDirectory, path⟩
  | .ok _ => none
  | .error kind => some ⟨kind, path⟩

/-- The files of a tree, where there is always room for more. -/
def files (disk : Disk) : Files :=
  ⟨disk.isFile, disk.read, disk.openFault?, fun _ _ => none⟩

def write (disk : Disk) (path : Path) (content : List UInt8) : Disk :=
  match disk.resolve path with
  | .ok (place, _) => disk.put place (.file content)
  | .error _ => disk

end Disk

end Markdown
