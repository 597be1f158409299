import LineLang.Disk.Path
import LineLang.Text.Decimal

/-!
# Folders and files

* `Disk` : the entries by the names that lead to them from a working folder, and the names of the folders around it.
  The names of an entry outside that folder begin with `..`;
* `Disk.at?`, `Disk.put` : reading and setting an entry, with `at?_put_self` and `at?_put_other`;
* `Disk.up`, `Disk.down` : the folder around one, and the place that a name leads to. From a folder around the working
  folder, the name of the next one inside leads back, so that every entry has one place;
* `Disk.walk`, `Disk.read`, `Disk.bytes?` : following a path, from the root if it begins with a slash. Every name but
  the last has to be a folder, and neither a name nor the path may be too long;
* `Disk.openFile` : makes a file ready for writing, emptied or for appending, or creates it in an existing folder;
* `Disk.append` : writes behind the end of a file;
* `DiskFault` : why a file cannot be opened, with its wording.
-/

namespace LineLang

inductive Entry where
  | folder
  | file (bytes : List UInt8)
  deriving DecidableEq, Repr

/-- The names that lead from the working folder to an entry. -/
abbrev Location := List Octets

structure Disk where
  entries : List (Location × Entry) := []
  /-- The name of the working folder, that of the folder around it, and so on to the root, which has none. -/
  around : List Octets := []
  deriving DecidableEq, Repr

/-- Why a path cannot be followed. -/
inductive Obstacle where
  | absent
  /-- A name in front of another is that of a file. -/
  | notFolder
  /-- A folder stands where a file is needed. -/
  | isFolder
  /-- A name on the way, or the path, is too long. -/
  | tooLong
  | nulByte
  deriving DecidableEq, Repr

/-- A file that cannot be opened: the path as it was given, and why. -/
structure DiskFault where
  obstacle : Obstacle
  path : Octets
  deriving DecidableEq, Repr

def DiskFault.message (e : DiskFault) : String :=
  match e.obstacle with
  | .absent => "[Errno 2] No such file or directory: " ++ Text.quotedOctets e.path
  | .notFolder => "[Errno 20] Not a directory: " ++ Text.quotedOctets e.path
  | .isFolder => "[Errno 21] Is a directory: " ++ Text.quotedOctets e.path
  | .tooLong => "[Errno 36] File name too long: " ++ Text.quotedOctets e.path
  | .nulByte => "embedded null byte"

inductive WriteMode where
  /-- Its content is dropped. -/
  | truncate
  /-- Its content is kept. -/
  | append
  deriving DecidableEq, Repr

namespace Disk

def putEntry (l : Location) (e : Entry) : List (Location × Entry) → List (Location × Entry)
  | [] => [(l, e)]
  | entry :: entries => if entry.1 = l then (l, e) :: entries else entry :: putEntry l e entries

/-- The name that leads out of a folder. -/
def out : Octets := [Octet.dot, Octet.dot]

/-- Whether a location is that of the working folder or of one around it. -/
def isAround (l : Location) : Bool := l.all (· = out)

/-- The entry at a location; the working folder and those around it are always there. -/
def at? (d : Disk) (l : Location) : Option Entry :=
  if isAround l then some .folder else d.entries.lookup l

def put (d : Disk) (l : Location) (e : Entry) : Disk := { d with entries := putEntry l e d.entries }

def top (d : Disk) : Location := List.replicate d.around.length out

/-- The folder around the one at `l`; around the root it is the root. -/
def up (d : Disk) (l : Location) : Location :=
  if isAround l then if l.length < d.around.length then l ++ [out] else l
  else l.dropLast

/-- The place that a name leads to from the folder at `l`. -/
def down (d : Disk) (l : Location) (name : Octets) : Location :=
  if isAround l && l != [] && d.around[l.length - 1]? = some name then l.dropLast else l ++ [name]

def nameLimit : Nat := 255

def pathLimit : Nat := 4095

/-- The entry that a name leads to from the folder at `l`, if there is one. -/
def find (d : Disk) (l : Location) (name : Octets) : Except Obstacle (Option Entry) :=
  if nameLimit < name.length then .error .tooLong else .ok (d.at? (d.down l name))

/-- Follows names through folders, from the folder at `l`. -/
def walk (d : Disk) (l : Location) : List Octets → Except Obstacle Location
  | [] => .ok l
  | name :: names =>
    if name = out then d.walk (d.up l) names
    else
      match d.find l name with
      | .error e => .error e
      | .ok none => .error .absent
      | .ok (some (.file _)) => .error .notFolder
      | .ok (some .folder) => d.walk (d.down l name) names

/-- A path cut before its last name; slashes behind that name are not part of it. -/
structure Parted where
  /-- Whether the path begins at the root. -/
  rooted : Bool
  front : List Octets
  last : Octets
  /-- Whether slashes follow the last name. -/
  closed : Bool
  deriving DecidableEq, Repr

def part (path : Octets) : Parted :=
  let rooted : Bool := path.head? = some Octet.slash
  let back := (Path.segments path).reverse
  let names := back.dropWhile (· = [])
  match names with
  | [] => ⟨rooted, [], [], false⟩
  | last :: front => ⟨rooted, front.reverse.filter Path.isName, last, names.length < back.length⟩

/-- The folder that the last name of a path is looked up in. -/
def folderOf (d : Disk) (p : Parted) : Except Obstacle Location :=
  d.walk (if p.rooted then d.top else []) p.front

/-- Whether a name leads to a folder whatever stands there. -/
def isDots (name : Octets) : Bool := name = Path.here || name = out

/-- Why a path is refused before it is followed. -/
def refusal? (path : Octets) : Option Obstacle :=
  if path.contains 0 then some .nulByte
  else if pathLimit < path.length then some .tooLong
  else none

def read (d : Disk) (path : Octets) : Except Obstacle (List UInt8) :=
  match refusal? path with
  | some e => .error e
  | none => do
    let p := part path
    let l ← d.folderOf p
    if isDots p.last then throw .isFolder
    match ← d.find l p.last with
    | none => throw .absent
    | some .folder => throw .isFolder
    | some (.file bytes) => if p.closed then throw .notFolder else return bytes

def bytes? (d : Disk) (path : Octets) : Option (List UInt8) := (d.read path).toOption

/-- Opens the file at a path for writing, and creates it if its folder is there. -/
def locate (d : Disk) (mode : WriteMode) (path : Octets) : Except Obstacle (Location × Disk) :=
  let p := part path
  match refusal? path with
  | some e => .error e
  | none =>
    if p.last = [] then .error (if path = [] then .absent else .isFolder)
    else do
      let l ← d.folderOf p
      if isDots p.last || p.closed then throw .isFolder
      let target := d.down l p.last
      match ← d.find l p.last, mode with
      | some .folder, _ => throw .isFolder
      | some (.file _), .append => return (target, d)
      | _, _ => return (target, d.put target (.file []))

def openFile (d : Disk) (mode : WriteMode) (path : Octets) : Except DiskFault (Location × Disk) :=
  match d.locate mode path with
  | .ok opened => .ok opened
  | .error obstacle => .error ⟨obstacle, path⟩

def append (d : Disk) (l : Location) (text : String) : Disk :=
  match d.at? l with
  | some (.file bytes) => d.put l (.file (bytes ++ Text.encode text))
  | _ => d.put l (.file (Text.encode text))

/-! ## Filling and listing -/

/-- Makes folders of all beginnings of a location. -/
def makeFolders (d : Disk) (l : Location) : Disk :=
  (List.range l.length).foldl (fun d n =>
    let front := l.take (n + 1)
    if (d.at? front).isSome then d else d.put front .folder) d

/-- Adds an entry below the working folder, with the folders that lead to it. -/
def add (d : Disk) (path : Octets) (e : Entry) : Disk :=
  let l := (Path.ofText path).parts
  if l = [] then d else (d.makeFolders l.dropLast).put l e

/-- All entries below the working folder with their paths, in the order of the paths' characters. -/
def listing (d : Disk) : List (String × Entry) :=
  let below := d.entries.filter fun entry => entry.1.head? != some out
  (below.map fun (l, e) => (Text.shown (Path.mk .here l).text, e)).mergeSort fun a b => decide (a.1 ≤ b.1)

/-! ## Reading what was put -/

theorem lookup_putEntry_self (l : Location) (e : Entry) (entries : List (Location × Entry)) :
    (putEntry l e entries).lookup l = some e := by
  induction entries with
  | nil => simp [putEntry]
  | cons entry entries ih =>
    obtain ⟨x, v⟩ := entry
    by_cases h : x = l
    · simp [putEntry, h]
    · have h' : (l == x) = false := by simpa using fun e => h e.symm
      simp [putEntry, h, List.lookup_cons, h', ih]

theorem lookup_putEntry_other {l m : Location} (h : m ≠ l) (e : Entry)
    (entries : List (Location × Entry)) :
    (putEntry l e entries).lookup m = entries.lookup m := by
  have hn : (m == l) = false := by simpa using h
  induction entries with
  | nil => simp [putEntry, List.lookup_cons, hn]
  | cons entry entries ih =>
    obtain ⟨x, v⟩ := entry
    by_cases hx : x = l
    · subst hx; simp [putEntry, List.lookup_cons, hn]
    · simp [putEntry, hx, List.lookup_cons, ih]

theorem at?_put_self (d : Disk) {l : Location} (h : isAround l = false) (e : Entry) :
    (d.put l e).at? l = some e := by
  simp [at?, put, h, lookup_putEntry_self]

theorem at?_put_other (d : Disk) {l m : Location} (h : m ≠ l) (e : Entry) :
    (d.put l e).at? m = d.at? m := by
  simp [at?, put, lookup_putEntry_other h]

end Disk

end LineLang
