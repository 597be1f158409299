import LineLang.Text.Octets

/-!
# Paths

* `Path` : where a path starts, and the names on the way from there; `.` and empty names are dropped, `..` is kept;
* `Path.ofText`, `Path.text` : reading and writing a path; the working folder itself is written `.`;
* `Path.name`, `Path.withName`, `Path.child` : the last name, and paths with another or one more name;
* `Path.withSuffix?` : the last name with its suffix replaced. The suffix starts at the last dot, unless that is
  the first or the last character of the name.
-/

namespace LineLang

/-- Where a path starts: at the working folder or at the root, which two slashes name in a form of its own. -/
inductive Start where
  | here
  | root
  | doubleRoot
  deriving DecidableEq, Repr

namespace Start

/-- The slashes in front of the first name. -/
def text : Start → Octets
  | .here => []
  | .root => [Octet.slash]
  | .doubleRoot => [Octet.slash, Octet.slash]

/-- Three slashes and more are one. -/
def ofText (s : Octets) : Start :=
  match (s.takeWhile (· = Octet.slash)).length with
  | 0 => .here
  | 2 => .doubleRoot
  | _ => .root

end Start

structure Path where
  start : Start
  parts : List Octets
  deriving DecidableEq, Repr

namespace Path

/-- The name that leads nowhere. -/
def here : Octets := [Octet.dot]

/-- The octets between slashes. -/
def segments (s : Octets) : List Octets := s.splitOn Octet.slash

def isName (segment : Octets) : Bool := segment != [] && segment != here

def ofText (s : Octets) : Path := ⟨.ofText s, (segments s).filter isName⟩

def text (p : Path) : Octets :=
  match p.start, p.parts with
  | .here, [] => here
  | start, parts => start.text ++ [Octet.slash].intercalate parts

/-- The last name of a path; the working folder and the root have none. -/
def name (p : Path) : Octets := p.parts.getLast?.getD []

def withName (p : Path) (name : Octets) : Path := { p with parts := p.parts.dropLast ++ [name] }

def child (p : Path) (name : Octets) : Path := { p with parts := p.parts ++ [name] }

/-- A name up to its last dot, the whole name if that dot is its first or last character or if there is none. -/
def stem (name : Octets) : Octets :=
  let suffix := name.reverse.takeWhile (· != Octet.dot)
  let before := name.take (name.length - suffix.length - 1)
  if suffix.isEmpty || before.isEmpty then name else before

/-- The path with another suffix, if there is a name to change. -/
def withSuffix? (p : Path) (suffix : Octets) : Option Path :=
  if p.parts.isEmpty then none else some (p.withName (stem p.name ++ suffix))

end Path

end LineLang
