import LineLang.Json.Display
import LineLang.Value

/-!
# Stores

A store holds the values of names, in the order in which the names were first set. A name may hold a missing
value. Names from a program are texts; a tree from a file may use any datum.

* `Store.get?`, `Store.set` : reading and setting, with `get?_set_self` and `get?_set_other`;
* `Store.names` : the names in order;
* `Store.listed` : the store as one line of text.
-/

namespace LineLang

structure Store where
  entries : List (Json × Value) := []
  deriving DecidableEq, Repr

namespace Store

def empty : Store := ⟨[]⟩

/-- Sets a name among the given entries: in its place if it is there, else behind them. -/
def setEntry (name : Json) (value : Value) : List (Json × Value) → List (Json × Value)
  | [] => [(name, value)]
  | entry :: entries =>
    if entry.1 = name then (name, value) :: entries else entry :: setEntry name value entries

def get? (s : Store) (name : Json) : Option Value := s.entries.lookup name

def set (s : Store) (name : Json) (value : Value) : Store := ⟨setEntry name value s.entries⟩

def contains (s : Store) (name : Json) : Bool := (s.get? name).isSome

/-- The names, in the order in which they were first set. -/
def names (s : Store) : List Json := s.entries.map Prod.fst

def listed (s : Store) : String :=
  "Environment(" ++ ", ".intercalate (s.entries.map fun (name, v) => name.shown ++ "=" ++ v.text) ++ ")"

/-! ## Reading what was set -/

theorem lookup_setEntry_self (name : Json) (value : Value) (entries : List (Json × Value)) :
    (setEntry name value entries).lookup name = some value := by
  induction entries with
  | nil => simp [setEntry]
  | cons entry entries ih =>
    obtain ⟨x, v⟩ := entry
    by_cases h : x = name
    · simp [setEntry, h]
    · have h' : (name == x) = false := by simpa using fun e => h e.symm
      simp [setEntry, h, List.lookup_cons, h', ih]

theorem lookup_setEntry_other {name other : Json} (h : other ≠ name) (value : Value)
    (entries : List (Json × Value)) :
    (setEntry name value entries).lookup other = entries.lookup other := by
  have hn : (other == name) = false := by simpa using h
  induction entries with
  | nil => simp [setEntry, List.lookup_cons, hn]
  | cons entry entries ih =>
    obtain ⟨x, v⟩ := entry
    by_cases hx : x = name
    · subst hx; simp [setEntry, List.lookup_cons, hn]
    · simp [setEntry, hx, List.lookup_cons, ih]

@[simp] theorem get?_set_self (s : Store) (name : Json) (value : Value) :
    (s.set name value).get? name = some value :=
  lookup_setEntry_self name value s.entries

theorem get?_set_other (s : Store) {name other : Json} (h : other ≠ name) (value : Value) :
    (s.set name value).get? other = s.get? other :=
  lookup_setEntry_other h value s.entries

end Store

end LineLang
