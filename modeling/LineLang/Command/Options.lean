import LineLang.Text.DecimalDigit
import LineLang.Text.Octets

/-!
# The words of a command line

An option is a word that begins with a dash and is spelled in full, or so that only one option begins with it. Its
argument follows `=`, or a short option directly, or is the next word. What directly follows a short option that takes
no argument are the letters of more short options: `-vo file`. Behind `--` no word is an option. Words that are no
options are operands; there is place for one.

There are two readings of letters behind such an option. In the early one they are letters also behind `=`, so that
`-v=o file` is `-vo file`, and all of them must be known. In the late one `=` stands only in front of an argument, and
where the known letters end the rest of the word is left over. An argument `--` in an option's own word counts as empty
in the early reading only.

* `Flag` : the options, with their spellings;
* `Word`, `classify` : what a word is taken for, before its neighbours are looked at;
* `Reading`, `unfold` : the options joined in one word;
* `Settings`, `settle` : what all the words ask for;
* `UsageFault` : why words cannot be understood, with its wording.
-/

namespace LineLang.Command

inductive Flag where
  | help | verbose | output | emit | replay | check | examples
  deriving DecidableEq, Repr

namespace Flag

def spellings : Flag → List String
  | .help => ["-h", "--help"]
  | .verbose => ["-v"]
  | .output => ["-o", "--output"]
  | .emit => ["--emit-ast"]
  | .replay => ["--ast"]
  | .check => ["--check"]
  | .examples => ["--examples"]

def all : List Flag := [.help, .verbose, .output, .emit, .replay, .check, .examples]

def table : List (String × Flag) := all.flatMap fun f => f.spellings.map fun s => (s, f)

def ofSpelling? (word : Octets) : Option Flag :=
  (table.find? fun entry => Text.encode entry.1 = word).map Prod.snd

def takesArgument : Flag → Bool
  | .help | .verbose => false
  | _ => true

def name (f : Flag) : String := "/".intercalate f.spellings

end Flag

/-- Why a command line cannot be understood. -/
inductive UsageFault where
  /-- A word could be one of several options. -/
  | ambiguous (word : Octets) (spellings : List String)
  | noArgument (f : Flag)
  /-- An option that takes no argument was given one. -/
  | needlessArgument (f : Flag) (argument : Octets)
  | conflict (f earlier : Flag)
  /-- Words are left over. -/
  | unknown (words : List Octets)
  | noTask
  deriving DecidableEq, Repr

def UsageFault.message : UsageFault → String
  | .ambiguous word spellings =>
    "ambiguous option: " ++ Text.shown word ++ " could match " ++ ", ".intercalate spellings
  | .noArgument f => "argument " ++ f.name ++ ": expected one argument"
  | .needlessArgument f argument =>
    "argument " ++ f.name ++ ": ignored explicit argument " ++ Text.quotedOctets argument
  | .conflict f earlier => "argument " ++ f.name ++ ": not allowed with argument " ++ earlier.name
  | .unknown words => "unrecognized arguments: " ++ " ".intercalate (words.map Text.shown)
  | .noTask => "missing program file; or use --emit-ast/--ast/--check/--examples"

/-! ## Single words -/

/-- The argument of an option in the option's own word. -/
structure Attached where
  /-- Whether an equals sign stands in front of it. -/
  signed : Bool
  text : Octets
  deriving DecidableEq, Repr

inductive Word where
  /-- The mark behind which no word is an option. -/
  | mark
  | operand (text : Octets)
  /-- An option, spelled short or long, with the argument in the same word. -/
  | option (f : Flag) (short : Bool) (argument : Option Attached)
  /-- An option that does not exist. -/
  | stranger (text : Octets)
  deriving DecidableEq, Repr

def mark : Octets := [Octet.dash, Octet.dash]

/-- A word before and behind its first equals sign. -/
def splitSign (word : Octets) : Octets × Option Attached :=
  match word.dropWhile (· != Octet.equals) with
  | [] => (word, none)
  | _ :: after => (word.takeWhile (· != Octet.equals), some ⟨true, after⟩)

def isShort (spelling : Octets) : Bool := !mark.isPrefixOf spelling

/-- The options that a word abbreviates. A long word is cut at its equals sign; a short one names an option by its
first letter, and the rest is that option's argument. -/
def abbreviated (word : Octets) : List (String × Word) :=
  if isShort word then
    Flag.table.filterMap fun (s, f) =>
      if Text.encode s = word.take 2 then some (s, .option f true (some ⟨false, word.drop 2⟩))
      else if word.isPrefixOf (Text.encode s) then some (s, .option f (isShort s) none)
      else none
  else
    let (front, argument) := splitSign word
    Flag.table.filterMap fun (s, f) =>
      if front.isPrefixOf (Text.encode s) then some (s, .option f (isShort s) argument) else none

/-- A decimal digit of any script. -/
def isAnyDigit (c : Char) : Bool := (Text.decimalDigit? c).isSome

/-- Whether a text looks like a negative number. One line feed may follow. -/
def isNegative (cs : List Char) : Bool :=
  let cs := if cs.getLast? = some '\n' then cs.dropLast else cs
  match cs with
  | '-' :: body =>
    match body.dropWhile isAnyDigit with
    | [] => !body.isEmpty
    | '.' :: places => !places.isEmpty && places.all isAnyDigit
    | _ => false
  | _ => false

/-- Whether a word that looks like an option is none: a negative number, or a word with a blank in it. -/
def isOperand (word : Octets) : Bool :=
  word.contains Octet.space ||
    match Text.decode word with
    | .ok cs => isNegative cs
    | .error _ => false

def classify (word : Octets) : Except UsageFault Word :=
  match word with
  | first :: _ :: _ =>
    if first = Octet.dash then
      match Flag.ofSpelling? word with
      | some f => .ok (.option f (isShort word) none)
      | none =>
        let (front, argument) := splitSign word
        match Flag.ofSpelling? front, argument with
        | some f, some a => .ok (.option f (isShort front) (some a))
        | _, _ =>
          match abbreviated word with
          | [(_, found)] => .ok found
          | [] => if isOperand word then .ok (.operand word) else .ok (.stranger word)
          | several => .error (.ambiguous word (several.map Prod.fst))
    else .ok (.operand word)
  | _ => .ok (.operand word)

def classifyAll : List Octets → Except UsageFault (List Word)
  | [] => .ok []
  | word :: words =>
    if word = mark then .ok (.mark :: words.map .operand)
    else do
      let w ← classify word
      let ws ← classifyAll words
      return w :: ws

/-! ## Joined options -/

/-- How letters behind a short option without argument are read. -/
inductive Reading where
  | early
  | late
  deriving DecidableEq, Repr

/-- The options of one word. -/
structure Unfolded where
  /-- Those complete in it, in order. -/
  complete : List (Flag × Option Octets) := []
  /-- The last one if it still wants an argument. -/
  wanting : Option Flag := none
  /-- The letters left over, behind a dash. -/
  stray : Option Octets := none
  deriving DecidableEq, Repr

def Unfolded.push (f : Flag) (u : Unfolded) : Unfolded := { u with complete := (f, none) :: u.complete }

/-- An option that nothing follows in its word. -/
def Unfolded.last (f : Flag) : Unfolded :=
  if f.takesArgument then { wanting := some f } else { complete := [(f, none)] }

/-- The options that the letters behind `f` stand for, and `f` in front of them; it takes no argument. Behind a
letter whose option takes one, the rest is that argument. -/
def unfoldLetters (reading : Reading) (f : Flag) (signed : Bool) : Octets → Except UsageFault Unfolded
  | [] => .error (.needlessArgument f [])
  | c :: cs =>
    if reading = .late && (signed || c = Octet.dash) then .error (.needlessArgument f (c :: cs))
    else
      match Flag.ofSpelling? [Octet.dash, c], cs with
      | none, cs =>
        match reading with
        | .early => .error (.needlessArgument f (c :: cs))
        | .late => .ok { complete := [(f, none)], stray := some (Octet.dash :: c :: cs) }
      | some g, [] => .ok ((Unfolded.last g).push f)
      | some g, e :: rest =>
        if reading = .late && e = Octet.equals then
          if g.takesArgument then .ok { complete := [(f, none), (g, some rest)] }
          else (unfoldLetters reading g true rest).map (Unfolded.push f)
        else if g.takesArgument then .ok { complete := [(f, none), (g, some (e :: rest))] }
        else (unfoldLetters reading g false (e :: rest)).map (Unfolded.push f)

def unfold (reading : Reading) (f : Flag) (short : Bool) : Option Attached → Except UsageFault Unfolded
  | none => .ok (.last f)
  | some argument =>
    if f.takesArgument then .ok { complete := [(f, some argument.text)] }
    else if short then unfoldLetters reading f argument.signed argument.text
    else .error (.needlessArgument f argument.text)

/-! ## All words -/

structure Settings where
  verbosity : Nat := 0
  output : Option Octets := none
  /-- The option that chooses the task, with its argument. -/
  task : Option (Flag × Octets) := none
  program : Option Octets := none
  deriving DecidableEq, Repr

/-- What is known after some words. -/
structure Progress where
  settings : Settings := {}
  /-- Whether the place of the operand is still free. -/
  free : Bool := true
  /-- The words left over. -/
  extras : List Octets := []
  deriving DecidableEq, Repr

/-- What reading a command line can lead to apart from settings. -/
inductive Detour where
  | help
  | fault (e : UsageFault)
  deriving DecidableEq, Repr

def argumentText (reading : Reading) (argument : Option Octets) : Octets :=
  (argument.filter fun text => reading != .early || text != mark).getD []

def Settings.apply (reading : Reading) (s : Settings) (f : Flag) (argument : Option Octets) :
    Except Detour Settings :=
  let text := argumentText reading argument
  match f with
  | .help => .error .help
  | .verbose => .ok { s with verbosity := s.verbosity + 1 }
  | .output => .ok { s with output := some text }
  | .emit | .replay | .check | .examples =>
    match s.task with
    | some (earlier, _) =>
      if earlier = f then .ok { s with task := some (f, text) }
      else .error (.fault (.conflict f earlier))
    | none => .ok { s with task := some (f, text) }

def Settings.applyAll (reading : Reading) (s : Settings) : List (Flag × Option Octets) → Except Detour Settings
  | [] => .ok s
  | (f, argument) :: rest => do
    let s ← s.apply reading f argument
    s.applyAll reading rest

/-- The text of a word behind the mark. -/
def Word.text : Word → Octets
  | .mark => Command.mark
  | .operand s | .stranger s => s
  | .option f _ _ => f.name

/-- Takes notice of words one by one. The mark is dropped with the operand next to it, and is left over like any
other word if the place of the operand is taken. -/
def Progress.walk (reading : Reading) (p : Progress) : List Word → Except Detour Progress
  | [] => .ok p
  | .mark :: ws =>
    if p.free then
      match ws with
      | [] => .ok { p with free := false }
      | w :: ws =>
        .ok { settings := { p.settings with program := some w.text }, free := false,
              extras := p.extras ++ ws.map Word.text }
    else .ok { p with extras := p.extras ++ mark :: ws.map Word.text }
  | .operand s :: ws =>
    if p.free then
      let p := { p with settings := { p.settings with program := some s }, free := false }
      match ws with
      | .mark :: ws => .ok { p with extras := p.extras ++ ws.map Word.text }
      | ws => p.walk reading ws
    else ({ p with extras := p.extras ++ [s] } : Progress).walk reading ws
  | .stranger s :: ws => ({ p with extras := p.extras ++ [s] } : Progress).walk reading ws
  | .option f short argument :: ws =>
    match unfold reading f short argument with
    | .error e => .error (.fault e)
    | .ok u =>
      let extras := p.extras ++ u.stray.toList
      match u.wanting, ws with
      | none, ws => do
        let settings ← p.settings.applyAll reading u.complete
        ({ p with settings, extras } : Progress).walk reading ws
      | some g, .operand s :: ws => do
        let settings ← p.settings.applyAll reading (u.complete ++ [(g, some s)])
        ({ p with settings, extras } : Progress).walk reading ws
      | some g, _ => .error (.fault (.noArgument g))

def settle (reading : Reading) (words : List Octets) : Except Detour Settings := do
  let ws ← (classifyAll words).mapError .fault
  let p ← ({} : Progress).walk reading ws
  match p.extras with
  | [] => return p.settings
  | extras => throw (.fault (.unknown extras))

end LineLang.Command
