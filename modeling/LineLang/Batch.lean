import LineLang.Runner

/-!
# Program files

* `interpretFile` : runs the program of a file and writes the text of its value to another; the number of
  characters written. Nothing is written if the program has no value;
* `interpretExamples` : the same for the files `example1.cmm`, `example2.cmm`, … of a folder, into `output1.txt`,
  `output2.txt`, …, all with one trace.
-/

namespace LineLang

def writeValue (src dst : Octets) (value : Value) : Job Nat := do
  if value.hasOutput then
    Job.write dst value.text
    return value.text.length
  else throw (.noValue src)

def interpretFile (fuel : Nat) (level : Int) (mode : WriteMode) (src dst : Octets) : Job Nat := do
  let source ← Job.source (Path.ofText src)
  let r ← Runner.start level mode
  let v ← r.value fuel (Tolerant.parse source)
  writeValue src dst v

def exampleName (n : Nat) : String := "example" ++ Text.Decimal.ofNat n ++ ".cmm"

def outputName (n : Nat) : String := "output" ++ Text.Decimal.ofNat n ++ ".txt"

/-- Runs the examples with the given numbers, the first number's trace replacing what was there. -/
def interpretEach (fuel : Nat) (level : Int) (folder : Path) : List Nat → Job (List (String × Nat))
  | [] => pure []
  | n :: ns => do
    let mode := if n = 1 then .truncate else .append
    let count ← interpretFile fuel level mode (folder.child (exampleName n)).text
      (folder.child (outputName n)).text
    let rest ← interpretEach fuel level folder ns
    return (exampleName n, count) :: rest

/-- Runs the examples 1 to `count` of a folder; the names of the programs with the numbers of characters
written. -/
def interpretExamples (fuel : Nat) (level : Int) (folder : Octets) (count : Int) :
    Job (List (String × Nat)) :=
  interpretEach fuel level (Path.ofText folder) ((List.range count.toNat).map (· + 1))

end LineLang
