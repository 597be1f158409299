import LineLang.Eval
import LineLang.Tree.Json

/-!
# What is handed over as a tree

* `Subject` : a tree, or something of another kind in its place;
* `Subject.eval`, `Subject.toJson` : evaluation and storing, which refuse what is no tree;
* `NoTree` : the refusals, with their wording.
-/

namespace LineLang

/-- Something handed over for evaluation or storing. -/
inductive Subject where
  | tree (n : Node)
  | other (kind : String)
  deriving DecidableEq, Repr

/-- Something of the given kind is no tree. -/
inductive NoTree where
  | evaluated (kind : String)
  | stored (kind : String)
  deriving DecidableEq, Repr

def NoTree.message : NoTree → String
  | .evaluated kind => "evaluate: unexpected node type " ++ kind
  | .stored kind => "Unsupported node for serialization: " ++ kind

namespace Subject

def eval (level : Int) (fuel : Nat) : Subject → Except NoTree (Eval Value)
  | .tree n => .ok (LineLang.eval level fuel n)
  | .other kind => .error (.evaluated kind)

def toJson : Subject → Except NoTree Json
  | .tree n => .ok n.toJson
  | .other kind => .error (.stored kind)

end Subject

end LineLang
