import LineLang.Strict.Parse
import LineLang.Tree.Tolerant

/-!
# Program texts

* `Manner` : a text is read tolerantly, or strictly against the grammar;
* `Manner.parse` : the tree of a text. Only a strict reading can fail.
-/

namespace LineLang

inductive Manner where
  | tolerant
  | strict
  deriving DecidableEq, Repr

def Manner.parse : Manner → String → Except Strict.SyntaxFault Node
  | .tolerant, s => .ok (Tolerant.parse s)
  | .strict, s => Strict.parse s

end LineLang
