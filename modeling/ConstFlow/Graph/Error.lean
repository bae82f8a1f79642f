import ConstFlow.Text.Quoted

/-!
# What can be wrong with a graph
-/

namespace ConstFlow.Graph

/-- Why a program or a graph does not have what it is asked for. -/
inductive Error where
  | duplicateMethod (name : Text)
  | undefinedEntry (name : Text)
  | undefinedLabel (method label : Text)
  | unknownMethod (name : Text)
  | methodOutside (name : Text)
  /-- A node is not in the graph; the text shows the node. -/
  | nodeOutside (text : Text)
  deriving DecidableEq, Repr, Inhabited

/-- An error in words. -/
def Error.message : Error → Text
  | duplicateMethod m => "duplicate method " ++ Text.quote m
  | undefinedEntry m => "entry method " ++ Text.quote m ++ " is not defined"
  | undefinedLabel m l => "method " ++ Text.quote m ++ " jumps to undefined label " ++ Text.quote l
  | unknownMethod m => Text.quote m
  | methodOutside m => "method " ++ Text.quote m ++ " is not part of the ICFG"
  | nodeOutside t => "node " ++ t ++ " is not part of the ICFG"

end ConstFlow.Graph
