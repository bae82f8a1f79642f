import ConstFlow.Text.Basic

/-!
# Positions in a text

An offset counts the code points before a place. Lines are ended by the line feed alone and are
counted from one; columns count the code points since the line began, also from one.
-/

namespace ConstFlow.Text

/-- The line on which an offset lies. -/
def lineAt (text : Text) (offset : Nat) : Nat :=
  (text.take offset).count (.scalar '\n') + 1

/-- The column at which an offset lies: one more than the number of code points between the line
feed before it, or the start of the text, and the offset. -/
def columnAt (text : Text) (offset : Nat) : Nat :=
  ((text.take offset).reverse.takeWhile (· ≠ .scalar '\n')).length + 1

/-- Read every carriage return, with the line feed after it if there is one, as a line feed. This
is how the contents of files and of the standard input become text. -/
def foldNewlines : List Char → List Char
  | '\r' :: '\n' :: rest => '\n' :: foldNewlines rest
  | '\r' :: rest => '\n' :: foldNewlines rest
  | c :: rest => c :: foldNewlines rest
  | [] => []

end ConstFlow.Text
