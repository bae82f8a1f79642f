import ConstFlow.Text.Quoted

/-!
# Rejected program texts

Why a text is no program, and where. A text with a literal that is too long to be read is not
rejected but makes reading fail altogether.
-/

namespace ConstFlow.Source

/-- What is wrong with a program text. -/
inductive Complaint where
  /-- The text from the error on, as far as it is shown. -/
  | syntaxNear (text : Text)
  | duplicateParameter (name method : Text)
  | duplicateLabel (name method : Text)
  | undefinedLabel (name method : Text)
  | duplicateMethod (name : Text)
  deriving DecidableEq, Repr, Inhabited

/-- A complaint in words. -/
def Complaint.message : Complaint → Text
  | syntaxNear t => "syntax error near " ++ Text.quote t
  | duplicateParameter x m =>
    "duplicate parameter " ++ Text.quote x ++ " in method " ++ Text.quote m
  | duplicateLabel l m => "duplicate label " ++ Text.quote l ++ " in method " ++ Text.quote m
  | undefinedLabel l m => "undefined label " ++ Text.quote l ++ " in method " ++ Text.quote m
  | duplicateMethod m => "duplicate method " ++ Text.quote m

/-- A message with the place that it is about in front. Without a line only the file is named; a
column that is not known is taken to be the first. -/
def located (file : Text) (line column : Option Int) (message : Text) : Text :=
  match line with
  | none => file ++ ": " ++ message
  | some l => file ++ ":" ++ toString l ++ ":" ++ toString (column.getD 1) ++ ": " ++ message

/-- A complaint and its place. -/
structure Rejection where
  complaint : Complaint
  file : Text
  line : Int
  column : Option Nat
  deriving DecidableEq, Repr, Inhabited

/-- A rejection in words. -/
def Rejection.message (r : Rejection) : Text :=
  located r.file (some r.line) (r.column.map Int.ofNat) r.complaint.message

/-- Why a text gives no program. -/
inductive ParseError where
  | rejected (r : Rejection)
  | literalTooLong
  deriving DecidableEq, Repr, Inhabited

end ConstFlow.Source
