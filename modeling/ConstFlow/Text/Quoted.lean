import ConstFlow.Text.Basic
import ConstFlow.Text.Printable

/-!
# Quoted texts

How messages show a text that they quote: between single quotes, or between double quotes when the
text holds a single quote and no double one. The quote in use and the backslash are escaped, the
three common controls have their letters, and every other hidden character, and every surrogate, is
written as its number in the shortest of three hexadecimal forms. So what is quoted is a string.
-/

namespace ConstFlow.Text

/-- The hexadecimal digits of `n`, with zeros in front up to `width`. -/
def hexDigits (width n : Nat) : List Char :=
  let digits := Nat.toDigits 16 n
  List.replicate (width - digits.length) '0' ++ digits

/-- A hidden code point as its number. -/
def escapeCode (n : Nat) : List Char :=
  if n < 0x100 then '\x5c' :: 'x' :: hexDigits 2 n
  else if n < 0x10000 then '\x5c' :: 'u' :: hexDigits 4 n
  else '\x5c' :: 'U' :: hexDigits 8 n

/-- One character of a text between quotes `q`. -/
def escapeChar (q c : Char) : List Char :=
  if c = q then ['\x5c', c]
  else if c = '\x5c' then ['\x5c', '\x5c']
  else if c = '\n' then ['\x5c', 'n']
  else if c = '\r' then ['\x5c', 'r']
  else if c = '\t' then ['\x5c', 't']
  else if isPrintable c then [c]
  else escapeCode c.toNat

/-- One code point of a text between quotes `q`. -/
def escapePoint (q : Char) : CodePoint → List Char
  | .scalar c => escapeChar q c
  | p => escapeCode p.code

/-- The quote that goes around a text. -/
def quoteFor (t : Text) : Char :=
  if t.contains (.scalar '\x27') && !t.contains (.scalar '\x22') then '\x22' else '\x27'

/-- A text as messages quote it. -/
def quote (t : Text) : String :=
  let q := quoteFor t
  String.ofList (q :: t.flatMap (escapePoint q) ++ [q])

/-- A text as a string, in which surrogates are written as their numbers. -/
def escaped (t : Text) : String :=
  String.ofList <| t.flatMap fun
    | .scalar c => [c]
    | p => escapeCode p.code

end ConstFlow.Text
