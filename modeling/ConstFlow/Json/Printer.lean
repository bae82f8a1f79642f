import ConstFlow.Json.Basic

/-!
# Writing JSON

Texts are written in ASCII, with escapes for everything else. `compact` writes a value on one line;
`pretty` gives every item and field a line of its own, two columns further in than what it is part
of, and writes empty lists and records as a pair of brackets.
-/

namespace ConstFlow.Json

/-- A UTF-16 unit as an escape. -/
def unitEscape (n : Nat) : List Char := '\x5c' :: 'u' :: Text.hexDigits 4 n

/-- One character of a text between double quotes. -/
def writeChar (c : Char) : List Char :=
  let n := c.toNat
  if c = '\x22' then ['\x5c', '\x22']
  else if c = '\x5c' then ['\x5c', '\x5c']
  else if c = '\n' then ['\x5c', 'n']
  else if c = '\r' then ['\x5c', 'r']
  else if c = '\t' then ['\x5c', 't']
  else if c = '\x08' then ['\x5c', 'b']
  else if c = '\x0c' then ['\x5c', 'f']
  else if 0x20 ≤ n ∧ n ≤ 0x7e then [c]
  else if n < 0x10000 then unitEscape n
  else unitEscape (0xd800 + (n - 0x10000) / 1024) ++ unitEscape (0xdc00 + (n - 0x10000) % 1024)

/-- One code point of a text between double quotes. -/
def writePoint : CodePoint → List Char
  | .scalar c => writeChar c
  | p => unitEscape p.code

/-- A text between double quotes. -/
def writeText (t : Text) : String :=
  String.ofList ('\x22' :: t.flatMap writePoint ++ ['\x22'])

/-- A fractional number; the values that are no decimals have words of their own. -/
def writeReal : Binary64 → String
  | .nan => "NaN"
  | .infinite negative => if negative then "-Infinity" else "Infinity"
  | x => x.text

mutual

/-- A value on one line. -/
def compact : Json → String
  | null => "null"
  | bool b => if b then "true" else "false"
  | int i => toString i
  | real x => writeReal x
  | text t => writeText t
  | list items => "[" ++ ",".intercalate (compactItems items) ++ "]"
  | record fields => "\x7b" ++ ",".intercalate (compactFields fields) ++ "\x7d"

def compactItems : List Json → List String
  | [] => []
  | j :: rest => j.compact :: compactItems rest

def compactFields : List (Text × Json) → List String
  | [] => []
  | (name, j) :: rest => (writeText name ++ ":" ++ j.compact) :: compactFields rest

end

/-- A line break and the margin of a depth. -/
def margin (depth : Nat) : String := String.ofList ('\n' :: List.replicate (2 * depth) ' ')

/-- Parts between brackets, each on a line of its own. -/
def bracketed (opening closing : String) (depth : Nat) (parts : List String) : String :=
  match parts with
  | [] => opening ++ closing
  | _ =>
    opening ++ margin (depth + 1) ++ ("," ++ margin (depth + 1)).intercalate parts ++
      margin depth ++ closing

mutual

/-- A value on several lines, from a depth on. -/
def prettyFrom (depth : Nat) : Json → String
  | list items => bracketed "[" "]" depth (prettyItems (depth + 1) items)
  | record fields => bracketed "\x7b" "\x7d" depth (prettyFields (depth + 1) fields)
  | null => "null"
  | bool b => if b then "true" else "false"
  | int i => toString i
  | real x => writeReal x
  | text t => writeText t

def prettyItems (depth : Nat) : List Json → List String
  | [] => []
  | j :: rest => prettyFrom depth j :: prettyItems depth rest

def prettyFields (depth : Nat) : List (Text × Json) → List String
  | [] => []
  | (name, j) :: rest => (writeText name ++ ": " ++ prettyFrom depth j) :: prettyFields depth rest

end

/-- A value on several lines. -/
def pretty (j : Json) : String := prettyFrom 0 j

end ConstFlow.Json
