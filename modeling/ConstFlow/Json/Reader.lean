import ConstFlow.Assoc
import ConstFlow.Json.Basic
import ConstFlow.Text.Number

/-!
# Reading JSON

The standard grammar, strictly: no byte-order mark, no raw controls in texts, no comma at the end,
no comments. Three words for numbers that are no decimals are taken as well, and when a record
repeats a name, the last value stays in the first place. Two escapes for the halves of a surrogate
pair are one character; a half alone is read as it is. There is room for so many lists and records
in one another, and values that lie deeper are not read.
-/

namespace ConstFlow.Json

/-- Why a text gives no value. -/
inductive ReadError where
  | malformed
  /-- A whole number has too many digits. -/
  | tooLong (digits : Nat)
  /-- A list lies too deep. -/
  | deepList
  /-- A record lies too deep. -/
  | deepRecord
  deriving DecidableEq, Repr, Inhabited

/-- Skip blanks, tabs and line ends. -/
def skipSpace (cs : List Char) : List Char :=
  cs.dropWhile fun c => c = ' ' || c = '\t' || c = '\n' || c = '\r'

/-! ## Texts -/

/-- The value of a hexadecimal digit. -/
def hexValue? (c : Char) : Option Nat :=
  if c.isDigit then some (c.toNat - '0'.toNat)
  else if 'a' ≤ c ∧ c ≤ 'f' then some (c.toNat - 'a'.toNat + 10)
  else if 'A' ≤ c ∧ c ≤ 'F' then some (c.toNat - 'A'.toNat + 10)
  else none

/-- The number that four hexadecimal digits in front of a text stand for. -/
def hexCode? : List Char → Option (Nat × List Char)
  | a :: b :: c :: d :: rest => do
    let n := (← hexValue? a) * 4096 + (← hexValue? b) * 256 + (← hexValue? c) * 16 + (← hexValue? d)
    return (n, rest)
  | _ => none

/-- The code point after `\u`. -/
def unicodeEscape? (cs : List Char) : Option (CodePoint × List Char) := do
  let (high, rest) ← hexCode? cs
  if 0xd800 ≤ high ∧ high < 0xdc00 then
    match rest with
    | '\x5c' :: 'u' :: more =>
      match hexCode? more with
      | some (low, after) =>
        if 0xdc00 ≤ low ∧ low < 0xe000 then
          return (CodePoint.ofCode (0x10000 + (high - 0xd800) * 1024 + (low - 0xdc00)), after)
        else return (CodePoint.ofCode high, rest)
      | none => return (CodePoint.ofCode high, rest)
    | _ => return (CodePoint.ofCode high, rest)
  else return (CodePoint.ofCode high, rest)

/-- The code point after a backslash. -/
def escape? : List Char → Option (CodePoint × List Char)
  | '\x22' :: rest => some (.scalar '\x22', rest)
  | '\x5c' :: rest => some (.scalar '\x5c', rest)
  | '/' :: rest => some (.scalar '/', rest)
  | 'b' :: rest => some (.scalar '\x08', rest)
  | 'f' :: rest => some (.scalar '\x0c', rest)
  | 'n' :: rest => some (.scalar '\n', rest)
  | 'r' :: rest => some (.scalar '\r', rest)
  | 't' :: rest => some (.scalar '\t', rest)
  | 'u' :: rest => unicodeEscape? rest
  | _ => none

/-- The rest of a text up to the closing quote, of at most `n` characters; `done` holds the code
points before, last first. -/
def readPoints (done : Text) : Nat → List Char → Except ReadError (Text × List Char)
  | 0, _ => .error .malformed
  | n + 1, cs =>
    match cs with
    | [] => .error .malformed
    | '\x22' :: rest => .ok (done.reverse, rest)
    | '\x5c' :: rest =>
      match escape? rest with
      | some (p, rest) => readPoints (p :: done) n rest
      | none => .error .malformed
    | c :: rest =>
      if c.toNat < 0x20 then .error .malformed else readPoints (.scalar c :: done) n rest

/-- A text, after its opening quote. -/
def readText (cs : List Char) : Except ReadError (Text × List Char) :=
  readPoints [] (cs.length + 1) cs

/-! ## Numbers -/

/-- The digits in front of a text. -/
def takeDigits (cs : List Char) : List Nat × List Char :=
  ((cs.takeWhile Char.isDigit).map fun c => c.toNat - '0'.toNat, cs.dropWhile Char.isDigit)

/-- The digits after a point, if there is one with digits after it. -/
def fraction? : List Char → Option (List Nat × List Char)
  | '.' :: cs =>
    match takeDigits cs with
    | ([], _) => none
    | (ds, rest) => some (ds, rest)
  | _ => none

/-- The exponent, if there is one with digits. -/
def exponent? : List Char → Option (Int × List Char)
  | e :: cs =>
    if e = 'e' ∨ e = 'E' then
      let (negative, body) := match cs with
        | '-' :: r => (true, r)
        | '+' :: r => (false, r)
        | r => (false, r)
      match takeDigits body with
      | ([], _) => none
      | (ds, rest) =>
        let n : Int := Text.ofDigits ds
        some (if negative then -n else n, rest)
    else none
  | [] => none

/-- The whole part of a number: a zero alone, or digits that start with none. -/
def wholePart? : List Char → Option (List Nat × List Char)
  | '0' :: rest => some ([0], rest)
  | cs =>
    match takeDigits cs with
    | ([], _) => none
    | (ds, rest) => some (ds, rest)

/-- A number after its sign. -/
def readNumber (negative : Bool) (cs : List Char) : Except ReadError (Json × List Char) :=
  match wholePart? cs with
  | none => .error .malformed
  | some (whole, rest) =>
    let (places, hasPlaces, rest) := match fraction? rest with
      | some (ds, rest) => (ds, true, rest)
      | none => ([], false, rest)
    let (e, hasExponent, rest) := match exponent? rest with
      | some (e, rest) => (e, true, rest)
      | none => (0, false, rest)
    if hasPlaces || hasExponent then
      .ok (.real (.ofDecimal negative (Text.ofDigits (whole ++ places)) (e - places.length)), rest)
    else if Text.maxDigits < whole.length then .error (.tooLong whole.length)
    else
      let n : Int := Text.ofDigits whole
      .ok (.int (if negative then -n else n), rest)

/-- The text after a word that is in front of it. -/
def afterWord? (word : String) (cs : List Char) : Option (List Char) :=
  if word.toList.isPrefixOf cs then some (cs.drop word.length) else none

/-- The values that are written as words. -/
def words : List (String × Json) :=
  [("null", .null), ("true", .bool true), ("false", .bool false), ("NaN", .real .nan),
    ("Infinity", .real (.infinite false)), ("-Infinity", .real (.infinite true))]

/-- A value that is a word or a number. -/
def readScalar (cs : List Char) : Except ReadError (Json × List Char) :=
  match words.findSome? fun w => (afterWord? w.1 cs).map fun rest => (w.2, rest) with
  | some found => .ok found
  | none =>
    match cs with
    | '-' :: rest => readNumber true rest
    | rest => readNumber false rest

/-! ## Values -/

mutual

/-- A value in which at most `room` lists and records lie in one another. Every value and every
member of one takes a character at least, and `n` bounds their number. -/
def readValue (room : Nat) : Nat → List Char → Except ReadError (Json × List Char)
  | 0, _ => .error .malformed
  | n + 1, cs =>
    match cs with
    | '\x22' :: rest => do
      let (t, rest) ← readText rest
      return (.text t, rest)
    | '[' :: rest =>
      if room = 0 then .error .deepList
      else
        match skipSpace rest with
        | ']' :: rest => .ok (.list [], rest)
        | rest => do
          let (items, rest) ← readItems (room - 1) n rest
          return (.list items, rest)
    | '\x7b' :: rest =>
      if room = 0 then .error .deepRecord
      else
        match skipSpace rest with
        | '\x7d' :: rest => .ok (.record [], rest)
        | rest => do
          let (fields, rest) ← readFields (room - 1) n rest
          return (.record (Assoc.ofList fields).entries, rest)
    | cs => readScalar cs

def readItems (room : Nat) : Nat → List Char → Except ReadError (List Json × List Char)
  | 0, _ => .error .malformed
  | n + 1, cs => do
    let (j, rest) ← readValue room n cs
    match skipSpace rest with
    | ']' :: rest => return ([j], rest)
    | ',' :: rest => do
      let (items, rest) ← readItems room n (skipSpace rest)
      return (j :: items, rest)
    | _ => .error .malformed

def readFields (room : Nat) : Nat → List Char → Except ReadError (List (Text × Json) × List Char)
  | 0, _ => .error .malformed
  | n + 1, cs =>
    match cs with
    | '\x22' :: rest => do
      let (name, rest) ← readText rest
      match skipSpace rest with
      | ':' :: rest => do
        let (j, rest) ← readValue room n (skipSpace rest)
        match skipSpace rest with
        | '\x7d' :: rest => return ([(name, j)], rest)
        | ',' :: rest => do
          let (fields, rest) ← readFields room n (skipSpace rest)
          return ((name, j) :: fields, rest)
        | _ => .error .malformed
      | _ => .error .malformed
    | _ => .error .malformed

end

/-- The value that characters stand for as a whole, in which at most `room` lists and records lie in
one another. -/
def read (room : Nat) (cs : List Char) : Except ReadError Json := do
  let (j, rest) ← readValue room (2 * cs.length + 1) (skipSpace cs)
  if (skipSpace rest).isEmpty then return j else .error .malformed

end ConstFlow.Json
