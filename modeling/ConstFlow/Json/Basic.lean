import ConstFlow.Decimal.Binary64
import ConstFlow.Text.Number
import ConstFlow.Text.Quoted

/-!
# JSON values

Values of configurations and reports. A record keeps its fields in order, and its names are
distinct when it was read. Whole numbers and fractional ones are different things, even when they
are equal.
-/

namespace ConstFlow

/-- A JSON value. -/
inductive Json where
  | null
  | bool (b : Bool)
  | int (i : Int)
  | real (x : Binary64)
  | text (t : Text)
  | list (items : List Json)
  | record (fields : List (Text × Json))
  deriving Inhabited

namespace Json

/-- The value of a field. -/
def get? (j : Json) (name : Text) : Option Json :=
  match j with
  | record fields => fields.lookup name
  | _ => none

/-! ## In messages -/

mutual

/-- A value as messages show it. -/
def shown : Json → String
  | null => "None"
  | bool true => "True"
  | bool false => "False"
  | int i => toString i
  | real x => x.text
  | text t => Text.quote t
  | list items => "[" ++ ", ".intercalate (shownItems items) ++ "]"
  | record fields => "\x7b" ++ ", ".intercalate (shownFields fields) ++ "\x7d"

def shownItems : List Json → List String
  | [] => []
  | j :: rest => j.shown :: shownItems rest

def shownFields : List (Text × Json) → List String
  | [] => []
  | (name, j) :: rest => (Text.quote name ++ ": " ++ j.shown) :: shownFields rest

end

/-- A value where a text is wanted: a text as it is, any other value as messages show it. -/
def asText : Json → Text
  | text t => t
  | j => j.shown

/-! ## What cannot be shown -/

/-- Why a value cannot be shown. -/
inductive ShowError where
  /-- A whole number has too many digits. -/
  | tooLong
  /-- Values lie too deep in one another. -/
  | tooDeep
  deriving DecidableEq, Repr, Inhabited

mutual

/-- What keeps a value from being shown, if there is room for so many values in one another. -/
def showError? : Nat → Json → Option ShowError
  | 0, _ => some .tooDeep
  | _ + 1, int i =>
    if Text.maxDigits < (Nat.toDigits 10 i.natAbs).length then some .tooLong else none
  | room + 1, list items => itemsError? room items
  | room + 1, record fields => fieldsError? room fields
  | _ + 1, _ => none

def itemsError? (room : Nat) : List Json → Option ShowError
  | [] => none
  | j :: rest => (showError? room j).or (itemsError? room rest)

def fieldsError? (room : Nat) : List (Text × Json) → Option ShowError
  | [] => none
  | (_, j) :: rest => (showError? room j).or (fieldsError? room rest)

end

/-- A value where a text is wanted, unless it would have to be shown and cannot be. -/
def text? (room : Nat) : Json → Except ShowError Text
  | text t => .ok t
  | j =>
    match j.showError? room with
    | some e => .error e
    | none => .ok j.shown

end Json

end ConstFlow
