/-!
# Abstract values

What is known of a variable at a point: nothing has been seen (`unset`), every value seen is the
same constant, or the value is not a constant (`nac`). The order goes up from `unset` through the
constants to `nac`, and `meet` is the least upper bound in it.
-/

namespace ConstFlow

/-- An element of the flat lattice of constants. -/
inductive Value where
  | unset
  | const (c : Int)
  | nac
  deriving DecidableEq, Repr, Inhabited

namespace Value

/-- The combination of what two paths know. -/
def meet : Value → Value → Value
  | nac, _ => nac
  | _, nac => nac
  | unset, v => v
  | v, unset => v
  | const a, const b => if a = b then const a else nac

/-- Whether the first value is below the second. -/
def leq : Value → Value → Bool
  | unset, _ => true
  | _, nac => true
  | nac, _ => false
  | _, unset => false
  | const a, const b => a = b

@[simp] theorem unset_meet (v : Value) : unset.meet v = v := by cases v <;> rfl

@[simp] theorem meet_unset (v : Value) : v.meet unset = v := by cases v <;> rfl

@[simp] theorem nac_meet (v : Value) : nac.meet v = nac := by cases v <;> rfl

@[simp] theorem meet_nac (v : Value) : v.meet nac = nac := by cases v <;> rfl

/-- The constant, if the value is one. -/
def constant? : Value → Option Int
  | const c => some c
  | _ => none

/-- A value as facts show it. -/
def text : Value → String
  | unset => "UNDEF"
  | const c => toString c
  | nac => "NAC"

end Value

end ConstFlow
