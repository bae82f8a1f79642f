/-!
# Double-precision numbers as decimals

Fractional numbers are read to the nearest double-precision value and shown with the fewest digits
that read back as the same value. Both directions are exact arithmetic on naturals: a finite value
is `mantissa * 2 ^ exponent`, and it owns the interval of reals that are nearer to it than to any
other value.
-/

namespace ConstFlow

/-- A double-precision value. A finite one has its exponent at least `-1074`, and its mantissa
between `2 ^ 52` and `2 ^ 53` unless the exponent is `-1074`. -/
inductive Binary64 where
  | nan
  | infinite (negative : Bool)
  | finite (negative : Bool) (mantissa : Nat) (exponent : Int)
  deriving DecidableEq, Repr, Inhabited

namespace Binary64

/-- A power of two. -/
def twoTo (n : Nat) : Nat := Nat.pow 2 n

/-- A power of ten. -/
def tenTo (n : Nat) : Nat := Nat.pow 10 n

/-- The quotient to the nearest natural, a half to the even neighbour. -/
def roundDiv (num den : Nat) : Nat :=
  let q := num / den
  let twice := 2 * (num % den)
  if twice < den then q else if den < twice then q + 1 else if q % 2 = 0 then q else q + 1

/-- `num / den / 2 ^ q` as a fraction of naturals. -/
def shifted (num den : Nat) (q : Int) : Nat × Nat :=
  if 0 ≤ q then (num, den * twoTo q.toNat) else (num * twoTo (-q).toNat, den)

/-- The value nearest to the fraction `num / den`, which is not zero. -/
def nearest (negative : Bool) (num den : Nat) : Binary64 :=
  let low := (num.log2 : Int) - den.log2 - 53
  let (a, b) := shifted num den low
  let q := max (if twoTo 53 ≤ a / b then low + 1 else low) (-1074)
  let (a, b) := shifted num den q
  let m := roundDiv a b
  let (m, q) := if m = twoTo 53 then (twoTo 52, q + 1) else (m, q)
  if 971 < q then .infinite negative else .finite negative m q

/-- The value nearest to `n * 10 ^ e`. Far outside the range it is not computed but known. -/
def ofDecimal (negative : Bool) (n : Nat) (e : Int) : Binary64 :=
  let size : Int := (Nat.toDigits 10 n).length
  if n = 0 ∨ size + e < -330 then .finite negative 0 (-1074)
  else if 310 < size + e then .infinite negative
  else if 0 ≤ e then nearest negative (n * tenTo e.toNat) 1
  else nearest negative n (tenTo (-e).toNat)

/-! ## The fewest digits -/

/-- Whether `a * 10 ^ t` is at most `b / den`. -/
def decimalLe (a : Nat) (t : Int) (b den : Nat) : Bool :=
  if 0 ≤ t then a * tenTo t.toNat * den ≤ b else a * den ≤ b * tenTo (-t).toNat

/-- Whether `b / den` is at most `a * 10 ^ t`. -/
def leDecimal (b den a : Nat) (t : Int) : Bool :=
  if 0 ≤ t then b ≤ a * tenTo t.toNat * den else b * tenTo (-t).toNat ≤ a * den

/-- The fraction `b / den` divided by `10 ^ t`, rounded down. -/
def decimalFloor (b den : Nat) (t : Int) : Nat :=
  if 0 ≤ t then b / (tenTo t.toNat * den) else b * tenTo (-t).toNat / den

/-- The greatest `t` with `10 ^ t ≤ b / den`, searched down from `t` for at most `n` steps. -/
def magnitude (b den : Nat) (t : Int) : Nat → Int
  | 0 => t
  | n + 1 => if decimalLe 1 t b den then t else magnitude b den (t - 1) n

/-- Remove zeros at the end of a decimal. -/
def trimZeros (d : Nat) (t : Int) : Nat → Nat × Int
  | 0 => (d, t)
  | n + 1 => if d % 10 = 0 ∧ d ≠ 0 then trimZeros (d / 10) (t + 1) n else (d, t)

/-- The decimal `d * 10 ^ t` with the fewest digits that reads back as `m * 2 ^ q`, and of those the
nearest. Everything is counted in quarters of the distance between neighbouring values; `count`
is the number of digits to try first, `n` how many more may be tried. -/
def shortestFrom (m : Nat) (q : Int) (count : Nat) : Nat → Nat × Int
  | 0 => (m, q)
  | n + 1 =>
    let (unit, den) := if 0 ≤ q then (twoTo q.toNat, 4) else (1, 4 * twoTo (-q).toNat)
    let v := 4 * m * unit
    let below := if m = twoTo 52 ∧ -1074 < q then v - unit else v - 2 * unit
    let above := v + 2 * unit
    let inside := fun d t =>
      if m % 2 = 0 then leDecimal below den d t && decimalLe d t above den
      else !decimalLe d t below den && !leDecimal above den d t
    let t := magnitude v den 310 640 - (count - 1 : Nat)
    let d := decimalFloor v den t
    -- twice the value compared with the sum of its two neighbours on the grid
    let nearerLow := !decimalLe (2 * d + 1) t (2 * v) den
    let nearerHigh := !leDecimal (2 * v) den (2 * d + 1) t
    let pick :=
      if inside d t && inside (d + 1) t then
        if nearerLow then some d else if nearerHigh then some (d + 1)
        else some (if d % 2 = 0 then d else d + 1)
      else if inside d t then some d
      else if inside (d + 1) t then some (d + 1)
      else none
    match pick with
    | some d => trimZeros d t 400
    | none => shortestFrom m q (count + 1) n

/-! ## Text -/

/-- The digits `ds` with the point after the first `point` of them: positional for magnitudes from
`10 ^ -4` up to `10 ^ 16`, with an exponent of at least two digits otherwise. -/
def layout (ds : List Char) (point : Int) : List Char :=
  if -4 < point ∧ point ≤ 16 then
    if point ≤ 0 then '0' :: '.' :: List.replicate (-point).toNat '0' ++ ds
    else
      let k := point.toNat
      if ds.length ≤ k then ds ++ List.replicate (k - ds.length) '0' ++ ['.', '0']
      else ds.take k ++ '.' :: ds.drop k
  else
    let e := point - 1
    let digits := Nat.toDigits 10 e.natAbs
    let padded := if digits.length < 2 then '0' :: digits else digits
    let lead := if ds.length ≤ 1 then ds else ds.take 1 ++ '.' :: ds.drop 1
    lead ++ 'e' :: (if e < 0 then '-' else '+') :: padded

/-- A value as text. -/
def text : Binary64 → String
  | nan => "nan"
  | infinite negative => if negative then "-inf" else "inf"
  | finite negative m q =>
    let sign := if negative then ['-'] else []
    if m = 0 then String.ofList (sign ++ ['0', '.', '0'])
    else
      let (d, t) := shortestFrom m q 1 17
      let ds := Nat.toDigits 10 d
      String.ofList (sign ++ layout ds (ds.length + t))

end Binary64

end ConstFlow
