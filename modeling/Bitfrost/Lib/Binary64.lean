import Mathlib

/-!
Two operations on `f64` that Lean's `Float` leaves without a logical model:
rounding to the nearest integer and the shortest decimal text.
-/

namespace Bitfrost.Lib.Binary64

/-- `f64::round`: nearest integer, halves away from zero. From `2 ^ 52` on every
finite value is an integer already. -/
def round (x : Float) : Float :=
  if x.isFinite && x.abs < 4503599627370496.0 then
    let whole := x.abs.toUInt64.toFloat
    let magnitude := if 0.5 ≤ x.abs - whole then whole + 1.0 else whole
    if x < 0.0 then -magnitude else magnitude
  else x

/-- `f64 as i64` for a value that is not negative: truncation, saturating at `i64::MAX`. -/
def toI64OfNonneg (x : Float) : Int := min x.toUInt64.toNat (2 ^ 63 - 1)

/-- The magnitude of a finite float as `m * 2 ^ e`. -/
def parts (x : Float) : Nat × Int :=
  let bits : Nat := x.toBits.toNat
  let e : Nat := bits / 2 ^ 52 % 2 ^ 11
  let m := bits % 2 ^ 52
  if e = 0 then (m, -1074) else (2 ^ 52 + m, Int.ofNat e - 1075)

/-- `⌊m * 2 ^ e / 10 ^ p⌋`. -/
def leading (m : Nat) (e p : Int) : Nat :=
  m * 2 ^ e.toNat * 10 ^ (-p).toNat / (2 ^ (-e).toNat * 10 ^ p.toNat)

/-- The float nearest `c * 10 ^ p`. -/
def ofDecimal (c : Nat) (p : Int) : Float :=
  if 0 ≤ p then Float.ofScientific c false p.toNat else Float.ofScientific c true (-p).toNat

/-- The shortest decimal `c * 10 ^ p` that reads back as `x`, the closest one if there are two. -/
def shortest (x : Float) : Nat × Int :=
  let (m, e) := parts x
  let candidate (i : Nat) : Option (Nat × Int) :=
    let p : Int := 309 - i
    let c := leading m e p
    let low := ofDecimal c p == x.abs
    let high := ofDecimal (c + 1) p == x.abs
    let lowIsCloser := leading (2 * m) e p ≤ 2 * c
    if low && (!high || lowIsCloser) then some (c, p)
    else if high then some (c + 1, p)
    else none
  ((List.range 640).findSome? candidate).getD (m, e)

/-- `f64` as `{}` prints it: shortest round trip, never an exponent. -/
def display (x : Float) : String :=
  if x.isNaN then "NaN"
  else
    let sign := if x.toBits.toNat / 2 ^ 63 = 1 then "-" else ""
    if x.isInf then sign ++ "inf"
    else if x == 0.0 then sign ++ "0"
    else
      let (c, p) := shortest x
      let digits := toString c
      if 0 ≤ p then sign ++ digits ++ String.ofList (List.replicate p.toNat '0')
      else
        let padded := List.replicate ((-p).toNat + 1 - digits.length) '0' ++ digits.toList
        let whole := padded.length - (-p).toNat
        sign ++ String.ofList (padded.take whole) ++ "." ++ String.ofList (padded.drop whole)

end Bitfrost.Lib.Binary64
