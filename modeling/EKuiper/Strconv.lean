import Mathlib.Data.String.Basic

/-!
# The `%v` text of a `float64`

`fmt.Sprintf("%v", f)` prints a `float64` as `strconv.FormatFloat(f, 'g', -1, 64)`: the
shortest decimal that reads back as `f`, written in `%e` form when its exponent is below `-4`
or at least `6` and in `%f` form otherwise; `NaN`, `+Inf`, `-Inf`, `0` and `-0` are spelled
out. This module follows `genericFtoa` of `strconv/ftoa.go` on that path: the bits are split
into Go's `mant` and `exp` (`mant · 2^(exp - 52)`, with the implicit bit added to a normal
number), the exact decimal of that value is rounded to the fewest digits that stay strictly
between the neighbouring floats' midpoints (`roundShortest`; the midpoints themselves count
when `mant` is even, as round-half-even reads them back), and `formatDigits` lays the digits
out.

The digit work is exact natural-number arithmetic, so it evaluates in proofs
(`formatFloat64`); only the split of a Lean `Float` into `mant` and `exp` (`formatFloat`)
goes through the runtime's `frexp` and `scalbn`. The candidates and bounds are compared by
moving powers of `2` and `10` to one side (`cmpScaled`).
-/

namespace EKuiper

namespace Strconv

/-- A decimal `0.d₀d₁…dₙ₋₁ · 10^dp`, as Go's `decimalSlice`: the digits carry no trailing
zero and the empty list is zero. -/
structure Decimal where
  digits : List Nat
  dp : Int
  deriving DecidableEq, Repr

/-- The decimal digits of `n`, most significant first; none for `0`. -/
def natDigits (n : Nat) : List Nat :=
  if n = 0 then [] else (Nat.toDigits 10 n).map fun c => c.toNat - 48

/-- `trim`: drop trailing zeros. -/
def trimZeros (ds : List Nat) : List Nat :=
  (ds.reverse.dropWhile (· = 0)).reverse

/-- The number the digits spell. -/
def digitsValue (ds : List Nat) : Nat :=
  ds.foldl (fun a d => 10 * a + d) 0

/-- The exact decimal of `mant · 2^e2`, what `d.Assign(mant); d.Shift(e2)` computes: for a
negative `e2` it is `mant · 5^(-e2)` with the point moved `-e2` places. -/
def exactDecimal (mant : Nat) (e2 : Int) : Decimal :=
  let ds := natDigits (mant * 2 ^ e2.toNat * 5 ^ (-e2).toNat)
  ⟨trimZeros ds, (ds.length : Int) - ((-e2).toNat : Int)⟩

/-- The order of `a · 10^p` and `b · 2^q`, compared exactly on natural numbers. -/
def cmpScaled (a : Nat) (p : Int) (b : Nat) (q : Int) : Ordering :=
  compare (a * 10 ^ p.toNat * 2 ^ (-q).toNat) (b * 2 ^ q.toNat * 10 ^ (-p).toNat)

/-! ### Rounding to the shortest digits -/

/-- `d.RoundDown(n)`: keep the first `n` digits. -/
def roundDown (d : Decimal) (n : Nat) : Decimal :=
  if n < d.digits.length then ⟨trimZeros (d.digits.take n), d.dp⟩ else d

/-- One unit added to the last of the reversed digits, carrying over nines and dropping them;
`none` when every digit is `9`. -/
def incrReversed : List Nat → Option (List Nat)
  | [] => none
  | x :: xs => if x < 9 then some ((x + 1) :: xs) else incrReversed xs

/-- `d.RoundUp(n)`: the first `n` digits plus one unit in the last of them; all nines become a
single `1` one place further left. -/
def roundUp (d : Decimal) (n : Nat) : Decimal :=
  if n < d.digits.length then
    match incrReversed (d.digits.take n).reverse with
    | some ds => ⟨ds.reverse, d.dp⟩
    | none => ⟨[1], d.dp + 1⟩
  else d

/-- `shouldRoundUp(d, n)`: the dropped digits are more than half a unit, or exactly half with
an odd last kept digit. -/
def shouldRoundUp (d : Decimal) (n : Nat) : Bool :=
  if d.digits.getD n 0 = 5 ∧ n + 1 = d.digits.length then
    0 < n ∧ d.digits.getD (n - 1) 0 % 2 = 1
  else 5 ≤ d.digits.getD n 0

/-- `d.Round(n)`: to the nearest, ties to even. -/
def round (d : Decimal) (n : Nat) : Decimal :=
  if n < d.digits.length then
    if shouldRoundUp d n then roundUp d n else roundDown d n
  else d

/-- `roundShortest(d, mant, exp, &float64info)`: the fewest leading digits of the exact decimal
`d` of `mant · 2^(exp - 52)`, rounded down or up, that stay within the midpoints to the
neighbouring floats, inclusive when `mant` is even; the nearest of the two when both do. -/
def roundShortest (mant : Nat) (exp : Int) (d : Decimal) : Decimal :=
  if mant = 0 then ⟨[], 0⟩
  else
    let lo : Nat × Int :=
      if mant > 2 ^ 52 ∨ exp = -1022 then (mant - 1, exp) else (2 * mant - 1, exp - 1)
    let inclusive := mant % 2 = 0
    let okDown (n : Nat) : Bool :=
      let c := cmpScaled (digitsValue (d.digits.take n)) (d.dp - n) (2 * lo.1 + 1) (lo.2 - 53)
      c = .gt ∨ (inclusive ∧ c = .eq)
    let okUp (n : Nat) : Bool :=
      let c := cmpScaled (digitsValue (d.digits.take n) + 1) (d.dp - n) (2 * mant + 1) (exp - 53)
      c = .lt ∨ (inclusive ∧ c = .eq)
    match (List.range (d.digits.length + 1)).find? fun n => okDown n || okUp n with
    | some n =>
      if okDown n ∧ okUp n then round d n
      else if okDown n then roundDown d n
      else roundUp d n
    | none => d

/-! ### Laying the digits out -/

/-- A digit as its character. -/
def digitChar (x : Nat) : Char :=
  Char.ofNat (48 + x)

/-- `fmtE(d, prec)`: `d.ddd…e±dd` with `prec` digits after the point. -/
def fmtE (d : Decimal) (prec : Nat) : String :=
  let first := digitChar (d.digits.headD 0)
  let frac := if prec > 0 then
      "." ++ String.mk ((List.range prec).map fun i => digitChar (d.digits.getD (i + 1) 0))
    else ""
  let x : Int := if d.digits = [] then 0 else d.dp - 1
  let expDigits := (toString x.natAbs).data
  first.toString ++ frac ++ "e" ++ (if x < 0 then "-" else "+") ++
    String.mk (if x.natAbs < 10 then '0' :: expDigits else expDigits)

/-- `fmtF(d, prec)`: the integer part, zero-padded to the point, and `prec` digits after it. -/
def fmtF (d : Decimal) (prec : Nat) : String :=
  let int := if 0 < d.dp then
      String.mk ((List.range d.dp.toNat).map fun i => digitChar (d.digits.getD i 0))
    else "0"
  let frac := if prec > 0 then
      "." ++ String.mk ((List.range prec).map fun i =>
        let j := d.dp + i
        digitChar (if 0 ≤ j then d.digits.getD j.toNat 0 else 0))
    else ""
  int ++ frac

/-- `formatDigits` for `%g` at the shortest precision: `%e` when the exponent is below `-4` or
at least `6`, `%f` otherwise, each with exactly the digits of `d`. -/
def formatDigits (d : Decimal) : String :=
  let x := d.dp - 1
  if x < -4 ∨ 6 ≤ x then fmtE d (d.digits.length - 1)
  else fmtF d (d.digits.length - d.dp).toNat

/-- The text of the magnitude `mant · 2^(exp - 52)`, `mant > 0`, in Go's split of a finite
`float64`: `mant < 2^53`, and `exp ≥ -1022` with `mant < 2^52` only at `exp = -1022`. -/
def formatFloat64 (mant : Nat) (exp : Int) : String :=
  formatDigits (roundShortest mant exp (exactDecimal mant (exp - 52)))

example : formatFloat64 (2 ^ 52) 0 = "1" := by decide
example : formatFloat64 (5 * 2 ^ 50) 1 = "2.5" := by decide
example : formatFloat64 7205759403792794 (-4) = "0.1" := by decide
example : formatFloat64 (1000000 * 2 ^ 33) 19 = "1e+06" := by decide

/-- `strconv.FormatFloat(f, 'g', -1, 64)`, the `%v` text of a `float64`. A finite non-zero
`f` is `m · 2^e` with `1/2 ≤ |m| < 1` (`frexp`), so `|f| = M · 2^(e - 53)` with
`M = |m| · 2^53` an integer; Go's `exp` is `e - 1`, and below `-1022` the value is subnormal
and `mant` is `M` shifted to `exp = -1022`. -/
def formatFloat (f : Float) : String :=
  if f.isNaN then "NaN"
  else if f.isInf then (if f < 0 then "-Inf" else "+Inf")
  else
    let sign := if f < 0 ∨ ((f == 0) = true ∧ 1 / f < 0) then "-" else ""
    if f == 0 then sign ++ "0"
    else
      let (m, e) := f.abs.frExp
      let M := (m.scaleB 53).toUInt64.toNat
      let (mant, exp) := if e - 1 < -1022 then (M >>> (-1021 - e).toNat, (-1022 : Int))
        else (M, e - 1)
      sign ++ formatFloat64 mant exp

end Strconv

end EKuiper
