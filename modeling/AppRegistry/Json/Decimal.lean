/-!
# Decimal fractions of double precision

A number that is not a 64-bit integer is kept as a double, held here by the decimal with the fewest
digits that is nearer to it than to any other double. `Decimal.ofParts?` computes what was written
in double arithmetic, with one rounding for the digits and one for the power of ten, and finds that
decimal; `Decimal.text` writes it, positionally for exponents near zero and with an exponent
otherwise.
-/

namespace AppRegistry

/-! ## Doubles -/

/-- The quotient rounded to the nearest integer, a half to the even one. -/
def roundDiv (n d : Nat) : Nat :=
  let q := n / d
  let r := n % d
  if 2 * r < d then q else if d < 2 * r then q + 1 else q + q % 2

/-- A positive double: `significand * 2 ^ exponent`. -/
structure Binary where
  significand : Nat
  exponent : Int
deriving DecidableEq, Repr

namespace Binary

/-- The least significand of 53 bits. -/
def leastFull : Nat := 4503599627370496

/-- `base ^ e` as a fraction. -/
def power (base : Nat) (e : Int) : Nat × Nat := (base.pow e.toNat, base.pow (-e).toNat)

/-- The double nearest to `n / d`, unless it is too large. The significand has 53 bits where the
exponent allows it. -/
def nearest? (n d : Nat) : Option Binary :=
  let low := max ((n.log2 : Int) - d.log2 - 54) (-1074)
  let rounded (q : Int) : Nat := roundDiv (n * (power 2 q).2) (d * (power 2 q).1)
  match [low, low + 1, low + 2, low + 3].find? (fun q => rounded q ≤ 2 * leastFull) with
  | none => none
  | some q =>
    let b : Binary := if rounded q = 2 * leastFull then ⟨leastFull, q + 1⟩ else ⟨rounded q, q⟩
    if 971 < b.exponent then none else some b

/-- A double as a fraction. -/
def ratio (b : Binary) : Nat × Nat :=
  let (n, d) := power 2 b.exponent
  (b.significand * n, d)

/-- The product of two doubles. -/
def times? (a b : Binary) : Option Binary :=
  nearest? (a.ratio.1 * b.ratio.1) (a.ratio.2 * b.ratio.2)

/-- The quotient of two doubles. -/
def quotient? (a b : Binary) : Option Binary :=
  nearest? (a.ratio.1 * b.ratio.2) (a.ratio.2 * b.ratio.1)

/-- The exponent of the greatest power of ten that a double reaches. -/
def greatestTen : Nat := 308

/-- A power of ten as a double. -/
def tenTo? (k : Nat) : Option Binary := nearest? (Nat.pow 10 k) 1

/-- A double divided by a power of ten, in steps as large as a double allows. -/
def shrink? (b : Binary) (k : Nat) : Option Binary :=
  if k ≤ greatestTen then do b.quotient? (← tenTo? k)
  else if b.significand = 0 then some b
  else do (← b.quotient? (← tenTo? greatestTen)).shrink? (k - greatestTen)
termination_by k
decreasing_by unfold greatestTen; omega

/-- `n * 10 ^ e` in double arithmetic, unless it is too large. -/
def scaled? (n : Nat) (e : Int) : Option Binary := do
  let b ← nearest? n 1
  if b.significand = 0 then some b
  else if e < 0 then b.shrink? (-e).toNat
  else if greatestTen < e then none
  else b.times? (← tenTo? e.toNat)

/-- The decimal with the fewest digits that is nearer to this double than to any other, as digits
and a power of ten. -/
def shortest (b : Binary) : Nat × Int :=
  let m := b.significand
  -- Everything is counted in quarters of the last place.
  let value := 4 * m
  let high := value + 2
  let low := if m = leastFull ∧ -1074 < b.exponent then value - 1 else value - 2
  let (up, down) := power 2 (b.exponent - 2)
  let inside (x y : Nat) : Bool := if m % 2 = 0 then x ≤ y else x < y
  let top := ((m.log2 : Int) + b.exponent + 1) * 30103 / 100000 + 1
  let hit (i : Nat) : Option (Nat × Int) :=
    let p := top - i
    let (tens, tenths) := power 10 p
    let a := tens * down
    let s := tenths * up
    let c := value * s / a
    let fits (c : Nat) : Bool := inside (low * s) (c * a) && inside (c * a) (high * s)
    match fits c, fits (c + 1) with
    | true, true =>
      let middle := (2 * c + 1) * a
      if 2 * value * s < middle then some (c, p)
      else if middle < 2 * value * s then some (c + 1, p)
      else some (c + c % 2, p)
    | true, false => some (c, p)
    | false, true => some (c + 1, p)
    | false, false => none
  ((List.range 24).findSome? hit).getD (0, 0)

end Binary

/-! ## Decimals -/

/-- `digits * 10 ^ exponent`, with a sign that zero has too. -/
structure Decimal where
  negative : Bool
  digits : Nat
  exponent : Int
deriving DecidableEq, Repr

namespace Decimal

/-- The double that the parts of a written number make, by its shortest decimal. A number too large
for a double has none. -/
def ofParts? (negative : Bool) (digits : Nat) (exponent : Int) : Option Decimal :=
  (Binary.scaled? digits exponent).map fun b =>
    if b.significand = 0 then ⟨negative, 0, 0⟩ else ⟨negative, b.shortest.1, b.shortest.2⟩

/-- The written form. The point stands inside the digits or next to them up to sixteen places, and
at most four zeros follow it before the first digit; other numbers have an exponent, always with a
sign. -/
def text (d : Decimal) : String :=
  let sign := if d.negative then "-" else ""
  let ds := Nat.toDigits 10 d.digits
  let point : Int := ds.length + d.exponent
  let body : List Char :=
    if d.digits = 0 then ['0', '.', '0']
    else if 0 ≤ d.exponent ∧ point ≤ 16 then
      ds ++ List.replicate d.exponent.toNat '0' ++ ['.', '0']
    else if 0 < point ∧ point ≤ 16 then ds.take point.toNat ++ '.' :: ds.drop point.toNat
    else if -5 < point ∧ point ≤ 0 then
      '0' :: '.' :: List.replicate (-point).toNat '0' ++ ds
    else
      (if ds.length = 1 then ds else ds.take 1 ++ '.' :: ds.drop 1) ++
        'e' :: (if 0 < point then '+' else '-') :: Nat.toDigits 10 (point - 1).natAbs
  sign ++ String.ofList body

end Decimal

end AppRegistry
