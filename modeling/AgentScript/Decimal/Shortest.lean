/-!
The shortest decimal that reads back as a given binary32 value. A value is `mantissa * 2 ^ exponent`;
the decimals that round to it form an interval, and the answer is the coarsest decimal grid with a
point in that interval, and on it the point nearest to the value. All arithmetic is exact.
-/
namespace AgentScript.Decimal

/-- A positive binary value. `narrow` marks the least mantissa of a binade, below which the values
lie twice as close. -/
structure Binary where
  mantissa : Nat
  exponent : Int
  narrow : Bool

/-- The number `digits * 10 ^ exponent`. -/
structure Scaled where
  digits : Nat
  exponent : Int

/-- Which of two equally near points is taken. -/
inductive Tie where
  | upward
  | toEven

namespace Binary

/-- `mantissa * 2 ^ exponent` in units of `10 ^ place`, as numerator and denominator, with the
numerator counting quarters of a unit in the last binary place. -/
def quarterUnit (b : Binary) (place : Int) : Nat × Nat :=
  let two := b.exponent - 2
  (Nat.pow 2 two.toNat * Nat.pow 10 (-place).toNat, Nat.pow 10 place.toNat * Nat.pow 2 (-two).toNat)

/-- The value in quarters of its last binary place. -/
def quarters (b : Binary) : Nat := 4 * b.mantissa

def lowQuarters (b : Binary) : Nat := b.quarters - if b.narrow then 1 else 2

def highQuarters (b : Binary) : Nat := b.quarters + 2

/-- Whether `point * 10 ^ place` reads back as the value. The ends of the interval belong to the
value with the even mantissa. -/
def readsBack (b : Binary) (place : Int) (point : Nat) : Bool :=
  let (num, den) := b.quarterUnit place
  let low := b.lowQuarters * num
  let high := b.highQuarters * num
  let x := point * den
  if b.mantissa % 2 = 0 then low ≤ x ∧ x ≤ high else low < x ∧ x < high

def floor (b : Binary) (place : Int) : Nat :=
  let (num, den) := b.quarterUnit place
  b.quarters * num / den

/-- Whether the point above `floor` is taken when both read back. -/
def roundsUp (b : Binary) (place : Int) (tie : Tie) : Bool :=
  let (num, den) := b.quarterUnit place
  let below := b.floor place
  let rest := 2 * (b.quarters * num - below * den)
  if rest = den then
    match tie with
    | .upward => true
    | .toEven => below % 2 = 1
  else den < rest

/-- The point of the grid `10 ^ place` that stands for the value, if one reads back as it. -/
def onGrid? (b : Binary) (tie : Tie) (place : Int) : Option Nat :=
  let below := b.floor place
  match b.readsBack place below, b.readsBack place (below + 1) with
  | true, true => some (if b.roundsUp place tie then below + 1 else below)
  | true, false => some below
  | false, true => some (below + 1)
  | false, false => none

/-- The first of `steps` places from `place` downwards whose grid has a point. -/
def search (b : Binary) (tie : Tie) : (steps : Nat) → (place : Int) → Scaled
  | 0, place => ⟨b.floor place, place⟩
  | steps + 1, place =>
    match b.onGrid? tie place with
    | some point => ⟨point, place⟩
    | none => b.search tie steps (place - 1)

/-- The place of the first decimal digit, searched from above. -/
def leadingPlace (b : Binary) : (steps : Nat) → (place : Int) → Int
  | 0, place => place
  | steps + 1, place => if b.floor place = 0 then b.leadingPlace steps (place - 1) else place

end Binary

def Scaled.trim : (steps : Nat) → Scaled → Scaled
  | 0, s => s
  | steps + 1, s =>
    if s.digits % 10 = 0 then Scaled.trim steps ⟨s.digits / 10, s.exponent + 1⟩ else s

/-- Binary32 values lie below `10 ^ 39` and at or above `10 ^ -46`, and nine digits tell any two
apart. -/
def Binary.shortest (b : Binary) (tie : Tie) : Scaled :=
  Scaled.trim 9 (b.search tie 12 (b.leadingPlace 90 39))

end AgentScript.Decimal
