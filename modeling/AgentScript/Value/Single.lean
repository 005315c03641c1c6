import AgentScript.Decimal.Shortest
import AgentScript.Text

/-!
Single precision numbers as text. Scripts have no exponents: a number with no fraction is written
with all its digits and `.0`, any other as its shortest decimal. Unit files have exponents for very
small and very large numbers, and no form for a value that is not finite.
-/
namespace AgentScript.Single

open Decimal

/-- The single that is nearest to an integer, the even one of two. -/
def ofInt (v : Int32) : Float32 := .ofModel (.ofInt32 v)

/-- What the bits of a single stand for. -/
inductive Shape where
  | finite (negative : Bool) (magnitude : Option Binary)
  | infinite (negative : Bool)
  | notANumber

/-- A finite value has no magnitude when it is zero. -/
def shape (bits : UInt32) : Shape :=
  let n := bits.toNat
  let negative : Bool := Nat.pow 2 31 ≤ n
  let exponent : Nat := n / Nat.pow 2 23 % Nat.pow 2 8
  let fraction : Nat := n % Nat.pow 2 23
  if exponent = 255 then
    if fraction = 0 then .infinite negative else .notANumber
  else if exponent = 0 then
    .finite negative (if fraction = 0 then none else some ⟨fraction, -149, false⟩)
  else
    .finite negative (some ⟨Nat.pow 2 23 + fraction, (exponent : Int) - 150, fraction = 0 ∧ 1 < exponent⟩)

/-- The whole number that a binary value is, if it is one. -/
def whole? (b : Binary) : Option Nat :=
  if 0 ≤ b.exponent then some (b.mantissa * Nat.pow 2 b.exponent.toNat)
  else
    let unit := Nat.pow 2 (-b.exponent).toNat
    if b.mantissa % unit = 0 then some (b.mantissa / unit) else none

def zeros (n : Nat) : String := String.ofList (List.replicate n '0')

/-- `digits * 10 ^ exponent` without an exponent; a whole number has no point. -/
def positional (s : Scaled) : String :=
  let digits := Text.nat s.digits
  if 0 ≤ s.exponent then digits ++ zeros s.exponent.toNat
  else
    let places := (-s.exponent).toNat
    if digits.length ≤ places then "0." ++ zeros (places - digits.length) ++ digits
    else
      let cs := digits.toList
      String.ofList (cs.take (cs.length - places)) ++ "." ++
        String.ofList (cs.drop (cs.length - places))

/-- `digits * 10 ^ exponent` with one digit before the point and a signed exponent. -/
def scientific (s : Scaled) : String :=
  let cs := (Text.nat s.digits).toList
  let first := s.exponent + cs.length - 1
  let mantissa := match cs with
    | [] => ""
    | [c] => String.ofList [c]
    | c :: rest => String.ofList (c :: '.' :: rest)
  mantissa ++ "e" ++ (if 0 ≤ first then "+" else "") ++ Text.int first

def sign (negative : Bool) : String := if negative then "-" else ""

/-- A number in a script. The point is always written, so that it is read as a float. -/
def scriptText (v : Float32) : String :=
  match shape v.toBits with
  | .notANumber => "NaN"
  | .infinite negative => sign negative ++ "inf"
  | .finite negative none => sign negative ++ "0.0"
  | .finite negative (some b) =>
    sign negative ++ match whole? b with
      | some n => Text.nat n ++ ".0"
      | none => positional (b.shortest .upward)

/-- Decimal exponents from -6 to 12 are written out in a unit file. -/
def writtenOut (s : Scaled) : Bool :=
  let first := s.exponent + (Text.nat s.digits).length - 1
  decide (-6 ≤ first) && decide (first ≤ 12)

/-- A number in a unit file, if it is finite. -/
def fileText? (v : Float32) : Option String :=
  match shape v.toBits with
  | .notANumber | .infinite _ => none
  | .finite negative none => some (sign negative ++ "0.0")
  | .finite negative (some b) =>
    let s := b.shortest .toEven
    let text := if writtenOut s then
        (if 0 ≤ s.exponent then positional s ++ ".0" else positional s)
      else scientific s
    some (sign negative ++ text)

end AgentScript.Single
