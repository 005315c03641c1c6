import AgentScript.Json.Parse

/-!
The numbers that number tokens denote. A whole number is exact. Any other number is read in double
precision from as many leading digits as fit into 64 bits and one power of ten, and is out of range
when that overflows.
-/
namespace AgentScript.Json

/-- A token taken apart, with digits as numbers. -/
structure NumberParts where
  negative : Bool
  whole : List Nat
  fraction : List Nat
  /-- Sign and digits. -/
  exponent : Option (Bool × List Nat)

def digitValues (cs : List Char) : List Nat := cs.map fun c => c.toNat - '0'.toNat

def exponentOf : List Char → Option (Bool × List Nat)
  | [] => none
  | _ :: '-' :: cs => some (true, digitValues cs)
  | _ :: '+' :: cs => some (false, digitValues cs)
  | _ :: cs => some (false, digitValues cs)

def unsignedParts (negative : Bool) (cs : List Char) : NumberParts :=
  let (whole, rest) := takeDigits cs
  let (fraction, rest) := match rest with
    | '.' :: rest => takeDigits rest
    | rest => ([], rest)
  ⟨negative, digitValues whole, digitValues fraction, exponentOf rest⟩

def numberParts (token : String) : NumberParts :=
  match token.toList with
  | '-' :: cs => unsignedParts true cs
  | cs => unsignedParts false cs

namespace NumberParts

def natOf (digits : List Nat) : Nat := digits.foldl (fun n d => n * 10 + d) 0

/-- A whole number is written without point and exponent. Minus zero is not one. -/
def int? (p : NumberParts) : Option Int :=
  match p.fraction, p.exponent with
  | [], none =>
    let n := natOf p.whole
    if p.negative then if n = 0 then none else some (-(n : Int)) else some n
  | _, _ => none

def maxSignificand : Nat := UInt64.size - 1

/-- Takes digits into a significand while it fits. Answers how many were taken. -/
def takeSignificand : (significand : Nat) → (digits : List Nat) → Nat × Nat
  | significand, [] => (significand, 0)
  | significand, d :: rest =>
    if maxSignificand < significand * 10 + d then (significand, 0)
    else
      let (s, n) := takeSignificand (significand * 10 + d) rest
      (s, n + 1)

/-- The significand and the power of ten that the digits stand for. -/
def significand (p : NumberParts) : Nat × Int :=
  let (s, taken) := takeSignificand 0 p.whole
  let (s, places) := takeSignificand s p.fraction
  (s, (p.whole.length - taken : Int) - places)

def maxExponent : Nat := Nat.pow 2 31 - 1

def clampExponent (e : Int) : Int := max Int32.minValue.toInt (min Int32.maxValue.toInt e)

def powerOfTen (n : Nat) : Float := Float.ofScientific 1 false n

/-- Divides by the greatest power of ten there is until the exponent is small enough. -/
def scaleDown : (steps : Nat) → Float → (exponent : Int) → Float
  | 0, f, _ => f
  | steps + 1, f, e =>
    if -308 ≤ e then f / powerOfTen (-e).toNat
    else if f == 0.0 then f
    else scaleDown steps (f / powerOfTen 308) (e + 308)

/-- `significand * 10 ^ exponent` in double precision. Five divisions make any significand zero. -/
def scale? (significand : Nat) (exponent : Int) : Option Float :=
  let f := significand.toUInt64.toFloat
  if exponent < 0 then some (scaleDown 5 f exponent)
  else if 308 < exponent then (if significand = 0 then some f else none)
  else
    let f := f * powerOfTen exponent.toNat
    if f.isInf then none else some f

def magnitude? (p : NumberParts) : Option Float :=
  let (s, e) := p.significand
  match p.exponent with
  | none => scale? s e
  | some (negative, digits) =>
    let n := natOf digits
    if maxExponent < n then
      if s ≠ 0 ∧ ¬negative then none else some 0.0
    else scale? s (clampExponent (if negative then e - n else e + n))

def double? (p : NumberParts) : Option Float :=
  p.magnitude?.map fun f => if p.negative then -f else f

def isWord (p : NumberParts) : Bool :=
  p.int?.any fun n => -(0x8000000000000000 : Int) ≤ n ∧ n ≤ maxSignificand

/-- Whether the number is in range: a word, or a number of double precision. -/
def inRange (p : NumberParts) : Bool := p.isWord || p.double?.isSome

/-- Single precision, rounded once from a whole number of at most 64 bits and otherwise from double
precision. -/
def single? (p : NumberParts) : Option Float32 :=
  match p.int? with
  | some (.ofNat n) => if n ≤ maxSignificand then some n.toUInt64.toFloat32
    else p.double?.map Float.toFloat32
  | some (.negSucc n) => if n < Nat.pow 2 63 then some (-((n + 1).toUInt64.toFloat32))
    else p.double?.map Float.toFloat32
  | none => p.double?.map Float.toFloat32

end NumberParts

end AgentScript.Json
