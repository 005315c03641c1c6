/-!
Sequences of slots. A leaf provides a fixed number of slots; a sequence is put together from whole
leaves and from views, which are runs of slots of one leaf. Views of one leaf that follow each other
are one view. `slots` is what a sequence denotes: the owning leaf of each slot and its place there.
-/
namespace AgentScript

/-- Leaves with slots. Two leaves with the same key are the same leaf. -/
class Slotted (α : Type) where
  count : α → Nat
  key : α → Option Nat

inductive Piece (α : Type) where
  | whole (leaf : α)
  | view (leaf : α) (base len : Nat)

abbrev Slices (α : Type) := List (Piece α)

/-- A cut that does not lie within its sequence. -/
structure CutError where
  base : Nat
  len : Nat
  total : Nat

section
variable {α : Type} [Slotted α]

def sameLeaf (a b : α) : Bool :=
  match Slotted.key a, Slotted.key b with
  | some x, some y => x == y
  | _, _ => false

namespace Piece

def len : Piece α → Nat
  | whole leaf => Slotted.count leaf
  | view _ _ len => len

/-- The slots `base .. base + len` of a leaf, which are the leaf itself when they are all of it. -/
def run (leaf : α) (base len : Nat) : Piece α :=
  if base = 0 ∧ len = Slotted.count leaf then whole leaf else view leaf base len

/-- One view in place of two that follow each other. -/
def merge? : Piece α → Piece α → Option (Piece α)
  | view a base len, view b next more =>
    if sameLeaf a b ∧ base + len = next then some (run a base (len + more)) else none
  | _, _ => none

def cut (p : Piece α) (base n : Nat) : Piece α :=
  if n = p.len then p
  else match p with
    | whole leaf => run leaf base n
    | view leaf start _ => run leaf (start + base) n

def slots : Piece α → List (α × Nat)
  | whole leaf => (List.range (Slotted.count leaf)).map fun i => (leaf, i)
  | view leaf base len => (List.range len).map fun i => (leaf, base + i)

def owner (p : Piece α) (i : Nat) : α × Nat :=
  match p with
  | whole leaf => (leaf, i)
  | view leaf base _ => (leaf, base + i)

end Piece

namespace Slices

def len : Slices α → Nat
  | [] => 0
  | p :: rest => p.len + len rest

def slots (e : Slices α) : List (α × Nat) := e.flatMap Piece.slots

/-- Puts a piece in front, as one view with what follows where that is possible. -/
def cons (p : Piece α) : Slices α → Slices α
  | [] => [p]
  | q :: rest => match p.merge? q with
    | some m => cons m rest
    | none => p :: q :: rest

def concat (a b : Slices α) : Slices α :=
  match b with
  | [] => a
  | _ => a.foldr cons b

def group (parts : List (Slices α)) : Slices α := parts.foldr concat []

/-- The slots `base .. base + n` of a sequence that has them. A leaf without slots is kept only
where all that follows is. -/
def cutWithin : Slices α → (base n : Nat) → Slices α
  | [], _, _ => []
  | p :: rest, base, n =>
    if n = p.len + len rest then p :: rest
    else if n = 0 then []
    else if base + n ≤ p.len then [p.cut base n]
    else if p.len ≤ base then cutWithin rest (base - p.len) n
    else cons (p.cut base (p.len - base)) (cutWithin rest 0 (n - (p.len - base)))

def cut (e : Slices α) (base n : Nat) : Except CutError (Slices α) :=
  if len e < base + n then .error ⟨base, n, len e⟩ else .ok (cutWithin e base n)

/-- The leaf that owns a slot, and the place of the slot there. -/
def locate? : Slices α → (i : Nat) → Option (α × Nat)
  | [], _ => none
  | p :: rest, i => if i < p.len then some (p.owner i) else locate? rest (i - p.len)

end Slices

end

end AgentScript
