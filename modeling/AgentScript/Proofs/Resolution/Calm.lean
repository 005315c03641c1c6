import AgentScript.Proofs.Likeness.Law
import AgentScript.Resolve.Tree

/-! What resolution asks of expressions and types does not fail because of the place that it is asked at. -/
namespace AgentScript

theorem singleReadType_calm (e : Expr) : Calm e.singleReadType := by
  unfold Expr.singleReadType
  split
  · exact readType_calm e 0
  · exact .error rfl

theorem writeType_calm (e : Expr) (i : Nat) : Calm (e.writeType i) := by
  refine (access_calm e i).bind fun a => ?_
  split
  · exact .ok _
  · exact .error rfl

namespace Cache
variable {α : Type} [Slotted α] {s : Source α}

theorem make_calm (calm : ∀ i, Calm (s.readType i)) (copied : Nat → Bool) (next : Nat) :
    Calm (make s copied next).1 := by
  intro c failed
  obtain ⟨i, _, _, isError⟩ := make_error failed
  exact calm i c isError

end Cache

theorem Cond.comparison_calm (types : Registry) (op : CompareOp) (left right : Expr) :
    Calm (Cond.comparison types op left right) := by
  refine (singleReadType_calm left).bind fun _ => (singleReadType_calm right).bind fun _ => ?_
  dsimp only
  split
  · exact .error rfl
  · exact .ok _

theorem Cond.truth_calm (types : Registry) (value : Expr) : Calm (Cond.truth types value) := by
  refine (singleReadType_calm value).bind fun ty => ?_
  split
  · exact .error rfl
  · exact .ok _

theorem Leaf.chainTail_calm (types : Registry) (op : ChainOp) (before : TypeId) (es : List Expr) :
    Calm (Leaf.chainTail types op before es) := by
  induction es generalizing before with
  | nil => exact .ok _
  | cons e rest ih =>
    refine (singleReadType_calm e).bind fun ty => ?_
    split
    · exact .error rfl
    · next after _ => exact (ih after).bind fun _ => .ok _

theorem Leaf.mkChain_calm (types : Registry) (op : ChainOp) (es : List Expr) :
    Calm (Leaf.mkChain types op es) := by
  cases es with
  | nil => exact .error rfl
  | cons head rest =>
    exact (singleReadType_calm head).bind fun ty => (chainTail_calm types op ty rest).bind fun _ => .ok _

theorem Leaf.mkCast_calm (base : Expr) (ty : TypeId) : Calm (Leaf.mkCast base ty) := by
  unfold Leaf.mkCast
  split
  · exact .ok _
  · exact .error rfl

theorem World.findMacro_calm (w : World) (name : String) (count : Nat) :
    Calm (w.findMacro name count) := by
  unfold findMacro
  split
  · exact .ok _
  · refine .error ?_
    split <;> rfl

theorem Meaning.numberOf_calm (types : Registry) (ty : TypeId) (name : String) (script : Bool) :
    Calm (Meaning.numberOf types ty name script) := by
  unfold Meaning.numberOf
  split <;> split <;> first | exact .ok _ | exact .error rfl

theorem Meaning.foldValues_calm (op : ChainOp) (acc : Value) (vs : List Value) :
    Calm (Meaning.foldValues op acc vs) := by
  induction vs generalizing acc with
  | nil => exact .ok _
  | cons v rest ih =>
    unfold Meaning.foldValues
    split
    · exact ih _
    · exact .error rfl
    · exact .ok _

end AgentScript
