import AgentScript.Proofs.Safety.Statement
import AgentScript.World

/-! Expressions whose code is safe. An expression is sound for the handles that are bound where its code
is written and for the number of placeholders that it may mention; views lie within their leaves, and
leaves with the same key have the same number of slots, so that joining views keeps them there. -/
namespace AgentScript
variable {e base left right : Expr} {rounds : Nat} {types : Registry} {op : ChainOp} {es : List Expr}
  {c : Cond}

section
variable (env : Env) (table : Placeholder)

mutual
theorem Leaf.code_count : (leaf : Leaf) →
    (leaf.code env table).slots.length = leaf.accesses.length
  | .const _ | .var .. | .builtin .. | .field .. | .isInstance .. | .cast .. | .retype .. | .chain .. | .test ..
  | .inline .. => by
    rw [Leaf.code, Leaf.accesses]
    rfl
  | .sink key len ty => by
    rw [Leaf.code, Leaf.accesses, List.length_replicate]
    exact List.length_replicate
  | .deferred key id params => by
    rw [Leaf.code, Leaf.accesses]
    simp [deferredCode]
  | .call key copies body => by
    rw [Leaf.code, Leaf.accesses, List.length_map, ← codeOf_count body]
    exact List.length_map ..
  | .seq key body result => by
    rw [Leaf.code, Leaf.accesses, List.length_map, ← codeOf_count result]
    exact List.length_map ..
theorem pieceCode_count : (p : Piece Leaf) →
    (Code.pieceSlots (pieceCode env table p)).length = (accessesPiece p).length
  | .whole leaf => Leaf.code_count leaf
  | .view leaf base len => by
    rw [pieceCode, accessesPiece]
    simp [Code.pieceSlots, viewOf, Leaf.code_count leaf]
theorem codeOf_count : (e : List (Piece Leaf)) →
    (Code.slots (codeOf env table e)).length = (accessesAll e).length
  | [] => rfl
  | p :: rest => by
    rw [codeOf, accessesAll, List.length_append, ← pieceCode_count p, ← codeOf_count rest,
      ← List.length_append]
    rfl
end

theorem pieceCode_len (p : Piece Leaf) : (pieceCode env table p).len = p.len := by
  cases p with
  | whole leaf =>
    exact Leaf.code_count env table leaf
  | view leaf base len =>
    rfl

theorem codeOf_len (e : Expr) : Slices.len (codeOf env table e) = Slices.len e := by
  induction e with
  | nil =>
    rfl
  | cons p rest ih => rw [codeOf, Slices.len_cons, Slices.len_cons, pieceCode_len, ih]

end

/-- Where code is written in the end: the types, and what placeholders stand for. -/
structure Outcome where
  env : Env
  deferred : List (Option Expr)

def Outcome.table (o : Outcome) (rounds : Nat) : Placeholder := placeholders o.env o.deferred rounds

/-- What is known while something is resolved: the number of slots of the leaves with each key, and
the handles that are bound where its code is written. -/
structure Known where
  sizes : List Nat
  handles : List Nat

/-- Keys may be added, and handles may be bound. -/
structure Known.Grows (k k' : Known) : Prop where
  sizes : k.sizes <+: k'.sizes
  handles : k.handles ⊆ k'.handles

theorem Known.Grows.refl (k : Known) : k.Grows k := ⟨List.prefix_rfl, List.Subset.refl _⟩

theorem Known.Grows.trans {k k' k'' : Known} (first : k.Grows k') (second : k'.Grows k'') :
    k.Grows k'' :=
  ⟨first.sizes.trans second.sizes, List.Subset.trans first.handles second.handles⟩

structure PieceSound (o : Outcome) (k : Known) (n : Nat) (p : Piece Leaf) : Prop where
  keyed : ∀ key, p.leaf.key = some key → k.sizes[key]? = some (Slotted.count p.leaf)
  fits : p.Fits
  safe : ∀ rounds ≥ n, (p.leaf.code o.env (o.table rounds)).Safe k.handles

/-- The code of the expression is safe where the handles are bound, once the first `n` placeholders
can be replaced. -/
def Expr.Sound (o : Outcome) (k : Known) (n : Nat) (e : Expr) : Prop :=
  Slices.All (PieceSound o k n) e

variable {o : Outcome} {k k' : Known} {n n' : Nat}

theorem PieceSound.mono {p : Piece Leaf} (sound : PieceSound o k n p) (grows : k.Grows k')
    (more : n ≤ n') : PieceSound o k' n' p where
  keyed key same := by
    obtain ⟨rest, extended⟩ := grows.sizes
    have here := sound.keyed key same
    have inside : key < k.sizes.length := (List.getElem?_eq_some_iff.mp here).1
    rw [← extended, List.getElem?_append_left inside]
    exact here
  fits := sound.fits
  safe rounds enough := (sound.safe rounds (Nat.le_trans more enough)).mono grows.handles

theorem Expr.Sound.mono (sound : e.Sound o k n) (grows : k.Grows k') (more : n ≤ n') : e.Sound o k' n' :=
  fun p member => (sound p member).mono grows more

/-- Leaves with the same key have the same number of slots. -/
theorem PieceSound.same_count {p q : Piece Leaf} (first : PieceSound o k n p)
    (second : PieceSound o k n q) (same : sameLeaf p.leaf q.leaf = true) :
    Slotted.count p.leaf = Slotted.count q.leaf := by
  unfold sameLeaf at same
  split at same
  · next x y firstKey secondKey =>
    have here := first.keyed x firstKey
    rw [eq_of_beq same, second.keyed y secondKey] at here
    exact (Option.some.inj here).symm
  · cases same

theorem pieceSound_kept (o : Outcome) (k : Known) (n : Nat) : Piece.Kept (PieceSound o k n) where
  merge := by
    intro p q m first second merged
    have counts := first.same_count second
    obtain ⟨a, base, len, b, more, rfl, rfl, same, rfl⟩ := Piece.merge?_eq_some merged
    have inside : base + len + more ≤ Slotted.count b := second.fits
    have count : Slotted.count a = Slotted.count b := counts same
    refine ⟨?_, Piece.run_fits (by omega), ?_⟩
    · rw [Piece.run_leaf]
      exact first.keyed
    · rw [Piece.run_leaf]
      exact first.safe
  cut {p base m} sound inside := by
    have same := (Piece.leaf_kept (· = p.leaf)).cut (p := p) rfl inside
    refine ⟨?_, Piece.cut_fits sound.fits inside, ?_⟩
    · rw [same]
      exact sound.keyed
    · rw [same]
      exact sound.safe

namespace Expr.Sound

theorem code (sound : e.Sound o k n) (enough : n ≤ rounds) :
    Code.Safe k.handles (codeOf o.env (o.table rounds) e) := by
  induction e with
  | nil =>
    exact Slices.all_nil
  | cons p rest ih =>
    obtain ⟨here, others⟩ := Slices.all_cons.mp sound
    refine Slices.all_cons.mpr ⟨?_, ih others⟩
    cases p with
    | whole leaf =>
      exact ⟨here.safe rounds enough, trivial⟩
    | view leaf base len =>
      have inside : base + len ≤ leaf.accesses.length := here.fits
      refine ⟨here.safe rounds enough, ?_⟩
      rw [← Leaf.code_count o.env (o.table rounds)] at inside
      exact inside

theorem single (sound : e.Sound o k n) (one : Slices.len e = 1) (enough : n ≤ rounds) :
    Code.Single k.handles (codeOf o.env (o.table rounds) e) :=
  ⟨sound.code enough, (codeOf_len ..).trans one⟩

theorem leaf {leaf : Leaf} (keyless : leaf.key = none)
    (safe : ∀ rounds ≥ n, (leaf.code o.env (o.table rounds)).Safe k.handles) :
    (Expr.leaf leaf).Sound o k n := by
  refine List.forall_mem_singleton.mpr ⟨fun key same => ?_, trivial, safe⟩
  have : leaf.key = some key := same
  rw [keyless] at this
  cases this

theorem keyedLeaf {leaf : Leaf} (isKey : leaf.key = some key)
    (keyed : k.sizes[key]? = some leaf.accesses.length)
    (safe : ∀ rounds ≥ n, (leaf.code o.env (o.table rounds)).Safe k.handles) :
    (Expr.leaf leaf).Sound o k n := by
  refine List.forall_mem_singleton.mpr ⟨fun key' same => ?_, trivial, safe⟩
  have : leaf.key = some key' := same
  rw [isKey] at this
  cases this
  exact keyed

theorem group {parts : List Expr} (each : ∀ e ∈ parts, e.Sound o k n) :
    Expr.Sound o k n (Slices.group parts) :=
  Slices.All.group (pieceSound_kept o k n) each

end Expr.Sound

theorem singleReadType_len (found : e.singleReadType = .ok ty) : Slices.len e = 1 := by
  unfold Expr.singleReadType at found
  split at found
  · next one => exact one
  · cases found

theorem const_sound (c : Constant) : (Expr.const c).Sound o k n :=
  .leaf rfl fun rounds _ => by
    exact constCode_safe ..

theorem var_sound {handle : Nat} (bound : handle ∈ k.handles) (ty : TypeId) (writable : Bool) :
    (Expr.leaf (.var handle ty writable)).Sound o k n :=
  .leaf rfl fun rounds _ => by
    exact varCode_safe o.env bound ty writable

theorem builtin_sound (name : String) (ty : TypeId) (writable : Bool) (role : Role) :
    (Expr.leaf (.builtin name ty writable role)).Sound o k n :=
  .leaf rfl fun rounds _ => by
    exact builtinCode_safe ..

theorem field_sound (sound : base.Sound o k n) (one : Slices.len base = 1) (f : Field) :
    (Expr.leaf (.field base f)).Sound o k n :=
  .leaf rfl fun rounds enough => by
    exact fieldCode_safe o.env (sound.single one enough) f

theorem isInstance_sound (sound : base.Sound o k n) (one : Slices.len base = 1) (cls : Classifier)
    (nullable : Bool) (ty : TypeId) : (Expr.leaf (.isInstance base cls nullable ty)).Sound o k n :=
  .leaf rfl fun rounds enough => by
    exact isInstanceCode_safe o.env _ (sound.single one enough) cls nullable ty

theorem mkCast_sound (sound : base.Sound o k n) (made : Leaf.mkCast base ty = .ok leaf) :
    (Expr.leaf leaf).Sound o k n := by
  unfold Leaf.mkCast at made
  split at made
  · next one =>
    cases made
    refine .leaf rfl fun rounds enough => ?_
    exact castCode_safe o.env (sound.single one enough) ty
  · cases made

theorem bind_ok {x : Except ε α} {f : α → Except ε β} (ran : (x >>= f) = .ok b) :
    ∃ a, x = .ok a ∧ f a = .ok b := by
  cases x with
  | error e => cases ran
  | ok a => exact ⟨a, rfl, ran⟩

theorem bind_some {x : Except ε (Option α)} {f : Option α → Except ε (Option β)}
    (ran : (x >>= f) = .ok (some b)) (none : f none = .ok none := by rfl) :
    ∃ a, x = .ok (some a) ∧ f (some a) = .ok (some b) := by
  obtain ⟨_ | a, found, ran⟩ := bind_ok ran
  · cases none.symm.trans ran
  · exact ⟨a, found, ran⟩

theorem Leaf.chainTail_cons {before : TypeId} {rest : List Expr} {tail : List Operand}
    (made : chainTail types op before (e :: rest) = .ok tail) :
    ∃ ty after more, e.singleReadType = .ok ty ∧ op.stepType types before ty = .ok after ∧
      chainTail types op after rest = .ok more ∧ tail = .mk e ty after :: more := by
  obtain ⟨ty, found, made⟩ := bind_ok made
  cases step : op.stepType types before ty with
  | error err =>
    rw [step] at made
    cases made
  | ok after =>
    rw [step] at made
    obtain ⟨more, later, made⟩ := bind_ok made
    cases made
    exact ⟨ty, after, more, found, step, later, rfl⟩

theorem Leaf.mkChain_cases (made : mkChain types op es = .ok leaf) :
    ∃ head rest ty tail, es = head :: rest ∧
      head.singleReadType = .ok ty ∧ chainTail types op ty rest = .ok tail ∧
      leaf = .chain op head ty tail := by
  cases es with
  | nil => cases made
  | cons head rest =>
    obtain ⟨ty, found, made⟩ := bind_ok made
    obtain ⟨tail, later, made⟩ := bind_ok made
    cases made
    exact ⟨head, rest, ty, tail, rfl, found, later, rfl⟩

theorem chainTail_safe {before : TypeId} (sound : ∀ e ∈ es, e.Sound o k n) {tail : List Operand}
    (made : Leaf.chainTail types op before es = .ok tail) (enough : n ≤ rounds) :
    OperandCode.AllSafe k.handles (operandCodes o.env (o.table rounds) tail) := by
  induction es generalizing before tail with
  | nil =>
    cases made
    exact List.forall_mem_nil _
  | cons e rest ih =>
    obtain ⟨here, others⟩ := List.forall_mem_cons.mp sound
    obtain ⟨ty, after, more, found, _, later, rfl⟩ := Leaf.chainTail_cons made
    exact List.forall_mem_cons.mpr ⟨here.single (singleReadType_len found) enough, ih others later⟩

theorem mkChain_sound (sound : ∀ e ∈ es, e.Sound o k n) (made : Leaf.mkChain types op es = .ok leaf) :
    (Expr.leaf leaf).Sound o k n := by
  obtain ⟨head, rest, ty, tail, rfl, found, later, rfl⟩ := Leaf.mkChain_cases made
  obtain ⟨here, others⟩ := List.forall_mem_cons.mp sound
  refine .leaf rfl fun rounds enough => ?_
  exact chainCode_safe o.env _ op (here.single (singleReadType_len found) enough) ty
    (chainTail_safe others later enough) _

theorem sink_sound {key len : Nat} (keyed : k.sizes[key]? = some len) (ty : TypeId) :
    (Expr.leaf (.sink key len ty)).Sound o k n := by
  refine .keyedLeaf rfl ?_ fun rounds _ => ?_
  · rw [Leaf.accesses, List.length_replicate]
    exact keyed
  · rw [Leaf.code]
    exact sinkCode_safe ..

theorem copyCodes_safe {copies : List (Expr × List LocalVar)}
    (sources : ∀ c ∈ copies, c.1.Sound o k n ∧ c.2.length = Slices.len c.1) (enough : n ≤ rounds) :
    CopiesSafe k.handles (copyCodes o.env (o.table rounds) (copies.map fun c => .mk c.1 c.2)) := by
  induction copies with
  | nil =>
    exact List.forall_mem_nil _
  | cons c rest ih =>
    obtain ⟨⟨here, count⟩, others⟩ := List.forall_mem_cons.mp sources
    exact List.forall_mem_cons.mpr ⟨⟨here.code enough, count.trans (codeOf_len ..).symm⟩, ih others⟩

theorem copyHandles_copyCodes (env : Env) (table : Placeholder)
    (copies : List (Expr × List LocalVar)) :
    copyHandles (copyCodes env table (copies.map fun c => .mk c.1 c.2)) = copyHandles copies := by
  induction copies with
  | nil =>
    rfl
  | cons c rest ih =>
    rw [List.map_cons, copyCodes, copyCode]
    simp only [copyHandles, List.flatMap_cons] at ih ⊢
    rw [ih]

theorem call_sound {copies : List (Expr × List LocalVar)} {body : Expr}
    (keyed : k.sizes[key]? = some (accessesAll body).length)
    (sources : ∀ c ∈ copies, c.1.Sound o k n ∧ c.2.length = Slices.len c.1)
    (sound : body.Sound o ⟨k.sizes, copyHandles copies ++ k.handles⟩ n) :
    (Expr.leaf (.call key (copies.map fun c => .mk c.1 c.2) body)).Sound o k n := by
  refine .keyedLeaf rfl ?_ fun rounds enough => ?_
  · rw [Leaf.accesses, List.length_map]
    exact keyed
  · rw [Leaf.code]
    refine callCode_safe o.env (copyCodes_safe sources enough) ?_
    rw [copyHandles_copyCodes]
    exact sound.code enough

theorem seq_sound {body : List Action} {result : Expr}
    (keyed : k.sizes[key]? = some (accessesAll result).length)
    (first : ∀ rounds ≥ n, (runAll o.env (o.table rounds) body).Safe k.handles)
    (sound : result.Sound o ⟨k.sizes, declaredAll body ++ k.handles⟩ n) :
    (Expr.leaf (.seq key body result)).Sound o k n := by
  refine .keyedLeaf rfl ?_ fun rounds enough => ?_
  · rw [Leaf.accesses, List.length_map]
    exact keyed
  · rw [Leaf.code]
    exact seqCode_safe o.env _ (first rounds enough)
      (runAll_declares o.env (o.table rounds) body).binds (sound.code enough)

def Cond.Sound (o : Outcome) (handles : List Nat) (n : Nat) (c : Cond) : Prop :=
  ∀ rounds ≥ n, (c.code o.env (o.table rounds)).Safe handles

theorem Cond.Sound.mono (sound : c.Sound o k.handles n) (grows : k.Grows k') (more : n ≤ n') :
    c.Sound o k'.handles n' :=
  fun rounds enough => (sound rounds (Nat.le_trans more enough)).mono grows.handles

theorem const_cond_sound (b : Bool) : (Cond.const b).Sound o hs n := fun rounds _ => by
  exact CondCode.const_safe b

theorem compare_sound (l : left.Sound o k n) (r : right.Sound o k n) (leftOne : Slices.len left = 1)
    (rightOne : Slices.len right = 1) (op : CompareOp) :
    (Cond.compare op left right).Sound o k.handles n := fun rounds enough => by
  exact CondCode.compare_safe o.env op (l.single leftOne enough) (r.single rightOne enough)

theorem Cond.comparison_cases {op : CompareOp} (made : comparison types op left right = .ok c) :
    ∃ lt rt, left.singleReadType = .ok lt ∧
      right.singleReadType = .ok rt ∧ c = .compare op left right := by
  obtain ⟨lt, leftType, made⟩ := bind_ok made
  obtain ⟨rt, rightType, made⟩ := bind_ok made
  dsimp only at made
  split at made
  · cases made
  · cases made
    exact ⟨lt, rt, leftType, rightType, rfl⟩

theorem Cond.truth_cases {value : Expr} (made : truth types value = .ok c) :
    ∃ ty, value.singleReadType = .ok ty ∧
      c = .compare .ne value (Expr.const ⟨.int 0, Registry.integer⟩) := by
  obtain ⟨ty, found, made⟩ := bind_ok made
  split at made
  · cases made
  · cases made
    exact ⟨ty, found, rfl⟩

theorem comparison_sound {op : CompareOp} (l : left.Sound o k n) (r : right.Sound o k n)
    (made : Cond.comparison types op left right = .ok c) : c.Sound o k.handles n := by
  obtain ⟨lt, rt, leftType, rightType, rfl⟩ := Cond.comparison_cases made
  exact compare_sound l r (singleReadType_len leftType) (singleReadType_len rightType) op

theorem truth_sound {value : Expr} (sound : value.Sound o k n) (made : Cond.truth types value = .ok c) :
    c.Sound o k.handles n := by
  obtain ⟨ty, found, rfl⟩ := Cond.truth_cases made
  exact compare_sound sound (const_sound _) (singleReadType_len found) rfl .ne

theorem join_sound {left right : Cond} (l : left.Sound o hs n) (r : right.Sound o hs n) (op : LogicOp) :
    (Cond.join op left right).Sound o hs n := by
  unfold Cond.join
  split
  · exact const_cond_sound _
  · intro rounds enough
    exact CondCode.logic_safe o.env op (l rounds enough) (r rounds enough)

theorem negate_sound (sound : c.Sound o hs n) : c.negate.Sound o hs n := by
  have inverted (c : Cond) (sound : c.Sound o hs n) : (Cond.not c).Sound o hs n := by
    intro rounds enough
    exact CondCode.not_safe (sound rounds enough)
  cases c with
  | const b => exact const_cond_sound _
  | not c =>
    intro rounds enough
    -- the negation of a negation is safe because a test is asked for either way
    have safe := sound rounds enough
    rw [Cond.code] at safe
    refine ⟨fun invert => ?_⟩
    have asked := safe.test !invert
    simpa [CondCode.not, Cond.negate] using asked
  | compare | logic => exact inverted _ sound

theorem test_sound (sound : c.Sound o k.handles n) (ty : TypeId) : (Expr.leaf (.test c ty)).Sound o k n :=
  .leaf rfl fun rounds enough => by
    exact testCode_safe o.env _ (sound rounds enough)

theorem access_regular (sound : e.Sound o k n) (inside : i < Slices.len e) : Regular (e.access i) := by
  have found : ∃ owner place, Slices.locate? e i = some (owner, place) ∧
      place < owner.accesses.length := by
    induction e generalizing i with
    | nil => cases inside
    | cons p rest ih =>
      obtain ⟨here, others⟩ := Slices.all_cons.mp sound
      rw [Slices.len_cons] at inside
      unfold Slices.locate?
      split
      · next first =>
        cases p with
        | whole leaf => exact ⟨_, _, rfl, first⟩
        | view leaf base len =>
          have fits : base + len ≤ leaf.accesses.length := here.fits
          have first : i < len := first
          exact ⟨_, _, rfl, by omega⟩
      · exact ih others (by omega)
  obtain ⟨owner, place, located, within⟩ := found
  simp only [Expr.access, located, List.getElem?_eq_getElem within]
  exact .ok _

theorem readType_regular (sound : e.Sound o k n) (inside : i < Slices.len e) :
    Regular (e.readType i) := by
  refine (access_regular sound inside).bind fun a _ => ?_
  split
  · exact .ok _
  · exact .error rfl

def Part.Sound (o : Outcome) (handles : List Nat) (n : Nat) (p : Part) : Prop :=
  ∀ rounds ≥ n, (partCode o.env (o.table rounds) p).Safe handles

theorem Part.Sound.mono {p : Part} (sound : p.Sound o k.handles n) (grows : k.Grows k')
    (more : n ≤ n') : p.Sound o k'.handles n' :=
  fun rounds enough => (sound rounds (Nat.le_trans more enough)).mono grows.handles

theorem text_sound (text : String) : (Part.text text).Sound o hs n := fun rounds _ => by
  trivial

theorem expr_part_sound (sound : e.Sound o k n) : (Part.expr e).Sound o k.handles n := by
  intro rounds enough
  refine ⟨sound.code enough, fun i inside => readType_regular sound ?_⟩
  rwa [codeOf_len] at inside

theorem partCodes_safe {parts : List Part} (sound : ∀ p ∈ parts, p.Sound o hs n) (enough : n ≤ rounds) :
    ∀ p ∈ partCodes o.env (o.table rounds) parts, p.Safe hs := by
  induction parts with
  | nil =>
    exact List.forall_mem_nil _
  | cons p rest ih =>
    obtain ⟨here, others⟩ := List.forall_mem_cons.mp sound
    exact List.forall_mem_cons.mpr ⟨here rounds enough, ih others⟩

theorem inline_sound {parts : List Part} (sound : ∀ p ∈ parts, p.Sound o k.handles n) (ty : TypeId) :
    (Expr.leaf (.inline parts ty)).Sound o k n :=
  .leaf rfl fun rounds enough => by
    exact inlineCode_safe o.env _ (partCodes_safe sound enough) ty

end AgentScript
