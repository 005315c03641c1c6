import AgentScript.Proofs.Pieces

/-! Resolved scripts that are alike: they are built in the same way out of the same names, texts and
constants, and the numbers in them, of types, variables, leaves and placeholders, correspond. What is
asked of a resolved script has corresponding answers for both. -/
namespace AgentScript

/-- Both succeed with related answers, or both fail with related causes. -/
inductive Paired (C : ε → ε → Prop) (A : α → β → Prop) : Except ε α → Except ε β → Prop where
  | ok : A a b → Paired C A (.ok a) (.ok b)
  | error : C c d → Paired C A (.error c) (.error d)

namespace Paired
variable {C D : ε → ε → Prop}

theorem bind {A : α → β → Prop} {B : γ → δ → Prop} {x : Except ε α} {y : Except ε β}
    {f : α → Except ε γ} {g : β → Except ε δ} (first : Paired C A x y)
    (next : ∀ {a b}, A a b → Paired C B (f a) (g b)) : Paired C B (x >>= f) (y >>= g) := by
  cases first with
  | ok same => exact next same
  | error cause => exact .error cause

theorem imp {A B : α → β → Prop} {x : Except ε α} {y : Except ε β} (both : Paired C A x y)
    (causes : ∀ {c d}, C c d → D c d) (answers : ∀ {a b}, A a b → B a b) : Paired D B x y := by
  cases both with
  | ok same => exact .ok (answers same)
  | error cause => exact .error (causes cause)

end Paired

/-- Which numbers of one resolved script correspond to which of another. -/
structure Likeness where
  types : TypeId → TypeId → Prop
  handles : Nat → Nat → Prop
  keys : Nat → Nat → Prop
  deferred : Nat → Nat → Prop

namespace Likeness

/-- What corresponds also does so in `M`. -/
structure Le (L M : Likeness) : Prop where
  types : ∀ {a b}, L.types a b → M.types a b
  handles : ∀ {a b}, L.handles a b → M.handles a b
  keys : ∀ {a b}, L.keys a b → M.keys a b
  deferred : ∀ {a b}, L.deferred a b → M.deferred a b

/-- Every number corresponds to itself alone. -/
def same : Likeness := ⟨(· = ·), (· = ·), (· = ·), (· = ·)⟩

/-- Leaves are told apart alike. -/
def Keyed (L : Likeness) : Prop := ∀ {a a' b b'}, L.keys a a' → L.keys b b' → (a = b ↔ a' = b')

theorem same_keyed : same.Keyed := by
  rintro _ _ _ _ rfl rfl
  exact Iff.rfl

end Likeness

structure LocalVar.Like (L : Likeness) (v w : LocalVar) : Prop where
  handle : L.handles v.handle w.handle
  ty : L.types v.ty w.ty
  label : w.label = v.label

mutual
inductive Leaf.Like (L : Likeness) : Leaf → Leaf → Prop where
  | const : L.types c.ty c.ty → Leaf.Like L (.const c) (.const c)
  | var : L.handles h h' → L.types ty ty' → Leaf.Like L (.var h ty writable) (.var h' ty' writable)
  | builtin : L.types ty ty' →
      Leaf.Like L (.builtin code ty writable role) (.builtin code ty' writable role)
  | sink : L.keys key key' → L.types ty ty' → Leaf.Like L (.sink key len ty) (.sink key' len ty')
  | field : List.Forall₂ (Piece.Match (Leaf.Like L)) base base' → L.types f.ty f.ty →
      Leaf.Like L (.field base f) (.field base' f)
  | isInstance : List.Forall₂ (Piece.Match (Leaf.Like L)) base base' → L.types ty ty' →
      Leaf.Like L (.isInstance base cls nullable ty) (.isInstance base' cls nullable ty')
  | cast : List.Forall₂ (Piece.Match (Leaf.Like L)) base base' → L.types ty ty' →
      Leaf.Like L (.cast base ty) (.cast base' ty')
  | retype : List.Forall₂ (Piece.Match (Leaf.Like L)) target target' → L.types ty ty' →
      Leaf.Like L (.retype target ty) (.retype target' ty')
  | chain : List.Forall₂ (Piece.Match (Leaf.Like L)) head head' → L.types headType headType' →
      List.Forall₂ (Operand.Like L) tail tail' →
      Leaf.Like L (.chain op head headType tail) (.chain op head' headType' tail')
  | test : Cond.Like L c c' → L.types ty ty' → Leaf.Like L (.test c ty) (.test c' ty')
  | inline : List.Forall₂ (Part.Like L) parts parts' → L.types ty ty' →
      Leaf.Like L (.inline parts ty) (.inline parts' ty')
  | deferred : L.keys key key' → L.deferred n n' → (∀ p ∈ params, L.types p.1 p.1) →
      Leaf.Like L (.deferred key n params) (.deferred key' n' params)
  | call : L.keys key key' → List.Forall₂ (Copy.Like L) copies copies' →
      List.Forall₂ (Piece.Match (Leaf.Like L)) body body' →
      Leaf.Like L (.call key copies body) (.call key' copies' body')
  | seq : L.keys key key' → List.Forall₂ (Action.Like L) body body' →
      List.Forall₂ (Piece.Match (Leaf.Like L)) result result' →
      Leaf.Like L (.seq key body result) (.seq key' body' result')
inductive Operand.Like (L : Likeness) : Operand → Operand → Prop where
  | mk : List.Forall₂ (Piece.Match (Leaf.Like L)) expr expr' → L.types ty ty' → L.types after after' →
      Operand.Like L (.mk expr ty after) (.mk expr' ty' after')
inductive Cond.Like (L : Likeness) : Cond → Cond → Prop where
  | const : Cond.Like L (.const b) (.const b)
  | compare : List.Forall₂ (Piece.Match (Leaf.Like L)) left left' →
      List.Forall₂ (Piece.Match (Leaf.Like L)) right right' →
      Cond.Like L (.compare op left right) (.compare op left' right')
  | logic : Cond.Like L left left' → Cond.Like L right right' →
      Cond.Like L (.logic op left right) (.logic op left' right')
  | not : Cond.Like L c c' → Cond.Like L (.not c) (.not c')
inductive Part.Like (L : Likeness) : Part → Part → Prop where
  | text : Part.Like L (.text s) (.text s)
  | expr : List.Forall₂ (Piece.Match (Leaf.Like L)) e e' → Part.Like L (.expr e) (.expr e')
inductive Copy.Like (L : Likeness) : Copy → Copy → Prop where
  | mk : List.Forall₂ (Piece.Match (Leaf.Like L)) source source' →
      List.Forall₂ (LocalVar.Like L) vars vars' → Copy.Like L (.mk source vars) (.mk source' vars')
inductive Action.Like (L : Likeness) : Action → Action → Prop where
  | mk : ActionKind.Like L kind kind' → Action.Like L (.mk pos kind) (.mk pos kind')
inductive ActionKind.Like (L : Likeness) : ActionKind → ActionKind → Prop where
  | nop : ActionKind.Like L .nop .nop
  | block : List.Forall₂ (Action.Like L) body body' →
      ActionKind.Like L (.block body closed) (.block body' closed)
  | declare : List.Forall₂ (LocalVar.Like L) vars vars' →
      Option.Rel (List.Forall₂ (Piece.Match (Leaf.Like L))) init init' →
      ActionKind.Like L (.declare vars init) (.declare vars' init')
  | assign : List.Forall₂ (Piece.Match (Leaf.Like L)) targets targets' →
      List.Forall₂ (Piece.Match (Leaf.Like L)) source source' →
      ActionKind.Like L (.assign targets source) (.assign targets' source')
  | update : List.Forall₂ (Piece.Match (Leaf.Like L)) target target' →
      List.Forall₂ (Piece.Match (Leaf.Like L)) source source' →
      L.types before before' → L.types operand operand' → L.types after after' →
      ActionKind.Like L (.update op target source before operand after)
        (.update op target' source' before' operand' after')
  | synonym : List.Forall₂ (Piece.Match (Leaf.Like L)) target target' →
      ActionKind.Like L (.synonym name target) (.synonym name target')
  | branch : Cond.Like L c c' → Action.Like L yes yes' → Option.Rel (Action.Like L) no no' →
      ActionKind.Like L (.branch c yes no) (.branch c' yes' no')
  | loop : Action.Like L body body' → ActionKind.Like L (.loop body) (.loop body')
  | breakLoop : ActionKind.Like L .breakLoop .breakLoop
  | continueLoop : ActionKind.Like L .continueLoop .continueLoop
  | enumerate : List.Forall₂ (Part.Like L) starter starter' → Action.Like L body body' →
      ActionKind.Like L (.enumerate starter body) (.enumerate starter' body')
  | inline : List.Forall₂ (Part.Like L) parts parts' →
      ActionKind.Like L (.inline parts) (.inline parts')
end

abbrev Expr.Like (L : Likeness) : Expr → Expr → Prop := List.Forall₂ (Piece.Match (Leaf.Like L))

theorem LocalVar.Like.refl (v : LocalVar) : v.Like .same v := ⟨rfl, rfl, rfl⟩

theorem LocalVar.Like.refls (vars : List LocalVar) : List.Forall₂ (LocalVar.Like .same) vars vars :=
  List.forall₂_same.mpr fun v _ => .refl v

mutual
theorem Leaf.like_same : (leaf : Leaf) → leaf.Like .same leaf
  | .const _ => .const rfl
  | .var .. => .var rfl rfl
  | .builtin .. => .builtin rfl
  | .sink .. => .sink rfl rfl
  | .field base _ => .field (expr_like_same base) rfl
  | .isInstance base .. => .isInstance (expr_like_same base) rfl
  | .cast base _ => .cast (expr_like_same base) rfl
  | .retype target _ => .retype (expr_like_same target) rfl
  | .chain _ head _ tail => .chain (expr_like_same head) rfl (operands_like_same tail)
  | .test c _ => .test c.like_same rfl
  | .inline parts _ => .inline (parts_like_same parts) rfl
  | .deferred .. => .deferred rfl rfl fun _ _ => rfl
  | .call _ copies body => .call rfl (copies_like_same copies) (expr_like_same body)
  | .seq _ body result => .seq rfl (actions_like_same body) (expr_like_same result)
theorem piece_like_same : (q : Piece Leaf) → q.Match (Leaf.Like .same) q
  | .whole leaf => .whole leaf.like_same
  | .view leaf _ _ => .view leaf.like_same
theorem expr_like_same : (e : List (Piece Leaf)) → List.Forall₂ (Piece.Match (Leaf.Like .same)) e e
  | [] => .nil
  | q :: rest => .cons (piece_like_same q) (expr_like_same rest)
theorem operands_like_same : (tail : List Operand) → List.Forall₂ (Operand.Like .same) tail tail
  | [] => .nil
  | .mk expr _ _ :: rest => .cons (.mk (expr_like_same expr) rfl rfl) (operands_like_same rest)
theorem Cond.like_same : (c : Cond) → c.Like .same c
  | .const _ => .const
  | .compare _ left right => .compare (expr_like_same left) (expr_like_same right)
  | .logic _ left right => .logic left.like_same right.like_same
  | .not c => .not c.like_same
theorem parts_like_same : (parts : List Part) → List.Forall₂ (Part.Like .same) parts parts
  | [] => .nil
  | .text _ :: rest => .cons .text (parts_like_same rest)
  | .expr e :: rest => .cons (.expr (expr_like_same e)) (parts_like_same rest)
theorem copies_like_same : (copies : List Copy) → List.Forall₂ (Copy.Like .same) copies copies
  | [] => .nil
  | .mk source vars :: rest =>
    .cons (.mk (expr_like_same source) (LocalVar.Like.refls vars)) (copies_like_same rest)
theorem Action.like_same : (a : Action) → a.Like .same a
  | .mk _ kind => .mk kind.like_same
theorem actions_like_same : (body : List Action) → List.Forall₂ (Action.Like .same) body body
  | [] => .nil
  | a :: rest => .cons a.like_same (actions_like_same rest)
theorem ActionKind.like_same : (kind : ActionKind) → kind.Like .same kind
  | .nop => .nop
  | .block body _ => .block (actions_like_same body)
  | .declare vars none => .declare (LocalVar.Like.refls vars) .none
  | .declare vars (some e) => .declare (LocalVar.Like.refls vars) (.some (expr_like_same e))
  | .assign targets source => .assign (expr_like_same targets) (expr_like_same source)
  | .update _ target source _ _ _ =>
    .update (expr_like_same target) (expr_like_same source) rfl rfl rfl
  | .synonym _ target => .synonym (expr_like_same target)
  | .branch c yes none => .branch c.like_same yes.like_same .none
  | .branch c yes (some no) => .branch c.like_same yes.like_same (.some no.like_same)
  | .loop body => .loop body.like_same
  | .breakLoop => .breakLoop
  | .continueLoop => .continueLoop
  | .enumerate starter body => .enumerate (parts_like_same starter) body.like_same
  | .inline parts => .inline (parts_like_same parts)
end

section
variable {L M : Likeness}

theorem LocalVar.Like.mono (le : L.Le M) {v w : LocalVar} (like : v.Like L w) : v.Like M w :=
  ⟨le.handles like.handle, le.types like.ty, like.label⟩

theorem LocalVar.Like.monos (le : L.Le M) {vars vars' : List LocalVar}
    (like : List.Forall₂ (LocalVar.Like L) vars vars') : List.Forall₂ (LocalVar.Like M) vars vars' :=
  like.imp fun _ _ same => same.mono le

mutual
theorem Leaf.Like.mono (le : L.Le M) : {a b : Leaf} → a.Like L b → a.Like M b
  | .const _, _, .const ty => .const (le.types ty)
  | .var .., _, .var handle ty => .var (le.handles handle) (le.types ty)
  | .builtin .., _, .builtin ty => .builtin (le.types ty)
  | .sink .., _, .sink key ty => .sink (le.keys key) (le.types ty)
  | .field .., _, .field base ty => .field (Expr.Like.mono le base) (le.types ty)
  | .isInstance .., _, .isInstance base ty => .isInstance (Expr.Like.mono le base) (le.types ty)
  | .cast .., _, .cast base ty => .cast (Expr.Like.mono le base) (le.types ty)
  | .retype .., _, .retype target ty => .retype (Expr.Like.mono le target) (le.types ty)
  | .chain .., _, .chain head ty tail =>
    .chain (Expr.Like.mono le head) (le.types ty) (Operand.Like.monos le tail)
  | .test .., _, .test c ty => .test (Cond.Like.mono le c) (le.types ty)
  | .inline .., _, .inline parts ty => .inline (Part.Like.monos le parts) (le.types ty)
  | .deferred .., _, .deferred key n params =>
    .deferred (le.keys key) (le.deferred n) fun p member => le.types (params p member)
  | .call .., _, .call key copies body =>
    .call (le.keys key) (Copy.Like.monos le copies) (Expr.Like.mono le body)
  | .seq .., _, .seq key body result =>
    .seq (le.keys key) (Action.Like.monos le body) (Expr.Like.mono le result)
termination_by structural a => a
theorem Expr.Like.mono (le : L.Le M) : {e e' : List (Piece Leaf)} →
    List.Forall₂ (Piece.Match (Leaf.Like L)) e e' → List.Forall₂ (Piece.Match (Leaf.Like M)) e e'
  | [], _, .nil => .nil
  | .whole _ :: _, _, .cons (.whole leaf) rest =>
    .cons (.whole (Leaf.Like.mono le leaf)) (Expr.Like.mono le rest)
  | .view .. :: _, _, .cons (.view leaf) rest =>
    .cons (.view (Leaf.Like.mono le leaf)) (Expr.Like.mono le rest)
termination_by structural a => a
theorem Operand.Like.monos (le : L.Le M) : {tail tail' : List Operand} →
    List.Forall₂ (Operand.Like L) tail tail' → List.Forall₂ (Operand.Like M) tail tail'
  | [], _, .nil => .nil
  | .mk .. :: _, _, .cons (.mk expr ty after) rest =>
    .cons (.mk (Expr.Like.mono le expr) (le.types ty) (le.types after)) (Operand.Like.monos le rest)
termination_by structural a => a
theorem Cond.Like.mono (le : L.Le M) : {c c' : Cond} → c.Like L c' → c.Like M c'
  | .const _, _, .const => .const
  | .compare .., _, .compare left right => .compare (Expr.Like.mono le left) (Expr.Like.mono le right)
  | .logic .., _, .logic left right => .logic (Cond.Like.mono le left) (Cond.Like.mono le right)
  | .not _, _, .not c => .not (Cond.Like.mono le c)
termination_by structural a => a
theorem Part.Like.monos (le : L.Le M) : {parts parts' : List Part} →
    List.Forall₂ (Part.Like L) parts parts' → List.Forall₂ (Part.Like M) parts parts'
  | [], _, .nil => .nil
  | .text _ :: _, _, .cons .text rest => .cons .text (Part.Like.monos le rest)
  | .expr _ :: _, _, .cons (.expr e) rest => .cons (.expr (Expr.Like.mono le e)) (Part.Like.monos le rest)
termination_by structural a => a
theorem Copy.Like.monos (le : L.Le M) : {copies copies' : List Copy} →
    List.Forall₂ (Copy.Like L) copies copies' → List.Forall₂ (Copy.Like M) copies copies'
  | [], _, .nil => .nil
  | .mk .. :: _, _, .cons (.mk source vars) rest =>
    .cons (.mk (Expr.Like.mono le source) (LocalVar.Like.monos le vars)) (Copy.Like.monos le rest)
termination_by structural a => a
theorem Action.Like.mono (le : L.Le M) : {a b : Action} → a.Like L b → a.Like M b
  | .mk .., _, .mk kind => .mk (ActionKind.Like.mono le kind)
termination_by structural a => a
theorem Action.Like.monos (le : L.Le M) : {body body' : List Action} →
    List.Forall₂ (Action.Like L) body body' → List.Forall₂ (Action.Like M) body body'
  | [], _, .nil => .nil
  | _ :: _, _, .cons first rest => .cons (Action.Like.mono le first) (Action.Like.monos le rest)
termination_by structural a => a
theorem ActionKind.Like.mono (le : L.Le M) : {a b : ActionKind} → a.Like L b → a.Like M b
  | .nop, _, .nop => .nop
  | .block .., _, .block body => .block (Action.Like.monos le body)
  | .declare _ none, _, .declare vars .none => .declare (LocalVar.Like.monos le vars) .none
  | .declare _ (some _), _, .declare vars (.some e) =>
    .declare (LocalVar.Like.monos le vars) (.some (Expr.Like.mono le e))
  | .assign .., _, .assign targets source =>
    .assign (Expr.Like.mono le targets) (Expr.Like.mono le source)
  | .update .., _, .update target source before operand after =>
    .update (Expr.Like.mono le target) (Expr.Like.mono le source) (le.types before)
      (le.types operand) (le.types after)
  | .synonym .., _, .synonym target => .synonym (Expr.Like.mono le target)
  | .branch _ _ none, _, .branch c yes .none =>
    .branch (Cond.Like.mono le c) (Action.Like.mono le yes) .none
  | .branch _ _ (some _), _, .branch c yes (.some no) =>
    .branch (Cond.Like.mono le c) (Action.Like.mono le yes) (.some (Action.Like.mono le no))
  | .loop _, _, .loop body => .loop (Action.Like.mono le body)
  | .breakLoop, _, .breakLoop => .breakLoop
  | .continueLoop, _, .continueLoop => .continueLoop
  | .enumerate .., _, .enumerate starter body =>
    .enumerate (Part.Like.monos le starter) (Action.Like.mono le body)
  | .inline _, _, .inline parts => .inline (Part.Like.monos le parts)
termination_by structural a => a
end

end

end AgentScript
