import AgentScript.Proofs.Independence.Unions
import AgentScript.Proofs.Resolution.Law
import AgentScript.Proofs.Types.Worlds

/-! Resolving in two worlds at once. The worlds share their declarations, and whatever else they hold
stays out of sight: types are made that are twins, numbers are drawn that correspond, and both runs
fail or neither does. What is found in the two runs is alike, and stays so however far they go. -/
namespace AgentScript

open Registry (Siblings Twin)

namespace TypeM

/-- Both steps fail, or both answer, and the answers go together. -/
inductive Ends (base r r' : Registry) (A : Registry → Registry → α → β → Prop) :
    Except TypeError α × Registry → Except TypeError β × Registry → Prop where
  | ok : Siblings base q q' → r.entries <+: q.entries → r'.entries <+: q'.entries → A q q' a b →
      Ends base r r' A (.ok a, q) (.ok b, q')
  | error : Siblings base q q' → r.entries <+: q.entries → r'.entries <+: q'.entries →
      Ends base r r' A (.error e, q) (.error e', q')

namespace Ends
variable {base r r' : Registry}

theorem bind {x : TypeM α} {x' : TypeM α'} {f : α → TypeM β} {f' : α' → TypeM β'}
    {A : Registry → Registry → α → α' → Prop} {B : Registry → Registry → β → β' → Prop}
    (first : Ends base r r' A (x.run r) (x'.run r'))
    (next : ∀ {q q' a b}, Siblings base q q' → A q q' a b →
      Ends base q q' B ((f a).run q) ((f' b).run q')) :
    Ends base r r' B ((x >>= f).run r) ((x' >>= f').run r') := by
  rw [run_bind, run_bind]
  generalize x.run r = ran at first ⊢
  generalize x'.run r' = ran' at first ⊢
  cases first with
  | error siblings added added' => exact .error siblings added added'
  | @ok q q' a b siblings added added' here =>
    have rest := next siblings here
    dsimp only
    generalize (f a).run q = ran at rest ⊢
    generalize (f' b).run q' = ran' at rest ⊢
    cases rest with
    | error siblings more more' => exact .error siblings (added.trans more) (added'.trans more')
    | ok siblings more more' there => exact .ok siblings (added.trans more) (added'.trans more') there

theorem pure (siblings : Siblings base r r') {A : Registry → Registry → α → β → Prop} (here : A r r' a b) :
    Ends base r r' A ((Pure.pure a : TypeM α).run r) ((Pure.pure b : TypeM β).run r') :=
  .ok siblings List.prefix_rfl List.prefix_rfl here

theorem make {f f' : Registry → TypeId × Registry} (birth : Registry.Birth base r r' (f r) (f' r')) :
    Ends base r r' (Twin base) ((TypeM.make f).run r) ((TypeM.make f').run r') :=
  .ok birth.siblings birth.added birth.added' birth.twin

end Ends

end TypeM

section
variable {base r r' : Registry}

theorem TypeRef.named_ends (siblings : Siblings base r r') (name : String) :
    TypeM.Ends base r r' (Twin base) ((TypeRef.named name).resolve.run r)
      ((TypeRef.named name).resolve.run r') := by
  rw [TypeRef.run_named, TypeRef.run_named]
  unfold Registry.byName Registry.find?
  rw [siblings.left.named, siblings.right.named]
  cases found : base.named.lookup name with
  | none => exact .error siblings List.prefix_rfl List.prefix_rfl
  | some t =>
    obtain ⟨_, _, isNamed, _⟩ := List.lookup_eq_some_iff.mp found
    have inside := siblings.closed.sound.named (name, t) (by simp [isNamed])
    exact .ok siblings List.prefix_rfl List.prefix_rfl (.old inside)

mutual
theorem TypeRef.resolve_ends {r r' : Registry} (siblings : Siblings base r r') : (t : TypeRef) →
    TypeM.Ends base r r' (Twin base) (t.resolve.run r) (t.resolve.run r')
  | .named name => TypeRef.named_ends siblings name
  | .classifier c => .make (siblings.byClassifier c)
  | .nullable t => by
    rw [TypeRef.resolve]
    exact (TypeRef.resolve_ends siblings t).bind fun siblings twin => .make (siblings.byNullable twin)
  | .union members => by
    rw [TypeRef.resolve]
    exact (TypeRef.resolveAll_ends siblings members).bind fun siblings twins =>
      .make (siblings.byUnion (.of_forall₂ twins))
theorem TypeRef.resolveAll_ends {r r' : Registry} (siblings : Siblings base r r') :
    (types : List TypeRef) → TypeM.Ends base r r' (fun q q' => List.Forall₂ (Twin base q q'))
      ((TypeRef.resolveAll types).run r) ((TypeRef.resolveAll types).run r')
  | [] => .pure siblings .nil
  | t :: rest => by
    rw [TypeRef.resolveAll]
    refine (TypeRef.resolve_ends siblings t).bind fun {q q' a b} siblings twin => ?_
    have others := TypeRef.resolveAll_ends siblings rest
    rw [TypeM.run_bind, TypeM.run_bind]
    generalize (TypeRef.resolveAll rest).run q = ran at others ⊢
    generalize (TypeRef.resolveAll rest).run q' = ran' at others ⊢
    cases others with
    | error siblings added added' => exact .error siblings added added'
    | ok siblings added added' twins =>
      exact .ok siblings added added' (.cons (twin.grown added added') twins)
end

theorem Meaning.nonNullable_ends (siblings : Siblings base r r') (twin : Twin base r r' t u) :
    TypeM.Ends base r r' (Twin base) ((Meaning.nonNullable t).run r) ((Meaning.nonNullable u).run r') := by
  have run (r : Registry) (t : TypeId) : (Meaning.nonNullable t).run r =
      match r.byNonNullable t with
      | .ok p => (.ok p.1, p.2)
      | .error e => (.error e, r) := by
    have current : (get : TypeM Registry).run r = (.ok r, r) := rfl
    unfold Meaning.nonNullable
    rw [TypeM.run_bind, current]
    dsimp only
    cases r.byNonNullable t <;> rfl
  rw [run, run]
  rcases siblings.byNonNullable twin with ⟨p, p', made, made', birth⟩ | ⟨e, e', failed, failed'⟩
  · rw [made, made']
    exact .ok birth.siblings birth.added birth.added' birth.twin
  · rw [failed, failed']
    exact .error siblings List.prefix_rfl List.prefix_rfl

end

namespace Likeness
variable {L M N : Likeness}

theorem Le.refl (L : Likeness) : L.Le L := ⟨id, id, id, id⟩

theorem Le.trans (first : L.Le M) (second : M.Le N) : L.Le N :=
  ⟨fun same => second.types (first.types same), fun same => second.handles (first.handles same),
    fun same => second.keys (first.keys same), fun same => second.deferred (first.deferred same)⟩

/-- What corresponds, without the placeholders from `n` on. -/
def below (L : Likeness) (n : Nat) : Likeness :=
  { L with deferred := fun i j => L.deferred i j ∧ i < n }

theorem below_le (L : Likeness) (n : Nat) : (L.below n).Le L := ⟨id, id, id, And.left⟩

theorem Keyed.below (keyed : L.Keyed) (n : Nat) : (L.below n).Keyed := keyed

theorem Le.below (le : L.Le M) (n : Nat) : (L.below n).Le (M.below n) :=
  ⟨le.types, le.handles, le.keys, fun same => ⟨le.deferred same.1, same.2⟩⟩

end Likeness

structure ScriptTypes.Like (L : Likeness) (a b : ScriptTypes) : Prop where
  owner : L.types a.owner b.owner
  sender : L.types a.sender b.sender
  first : L.types a.first b.first
  second : L.types a.second b.second

structure Frame.Like (L : Likeness) (f g : Frame) : Prop where
  bindings : List.Forall₂ (fun a b => b.1 = a.1 ∧ Expr.Like L a.2 b.2) f.bindings g.bindings
  breakable : g.breakable = f.breakable

/-- Scopes in which the same names stand for what is alike. -/
structure Scope.Like (L : Likeness) (s t : Scope) : Prop where
  script : s.script.Like L t.script
  frames : List.Forall₂ (Frame.Like L) s.frames t.frames

namespace Scope.Like
variable {L M : Likeness} {s t : Scope}

theorem mono (le : L.Le M) (like : s.Like L t) : s.Like M t where
  script := ⟨le.types like.script.owner, le.types like.script.sender, le.types like.script.first,
    le.types like.script.second⟩
  frames := like.frames.imp fun _ _ frame =>
    ⟨frame.bindings.imp fun _ _ same => ⟨same.1, Expr.Like.mono le same.2⟩, frame.breakable⟩

theorem lookup (like : s.Like L t) (name : String) :
    Option.Rel (Expr.Like L) (s.lookup? name) (t.lookup? name) := by
  have inFrame {l l' : List (String × Expr)}
      (same : List.Forall₂ (fun a b => b.1 = a.1 ∧ Expr.Like L a.2 b.2) l l') :
      Option.Rel (Expr.Like L) (l.lookup name) (l'.lookup name) := by
    induction same with
    | nil => exact .none
    | @cons a b _ _ first _ ih =>
      obtain ⟨x, e⟩ := a
      obtain ⟨_, e'⟩ := b
      obtain ⟨rfl, like⟩ := first
      simp only [List.lookup_cons]
      split
      · exact .some like
      · exact ih
  unfold Scope.lookup?
  have frames := like.frames
  generalize s.frames = l at frames ⊢
  generalize t.frames = l' at frames ⊢
  induction frames with
  | nil => exact .none
  | @cons f g _ _ first _ ih =>
    have here := inFrame first.bindings
    rw [List.findSome?_cons, List.findSome?_cons]
    generalize f.bindings.lookup name = x at here ⊢
    generalize g.bindings.lookup name = y at here ⊢
    cases here with
    | none => exact ih
    | some like => exact .some like

theorem breakable (like : s.Like L t) : t.breakable = s.breakable := by
  have frames := like.frames
  unfold Scope.breakable
  generalize s.frames = l at frames ⊢
  generalize t.frames = l' at frames ⊢
  cases frames with
  | nil => rfl
  | cons first _ => exact first.breakable

theorem bind (like : s.Like L t) (name : String) {e e' : Expr} (same : Expr.Like L e e') :
    (s.bind name e).Like L (t.bind name e') := by
  obtain ⟨script, frames⟩ := s
  obtain ⟨script', frames'⟩ := t
  obtain ⟨scripts, frames⟩ := like
  cases frames with
  | nil => exact ⟨scripts, .nil⟩
  | cons first others =>
    exact ⟨scripts, .cons ⟨.cons ⟨rfl, same⟩ first.bindings, first.breakable⟩ others⟩

theorem push (like : s.Like L t) {f g : Frame} (frame : f.Like L g) : (s.push f).Like L (t.push g) :=
  ⟨like.script, .cons frame like.frames⟩

end Scope.Like

/-- Two worlds with the same declarations, in which one script is resolved. -/
structure Fork where
  base : Registry
  left : World
  right : World
  coherent : base.coherent = true
  macros : right.macros = left.macros
  params : ∀ m ∈ left.macros, ∀ p ∈ m.params, p.ty < base.entries.length
  keys : 0 < left.nextKey
  keys' : 0 < right.nextKey

namespace Fork
variable (F : Fork)

/-- Twins correspond, and numbers that were drawn after as many others. -/
def likeness (w w' : World) : Likeness where
  types := Twin F.base w.types w'.types
  handles h h' := ∃ n, h = F.left.nextHandle + n ∧ h' = F.right.nextHandle + n ∧ h < w.nextHandle
  keys k k' := k = 0 ∧ k' = 0 ∨ ∃ n, k = F.left.nextKey + n ∧ k' = F.right.nextKey + n
  deferred i i' := ∃ n, i = F.left.deferred.length + n ∧ i' = F.right.deferred.length + n ∧
    i < w.deferred.length

/-- What is the same in both worlds, also after a failure. -/
structure Kept (w w' : World) : Prop where
  siblings : Siblings F.base w.types w'.types
  added : F.left.types.entries <+: w.types.entries
  added' : F.right.types.entries <+: w'.types.entries
  macros : w.macros = F.left.macros
  macros' : w'.macros = F.left.macros

/-- Two runs that have come equally far. -/
structure Worlds (w w' : World) : Prop extends F.Kept w w' where
  depth : w'.depth = w.depth
  handles : ∃ n, w.nextHandle = F.left.nextHandle + n ∧ w'.nextHandle = F.right.nextHandle + n
  keys : ∃ n, w.nextKey = F.left.nextKey + n ∧ w'.nextKey = F.right.nextKey + n
  count : ∃ n, w.deferred.length = F.left.deferred.length + n ∧
    w'.deferred.length = F.right.deferred.length + n
  /-- A placeholder stands for an expression over those before it. -/
  deferred : ∀ {i i'}, (F.likeness w w').deferred i i' →
    Option.Rel (Option.Rel (Expr.Like ((F.likeness w w').below i))) w.deferred[i]? w'.deferred[i']?

structure States (s s' : Resolving) : Prop where
  worlds : F.Worlds s.world s'.world
  scope : s.scope.Like (F.likeness s.world s'.world) s'.scope

variable {F} {w w' v v' : World}

theorem Kept.keep (kept : F.Kept w w') (types : v.types = w.types) (types' : v'.types = w'.types)
    (macros : v.macros = w.macros) (macros' : v'.macros = w'.macros) : F.Kept v v' :=
  ⟨types ▸ types' ▸ kept.siblings, types ▸ kept.added, types' ▸ kept.added', macros.trans kept.macros,
    macros'.trans kept.macros'⟩

theorem likeness_keyed : (F.likeness w w').Keyed := by
  intro a a' b b' first second
  have := F.keys
  have := F.keys'
  rcases first with ⟨rfl, rfl⟩ | ⟨n, rfl, rfl⟩ <;> rcases second with ⟨rfl, rfl⟩ | ⟨m, rfl, rfl⟩ <;> omega

/-- The worlds have gone on. -/
structure Grown (w w' v v' : World) : Prop where
  added : w.types.entries <+: v.types.entries
  added' : w'.types.entries <+: v'.types.entries
  handles : w.nextHandle ≤ v.nextHandle
  deferred : w.deferred.length ≤ v.deferred.length

theorem Grown.le (grown : Grown w w' v v') : (F.likeness w w').Le (F.likeness v v') where
  types twin := twin.grown grown.added grown.added'
  handles := fun ⟨n, here, there, below⟩ => ⟨n, here, there, Nat.lt_of_lt_of_le below grown.handles⟩
  keys same := same
  deferred := fun ⟨n, here, there, below⟩ => ⟨n, here, there, Nat.lt_of_lt_of_le below grown.deferred⟩

/-- What corresponds to itself from the start. -/
structure Grounded (F : Fork) (L : Likeness) : Prop where
  old : ∀ {t}, t < F.base.entries.length → L.types t t
  builtin : ∀ {t}, (early : t ≤ Registry.agentOrNull := by decide) → L.types t t
  sink : L.keys 0 0
  keyed : L.Keyed

theorem Worlds.grounded (worlds : F.Worlds w w') : F.Grounded (F.likeness w w') :=
  ⟨Twin.old, fun early => worlds.siblings.builtin early, .inl ⟨rfl, rfl⟩, likeness_keyed⟩

theorem entry_mono {L M : Likeness} (le : L.Le M) {x y : Option (Option Expr)}
    (same : Option.Rel (Option.Rel (Expr.Like L)) x y) : Option.Rel (Option.Rel (Expr.Like M)) x y := by
  cases same with
  | none => exact .none
  | some entry =>
    cases entry with
    | none => exact .some .none
    | some like => exact .some (.some (Expr.Like.mono le like))

/-- More types and numbers leave placeholders what they are. -/
theorem Worlds.next (worlds : F.Worlds w w') (kept : F.Kept v v') (grown : Grown w w' v v')
    (depth : v'.depth = v.depth)
    (handles : ∃ n, v.nextHandle = F.left.nextHandle + n ∧ v'.nextHandle = F.right.nextHandle + n)
    (keys : ∃ n, v.nextKey = F.left.nextKey + n ∧ v'.nextKey = F.right.nextKey + n)
    (deferred : v.deferred = w.deferred) (deferred' : v'.deferred = w'.deferred) : F.Worlds v v' where
  toKept := kept
  depth := depth
  handles := handles
  keys := keys
  count := by
    rw [deferred, deferred']
    exact worlds.count
  deferred {i i'} same := by
    obtain ⟨n, here, there, below⟩ := same
    rw [deferred] at below
    rw [deferred, deferred']
    exact entry_mono (grown.le.below i) (worlds.deferred ⟨n, here, there, below⟩)

end Fork

section
variable {base r r' : Registry} (siblings : Siblings base r r')
include siblings

theorem Registry.Twin.checkCast (first : Twin base r r' a b) (second : Twin base r r' c d) :
    Paired (fun _ _ => True) (fun _ _ => True) (r.checkCast a c) (r'.checkCast b d) := by
  unfold Registry.checkCast
  rw [Twin.canCast siblings.closed siblings.left siblings.right first second]
  split
  · exact .ok trivial
  · exact .error trivial

end

namespace Fork.States
variable {F : Fork} {s s' : Resolving}

theorem take (states : F.States s s') {h h' n : Nat} (here : h = s.world.nextHandle + n)
    (there : h' = s'.world.nextHandle + n) :
    F.States { s with world.nextHandle := h } { s' with world.nextHandle := h' } ∧
      (F.likeness s.world s'.world).Le
        (F.likeness { s.world with nextHandle := h } { s'.world with nextHandle := h' }) := by
  obtain ⟨worlds, scope⟩ := states
  have grown : Grown s.world s'.world { s.world with nextHandle := h } { s'.world with nextHandle := h' } :=
    ⟨List.prefix_rfl, List.prefix_rfl, here ▸ Nat.le_add_right _ _, Nat.le_refl _⟩
  have kept : F.Kept { s.world with nextHandle := h } { s'.world with nextHandle := h' } :=
    worlds.keep rfl rfl rfl rfl
  obtain ⟨k, before, before'⟩ := worlds.handles
  have after := worlds.next kept grown worlds.depth
    ⟨k + n, here.trans (by omega), there.trans (by omega)⟩ worlds.keys rfl rfl
  exact ⟨⟨after, scope.mono grown.le⟩, grown.le⟩

theorem reserve (states : F.States s s') :
    F.States { s with world := s.world.reserve.2 } { s' with world := s'.world.reserve.2 } ∧
      (F.likeness s.world s'.world).Le (F.likeness s.world.reserve.2 s'.world.reserve.2) ∧
      (F.likeness s.world.reserve.2 s'.world.reserve.2).deferred s.world.deferred.length
        s'.world.deferred.length := by
  obtain ⟨worlds, scope⟩ := states
  obtain ⟨n, here, there⟩ := worlds.count
  have length (w : World) : w.reserve.2.deferred.length = w.deferred.length + 1 := by simp [World.reserve]
  have grown : Grown s.world s'.world s.world.reserve.2 s'.world.reserve.2 :=
    ⟨List.prefix_rfl, List.prefix_rfl, Nat.le_refl _, by rw [length]; exact Nat.le_succ _⟩
  refine ⟨⟨⟨worlds.keep rfl rfl rfl rfl, worlds.depth, worlds.handles, worlds.keys,
    ⟨n + 1, by rw [length, here, Nat.add_assoc], by rw [length, there, Nat.add_assoc]⟩, ?_⟩,
    scope.mono grown.le⟩, grown.le, ⟨n, here, there, by rw [length]; exact Nat.lt_succ_self _⟩⟩
  rintro i i' ⟨k, rfl, rfl, below⟩
  rw [length] at below
  change Option.Rel _ (s.world.deferred ++ [none])[_]? (s'.world.deferred ++ [none])[_]?
  by_cases last : k = n
  · subst last
    rw [← here, ← there, List.getElem?_concat_length, List.getElem?_concat_length]
    exact .some .none
  · have old : F.left.deferred.length + k < s.world.deferred.length := by omega
    rw [List.getElem?_append_left old, List.getElem?_append_left (by omega)]
    exact entry_mono (grown.le.below _) (worlds.deferred ⟨k, rfl, rfl, old⟩)

/-- A placeholder that was reserved is bound in both runs. -/
theorem bindDeferred (states : F.States s s') {id id' : Nat}
    (same : (F.likeness s.world s'.world).deferred id id') {e e' : Expr}
    (like : Expr.Like ((F.likeness s.world s'.world).below id) e e') :
    F.States { s with world := s.world.bindDeferred id e } { s' with world := s'.world.bindDeferred id' e' } ∧
      (F.likeness s.world s'.world).Le
        (F.likeness (s.world.bindDeferred id e) (s'.world.bindDeferred id' e')) := by
  obtain ⟨worlds, scope⟩ := states
  have length (w : World) (id : Nat) (e : Expr) :
      (w.bindDeferred id e).deferred.length = w.deferred.length := by
    simp [World.bindDeferred]
  have grown : Grown s.world s'.world (s.world.bindDeferred id e) (s'.world.bindDeferred id' e') :=
    ⟨List.prefix_rfl, List.prefix_rfl, Nat.le_refl _, by rw [length]⟩
  refine ⟨⟨⟨worlds.keep rfl rfl rfl rfl, worlds.depth, worlds.handles, worlds.keys,
    by rw [length, length]; exact worlds.count, ?_⟩, scope.mono grown.le⟩, grown.le⟩
  obtain ⟨m, rfl, rfl, inside⟩ := same
  obtain ⟨n, here, there⟩ := worlds.count
  rintro i i' ⟨k, rfl, rfl, below⟩
  rw [length] at below
  simp only [World.bindDeferred]
  by_cases bound : k = m
  · subst bound
    rw [List.getElem?_set_self inside, List.getElem?_set_self (by omega)]
    exact .some (.some (Expr.Like.mono (grown.le.below _) like))
  · rw [List.getElem?_set_ne (by omega), List.getElem?_set_ne (by omega)]
    exact entry_mono (grown.le.below _) (worlds.deferred ⟨k, rfl, rfl, below⟩)

end Fork.States

namespace Fork

/-- Runs in both worlds. They fail together, for whatever causes, and what corresponds once does so to the
end. -/
def course (F : Fork) : Course Unit {L : Likeness // F.Grounded L} where
  meets _ k s s' := F.States s s' ∧ k.1 = F.likeness s.world s'.world
  grows _ k k' := k.1.Le k'.1
  leave _ k' := k'
  cause _ _ := True
  failed s s' _ _ := F.Kept s.world s'.world
  counts _ := True

theorem rules (F : Fork) : F.course.Rules where
  refl _ k := .refl k.1
  trans := .trans
  further := .trans
  left := id
  counted _ _ := trivial
  same _ := trivial
  refused met _ := met.1.worlds.toKept
  leaves := id

variable {F : Fork} {k : {L : Likeness // F.Grounded L}} {x : Resolve α} {x' : Resolve β}
  {s s' : Resolving}

theorem framed {frame : Scope → Frame}
    (frames : ∀ {M : Likeness} {c c'}, Scope.Like M c c' → (frame c).Like M (frame c')) :
    F.course.Framed i j frame where
  enter met := ⟨⟨met.1.worlds, met.1.scope.push (frames met.1.scope)⟩, met.2⟩
  exit met grown inside _ := by
    refine ⟨⟨inside.1.worlds, ?_⟩, inside.2⟩
    exact met.1.scope.mono (met.2 ▸ inside.2 ▸ grown)

section
variable {post : {L : Likeness // F.Grounded L} → α → β → Prop}

theorem States.ends (states : F.States s s') (le : k.1.Le (F.likeness s.world s'.world))
    (known : post ⟨_, states.worlds.grounded⟩ a a') : F.course.Ends b i k post (.ok a, s) (.ok a', s') :=
  have grown : F.course.grows b k ⟨_, states.worlds.grounded⟩ := le
  .ok grown ⟨states, rfl⟩ known

theorem bindName (name : String) {e e' : Expr} (like : Expr.Like k.1 e e') :
    F.course.Step b i k (fun k' _ _ => k' = k ∧ True) (Resolve.bind name e) (Resolve.bind name e') :=
  ⟨fun met _ => .ok (.refl _) ⟨⟨met.1.worlds, met.1.scope.bind name (met.2 ▸ like)⟩, met.2⟩ ⟨rfl, trivial⟩⟩

theorem inTypes {x x' : TypeM TypeId} (makes : ∀ {r r'}, Siblings F.base r r' →
      k.1.types = Twin F.base r r' → TypeM.Ends F.base r r' (Twin F.base) (x.run r) (x'.run r')) :
    F.course.Step b i k (fun k' => k'.1.types) (.inWorld (.inTypes x)) (.inWorld (.inTypes x')) := by
  refine ⟨fun {s s'} met _ => ?_⟩
  obtain ⟨states, same⟩ := met
  have here := makes states.worlds.siblings (congrArg Likeness.types same)
  have run (y : TypeM TypeId) (s : Resolving) : (Resolve.inWorld (WorldM.inTypes y)).run s =
      ((y.run s.world.types).1.mapError (.of ∘ .type),
        { s with world := { s.world with types := (y.run s.world.types).2 } }) := by
    simp only [Resolve.inWorld, WorldM.run_inTypes]
  rw [run, run]
  generalize x.run s.world.types = ran at here ⊢
  generalize x'.run s'.world.types = ran' at here ⊢
  have kept {r r' : Registry} (siblings : Siblings F.base r r') (added : s.world.types.entries <+: r.entries)
      (added' : s'.world.types.entries <+: r'.entries) :
      F.Kept { s.world with types := r } { s'.world with types := r' } :=
    ⟨siblings, states.worlds.added.trans added, states.worlds.added'.trans added', states.worlds.macros,
      states.worlds.macros'⟩
  cases here with
  | error siblings added added' => exact .error (kept siblings added added')
  | @ok r r' a b siblings added added' answer =>
    have grown : Grown s.world s'.world { s.world with types := r } { s'.world with types := r' } :=
      ⟨added, added', Nat.le_refl _, Nat.le_refl _⟩
    have worlds := states.worlds.next (kept siblings added added') grown states.worlds.depth
      states.worlds.handles states.worlds.keys rfl rfl
    exact States.ends ⟨worlds, states.scope.mono grown.le⟩ (same ▸ grown.le) answer

theorem freshKey :
    F.course.Step b i k (fun k' => k'.1.keys) Resolve.freshKey Resolve.freshKey := by
  refine ⟨fun {s s'} met _ => ?_⟩
  obtain ⟨⟨worlds, scope⟩, same⟩ := met
  obtain ⟨n, here, there⟩ := worlds.keys
  have grown : Grown s.world s'.world { s.world with nextKey := s.world.nextKey + 1 }
      { s'.world with nextKey := s'.world.nextKey + 1 } :=
    ⟨List.prefix_rfl, List.prefix_rfl, Nat.le_refl _, Nat.le_refl _⟩
  have kept : F.Kept { s.world with nextKey := s.world.nextKey + 1 }
      { s'.world with nextKey := s'.world.nextKey + 1 } :=
    worlds.keep rfl rfl rfl rfl
  have after := worlds.next kept grown worlds.depth worlds.handles
    ⟨n + 1, by simp [here]; rfl, by simp [there]; rfl⟩ rfl rfl
  exact States.ends ⟨after, scope.mono grown.le⟩ (same ▸ grown.le) (.inr ⟨n, here, there⟩)

theorem freshHandle :
    F.course.Step b i k (fun k' => k'.1.handles) Resolve.freshHandle Resolve.freshHandle := by
  refine ⟨fun {s s'} met _ => ?_⟩
  obtain ⟨states, same⟩ := met
  have run (s : Resolving) : Resolve.freshHandle.run s = (.ok s.world.nextHandle,
      { s with world.nextHandle := max s.world.nextHandle (s.world.nextHandle + 1) }) := rfl
  have after := states.take (n := 1) (Nat.max_eq_right (Nat.le_succ _)) (Nat.max_eq_right (Nat.le_succ _))
  obtain ⟨n, here, there⟩ := states.worlds.handles
  rw [run, run]
  exact after.1.ends (same ▸ after.2)
    ⟨n, here, there, Nat.lt_of_lt_of_le (Nat.lt_succ_self _) (Nat.le_max_right _ _)⟩

theorem inBody {scope scope' : Scope} (scopes : scope.Like k.1 scope') (inner : F.course.Step b i k post x x') :
    F.course.Step b i k post (Resolve.inBody scope x) (Resolve.inBody scope' x') := by
  refine ⟨fun {s s'} met _ => ?_⟩
  obtain ⟨states, same⟩ := met
  rw [Resolve.run_inBody, Resolve.run_inBody, states.worlds.depth]
  split
  · exact .error states.worlds.toKept
  · have deeper : F.States ⟨{ s.world with depth := s.world.depth + 1 }, scope⟩
        ⟨{ s'.world with depth := s.world.depth + 1 }, scope'⟩ := by
      have worlds := states.worlds
      exact ⟨⟨worlds.keep rfl rfl rfl rfl, rfl, worlds.handles, worlds.keys,
        worlds.count, worlds.deferred⟩, same ▸ scopes⟩
    have here := inner.ends ⟨deeper, same⟩ trivial
    generalize x.run ⟨{ s.world with depth := s.world.depth + 1 }, scope⟩ = ran at here ⊢
    generalize x'.run ⟨{ s'.world with depth := s.world.depth + 1 }, scope'⟩ = ran' at here ⊢
    cases here with
    | error kept => exact .error (kept.keep rfl rfl rfl rfl)
    | ok grown after answer =>
      have worlds := after.1.worlds
      refine .ok grown ⟨⟨⟨worlds.keep rfl rfl rfl rfl, rfl, worlds.handles, worlds.keys,
        worlds.count, worlds.deferred⟩, ?_⟩, after.2⟩ answer
      exact states.scope.mono (same ▸ after.2 ▸ grown)

/-- A placeholder stands for an expression that was found before it was reserved. -/
theorem deferring (mono : ∀ {l l' a b}, l.1.Le l'.1 → post l a b → post l' a b) {x : Nat → Resolve (α × Expr)}
    {x' : Nat → Resolve (β × Expr)} (each : ∀ {l id id'}, k.1.Le (l.1.below id) → l.1.deferred id id' →
      F.course.Step b i l (fun l' p p' => post l' p.1 p'.1 ∧ Expr.Like (l'.1.below id) p.2 p'.2) (x id) (x' id')) :
    F.course.Step b i k post (Resolve.deferring x) (Resolve.deferring x') := by
  refine ⟨fun {s s'} met _ => ?_⟩
  obtain ⟨states, same⟩ := met
  obtain ⟨reserved, grown, isNew⟩ := states.reserve
  have below : k.1.Le ((F.likeness s.world.reserve.2 s'.world.reserve.2).below s.world.deferred.length) := by
    rw [same]
    refine ⟨grown.types, grown.handles, grown.keys, fun same => ⟨grown.deferred same, ?_⟩⟩
    obtain ⟨_, _, _, below⟩ := same
    exact below
  have here := (each (l := ⟨_, reserved.worlds.grounded⟩) below isNew).ends ⟨reserved, rfl⟩ trivial
  simp only [Resolve.deferring]
  generalize (x s.world.deferred.length).run { s with world := s.world.reserve.2 } = ran at here ⊢
  generalize (x' s'.world.deferred.length).run { s' with world := s'.world.reserve.2 } = ran' at here ⊢
  cases here with
  | error kept => exact .error kept
  | @ok l t t' p p' more after answer =>
    obtain ⟨a, e⟩ := p
    obtain ⟨b, e'⟩ := p'
    obtain ⟨after, reached⟩ := after
    obtain ⟨bound, last⟩ := after.bindDeferred (reached ▸ more.deferred isNew) (reached ▸ answer.2)
    rw [← reached] at last
    exact bound.ends (same ▸ grown.trans (more.trans last)) (mono last answer.1)

end

end Fork

end AgentScript
