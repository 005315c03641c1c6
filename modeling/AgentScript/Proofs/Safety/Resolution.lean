import AgentScript.Proofs.Resolution.Facts

/-! Steps of resolution find sound expressions. A stage is what is known, and how many placeholders there
are; no handle is bound within an expression. Only runs that succeed count: a placeholder that is left
without an expression belongs to a run that failed. -/
namespace AgentScript

/-- Each name is bound to what it may be. -/
def Scope.Binds (P : String → Expr → Prop) (scope : Scope) : Prop :=
  ∀ f ∈ scope.frames, ∀ b ∈ f.bindings, P b.1 b.2

namespace Scope.Binds
variable {P : String → Expr → Prop} {scope : Scope} {name : String} {e : Expr}

theorem lookup (binds : scope.Binds P) (found : scope.lookup? name = some e) : P name e := by
  obtain ⟨f, isFrame, here⟩ := List.exists_of_findSome?_eq_some found
  obtain ⟨before, after, same, _⟩ := List.lookup_eq_some_iff.mp here
  exact binds f isFrame (name, e) (by simp [same])

theorem bind (binds : scope.Binds P) (fits : P name e) : (scope.bind name e).Binds P := by
  obtain ⟨script, frames⟩ := scope
  cases frames with
  | nil => exact binds
  | cons head outer =>
    obtain ⟨first, others⟩ := List.forall_mem_cons.mp binds
    exact List.forall_mem_cons.mpr ⟨List.forall_mem_cons.mpr ⟨fits, first⟩, others⟩

theorem push (binds : scope.Binds P) {f : Frame} (empty : f.bindings = []) : (scope.push f).Binds P := by
  refine List.forall_mem_cons.mpr ⟨?_, binds⟩
  rw [empty]
  exact List.forall_mem_nil _

theorem root {script : ScriptTypes} (each : ∀ b ∈ Scope.builtins script, P b.1 b.2) :
    (Scope.root script).Binds P :=
  List.forall_mem_singleton.mpr each

theorem params {leaf : Leaf} {i : Nat} {params : List MacroParam} (binds : scope.Binds P)
    (each : ∀ name, ∀ j < params.length, P name [Piece.run leaf (i + j) 1]) :
    (Macro.bindParams leaf i params scope).Binds P := by
  induction params generalizing scope i with
  | nil => exact binds
  | cons p rest ih =>
    refine ih (binds.bind (each p.name 0 (Nat.succ_pos _))) fun name j inside => ?_
    rw [Nat.add_assoc, Nat.add_comm 1]
    exact each name (j + 1) (Nat.succ_lt_succ inside)

end Scope.Binds

variable {s t : Resolving}

variable {o : Outcome} {k k' : Known} {n n' : Nat}

/-- The placeholders that have an expression have the same one in the end. -/
def Outcome.Covers (o : Outcome) (w : World) : Prop :=
  ∀ (id : Nat) (e : Expr), w.deferred[id]? = some (some e) → o.deferred[id]? = some (some e)

theorem Outcome.Covers.earlier (covers : o.Covers v) (later : w.Later v) : o.Covers w := by
  intro id e bound
  obtain ⟨rest, same⟩ := later.deferred
  have inside : id < w.deferred.length := (List.getElem?_eq_some_iff.mp bound).1
  refine covers id e ?_
  rw [← same, List.getElem?_append_left inside]
  exact bound

structure Outcome.Describes (o : Outcome) (k : Known) (s : Resolving) : Prop where
  sizes : k.sizes.length = s.world.nextKey
  /-- The key of the variable that takes any value. -/
  sink : k.sizes[0]? = some 1
  scope : s.scope.Binds fun _ e => e.Sound o k s.world.deferred.length

theorem Outcome.Describes.bound (describes : o.Describes k s) (more : k.handles ⊆ handles) :
    o.Describes ⟨k.sizes, handles⟩ s :=
  ⟨describes.sizes, describes.sink, fun f isFrame b isBinding =>
    (describes.scope f isFrame b isBinding).mono ⟨List.prefix_rfl, more⟩ (Nat.le_refl _)⟩

/-- A scope that was described before still is when more keys are known. -/
theorem Outcome.Describes.resume (describes : o.Describes k s) (inner : o.Describes k' t)
    (grows : k.sizes <+: k'.sizes) (later : s.world.deferred <+: t.world.deferred) :
    o.Describes ⟨k'.sizes, k.handles⟩ ⟨t.world, s.scope⟩ :=
  ⟨inner.sizes, inner.sink, fun f isFrame b isBinding =>
    (describes.scope f isFrame b isBinding).mono ⟨grows, List.Subset.refl _⟩
      later.length_le⟩

namespace Resolve

theorem run_bind_ok {x : Resolve α} {f : α → Resolve β} (ran : (x >>= f).run s = (.ok b, t)) :
    ∃ a u, x.run s = (.ok a, u) ∧ (f a).run u = (.ok b, t) := by
  rw [run_bind] at ran
  split at ran
  · next a u first => exact ⟨a, u, first, ran⟩
  · cases ran

theorem ofExcept_ok {x : Except Cause α} (ran : (ofExcept x).run s = (.ok a, t)) : x = .ok a ∧ t = s := by
  cases x with
  | error c => cases ran
  | ok a =>
    cases ran
    exact ⟨rfl, rfl⟩

theorem checkCast_ok (ran : (checkCast a c).run s = (.ok u, t)) : t = s := by
  obtain ⟨_, _, ⟨⟩, ran⟩ := run_bind_ok ran
  cases checked : s.world.types.checkCast a c with
  | ok _ =>
    rw [checked] at ran
    cases ran
    rfl
  | error e =>
    rw [checked] at ran
    cases ran

theorem located_ok {x : Resolve α} (ran : (x.located pos).run s = (.ok a, t)) : x.run s = (.ok a, t) := by
  obtain ⟨ok, rfl⟩ := Prod.mk.inj ran
  exact Prod.ext (mapError_ok ok) rfl

end Resolve

/-- Runs that succeed, in states that are described, with placeholders that have the same expression in the
end. -/
def Outcome.course (o : Outcome) : Course Unit (Known × Nat) where
  meets _ k s s' := s' = s ∧ s.world.deferred.length = k.2 ∧ o.Describes k.1 s
  grows b k k' := k.1.Grows k'.1 ∧ k.2 ≤ k'.2 ∧ (b = false → k'.1.handles = k.1.handles)
  leave k k' := (⟨k'.1.sizes, k.1.handles⟩, k'.2)
  cause _ _ := True
  failed _ _ _ _ := True
  counts := o.Covers

/-- Statements are safe where they stand, and only the handles that they declare are bound for what follows. -/
def Outcome.Writes (o : Outcome) (k k' : Known × Nat) (code : Placeholder → Emit Unit) (declared : List Nat) : Prop :=
  (∀ rounds ≥ k'.2, (code (o.table rounds)).Safe k.1.handles) ∧ k'.1.handles ⊆ declared ++ k.1.handles

/-- What is found is sound. -/
def Outcome.reading (o : Outcome) : Reading Unit (Known × Nat) :=
  { o.course, Sites.one with
    node _ _ := True
    type _ t t' := t' = t
    key k size n n' := n' = n ∧ k.1.sizes[n]? = some size
    var _ v v' := v' = v
    expr _ k e e' := e' = e ∧ e.Sound o k.1 k.2
    cond _ k c c' := c' = c ∧ c.Sound o k.1.handles k.2
    parts _ k ps ps' := ps' = ps ∧ ∀ p ∈ ps, p.Sound o k.1.handles k.2
    arm _ k a a' := a' = a ∧ ∀ rounds ≥ k.2, (a.kind.run o.env (o.table rounds)).Safe k.1.handles
    action _ k k' a a' := a' = a ∧ o.Writes k k' (a.kind.run o.env) a.declared
    actions _ k k' as as' := as' = as ∧ o.Writes k k' (runAll o.env · as) (declaredAll as)
    kind _ k k' a a' := a' = a ∧ o.Writes k k' (a.run o.env) a.declared }

namespace Outcome
variable {k k' : Known × Nat}

theorem rules (o : Outcome) : o.course.Rules where
  refl _ k := ⟨.refl k.1, Nat.le_refl _, fun _ => rfl⟩
  trans first second := ⟨first.1.trans second.1, Nat.le_trans first.2.1 second.2.1,
    fun quiet => (second.2.2 quiet).trans (first.2.2 rfl)⟩
  further first second := ⟨first.1.trans second.1, Nat.le_trans first.2.1 second.2.1, nofun⟩
  left grown := ⟨⟨grown.1.sizes, List.Subset.refl _⟩, grown.2.1, fun _ => rfl⟩
  counted later covers := covers.earlier later
  same _ := trivial
  refused _ _ := trivial
  leaves _ := trivial

theorem step {x : Resolve α} {post : Known × Nat → α → α → Prop}
    (found : ∀ {s a t}, s.world.deferred.length = k.2 → o.Describes k.1 s → x.run s = (.ok a, t) →
      o.Covers t.world → ∃ k', o.course.grows b k k' ∧ t.world.deferred.length = k'.2 ∧ o.Describes k'.1 t ∧
        post k' a a) : o.course.Step b i k post x x := by
  refine ⟨fun {_ s} met covers => ?_⟩
  obtain ⟨rfl, count, describes⟩ := met
  rcases ran : x.run s with ⟨f | a, t⟩
  · exact .error trivial
  · rw [ran] at covers
    obtain ⟨k', grown, count, describes, here⟩ := found count describes ran covers
    exact .ok grown ⟨rfl, count, describes⟩ here

theorem found {x : Resolve α} {y : Resolve β} {post : Known × Nat → α → β → Prop} (step : o.course.Step b i k post x y)
    (count : s.world.deferred.length = k.2) (describes : o.Describes k.1 s) (ran : x.run s = (.ok a, t))
    (covers : o.Covers t.world) : ∃ k', o.course.grows b k k' ∧ t.world.deferred.length = k'.2 ∧
      o.Describes k'.1 t ∧ ∃ a', post k' a a' := by
  have ends := step.ends ⟨rfl, count, describes⟩ (by rw [ran]; exact covers)
  rw [ran] at ends
  generalize y.run s = result at ends
  cases ends with
  | ok grown met known => exact ⟨_, grown, met.2.1, met.2.2, _, known⟩

/-- A step that concerns neither keys nor placeholders nor the scope. -/
theorem still {x : Resolve α} {post : Known × Nat → α → α → Prop}
    (same : ∀ {s a t}, x.run s = (.ok a, t) → t.world.nextKey = s.world.nextKey ∧
      t.world.deferred = s.world.deferred ∧ t.scope = s.scope ∧ post k a a) : o.course.Step b i k post x x := by
  refine step fun count describes ran _ => ?_
  obtain ⟨keys, deferred, scope, here⟩ := same ran
  refine ⟨k, o.rules.refl b k, by rw [deferred, count], ⟨describes.sizes.trans keys.symm, describes.sink, ?_⟩, here⟩
  rw [deferred, scope]
  exact describes.scope

theorem inTypes (x : TypeM α) :
    o.course.Step b i k (fun _ a a' => a' = a) (.inWorld (.inTypes x)) (.inWorld (.inTypes x)) := by
  refine still fun {s a t} ran => ?_
  have after : t = { s with world := ((WorldM.inTypes x).run s.world).2 } := (congrArg Prod.snd ran).symm
  rw [after, WorldM.run_inTypes]
  exact ⟨rfl, rfl, rfl, rfl⟩

theorem freshKey (size : Nat) :
    o.course.Step false i k (fun k' => o.reading.key k' size) Resolve.freshKey Resolve.freshKey := by
  refine step fun count describes ran covers => ?_
  cases ran
  have grows : k.1.Grows ⟨k.1.sizes ++ [size], k.1.handles⟩ := ⟨List.prefix_append _ _, List.Subset.refl _⟩
  have inside := (List.getElem?_eq_some_iff.mp describes.sink).1
  refine ⟨(_, k.2), ⟨grows, Nat.le_refl _, fun _ => rfl⟩, count, ⟨?_, ?_, fun f isFrame b isBinding => ?_⟩, rfl, ?_⟩
  · simp [describes.sizes]
  · rw [List.getElem?_append_left inside]
    exact describes.sink
  · exact (describes.scope f isFrame b isBinding).mono grows (Nat.le_refl _)
  · simp [← describes.sizes]

theorem bindName (name : String) (sound : e.Sound o k.1 k.2) :
    o.course.Step b i k (fun k' _ _ => k' = k ∧ True) (Resolve.bind name e) (Resolve.bind name e) := by
  refine step fun count describes ran covers => ?_
  cases ran
  exact ⟨k, o.rules.refl b k, count, ⟨describes.sizes, describes.sink, describes.scope.bind (count ▸ sound)⟩,
    rfl, trivial⟩

theorem binding {x : Resolve α} {y : Resolve β} {post : Known × Nat → α → β → Prop} (handles : List Nat)
    (step : o.course.Step true i (⟨k.1.sizes, handles ++ k.1.handles⟩, k.2) post x y) :
    o.course.Step true i k post x y := by
  have more : k.1.handles ⊆ handles ++ k.1.handles := List.subset_append_right _ _
  refine ⟨fun met covers => (step.ends ⟨met.1, met.2.1, met.2.2.bound more⟩ covers).imp fun grown met known => ?_⟩
  exact ⟨⟨⟨grown.1.sizes, List.Subset.trans more grown.1.handles⟩, grown.2.1, nofun⟩, met, known⟩

theorem framed {frame : Scope → Frame} (empty : ∀ s, (frame s).bindings = []) : o.course.Framed i j frame where
  enter met := by
    obtain ⟨rfl, count, describes⟩ := met
    exact ⟨rfl, count, describes.sizes, describes.sink, describes.scope.push (empty _)⟩
  exit met grown inside later := by
    obtain ⟨rfl, count, describes⟩ := met
    obtain ⟨rfl, after, described⟩ := inside
    exact ⟨rfl, after, describes.resume described grown.1.sizes later.deferred⟩

end Outcome

def Nested.Sound (o : Outcome) (nested : Nested) : Prop :=
  ∀ t k, o.reading.Step false () k (o.reading.expr ()) (nested t) (nested t)

namespace Macro
variable {m : Macro} {args : Expr}

/-- The slots of a placeholder are sound where what it stands for is. -/
theorem placeholder_piece_sound {key id i : Nat} {e : Expr} (keyed : k.sizes[key]? = some m.params.length)
    (bound : o.deferred[id]? = some (some e)) (sound : e.Sound o k id)
    (count : Slices.len e = m.params.length) (inside : i < m.params.length) (enough : id < n) :
    PieceSound o k n (Piece.run (m.placeholder key id) i 1) := by
  have slots : Slotted.count (m.placeholder key id) = m.params.length := by
    change (Leaf.accesses (.deferred key id _)).length = _
    rw [Leaf.accesses]
    simp
  refine ⟨fun key' same => ?_, Piece.run_fits (by omega), fun rounds more => ?_⟩
  · rw [Piece.run_leaf] at same ⊢
    cases same
    rw [slots]
    exact keyed
  · rw [Piece.run_leaf]
    obtain ⟨rounds, rfl⟩ : ∃ r, rounds = r + 1 := ⟨rounds - 1, by omega⟩
    have found : o.table (rounds + 1) id = some (codeOf o.env (o.table rounds) e) := by
      simp [Outcome.table, placeholders, bound]
    change (Leaf.code o.env _ (.deferred key id _)).Safe _
    refine deferredCode_safe _ found (sound.code (by omega)) ?_
    rw [codeOf_len, count]
    simp

theorem root_describes (script : ScriptTypes) {w : World} (sizes : k.sizes.length = w.nextKey)
    (sink : k.sizes[0]? = some 1) : o.Describes k ⟨w, Scope.root script⟩ := by
  refine ⟨sizes, sink, .root fun b isBinding => ?_⟩
  simp only [Scope.builtins, List.mem_cons, List.not_mem_nil, or_false] at isBinding
  rcases isBinding with rfl | rfl | rfl | rfl | rfl | rfl | rfl | rfl
  iterate 7 exact builtin_sound _ _ _ _
  exact sink_sound sink _

/-- Copies of sound expressions, and the expression that the variables make together with the slots
that are not copied. -/
theorem copied_sound (sound : args.Sound o k n) {next next' : Nat} {copied : Cache.Result Leaf}
    (made : Cache.ofExpr args m.isValue m.paramName next = (.ok copied, next')) :
    (∀ c ∈ copied.copies, Expr.Sound o k n c.1 ∧ c.2.length = Slices.len c.1) ∧
    Expr.Sound o ⟨k.sizes, copyHandles copied.copies ++ k.handles⟩ n copied.output ∧
    Slices.len copied.output = Slices.len args := by
  have input : Slices.All (PieceSound o k n)
      (Cache.Source.mk args args.readType m.paramName LocalVar.leaf).input := sound
  obtain ⟨sources, outputs, total⟩ := Cache.make_parts (pieceSound_kept o k n) input made
  refine ⟨sources, ?_, total fun v => ?_⟩
  · have more : k.Grows ⟨k.sizes, copyHandles copied.copies ++ k.handles⟩ :=
      ⟨List.prefix_rfl, List.subset_append_right _ _⟩
    refine outputs (pieceSound_kept o _ n) (fun p here => here.mono more (Nat.le_refl n)) ?_
    intro c member v isVar
    have bound := copyHandles_subset member (List.mem_map_of_mem isVar)
    exact var_sound (List.mem_append_left _ bound) v.ty true _ List.mem_cons_self
  · change (Leaf.accesses (.var v.handle v.ty true)).length = 1
    rfl

theorem run_copyArgs {copied : Cache.Result Leaf} (ran : (m.copyArgs args).run s = (.ok copied, t)) :
    (∃ next', Cache.ofExpr args m.isValue m.paramName s.world.nextHandle = (.ok copied, next')) ∧
    t.world.deferred = s.world.deferred ∧ t.world.nextKey = s.world.nextKey ∧ t.scope = s.scope := by
  change (Resolve.ofExcept (Cache.ofExpr args m.isValue m.paramName s.world.nextHandle).1).run _ = _
    at ran
  rcases made : Cache.ofExpr args m.isValue m.paramName s.world.nextHandle with ⟨e | c, next'⟩
  · rw [made] at ran
    cases ran
  · rw [made] at ran
    cases ran
    exact ⟨⟨next', rfl⟩, rfl, rfl, rfl⟩

theorem run_expandBody {nested : Nested} {body : Expr} {copies : List (Expr × List LocalVar)}
    (ran : (m.expandBody nested args).run s = (.ok (body, copies), t)) :
    ∃ (u : Resolving) (copied : Cache.Result Leaf) (next next' : Nat),
      (nested m.body).run
        ⟨{ s.world.reserve.2 with nextKey := s.world.nextKey + 1, depth := s.world.depth + 1 },
          m.bodyScope s.scope.script (m.placeholder s.world.nextKey s.world.deferred.length)⟩ =
        (.ok body, u) ∧
      Cache.ofExpr args m.isValue m.paramName next = (.ok copied, next') ∧
      copies = copied.copies ∧ t.scope = s.scope ∧ t.world.nextKey = u.world.nextKey ∧
      t.world.deferred = u.world.deferred.set s.world.deferred.length (some copied.output) := by
  simp only [expandBody, Resolve.deferring] at ran
  split at ran
  · next found =>
    cases ran
    obtain ⟨key, s₁, ranKey, found⟩ := Resolve.run_bind_ok found
    cases ranKey
    obtain ⟨scope, s₂, ranScope, found⟩ := Resolve.run_bind_ok found
    cases ranScope
    obtain ⟨body', s₃, ranBody, found⟩ := Resolve.run_bind_ok found
    obtain ⟨copied, s₄, ranCopies, found⟩ := Resolve.run_bind_ok found
    cases found
    obtain ⟨⟨next', made⟩, deferred, keys, scope⟩ := run_copyArgs ranCopies
    obtain ⟨u, nestedOk, rfl⟩ := Resolve.inBody_ok ranBody
    refine ⟨u, copied, _, next', nestedOk, made, rfl, scope, keys, ?_⟩
    simp only [World.bindDeferred, deferred]
  · cases ran

/-- The body of a macro is sound where the copies of the arguments are bound. -/
theorem expandBody_sound {nested : Nested} (resolves : nested.Sound o) (sound : args.Sound o k n)
    (count : Slices.len args = m.params.length) :
    o.course.Step false () (k, n) (fun k' r r' => r' = r ∧
      (∀ c ∈ r.2, Expr.Sound o k'.1 k'.2 c.1 ∧ c.2.length = Slices.len c.1) ∧
      r.1.Sound o ⟨k'.1.sizes, copyHandles r.2 ++ k'.1.handles⟩ k'.2)
      (m.expandBody nested args) (m.expandBody nested args) := by
  refine Outcome.step fun {s r t} isLength describes ran covers => ?_
  obtain ⟨body, copies⟩ := r
  dsimp only at isLength describes
  obtain ⟨u, copied, next, next', ranBody, made, rfl, scope, keys, deferred⟩ := run_expandBody ran
  obtain ⟨sources, output, total⟩ := copied_sound sound made
  have later := (nested m.body).later
    ⟨{ s.world.reserve.2 with nextKey := s.world.nextKey + 1, depth := s.world.depth + 1 },
      m.bodyScope s.scope.script (m.placeholder s.world.nextKey s.world.deferred.length)⟩
  rw [ranBody] at later
  -- The placeholder is the one that is reserved for this call, so nothing else binds it.
  have reserved : u.world.deferred[n]? = some none := by
    obtain ⟨rest, same⟩ := later.world.deferred
    rw [← same]
    simp [World.reserve, isLength]
  have inside : n < u.world.deferred.length := (List.getElem?_eq_some_iff.mp reserved).1
  have bound : o.deferred[n]? = some (some copied.output) := by
    refine covers n copied.output ?_
    rw [deferred, isLength, List.getElem?_set_self inside]
  have covered : o.Covers u.world := by
    intro id e found
    have other : n ≠ id := by
      rintro rfl
      simp [reserved] at found
    refine covers id e ?_
    rw [deferred, isLength, List.getElem?_set_ne other]
    exact found
  -- What is known inside the body: the size of the placeholder and the handles of the copies.
  let known : Known := ⟨k.sizes ++ [m.params.length], copyHandles copied.copies ++ k.handles⟩
  have keyed : known.sizes[s.world.nextKey]? = some m.params.length := by
    simp [known, ← describes.sizes]
  have root : o.Describes known
      ⟨{ s.world.reserve.2 with nextKey := s.world.nextKey + 1, depth := s.world.depth + 1 },
        Scope.root s.scope.script⟩ := by
    refine root_describes _ (by simp [known, describes.sizes]) ?_
    exact List.getElem?_append_left (List.getElem?_eq_some_iff.mp describes.sink).1 ▸ describes.sink
  have given : o.Describes known
      ⟨{ s.world.reserve.2 with nextKey := s.world.nextKey + 1, depth := s.world.depth + 1 },
        m.bodyScope s.scope.script (m.placeholder s.world.nextKey s.world.deferred.length)⟩ := by
    refine ⟨root.sizes, root.sink, root.scope.params fun _ j small => List.forall_mem_singleton.mpr ?_⟩
    have outputSound : Expr.Sound o known n copied.output :=
      Expr.Sound.mono output ⟨List.prefix_append _ _, List.Subset.refl _⟩ (Nat.le_refl n)
    rw [isLength, Nat.zero_add]
    refine placeholder_piece_sound keyed bound outputSound (total.trans count) small ?_
    simp [World.reserve, isLength]
  obtain ⟨k', grows, after, described, _, rfl, bodySound⟩ :=
    Outcome.found (resolves m.body (known, _)) rfl given ranBody covered
  have sizes : k.sizes <+: k'.1.sizes := (List.prefix_append _ _).trans grows.1.sizes
  have length : t.world.deferred.length = u.world.deferred.length := by rw [deferred, List.length_set]
  have more : n ≤ k'.2 := after ▸ Nat.le_of_lt inside
  refine ⟨(⟨k'.1.sizes, k.handles⟩, k'.2), ⟨⟨sizes, List.Subset.refl _⟩, more, fun _ => rfl⟩, length.trans after, ?_,
    rfl, fun c member => ?_, ?_⟩
  · have resumed := describes.resume described sizes
      ((World.Later.reserve s.world).deferred.trans later.world.deferred)
    refine ⟨resumed.sizes.trans keys.symm, resumed.sink, ?_⟩
    rw [length, scope]
    exact resumed.scope
  · exact ⟨(sources c member).1.mono ⟨sizes, List.Subset.refl _⟩ more, (sources c member).2⟩
  · exact bodySound.mono ⟨List.prefix_rfl, by simp [grows.2.2 rfl, known]⟩ (Nat.le_refl _)

end Macro

end AgentScript
