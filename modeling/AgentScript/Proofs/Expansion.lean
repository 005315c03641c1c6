import AgentScript.Proofs.Resolution.Invariant

/-! Macro expansion ends. What is resolved stands at a level, which knows the macros, how many bodies
are around, and what is written there. Each body is one level further in, and there are levels only as
deep as bodies may be nested: resolution at a level asks for the bodies inside of it and for nothing
else, so that it does not matter what would happen beyond the last one. A body is refused because of
its depth only at the end of a chain of macros, each called in the body of the one before. -/
namespace AgentScript
variable {m : Macro}

/-- What is written in a tree that bears on the macros expanded in it. -/
inductive Note where
  | call (name : String) (args : List Term)
  /-- A name that may stand for any number of slots. Any other name stands for one. -/
  | synonym (name : String)

mutual
def Term.notes : Term → List Note
  | .int _ | .float _ | .str _ | .bytes _ | .id _ | .messageId .. => []
  | .group items | .chain _ items => termsNotes items
  | .call name args => .call name args :: termsNotes args
  | .field base _ | .cast base _ | .denull base | .isInstance base _ | .not base => Term.notes base
  | .compare _ left right | .logic _ left right => Term.notes left ++ Term.notes right
  | .inline parts _ => fragmentsNotes parts
  | .seq body result => bodyNotes body ++ Term.notes result
def termsNotes : List Term → List Note
  | [] => []
  | t :: rest => Term.notes t ++ termsNotes rest
def termNotes? : Option Term → List Note
  | none => []
  | some t => Term.notes t
def Fragment.notes : Fragment → List Note
  | .text _ => []
  | .term t => Term.notes t
def fragmentsNotes : List Fragment → List Note
  | [] => []
  | f :: rest => Fragment.notes f ++ fragmentsNotes rest
def Selector.notes : Selector → List Note
  | .name _ => []
  | .number t => Term.notes t
def Statement.notes : Statement → List Note
  | .mk _ kind => StatementKind.notes kind
def bodyNotes : List Statement → List Note
  | [] => []
  | s :: rest => Statement.notes s ++ bodyNotes rest
def statementNotes? : Option Statement → List Note
  | none => []
  | some s => Statement.notes s
def StatementKind.notes : StatementKind → List Note
  | .block body _ => bodyNotes body
  | .declare _ _ init => termNotes? init
  | .assign targets source => termNotes? targets ++ Term.notes source
  | .update _ target source => Term.notes target ++ Term.notes source
  | .synonym name target => .synonym name :: Term.notes target
  | .branch cond yes no => Term.notes cond ++ Statement.notes yes ++ statementNotes? no
  | .loop body => Statement.notes body
  | .breakLoop | .continueLoop => []
  | .enumerate _ _ params body => termsNotes params ++ Statement.notes body
  | .inline parts => fragmentsNotes parts
  | .send agent message params delay =>
    Term.notes agent ++ Selector.notes message ++ termsNotes params ++ termNotes? delay
  | .call script params => Selector.notes script ++ termsNotes params
end

theorem Cause.isDepth_iff {c : Cause} : c.isDepth = true ↔ ∃ n, c = .macroDepth n := by
  constructor
  · unfold isDepth
    split
    · exact fun _ => ⟨_, rfl⟩
    · nofun
  · rintro ⟨n, rfl⟩
    rfl

/-- Where resolution is: among some macros, with some bodies around, in what is noted. -/
structure Level where
  macros : List Macro
  depth : Nat
  notes : List Note

namespace Level

/-- The level of a macro body. -/
def inside (L : Level) (m : Macro) : Level := ⟨L.macros, L.depth + 1, m.body.notes⟩

def nested (L : Level) : Nested := nestedCalls (macroLevels - L.depth)

end Level

/-- Names that are not noted stand for one slot. -/
def Scope.Narrow (notes : List Note) (scope : Scope) : Prop :=
  ∀ f ∈ scope.frames, ∀ b ∈ f.bindings, Slices.len b.2 = 1 ∨ .synonym b.1 ∈ notes

structure Resolving.At (L : Level) (s : Resolving) : Prop where
  macros : s.world.macros = L.macros
  depth : s.world.depth = L.depth
  scope : s.scope.Narrow L.notes

namespace Level

/-- A call that is written at the level finds a macro, once its arguments are resolved. -/
def Expands (L : Level) (m : Macro) : Prop :=
  ∃ name args s e t, .call name args ∈ L.notes ∧ s.At L ∧
    (Meaning.grouped (meanings L.nested args)).run s = (.ok e, t) ∧
    t.world.findMacro name (Slices.len e) = .ok m

/-- Macros, the first called at the level and each other in the body of the one before. -/
inductive Chain : Level → List Macro → Prop
  | nil (L : Level) : Chain L []
  | cons (L : Level) (m : Macro) (rest : List Macro) :
    L.Expands m → Chain (L.inside m) rest → Chain L (m :: rest)

/-- Some chain leads deeper than bodies may be nested. -/
def Deep (L : Level) : Prop := ∃ chain, L.Chain chain ∧ macroLevels < chain.length + L.depth

theorem Deep.outside {L : Level} (expands : L.Expands m) : (L.inside m).Deep → L.Deep := by
  rintro ⟨chain, isChain, long⟩
  refine ⟨m :: chain, .cons L m chain expands isChain, ?_⟩
  rw [List.length_cons, Nat.add_assoc, Nat.add_comm 1]
  exact long

/-- A macro that is called at the last level leads too deep. -/
theorem Expands.deep {L : Level} (expands : L.Expands m) (last : macroLevels ≤ L.depth) : L.Deep := by
  refine ⟨[m], .cons L m [] expands (.nil _), ?_⟩
  rw [List.length_singleton]
  omega

end Level

section
variable {L : Level} {nested : Nested}

theorem Scope.narrow_iff {notes : List Note} {scope : Scope} :
    scope.Narrow notes ↔ scope.Binds fun name e => Slices.len e = 1 ∨ .synonym name ∈ notes :=
  Iff.rfl

def Node.notes : Node → List Note
  | .term t => t.notes
  | .terms ts => termsNotes ts
  | .term? t => termNotes? t
  | .fragments fs => fragmentsNotes fs
  | .selector s => s.notes
  | .statement s => s.notes
  | .body ss => bodyNotes ss
  | .statement? s => statementNotes? s
  | .kind k => k.notes

def Level.facts (L : Level) : Facts Unit := .ofSource (fun _ n => n.notes ⊆ L.notes) id

/-- Steps at a level, in what is noted there, are the same and stay there. They fail because of the depth only
if that is exceeded from this level. -/
abbrev Level.reading (L : Level) : Reading Unit Unit :=
  L.facts.reading (fun _ s => s.At L) fun _ f => f.cause.isDepth = true → L.Deep

theorem Level.facts_lawful (L : Level) : L.facts.Lawful := by
  refine Facts.ofSource_lawful fun written inner => ?_
  cases inner <;> simp_all [Node.notes, Term.notes, termsNotes, termNotes?, Fragment.notes, fragmentsNotes,
    Selector.notes, Statement.notes, bodyNotes, statementNotes?, StatementKind.notes]

theorem Resolving.At.bind {s : Resolving} (here : s.At L) {name : String} {e : Expr}
    (fits : Slices.len e = 1 ∨ .synonym name ∈ L.notes) : At L { s with scope := s.scope.bind name e } :=
  ⟨here.macros, here.depth, (Scope.narrow_iff.mp here.scope).bind fits⟩

theorem Resolving.At.push {s : Resolving} (here : s.At L) {f : Frame} (empty : f.bindings = []) :
    At L { s with scope := s.scope.push f } :=
  ⟨here.macros, here.depth, (Scope.narrow_iff.mp here.scope).push empty⟩

theorem Level.kept (L : Level) :
    L.facts.Kept (fun _ s => s.At L) fun _ f => f.cause.isDepth = true → L.Deep where
  toLawful := L.facts_lawful
  refused _ other isDepth := absurd ((Cause.notDepth other).symm.trans isDepth) Bool.false_ne_true
  leaves failed := failed
  locates failed := by
    rw [Failure.locate_cause]
    exact failed
  meetsApart _ := rfl
  meetsLocated _ _ := rfl
  meetsAlone _ := rfl
  meetsParams _ := rfl
  typeRef _ here := { here with }
  nonNullable _ here := { here with }
  numbers _ _ here := { here with }
  lookup _ _ := trivial
  bindVar _ _ _ here := here.bind (.inl rfl)
  bindTarget _ _ _ here := here.bind (.inl rfl)
  bindSynonym written _ here := here.bind (.inr (written List.mem_cons_self))
  enter here := here.push rfl
  enterLoop here := here.push rfl
  exit here inside := ⟨inside.macros, inside.depth, here.scope⟩
  exitLoop here inside := ⟨inside.macros, inside.depth, here.scope⟩
  macros _ _ _ := trivial
  reserve here := { here with }
  bindDeferred _ here _ := { here with }
  breakLoop _ _ := by
    split
    · trivial
    · nofun
  continueLoop _ _ := by
    split
    · trivial
    · nofun
  ofKind _ _ := trivial

/-- What a resolver of bodies is at a level: the same as one with just the levels that are left. -/
def Level.Allows (L : Level) (nested : Nested) : Prop :=
  L.depth < macroLevels → ∀ m : Macro, (L.inside m).reading.Step false () ()
    ((L.inside m).reading.expr ()) (L.nested m.body) (nested m.body)

namespace Macro

/-- Parameters and the variables of scripts stand for one slot. -/
theorem bodyScope_narrow (m : Macro) (script : ScriptTypes) (placeholder : Leaf) (notes : List Note) :
    (m.bodyScope script placeholder).Narrow notes := by
  refine Scope.narrow_iff.mpr (.params (.root fun b member => .inl ?_) fun _ _ _ => .inl ?_)
  · simp only [Scope.builtins, List.mem_cons, List.not_mem_nil, or_false] at member
    rcases member with rfl | rfl | rfl | rfl | rfl | rfl | rfl | rfl <;> rfl
  · rw [Slices.len_cons, Piece.run_len, Slices.len_nil]

/-- A body is resolved one level further in, unless there is none. -/
theorem inBody_bounded (allows : L.Allows nested) (expands : L.Expands m) {scope : Scope}
    (narrow : scope.Narrow m.body.notes) :
    L.reading.Step false () () (L.reading.expr ()) (Resolve.inBody scope (L.nested m.body))
      (Resolve.inBody scope (nested m.body)) := by
  refine ⟨fun {_ s} here _ => ?_⟩
  obtain ⟨rfl, here⟩ := here
  rw [Resolve.run_inBody, Resolve.run_inBody, here.depth]
  split
  · next last => exact .error ⟨rfl, rfl, fun _ => expands.deep last⟩
  · next left =>
    have inside : Resolving.At (L.inside m) ⟨{ s.world with depth := L.depth + 1 }, scope⟩ :=
      ⟨here.macros, rfl, narrow⟩
    have ends := (allows (Nat.lt_of_not_le left) m).ends ⟨rfl, inside⟩ trivial
    generalize (L.nested m.body).run _ = ran at ends ⊢
    generalize (nested m.body).run _ = ran' at ends ⊢
    cases ends with
    | error failed => exact .error ⟨by rw [failed.1], failed.2.1, fun isDepth => .outside expands (failed.2.2 isDepth)⟩
    | ok _ after known =>
      obtain ⟨rfl, after⟩ := after
      exact .ok (l := ()) trivial ⟨rfl, after.macros, rfl, here.scope⟩ known

end Macro

theorem Level.reading_lawful (allows : L.Allows nested) : L.reading.Lawful L.nested nested where
  toSteps := L.kept.steps L.nested nested
  calls {_ name args k} written each := by
    have steps := L.kept.steps L.nested nested
    -- The arguments are found in some state of the level, which the chain of macros is told by.
    refine steps.bind (Meaning.grouped_reads steps each).traced fun _ found => .world fun {_ u} there => ?_
    obtain ⟨⟨rfl, _⟩, s, _, t, _, here, after, ran⟩ := found
    obtain ⟨rfl, there⟩ := there
    refine steps.except (A := fun m m' => m' = m ∧ L.Expands m) (Facts.Kept.paired steps.same
      (u.world.findMacro_calm name _) fun m isMacro => ⟨rfl, name, args, s, _, t, ?_, here.2, ran, ?_⟩) fun {m _} same => ?_
    · exact written List.mem_cons_self
    · rw [World.findMacro, World.hasMacro, after.2.macros, ← there.macros]
      exact isMacro
    · obtain ⟨rfl, expands⟩ := same
      exact Macro.expand_reads steps ⟨rfl, trivial⟩ (fun _ _ => rfl) fun _ => L.kept.expandBody trivial trivial
        fun _ _ _ => Macro.inBody_bounded allows expands (Macro.bodyScope_narrow _ _ _ _)

/-- Resolves bodies by resolving those in them, until after some levels `nested` is asked. -/
def Nested.unfolded (nested : Nested) : (levels : Nat) → Nested
  | 0 => nested
  | levels + 1 => fun body => (body.meaning (nested.unfolded levels)).value

theorem nestedCalls_unfolded (levels : Nat) :
    nestedCalls levels = Nested.unfolded (fun _ => Resolve.fail (.macroDepth macroLevels)) levels := by
  induction levels with
  | zero => rfl
  | succ levels ih =>
    funext body
    rw [nestedCalls, Nested.unfolded, ih]

/-- As many levels as are left are enough, whatever would be beyond them. -/
theorem Nested.unfolded_allowed (nested : Nested) {levels : Nat}
    (enough : macroLevels ≤ levels + L.depth) : L.Allows (nested.unfolded levels) := by
  intro left m
  induction levels generalizing L m with
  | zero => omega
  | succ levels ih =>
    have deeper : (L.inside m).depth = L.depth + 1 := rfl
    have bodies : L.nested m.body = (m.body.meaning (L.inside m).nested).value := by
      have next : macroLevels - L.depth = macroLevels - (L.inside m).depth + 1 := by omega
      rw [Level.nested, next, nestedCalls, ← Level.nested]
    have inner : (L.inside m).Allows (nested.unfolded levels) :=
      ih (L := L.inside m) (by omega)
    rw [bodies]
    exact (Term.meaning_reads (Level.reading_lawful inner) m.body (i := ()) (List.Subset.refl _)).value

end

/-- The names of a scope that do not stand for one slot. -/
def Scope.wide (scope : Scope) : List Note :=
  scope.frames.flatMap fun f => f.bindings.filterMap fun b =>
    if Slices.len b.2 = 1 then none else some (.synonym b.1)

def Resolving.level (s : Resolving) (notes : List Note) : Level :=
  ⟨s.world.macros, s.world.depth, notes ++ s.scope.wide⟩

theorem Resolving.at_level (s : Resolving) (notes : List Note) : s.At (s.level notes) := by
  refine ⟨rfl, rfl, fun f isFrame b isBinding => ?_⟩
  by_cases single : Slices.len b.2 = 1
  · exact .inl single
  · refine .inr (List.mem_append_right _ ?_)
    exact List.mem_flatMap.mpr ⟨f, isFrame, List.mem_filterMap.mpr ⟨b, isBinding, if_neg single⟩⟩

namespace Resolve

/-- A step that resolves macro bodies, in a state where it comes across what is noted. -/
structure Ends (s : Resolving) (notes : List Note) (x : Nested → Resolve α) : Prop where
  /-- Bodies are asked for on the levels that are left, and never beyond. -/
  total : ∀ (nested : Nested) levels, macroLevels ≤ levels + s.world.depth →
    (x (nested.unfolded levels)).run s = (x (nestedCalls macroLevels)).run s
  /-- All bodies are left again. -/
  depth : ((x (nestedCalls macroLevels)).run s).2.world.depth = s.world.depth
  /-- Depth is refused only at the end of a chain that is too long. -/
  refused : ∀ f t n, (x (nestedCalls macroLevels)).run s = (.error f, t) → f.cause = .macroDepth n →
    ∃ chain, (s.level notes).Chain chain ∧ macroLevels < chain.length + s.world.depth
  /-- Where all chains are short enough, depth is not refused. -/
  allowed : (∀ chain, (s.level notes).Chain chain → chain.length + s.world.depth ≤ macroLevels) →
    ∀ f t n, (x (nestedCalls macroLevels)).run s = (.error f, t) → f.cause ≠ .macroDepth n

theorem Ends.of_bounded {s : Resolving} {notes : List Note} {x : Nested → Resolve α}
    (bounded : ∀ nested, (s.level notes).Allows nested → (s.level notes).reading.Step b () ()
      (fun _ a a' => a' = a ∧ True) (x (s.level notes).nested) (x nested)) : Ends s notes x := by
  have here := s.at_level notes
  have enough (nested : Nested) {levels : Nat} (left : macroLevels ≤ levels + s.world.depth) :=
    Facts.Kept.found (bounded _ (Nested.unfolded_allowed (L := s.level notes) nested left)) here
  have whole := enough (fun _ => Resolve.fail (.macroDepth macroLevels)) (Nat.le_add_right macroLevels _)
  rw [← nestedCalls_unfolded] at whole
  have refused : ∀ f t n, (x (nestedCalls macroLevels)).run s = (.error f, t) →
      f.cause = .macroDepth n →
      ∃ chain, (s.level notes).Chain chain ∧ macroLevels < chain.length + s.world.depth := by
    intro f t n failed isDepth
    rw [whole.1] at failed
    exact whole.2.2 failed (Cause.isDepth_iff.mpr ⟨n, isDepth⟩)
  refine ⟨fun nested levels left => ?_, ((x _).later s).world.depth, refused, ?_⟩
  · rw [(enough nested left).1, whole.1]
  · intro short f t n failed isDepth
    obtain ⟨chain, isChain, long⟩ := refused f t n failed isDepth
    exact Nat.lt_irrefl _ (Nat.lt_of_lt_of_le long (short chain isChain))

/-- Resolution of every term and statement ends in every state, with as many bodies around as before.
It is refused because of the depth only if there is a chain of more than `macroLevels` macros, each
called in the body of the one before. -/
theorem expansion_ends (s : Resolving) :
    (∀ t : Term, Ends s t.notes (fun nested => (t.meaning nested).const) ∧
      Ends s t.notes (fun nested => (t.meaning nested).value) ∧
      Ends s t.notes fun nested => (t.meaning nested).cond) ∧
    ∀ a : Statement, Ends s a.notes fun nested => a.resolve nested := by
  have written (notes : List Note) : notes ⊆ (s.level notes).notes := List.subset_append_left ..
  refine ⟨fun t => ?_, fun a => ?_⟩
  · have term {nested} (allows : (s.level t.notes).Allows nested) :=
      t.meaning_reads (Level.reading_lawful allows) (i := ()) (written t.notes)
    exact ⟨.of_bounded fun _ allows => (term allows).const.imp fun _ known => ⟨known.1, trivial⟩,
      .of_bounded fun _ allows => (term allows).value, .of_bounded fun _ allows => (term allows).cond⟩
  · exact .of_bounded fun nested allows =>
      a.resolve_reads (Level.reading_lawful allows) (i := ()) (written a.notes)

def runaway : Resolving :=
  ⟨{ World.initial with macros := [⟨"again", [], .call "again" [], .unknown⟩] },
    .root (.ofOwner Registry.agent)⟩

theorem expansion_ends_runaway :
    (∃ f t n, (term (.call "again" [])).value.run runaway = (.error f, t) ∧ f.cause = .macroDepth n) ∧
      ∃ chain, (runaway.level (Term.notes (.call "again" []))).Chain chain ∧
        macroLevels < chain.length + 0 := by
  have refused : (match ((term (.call "again" [])).value.run runaway).1 with
      | .error f => f.cause.isDepth
      | .ok _ => false) = true := by decide +kernel
  rcases ran : (term (.call "again" [])).value.run runaway with ⟨f | e, t⟩
  · rw [ran] at refused
    obtain ⟨n, isDepth⟩ := Cause.isDepth_iff.mp refused
    obtain ⟨_, ends, _⟩ := (expansion_ends runaway).1 (.call "again" [])
    exact ⟨⟨f, t, n, rfl, isDepth⟩, ends.refused f t n ran isDepth⟩
  · rw [ran] at refused
    cases refused

end Resolve

end AgentScript
