import AgentScript.Proofs.Likeness.Law
import AgentScript.Resolve.Tree

/-! Two runs of resolution side by side. A course says which states go together at a site of the source
and at a stage of the runs, and which failures do. Stages follow on each other, and within an expression
they do so in fewer ways than from one statement to the next. -/
namespace AgentScript

structure Course (ι κ : Type) where
  /-- The states that go together. -/
  meets : ι → κ → Resolving → Resolving → Prop
  /-- The stages that follow on others, in statements and (for `false`) within expressions. -/
  grows : Bool → κ → κ → Prop
  /-- The stage after a frame, by those before it and at its end. -/
  leave : κ → κ → κ
  cause : Cause → Cause → Prop
  failed : Resolving → Resolving → Failure → Failure → Prop
  /-- The worlds that runs may end with. -/
  counts : World → Prop

namespace Course
variable (C : Course ι κ)

/-- Both runs have failed, or both have come further with answers that go together. -/
inductive Ends (b : Bool) (i : ι) (k : κ) (post : κ → α → β → Prop) :
    Except Failure α × Resolving → Except Failure β × Resolving → Prop where
  | ok : C.grows b k l → C.meets i l t t' → post l a a' → Ends b i k post (.ok a, t) (.ok a', t')
  | error : C.failed t t' f f' → Ends b i k post (.error f, t) (.error f', t')

structure Step (b : Bool) (i : ι) (k : κ) (post : κ → α → β → Prop) (x : Resolve α) (y : Resolve β) :
    Prop where
  ends : ∀ {s s'}, C.meets i k s s' → C.counts (x.run s).2.world → C.Ends b i k post (x.run s) (y.run s')

abbrev Asks (i : ι) (k : κ) (A : α → β → Prop) (x : Resolve α) (y : Resolve β) : Prop :=
  C.Step false i k (fun k' a a' => k' = k ∧ A a a') x y

structure Rules : Prop where
  refl : ∀ b k, C.grows b k k
  trans : C.grows false k k' → C.grows b k' k'' → C.grows b k k''
  further : C.grows true k k' → C.grows true k' k'' → C.grows true k k''
  left : C.grows true k k' → C.grows false k (C.leave k k')
  counted : w.Later v → C.counts v → C.counts w
  same : ∀ {c}, c.isPlace = false → C.cause c c
  refused : C.meets i k s s' → C.cause c d → C.failed s s' (.of c) (.of d)
  /-- A failure goes through the frames around it. -/
  leaves : C.failed s s' f f' → C.failed { s with scope := s.scope.leave } { s' with scope := s'.scope.leave } f f'

variable {C}

theorem Ends.imp {P Q : κ → α → β → Prop} {p q} (ends : C.Ends b i k P p q)
    (weaker : ∀ {k' t t' a a'}, C.grows b k k' → C.meets i k' t t' → P k' a a' →
      C.grows c l k' ∧ C.meets j k' t t' ∧ Q k' a a') : C.Ends c j l Q p q := by
  cases ends with
  | error failed => exact .error failed
  | ok grown met known =>
    obtain ⟨grown, met, known⟩ := weaker grown met known
    exact .ok grown met known

namespace Step
variable {x : Resolve α} {y : Resolve β} {P : κ → α → β → Prop}

theorem site (step : C.Step b i k P x y) (same : C.meets j = C.meets i) : C.Step b j k P x y := by
  refine ⟨fun met counted => ?_⟩
  rw [same] at met
  exact (step.ends met counted).imp fun grown met known => ⟨grown, same ▸ met, known⟩

theorem imp {Q : κ → α → β → Prop} (step : C.Step b i k P x y)
    (weaker : ∀ {k' a a'}, C.grows b k k' → P k' a a' → Q k' a a') : C.Step b i k Q x y :=
  ⟨fun met counted => (step.ends met counted).imp fun grown met known => ⟨grown, met, weaker grown known⟩⟩

theorem traced (step : C.Step b i k P x y) : C.Step b i k (fun k' a a' => P k' a a' ∧
    ∃ s s' t t', C.meets i k s s' ∧ C.meets i k' t t' ∧ x.run s = (.ok a, t)) x y := by
  refine ⟨fun {s s'} met counted => ?_⟩
  have ends := step.ends met counted
  generalize ran : x.run s = result at ends ⊢
  generalize y.run s' = result' at ends ⊢
  cases ends with
  | error failed => exact .error failed
  | ok grown after known => exact .ok grown after ⟨known, _, _, _, _, met, after, ran⟩

theorem ite {c : Prop} [Decidable c] {x' : Resolve α} {y' : Resolve β} (yes : C.Step b i k P x y)
    (no : C.Step b i k P x' y') : C.Step b i k P (if c then x else x') (if c then y else y') := by
  split
  · exact yes
  · exact no

theorem seen {sees : Resolve γ} {answer : Resolving → γ} (reads : ∀ s, sees.run s = (.ok (answer s), s))
    {f : γ → Resolve α} {g : γ → Resolve β}
    (next : ∀ {s s'}, C.meets i k s s' → C.Step b i k P (f (answer s)) (g (answer s'))) :
    C.Step b i k P (sees >>= f) (sees >>= g) := by
  refine ⟨fun {s s'} met counted => ?_⟩
  simp only [Resolve.run_bind, reads] at counted ⊢
  exact (next met).ends met counted

theorem types {f : Registry → Resolve α} {g : Registry → Resolve β}
    (next : ∀ {s s'}, C.meets i k s s' → C.Step b i k P (f s.world.types) (g s'.world.types)) :
    C.Step b i k P (Resolve.types >>= f) (Resolve.types >>= g) :=
  seen (fun _ => rfl) next

theorem scope {f : Scope → Resolve α} {g : Scope → Resolve β}
    (next : ∀ {s s'}, C.meets i k s s' → C.Step b i k P (f s.scope) (g s'.scope)) :
    C.Step b i k P (Resolve.scope >>= f) (Resolve.scope >>= g) :=
  seen (fun _ => rfl) next

theorem world {f : World → Resolve α} {g : World → Resolve β}
    (next : ∀ {s s'}, C.meets i k s s' → C.Step b i k P (f s.world) (g s'.world)) :
    C.Step b i k P (Resolve.world >>= f) (Resolve.world >>= g) :=
  seen (fun _ => rfl) next

theorem located {pos : Position} (keeps : ∀ {t t' f f'}, C.failed t t' f f' →
      C.failed t t' (f.locate pos) (f'.locate pos)) (step : C.Step b i k P x y) :
    C.Step b i k P (x.located pos) (y.located pos) := by
  refine ⟨fun {s s'} met counted => ?_⟩
  have ends := step.ends met counted
  change C.Ends b i k P ((x.run s).1.mapError _, (x.run s).2) ((y.run s').1.mapError _, (y.run s').2)
  generalize x.run s = ran at ends ⊢
  generalize y.run s' = ran' at ends ⊢
  cases ends with
  | error failed => exact .error (keeps failed)
  | ok grown met known => exact .ok grown met known

end Step

namespace Rules
variable (rules : C.Rules)
include rules
variable {x : Resolve α} {y : Resolve β} {f : α → Resolve γ} {g : β → Resolve δ}
  {P : κ → α → β → Prop} {Q : κ → γ → δ → Prop}

theorem bindBy {c : Bool} (trans : ∀ {k' k''}, C.grows b k k' → C.grows c k' k'' → C.grows c k k'')
    (first : C.Step b i k P x y)
    (next : ∀ {k' a a'}, C.grows b k k' → P k' a a' → C.Step c i k' Q (f a) (g a')) :
    C.Step c i k Q (x >>= f) (y >>= g) := by
  refine ⟨fun {s s'} met counted => ?_⟩
  have ends := first.ends met
  rw [Resolve.run_bind] at counted ⊢
  rw [Resolve.run_bind]
  generalize x.run s = ran at ends counted ⊢
  generalize y.run s' = ran' at ends ⊢
  obtain ⟨_ | a, t⟩ := ran
  · cases ends counted with
    | error failed => exact .error failed
  · cases ends (rules.counted ((f a).later t).world counted) with
    | ok grown met known =>
      exact ((next grown known).ends met counted).imp fun more met known => ⟨trans grown more, met, known⟩

theorem bind (first : C.Step false i k P x y)
    (next : ∀ {k' a a'}, C.grows false k k' → P k' a a' → C.Step b i k' Q (f a) (g a')) :
    C.Step b i k Q (x >>= f) (y >>= g) :=
  rules.bindBy rules.trans first next

theorem andThen (first : C.Step true i k P x y)
    (next : ∀ {k' a a'}, C.grows true k k' → P k' a a' → C.Step true i k' Q (f a) (g a')) :
    C.Step true i k Q (x >>= f) (y >>= g) :=
  rules.bindBy rules.further first next

theorem pure (known : P k a a') : C.Step b i k P (Pure.pure a) (Pure.pure a') :=
  ⟨fun met _ => .ok (rules.refl b k) met known⟩

theorem fail {c d : Cause} (causes : C.cause c d) : C.Step b i k P (Resolve.fail c) (Resolve.fail d) :=
  ⟨fun met _ => .error (rules.refused met causes)⟩

theorem failBind {c d : Cause} (causes : C.cause c d) :
    C.Step b i k Q (Resolve.fail c >>= f) (Resolve.fail d >>= g) :=
  ⟨fun met _ => .error (rules.refused met causes)⟩

theorem ofExcept {e : Except Cause α} {e' : Except Cause β} (both : Paired C.cause (P k) e e') :
    C.Step b i k P (Resolve.ofExcept e) (Resolve.ofExcept e') := by
  cases both with
  | ok known => exact rules.pure known
  | error causes => exact rules.fail causes

theorem except {A : α → β → Prop} {e : Except Cause α} {e' : Except Cause β} (both : Paired C.cause A e e')
    (next : ∀ {a a'}, A a a' → C.Step b i k Q (f a) (g a')) :
    C.Step b i k Q (Resolve.ofExcept e >>= f) (Resolve.ofExcept e' >>= g) := by
  cases both with
  | ok known => exact next known
  | error causes => exact rules.failBind causes

theorem exceptType {A : α → β → Prop} {e : Except TypeError α} {e' : Except TypeError β}
    (both : Paired (fun e e' => C.cause (.type e) (.type e')) A e e')
    (next : ∀ {a a'}, A a a' → C.Step b i k Q (f a) (g a')) :
    C.Step b i k Q (Resolve.ofType e >>= f) (Resolve.ofType e' >>= g) := by
  cases both with
  | ok known => exact next known
  | error causes => exact rules.failBind causes

theorem after {A : α → β → Prop} (first : C.Asks i k A x y)
    (next : ∀ {a a'}, A a a' → C.Step b i k Q (f a) (g a')) : C.Step b i k Q (x >>= f) (y >>= g) := by
  refine rules.bind first fun {k' a a'} _ known => ?_
  obtain ⟨rfl, known⟩ := known
  exact next known

theorem forM {xs : List ε} {f f' : ε → Resolve Unit}
    (each : ∀ x, C.Asks i k (fun _ _ => True) (f x) (f' x)) :
    C.Asks i k (fun _ _ => True) (xs.forM f) (xs.forM f') := by
  induction xs with
  | nil => exact rules.pure ⟨rfl, trivial⟩
  | cons x rest ih => exact rules.after (each x) fun _ => ih

end Rules

/-- A frame is entered from one site to another. It takes its names with it. -/
structure Framed (C : Course ι κ) (i j : ι) (frame : Scope → Frame) : Prop where
  enter : C.meets i k s s' → C.meets j k { s with scope := s.scope.push (frame s.scope) }
    { s' with scope := s'.scope.push (frame s'.scope) }
  exit : C.meets i k s s' → C.grows true k k' → C.meets j k' t t' → s.world.Later t.world →
    C.meets i (C.leave k k') ⟨t.world, s.scope⟩ ⟨t'.world, s'.scope⟩

theorem Rules.inFrame (rules : C.Rules) {x : Resolve α} {y : Resolve β} {P Q : κ → α → β → Prop}
    {frame : Scope → Frame} (framed : C.Framed i j frame) (inner : C.Step true j k P x y)
    (left : ∀ {k' a a'}, C.grows true k k' → P k' a a' → Q (C.leave k k') a a') :
    C.Step false i k Q (Resolve.inFrame frame x) (Resolve.inFrame frame y) := by
  refine ⟨fun {s s'} met counted => ?_⟩
  have ends := inner.ends (framed.enter met) counted
  have later := x.later { s with scope := s.scope.push (frame s.scope) }
  have later' := y.later { s' with scope := s'.scope.push (frame s'.scope) }
  have run {γ : Type} (y : Resolve γ) (s : Resolving) : (Resolve.inFrame frame y).run s =
      ((y.run { s with scope := s.scope.push (frame s.scope) }).1,
        { (y.run { s with scope := s.scope.push (frame s.scope) }).2 with
          scope := (y.run { s with scope := s.scope.push (frame s.scope) }).2.scope.leave }) := rfl
  rw [run, run]
  generalize x.run { s with scope := s.scope.push (frame s.scope) } = ran at ends later ⊢
  generalize y.run { s' with scope := s'.scope.push (frame s'.scope) } = ran' at ends later' ⊢
  cases ends with
  | error failed => exact .error (rules.leaves failed)
  | ok grown inside known =>
    have met := framed.exit met grown inside later.world
    rw [← later.scope.leave, ← later'.scope.leave] at met
    exact .ok (rules.left grown) met (left grown known)

end Course

end AgentScript
