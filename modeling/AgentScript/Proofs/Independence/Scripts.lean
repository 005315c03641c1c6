import AgentScript.Proofs.Independence.Relabelled
import AgentScript.Proofs.Independence.Resolved
import AgentScript.Proofs.Safety.Script
import AgentScript.Proofs.ScriptText

/-! What a script of an event adds to the text of a unit is what it adds in a unit of its own, up to the
numbers of labels, whatever other scripts there are and whether or not they fail. This holds where no two
types see interfaces that give one name two meanings in opposite orders. -/
namespace AgentScript
variable {x : WorldM α}

open Registry (Siblings Twin Core)

namespace Fork
variable {F : Fork} {w w' : World}

theorem Worlds.start (siblings : Siblings F.base F.left.types F.right.types)
    (depth : F.right.depth = F.left.depth) : F.Worlds F.left F.right where
  siblings := siblings
  added := List.prefix_rfl
  added' := List.prefix_rfl
  macros := rfl
  macros' := F.macros
  depth := depth
  handles := ⟨0, rfl, rfl⟩
  keys := ⟨0, rfl, rfl⟩
  count := ⟨0, rfl, rfl⟩
  deferred same := by
    obtain ⟨n, rfl, _, below⟩ := same
    omega

/-- Both steps have failed, or both have answered, and the answers go together. -/
inductive Finds (F : Fork) (A : World → World → α → β → Prop) :
    Except Failure α × World → Except Failure β × World → Prop where
  | ok : F.Worlds v v' → A v v' a b → Finds F A (.ok a, v) (.ok b, v')
  | error : F.Kept v v' → Finds F A (.error f, v) (.error f', v')

namespace Finds
variable {A : World → World → α → β → Prop}

theorem kept {ran : Except Failure α × World} {ran' : Except Failure β × World}
    (finds : F.Finds A ran ran') : F.Kept ran.2 ran'.2 := by
  cases finds with
  | ok worlds _ => exact worlds.toKept
  | error kept => exact kept

theorem bind {x' : WorldM α'} {f : α → WorldM β} {f' : α' → WorldM β'} {A : World → World → α → α' → Prop}
    {B : World → World → β → β' → Prop} (first : F.Finds A (x.run w) (x'.run w'))
    (next : ∀ {v v' a b}, F.Worlds v v' → A v v' a b → F.Finds B ((f a).run v) ((f' b).run v')) :
    F.Finds B ((x >>= f).run w) ((x' >>= f').run w') := by
  rw [WorldM.run_bind, WorldM.run_bind]
  generalize x.run w = ran at first ⊢
  generalize x'.run w' = ran' at first ⊢
  cases first with
  | ok worlds here => exact next worlds here
  | error kept => exact .error kept

theorem ofExcept (worlds : F.Worlds w w') {C : Cause → Cause → Prop} {e : Except Cause α}
    {e' : Except Cause β} (both : Paired C (A w w') e e') :
    F.Finds A ((WorldM.ofExcept e).run w) ((WorldM.ofExcept e').run w') := by
  cases both with
  | ok here => exact .ok worlds here
  | error _ => exact .error worlds.toKept

theorem located (pos : Position) {x' : WorldM β} (inner : F.Finds A (x.run w) (x'.run w')) :
    F.Finds A ((x.located pos).run w) ((x'.located pos).run w') := by
  change F.Finds A ((x.run w).1.mapError (·.locate pos), (x.run w).2)
    ((x'.run w').1.mapError (·.locate pos), (x'.run w').2)
  generalize x.run w = ran at inner ⊢
  generalize x'.run w' = ran' at inner ⊢
  cases inner with
  | ok worlds here => exact .ok worlds here
  | error kept => exact .error kept

end Finds

end Fork

/-- Scripts with one frame, the bodies of which are alike. -/
structure Script.Like (L : Likeness) (a b : Script) : Prop where
  kind : b.kind = a.kind
  body : a.body.Like L b.body

section
variable {F : Fork} {w w' : World} (worlds : F.Worlds w w')
include worlds

theorem resolveScript_finds (owners : (F.likeness w w').types owner owner') (body : Statement) :
    F.Finds (fun v v' => Action.Like (F.likeness v v')) ((resolveScript owner body).run w)
      ((resolveScript owner' body).run w') := by
  have builtin {t : TypeId} (known : t ≤ Registry.agentOrNull) : (F.likeness w w').types t t :=
    worlds.grounded.builtin known
  have any : (F.likeness w w').types Registry.any Registry.any := builtin (by decide)
  have types : (ScriptTypes.ofOwner owner).Like (F.likeness w w') (ScriptTypes.ofOwner owner') :=
    ⟨owners, builtin (Nat.le_refl Registry.agentOrNull), any, any⟩
  have states : F.States ⟨w, Scope.root (.ofOwner owner)⟩ ⟨w', Scope.root (.ofOwner owner')⟩ :=
    ⟨worlds, Scope.root_like worlds.grounded types⟩
  have here := (Resolve.statement_steady body ⟨_, worlds.grounded⟩).ends ⟨states, rfl⟩ trivial
  have run (owner : TypeId) (w : World) : (resolveScript owner body).run w =
      (((Resolve.statement body).run ⟨w, Scope.root (.ofOwner owner)⟩).1,
        ((Resolve.statement body).run ⟨w, Scope.root (.ofOwner owner)⟩).2.world) := rfl
  rw [run, run]
  generalize (Resolve.statement body).run ⟨w, Scope.root (.ofOwner owner)⟩ = ran at here ⊢
  generalize (Resolve.statement body).run ⟨w', Scope.root (.ofOwner owner')⟩ = ran' at here ⊢
  cases here with
  | ok _ met like => exact .ok met.1.worlds (met.2 ▸ like)
  | error kept => exact .error kept

theorem installScript_finds (body : Statement) :
    F.Finds (fun v v' => Script.Like (F.likeness v v')) ((installScript body).run w)
      ((installScript body).run w') :=
  (resolveScript_finds worlds worlds.grounded.builtin body).bind fun worlds like =>
    .ok worlds ⟨rfl, like⟩

theorem removeScript_finds (body : Statement) :
    F.Finds (fun v v' => Script.Like (F.likeness v v')) ((removeScript body).run w)
      ((removeScript body).run w') :=
  (resolveScript_finds worlds worlds.grounded.builtin body).bind fun worlds like =>
    .ok worlds ⟨rfl, like⟩

namespace EventScript

theorem number_core (e : EventScript) (core : Core F.base w.types w'.types owner owner') :
    Paired (fun _ _ => True) (fun a b => b = a) (e.number w.types owner) (e.number w'.types owner') := by
  have siblings := worlds.siblings
  unfold number
  cases e.script with
  | number n =>
    dsimp only
    rw [core.scriptName? siblings.closed siblings.left siblings.right]
    exact .ok rfl
  | name name =>
    dsimp only
    rw [Twin.scriptNumber? siblings.closed siblings.left siblings.right (.core core) F.coherent]
    split
    · exact .ok rfl
    · exact .error trivial

theorem owner_finds (c : Classifier) : F.Finds (fun v v' t u => v.types.classifierOf t = some c ∧
      v'.types.classifierOf u = some c) ((WorldM.inTypes (TypeM.make fun r => r.byClassifier c)).run w)
      ((WorldM.inTypes (TypeM.make fun r => r.byClassifier c)).run w') := by
  have run (w : World) : (WorldM.inTypes (TypeM.make fun r => r.byClassifier c)).run w =
      (.ok (w.types.byClassifier c).1, { w with types := (w.types.byClassifier c).2 }) := rfl
  have birth := worlds.siblings.byClassifier c
  have grown : Fork.Grown w w' { w with types := (w.types.byClassifier c).2 }
      { w' with types := (w'.types.byClassifier c).2 } :=
    ⟨birth.added, birth.added', Nat.le_refl _, Nat.le_refl _⟩
  have kept : F.Kept { w with types := (w.types.byClassifier c).2 }
      { w' with types := (w'.types.byClassifier c).2 } :=
    ⟨birth.siblings, worlds.added.trans birth.added, worlds.added'.trans birth.added', worlds.macros,
      worlds.macros'⟩
  rw [run, run]
  exact .ok (worlds.next kept grown worlds.depth worlds.handles worlds.keys rfl rfl)
    ⟨(worlds.siblings.left.byClassifier c).2, (worlds.siblings.right.byClassifier c).2⟩

theorem resolve_finds (e : EventScript) : F.Finds (fun v v' => Script.Like (F.likeness v v'))
    (e.resolve.run w) (e.resolve.run w') := by
  refine (owner_finds worlds e.classifier).bind fun {v v' t u} worlds isClass => ?_
  have siblings := worlds.siblings
  have core : Core F.base v.types v'.types t u := .of_class siblings.left siblings.right isClass.1 isClass.2
  have title : v'.types.name u = v.types.name t := core.class_name siblings.left siblings.right isClass.1
  have current : F.Finds (fun v₁ v₁' x x' => (x = v ∧ x' = v') ∧ v₁ = v ∧ v₁' = v') (WorldM.current.run v)
      (WorldM.current.run v') :=
    .ok worlds ⟨⟨rfl, rfl⟩, rfl, rfl⟩
  refine current.bind fun worlds same => ?_
  obtain ⟨⟨rfl, rfl⟩, rfl, rfl⟩ := same
  have number : F.Finds (fun v₁ v₁' p p' => p' = p ∧ v₁ = _ ∧ v₁' = _) _ _ :=
    .ofExcept worlds ((number_core worlds e core).imp id fun same => ⟨same, rfl, rfl⟩)
  refine number.bind fun {v₁ v₁' p p'} worlds same => ?_
  obtain ⟨rfl, rfl, rfl⟩ := same
  refine (resolveScript_finds worlds (.core core) e.body).bind fun worlds like => .ok worlds ⟨?_, like⟩
  dsimp only
  rw [title]

end EventScript

end

/-- A world that scripts have left of `start`. -/
structure World.Left (start w : World) : Prop where
  above : start.types.Above w.types
  macros : w.macros = start.macros
  later : start.Later w

/-- Where scripts of a unit are resolved. -/
structure World.Start (start : World) : Prop extends start.Declared (fun _ => True) fun _ => True where
  coherent : start.types.coherent = true
  keys : 0 < start.nextKey

theorem Document.declared_start {d : Document} (coherent : d.declared.types.coherent = true) :
    d.declared.Start :=
  ⟨d.declared_known, coherent, (attemptAll_later d.declarationSteps World.initial).keys⟩

namespace World.Start
variable {start v v' : World} (isStart : start.Start)
include isStart

theorem left : start.Left start :=
  have closed := isStart.toDeclared.reachable.closed
  ⟨.refl closed.sound closed.ordered closed.distinct, rfl, .refl _⟩

/-- Two worlds of one unit, or of two units with the same declarations. -/
theorem fork (left : start.Left v) (right : start.Left v') : ∃ F : Fork, F.base = start.types ∧
    F.left = v ∧ F.right = v' ∧ F.Worlds v v' := by
  refine ⟨⟨start.types, v, v', isStart.coherent, right.macros.trans left.macros.symm, fun m isMacro => ?_,
    Nat.lt_of_lt_of_le isStart.keys left.later.keys, Nat.lt_of_lt_of_le isStart.keys right.later.keys⟩,
    rfl, rfl, rfl, .start ⟨isStart.toDeclared.reachable.closed, left.above, right.above⟩
      (right.later.depth.trans left.later.depth.symm)⟩
  rw [left.macros] at isMacro
  exact isStart.params m isMacro

/-- A script leaves what is declared as it was and only adds types. -/
theorem kept {A : Fork → World → World → α → α → Prop}
    (finds : ∀ {F : Fork} {w w' : World}, F.Worlds w w' → F.Finds (A F) (x.run w) (x.run w'))
    (left : start.Left v) : start.Left (x.run v).2 ∧ v.types.entries <+: (x.run v).2.types.entries := by
  obtain ⟨F, base, rfl, _, worlds⟩ := isStart.fork left left
  have kept := (finds worlds).kept
  refine ⟨⟨base ▸ kept.siblings.left, kept.macros.trans left.macros, left.later.trans (x.later _)⟩, kept.added⟩

end World.Start

namespace Document
variable {d : Document}

/-- Every script leaves types and macros as they were, apart from types that it adds. -/
theorem scriptSteps_kept {start v : World} (isStart : start.Start) (left : start.Left v) {x : WorldM Script}
    (isStep : x ∈ d.scriptSteps.map (·.2)) :
    start.Left (x.run v).2 ∧ v.types.entries <+: (x.run v).2.types.entries := by
  obtain ⟨step, member, rfl⟩ := List.mem_map.mp isStep
  rcases List.mem_append.mp member with member | isRemove
  · rcases List.mem_append.mp member with isInstall | isEvent
    · obtain ⟨body, _, rfl⟩ := Option.map_eq_some_iff.mp (Option.mem_toList.mp isInstall)
      exact isStart.kept (fun worlds => installScript_finds worlds body) left
    · obtain ⟨e, _, rfl⟩ := List.mem_map.mp isEvent
      exact isStart.kept (fun worlds => (EventScript.resolve_finds worlds e).located e.pos) left
  · obtain ⟨body, _, rfl⟩ := Option.map_eq_some_iff.mp (Option.mem_toList.mp isRemove)
    exact isStart.kept (fun worlds => removeScript_finds worlds body) left

theorem attemptEach_kept {start v : World} (isStart : start.Start) (left : start.Left v)
    {steps : List (WorldM Script)} (each : ∀ x ∈ steps, x ∈ d.scriptSteps.map (·.2)) :
    start.Left (attemptEach steps v).2 ∧ v.types.entries <+: (attemptEach steps v).2.types.entries ∧
      v.Later (attemptEach steps v).2 := by
  induction steps generalizing v with
  | nil => exact ⟨left, List.prefix_rfl, .refl _⟩
  | cons x rest ih =>
    obtain ⟨isStep, others⟩ := List.forall_mem_cons.mp each
    obtain ⟨after, added⟩ := scriptSteps_kept isStart left isStep
    obtain ⟨last, more, later⟩ := ih after others
    exact ⟨last, added.trans more, (x.later v).trans later⟩

end Document

/-- The lines and comments that a script adds, if it was resolved and can be written in the world `u`. -/
def World.adds (config : Config) (u : World) (first : Nat) (r : Except Failure Script) :
    Option (List (Item Instr)) :=
  r.toOption.bind fun script =>
    (script.items ⟨u.types, config⟩ (placeholderTable ⟨u.types, config⟩ u.deferred) first
      u.nextHandle).1.toOption

namespace Fork
variable {F : Fork} {w w' u u' : World}

/-- Two scripts were resolved in `w` and `w'`, and are written in worlds that others have left. -/
structure Outlived (F : Fork) (w w' u u' : World) : Prop where
  worlds : F.Worlds w w'
  siblings : Siblings F.base u.types u'.types
  added : w.types.entries <+: u.types.entries
  added' : w'.types.entries <+: u'.types.entries
  later : w.Later u
  later' : w'.Later u'

/-- What corresponds where the scripts are written: numbers drawn while resolving them, and such that are
drawn while writing. -/
def correspondence (F : Fork) (w w' u u' : World) (first : Nat) : Correspondence where
  types := Twin F.base u.types u'.types
  handles h h' := (F.likeness w w').handles h h' ∨ ∃ n, h = u.nextHandle + n ∧ h' = u'.nextHandle + n
  keys := (F.likeness w w').keys
  deferred := (F.likeness w w').deferred
  labels l l' := l = l'.relabel (first + ·)
  causes _ _ := True
  texts _ _ := True

theorem correspondence_keyed : (F.correspondence w w' u u' first).Keyed :=
  have keyed : (F.likeness w w').Keyed := likeness_keyed
  keyed

namespace Outlived
variable (outlived : F.Outlived w w' u u') {first : Nat} {config : Config}

include outlived

theorem le : (F.likeness w w').Le (F.correspondence w w' u u' first).toLikeness :=
  ⟨fun twin => twin.grown outlived.added outlived.added', .inl, id, id⟩

theorem renames (first : Nat) (quiet : config.varComments = false) :
    Emit.Renaming (F.correspondence w w' u u' first) (first + ·) ⟨u.types, config⟩ ⟨u'.types, config⟩ where
  major twin := Twin.major outlived.siblings.left outlived.siblings.right twin
  isString twin := twin.castsTo outlived.siblings (by decide)
  boolean := outlived.siblings.builtin
  apart one two := by
    obtain ⟨k, here, there⟩ := outlived.worlds.handles
    have := outlived.later.handles
    have := outlived.later'.handles
    rcases one with ⟨n, rfl, rfl, below⟩ | ⟨n, rfl, rfl⟩ <;>
      rcases two with ⟨m, rfl, rfl, below'⟩ | ⟨m, rfl, rfl⟩ <;> omega
  labels same := same
  causes _ _ := trivial
  texts _ _ := trivial
  config := rfl
  quiet := quiet

theorem tables (quiet : config.varComments = false) :
    Placeholder.Alike (F.correspondence w w' u u' first) (fun _ => True)
      (Emit.Relabels (F.correspondence w w' u u' first) (first + ·))
      (placeholderTable ⟨u.types, config⟩ u.deferred) (placeholderTable ⟨u'.types, config⟩ u'.deferred) := by
  intro i i' same
  have law := Emit.Relabels.law (outlived.renames first quiet)
  have inside {i i' : Nat} (same : (F.likeness w w').deferred i i') :
      i < w.deferred.length ∧ i' < w'.deferred.length := by
    obtain ⟨k, here, there⟩ := outlived.worlds.count
    obtain ⟨n, rfl, rfl, below⟩ := same
    omega
  refine placeholders_alike law correspondence_keyed (fun _ => trivial) ?_ ?_ same ?_ ?_
  · rintro i i' j j' ⟨n, rfl, rfl, _⟩ ⟨m, rfl, rfl, _⟩ before
    omega
  · intro i i' same
    obtain ⟨here, there⟩ := inside same
    obtain ⟨rest, whole⟩ := outlived.later.deferred
    obtain ⟨rest', whole'⟩ := outlived.later'.deferred
    rw [← whole, ← whole', List.getElem?_append_left here, List.getElem?_append_left there]
    exact entry_mono (outlived.le.below i) (outlived.worlds.deferred same)
  · exact Nat.lt_of_lt_of_le (inside same).1 outlived.later.deferred.length_le
  · exact Nat.lt_of_lt_of_le (inside same).2 outlived.later'.deferred.length_le

theorem emit (quiet : config.varComments = false) {a b : Script} (like : a.Like (F.likeness w w') b) :
    Emit.Relabels (F.correspondence w w' u u' first) (first + ·)
      (a.emit ⟨u.types, config⟩ (placeholderTable ⟨u.types, config⟩ u.deferred))
      (b.emit ⟨u'.types, config⟩ (placeholderTable ⟨u'.types, config⟩ u'.deferred)) := by
  have law := Emit.Relabels.law (outlived.renames first quiet)
    (F.likeness w w').deferred
  have body := Action.run_alike law correspondence_keyed (outlived.tables quiet) a.body b.body
    (Action.Like.mono outlived.le like.body) fun _ _ => trivial
  unfold Script.emit
  rw [like.kind]
  split
  · exact body
  · exact (Emit.Relabels.comment _).bind fun _ => (Emit.Relabels.plain 0 _ 1 rfl).bind fun _ =>
      body.bind fun _ => .plain (-1) _ 0 rfl
  · exact (Emit.Relabels.plain 0 _ 1 rfl).bind fun _ => body

theorem items (quiet : config.varComments = false) {a b : Script} (like : a.Like (F.likeness w w') b)
    (first : Nat) :
    u.adds config first (.ok a) = (u'.adds config 0 (.ok b)).map (List.map (Item.relabel (first + ·))) := by
  have start : (Ctx.start first u.nextHandle).Written (F.correspondence w w' u u' first) (first + ·)
      (Ctx.start 0 u'.nextHandle) :=
    ⟨⟨.nil, .none, fun n => by simp [correspondence, Ctx.start, Label.relabel],
      fun n => .inr ⟨n, rfl, rfl⟩⟩, rfl, Listing.relabel_empty.symm⟩
  have here := (outlived.emit quiet like).ends start
  change (Script.items _ _ a first u.nextHandle).1.toOption =
    (Script.items _ _ b 0 u'.nextHandle).1.toOption.map (List.map (Item.relabel (first + ·)))
  unfold Script.items
  generalize (a.emit _ _).run (Ctx.start first u.nextHandle) = ran at here ⊢
  generalize (b.emit _ _).run (Ctx.start 0 u'.nextHandle) = ran' at here ⊢
  cases here with
  | error => rfl
  | ok written => simp [Except.map, Except.toOption, written.listing, Listing.relabel]

end Outlived

theorem Finds.adds {ran ran' : Except Failure Script × World}
    (finds : F.Finds (fun v v' => Script.Like (F.likeness v v')) ran ran')
    (siblings : Siblings F.base u.types u'.types) (added : ran.2.types.entries <+: u.types.entries)
    (added' : ran'.2.types.entries <+: u'.types.entries) (later : ran.2.Later u) (later' : ran'.2.Later u')
    {config : Config} (quiet : config.varComments = false) (first : Nat) :
    u.adds config first ran.1 = (u'.adds config 0 ran'.1).map (List.map (Item.relabel (first + ·))) := by
  cases finds with
  | ok worlds like =>
    have outlived : F.Outlived _ _ u u' := ⟨worlds, siblings, added, added', later, later'⟩
    exact outlived.items quiet like first
  | error _ => rfl

end Fork

theorem attemptEach_append (before after : List (WorldM α)) (w : World) :
    attemptEach (before ++ after) w =
      ((attemptEach before w).1 ++ (attemptEach after (attemptEach before w).2).1,
        (attemptEach after (attemptEach before w).2).2) := by
  induction before generalizing w with
  | nil => rfl
  | cons x rest ih =>
    have others := ih (x.run w).2
    simp only [List.cons_append, attemptEach, others]

theorem attemptEach_length (steps : List (WorldM α)) (w : World) :
    (attemptEach steps w).1.length = steps.length := by
  induction steps generalizing w with
  | nil => rfl
  | cons x rest ih => exact congrArg Nat.succ (ih (x.run w).2)

/-- What a script comes to depends on those before it in the number of its first label only. -/
theorem itemsEach_getElem? (env : Env) (table : Placeholder) (firstHandle start : Nat)
    (before : List (Except Failure Script)) (r : Except Failure Script) (after : List (Except Failure Script)) :
    ∃ first, (itemsEach env table firstHandle start (before ++ r :: after))[before.length]? =
      some (r.bind fun script => (script.items env table first firstHandle).1) := by
  induction before generalizing start with
  | nil =>
    refine ⟨start, ?_⟩
    cases r <;> rfl
  | cons other rest ih =>
    cases other with
    | error f => exact ih start
    | ok script => exact ih (script.items env table start firstHandle).2

abbrev EventScript.step (e : EventScript) : WorldM Script := WorldM.located e.pos e.resolve

namespace Document
variable {d : Document} {e : EventScript} {i : Nat}

/-- The declarations and macros of a unit, with one of its scripts. -/
def only (d : Document) (e : EventScript) : Document :=
  { d with install := none, events := [e], remove := none }

/-- The lines and comments that each script adds to a unit, if it does: the installation script, the scripts
of events in order, and the removal script. -/
def contributions (config : Config) (d : Document) : List (Option (List (Item Instr))) :=
  (d.items config).map Except.toOption

def textOf (config : Config) (added : Option (List (Item Instr))) : String :=
  added.elim "" (Item.renderAll config.labelPrefix)

/-- The text of a unit is what its scripts add, one after the other. -/
theorem compile_contributions (config : Config) (d : Document) :
    (d.compile config).code = String.join ((d.contributions config).map (textOf config)) := by
  have joined (results : List (Except Failure (List (Item Instr)))) :
      String.join ((succeeded results).map (Item.renderAll config.labelPrefix)) =
        String.join ((results.map Except.toOption).map (textOf config)) := by
    induction results with
    | nil => rfl
    | cons r rest ih =>
      cases r with
      | error | ok => simpa [textOf, Except.toOption] using ih
  rw [compile_code, joined, contributions]

/-- A script of an event stands between those before it and those after it. -/
theorem scriptSteps_split (isEvent : d.events[i]? = some e) : ∃ before after,
    d.scriptSteps.map (·.2) = before ++ e.step :: after ∧
      before.length = d.install.toList.length + i := by
  obtain ⟨inside, same⟩ := List.getElem?_eq_some_iff.mp isEvent
  have split : d.events = d.events.take i ++ e :: d.events.drop (i + 1) := by
    rw [← same, List.getElem_cons_drop, List.take_append_drop]
  refine ⟨d.install.toList.map installScript ++ (d.events.take i).map (·.step),
    (d.events.drop (i + 1)).map (·.step) ++ d.remove.toList.map removeScript, ?_, ?_⟩
  · have optional {x : Option Statement} {name : String} {f : Statement → WorldM Script} :
        ((x.map fun body => (name, f body)).toList).map (·.2) = x.toList.map f := by
      cases x <;> rfl
    have events : d.events.map (·.step) =
        (d.events.take i).map (·.step) ++ e.step :: (d.events.drop (i + 1)).map (·.step) := by
      nth_rewrite 1 [split]
      rw [List.map_append, List.map_cons]
    unfold scriptSteps
    rw [List.map_append, List.map_append, optional, optional, List.map_map]
    change _ ++ d.events.map (·.step) ++ _ = _
    rw [events]
    simp
  · simp only [List.length_append, List.length_map, List.length_take]
    omega

/-- What a script adds to a unit: it is resolved where those before it have left the world, and written where
all have. -/
theorem contributions_at (config : Config) (isEvent : d.events[i]? = some e) :
    ∃ before after first, d.scriptSteps.map (·.2) = before ++ e.step :: after ∧
      let ran := e.step.run (attemptEach before d.declared).2
      (d.contributions config)[d.install.toList.length + i]? =
        some ((attemptEach after ran.2).2.adds config first ran.1) := by
  obtain ⟨before, after, steps, length⟩ := scriptSteps_split isEvent
  let ran := e.step.run (attemptEach before d.declared).2
  let u := (attemptEach after ran.2).2
  let env : Env := ⟨u.types, config⟩
  have scripts : d.scripts =
      ((attemptEach before d.declared).1 ++ ran.1 :: (attemptEach after ran.2).1, u) := by
    rw [Document.scripts, steps, attemptEach_append]
    rfl
  have items : d.items config = itemsEach env (placeholderTable env u.deferred) u.nextHandle 0
      ((attemptEach before d.declared).1 ++ ran.1 :: (attemptEach after ran.2).1) := by
    rw [Document.items, scripts]
  obtain ⟨first, found⟩ := itemsEach_getElem? env (placeholderTable env u.deferred) u.nextHandle 0
    (attemptEach before d.declared).1 ran.1 (attemptEach after ran.2).1
  rw [attemptEach_length, length] at found
  refine ⟨before, after, first, steps, ?_⟩
  change (d.contributions config)[_]? = some (u.adds config first ran.1)
  rw [contributions, List.getElem?_map, items, found]
  cases ran.1 <;> rfl

theorem contributions_only (config : Config) (d : Document) (e : EventScript) :
    (d.only e).contributions config = [(e.step.run d.declared).2.adds config 0 (e.step.run d.declared).1] := by
  have scripts : (d.only e).scripts = ([(e.step.run d.declared).1], (e.step.run d.declared).2) := rfl
  rw [contributions, items, scripts]
  cases (e.step.run d.declared).1 <;> rfl

/-- The script comes to the same after others and before others. -/
theorem adds_alike {config : Config} (quiet : config.varComments = false)
    (coherent : d.declared.types.coherent = true) (steps : d.scriptSteps.map (·.2) = before ++ e.step :: after)
    (first : Nat) :
    let ran := e.step.run (attemptEach before d.declared).2
    let alone := e.step.run d.declared
    (attemptEach after ran.2).2.adds config first ran.1 =
      (alone.2.adds config 0 alone.1).map (List.map (Item.relabel (first + ·))) := by
  intro ran alone
  have isStart := declared_start coherent
  have earlier : ∀ x ∈ before, x ∈ d.scriptSteps.map (·.2) := fun x member => by simp [steps, member]
  have isStep : e.step ∈ d.scriptSteps.map (·.2) := by simp [steps]
  have others : ∀ x ∈ after, x ∈ d.scriptSteps.map (·.2) := fun x member => by simp [steps, member]
  obtain ⟨left, -⟩ := attemptEach_kept isStart isStart.left earlier
  obtain ⟨F, base, -, -, worlds⟩ := isStart.fork left isStart.left
  obtain ⟨left, -⟩ := scriptSteps_kept isStart left isStep
  obtain ⟨right, -⟩ := scriptSteps_kept isStart isStart.left isStep
  obtain ⟨last, added, later⟩ := attemptEach_kept isStart left others
  have siblings : Siblings F.base (attemptEach after ran.2).2.types alone.2.types :=
    ⟨base ▸ isStart.toDeclared.reachable.closed, base ▸ last.above, base ▸ right.above⟩
  exact ((e.resolve_finds worlds).located e.pos).adds siblings added List.prefix_rfl later (.refl _) quiet first

/-- Every script of an event is compiled on its own: it adds text to a unit if and only if it does so as the
only script with the same declarations and macros, and the texts are the same up to the numbers of labels.
No two types may see two interfaces that give one name two meanings in opposite orders. -/
theorem event_independent (config : Config) (quiet : config.varComments = false) (d : Document)
    (coherent : d.declared.types.coherent = true) (i : Nat) (e : EventScript)
    (isEvent : d.events[i]? = some e) :
    (d.compile config).code = String.join ((d.contributions config).map (textOf config)) ∧
      ∃ here alone first, (d.contributions config)[d.install.toList.length + i]? = some here ∧
        (d.only e).contributions config = [alone] ∧ ((d.only e).compile config).code = textOf config alone ∧
        here = alone.map (List.map (Item.relabel (first + ·))) := by
  obtain ⟨before, after, first, steps, here⟩ := contributions_at config isEvent
  have alone := contributions_only config d e
  refine ⟨compile_contributions config d, _, _, first, here, alone, ?_, adds_alike quiet coherent steps first⟩
  rw [compile_contributions, alone]
  simp [String.join]

/-- The interfaces share a name and are seen in one order, the script before fails, and the installation
script takes the first labels. -/
theorem event_independent_loop :
    let statement := Statement.mk .unknown
    let config : Config := { Config.standard with varComments := false }
    let field (owner : String) (slot : UInt8) : Declaration :=
      .field (.named owner) "shade" (.named "integer") slot
    let waits : Statement := statement (.loop (statement .breakLoop))
    let refused : EventScript := ⟨.unknown, ⟨1, 2, 5⟩, .number 1, statement .breakLoop⟩
    let e : EventScript := ⟨.unknown, ⟨3, 0, 0⟩, .number 1, waits⟩
    let d : Document :=
      { Document.empty with
        declarations := [.interface "Red", .interface "Blue", field "Red" 1, field "Blue" 2,
          .cls "Left" ⟨1, 1, 0⟩, .cls "Right" ⟨1, 2, 0⟩,
          .implements (.named "Left") (.named "Red"), .implements (.named "Left") (.named "Blue"),
          .implements (.named "Right") (.named "Red"), .implements (.named "Right") (.named "Blue")]
        install := some waits
        events := [refused, e] }
    d.declared.types.coherent = true ∧ (d.contributions config).map Option.isSome = [true, false, true] ∧
      ∃ here alone first, (d.contributions config)[2]? = some here ∧
        (d.only e).contributions config = [alone] ∧ ((d.only e).compile config).code = textOf config alone ∧
        here = alone.map (List.map (Item.relabel (first + ·))) := by
  intro statement config field waits refused e d
  have coherent : d.declared.types.coherent = true := by decide +kernel
  exact ⟨coherent, by decide +kernel, (event_independent config rfl d coherent 1 e rfl).2⟩

end Document

def Item.inputs (items : List (Item Instr)) : List String :=
  items.filterMap fun
    | .code _ (.store _ _ input) => some input.text
    | _ => none

theorem Item.inputs_relabel (f : Nat → Nat) (items : List (Item Instr)) :
    Item.inputs (items.map (Item.relabel f)) = Item.inputs items := by
  rw [Item.inputs, List.filterMap_map]
  refine List.filterMap_congr fun item _ => ?_
  cases item with
  | code indent i => cases i <;> rfl
  | comment | verbatim => rfl

/-- Two classes see two interfaces in opposite orders, and both interfaces have a field of one name. Which of
the fields a union of subclasses has depends on which of these was made first, and so on the scripts of other
events. -/
theorem Document.event_dependent :
    let statement := Statement.mk .unknown
    let config : Config := { Config.standard with varComments := false }
    let field (owner : String) (slot : UInt8) : Declaration :=
      .field (.named owner) "shade" (.named "integer") slot
    let other : EventScript := ⟨.unknown, ⟨1, 2, 5⟩, .number 1, statement (.block [] true)⟩
    let either : TypeRef := .union [.classifier ⟨1, 1, 5⟩, .classifier ⟨1, 2, 5⟩]
    let shade : Term := .field (.cast (.id "from") either) "shade"
    let e : EventScript := ⟨.unknown, ⟨3, 0, 0⟩, .number 1,
      statement (.block [statement (.declare ["x"] [some (.named "integer")] (some shade))] true)⟩
    let d : Document :=
      { Document.empty with
        declarations := [.interface "Red", .interface "Blue", field "Red" 1, field "Blue" 2,
          .cls "Left" ⟨1, 1, 0⟩, .cls "Right" ⟨1, 2, 0⟩,
          .implements (.named "Left") (.named "Red"), .implements (.named "Left") (.named "Blue"),
          .implements (.named "Right") (.named "Blue"), .implements (.named "Right") (.named "Red")]
        events := [other, e] }
    d.declared.types.coherent = false ∧
      (d.contributions config).map (·.map Item.inputs) =
        [some [], some ["targ", "from", "ov02", "va02", "va01"]] ∧
      ((d.only e).contributions config).map (·.map Item.inputs) =
        [some ["targ", "from", "ov01", "va02", "va01"]] ∧
      ∀ f, (d.contributions config)[1]? ≠
        ((d.only e).contributions config)[0]?.map (·.map (·.map (Item.relabel f))) := by
  intro statement config field other either shade e d
  have here : (d.contributions config).map (·.map Item.inputs) =
      [some [], some ["targ", "from", "ov02", "va02", "va01"]] := by decide +kernel
  have alone : ((d.only e).contributions config).map (·.map Item.inputs) =
      [some ["targ", "from", "ov01", "va02", "va01"]] := by decide +kernel
  refine ⟨by decide +kernel, here, alone, fun f same => ?_⟩
  have left := congrArg (·[1]?) here
  have right := congrArg (·[0]?) alone
  simp only [List.getElem?_map] at left right
  have unchanged (x : Option (Option (List (Item Instr)))) :
      (x.map (·.map (·.map (Item.relabel f)))).map (·.map Item.inputs) = x.map (·.map Item.inputs) := by
    rcases x with _ | _ | items <;> simp [Item.inputs_relabel]
  rw [same, unchanged, right] at left
  exact absurd left (by decide)

end AgentScript
