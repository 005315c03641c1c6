import AgentScript.Proofs.Preservation.Statement
import AgentScript.Proofs.Types.Worlds

/-! Statements on integers keep their meaning. Their code, run from any contents of the registers, ends
with the register of each variable that is in scope holding the number that the variable has. -/
namespace AgentScript
variable {x : Resolve α} {m : Meaning} {value : Valuation → Int32}

variable {γ δ : Bindings} {s t : Resolving}

theorem Resolving.Within.earlier (inside : t.Within env limit) (later : s.world.Later t.world)
    (types : s.world.types.Extends t.world.types) : s.Within env limit :=
  ⟨types.trans inside.types, Nat.le_trans later.handles inside.handles⟩

theorem Resolve.later_of_run (ran : x.run s = (result, t)) : s.Later t := by
  have later := x.later s
  rwa [ran] at later

/-- Types and numbers may be added, and frames closed again. -/
theorem Bindings.Describes.resume (describes : γ.Describes s)
    (same : ∀ name, t.scope.lookup? name = s.scope.lookup? name) (frames : t.scope.frames ≠ [])
    (later : s.world.Later t.world) (types : s.world.types.Extends t.world.types) : γ.Describes t := by
  refine ⟨types.sound, fun found => ?_, fun found => ?_, fun h member => ?_, describes.distinct, frames⟩
  · obtain ⟨ty, numeric, inScope⟩ := describes.bound found
    exact ⟨ty, numeric.grown types.entries, (same _).trans inScope⟩
  · exact describes.others ((same _).symm.trans found)
  · exact Nat.lt_of_lt_of_le (describes.handles h member) later.handles

/-- Statements that were resolved from `s` to `t`, and the variables `δ` that they declare. -/
structure Performed (γ δ : Bindings) (s t : Resolving) (code : Env → Placeholder → Emit Unit)
    (exec : Valuation → Valuation) : Prop where
  describes : Bindings.Describes (δ ++ γ) t
  types : s.world.types.Extends t.world.types
  does : ∀ {env limit} (table : Placeholder), t.Within env limit →
    Does limit γ δ (code env table) exec

/-- A step that resolves statements with the variables `γ`; then those of `names` are in scope. -/
structure Resolve.Performs (γ : Bindings) (names : List String) (x : Resolve α)
    (code : α → Env → Placeholder → Emit Unit) (exec : Valuation → Valuation) : Prop where
  found : ∀ {s a t}, γ.Describes s → x.run s = (.ok a, t) →
    ∃ δ, Bindings.names (δ ++ γ) = names ∧ Performed γ δ s t (code a) exec

/-- The same for statements in a frame of their own. -/
structure Resolve.Visits (γ : Bindings) (x : Resolve α) (code : α → Env → Placeholder → Emit Unit)
    (exec : Valuation → Valuation) : Prop where
  found : ∀ {s a t}, γ.Describes s → x.run s = (.ok a, t) → γ.Describes t ∧
    s.world.types.Extends t.world.types ∧
    ∃ δ, ∀ {env limit} (table : Placeholder), t.Within env limit → Does limit γ δ (code a env table) exec

theorem Scope.lookup?_push (scope : Scope) (breakable : Bool) (name : String) :
    (scope.push ⟨[], breakable⟩).lookup? name = scope.lookup? name := rfl

theorem Resolve.Performs.inFrame {code : α → Env → Placeholder → Emit Unit}
    (performs : Performs γ names x code exec) :
    Visits γ (Resolve.inFrame Scope.innerFrame x) code exec := by
  refine ⟨fun {s a t} describes ran => ?_⟩
  rcases inner : x.run { s with scope := s.scope.push (Scope.innerFrame s.scope) } with ⟨result, u⟩
  have after : (result, { u with scope := u.scope.leave }) = (.ok a, t) := by
    rw [← ran]
    simp only [Resolve.inFrame, inner]
  obtain ⟨rfl, rfl⟩ := Prod.mk.inj after
  have later := x.later { s with scope := s.scope.push (Scope.innerFrame s.scope) }
  rw [inner] at later
  have pushed : γ.Describes { s with scope := s.scope.push (Scope.innerFrame s.scope) } :=
    describes.resume (Scope.lookup?_push s.scope _) (List.cons_ne_nil _ _) (.refl _)
      (.refl describes.sound)
  obtain ⟨δ, _, performed⟩ := performs.found pushed inner
  have back : u.scope.leave = s.scope := later.scope.leave
  refine ⟨?_, performed.types, δ, fun table inside => performed.does table ⟨inside.types, inside.handles⟩⟩
  refine describes.resume (fun name => ?_) ?_ later.world performed.types
  · rw [back]
  · rw [back]
    exact describes.frames

theorem checkCast_finds (source target : TypeId) : (Resolve.checkCast source target).Finds s fun _ =>
    s.world.types.canCast source target = true := by
  refine .types ⟨fun a t ran => ?_⟩
  unfold Registry.checkCast at ran
  split at ran
  · next casts =>
    cases ran
    exact ⟨rfl, casts⟩
  · cases ran

theorem Scope.lookup?_bind {scope : Scope} (frames : scope.frames ≠ []) (name other : String)
    (e : Expr) : (scope.bind name e).lookup? other =
      if other = name then some e else scope.lookup? other := by
  obtain ⟨f, outer, same⟩ := List.exists_cons_of_ne_nil frames
  simp only [Scope.bind, same, Scope.lookup?]
  by_cases isName : other = name
  · simp [isName, List.findSome?]
  · simp [isName, List.findSome?, List.lookup_cons, beq_false_of_ne isName]

theorem Bindings.Describes.declare (describes : γ.Describes s) (name : String)
    (numeric : s.world.types.Numeric ty) :
    Bindings.Describes ((name, s.world.nextHandle) :: γ)
      { world := { s.world with nextHandle := max s.world.nextHandle (s.world.nextHandle + 1) },
        scope := s.scope.bind name (Expr.leaf (.var s.world.nextHandle ty true)) } := by
  have lookup (other : String) := Scope.lookup?_bind describes.frames name other
    (Expr.leaf (.var s.world.nextHandle ty true))
  have next : s.world.nextHandle < max s.world.nextHandle (s.world.nextHandle + 1) := by omega
  refine ⟨describes.sound, fun {other h} found => ?_, fun {other h ty'} found => ?_, fun h member => ?_,
    List.nodup_cons.mpr ⟨fun member => ?_, describes.distinct⟩, ?_⟩
  · rw [List.lookup_cons] at found
    dsimp only
    rw [lookup]
    by_cases same : other = name
    · rw [same, beq_self_eq_true] at found
      cases found
      exact ⟨ty, numeric, if_pos same⟩
    · rw [beq_false_of_ne same] at found
      rw [if_neg same]
      exact describes.bound found
  · dsimp only at found
    rw [lookup] at found
    rw [List.lookup_cons]
    by_cases same : other = name
    · rw [if_pos same] at found
      cases found
      rw [same, beq_self_eq_true]
    · rw [if_neg same] at found
      rw [beq_false_of_ne same]
      exact describes.others found
  · rcases List.mem_cons.mp member with rfl | old
    · exact next
    · exact Nat.lt_trans (describes.handles h old) next
  · exact absurd (describes.handles _ member) (Nat.lt_irrefl _)
  · obtain ⟨f, outer, same⟩ := List.exists_cons_of_ne_nil describes.frames
    simp [Scope.bind, same]

/-- The type of a variable takes what is assigned to it first. -/
theorem varType_numeric {e : Expr} (describes : γ.Describes s) (computes : e.Computes s v)
    {types : List (Option TypeRef)} {name : String} {declared : Option TypeId} {u : Resolving}
    (ranDeclared : (Statement.declaredType types 0).run s = (.ok declared, u))
    (ranType : (Statement.varType name 0 declared (some e)).run u = (.ok ty, t)) :
    t.scope = s.scope ∧ s.world.types.Extends t.world.types ∧ t.world.types.Numeric ty := by
  have first : u.scope = s.scope ∧ s.world.types.Extends u.world.types := by
    unfold Statement.declaredType at ranDeclared
    split at ranDeclared
    · next ref _ =>
      obtain ⟨id, u', ranRef, rest⟩ := Resolve.run_bind_ok ranDeclared
      cases rest
      have world := Resolve.world_typeRef ref s
      rw [ranRef] at world
      refine ⟨?_, world ▸ (TypeRef.resolve_makes (.extends _) (.refl describes.sound) ref).kept⟩
      exact congrArg (·.2.scope) ranRef.symm
    · cases ranDeclared
      exact ⟨rfl, .refl describes.sound⟩
  have known {rt : TypeId} (found : e.readType 0 = .ok rt) : u.world.types.Numeric rt :=
    (computes.numeric found).grown first.2.entries
  have second : (Statement.varType name 0 declared (some e)).Finds u fun ty => u.world.types.Numeric ty := by
    unfold Statement.varType
    cases declared with
    | none => exact .ofExcept fun rt found => known found
    | some ty =>
      refine .bind (P := fun rt => e.readType 0 = .ok rt) (.ofExcept fun _ => id) fun rt found => ?_
      refine (checkCast_finds rt ty).bind fun _ casts => .pure ?_
      exact (known found).casts first.2.sound casts
  obtain ⟨rfl, numeric⟩ := second.found ty t ranType
  exact ⟨first.1, first.2, numeric⟩

theorem makeVars_ran {types : List (Option TypeRef)} {e : Expr} {vars : List LocalVar}
    (ran : (Statement.makeVars types (some e) 0 [name]).run s = (.ok vars, t)) :
    ∃ declared u ty w, (Statement.declaredType types 0).run s = (.ok declared, u) ∧
      (Statement.varType name 0 declared (some e)).run u = (.ok ty, w) ∧
      vars = [⟨w.world.nextHandle, ty, name⟩] ∧
      t = { w with world.nextHandle := max w.world.nextHandle (w.world.nextHandle + 1) } := by
  unfold Statement.makeVars at ran
  obtain ⟨declared, u, ranDeclared, ran⟩ := Resolve.run_bind_ok ran
  obtain ⟨ty, w, ranType, ran⟩ := Resolve.run_bind_ok ran
  cases ran
  exact ⟨declared, u, ty, w, ranDeclared, ranType, rfl, rfl⟩

theorem declare_performs (name : String) (types : List (Option TypeRef))
    (denotes : ∀ {s}, γ.Describes s → m.Denotes s fun σ => value (γ.valuation σ)) :
    (Statement.declare [name] types (some m)).Performs γ (name :: γ.names)
      (fun kind env table => kind.run env table) fun ε => (name, value ε) :: ε := by
  refine ⟨fun {s kind t} describes ran => ?_⟩
  obtain ⟨init, u, ranInit, rest⟩ := Resolve.run_bind_ok ran
  obtain ⟨e, u, ranValue, ended⟩ := Resolve.run_bind_ok (x := m.value) (f := fun e => pure (some e)) ranInit
  cases ended
  obtain ⟨rfl, computes⟩ := (denotes describes).value.found e u ranValue
  dsimp only at rest
  split at rest
  · cases rest
  · obtain ⟨vars, w, ranVars, rest⟩ := Resolve.run_bind_ok rest
    obtain ⟨declared, u', ty, w', ranDeclared, ranType, rfl, rfl⟩ := makeVars_ran ranVars
    obtain ⟨scope, extended, numeric⟩ := varType_numeric describes computes ranDeclared ranType
    cases rest
    have later : u.world.Later w'.world :=
      (Resolve.later_of_run ranDeclared).world.trans (Resolve.later_of_run ranType).world
    have before : γ.Describes w' := by
      refine describes.resume (fun _ => by rw [scope]) ?_ later extended
      rw [scope]
      exact describes.frames
    refine ⟨[(name, w'.world.nextHandle)], rfl, before.declare name numeric, extended,
      fun {env limit} table inside => ?_⟩
    have isNext : w'.world.nextHandle < limit :=
      Nat.lt_of_lt_of_le (Nat.lt_succ_self _) (Nat.le_trans (Nat.le_max_right _ _) inside.handles)
    have within : u.Within env limit :=
      ⟨extended.trans inside.types, Nat.le_trans later.handles (Nat.le_of_lt isNext)⟩
    have fresh : w'.world.nextHandle ∉ γ.handles :=
      fun member => Nat.lt_irrefl _ (before.handles _ member)
    rw [ActionKind.run, initCode]
    exact declare_does (v := ⟨w'.world.nextHandle, ty, name⟩) fresh isNext (computes.code table within)

theorem name_finds (describes : γ.Describes s) (found : γ.lookup name = some h) :
    (Meaning.name name).value.Finds s fun e => ∃ ty, s.world.types.Numeric ty ∧
      e = Expr.leaf (.var h ty true) := by
  obtain ⟨ty, numeric, inScope⟩ := describes.bound found
  have bound : s.scope.isBound name = true := by simp [Scope.isBound, inScope]
  refine .bind (P := fun c => c = none) (.scope ?_) fun c same => ?_
  · simp only [bound, ↓reduceIte]
    exact .pure rfl
  · subst same
    refine .scope ?_
    simp only [inScope]
    exact .pure ⟨ty, numeric, rfl⟩

/-- A step that changes nothing but finds the code of statements. -/
theorem Resolve.Finds.performs {code : α → Env → Placeholder → Emit Unit}
    (found : ∀ {s}, γ.Describes s → x.Finds s fun a => ∀ {env limit} (table : Placeholder),
      s.Within env limit → Does limit γ [] (code a env table) exec) : x.Performs γ γ.names code exec := by
  refine ⟨fun {s a t} describes ran => ?_⟩
  obtain ⟨rfl, does⟩ := (found describes).found a t ran
  exact ⟨[], rfl, describes, .refl describes.sound, does⟩

theorem Bindings.Describes.small (describes : γ.Describes s) (inside : s.Within env limit) :
    ∀ h ∈ γ.handles, h < limit :=
  fun h member => Nat.lt_of_lt_of_le (describes.handles h member) inside.handles

theorem checkAssignable_finds (source targets : Expr) :
    (Statement.checkAssignable source targets).Finds s fun _ => True := by
  unfold Statement.checkAssignable
  split
  · exact .bind (P := fun _ => False) (.fail _) nofun
  · generalize List.range (Slices.len source) = places
    induction places with
    | nil => exact .pure trivial
    | cons i rest ih =>
      have here : Resolve.Finds s (do
          let ty ← Resolve.ofExcept (source.readType i)
          Resolve.checkCast ty (← Resolve.ofExcept (targets.writeType i))) fun _ => True := by
        refine .bind (P := fun _ => True) (.ofExcept fun _ _ => trivial) fun ty _ => ?_
        refine .bind (P := fun _ => True) (.ofExcept fun _ _ => trivial) fun slot _ => ?_
        exact ⟨fun a t ran => ⟨((checkCast_finds ty slot).found a t ran).1, trivial⟩⟩
      exact here.bind fun _ _ => ih

theorem assign_performs (member : name ∈ γ.names)
    (denotes : ∀ {s}, γ.Describes s → m.Denotes s fun σ => value (γ.valuation σ)) :
    (Statement.assign (some (.name name)) m).Performs γ γ.names
      (fun kind env table => kind.run env table) fun ε => ε.assign name (value ε) := by
  obtain ⟨h, found⟩ := γ.lookup_of_mem member
  refine Resolve.Finds.performs fun {s} describes => ?_
  refine (denotes describes).value.bind fun source computes => ?_
  refine (name_finds describes found).bind fun target isTarget => ?_
  obtain ⟨ty, _, rfl⟩ := isTarget
  refine (checkAssignable_finds ..).bind fun _ _ => .pure fun table inside => ?_
  rw [ActionKind.run]
  exact assign_does describes.distinct (describes.small inside) found (varCode_slots ..)
    (computes.code table inside)

theorem update_performs {op : ChainOp} (known : op ≠ .div) (member : name ∈ γ.names)
    (denotes : ∀ {s}, γ.Describes s → m.Denotes s fun σ => value (γ.valuation σ)) :
    (Statement.update op (.name name) m).Performs γ γ.names
      (fun kind env table => kind.run env table) fun ε =>
        ε.assign name (op.number (ε.number name) (value ε)) := by
  obtain ⟨h, found⟩ := γ.lookup_of_mem member
  refine Resolve.Finds.performs fun {s} describes => ?_
  refine (name_finds describes found).bind fun target isTarget => ?_
  obtain ⟨ty, numeric, rfl⟩ := isTarget
  refine (denotes describes).value.bind fun source computes => ?_
  refine .bind (P := s.world.types.Numeric) (.ofExcept fun before isType => ?_) fun before l => ?_
  · exact numeric_leaf rfl numeric (readType_of_single isType)
  refine .bind (P := fun _ => True) (.ofExcept fun _ _ => trivial) fun slot _ => ?_
  refine .bind (P := s.world.types.Numeric) (.ofExcept fun operand isType => ?_) fun operand r => ?_
  · exact computes.numeric (readType_of_single isType)
  refine .types (.bind (P := fun _ => True) ?_ fun after _ => ?_)
  · cases op.stepType s.world.types before operand with
    | ok after => exact .pure trivial
    | error e => exact .fail _
  refine (checkCast_finds after slot).bind fun _ _ => .pure fun table inside => ?_
  rw [ActionKind.run]
  exact update_does describes.distinct (describes.small inside) found (varCode_slots ..)
    (computes.code table inside) known (inside.stores l) (inside.stores r) after

theorem Does.congr {x : Emit Unit} (does : Does limit γ δ x exec)
    (same : ∀ σ, exec (γ.valuation σ) = exec' (γ.valuation σ)) : Does limit γ δ x exec' :=
  ⟨fun tidy held => (does.codes tidy held).mono fun _ _ _ after =>
    ⟨after.tidy, after.held, after.fixed, after.valuation.trans (same _)⟩⟩

theorem Action.run_does {a : Action} (does : Does limit γ δ (a.kind.run env table) exec) :
    Does limit γ δ (a.run env table) exec := by
  cases a with
  | mk pos kind =>
    rw [Action.run]
    exact does.positioned env pos

abbrev Action.kindCode (a : Action) (env : Env) (table : Placeholder) : Emit Unit := a.kind.run env table

theorem branch_performs (denotes : ∀ {s}, γ.Describes s → m.Denotes s fun σ => value (γ.valuation σ))
    {yes : Resolve Action} (y : (Resolve.inFrame Scope.innerFrame yes).Visits γ Action.kindCode exec)
    {no : Option (Resolve Action)} {exec' : Valuation → Valuation}
    (n : ∀ x ∈ no, (Resolve.inFrame Scope.innerFrame x).Visits γ Action.kindCode exec')
    (absent : no = none → exec' = id) :
    (Statement.branch m yes no).Performs γ γ.names (fun kind env table => kind.run env table) fun ε =>
      if value ε ≠ 0 then ε.leave (exec ε) else ε.leave (exec' ε) := by
  refine ⟨fun {s kind t} describes ran => ?_⟩
  obtain ⟨cond, u, ranCond, rest⟩ := Resolve.run_bind_ok ran
  obtain ⟨rfl, decides⟩ := (denotes describes).cond.found cond u ranCond
  dsimp only at rest
  split at rest
  · next isTrue =>
    obtain ⟨a, w, ranYes, ended⟩ := Resolve.run_bind_ok rest
    cases ended
    obtain ⟨after, extended, δ, does⟩ := y.found describes ranYes
    refine ⟨[], rfl, after, extended, fun table inside => (does table inside).forget.congr fun σ => ?_⟩
    have before := inside.earlier (Resolve.later_of_run ranYes).world extended
    have known := decides.constant isTrue before σ
    rw [if_pos (by simpa using known)]
  · next x isFalse =>
    obtain ⟨a, w, ranNo, ended⟩ := Resolve.run_bind_ok rest
    cases ended
    obtain ⟨after, extended, δ, does⟩ := (n x rfl).found describes ranNo
    refine ⟨[], rfl, after, extended, fun table inside => (does table inside).forget.congr fun σ => ?_⟩
    have before := inside.earlier (Resolve.later_of_run ranNo).world extended
    have known := decides.constant isFalse before σ
    rw [if_neg (by simpa using known)]
  · next isFalse =>
    cases rest
    refine ⟨[], rfl, describes, .refl describes.sound, fun table inside => ?_⟩
    rw [ActionKind.run]
    refine Does.nothing.congr fun σ => ?_
    have known := decides.constant isFalse inside σ
    rw [if_neg (by simpa using known), absent rfl]
    simp [Valuation.leave]
  · next x isUnknown =>
    obtain ⟨a, w, ranYes, rest⟩ := Resolve.run_bind_ok rest
    obtain ⟨a', w', ranNo, ended⟩ := Resolve.run_bind_ok rest
    cases ended
    obtain ⟨between, extended, δ, first⟩ := y.found describes ranYes
    obtain ⟨after, further, δ', second⟩ := (n x rfl).found between ranNo
    refine ⟨[], rfl, after, extended.trans further, fun {env limit} table inside => ?_⟩
    have middle := inside.earlier (Resolve.later_of_run ranNo).world further
    have before := middle.earlier (Resolve.later_of_run ranYes).world extended
    rw [ActionKind.run, otherwiseCode]
    have does := ifElse_does (describes.small before) (b := fun ε => value ε != 0)
      (decides.code table before) (Action.run_does (first table middle)) (Action.run_does (second table inside))
    simpa using does
  · next isUnknown =>
    obtain ⟨a, w, ranYes, ended⟩ := Resolve.run_bind_ok rest
    cases ended
    obtain ⟨after, extended, δ, first⟩ := y.found describes ranYes
    refine ⟨[], rfl, after, extended, fun {env limit} table inside => ?_⟩
    have before := inside.earlier (Resolve.later_of_run ranYes).world extended
    rw [ActionKind.run, otherwiseCode]
    have does := if_does (describes.small before) (b := fun ε => value ε != 0)
      (decides.code table before) (Action.run_does (first table inside))
    refine does.congr fun σ => ?_
    rw [absent rfl]
    simp [Valuation.leave]

theorem located_performs (pos : Position) {x : Resolve ActionKind}
    (performs : x.Performs γ names (fun kind env table => kind.run env table) exec) :
    Resolve.Performs γ names (do return .mk pos (← x.located pos)) Action.kindCode exec := by
  refine ⟨fun {s a t} describes ran => ?_⟩
  obtain ⟨kind, u, ranKind, ended⟩ := Resolve.run_bind_ok ran
  cases ended
  exact performs.found describes (Resolve.located_ok ranKind)

theorem cons_performs {x : Resolve Action} {xs : Resolve (List Action)}
    (first : x.Performs γ between Action.kindCode exec)
    (rest : ∀ γ' : Bindings, γ'.names = between →
      xs.Performs γ' names (fun as env table => runAll env table as) exec') :
    Resolve.Performs γ names (do let a ← x; return a :: (← xs))
      (fun as env table => runAll env table as) (exec' ∘ exec) := by
  refine ⟨fun {s as t} describes ran => ?_⟩
  obtain ⟨a, u, ranFirst, ran⟩ := Resolve.run_bind_ok ran
  obtain ⟨others, w, ranRest, ended⟩ := Resolve.run_bind_ok ran
  cases ended
  obtain ⟨δ, isBetween, performed⟩ := first.found describes ranFirst
  obtain ⟨δ', isLast, performed'⟩ := (rest _ isBetween).found performed.describes ranRest
  rw [← List.append_assoc] at isLast
  have describes' := performed'.describes
  rw [← List.append_assoc] at describes'
  refine ⟨δ' ++ δ, isLast, describes', performed.types.trans performed'.types, fun table inside => ?_⟩
  have middle := inside.earlier (Resolve.later_of_run ranRest).world performed'.types
  rw [runAll]
  exact (Action.run_does (performed.does table middle)).andThen (performed'.does table inside)

theorem block_performs {body : Resolve (List Action)}
    (performs : body.Performs γ names (fun as env table => runAll env table as) exec) (closed : Bool) :
    Resolve.Performs γ (if closed then γ.names else names) (do
      if closed then return .block (← Resolve.inFrame Scope.innerFrame body) closed
      else return .block (← body) closed) (fun kind env table => ActionKind.run env table kind) fun ε =>
        if closed then ε.leave (exec ε) else exec ε := by
  refine ⟨fun {s kind t} describes ran => ?_⟩
  cases closed with
  | true =>
    obtain ⟨as, u, ranBody, ended⟩ := Resolve.run_bind_ok ran
    cases ended
    obtain ⟨after, extended, δ, does⟩ := performs.inFrame.found describes ranBody
    refine ⟨[], rfl, after, extended, fun table inside => ?_⟩
    rw [ActionKind.run]
    exact (does table inside).inScope
  | false =>
    obtain ⟨as, u, ranBody, ended⟩ := Resolve.run_bind_ok ran
    cases ended
    obtain ⟨δ, isLast, performed⟩ := performs.found describes ranBody
    refine ⟨δ, isLast, performed.describes, performed.types, fun table inside => ?_⟩
    rw [ActionKind.run]
    exact performed.does table inside

mutual
theorem Statement.resolve_performs (nested : Nested) : (st : Statement) → (γ : Bindings) →
    (names : List String) → st.after? γ.names = some names →
      (st.resolve nested).Performs γ names Action.kindCode fun ε => st.exec ε
  | .mk pos kind, γ, names, isAfter => by
    simp only [Statement.after?, Statement.resolve, Statement.exec] at isAfter ⊢
    exact located_performs pos (StatementKind.resolve_performs nested kind γ names isAfter)
theorem StatementKind.resolve_performs (nested : Nested) : (kind : StatementKind) → (γ : Bindings) →
    (names : List String) → kind.after? γ.names = some names →
      (kind.resolve nested).Performs γ names (fun k env table => k.run env table) fun ε => kind.exec ε
  | .block body closed, γ, names, isAfter => by
    simp only [StatementKind.after?, StatementKind.resolve, StatementKind.exec] at isAfter ⊢
    obtain ⟨inner, isInner, rfl⟩ := Option.map_eq_some_iff.mp isAfter
    exact block_performs (resolveBody_performs nested body γ inner isInner) closed
  | .declare [name] types (some init), γ, names, isAfter => by
    simp only [StatementKind.after?, StatementKind.resolve, StatementKind.exec, meaning?] at isAfter ⊢
    split at isAfter
    · next isNumber =>
      cases isAfter
      exact declare_performs name types fun describes => init.meaning_denotes nested describes isNumber
    · cases isAfter
  | .assign (some (.id name)) source, γ, names, isAfter => by
    simp only [StatementKind.after?, StatementKind.resolve, StatementKind.exec, meaning?,
      Term.meaning] at isAfter ⊢
    split at isAfter
    · next isNumber =>
      cases isAfter
      obtain ⟨member, isNumber⟩ := Bool.and_eq_true_iff.mp isNumber
      exact assign_performs (List.contains_iff_mem.mp member)
        fun describes => source.meaning_denotes nested describes isNumber
    · cases isAfter
  | .update op (.id name) source, γ, names, isAfter => by
    simp only [StatementKind.after?, StatementKind.resolve, StatementKind.exec, Term.meaning] at isAfter ⊢
    split at isAfter
    · next isNumber =>
      cases isAfter
      simp only [Bool.and_eq_true, bne_iff_ne] at isNumber
      exact update_performs isNumber.1.1 (List.contains_iff_mem.mp isNumber.1.2)
        fun describes => source.meaning_denotes nested describes isNumber.2
    · cases isAfter
  | .branch cond yes no, γ, names, isAfter => by
    simp only [StatementKind.after?, StatementKind.resolve, StatementKind.exec] at isAfter ⊢
    split at isAfter
    · next isNumber =>
      cases isAfter
      simp only [Bool.and_eq_true] at isNumber
      obtain ⟨⟨isNumber, isYes⟩, isNo⟩ := isNumber
      obtain ⟨inner, isInner⟩ := Option.isSome_iff_exists.mp isYes
      have taken := (Statement.resolve_performs nested yes γ inner isInner).inFrame
      refine branch_performs (fun describes => cond.meaning_denotes nested describes isNumber) taken
        (resolve?_visits nested no γ isNo) fun absent => ?_
      cases no with
      | none => rfl
      | some st => cases absent
    · cases isAfter
theorem resolve?_visits (nested : Nested) : (no : Option Statement) → (γ : Bindings) →
    (otherwise? γ.names no).isSome → ∀ x ∈ resolve? nested no,
      (Resolve.inFrame Scope.innerFrame x).Visits γ Action.kindCode fun ε => execOtherwise ε no
  | none, γ, _ => nofun
  | some st, γ, isAfter => by
    obtain ⟨names, isAfter⟩ := Option.isSome_iff_exists.mp isAfter
    rintro _ ⟨⟩
    simp only [otherwise?, execOtherwise] at isAfter ⊢
    exact (Statement.resolve_performs nested st γ names isAfter).inFrame
theorem resolveBody_performs (nested : Nested) : (body : List Statement) → (γ : Bindings) →
    (names : List String) → afterAll? γ.names body = some names →
      (resolveBody nested body).Performs γ names (fun as env table => runAll env table as) fun ε =>
        execAll ε body
  | [], γ, names, isAfter => by
    simp only [afterAll?, resolveBody, execAll] at isAfter ⊢
    cases isAfter
    refine Resolve.Finds.performs fun describes => .pure fun table inside => ?_
    rw [runAll]
    exact Does.nothing
  | st :: rest, γ, names, isAfter => by
    simp only [afterAll?, resolveBody, execAll] at isAfter ⊢
    obtain ⟨between, isBetween, isAfter⟩ := Option.bind_eq_some_iff.mp isAfter
    have performs := cons_performs (Statement.resolve_performs nested st γ between isBetween)
      fun γ' same => resolveBody_performs nested rest γ' names (same ▸ isAfter)
    exact performs
end

theorem root_describes {w : World} (sound : w.types.Sound) (script : ScriptTypes) :
    Bindings.Describes [] ⟨w, Scope.root script⟩ := by
  refine ⟨sound, nofun, fun {name h ty} found => ?_, List.forall_mem_nil _, List.nodup_nil,
    List.cons_ne_nil _ _⟩
  have found : (Scope.builtins script).lookup name = some (Expr.leaf (.var h ty true)) := by
    simpa [Scope.lookup?, Scope.root, List.findSome?] using found
  obtain ⟨l₁, l₂, same, _⟩ := List.lookup_eq_some_iff.mp found
  have member : (name, Expr.leaf (.var h ty true)) ∈ Scope.builtins script := by simp [same]
  simp [Scope.builtins, Scope.ownerVar, Scope.targetVar, Expr.leaf] at member

theorem start_tidy (firstLabel : Nat) (fresh : limit ≤ firstHandle) :
    (Ctx.start firstLabel firstHandle).Tidy limit := by
  have sound := Point.start_sound firstLabel firstHandle
  exact ⟨⟨[[]], sound.balanced, sound.registered⟩, fresh⟩

/-- A store that was read off the registers has the number of a variable in its register. -/
theorem store_eq {c : Ctx} (small : h < limit) (isBound : c.registerOf? h = some slot) (ρ : Registers) :
    c.store limit ρ h = ρ slot := by
  simp [Ctx.store, small, isBound]

/-- The variables in scope are those of the valuation, and each has its number in its register. -/
theorem After.lookup_iff {c : Ctx} {ρ ρ' : Registers} (after : After t.world.nextHandle [] γ exec c ρ u ρ')
    (describes : γ.Describes t) (name : String) (v : Int32) :
    (exec []).lookup name = some v ↔
      ∃ h ty slot, t.scope.lookup? name = some (Expr.leaf (.var h ty true)) ∧
        u.registerOf? h = some slot ∧ slot < registerCount ∧ ρ' slot = v := by
  have held : γ.Held u := by simpa using after.held
  have value : exec [] = γ.valuation (u.store t.world.nextHandle ρ') := by
    simpa [Bindings.valuation] using after.valuation.symm
  rw [value, γ.valuation_lookup, Option.map_eq_some_iff]
  constructor
  · rintro ⟨h, found, rfl⟩
    obtain ⟨ty, _, inScope⟩ := describes.bound found
    have member := γ.mem_handles found
    obtain ⟨slot, isBound⟩ := held h member
    exact ⟨h, ty, slot, inScope, isBound, (after.tidy.disciplined.live isBound).1,
      (store_eq (describes.handles h member) isBound _).symm⟩
  · rintro ⟨h, ty, slot, inScope, isBound, _, rfl⟩
    have found := describes.others inScope
    exact ⟨h, found, store_eq (describes.handles h (γ.mem_handles found)) isBound _⟩

/-- Statements on integers that are resolved in a new scope keep their meaning: run from any contents of
the registers, their code ends with the number of each variable in the register of the variable. -/
theorem Document.numbers_preserved (d : Document) (owner : TypeId) (config : Config)
    (table : Placeholder) {body : List Statement} (isNumbers : (afterAll? [] body).isSome)
    {actions : List Action} {t : Resolving}
    (resolved : (resolveBody (nestedCalls macroLevels) body).run
      ⟨d.declared, Scope.root (.ofOwner owner)⟩ = (.ok actions, t))
    {firstLabel firstHandle : Nat} (fresh : t.world.nextHandle ≤ firstHandle) {c : Ctx}
    (written : (runAll ⟨t.world.types, config⟩ table actions).run
      (Ctx.start firstLabel firstHandle) = (.ok (), c)) (ρ : Registers) :
    ∃ ρ', Machine.run ⟨ρ, []⟩ c.lines = some ⟨ρ', []⟩ ∧
      ∀ name v, (execAll [] body).lookup name = some v ↔
        ∃ handle ty slot, t.scope.lookup? name = some (Expr.leaf (.var handle ty true)) ∧
          c.registerOf? handle = some slot ∧ slot < registerCount ∧ ρ' slot = v := by
  obtain ⟨names, isAfter⟩ := Option.isSome_iff_exists.mp isNumbers
  obtain ⟨γ, _, performed⟩ := (resolveBody_performs (nestedCalls macroLevels) body [] names isAfter).found
    (root_describes d.declared_known.reachable.sound (.ofOwner owner)) resolved
  have describes : γ.Describes t := by simpa using performed.describes
  have within : t.Within ⟨t.world.types, config⟩ t.world.nextHandle :=
    ⟨.refl describes.sound, Nat.le_refl _⟩
  have codes := (performed.does table within).codes (ρ := ρ) (start_tidy firstLabel fresh) (List.forall_mem_nil _)
  obtain ⟨code, lines, ρ', moves, after⟩ := codes.found () c written
  refine ⟨ρ', ?_, after.lookup_iff describes⟩
  rw [lines]
  exact moves.run [] rfl

/-- The inner `a` hides the outer one, and `b` is set in an arm. -/
theorem Document.numbers_preserved_shadowed :
    let line : StatementKind → Statement := .mk .unknown
    let body : List Statement := [
      line (.declare ["a"] [] (some (.int 5))),
      line (.declare ["b"] [] (some (.chain .add [.chain .mul [.id "a", .int 2], .id "a"]))),
      line (.branch (.logic .and (.compare .lt (.id "a") (.id "b")) (.not (.compare .eq (.id "b") (.int 3))))
        (line (.block [
          line (.declare ["a"] [] (some (.int 100))),
          line (.assign (some (.id "b")) (.chain .sub [.id "b", .id "a"]))] true))
        (some (line (.update .add (.id "b") (.int 1))))),
      line (.update .add (.id "a") (.id "b"))]
    let start : Resolving := ⟨Document.empty.declared, Scope.root (.ofOwner Registry.null)⟩
    ∃ actions t c, (afterAll? [] body).isSome ∧
      (resolveBody (nestedCalls macroLevels) body).run start = (.ok actions, t) ∧
      (runAll ⟨t.world.types, .standard⟩ (fun _ => none) actions).run
        (Ctx.start 0 t.world.nextHandle) = (.ok (), c) ∧
      ∀ ρ, ∃ ρ', Machine.run ⟨ρ, []⟩ c.lines = some ⟨ρ', []⟩ ∧
        ∃ handle ty slot, t.scope.lookup? "a" = some (Expr.leaf (.var handle ty true)) ∧
          c.registerOf? handle = some slot ∧ slot < registerCount ∧ ρ' slot = -80 := by
  intro line body start
  have isNumbers : (afterAll? [] body).isSome := by decide +kernel
  have value : (execAll [] body).lookup "a" = some (-80) := by decide +kernel
  have succeeds : (match (resolveBody (nestedCalls macroLevels) body).run start with
      | (.ok actions, t) => ((runAll ⟨t.world.types, .standard⟩ (fun _ => none) actions).run
          (Ctx.start 0 t.world.nextHandle)).1.isOk
      | (.error _, _) => false) = true := by
    decide +kernel
  rcases resolved : (resolveBody (nestedCalls macroLevels) body).run start with ⟨_ | actions, t⟩
  · simp [resolved] at succeeds
  rcases written : (runAll ⟨t.world.types, .standard⟩ (fun _ => none) actions).run
      (Ctx.start 0 t.world.nextHandle) with ⟨_ | _, c⟩
  · simp [resolved, written, Except.isOk, Except.toBool] at succeeds
  refine ⟨actions, t, c, isNumbers, rfl, written, fun ρ => ?_⟩
  obtain ⟨ρ', ran, values⟩ := numbers_preserved Document.empty Registry.null .standard (fun _ => none)
    isNumbers resolved (Nat.le_refl _) written ρ
  exact ⟨ρ', ran, (values "a" (-80)).mp value⟩

end AgentScript
