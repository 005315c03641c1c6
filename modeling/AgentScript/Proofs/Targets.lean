import AgentScript.Proofs.Preservation.Script
import AgentScript.Proofs.Resolution.Facts

/-! The type of `targ`. An enumeration gives it back the type of any agent or none in the innermost frame,
and a frame that is left takes that with it. Main statement: after a statement `targ` may be any agent if
an enumeration stands in the same frame, and else it is what it was. -/
namespace AgentScript

mutual
/-- Whether a statement gives the name another meaning where it stands. -/
def Statement.renames (name : String) : Statement → Bool
  | .mk _ kind => kind.renames name
def StatementKind.renames (name : String) : StatementKind → Bool
  | .declare names _ _ => name ∈ names
  | .synonym other _ => name == other
  | .block body false => renamesAny name body
  | _ => false
def renamesAny (name : String) : List Statement → Bool
  | [] => false
  | s :: rest => s.renames name || renamesAny name rest
end

mutual
/-- Whether an enumeration stands in the frame of the statement. -/
def Statement.visits : Statement → Bool
  | .mk _ kind => kind.visits
def StatementKind.visits : StatementKind → Bool
  | .enumerate .. => true
  | .block body false => visitsAny body
  | _ => false
def visitsAny : List Statement → Bool
  | [] => false
  | s :: rest => s.visits || visitsAny rest
end

theorem Statement.resolve_ok {nested : Nested} {s : Statement} {t u : Resolving}
    (ran : (s.resolve nested).run t = (.ok a, u)) : (s.kind.resolve nested).run t = (.ok a.kind, u) := by
  obtain ⟨pos, kind⟩ := s
  obtain ⟨k, v, ranKind, ran⟩ := Resolve.run_bind_ok ran
  cases ran
  exact Resolve.located_ok ranKind

/-- A statement that neither visits agents in its frame nor takes the name. -/
def Node.spares : Node → Bool
  | .statement s | .statement? (some s) => !s.renames "targ" && !s.visits
  | .body ss => !renamesAny "targ" ss && !visitsAny ss
  | .kind k => !k.renames "targ" && !k.visits
  | _ => true

/-- Statements in the watched frame leave `targ` as it is. Those in frames inside may do as they like. -/
def targetKept : Facts Bool := .ofSource (fun watched n => watched = true → n.spares = true) fun _ => false

/-- `targ` means something certain, if it is watched. -/
def TargetIs (meaning : Option Expr) (watched : Bool) (s : Resolving) : Prop :=
  watched = true → s.scope.lookup? "targ" = meaning

theorem targetKept_lawful : targetKept.Lawful := by
  refine Facts.ofSource_lawful fun {i n j m} spares inner => ?_
  cases inner <;> simp_all [Facts.ofSource, Node.spares, Statement.renames, Statement.visits,
    renamesAny, visitsAny, StatementKind.renames, StatementKind.visits]

section
variable {meaning : Option Expr}

theorem TargetIs.bind {watched : Bool} {s : Resolving} (is : TargetIs meaning watched s) {other : String}
    (apart : watched = true → "targ" ≠ other) (e : Expr) :
    TargetIs meaning watched { s with scope := s.scope.bind other e } := by
  intro isWatched
  rw [← is isWatched]
  by_cases frames : s.scope.frames = []
  · simp [Scope.bind, frames]
  · rw [Scope.lookup?_bind frames, if_neg (apart isWatched)]

theorem targetKept_kept : targetKept.Kept (TargetIs meaning) fun _ _ => True where
  toLawful := targetKept_lawful
  refused _ _ := trivial
  leaves _ := trivial
  locates _ := trivial
  meetsApart _ := rfl
  meetsLocated _ _ := rfl
  meetsAlone _ := rfl
  meetsParams _ := rfl
  typeRef _ is := is
  nonNullable _ is := is
  numbers _ _ is := is
  lookup _ _ := trivial
  bindVar v node isName is := by
    refine is.bind (fun watched same => ?_) _
    have spares := node watched
    simp_all [Node.spares, StatementKind.renames]
  bindTarget ty node place is := by
    rcases place with rfl | rfl
    · refine is.bind (fun watched => ?_) _
      have spares := node watched
      simp [Node.spares, StatementKind.visits] at spares
    · exact is.bind (fun watched => by cases watched) _
  bindSynonym node _ is := by
    refine is.bind (fun watched same => ?_) _
    have spares := node watched
    simp_all [Node.spares, StatementKind.renames]
  enter _ := nofun
  enterLoop _ := nofun
  exit is _ := is
  exitLoop is _ := is
  macros _ _ _ := trivial
  reserve is := is
  bindDeferred _ is _ := is
  breakLoop _ _ := by split <;> trivial
  continueLoop _ _ := by split <;> trivial
  ofKind _ _ := trivial

theorem targetKept_reads (meaning : Option Expr) (nested : Nested) :
    (targetKept.reading (TargetIs meaning) fun _ _ => True).Lawful nested nested :=
  targetKept_kept.lawful fun _ _ _ _ _ => by
    refine Facts.Kept.find (P := fun _ => True) (fun is ran => ?_) fun _ _ => trivial
    obtain ⟨_, _, rfl⟩ := Resolve.inBody_ok ran
    exact ⟨is, trivial⟩

end

theorem StatementKind.resolve_leaves (nested : Nested) {kind : StatementKind} (unnamed : kind.renames "targ" = false)
    (still : kind.visits = false) {s t : Resolving} (ran : (kind.resolve nested).run s = (.ok k, t)) :
    t.scope.lookup? "targ" = s.scope.lookup? "targ" := by
  have spares : targetKept.node true (.kind kind) := fun _ => by simp [Node.spares, unnamed, still]
  have step := StatementKind.resolve_reads (targetKept_reads (s.scope.lookup? "targ") nested) kind (k := ()) spares
  exact ((Facts.Kept.found step fun _ => rfl).2.1 ran).1 rfl

theorem Resolve.inFrame_scope {frame : Scope → Frame} {x : Resolve α} {s t : Resolving}
    (ran : (Resolve.inFrame frame x).run s = (.ok a, t)) : t.scope = s.scope := by
  cases (Prod.mk.inj ran).2
  exact (x.later { s with scope := s.scope.push (frame s.scope) }).scope.leave

/-- After an enumeration `targ` may be any agent, wherever it means something. -/
theorem Statement.enumerate_resets {kind : EnumKind} {agent : TypeRef} {params : List Meaning}
    {body : Resolve Action} {s t : Resolving} (bound : s.scope.lookup? "targ" = some e)
    (ran : (enumerate kind agent params body).run s = (.ok k, t)) :
    t.scope.lookup? "targ" = some (Scope.targetVar Registry.agentOrNull) := by
  obtain ⟨agent, u, made, ran⟩ := Resolve.run_bind_ok ran
  obtain ⟨result, v, visited, ran⟩ := Resolve.run_bind_ok ran
  cases ran
  have outside : v.scope = u.scope := Resolve.inFrame_scope visited
  have still : v.scope.lookup? "targ" = some e := by
    cases (Prod.mk.inj made).2
    rw [outside, ← bound]
  have frames : v.scope.frames ≠ [] := by
    intro none
    simp [Scope.lookup?, none] at still
  change (v.scope.bind "targ" _).lookup? "targ" = _
  rw [Scope.lookup?_bind frames, if_pos rfl]

section
variable {nested : Nested}

-- An open block is resolved in the frame around it, so that its statements count one by one.
mutual
theorem StatementKind.resolve_target : (kind : StatementKind) → {t u : Resolving} → {ty : TypeId} →
    {k : ActionKind} → t.scope.lookup? "targ" = some (Scope.targetVar ty) → kind.renames "targ" = false →
    (kind.resolve nested).run t = (.ok k, u) →
    u.scope.lookup? "targ" = some (Scope.targetVar (if kind.visits then Registry.agentOrNull else ty))
  | .enumerate .., _, _, _, _, builtin, _, ran => Statement.enumerate_resets builtin ran
  | .block body false, t, u, ty, _, builtin, unnamed, ran => by
    obtain ⟨as, v, ranBody, ran⟩ := Resolve.run_bind_ok ran
    cases ran
    exact resolveBody_target body builtin unnamed ranBody
  | .block body true, _, _, _, _, builtin, unnamed, ran
  | .declare names types init, _, _, _, _, builtin, unnamed, ran
  | .assign targets source, _, _, _, _, builtin, unnamed, ran
  | .update op target source, _, _, _, _, builtin, unnamed, ran
  | .synonym name target, _, _, _, _, builtin, unnamed, ran
  | .branch cond yes no, _, _, _, _, builtin, unnamed, ran
  | .loop body, _, _, _, _, builtin, unnamed, ran
  | .breakLoop, _, _, _, _, builtin, unnamed, ran
  | .continueLoop, _, _, _, _, builtin, unnamed, ran
  | .inline parts, _, _, _, _, builtin, unnamed, ran
  | .send agent message params delay, _, _, _, _, builtin, unnamed, ran
  | .call script params, _, _, _, _, builtin, unnamed, ran =>
    (StatementKind.resolve_leaves nested unnamed rfl ran).trans builtin
theorem resolveBody_target : (body : List Statement) → {t u : Resolving} → {ty : TypeId} →
    {as : List Action} → t.scope.lookup? "targ" = some (Scope.targetVar ty) → renamesAny "targ" body = false →
    (resolveBody nested body).run t = (.ok as, u) →
    u.scope.lookup? "targ" = some (Scope.targetVar (if visitsAny body then Registry.agentOrNull else ty))
  | [], _, _, _, _, builtin, _, ran => by
    cases ran
    exact builtin
  | .mk pos kind :: rest, t, u, ty, _, builtin, unnamed, ran => by
    obtain ⟨here, others⟩ := Bool.or_eq_false_iff.mp unnamed
    obtain ⟨first, v, ranFirst, ran⟩ := Resolve.run_bind_ok ran
    obtain ⟨as, w, ranRest, ran⟩ := Resolve.run_bind_ok ran
    cases ran
    have between := StatementKind.resolve_target kind builtin here (Statement.resolve_ok ranFirst)
    have after := resolveBody_target rest between others ranRest
    rw [after, visitsAny, Statement.visits]
    cases kind.visits <;> simp
end

end

/-- After a statement `targ` is any agent or none if an enumeration stands in the same frame or if that is
what it was before; else it is what it was before, also after enumerations in frames inside. -/
theorem Statement.target_after (nested : Nested) {s : Statement} {t u : Resolving} {ty : TypeId} {a : Action}
    (builtin : t.scope.lookup? "targ" = some (Scope.targetVar ty)) (unnamed : s.renames "targ" = false)
    (ran : (s.resolve nested).run t = (.ok a, u)) :
    (u.scope.lookup? "targ" = some (Scope.targetVar Registry.agentOrNull) ↔
      s.visits = true ∨ ty = Registry.agentOrNull) ∧
    (s.visits = false → u.scope.lookup? "targ" = some (Scope.targetVar ty)) := by
  obtain ⟨pos, kind⟩ := s
  have after := StatementKind.resolve_target kind builtin unnamed (Statement.resolve_ok ran)
  rw [after, Statement.visits]
  cases kind.visits <;> simp [Scope.targetVar, Expr.leaf]

/-- In the body of an enumeration of dogs, another enumeration in the same frame. -/
theorem Statement.target_after_open :
    let w := ((Declaration.cls "Dog" ⟨2, 1, 5⟩).apply.run .initial).2
    let dog := (w.types.byClassifier ⟨2, 1, 5⟩).1
    let t : Resolving := ⟨w, (Scope.root (.ofOwner Registry.null)).bind "targ" (Scope.targetVar dog)⟩
    let each : Statement := .mk .unknown (.enumerate .etch (.named "Agent") [] (.mk .unknown (.block [] true)))
    let u := (((Statement.mk .unknown (.block [each] false)).resolve (nestedCalls 0)).run t).2
    u.scope.lookup? "targ" = some (Scope.targetVar Registry.agentOrNull) := by
  intro w dog t each u
  have ran : ((Statement.mk .unknown (.block [each] false)).resolve (nestedCalls 0)).run t = (.ok _, u) := rfl
  have builtin : t.scope.lookup? "targ" = some (Scope.targetVar dog) := rfl
  exact (Statement.target_after (nestedCalls 0) builtin rfl ran).1.mpr (.inl rfl)

/-- In the body of an enumeration of dogs, `targ` stays a dog after a block in which any agents are visited.
So its field may be written there, in a unit without any report. -/
theorem Document.target_narrow :
    let statement := Statement.mk .unknown
    let each := statement (.enumerate .etch (.named "Agent") [] (statement (.block [] true)))
    let visits := statement (.block [each] true)
    let w := ((Declaration.cls "Dog" ⟨2, 1, 5⟩).apply.run .initial).2
    let dog := (w.types.byClassifier ⟨2, 1, 5⟩).1
    let t : Resolving := ⟨w, (Scope.root (.ofOwner Registry.null)).bind "targ" (Scope.targetVar dog)⟩
    let u := ((visits.resolve (nestedCalls 0)).run t).2
    let body := statement (.block [visits, statement (.assign (some (.field (.id "targ") "age")) (.int 1))] true)
    let d : Document :=
      { Document.empty with
        declarations := [.cls "Dog" ⟨2, 1, 5⟩, .field (.named "Dog") "age" (.named "integer") 3]
        install := some (statement (.enumerate .enum (.named "Dog") [] body)) }
    dog ≠ Registry.agentOrNull ∧ u.scope.lookup? "targ" = some (Scope.targetVar dog) ∧
      (d.compile .standard).isOk = true := by
  refine ⟨by decide, rfl, by decide +kernel⟩

end AgentScript
