import AgentScript.Proofs.Resolution.Invariant
import AgentScript.Proofs.ScriptText
import AgentScript.Proofs.Types.Worlds

/-! Invariants of whole units. -/
namespace AgentScript

def Document.bodies (d : Document) : List Statement :=
  d.install.toList ++ d.events.map (·.body) ++ d.remove.toList

/-- The names, macros and scripts of a unit, as an invariant asks for. -/
structure Document.Meets (I : Invariant ι) (d : Document) : Prop where
  names : ∀ decl ∈ d.declarations, decl.Names I.text
  macros : ∀ m ∈ d.macros, ∀ params : List MacroParam, params.map (·.name) = m.params.map (·.name) →
    I.macros ⟨m.name, params, m.body, m.pos⟩
  bodies : ∀ body ∈ d.bodies, I.node I.root (.statement body)

variable {I : Invariant ι} (law : I.Lawful)
include law

theorem resolveScript_upholds (owner : TypeId) {body : Statement} (node : I.node I.root (.statement body)) :
    (resolveScript owner body).Upholds I (I.action I.root) :=
  .inScope (Statement.resolve_reads (law.lawful macroLevels) body node) (law.rootScope _) law.breakableRoot.symm

theorem EventScript.resolve_upholds {e : EventScript} (node : I.node I.root (.statement e.body)) :
    e.resolve.Upholds I fun script => I.action I.root script.body := by
  refine (WorldM.Upholds.inTypes law.types fun stable => stable.byClassifier e.classifier).bind fun owner _ => ?_
  refine WorldM.Upholds.current.bind fun w _ => (WorldM.Upholds.ofExcept ?_).bind fun _ _ => ?_
  · intro c failed
    unfold EventScript.number at failed
    split at failed
    · cases failed
    · split at failed <;> cases failed
      exact law.refused rfl
  · exact (resolveScript_upholds law owner node).bind fun _ known => .pure known

omit law in
/-- What each step comes to, if all of them uphold an invariant. -/
theorem attemptEach_upholds {P : α → Prop} {steps : List (WorldM α)}
    (each : ∀ x ∈ steps, x.Upholds I P) {w : World} (meets : w.Meets I) :
    (∀ r ∈ (attemptEach steps w).1, (∀ a, r = .ok a → P a) ∧ ∀ f, r = .error f → I.refused f.cause) ∧
      (attemptEach steps w).2.Meets I := by
  induction steps generalizing w with
  | nil => exact ⟨List.forall_mem_nil _, meets⟩
  | cons x rest ih =>
    obtain ⟨here, others⟩ := List.forall_mem_cons.mp each
    rcases ran : x.run w with ⟨f | a, v⟩
    · obtain ⟨after, refused⟩ := here.refused meets ran
      obtain ⟨more, last⟩ := ih others after
      simp only [attemptEach, ran]
      refine ⟨List.forall_mem_cons.mpr ⟨⟨by simp, ?_⟩, more⟩, last⟩
      rintro _ ⟨⟩
      exact refused
    · obtain ⟨after, known⟩ := here.found meets ran
      obtain ⟨more, last⟩ := ih others after
      simp only [attemptEach, ran]
      refine ⟨List.forall_mem_cons.mpr ⟨⟨?_, by simp⟩, more⟩, last⟩
      rintro _ ⟨⟩
      exact known

/-- All scripts of a unit meet an invariant, and so does the world that they leave. -/
theorem Document.scripts_meet {d : Document} (source : d.Meets I) :
    (∀ r ∈ d.scripts.1, (∀ script, r = .ok script → I.action I.root script.body) ∧
      ∀ f, r = .error f → I.refused f.cause) ∧ d.scripts.2.Meets I := by
  have declared : d.declared.Meets I := by
    have known := Document.declared_declared source.names source.macros
    exact ⟨known.traced, by simp [known.deferred], known.macros⟩
  refine attemptEach_upholds (fun x member => ?_) declared
  obtain ⟨step, isStep, rfl⟩ := List.mem_map.mp member
  rcases List.mem_append.mp isStep with isEarly | isRemove
  · rcases List.mem_append.mp isEarly with isInstall | isEvent
    · obtain ⟨body, isBody, rfl⟩ := Option.map_eq_some_iff.mp (Option.mem_toList.mp isInstall)
      have node := source.bodies body (by simp [Document.bodies, isBody])
      exact (resolveScript_upholds law _ node).bind fun _ known => .pure known
    · obtain ⟨e, among, rfl⟩ := List.mem_map.mp isEvent
      have node := source.bodies e.body (List.mem_append_left _ (List.mem_append_right _ (List.mem_map_of_mem among)))
      exact (EventScript.resolve_upholds law node).located e.pos
  · obtain ⟨body, isBody, rfl⟩ := Option.map_eq_some_iff.mp (Option.mem_toList.mp isRemove)
    have node := source.bodies body (by simp [Document.bodies, isBody])
    exact (resolveScript_upholds law _ node).bind fun _ known => .pure known

theorem Document.resolve_meets {d : Document} (source : d.Meets I) :
    d.resolve.2.2.Meets I ∧ ∀ script ∈ d.resolve.1, I.action I.root script.body := by
  obtain ⟨each, meets⟩ := Document.scripts_meet law source
  obtain ⟨scripts, world⟩ := attemptAll_each d.scriptSteps d.declared
  change (attemptAll d.scriptSteps d.declared).2.2.Meets I ∧
    ∀ script ∈ (attemptAll d.scriptSteps d.declared).1, I.action I.root script.body
  rw [scripts, world]
  refine ⟨meets, fun script member => ?_⟩
  obtain ⟨r, among, ok⟩ := List.mem_filterMap.mp member
  cases r with
  | error => cases ok
  | ok found =>
    cases ok
    exact (each _ among).1 script rfl

end AgentScript
