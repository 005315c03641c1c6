import AgentScript.Proofs.Independence.Twins
import AgentScript.Proofs.Types.Worlds

/-! Refused declarations. Before anything is declared, references are resolved, and that makes types
which no name refers to. Main statement: once a declaration or a macro is refused, whatever could be
asked of the world is answered as before. -/
namespace AgentScript

namespace WorldM

/-- A step that does no more than resolve references. -/
def Refers (x : WorldM α) : Prop := ∀ w : World, w.Referred (x.run w).2

/-- A step that has done no more than resolve references if it fails. -/
def Careful (x : WorldM α) : Prop := ∀ (w v : World) (f), x.run w = (.error f, v) → w.Referred v

namespace Refers

theorem bind {x : WorldM α} {f : α → WorldM β} (first : Refers x) (next : ∀ a, Refers (f a)) :
    Refers (x >>= f) := by
  intro w
  have here := first w
  rw [run_bind]
  rcases ran : x.run w with ⟨e | a, v⟩ <;> rw [ran] at here
  · exact here
  · exact here.trans (next a v)

theorem pure (a : α) : Refers (Pure.pure a) := fun w => .refl w

theorem current : Refers WorldM.current := fun w => .refl w

theorem fail (c : Cause) : Refers (WorldM.fail c : WorldM α) := fun w => .refl w

theorem ofExcept (e : Except Cause α) : Refers (WorldM.ofExcept e) :=
  fun w => by cases e <;> exact .refl w

theorem ofType (e : Except TypeError α) : Refers (WorldM.ofType e) :=
  fun w => by cases e <;> exact .refl w

theorem typeRef (t : TypeRef) : Refers (WorldM.typeRef t) := by
  intro w
  rw [WorldM.typeRef, run_inTypes]
  exact .typeRef w t

end Refers

namespace Careful

theorem bind {x : WorldM α} {f : α → WorldM β} (first : Refers x) (next : ∀ a, Careful (f a)) :
    Careful (x >>= f) := by
  intro w v e ran
  have here := first w
  rw [run_bind] at ran
  rcases ran' : x.run w with ⟨e' | a, u⟩ <;> rw [ran'] at ran here
  · cases ran
    exact here
  · exact here.trans (next a u v e ran)

theorem declare (f : Registry → Except TypeError Registry) : Careful (WorldM.declare f) :=
  .bind .current fun _ => .bind (.ofType _) fun _ => nofun

end Careful

end WorldM

namespace Declaration

theorem constantOf_refers (name : String) (value : Term) : (constantOf name value).Refers := by
  have first : (Resolve.inScope (Scope.root (.ofOwner Registry.null)) (Resolve.term value).const).Refers :=
    fun w => (value.const_reaches _).refers ⟨w, _⟩
  refine first.bind fun c => ?_
  cases c with
  | some c => exact .pure c
  | none => exact .fail _

theorem declareClass_careful (name : String) (c : Classifier) : (declareClass name c).Careful := by
  intro w v f ran
  change ((WorldM.ofType (w.types.declareClass c name).1).andThen fun _ => pure ()).run
    { w with types := (w.types.declareClass c name).2 } = _ at ran
  unfold Registry.declareClass at ran
  dsimp only at ran
  split at ran
  · split at ran <;> cases ran
    exact .typeRef w (.classifier c)
  · cases ran

theorem apply_careful : (d : Declaration) → d.apply.Careful
  | cls name c => declareClass_careful name c
  | interface name => by
    unfold apply
    exact .declare _
  | implements ty super => .bind (.typeRef ty) fun _ => .bind (.typeRef super) fun _ => .declare _
  | field owner name ty slot => .bind (.typeRef owner) fun _ => .bind (.typeRef ty) fun _ => .declare _
  | message owner name number | script owner name number => .bind (.typeRef owner) fun _ => .declare _
  | const name value => .bind (constantOf_refers name value) fun _ => .declare _
  | typedef name ty => .bind (.typeRef ty) fun _ => .declare _

end Declaration

namespace MacroDef

theorem resolveParams_refers : (params : List ParamDef) → (resolveParams params).Refers
  | [] => .pure _
  | p :: rest => .bind (.typeRef p.ty) fun _ => .bind (resolveParams_refers rest) fun _ => .pure _

theorem declare_careful (d : MacroDef) : d.declare.Careful :=
  .bind (resolveParams_refers d.params) fun _ => .bind .current fun _ => .bind (.ofExcept _) fun _ => nofun

end MacroDef

namespace Registry
variable {r r' : Registry}

theorem Stable.above (base : Registry) : Stable base.Above where
  sound above := above.sound
  byClassifier c above := (above.byClassifier c).1
  byUnion above inside := above.byUnion inside

/-- What can be asked about the types and names of one registry is answered alike by the other. -/
structure Agrees (r r' : Registry) : Prop where
  byName : r'.byName = r.byName
  constant? : r'.constant? = r.constant?
  name : ∀ t < r.entries.length, r'.name t = r.name t
  kind? : ∀ t < r.entries.length, r'.kind? t = r.kind? t
  major : ∀ t < r.entries.length, r'.major t = r.major t
  effective : ∀ t < r.entries.length, r'.effective t = r.effective t
  field? : ∀ t < r.entries.length, r'.field? t = r.field? t
  messageNumber? : ∀ t < r.entries.length, r'.messageNumber? t = r.messageNumber? t
  messageName? : ∀ t < r.entries.length, r'.messageName? t = r.messageName? t
  scriptNumber? : ∀ t < r.entries.length, r'.scriptNumber? t = r.scriptNumber? t
  scriptName? : ∀ t < r.entries.length, r'.scriptName? t = r.scriptName? t
  canCast : ∀ a < r.entries.length, ∀ b < r.entries.length, r'.canCast a b = r.canCast a b

theorem Above.visible (above : r.Above r') (reachable : r.Reachable) (inside : t < r.entries.length) :
    r'.visible t = r.visible t := by
  unfold Registry.visible
  rw [effective_grown above.entries inside]
  refine List.filterMap_congr fun i seen => ?_
  obtain ⟨more, same⟩ := above.interfaces
  rw [← same, List.getElem?_append_left (reachable.effective_inside t i seen)]

theorem name_grown (added : r.entries <+: r'.entries) (ordered : r.Ordered)
    (inside : t < r.entries.length) : r'.name t = r.name t := by
  have plain {u : TypeId} (inside : u < r.entries.length) : r'.plainName u = r.plainName u := by
    rw [plainName, plainName, kind?_grown added inside]
  unfold name
  rw [members?_grown added inside]
  cases isUnion : r.members? t with
  | none => exact plain inside
  | some members =>
    refine congrArg ("|".intercalate ·) (List.map_congr_left fun m member => plain ?_)
    have isMember : m ∈ members := by
      rcases List.mem_append.mp member with first | last
      · exact (List.mem_filter.mp first).1
      · split at last
        · cases List.mem_singleton.mp last
          assumption
        · cases last
    exact ordered.inside t m (mem_supers_of_member isUnion isMember)

theorem Above.agrees (above : r.Above r') (reachable : r.Reachable) : r.Agrees r' where
  byName := by
    funext name
    simp only [Registry.byName, find?, above.named]
  constant? := by
    funext name
    simp only [Registry.constant?, above.constants]
  name _ inside := name_grown above.entries reachable.ordered inside
  kind? _ inside := kind?_grown above.entries inside
  major _ inside := major_grown above.entries inside
  effective _ inside := effective_grown above.entries inside
  field? t inside := by simp only [funext_iff, Registry.field?, above.visible reachable inside, implies_true]
  messageNumber? t inside := by
    simp only [funext_iff, Registry.messageNumber?, above.visible reachable inside, implies_true]
  messageName? t inside := by
    simp only [funext_iff, Registry.messageName?, above.visible reachable inside, implies_true]
  scriptNumber? t inside := by
    simp only [funext_iff, Registry.scriptNumber?, above.visible reachable inside, implies_true]
  scriptName? t inside := by
    simp only [funext_iff, Registry.scriptName?, above.visible reachable inside, implies_true]
  canCast a inside b inside' :=
    Twin.canCast reachable.closed (.refl reachable.sound reachable.ordered reachable.filled.distinct) above
      (.old inside) (.old inside')

end Registry

namespace World
variable {w v : World}

/-- A world that declarations lead to, refused ones among them. -/
inductive Reachable : World → Prop
  | initial : Reachable World.initial
  | declaration {w : World} (before : Reachable w) (d : Declaration) : Reachable (d.apply.run w).2
  | macroDef {w : World} (before : Reachable w) (m : MacroDef) : Reachable (m.declare.run w).2

theorem Reachable.declared (reachable : w.Reachable) : w.Declared (fun _ => True) fun _ => True := by
  induction reachable with
  | initial => exact initial_declared
  | declaration _ d ih => exact (Declaration.apply_declares ih d.names_any).declared
  | macroDef _ m ih => exact (MacroDef.declare_declares ih fun _ _ => trivial).declared

/-- A declaration or a macro is refused, which leaves another world. -/
inductive Refuses (w v : World) : Prop
  | declaration (d : Declaration) (f : Failure) (ran : d.apply.run w = (.error f, v))
  | macroDef (m : MacroDef) (f : Failure) (ran : m.declare.run w = (.error f, v))

theorem Refuses.referred (refuses : w.Refuses v) : w.Referred v := by
  cases refuses with
  | declaration d f ran => exact d.apply_careful w v f ran
  | macroDef m f ran => exact m.declare_careful w v f ran

/-- The worlds differ in types that nothing refers to. -/
structure Unnoticed (w v : World) : Prop where
  rest : v = { w with types := v.types }
  named : v.types.named = w.types.named
  constants : v.types.constants = w.types.constants
  entries : w.types.entries <+: v.types.entries
  interfaces : w.types.interfaces <+: v.types.interfaces
  empty : ∀ i f, w.types.interfaces.length ≤ i → v.types.interfaces[i]? = some f → f = .empty f.name
  agrees : w.types.Agrees v.types
  findMacro : v.findMacro = w.findMacro

theorem refused_unnoticed (reachable : w.Reachable) (refuses : w.Refuses v) : w.Unnoticed v := by
  have known := reachable.declared.reachable
  have referred := refuses.referred
  have above := referred.types (.above _) (.refl known.sound known.ordered known.filled.distinct)
  refine ⟨referred.rest, above.named, above.constants, above.entries, above.interfaces, above.empty,
    above.agrees known, ?_⟩
  rw [referred.rest]
  rfl

/-- A name that is taken is refused once the class and the two above it are made. -/
theorem refused_unnoticed_class :
    let w := ((Declaration.cls "Dog" ⟨2, 1, 0⟩).apply.run .initial).2
    let v := ((Declaration.cls "Dog" ⟨3, 1, 7⟩).apply.run w).2
    v.types.entries.length = w.types.entries.length + 3 ∧ w.Unnoticed v := by
  refine ⟨by decide, refused_unnoticed (.declaration .initial _) (.declaration (.cls "Dog" ⟨3, 1, 7⟩) ?_ ?_)⟩
  · exact .of (.type (.duplicateType "Dog"))
  · rfl

end World

end AgentScript
