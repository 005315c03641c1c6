import AgentScript.Proofs.Safety.Resolution
import AgentScript.Proofs.Types.Filled

/-! The world that scripts are resolved in. Declarations make no type but by operations on known types,
with the names that they give to types. -/
namespace AgentScript
variable {N : String → Prop} {M : Macro → Prop}

open Registry (Operation)

/-- A world that declarations with names and macros of a kind lead to. -/
structure World.Declared (N : String → Prop) (M : Macro → Prop) (w : World) : Prop where
  traced : w.types.ReachableBy (Operation.Names N)
  macros : ∀ m ∈ w.macros, M m
  params : ∀ m ∈ w.macros, ∀ p ∈ m.params, p.ty < w.types.entries.length
  deferred : w.deferred = []

/-- Operations on known types lead from one registry to the other. -/
structure Registry.LeadsTo (N : String → Prop) (r r' : Registry) : Prop where
  traced : r'.ReachableBy (Operation.Names N)
  length : r.entries.length ≤ r'.entries.length

namespace Registry.LeadsTo
variable {r r' r'' : Registry}

theorem refl (traced : r.ReachableBy (Operation.Names N)) : r.LeadsTo N r := ⟨traced, Nat.le_refl _⟩

theorem trans (first : r.LeadsTo N r') (second : r'.LeadsTo N r'') : r.LeadsTo N r'' :=
  ⟨second.traced, Nat.le_trans first.length second.length⟩

theorem step (traced : r.ReachableBy (Operation.Names N)) (op : Operation) (names : op.Names N)
    (inside : ∀ t ∈ op.types, t < r.entries.length) : r.LeadsTo N (op.apply r) :=
  ⟨traced.step op names inside, traced.reachable.step_keeps (kept_length _) op inside (Nat.le_refl _)⟩

end Registry.LeadsTo

namespace World.Declared
variable {w v : World}

theorem reachable (declared : w.Declared N M) : w.types.Reachable := declared.traced.reachable

theorem leads (declared : w.Declared N M) (leads : w.types.LeadsTo N v.types)
    (rest : v = { w with types := v.types }) : v.Declared N M := by
  have macros : v.macros = w.macros := by rw [rest]
  have deferred : v.deferred = w.deferred := by rw [rest]
  refine ⟨leads.traced, macros ▸ declared.macros, fun m member p isParam => ?_,
    deferred.trans declared.deferred⟩
  exact Nat.lt_of_lt_of_le (declared.params m (macros ▸ member) p isParam) leads.length

end World.Declared

theorem Registry.Stable.leads (r : Registry) : Stable (r.LeadsTo N) where
  sound leads := leads.traced.reachable.sound
  byClassifier c leads := leads.trans (.step leads.traced (.byClassifier c) trivial (List.forall_mem_nil _))
  byUnion {_ types} leads inside := leads.trans (.step leads.traced (.byUnion types) trivial inside)

/-- One world has types that references in the other one made, and is the same in the rest. -/
structure World.Referred (w v : World) : Prop where
  types : ∀ {P : Registry → Prop}, Registry.Stable P → P w.types → P v.types
  rest : v = { w with types := v.types }

namespace World.Referred
variable {w v u : World}

theorem refl (w : World) : w.Referred w := ⟨fun _ => id, rfl⟩

theorem trans (first : w.Referred v) (second : v.Referred u) : w.Referred u := by
  refine ⟨fun stable holds => second.types stable (first.types stable holds), ?_⟩
  have rest := second.rest
  rw [first.rest] at rest
  exact rest

theorem typeRef (w : World) (t : TypeRef) :
    w.Referred { w with types := (t.resolve.run w.types).2 } :=
  ⟨fun stable holds => (TypeRef.resolve_makes stable holds t).kept, rfl⟩

theorem leads (referred : w.Referred v) (traced : w.types.ReachableBy (Operation.Names N)) :
    w.types.LeadsTo N v.types :=
  referred.types (.leads _) (.refl traced)

theorem reachable (referred : w.Referred v) (reachable : w.types.Reachable) : v.types.Reachable :=
  (referred.leads reachable.traced).traced.reachable

theorem declared (referred : w.Referred v) (declared : w.Declared N M) : v.Declared N M :=
  declared.leads (referred.leads declared.traced) referred.rest

end World.Referred

/-- A step that does no more than resolve references, with what is known of its answer. -/
structure Resolve.Reaches (x : Resolve α) (post : Registry → α → Prop) : Prop where
  refers : ∀ s : Resolving, s.world.Referred (x.run s).2.world
  found : ∀ {s : Resolving} {a t}, s.world.types.Reachable → x.run s = (.ok a, t) → post t.world.types a

namespace Resolve.Reaches
variable {post : Registry → α → Prop}

theorem bind {x : Resolve α} {f : α → Resolve β} {Q : Registry → β → Prop} (first : Reaches x post)
    (next : ∀ a, Reaches (f a) Q) : Reaches (x >>= f) Q where
  refers s := by
    have here := first.refers s
    rw [run_bind]
    rcases ran : x.run s with ⟨e | a, t⟩ <;> rw [ran] at here
    · exact here
    · exact here.trans ((next a).refers t)
  found {s b u} reachable ran := by
    obtain ⟨a, t, ran, rest⟩ := run_bind_ok ran
    have here := first.refers s
    rw [ran] at here
    exact (next a).found (here.reachable reachable) rest

theorem idle {x : Resolve α} {post : Registry → α → Prop} (same : ∀ s, (x.run s).2 = s)
    (found : ∀ {s a}, s.world.types.Reachable → (x.run s).1 = .ok a → post s.world.types a) :
    Reaches x post where
  refers s := by
    rw [same]
    exact .refl _
  found {s a t} reachable ran := by
    have after := same s
    rw [ran] at after
    cases after
    exact found reachable (congrArg Prod.fst ran)

theorem pure (holds : ∀ r : Registry, r.Reachable → post r a) : Reaches (Pure.pure a) post :=
  idle (fun _ => rfl) fun reachable ok => by
    cases ok
    exact holds _ reachable

theorem ofExcept {e : Except Cause α} (holds : ∀ a, e = .ok a → ∀ r : Registry, r.Reachable → post r a) :
    Reaches (Resolve.ofExcept e) post := by
  cases e with
  | ok a => exact pure (holds a rfl)
  | error c =>
    refine idle (fun _ => rfl) fun _ ok => ?_
    cases ok

theorem typeRef (t : TypeRef) : Reaches (Resolve.typeRef t) fun _ _ => True := by
  refine ⟨fun s => ?_, fun _ _ => trivial⟩
  rw [Resolve.world_typeRef]
  exact .typeRef s.world t

end Resolve.Reaches

/-- The type of a constant is known. -/
def Constant.Known (r : Registry) (c : Option Constant) : Prop := ∀ k ∈ c, k.ty < r.entries.length

theorem Constant.known_ofValue {r : Registry} (reachable : r.Reachable) (v : Value) :
    Known r (some (.ofValue v)) := by
  rintro _ ⟨⟩
  refine Nat.lt_of_lt_of_le ?_ reachable.length
  cases v with
  | int _ => exact (by decide : Registry.integer < Registry.initial.entries.length)
  | float _ => exact (by decide : Registry.float < Registry.initial.entries.length)
  | str _ => exact (by decide : Registry.string < Registry.initial.entries.length)
  | bytes _ => exact (by decide : Registry.bytes < Registry.initial.entries.length)

theorem Resolve.Reaches.ofConst {c : Resolve Constant}
    (literal : c.Reaches fun _ c => ∃ v, c = .ofValue v) :
    (Meaning.ofConst c).const.Reaches Constant.Known := by
  have steps : (Meaning.ofConst c).const.Reaches fun _ _ => True :=
    literal.bind fun _ => .pure fun _ _ => trivial
  refine ⟨steps.refers, fun {s b u} reachable ran => ?_⟩
  obtain ⟨c, t, ran, rest⟩ := run_bind_ok ran
  cases rest
  have after := (literal.refers s).reachable reachable
  rw [ran] at after
  obtain ⟨v, rfl⟩ := literal.found reachable ran
  exact Constant.known_ofValue after v

mutual
theorem Term.const_reaches (nested : Nested) : (t : Term) → (t.meaning nested).const.Reaches Constant.Known
  | .int _ | .float _ | .str _ | .bytes _ =>
    .ofConst (.pure fun _ _ => ⟨_, rfl⟩)
  | .id name => by
    have scope : Resolve.scope.Reaches fun _ _ => True := .idle (fun _ => rfl) fun _ _ => trivial
    refine scope.bind fun scope => ?_
    cases scope.isBound name with
    | true => exact .pure fun _ _ => nofun
    | false =>
      refine .idle (fun _ => rfl) fun {s a} reachable ok => ?_
      cases ok
      intro k found
      obtain ⟨_, _, isConstant, _⟩ := List.lookup_eq_some_iff.mp found
      exact reachable.filled.constants (name, k) (by simp [isConstant])
  | .group [item] => Term.const_reaches nested item
  | .group [] | .group (_ :: _ :: _) => .pure fun _ _ => nofun
  | .chain op operands => by
    refine (constants_reaches nested operands).bind fun values => ?_
    cases values with
    | none => exact .pure fun _ _ => nofun
    | some vs =>
      refine .ofExcept fun c folded r reachable => ?_
      unfold Meaning.foldChain at folded
      split at folded
      · cases folded
        exact nofun
      · obtain ⟨v, _, made⟩ := bind_ok folded
        cases made
        cases v with
        | none => exact nofun
        | some v => exact Constant.known_ofValue reachable v
  | .call .. | .field .. | .cast .. | .denull .. | .compare .. | .logic .. | .not .. | .inline ..
  | .isInstance .. | .seq .. => .pure fun _ _ => nofun
  | .messageId ty name script => by
    have types : Resolve.types.Reaches fun _ _ => True := .idle (fun _ => rfl) fun _ _ => trivial
    refine .ofConst ((Resolve.Reaches.typeRef ty).bind fun ty => types.bind fun r => ?_)
    have found : (Resolve.ofExcept (Meaning.numberOf r ty name script)).Reaches fun _ _ => True :=
      .ofExcept fun _ _ _ _ => trivial
    exact found.bind fun n => .pure fun _ _ => ⟨_, rfl⟩
theorem constants_reaches (nested : Nested) : (ts : List Term) →
    (Meaning.constants (meanings nested ts)).Reaches fun _ _ => True
  | [] => .pure fun _ _ => trivial
  | t :: rest => by
    refine (Term.const_reaches nested t).bind fun c => ?_
    cases c with
    | none => exact .pure fun _ _ => trivial
    | some c => exact (constants_reaches nested rest).bind fun _ => .pure fun _ _ => trivial
end

/-- A step that leads from one world to another, with what is known of its answer. -/
structure WorldM.Declares (N : String → Prop) (M : Macro → Prop) (w : World) (x : WorldM α)
    (post : Registry → α → Prop) : Prop where
  declared : (x.run w).2.Declared N M
  length : w.types.entries.length ≤ (x.run w).2.types.entries.length
  found : ∀ {a v}, x.run w = (.ok a, v) → post v.types a

namespace WorldM.Declares
variable {w : World} {post : Registry → α → Prop}

theorem bind {x : WorldM α} {f : α → WorldM β} {P : Registry → α → Prop} {Q : Registry → β → Prop}
    (first : Declares N M w x P) (next : ∀ v a, v.Declared N M → w.types.entries.length ≤ v.types.entries.length →
      P v.types a → Declares N M v (f a) Q) : Declares N M w (x >>= f) Q := by
  have declared := first.declared
  have length := first.length
  rcases ran : x.run w with ⟨e | a, v⟩
  · have run : (x >>= f).run w = (.error e, v) := by rw [run_bind, ran]
    rw [ran] at declared length
    exact ⟨by rwa [run], by rwa [run], by simp [run]⟩
  · have run : (x >>= f).run w = (f a).run v := by rw [run_bind, ran]
    rw [ran] at declared length
    have rest := next v a declared length (first.found ran)
    exact ⟨run ▸ rest.declared, run ▸ Nat.le_trans length rest.length, fun ran => rest.found (run ▸ ran)⟩

theorem pure (declared : w.Declared N M) (holds : post w.types a) : Declares N M w (Pure.pure a) post :=
  ⟨declared, Nat.le_refl _, fun ran => by cases ran; exact holds⟩

theorem fail (declared : w.Declared N M) (c : Cause) : Declares N M w (WorldM.fail c) post :=
  ⟨declared, Nat.le_refl _, nofun⟩

theorem typeRef (declared : w.Declared N M) (t : TypeRef) :
    Declares N M w (WorldM.typeRef t) fun r ty => ty < r.entries.length := by
  have referred := World.Referred.typeRef w t
  have run : ((WorldM.typeRef t).run w).2 = { w with types := (t.resolve.run w.types).2 } := by
    rw [WorldM.typeRef, WorldM.run_inTypes]
  refine ⟨?_, ?_, fun {a v} ran => ?_⟩
  · rw [run]
    exact referred.declared declared
  · rw [run]
    exact (referred.leads declared.traced).length
  · exact (TypeRef.resolve_makes (.extends _) (.refl declared.reachable.sound) t).found a v.types (typeRef_ok ran)

theorem declare (declared : w.Declared N M) {f : Registry → Except TypeError Registry}
    (op : Operation) (names : op.Names N) (inside : ∀ t ∈ op.types, t < w.types.entries.length)
    (same : ∀ r, f w.types = .ok r → r = op.apply w.types := by
      intro r made
      simp [Operation.apply, Operation.apply.after, made]) :
    Declares N M w (WorldM.declare f) fun _ _ => True := by
  have run : (WorldM.declare f).run w = match f w.types with
      | .ok types => (.ok (), { w with types })
      | .error e => (.error (.of (.type e)), w) := by
    change ((WorldM.ofType (f w.types)).andThen WorldM.setTypes).run w = _
    cases f w.types <;> rfl
  have leads := Registry.LeadsTo.step declared.traced op names inside
  cases made : f w.types with
  | error e =>
    rw [made] at run
    exact ⟨by rwa [run], by rw [run], fun _ => trivial⟩
  | ok r =>
    rw [made] at run
    rw [← same r made] at leads
    refine ⟨?_, ?_, fun _ => trivial⟩
    · rw [run]
      exact declared.leads leads rfl
    · rw [run]
      exact leads.length

theorem located (pos : Position) {x : WorldM α} (declares : Declares N M w x post) :
    Declares N M w (x.located pos) fun _ _ => True :=
  ⟨declares.declared, declares.length, fun _ => trivial⟩

end WorldM.Declares

namespace Declaration
variable {w : World}

/-- The name that a declaration gives to a type. -/
def Names (P : String → Prop) : Declaration → Prop
  | .cls name _ | .interface name => P name
  | _ => True

theorem names_any (d : Declaration) : d.Names fun _ => True := by
  cases d <;> trivial

theorem constantOf_declares (declared : w.Declared N M) (name : String) (value : Term) :
    WorldM.Declares N M w (constantOf name value) fun r c => c.ty < r.entries.length := by
  have finds := value.const_reaches (nestedCalls macroLevels)
  have first : WorldM.Declares N M w (Resolve.inScope (Scope.root (.ofOwner Registry.null))
      (Resolve.term value).const) Constant.Known := by
    have referred := finds.refers ⟨w, Scope.root (.ofOwner Registry.null)⟩
    refine ⟨referred.declared declared, (referred.leads declared.traced).length, fun {a v} ran => ?_⟩
    obtain ⟨result, rfl⟩ := Prod.mk.inj ran
    exact finds.found (s := ⟨w, _⟩) declared.reachable (Prod.ext result rfl)
  refine first.bind fun v c declared _ known => ?_
  cases c with
  | some c => exact .pure declared (known c rfl)
  | none => exact .fail declared _

theorem apply_declares (declared : w.Declared N M) {d : Declaration} (names : d.Names N) :
    WorldM.Declares N M w d.apply fun _ _ => True := by
  cases d with
  | cls name c =>
    have run : ((Declaration.cls name c).apply.run w).2 =
        { w with types := (Operation.declareClass c name).apply w.types } := by
      change (((WorldM.ofType (w.types.declareClass c name).1).andThen fun _ => pure ()).run
        { w with types := (w.types.declareClass c name).2 }).2 = _
      cases (w.types.declareClass c name).1 <;> rfl
    have leads := Registry.LeadsTo.step declared.traced (.declareClass c name) names (List.forall_mem_nil _)
    exact ⟨run ▸ declared.leads leads rfl, run ▸ leads.length, fun _ => trivial⟩
  | interface name =>
    unfold Declaration.apply
    refine .declare declared (.declareInterface name) names (List.forall_mem_nil _) fun r made => ?_
    change _ = Operation.apply.after _ _ _
    cases result : w.types.declareInterface name with
    | error e =>
      rw [result] at made
      cases made
    | ok p =>
      rw [result] at made
      cases made
      rfl
  | implements ty super =>
    refine (WorldM.Declares.typeRef declared ty).bind fun v child declared _ inside => ?_
    refine (WorldM.Declares.typeRef declared super).bind fun u parent declared length inside' => ?_
    refine .declare declared (.addParent child parent) trivial ?_
    simpa [Operation.types] using ⟨Nat.lt_of_lt_of_le inside length, inside'⟩
  | field owner name ty slot =>
    refine (WorldM.Declares.typeRef declared owner).bind fun v owner declared _ inside => ?_
    refine (WorldM.Declares.typeRef declared ty).bind fun u ty declared length inside' => ?_
    refine .declare declared (.declareField owner name ty slot) trivial ?_
    simpa [Operation.types] using ⟨Nat.lt_of_lt_of_le inside length, inside'⟩
  | message owner name number =>
    refine (WorldM.Declares.typeRef declared owner).bind fun v owner declared _ inside => ?_
    refine .declare declared (.declareMessage owner name number) trivial ?_
    simpa [Operation.types] using inside
  | script owner name number =>
    refine (WorldM.Declares.typeRef declared owner).bind fun v owner declared _ inside => ?_
    refine .declare declared (.declareScript owner name number) trivial ?_
    simpa [Operation.types] using inside
  | const name value =>
    refine (constantOf_declares declared name value).bind fun v c declared _ inside => ?_
    refine .declare declared (.declareConstant name c) trivial ?_
    simpa [Operation.types] using inside
  | typedef name ty =>
    refine (WorldM.Declares.typeRef declared ty).bind fun v ty declared _ inside => ?_
    refine .declare declared (.declareTypedef name ty) trivial ?_
    simpa [Operation.types] using inside

end Declaration

namespace MacroDef
variable {w : World}

theorem resolveParams_declares (declared : w.Declared N M) (params : List ParamDef) :
    WorldM.Declares N M w (resolveParams params) fun r ps =>
      ps.map (·.name) = params.map (·.name) ∧ ∀ p ∈ ps, p.ty < r.entries.length := by
  induction params generalizing w with
  | nil => exact .pure declared ⟨rfl, List.forall_mem_nil _⟩
  | cons p rest ih =>
    refine (WorldM.Declares.typeRef declared p.ty).bind fun v ty declared _ inside => ?_
    refine (ih declared).bind fun u ps declared length ⟨names, others⟩ => .pure declared ⟨?_, ?_⟩
    · rw [List.map_cons, List.map_cons, names]
    · exact List.forall_mem_cons.mpr ⟨Nat.lt_of_lt_of_le inside length, others⟩

theorem declare_declares (declared : w.Declared N M) {d : MacroDef} (known : ∀ params : List MacroParam,
      params.map (·.name) = d.params.map (·.name) → M ⟨d.name, params, d.body, d.pos⟩) :
    WorldM.Declares N M w d.declare fun _ _ => True := by
  refine (resolveParams_declares declared d.params).bind fun v params declared _ ⟨names, inside⟩ => ?_
  let m : Macro := ⟨d.name, params, d.body, d.pos⟩
  have run : (do WorldM.setMacros (← WorldM.ofExcept ((← WorldM.current).addMacro m))).run v =
      match v.addMacro m with
      | .ok macros => (.ok (), { v with macros })
      | .error c => (.error (.of c), v) := by
    change ((WorldM.ofExcept (v.addMacro m)).andThen WorldM.setMacros).run v = _
    cases v.addMacro m <;> rfl
  cases added : v.addMacro m with
  | error c =>
    rw [added] at run
    exact ⟨run ▸ declared, by rw [run], fun _ => trivial⟩
  | ok macros =>
    rw [added] at run
    refine ⟨run ▸ ⟨declared.traced, ?_, ?_, declared.deferred⟩, by rw [run], fun _ => trivial⟩ <;>
      unfold World.addMacro at added <;> split at added <;> cases added
    · exact List.forall_mem_cons.mpr ⟨known params names, declared.macros⟩
    · exact List.forall_mem_cons.mpr ⟨inside, declared.params⟩

end MacroDef

theorem World.initial_declared : World.initial.Declared N M :=
  ⟨.initial, List.forall_mem_nil _, List.forall_mem_nil _, rfl⟩

theorem Document.declared_declared {d : Document} (names : ∀ decl ∈ d.declarations, decl.Names N)
    (known : ∀ m ∈ d.macros, ∀ params : List MacroParam, params.map (·.name) = m.params.map (·.name) →
      M ⟨m.name, params, m.body, m.pos⟩) : d.declared.Declared N M := by
  refine attemptAll_keeps (fun x member w declared => ?_) World.initial_declared
  rcases List.mem_append.mp member with isDeclaration | isMacro
  · obtain ⟨decl, among, rfl⟩ := List.mem_map.mp isDeclaration
    exact (Declaration.apply_declares declared (names decl among)).declared
  · obtain ⟨m, among, rfl⟩ := List.mem_map.mp isMacro
    exact ((MacroDef.declare_declares declared (known m among)).located m.pos).declared

theorem Document.declared_known (d : Document) : d.declared.Declared (fun _ => True) fun _ => True :=
  declared_declared (fun decl _ => decl.names_any) fun _ _ _ _ => trivial

end AgentScript
