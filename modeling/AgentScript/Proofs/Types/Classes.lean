import AgentScript.Proofs.Types.Filled
import AgentScript.Proofs.Types.Inheritance

/-! Classes of agents and their classifiers. A class lies under the class of the next more general
classifier, which is its first parent for good, so that the members of more general classes are found
on it before those of the interfaces that it implements. -/
namespace AgentScript

namespace Classifier

theorem parent?_eq (c : Classifier) : c.parent? = c.above.head? := by
  unfold parent? above
  by_cases species : c.species = 0 <;> by_cases genus : c.genus = 0 <;> by_cases family : c.family = 0 <;>
    simp [species, genus, family]

theorem ancestors_of_root {c : Classifier} (top : c.parent? = none) : c.ancestors = [c] := by
  rw [parent?_eq, List.head?_eq_none_iff] at top
  rw [ancestors, top]

theorem ancestors_of_parent {c p : Classifier} (isParent : c.parent? = some p) :
    c.ancestors = c :: p.ancestors := by
  rw [parent?_eq] at isParent
  obtain ⟨rest, known⟩ := List.head?_eq_some_iff.mp isParent
  rw [ancestors, ancestors, known, above_tail known]

theorem induction {P : Classifier → Prop} (root : ∀ c, c.parent? = none → P c)
    (under : ∀ c p, c.parent? = some p → P p → P c) (c : Classifier) : P c := by
  induction known : c.above generalizing c with
  | nil => exact root c (by rw [parent?_eq, known, List.head?_nil])
  | cons p rest ih => exact under c p (by rw [parent?_eq, known, List.head?_cons]) (ih p (above_tail known))

end Classifier

/-- An interface has the members of another one, and may have more behind them. -/
structure Interface.Within (i j : Interface) : Prop where
  fields : i.fields <+: j.fields := by exact List.prefix_rfl
  messages : i.messages <+: j.messages := by exact List.prefix_rfl
  scripts : i.scripts <+: j.scripts := by exact List.prefix_rfl

namespace Interface
variable {i j : Interface}

theorem Adds.within (adds : i.Adds j) : i.Within j := by
  cases adds with
  | field => exact { fields := List.prefix_append .. }
  | message => exact { messages := List.prefix_append .. }
  | script => exact { scripts := List.prefix_append .. }

def Lasting (look : Interface → Option α) : Prop :=
  ∀ {i j : Interface} {a}, i.Within j → look i = some a → look j = some a

theorem lasting_numberOf {table : Interface → List (String × UInt16)} {name : String}
    (grows : ∀ {i j}, i.Within j → table i <+: table j) : Lasting fun i => numberOf (table i) name := by
  intro i j number within found
  obtain ⟨entry, isEntry, rfl⟩ := Option.map_eq_some_iff.mp found
  exact Option.map_eq_some_iff.mpr ⟨entry, (grows within).find?_eq_some isEntry, rfl⟩

theorem numberOf_added {table : List (String × UInt16)} {name : String} {number : UInt16}
    (free : taken table name number = false) : numberOf (table ++ [(name, number)]) name = some number := by
  have new : table.find? (fun entry => entry.1 == name) = none := by
    refine List.find?_eq_none.mpr fun entry member same => ?_
    have other := List.any_eq_false.mp free entry member
    simp [eq_of_beq same] at other
  simp [numberOf, List.find?_append, new]

end Interface

namespace Registry
variable {r r' : Registry} {N : String → Prop} {look : Interface → Option α}

def answer (r : Registry) (t : TypeId) (look : Interface → Option α) : Option α :=
  ((r.kind? t).bind Kind.own?).bind fun i => r.interfaces[i]?.bind look

/-- The answer of the nearest class, of that of a classifier and of those above it. -/
def nearest (r : Registry) (c : Classifier) (look : Interface → Option α) : Option α :=
  c.ancestors.findSome? fun b => (r.findClass? b).bind (r.answer · look)

/-! ### What stays -/

theorem Adds.interfaces (adds : r.Adds N r') {i : InterfaceId} {f : Interface}
    (found : r.interfaces[i]? = some f) : ∃ g, r'.interfaces[i]? = some g ∧ f.Within g := by
  cases adds with
  | type | bind | constant => exact ⟨f, found, {}⟩
  | interface =>
    exact ⟨f, (List.getElem?_append_left (List.getElem?_eq_some_iff.mp found).1).trans found, {}⟩
  | @rename t name =>
    obtain ⟨title, same⟩ := rename_interfaces r t name i
    exact ⟨_, same.trans (congrArg _ found), {}⟩
  | @member j h g isOld adds =>
    rw [List.getElem?_set]
    split
    · next same =>
      subst same
      obtain rfl : h = f := Option.some.inj (isOld.symm.trans found)
      exact ⟨g, if_pos (List.getElem?_eq_some_iff.mp found).1, adds.within⟩
    · exact ⟨f, found, {}⟩

/-- A type keeps the interface that it owns, and what this answers. -/
theorem kept_answer (lasting : Interface.Lasting look) (t : TypeId) : Kept N fun r => r.answer t look = some v := by
  have owner (i : InterfaceId) : Kept N fun r => ∃ k, r.kind? t = some k ∧ k.own? = some i :=
    kept_kind (fun _ k => by cases k <;> exact id) (fun _ k => by cases k <;> exact id) t
  simp only [answer, Option.bind_eq_some_iff]
  constructor
  · rintro r r' sound ordered ⟨i, owns, f, found, answers⟩ adds
    obtain ⟨g, found', within⟩ := adds.interfaces found
    exact ⟨i, (owner i).adds sound ordered owns adds, g, found', lasting within answers⟩
  · rintro r child parent sound ordered ⟨i, owns, f, found, answers⟩ linkable
    refine ⟨i, (owner i).link sound ordered owns linkable, f, ?_, answers⟩
    rwa [refresh, (SameBesideEffective.refreshWithin _ _ child).interfaces]

theorem kept_class (t : TypeId) (o : Option Classifier) :
    Kept N fun r => ∃ k, r.kind? t = some k ∧ k.classifier? = o :=
  kept_kind (fun _ k => by cases k <;> exact id) (fun _ k => by cases k <;> exact id) t

theorem Reachable.run_keeps {P : Registry → Prop} (kept : Kept (fun _ => True) P) (reachable : Reachable r)
    {ops : List Operation} (runs : r.Runs ops) (holds : P r) : P (r.run ops) := by
  induction ops generalizing r with
  | nil => exact holds
  | cons op rest ih =>
    exact ih (reachable.step op runs.1) runs.2 (reachable.step_keeps kept op runs.1 holds)

/-! ### Chains of classes -/

theorem Distinct.findClass?_iff (distinct : r.Distinct) : r.findClass? c = some t ↔ r.classifierOf t = some c := by
  constructor
  · exact findClass?_eq_some
  · intro isClass
    cases found : r.findClass? c with
    | none => exact absurd isClass (findClass?_eq_none.mp found t)
    | some u => rw [distinct t u c isClass (findClass?_eq_some found)]

/-- A change makes a class right under that of the next more general classifier, and moves none. -/
theorem Adds.class_parents (adds : r.Adds N r') (sound : r.Sound) (ordered : r.Ordered)
    (isClass : r'.classifierOf t = some c) :
    (r.classifierOf t = some c ∧ (r'.parents t).map r'.classifierOf = (r.parents t).map r.classifierOf) ∨
      (r'.parents t).map r'.classifierOf = c.parent?.toList.map some := by
  have stays {u : TypeId} (inside : u < r.entries.length) : r'.classifierOf u = r.classifierOf u := by
    have found : r.kind? u = some r.entries[u].kind := by simp [kind?, inside]
    obtain ⟨k, found', same⟩ := (kept_class u _).adds sound ordered ⟨_, found, rfl⟩ adds
    rw [classifierOf, found', classifierOf, found]
    exact same
  by_cases old : t < r.entries.length
  · refine .inl ⟨(stays old).symm.trans isClass, ?_⟩
    rw [adds.grows.parents old]
    apply List.map_congr_left
    intro p isParent
    exact stays (ordered.inside t p (mem_supers_of_parent isParent))
  · right
    have new := classifierOf_inside isClass
    cases adds with
    | @type kind major makes =>
      rw [length_push] at new
      obtain rfl : t = r.entries.length := Nat.le_antisymm (Nat.lt_succ_iff.mp new) (Nat.not_lt.mp old)
      rw [classifierOf_push, if_pos rfl] at isClass
      rw [parents_push, if_pos rfl, Classifier.parent?_eq, ← (makes.cls c isClass).2]
      apply List.map_congr_left
      intro p isParent
      exact stays (makes.inside p (List.mem_append_left _ isParent))
    | rename => exact absurd (by simpa [Registry.rename] using new) old
    | interface | bind | member | constant => exact absurd new old

/-- The first parent of a class is the class of the next more general classifier. -/
def Chained (r : Registry) : Prop :=
  ∀ t c, r.classifierOf t = some c → c.parent?.toList.map some <+: (r.parents t).map r.classifierOf

theorem kept_chained : Kept N Chained where
  adds sound ordered chained adds t c isClass := by
    rcases adds.class_parents sound ordered isClass with ⟨old, same⟩ | same
    · rw [same]
      exact chained t c old
    · rw [same]
  link {r child parent} _ _ chained linkable t c isClass := by
    have same := SameBesideEffective.refreshWithin (r.link child parent).entries.length (r.link child parent) child
    have classes (u : TypeId) : (refresh (r.link child parent) child).classifierOf u = r.classifierOf u := by
      rw [classifierOf, refresh, same.kind?, kind?_link, classifierOf]
      rcases r.kind? u with _ | k
      · rfl
      · by_cases here : child = u <;> cases k <;> simp [here, Kind.addParent, Kind.classifier?]
    rw [classes] at isClass
    rw [funext classes, refresh, parents_congr same.shapes, parents_link linkable.agentChild]
    split
    · rw [List.map_append]
      exact (chained t c isClass).trans (List.prefix_append ..)
    · exact chained t c isClass

/-- A class has no other parent than its first. -/
def Unlinked (r : Registry) : Prop :=
  ∀ t c, r.classifierOf t = some c → (r.parents t).map r.classifierOf = c.parent?.toList.map some

theorem initial_unlinked : initial.Unlinked := by
  intro t c isClass
  have only : ∀ t < initial.entries.length, ∀ c ∈ initial.classifierOf t,
      c.parent? = none ∧ initial.parents t = [] := by decide
  obtain ⟨top, none⟩ := only t (classifierOf_inside isClass) c isClass
  rw [top, none]
  rfl

theorem Reachable.chained (reachable : Reachable r) : r.Chained :=
  reachable.keeps kept_chained fun t c isClass => by rw [initial_unlinked t c isClass]

theorem ReachableBy.unlinked
    (reachable : ReachableBy (fun op => ∀ child parent, op ≠ .addParent child parent) r) : r.Unlinked := by
  induction reachable with
  | initial => exact initial_unlinked
  | step before op other inside ih =>
    have known := before.reachable
    rcases op.apply_cases .any op.names_any known.sound known.ordered inside with builds | ⟨child, parent, isLink, _⟩
    · refine builds.keeps (P := Unlinked) (fun sound ordered holds adds t c isClass => ?_) known.sound known.ordered ih
      rcases adds.class_parents sound ordered isClass with ⟨old, same⟩ | same
      · exact same.trans (holds t c old)
      · exact same
    · exact absurd isLink (other child parent)

section
variable (chained : r.Chained)
include chained

theorem Chained.next (isClass : r.classifierOf t = some c) (isParent : c.parent? = some p) :
    ∃ s rest, r.parents t = s :: rest ∧ r.classifierOf s = some p := by
  have first := chained t c isClass
  rw [isParent] at first
  cases known : r.parents t with
  | nil => simp [known] at first
  | cons s rest => exact ⟨s, rest, rfl, by simpa [known, eq_comm] using first⟩

theorem Chained.ancestor (isClass : r.classifierOf t = some c) (isAncestor : a ∈ c.ancestors) :
    ∃ s, r.classifierOf s = some a ∧ Relation.ReflTransGen (fun t p => p ∈ r.parents t) t s := by
  induction c using Classifier.induction generalizing t with
  | root c top =>
    rw [Classifier.ancestors_of_root top, List.mem_singleton] at isAncestor
    exact ⟨t, isAncestor ▸ isClass, .refl⟩
  | under c p isParent ih =>
    rw [Classifier.ancestors_of_parent isParent] at isAncestor
    rcases List.mem_cons.mp isAncestor with rfl | above
    · exact ⟨t, isClass, .refl⟩
    · obtain ⟨s, _, first, isClass'⟩ := chained.next isClass isParent
      obtain ⟨u, found, path⟩ := ih isClass' above
      exact ⟨u, found, .head (first ▸ List.mem_cons_self) path⟩

end

theorem Unlinked.mem_ancestors (unlinked : r.Unlinked) (isClass' : r.classifierOf t' = some c')
    (path : Relation.ReflTransGen (fun t p => p ∈ r.parents t) t t') (isClass : r.classifierOf t = some c) :
    c' ∈ c.ancestors := by
  induction path using Relation.ReflTransGen.head_induction_on generalizing c with
  | refl =>
    cases isClass.symm.trans isClass'
    exact List.mem_cons_self
  | head isParent _ ih =>
    have member := List.mem_map_of_mem (f := r.classifierOf) isParent
    rw [unlinked _ c isClass] at member
    obtain ⟨p, isAbove, isClass''⟩ := List.mem_map.mp member
    rw [Classifier.ancestors_of_parent (Option.mem_toList.mp isAbove)]
    exact List.mem_cons_of_mem _ (ih isClass''.symm)

/-! ### Members of more general classes -/

theorem findSome?_foldl_addNew {f : InterfaceId → Option α} (list more : List InterfaceId) :
    (more.foldl addNew list).findSome? f = (list ++ more).findSome? f := by
  induction more generalizing list with
  | nil => simp
  | cons i more ih =>
    rw [List.foldl_cons, ih]
    by_cases old : i ∈ list
    · cases found : list.findSome? f with
      | none => simp [addNew, old, found, List.findSome?_eq_none_iff.mp found i old]
      | some a => simp [addNew, old, found]
    · simp [addNew, old]

theorem visible_findSome? (t : TypeId) :
    (r.visible t).findSome? look = (r.effective t).findSome? fun i => r.interfaces[i]?.bind look := by
  rw [visible, ← List.head?_filterMap, List.filterMap_filterMap, List.head?_filterMap]

/-- The members of an agent type are its own and then those of its parents. -/
theorem Fresh.lookup (fresh : r.Fresh t) (isAgent : r.isAgent t = true) : (r.visible t).findSome? look =
    (r.answer t look).or ((r.parents t).findSome? fun p => (r.visible p).findSome? look) := by
  cases found : r.kind? t with
  | none => simp [Registry.isAgent, found] at isAgent
  | some k =>
    have single : ∀ members, k ≠ .union members := by
      rintro members rfl
      simp [Registry.isAgent, found, Kind.isAgent] at isAgent
    have own : k.own?.toList.findSome? (fun i => r.interfaces[i]?.bind look) = r.answer t look := by
      rw [answer, found, Option.bind_some]
      cases k.own? <;> simp
    simp only [visible_findSome?]
    rw [show r.effective t = r.effectiveOf k by rw [fresh, found, Option.elim_some], effectiveOf_fold single,
      findSome?_foldl_addNew, List.findSome?_append, own, ← List.head?_filterMap, List.filterMap_flatMap,
      List.head?_flatMap]
    simp only [List.head?_filterMap, parents, found, Option.elim_some]

theorem Chained.lookup (chained : r.Chained) (current : r.Current) (distinct : r.Distinct)
    (isClass : r.classifierOf t = some c) (found : r.nearest c look = some v) :
    (r.visible t).findSome? look = some v := by
  induction c using Classifier.induction generalizing t with
  | root c top =>
    rw [nearest, Classifier.ancestors_of_root top, List.findSome?_singleton, distinct.findClass?_iff.mpr isClass,
      Option.bind_some] at found
    rw [(current.fresh t).lookup (isAgent_of_class isClass), found, Option.some_or]
  | under c p isParent ih =>
    obtain ⟨s, others, parents, isClass'⟩ := chained.next isClass isParent
    rw [nearest, Classifier.ancestors_of_parent isParent, List.findSome?_cons, distinct.findClass?_iff.mpr isClass,
      Option.bind_some] at found
    rw [(current.fresh t).lookup (isAgent_of_class isClass), parents, List.findSome?_cons]
    cases own : r.answer t look with
    | some w =>
      rw [own] at found
      exact found
    | none =>
      rw [own] at found
      rw [ih isClass' found, Option.none_or]

/-- What a declaration adds is the answer of its owner. -/
theorem updateOwn_answer {owner : TypeId} {change : Interface → Except TypeError Interface}
    (updated : r.updateOwn owner change = .ok r') (answers : ∀ f g, change f = .ok g → look g = some v) :
    r'.answer owner look = some v := by
  obtain ⟨i, f, g, owns, found, changed, rfl⟩ := updateOwn_cases updated
  change (((r.kind? owner).bind Kind.own?).bind fun j => (r.interfaces.set i g)[j]?.bind look) = some v
  rw [owns, Option.bind_some, List.getElem?_set_self (List.getElem?_eq_some_iff.mp found).1]
  exact answers f g changed

theorem Reachable.declares (reachable : Reachable r) (lasting : Interface.Lasting look) {op : Operation}
    (same : op.apply r = r') (answers : r'.answer s look = some v) {ops : List Operation}
    (runs : r.Runs (op :: ops)) : (r'.run ops).answer s look = some v := by
  subst same
  exact (reachable.step op runs.1).run_keeps (kept_answer lasting s) runs.2 answers

/-! ### Classes and classifiers -/

theorem byClassifier_of_found (found : r.findClass? c = some t) : r.byClassifier c = (t, r) := by
  unfold byClassifier
  cases c.above <;> simp [classUnder, found]

/-- Classes mirror classifiers. A classifier has one class for good, and no two have the same. With a class
come those of the more general classifiers, each the first parent of the next; it casts to them and, as
long as no type gets a new parent, to no other class. Of a class and of those above it the nearest that
declares a member has it found on the class, and what a type declares it does so for good. -/
theorem classes_mirror (reachable : Reachable r) :
    (∀ c ops, (r.byClassifier c).2.Runs ops → ((r.byClassifier c).2.run ops).byClassifier c =
      ((r.byClassifier c).1, (r.byClassifier c).2.run ops)) ∧
    (∀ c c' t, r.findClass? c = some t → r.findClass? c' = some t → c = c') ∧
    (∀ c t, r.findClass? c = some t → ∀ a ∈ c.ancestors, ∃ s, r.findClass? a = some s ∧
      ∀ p, a.parent? = some p → ∃ u, r.findClass? p = some u ∧ (r.parents s).head? = some u) ∧
    (∀ c c' t t', r.findClass? c = some t → r.findClass? c' = some t' →
      (c' ∈ c.ancestors → r.canCast t t' = true) ∧
      (ReachableBy (fun op => ∀ child parent, op ≠ .addParent child parent) r →
        r.canCast t t' = true → c' ∈ c.ancestors)) ∧
    (∀ c t, r.findClass? c = some t →
      (∀ name f, r.nearest c (·.field? name) = some f → r.field? t name = some f) ∧
      (∀ name n, r.nearest c (Interface.numberOf ·.messages name) = some n → r.messageNumber? t name = some n) ∧
      ∀ name n, r.nearest c (Interface.numberOf ·.scripts name) = some n → r.scriptNumber? t name = some n) ∧
    ∀ s r' ops,
      (∀ name ty slot, r.declareField s name ty slot = .ok r' → r.Runs (.declareField s name ty slot :: ops) →
        (r'.run ops).answer s (·.field? name) = some ⟨name, ty, slot⟩) ∧
      (∀ name n, r.declareMessage s name n = .ok r' → r.Runs (.declareMessage s name n :: ops) →
        (r'.run ops).answer s (Interface.numberOf ·.messages name) = some n) ∧
      ∀ name n, r.declareScript s name n = .ok r' → r.Runs (.declareScript s name n :: ops) →
        (r'.run ops).answer s (Interface.numberOf ·.scripts name) = some n := by
  have distinct := reachable.filled.distinct
  have chained := reachable.chained
  have ordered := reachable.ordered
  have casts {c c' : Classifier} {t t' : TypeId} (isClass : r.classifierOf t = some c)
      (isClass' : r.classifierOf t' = some c') := ordered.canCast_iff.trans
    (ordered.casts_agent_iff reachable.sound (isAgent_of_class isClass) (isAgent_of_class isClass'))
  simp only [distinct.findClass?_iff]
  refine ⟨fun c ops runs => ?_, fun c c' t isClass isClass' => ?_, fun c t isClass a isAncestor => ?_,
    fun c c' t t' isClass isClass' => ⟨fun isAncestor => ?_, fun traced cast => ?_⟩,
    fun c t isClass => ⟨fun name f found => ?_, fun name n found => ?_, fun name n found => ?_⟩,
    fun s r' ops => ⟨fun name ty slot declared => ?_, fun name n declared => ?_, fun name n declared => ?_⟩⟩
  · have made : Reachable (r.byClassifier c).2 := reachable.step (.byClassifier c) (List.forall_mem_nil _)
    have isClass := Option.bind_eq_some_iff.mp (classUnder_builds .any r c).2
    have stays := Option.bind_eq_some_iff.mpr (made.run_keeps (kept_class _ _) runs isClass)
    exact byClassifier_of_found ((made.run runs).filled.distinct.findClass?_iff.mpr stays)
  · exact Option.some.inj (isClass.symm.trans isClass')
  · obtain ⟨s, found, _⟩ := chained.ancestor isClass isAncestor
    refine ⟨s, found, fun p isParent => ?_⟩
    obtain ⟨u, rest, first, isClass'⟩ := chained.next found isParent
    exact ⟨u, isClass', by rw [first, List.head?_cons]⟩
  · obtain ⟨s, found, path⟩ := chained.ancestor isClass isAncestor
    obtain rfl := distinct s t' c' found isClass'
    exact (casts isClass isClass').mpr path
  · exact traced.unlinked.mem_ancestors isClass' ((casts isClass isClass').mp cast) isClass
  · exact chained.lookup reachable.current distinct isClass found
  · exact chained.lookup reachable.current distinct isClass found
  · exact chained.lookup reachable.current distinct isClass found
  · refine reachable.declares (fun within found => within.fields.find?_eq_some found)
      (by rw [Operation.apply, declared]; rfl) ?_
    unfold declareField at declared
    split at declared
    · cases declared
    refine updateOwn_answer declared fun f g changed => ?_
    unfold Interface.declareField at changed
    repeat' split at changed
    · cases changed
    · cases changed
    · next named _ _ =>
      cases changed
      unfold Interface.field? at named
      simp [List.find?_append, named]
  · refine reachable.declares (Interface.lasting_numberOf (·.messages)) (by rw [Operation.apply, declared]; rfl) ?_
    refine updateOwn_answer declared fun f g changed => ?_
    unfold Interface.declareMessage at changed
    split at changed
    · cases changed
    · next free =>
      cases changed
      exact Interface.numberOf_added (Bool.not_eq_true _ ▸ free)
  · refine reachable.declares (Interface.lasting_numberOf (·.scripts)) (by rw [Operation.apply, declared]; rfl) ?_
    refine updateOwn_answer declared fun f g changed => ?_
    unfold Interface.declareScript at changed
    split at changed
    · cases changed
    · next free =>
      cases changed
      exact Interface.numberOf_added (Bool.not_eq_true _ ▸ free)

/-- A field of a class is found on one that was made before it. -/
theorem classes_mirror_field :
    let r := initial.run [.byClassifier ⟨4, 1, 0⟩, .declareField 11 "age" integer 3]
    r.canCast 12 11 = true ∧ r.field? 12 "age" = some ⟨"age", integer, 3⟩ := by
  intro r
  have reachable : Reachable r := Reachable.initial.run
  obtain ⟨_, _, _, casts, members, _⟩ := classes_mirror reachable
  refine ⟨(casts ⟨4, 1, 0⟩ ⟨4, 0, 0⟩ 12 11 (by decide) (by decide)).1 (by decide), ?_⟩
  exact (members ⟨4, 1, 0⟩ 12 (by decide)).1 "age" _ rfl

end Registry

end AgentScript
