import AgentScript.Proofs.Types.Effective

/-! Whatever a registry mentions is one of its own types and interfaces, and no two classes have one
classifier. -/
namespace AgentScript.Registry
variable {r r' : Registry} {N : String → Prop}

def Distinct (r : Registry) : Prop :=
  ∀ t u c, r.classifierOf t = some c → r.classifierOf u = some c → t = u

theorem Distinct.push (distinct : r.Distinct) {kind : Kind} {major : Major}
    (new : ∀ c, kind.classifier? = some c → r.findClass? c = none) :
    (r.push kind major).2.Distinct := by
  intro t u c isClass isClass'
  rw [classifierOf_push] at isClass isClass'
  split at isClass <;> split at isClass'
  · next last last' => rw [last, last']
  · exact absurd isClass' (findClass?_eq_none.mp (new c isClass) u)
  · exact absurd isClass (findClass?_eq_none.mp (new c isClass') t)
  · exact distinct t u c isClass isClass'

/-- What a registry mentions is there, and no two of its types have one classifier. -/
structure Filled (r : Registry) : Prop where
  distinct : r.Distinct
  own : ∀ t i, (r.kind? t).bind Kind.own? = some i → i < r.interfaces.length
  fields : ∀ f ∈ r.interfaces, ∀ x ∈ f.fields, x.ty < r.entries.length
  constants : ∀ p ∈ r.constants, p.2.ty < r.entries.length

namespace Filled

/-- Names, parents and effective interfaces do not count. -/
theorem same (filled : r.Filled) (classes : ∀ t, r'.classifierOf t = r.classifierOf t)
    (own : ∀ t, (r'.kind? t).bind Kind.own? = (r.kind? t).bind Kind.own?)
    (length : r'.entries.length = r.entries.length)
    (interfaces : r'.interfaces.map (·.fields) = r.interfaces.map (·.fields))
    (constants : r'.constants = r.constants) : r'.Filled where
  distinct t u c isClass isClass' := by
    rw [classes] at isClass isClass'
    exact filled.distinct t u c isClass isClass'
  own t i owns := by
    rw [own] at owns
    have count : r'.interfaces.length = r.interfaces.length := by simpa using congrArg List.length interfaces
    exact count ▸ filled.own t i owns
  fields f isInterface x isField := by
    have old : f.fields ∈ r.interfaces.map (·.fields) := interfaces ▸ List.mem_map_of_mem isInterface
    obtain ⟨g, isOld, same⟩ := List.mem_map.mp old
    exact length ▸ filled.fields g isOld x (same ▸ isField)
  constants p member := by
    rw [constants] at member
    exact length ▸ filled.constants p member

theorem push (filled : r.Filled) {kind : Kind} {major : Major}
    (new : ∀ c, kind.classifier? = some c → r.findClass? c = none)
    (owned : ∀ i, kind.own? = some i → i < r.interfaces.length) : (r.push kind major).2.Filled where
  distinct := filled.distinct.push new
  own t i owns := by
    rw [kind?_push] at owns
    split at owns
    · exact owned i owns
    · exact filled.own t i owns
  fields f isInterface x isField := by
    rw [length_push]
    exact Nat.lt_succ_of_lt (filled.fields f isInterface x isField)
  constants p member := by
    rw [length_push]
    exact Nat.lt_succ_of_lt (filled.constants p member)

theorem pushInterface (filled : r.Filled) (name : String) : (r.pushInterface name).2.Filled where
  distinct := filled.distinct
  own t i owns := by
    have before := filled.own t i owns
    simp only [Registry.pushInterface, List.length_append]
    exact Nat.lt_of_lt_of_le before (Nat.le_add_right _ _)
  fields f isInterface x isField := by
    rcases List.mem_append.mp isInterface with old | new
    · exact filled.fields f old x isField
    · cases List.mem_singleton.mp new
      cases isField
  constants := filled.constants

/-- A type may change as long as it keeps its classifier and its interface. -/
theorem modify (filled : r.Filled) (t : TypeId) {f : Kind → Kind}
    (classes : ∀ k, (f k).classifier? = k.classifier?) (own : ∀ k, (f k).own? = k.own?)
    (entries : r'.entries = r.entries.modify t fun e => { e with kind := f e.kind })
    (interfaces : r'.interfaces.map (·.fields) = r.interfaces.map (·.fields))
    (constants : r'.constants = r.constants) : r'.Filled := by
  have kept {α : Type} {g : Kind → Option α} (kept : ∀ k, g (f k) = g k) (u : TypeId) :
      (r'.kind? u).bind g = (r.kind? u).bind g := by
    simp only [kind?, entries, List.getElem?_modify]
    cases r.entries[u]? with
    | none => simp
    | some e => by_cases here : t = u <;> simp [here, kept]
  exact filled.same (kept classes) (kept own) (by rw [entries, List.length_modify]) interfaces constants

theorem rename (filled : r.Filled) (t : TypeId) (name : String) : (r.rename t name).Filled := by
  refine filled.modify t (f := Kind.rename name) (fun k => by cases k <;> rfl) (fun k => by cases k <;> rfl)
    rfl ?_ rfl
  simp only [Registry.rename]
  split
  · apply List.ext_getElem?
    intro i
    simp only [List.getElem?_map, List.getElem?_modify]
    split <;> cases r.interfaces[i]? <;> rfl
  · rfl

theorem link (filled : r.Filled) (child parent : TypeId) : (r.link child parent).Filled :=
  filled.modify child (f := Kind.addParent parent) (fun k => by cases k <;> rfl)
    (fun k => by cases k <;> rfl) rfl rfl rfl

end Filled

theorem kept_filled : Kept N Filled where
  adds {r _} _ _ filled adds := by
    cases adds with
    | type makes => exact filled.push (fun c isClass => (makes.cls c isClass).1) makes.owns
    | interface name => exact filled.pushInterface name
    | bind => exact filled.same (fun _ => rfl) (fun _ => rfl) rfl rfl rfl
    | rename t => exact filled.rename t _
    | @member i f g found _ inside =>
      refine ⟨filled.distinct, fun t j owns => ?_, fun g' member x isField => ?_, filled.constants⟩
      · rw [List.length_set]
        exact filled.own t j owns
      · rcases List.mem_or_eq_of_mem_set member with old | rfl
        · exact filled.fields g' old x isField
        · rcases inside x isField with old | new
          · exact filled.fields f (List.mem_of_getElem? found) x old
          · exact new
    | constant name inside =>
      exact ⟨filled.distinct, filled.own, filled.fields, List.forall_mem_cons.mpr ⟨inside, filled.constants⟩⟩
  link {r child parent} _ _ filled _ := by
    have same := SameBesideEffective.refreshWithin (r.link child parent).entries.length (r.link child parent) child
    refine (filled.link child parent).same (fun t => ?_) (fun t => ?_) same.length ?_ same.constants
    · exact congrArg (·.bind Kind.classifier?) (same.kind? t)
    · exact congrArg (·.bind Kind.own?) (same.kind? t)
    · exact congrArg (List.map (·.fields)) same.interfaces

theorem initial_filled : initial.Filled := by
  have classes : ∀ t < initial.entries.length, initial.classifierOf t ≠ none → t = agent := by decide
  have owners : ∀ t < initial.entries.length,
      ((initial.kind? t).bind Kind.own?).all (· < initial.interfaces.length) = true := by decide
  refine ⟨fun t u c isClass isClass' => ?_, fun t i owns => ?_, by decide, by decide⟩
  · rw [classes t (classifierOf_inside isClass) (by simp [isClass]),
      classes u (classifierOf_inside isClass') (by simp [isClass'])]
  · have inside : t < initial.entries.length := by
      apply Nat.lt_of_not_le
      intro outside
      simp [kind?, List.getElem?_eq_none outside] at owns
    simpa [owns] using owners t inside

namespace Reachable

theorem filled (reachable : Reachable r) : r.Filled := reachable.keeps kept_filled initial_filled

theorem length (reachable : Reachable r) : Registry.initial.entries.length ≤ r.entries.length :=
  reachable.keeps (kept_length _) (Nat.le_refl _)

theorem effective_inside (reachable : Reachable r) (t : TypeId) :
    ∀ i ∈ r.effective t, i < r.interfaces.length := by
  have owned := reachable.filled.own
  by_cases inside : t < r.entries.length
  · have scratch := scratch_effective reachable.current reachable.ordered inside
    generalize r.effective t = list at scratch
    induction scratch with
    | @single t kind lists found _ _ ih =>
      intro i member
      rw [List.mem_eraseDups, List.mem_append, List.mem_flatMap] at member
      rcases member with isOwn | ⟨p, isParent, isSeen⟩
      · exact owned t i (by simpa [found] using isOwn)
      · exact ih p isParent (reachable.ordered.inside t p (by
          simp [supers, found, Kind.supers, isParent])) i isSeen
    | @union t first rest lists isUnion _ ih =>
      intro i member
      have isSuper := mem_supers_of_member isUnion List.mem_cons_self
      exact ih first List.mem_cons_self (reachable.ordered.inside t first isSuper) i
        (List.mem_filter.mp member).1
  · simp [effective, List.getElem?_eq_none (Nat.le_of_not_lt inside)]

end Reachable

end AgentScript.Registry
