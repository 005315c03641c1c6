import Mathlib.Data.List.Pairwise
import AgentScript.Proofs.Types.Reachable

/-! The variables of an agent that fields are stored in. A variable is taken by one field of an interface
only, but nothing compares the fields of two interfaces, and an agent can have both. -/
namespace AgentScript

/-- No two fields are stored in one variable, and each is stored in one that an agent has. -/
structure Interface.Separate (i : Interface) : Prop where
  slots : i.fields.Pairwise (·.slot ≠ ·.slot)
  range : ∀ x ∈ i.fields, x.slot < fieldSlots

namespace Interface

theorem empty_separate (name : String) : (empty name).Separate := ⟨.nil, List.forall_mem_nil _⟩

theorem Adds.separate {i j : Interface} (adds : i.Adds j) (separate : i.Separate) : j.Separate := by
  cases adds with
  | @field x range _ placed =>
    refine ⟨List.pairwise_append.mpr ⟨separate.slots, List.pairwise_singleton .., ?_⟩, ?_⟩
    · intro y isField z isNew
      cases List.mem_singleton.mp isNew
      simpa using List.find?_eq_none.mp placed y isField
    · exact List.forall_mem_append.mpr ⟨separate.range, List.forall_mem_singleton.mpr range⟩
  | message | script => exact ⟨separate.slots, separate.range⟩

theorem field?_name {i : Interface} {name : String} (found : i.field? name = some f) : f.name = name := by
  simpa using List.find?_some found

end Interface

namespace Registry
variable {r : Registry} {N : String → Prop}

/-- What holds of an interface without members and of one more member holds of all interfaces. -/
theorem kept_interfaces {P : Interface → Prop} (empty : ∀ name, P (.empty name))
    (named : ∀ i name, P i → P { i with name }) (adds : ∀ {i j : Interface}, i.Adds j → P i → P j) :
    Kept N fun r => ∀ i ∈ r.interfaces, P i where
  adds _ _ each change := by
    cases change with
    | type | bind | constant => exact each
    | interface name => exact List.forall_mem_append.mpr ⟨each, List.forall_mem_singleton.mpr (empty name)⟩
    | @rename t name =>
      intro j member
      obtain ⟨i, found⟩ := List.getElem?_of_mem member
      obtain ⟨title, same⟩ := rename_interfaces _ t name i
      rw [same] at found
      obtain ⟨f, here, rfl⟩ := Option.map_eq_some_iff.mp found
      exact named f _ (each f (List.mem_of_getElem? here))
    | @member _ i g found change =>
      intro j member
      rcases List.mem_or_eq_of_mem_set member with old | rfl
      · exact each j old
      · exact adds change (each _ (List.mem_of_getElem? found))
  link {_ child _} _ _ each _ := by
    rw [refresh, (SameBesideEffective.refreshWithin _ _ child).interfaces]
    exact each

theorem Reachable.separate (reachable : Reachable r) : ∀ i ∈ r.interfaces, i.Separate :=
  reachable.keeps (kept_interfaces Interface.empty_separate (fun _ _ old => ⟨old.slots, old.range⟩) Interface.Adds.separate)
    (List.forall_mem_singleton.mpr (Interface.empty_separate "Agent"))

theorem mem_interfaces_of_visible {i : Interface} (isVisible : i ∈ r.visible t) : i ∈ r.interfaces := by
  obtain ⟨id, _, found⟩ := List.mem_filterMap.mp isVisible
  exact List.mem_of_getElem? found

/-- Each field of a type is stored in one of the hundred variables of an agent, and two of them that one
interface declares are not stored in the same. -/
theorem field?_slots (reachable : Reachable r) (t : TypeId) :
    (∀ name f, r.field? t name = some f → f.slot.toNat < 100) ∧
    ∀ first second f g, first ≠ second → r.field? t first = some f → r.field? t second = some g →
      ∀ i ∈ r.visible t, i.field? first = some f → i.field? second = some g → f.slot ≠ g.slot := by
  refine ⟨fun name f found => ?_, fun first second f g apart _ _ i isVisible here there => ?_⟩
  · obtain ⟨i, isVisible, here⟩ := List.exists_of_findSome?_eq_some found
    have separate := reachable.separate i (mem_interfaces_of_visible isVisible)
    exact separate.range f (List.mem_of_find?_eq_some here)
  · have separate := reachable.separate i (mem_interfaces_of_visible isVisible)
    have different : f ≠ g := by
      rintro rfl
      exact apart ((Interface.field?_name here).symm.trans (Interface.field?_name there))
    have : Std.Symm fun x y : Field => x.slot ≠ y.slot := ⟨fun _ _ => Ne.symm⟩
    exact separate.slots.forall (List.mem_of_find?_eq_some here)
      (List.mem_of_find?_eq_some there) different

/-- A class under `Agent`, with two fields of its own and one of every agent. -/
def dogFields : List Operation :=
  [.declareClass ⟨2, 0, 0⟩ "Dog", .declareField agent "age" integer 0, .declareField 11 "legs" integer 0,
    .declareField 11 "tail" integer 1]

theorem field?_slots_dog : ∃ f g, (initial.run dogFields).field? 11 "legs" = some f ∧
    (initial.run dogFields).field? 11 "tail" = some g ∧ f.slot.toNat < 100 ∧ f.slot ≠ g.slot := by
  have reachable : Reachable (initial.run dogFields) := Reachable.initial.run
  obtain ⟨range, apart⟩ := field?_slots reachable 11
  refine ⟨⟨"legs", integer, 0⟩, ⟨"tail", integer, 1⟩, rfl, rfl, range "legs" _ rfl, ?_⟩
  exact apart "legs" "tail" _ _ (by decide) rfl rfl ⟨"Dog", [⟨"legs", integer, 0⟩, ⟨"tail", integer, 1⟩], [], []⟩
    (List.mem_of_getElem? (i := 0) rfl) rfl rfl

/-- A field of every agent and a field of dogs are stored in one variable. -/
theorem field?_slots_shared : Reachable (initial.run dogFields) ∧
    (initial.run dogFields).isAgent 11 = true ∧
    ∃ f g, (initial.run dogFields).field? 11 "age" = some f ∧
      (initial.run dogFields).field? 11 "legs" = some g ∧ f.slot = g.slot :=
  ⟨Reachable.initial.run, rfl, ⟨"age", integer, 0⟩, ⟨"legs", integer, 0⟩, rfl, rfl, rfl⟩

end Registry

end AgentScript
