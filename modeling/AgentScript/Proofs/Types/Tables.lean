import AgentScript.Proofs.Types.Fields
import AgentScript.Proofs.Types.Filled

/-! The tables of interfaces. A name and a number that belong together find each other, and a declaration
is refused only where it would break this. -/
namespace AgentScript

/-- Something fails in some cases, and in all others it has a result. -/
def FailsWhen (P : Prop) (attempt : Except ε α) (result : α) : Prop :=
  (P → ∃ e, attempt = .error e) ∧ (¬ P → attempt = .ok result)

theorem FailsWhen.ite {e : ε} {b : Bool} (iff : b = true ↔ P) :
    FailsWhen P (if b = true then .error e else .ok a) a :=
  ⟨fun holds => ⟨e, if_pos (iff.mpr holds)⟩, fun free => if_neg (mt iff.mp free)⟩

namespace Interface
variable {i j : Interface} {table : List (String × UInt16)} {name : String} {number : UInt16}

/-- Names are used once, and so are numbers. -/
structure Table (table : List (String × UInt16)) : Prop where
  names : table.Pairwise (·.1 ≠ ·.1)
  numbers : table.Pairwise (·.2 ≠ ·.2)

theorem Table.snoc (tabled : Table table) (free : taken table name number = false) :
    Table (table ++ [(name, number)]) := by
  have free : ∀ entry ∈ table, entry.1 ≠ name ∧ entry.2 ≠ number := by simpa [taken] using free
  constructor <;> rw [List.pairwise_append]
  · exact ⟨tabled.names, List.pairwise_singleton .., by simpa using fun _ _ member => (free _ member).1⟩
  · exact ⟨tabled.numbers, List.pairwise_singleton .., by simpa using fun _ _ member => (free _ member).2⟩

/-- What is kept of all members of an interface. -/
structure Tabled (i : Interface) : Prop where
  messages : Table i.messages
  scripts : Table i.scripts
  fields : i.fields.Pairwise (·.name ≠ ·.name)

theorem empty_tabled (name : String) : (empty name).Tabled := ⟨⟨.nil, .nil⟩, ⟨.nil, .nil⟩, .nil⟩

theorem Adds.tabled (adds : i.Adds j) (tabled : i.Tabled) : j.Tabled := by
  cases adds with
  | @field x _ named =>
    have named : ∀ y ∈ i.fields, y.name ≠ x.name := by simpa [field?] using named
    refine { tabled with fields := List.pairwise_append.mpr ⟨tabled.fields, List.pairwise_singleton .., ?_⟩ }
    simpa using named
  | message free => exact { tabled with messages := tabled.messages.snoc free }
  | script free => exact { tabled with scripts := tabled.scripts.snoc free }

end Interface

namespace Registry
variable {r : Registry} {owner : TypeId} {i : InterfaceId} {f : Interface}

theorem Reachable.tabled (reachable : Reachable r) : ∀ i ∈ r.interfaces, i.Tabled :=
  reachable.keeps (kept_interfaces Interface.empty_tabled (fun _ _ old => ⟨old.1, old.2, old.3⟩) Interface.Adds.tabled)
    (List.forall_mem_singleton.mpr (Interface.empty_tabled "Agent"))

theorem Reachable.own (reachable : Reachable r) (isAgent : r.isAgent t = true) :
    ∃ i f, (r.kind? t).bind Kind.own? = some i ∧ r.interfaces[i]? = some f := by
  have owns : ((r.kind? t).bind Kind.own?).isSome = true := by
    unfold Registry.isAgent at isAgent
    cases found : r.kind? t with
    | none => simp [found] at isAgent
    | some kind => cases kind <;> simp_all [Kind.isAgent, Kind.own?]
  obtain ⟨i, owns⟩ := Option.isSome_iff_exists.mp owns
  exact ⟨i, _, owns, List.getElem?_eq_getElem (reachable.filled.own t i owns)⟩

end Registry

end AgentScript
