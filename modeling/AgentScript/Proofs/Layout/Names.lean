import AgentScript.Proofs.Layout.OneLine
import AgentScript.Proofs.Types.Reachable

/-! Names of types without line breaks. Types that are made on the way have names made of numbers, so
that only declarations bring in others. -/
namespace AgentScript

open Text

theorem Classifier.display_oneLine (c : Classifier) : OneLine c.display := by
  have numbers : OneLine c.arguments := .words (by simp)
  have first : OneLine "[" := by decide
  have last : OneLine "]" := by decide
  simp [display, numbers, first, last]

namespace Registry

/-- All types have names on one line. -/
def Tidy (r : Registry) : Prop := ∀ t kind, r.kind? t = some kind → OneLine kind.name

namespace Tidy
variable {r r' : Registry}

theorem name (tidy : r.Tidy) (t : TypeId) : OneLine (r.name t) := by
  have plain (t : TypeId) : OneLine (r.plainName t) := by
    unfold plainName
    cases found : r.kind? t with
    | none => decide
    | some kind => exact tidy t kind found
  have joined (ts : List TypeId) : OneLine ("|".intercalate (ts.map r.plainName)) := by
    induction ts with
    | nil => exact (by decide : OneLine "")
    | cons t rest ih =>
      cases rest with
      | nil => simpa using plain t
      | cons u more =>
        have bar : OneLine "|" := by decide
        rw [List.map_cons, List.map_cons, String.intercalate_cons_cons]
        rw [List.map_cons] at ih
        simp [plain t, bar, ih]
  unfold Registry.name
  split
  · exact joined _
  · exact plain t

/-- Nothing but effective interfaces, members and names in scope has changed. -/
theorem same (tidy : r.Tidy) (kinds : ∀ t, r'.kind? t = r.kind? t) : r'.Tidy := by
  intro t kind found
  rw [kinds] at found
  exact tidy t kind found

theorem push (tidy : r.Tidy) {kind : Kind} (named : OneLine kind.name) (major : Major) :
    (r.push kind major).2.Tidy := by
  intro t k found
  rw [kind?_push] at found
  split at found
  · cases found
    exact named
  · exact tidy t k found

theorem modify (tidy : r.Tidy) (t : TypeId) {f : Kind → Kind}
    (named : ∀ k, OneLine k.name → OneLine (f k).name)
    (entries : r'.entries = r.entries.modify t fun e => { e with kind := f e.kind }) : r'.Tidy := by
  intro u kind found
  simp only [kind?, entries, List.getElem?_modify, Option.map_eq_map, Option.map_map] at found
  obtain ⟨e, here, rfl⟩ := Option.map_eq_some_iff.mp found
  have old := tidy u e.kind (by simp [kind?, here])
  dsimp only [Function.comp]
  split
  · exact named e.kind old
  · exact old

theorem rename (tidy : r.Tidy) (t : TypeId) {name : String} (named : OneLine name) :
    (r.rename t name).Tidy := by
  refine tidy.modify t (f := Kind.rename name) (fun k _ => ?_) rfl
  cases k with
  | union members => exact (by decide : OneLine "")
  | _ => exact named

theorem link (tidy : r.Tidy) (child parent : TypeId) : (r.link child parent).Tidy := by
  refine tidy.modify child (f := Kind.addParent parent) (fun k old => ?_) rfl
  cases k <;> exact old

end Tidy

theorem initial_tidy : initial.Tidy := by
  intro t kind found
  have names : initial.entries.all fun e => decide (OneLine e.kind.name) := by decide +kernel
  obtain ⟨e, here, rfl⟩ := Option.map_eq_some_iff.mp found
  exact of_decide_eq_true (List.all_eq_true.mp names e (List.mem_of_getElem? here))

theorem kept_tidy : Kept OneLine Tidy where
  adds _ _ tidy adds := by
    cases adds with
    | type makes => exact tidy.push makes.named _
    | rename t named => exact tidy.rename t named
    | interface | bind | member | constant => exact tidy.same fun _ => rfl
  link {_ child parent} _ _ tidy _ :=
    (tidy.link child parent).same (SameBesideEffective.refreshWithin _ _ child).kind?

theorem ReachableBy.tidy {r : Registry} (reachable : ReachableBy (Operation.Names OneLine) r) : r.Tidy :=
  reachable.keeps ⟨Classifier.display_oneLine, by decide⟩ kept_tidy initial_tidy

end Registry

end AgentScript
