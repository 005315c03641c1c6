import AgentScript.Proofs.Json.Readers
import AgentScript.Tree.Write

/-! Units without a number that is not whole, and the lists and options of parts that trees are written
with. -/
namespace AgentScript

open Json

mutual
def Term.floatless : Term → Bool
  | .float _ => false
  | .int _ | .str _ | .bytes _ | .id _ | .messageId .. => true
  | .group items | .chain _ items | .call _ items => termsFloatless items
  | .field base _ | .cast base _ | .denull base | .isInstance base _ | .not base => base.floatless
  | .compare _ left right | .logic _ left right => left.floatless && right.floatless
  | .inline parts _ => fragmentsFloatless parts
  | .seq body result => statementsFloatless body && result.floatless
def termsFloatless : List Term → Bool
  | [] => true
  | t :: rest => t.floatless && termsFloatless rest
def term?Floatless : Option Term → Bool
  | none => true
  | some t => t.floatless
def Fragment.floatless : Fragment → Bool
  | .text _ => true
  | .term t => t.floatless
def fragmentsFloatless : List Fragment → Bool
  | [] => true
  | f :: rest => f.floatless && fragmentsFloatless rest
def Selector.floatless : Selector → Bool
  | .name _ => true
  | .number t => t.floatless
def Statement.floatless : Statement → Bool
  | .mk _ kind => kind.floatless
def statementsFloatless : List Statement → Bool
  | [] => true
  | s :: rest => s.floatless && statementsFloatless rest
def statement?Floatless : Option Statement → Bool
  | none => true
  | some s => s.floatless
def StatementKind.floatless : StatementKind → Bool
  | .breakLoop | .continueLoop => true
  | .block body _ => statementsFloatless body
  | .declare _ _ init => term?Floatless init
  | .assign targets source => term?Floatless targets && source.floatless
  | .update _ target source => target.floatless && source.floatless
  | .synonym _ target => target.floatless
  | .branch cond yes no => cond.floatless && yes.floatless && statement?Floatless no
  | .loop body => body.floatless
  | .enumerate _ _ params body => termsFloatless params && body.floatless
  | .inline parts => fragmentsFloatless parts
  | .send agent message params delay =>
    agent.floatless && message.floatless && termsFloatless params && term?Floatless delay
  | .call script params => script.floatless && termsFloatless params
end

def Declaration.floatless : Declaration → Bool
  | const _ value => value.floatless
  | cls .. | interface .. | implements .. | field .. | message .. | script .. | typedef .. => true

/-- No number that is not whole is written in a unit. -/
def Document.floatless (d : Document) : Bool :=
  d.declarations.all Declaration.floatless && d.macros.all (·.body.floatless) &&
    d.install.all Statement.floatless && d.events.all (·.body.floatless) &&
    d.remove.all Statement.floatless

section Parts

theorem typeRefsJson_eq (members : List TypeRef) : typeRefsJson members = members.map TypeRef.json := by
  induction members with
  | nil => rw [typeRefsJson, List.map_nil]
  | cons t rest ih => rw [typeRefsJson, ih, List.map_cons]

theorem termsJson_eq (ts : List Term) : termsJson ts = ts.map Term.json := by
  induction ts with
  | nil => rw [termsJson, List.map_nil]
  | cons t rest ih => rw [termsJson, ih, List.map_cons]

theorem fragmentsJson_eq (parts : List Fragment) : fragmentsJson parts = parts.map Fragment.json := by
  induction parts with
  | nil => rw [fragmentsJson, List.map_nil]
  | cons f rest ih => rw [fragmentsJson, ih, List.map_cons]

theorem statementsJson_eq (body : List Statement) : statementsJson body = body.map Statement.json := by
  induction body with
  | nil => rw [statementsJson, List.map_nil]
  | cons s rest ih => rw [statementsJson, ih, List.map_cons]

theorem optionTermJson_eq (t : Option Term) : optionTermJson t = orNull Term.json t := by
  cases t <;> rw [optionTermJson, orNull]

theorem optionStatementJson_eq (s : Option Statement) :
    optionStatementJson s = orNull Statement.json s := by
  cases s <;> rw [optionStatementJson, orNull]

theorem termsFloatless_iff {ts : List Term} :
    termsFloatless ts = true ↔ ∀ t ∈ ts, t.floatless = true := by
  induction ts with
  | nil => simp [termsFloatless]
  | cons t rest ih => simp [termsFloatless, ih]

theorem fragmentsFloatless_iff {parts : List Fragment} :
    fragmentsFloatless parts = true ↔ ∀ f ∈ parts, f.floatless = true := by
  induction parts with
  | nil => simp [fragmentsFloatless]
  | cons f rest ih => simp [fragmentsFloatless, ih]

theorem statementsFloatless_iff {body : List Statement} :
    statementsFloatless body = true ↔ ∀ s ∈ body, s.floatless = true := by
  induction body with
  | nil => simp [statementsFloatless]
  | cons s rest ih => simp [statementsFloatless, ih]

theorem term?Floatless_iff {t : Option Term} : term?Floatless t = true ↔ ∀ u ∈ t, u.floatless = true := by
  cases t <;> simp [term?Floatless]

theorem statement?Floatless_iff {s : Option Statement} :
    statement?Floatless s = true ↔ ∀ u ∈ s, u.floatless = true := by
  cases s <;> simp [statement?Floatless]

end Parts

end AgentScript
