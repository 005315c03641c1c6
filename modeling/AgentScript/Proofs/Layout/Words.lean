import AgentScript.Proofs.Layout.Names
import AgentScript.Proofs.Resolution.Units

/-! Texts that resolution carries over. Comments can repeat names of variables and types, text that is
written as it stands, and names of files; resolution finds all of them in the source or makes them of
one line. -/
namespace AgentScript
open Text

def Text.OneLines (texts : List String) : Prop := ∀ text ∈ texts, OneLine text

instance (texts : List String) : Decidable (Text.OneLines texts) :=
  inferInstanceAs (Decidable (∀ text ∈ texts, OneLine text))

namespace Text.OneLines

@[simp] theorem nil : OneLines [] := List.forall_mem_nil _

@[simp] theorem cons_iff : OneLines (text :: rest) ↔ OneLine text ∧ OneLines rest :=
  List.forall_mem_cons

@[simp] theorem append_iff : OneLines (texts ++ rest) ↔ OneLines texts ∧ OneLines rest :=
  List.forall_mem_append

end Text.OneLines

mutual
/-- The names and texts in a source tree that comments can repeat. -/
def Term.strings : Term → List String
  | .int _ | .float _ | .str _ | .bytes _ | .id _ | .messageId .. => []
  | .group items | .chain _ items | .call _ items => termStrings items
  | .field base _ | .cast base _ | .denull base | .isInstance base _ | .not base => base.strings
  | .compare _ left right | .logic _ left right => left.strings ++ right.strings
  | .inline parts _ => fragmentStrings parts
  | .seq body result => statementStrings body ++ result.strings
def termStrings : List Term → List String
  | [] => []
  | t :: rest => t.strings ++ termStrings rest
def term?Strings : Option Term → List String
  | none => []
  | some t => t.strings
def fragmentStrings : List Fragment → List String
  | [] => []
  | .text s :: rest => s :: fragmentStrings rest
  | .term t :: rest => t.strings ++ fragmentStrings rest
def Selector.strings : Selector → List String
  | .name _ => []
  | .number t => t.strings
def Statement.strings : Statement → List String
  | .mk pos kind => pos.file :: kind.strings
def statementStrings : List Statement → List String
  | [] => []
  | s :: rest => s.strings ++ statementStrings rest
def statement?Strings : Option Statement → List String
  | none => []
  | some s => s.strings
def StatementKind.strings : StatementKind → List String
  | .breakLoop | .continueLoop => []
  | .block body _ => statementStrings body
  | .declare names _ init => names ++ term?Strings init
  | .assign targets source => term?Strings targets ++ source.strings
  | .update _ target source => target.strings ++ source.strings
  | .synonym name target => name :: target.strings
  | .branch cond yes no => cond.strings ++ yes.strings ++ statement?Strings no
  | .loop body => body.strings
  | .enumerate _ _ params body => termStrings params ++ body.strings
  | .inline parts => fragmentStrings parts
  | .send agent message params delay =>
    agent.strings ++ message.strings ++ termStrings params ++ term?Strings delay
  | .call script params => script.strings ++ termStrings params
end

theorem oneLines_all {e : Expr} :
    OneLines (exprStrings e) ↔ Slices.All (fun q => OneLines q.leaf.strings) e := by
  induction e with
  | nil => simp [exprStrings, Slices.All]
  | cons q rest ih =>
    rw [exprStrings, OneLines.append_iff, ih, Slices.all_cons]
    cases q <;> rw [pieceStrings] <;> rfl

theorem oneLines_operands {tail : List Operand}
    (each : ∀ e ty after, .mk e ty after ∈ tail → OneLines (exprStrings e)) :
    OneLines (operandStrings tail) := by
  induction tail with
  | nil => simp [operandStrings]
  | cons o rest ih =>
    obtain ⟨e, ty, after⟩ := o
    have others := ih fun e ty after member => each e ty after (List.mem_cons_of_mem _ member)
    simp [operandStrings, each e ty after List.mem_cons_self, others]

theorem oneLines_copies {copies : List (Expr × List LocalVar)}
    (each : ∀ c ∈ copies, OneLines (exprStrings c.1) ∧ ∀ v ∈ c.2, OneLine v.label) :
    OneLines (copyStrings (copies.map fun c => .mk c.1 c.2)) := by
  induction copies with
  | nil => simp [copyStrings]
  | cons c rest ih =>
    obtain ⟨first, others⟩ := List.forall_mem_cons.mp each
    have labels : OneLines (c.2.map (·.label)) := List.forall_mem_map.mpr first.2
    simp [copyStrings, labels, first.1, ih others]

def Node.strings : Node → List String
  | .term t => t.strings
  | .terms ts => termStrings ts
  | .term? t => term?Strings t
  | .fragments fs => fragmentStrings fs
  | .selector s => s.strings
  | .statement s => s.strings
  | .body ss => statementStrings ss
  | .statement? s => statement?Strings s
  | .kind k => k.strings

structure Macro.Tidy (m : Macro) : Prop where
  params : ∀ p ∈ m.params, OneLine p.name
  body : OneLines m.body.strings

theorem Macro.Tidy.paramName_oneLine {m : Macro} (tidy : m.Tidy) (i : Nat) : OneLine (m.paramName i) := by
  unfold paramName
  cases found : m.params[i]? with
  | none => exact (by decide : OneLine "")
  | some p => exact tidy.params p (List.mem_of_getElem? found)

def oneLined : Invariant Bool where
  node _ n := OneLines n.strings
  text := OneLine
  macros := Macro.Tidy
  expr _ e := OneLines (exprStrings e)
  leaf _ leaf := OneLines leaf.strings
  cond _ c := OneLines c.strings
  parts _ ps := OneLines (partStrings ps)
  action _ a := OneLines a.strings
  actions _ as := OneLines (actionStrings as)
  kind _ k := OneLines k.strings
  apart := id
  located b _ := b
  alone := id
  params _ := true
  body _ := true
  inside := id
  bound e := OneLines (exprStrings e)
  refused _ := True
  breakable := id
  root := false

theorem oneLined_facts : oneLined.toFacts.Lawful where
  inner {_ n _ m} lines inner := by
    change OneLines n.strings at lines
    change OneLines m.strings
    cases inner with
    | @fragments f _ => cases f <;> simp_all [Node.strings, fragmentStrings]
    | _ => simp_all [Node.strings, Term.strings, termStrings, term?Strings, fragmentStrings, Selector.strings,
        Statement.strings, statementStrings, statement?Strings, StatementKind.strings]
  all := oneLines_all
  apart := id
  oneLine := id
  fragment lines := by
    simp only [oneLined, Node.strings, fragmentStrings, OneLines.cons_iff] at lines
    exact lines.1
  const _ _ := by simp [oneLined, Leaf.strings]
  var _ v := by simp [oneLined, LocalVar.leaf, Leaf.strings]
  builtin _ _ _ _ line := by simp_all [oneLined, Leaf.strings]
  sink _ _ _ _ := by simp [oneLined, Leaf.strings]
  deferred _ _ _ _ := by simp [oneLined, Leaf.strings]
  field _ lines := by simp_all [oneLined, Leaf.strings]
  cast _ lines := by simp_all [oneLined, Leaf.strings]
  isInstance _ _ _ lines := by simp_all [oneLined, Leaf.strings]
  chain _ _ lines each := by simpa [oneLined, Leaf.strings] using ⟨lines, oneLines_operands each⟩
  test _ lines := by simp_all [oneLined, Leaf.strings]
  inline _ lines := by simp_all [oneLined, Leaf.strings]
  seq _ first second := by simp_all [oneLined, Leaf.strings]
  call _ tidy each body := by
    have copied := oneLines_copies fun c member => ⟨(each c member).1, fun v isVar => by
      obtain ⟨k, same⟩ := (each c member).2 v isVar
      exact same ▸ tidy.paramName_oneLine k⟩
    simpa [oneLined, Leaf.strings] using ⟨copied, body⟩
  known _ _ := by simp [oneLined, Cond.strings]
  compare _ left right := by simp_all [oneLined, Cond.strings]
  logic _ left right := by simp_all [oneLined, Cond.strings]
  not := by simp [oneLined, Cond.strings]
  noParts _ := by simp [oneLined, partStrings]
  textPart first others := by simp_all [oneLined, partStrings]
  exprPart first others := by simp_all [oneLined, partStrings]
  ofAction {_ a} lines := by
    obtain ⟨pos, kind⟩ := a
    simp_all [oneLined, Action.strings, Action.kind]
  noActions _ := by simp [oneLined, actionStrings]
  consActions first others := by simp_all [oneLined, actionStrings]
  nop _ := by simp [oneLined, ActionKind.strings]
  block lines := by simp_all [oneLined, ActionKind.strings]
  openBlock lines := by simp_all [oneLined, ActionKind.strings]
  declare {_ _ _ _ _ init} node labels each := by
    simp only [oneLined, Node.strings, StatementKind.strings, OneLines.append_iff] at node
    cases init <;> simp_all [oneLined, ActionKind.strings, initStrings]
  assign first second := by simp_all [oneLined, ActionKind.strings]
  update _ _ _ _ first second := by simp_all [oneLined, ActionKind.strings]
  synonym node lines := by simp_all [oneLined, Node.strings, StatementKind.strings, ActionKind.strings]
  branch {_ _ _ no} c yes other := by
    cases no <;> simp_all [oneLined, ActionKind.strings, otherwiseStrings]
  loop lines := by simp_all [oneLined, ActionKind.strings]
  enumerate first second := by simp_all [oneLined, ActionKind.strings]
  write lines := by simp_all [oneLined, ActionKind.strings]

theorem oneLined_lawful : oneLined.Lawful where
  toLawful := oneLined_facts
  bound := Iff.rfl
  refused _ := trivial
  tooDeep _ := trivial
  action node lines := by simp_all [oneLined, Node.strings, Statement.strings, Action.strings]
  breakLoop _ := by simp [oneLined, ActionKind.strings]
  continueLoop _ := by simp [oneLined, ActionKind.strings]
  ofMacro tidy := tidy.body
  ofRoot := id
  breakableRoot := rfl
  breakableApart _ := rfl
  breakableLocated _ _ := rfl
  breakableAlone _ := rfl
  breakableParams _ := rfl
  breakableBody _ := rfl
  breakableInside _ := rfl

/-- Types that a declaration makes have its name. -/
def Declaration.strings : Declaration → List String
  | cls name _ | interface name => [name]
  | const _ value => value.strings
  | _ => []

def MacroDef.strings (m : MacroDef) : List String := m.params.map (·.name) ++ m.body.strings

/-- The names and texts of a unit that comments can repeat: names of types, parameters and variables,
text that is written as it stands, and names of files. -/
def Document.strings (d : Document) : List String :=
  d.declarations.flatMap Declaration.strings ++ d.macros.flatMap MacroDef.strings ++
    statement?Strings d.install ++ d.events.flatMap (·.body.strings) ++ statement?Strings d.remove

/-- Whatever comments of a unit can repeat is on one line, if all texts of its source are. -/
theorem Document.resolve_tidy {d : Document} (lines : OneLines d.strings) :
    d.resolve.2.2.Meets oneLined ∧ ∀ script ∈ d.resolve.1, OneLines script.body.strings := by
  simp only [Document.strings, OneLines.append_iff] at lines
  obtain ⟨⟨⟨⟨declared, macros⟩, install⟩, events⟩, remove⟩ := lines
  refine resolve_meets oneLined_lawful ⟨fun decl among => ?_, fun m among params names => ?_,
    fun body member => ?_⟩
  · have here : OneLines decl.strings := fun s isString =>
      declared s (List.mem_flatMap.mpr ⟨decl, among, isString⟩)
    cases decl with
    | cls | interface => exact (OneLines.cons_iff.mp here).1
    | _ => trivial
  · have here : OneLines m.strings := fun s isString => macros s (List.mem_flatMap.mpr ⟨m, among, isString⟩)
    rw [MacroDef.strings, OneLines.append_iff, ← names] at here
    exact ⟨List.forall_mem_map.mp here.1, here.2⟩
  · simp only [Document.bodies, List.mem_append, Option.mem_toList, List.mem_map] at member
    rcases member with (isInstall | ⟨e, among, rfl⟩) | isRemove
    · rwa [isInstall] at install
    · exact fun s isString => events s (List.mem_flatMap.mpr ⟨e, among, isString⟩)
    · rwa [isRemove] at remove

end AgentScript
