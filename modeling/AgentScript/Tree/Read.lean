import AgentScript.Json.Read
import AgentScript.Tree.Write
import AgentScript.Types.Kind

/-!
Reading units. Statements and declarations carry their kind as a field among the others; terms and
types are tagged values. Every term and statement opens a bracket of its own, so the bound on open
brackets also bounds how deep they nest.
-/
namespace AgentScript.Reader

def classifier : Reader Classifier := fun p j => do
  let f ← Fields.read? ["family", "genus", "species"] p j
  return ⟨← f.required "family" asUInt8, ← f.required "genus" asUInt8,
    ← f.required "species" asUInt16⟩

def position : Reader Position := fun p j => do
  let f ← Fields.read? ["file", "line", "column"] p j
  return ⟨← f.withDefault "file" asText "", ← f.required "line" asUInt32,
    ← f.withDefault "column" asUInt32 0⟩

def chainOp : Reader ChainOp :=
  oneOf [("add", .add), ("sub", .sub), ("mul", .mul), ("div", .div), ("or", .or), ("and", .and)]

def compareOp : Reader CompareOp :=
  oneOf [("eq", .eq), ("ne", .ne), ("lt", .lt), ("gt", .gt), ("le", .le), ("ge", .ge)]

def logicOp : Reader LogicOp := oneOf [("and", .and), ("or", .or)]

def enumKind : Reader EnumKind :=
  oneOf [("enum", .enum), ("epas", .epas), ("esee", .esee), ("etch", .etch), ("econ", .econ)]

def perm : Reader Perm := oneOf [("r", .r), ("w", .w), ("rw", .rw)]

def major : Reader Major :=
  oneOf [("unknown", .unknown), ("agent", .agent), ("string", .string), ("value", .value),
    ("byte_string", .byteString)]

def value : Reader Value := fun p j => do
  let (tag, p, content) ← tagged? p j
  match tag with
  | "int" => return .int (← asInt32 p content)
  | "float" => return .float (← asSingle p content)
  | "str" => return .str (← asText p content)
  | "bytes" => return .bytes (← list asUInt8 p content)
  | _ => none

def typeRefStep (typeRef : Reader TypeRef) : Reader TypeRef := fun p j => do
  let (tag, p, content) ← tagged? p j
  match tag with
  | "named" => return .named (← asText p content)
  | "classifier" => return .classifier (← classifier p content)
  | "nullable" => return .nullable (← typeRef p content)
  | "union" => return .union (← list typeRef p content)
  | _ => none

def typeRefWithin : (depth : Nat) → Reader TypeRef
  | 0 => fun _ _ => none
  | depth + 1 => typeRefStep (typeRefWithin depth)

/-- As many terms, statements or types can lie in one another as brackets can be open. -/
def maxDepth : Nat := maxLevels + 1

def typeRef : Reader TypeRef := typeRefWithin maxDepth

/-- Readers for terms and statements. -/
structure Nested where
  term : Reader Term
  statement : Reader Statement

namespace Nested

def fragment (n : Nested) : Reader Fragment := fun p j => do
  let (tag, p, content) ← tagged? p j
  match tag with
  | "text" => return .text (← asText p content)
  | "expr" => return .term (← n.term p content)
  | _ => none

def selector (n : Nested) : Reader Selector := fun p j => do
  let (tag, p, content) ← tagged? p j
  match tag with
  | "name" => return .name (← asText p content)
  | "id" => return .number (← n.term p content)
  | _ => none

def termStep (n : Nested) : Reader Term := fun p j => do
  let (tag, p, content) ← tagged? p j
  match tag with
  | "int" => return .int (← asInt32 p content)
  | "float" => return .float (← asSingle p content)
  | "str" => return .str (← asText p content)
  | "bytes" => return .bytes (← list asUInt8 p content)
  | "id" => return .id (← asText p content)
  | "group" => return .group (← list n.term p content)
  | "chain" =>
    let f ← Fields.read? ["op", "operands"] p content
    return .chain (← f.required "op" chainOp) (← f.required "operands" (list n.term))
  | "call" =>
    let f ← Fields.read? ["name", "args"] p content
    return .call (← f.required "name" asText) (← f.withDefault "args" (list n.term) [])
  | "field" =>
    let f ← Fields.read? ["base", "field"] p content
    return .field (← f.required "base" n.term) (← f.required "field" asText)
  | "cast" =>
    let f ← Fields.read? ["base", "ty"] p content
    return .cast (← f.required "base" n.term) (← f.required "ty" typeRef)
  | "denull" => return .denull (← n.term p content)
  | "compare" =>
    let f ← Fields.read? ["op", "left", "right"] p content
    return .compare (← f.required "op" compareOp) (← f.required "left" n.term)
      (← f.required "right" n.term)
  | "logic" =>
    let f ← Fields.read? ["op", "left", "right"] p content
    return .logic (← f.required "op" logicOp) (← f.required "left" n.term)
      (← f.required "right" n.term)
  | "not" => return .not (← n.term p content)
  | "inline" =>
    let f ← Fields.read? ["parts", "ty"] p content
    return .inline (← f.required "parts" (list n.fragment)) (← f.required "ty" typeRef)
  | "message_id" =>
    let f ← Fields.read? ["ty", "name", "script"] p content
    return .messageId (← f.required "ty" typeRef) (← f.required "name" asText)
      (← f.withDefault "script" asBool false)
  | "instanceof" =>
    let f ← Fields.read? ["base", "class"] p content
    return .isInstance (← f.required "base" n.term) (← f.required "class" classifier)
  | "seq" =>
    let f ← Fields.read? ["body", "result"] p content
    return .seq (← f.required "body" (list n.statement)) (← f.required "result" n.term)
  | _ => none

end Nested

/-- The kinds of statement in their order, by which a number may refer to them. -/
def statementTags : List String :=
  ["block", "let", "assign", "mod_assign", "alias", "if", "loop", "break", "continue", "enum",
    "inline", "send", "call"]

def statementTag : Reader String
  | _, .string (some tag) => some tag
  | p, j => do statementTags[(← asIntWithin 0 12 p j).toNat]?

namespace Nested

def statementFields : String → List String
  | "block" => ["body", "scoped"]
  | "let" => ["names", "types", "init"]
  | "assign" => ["targets", "source"]
  | "mod_assign" => ["op", "target", "source"]
  | "alias" => ["name", "target"]
  | "if" => ["cond", "then", "else"]
  | "loop" => ["body"]
  | "enum" => ["kind", "agent", "params", "body"]
  | "inline" => ["parts"]
  | "send" => ["agent", "message", "params", "after"]
  | "call" => ["script", "params"]
  | _ => []

def statementKind (n : Nested) (tag : String) (f : Fields) : Option StatementKind := do
  match tag with
  | "block" =>
    return .block (← f.required "body" (list n.statement)) (← f.withDefault "scoped" asBool true)
  | "let" =>
    return .declare (← f.required "names" (list asText))
      (← f.withDefault "types" (list (nullable typeRef)) []) (← f.nullable "init" n.term)
  | "assign" => return .assign (← f.nullable "targets" n.term) (← f.required "source" n.term)
  | "mod_assign" =>
    return .update (← f.required "op" chainOp) (← f.required "target" n.term)
      (← f.required "source" n.term)
  | "alias" => return .synonym (← f.required "name" asText) (← f.required "target" n.term)
  | "if" =>
    return .branch (← f.required "cond" n.term) (← f.required "then" n.statement)
      (← f.nullable "else" n.statement)
  | "loop" => return .loop (← f.required "body" n.statement)
  | "break" => return .breakLoop
  | "continue" => return .continueLoop
  | "enum" =>
    return .enumerate (← f.required "kind" enumKind) (← f.required "agent" typeRef)
      (← f.withDefault "params" (list n.term) []) (← f.required "body" n.statement)
  | "inline" => return .inline (← f.required "parts" (list n.fragment))
  | "send" =>
    return .send (← f.required "agent" n.term) (← f.required "message" n.selector)
      (← f.withDefault "params" (list n.term) []) (← f.nullable "after" n.term)
  | "call" =>
    return .call (← f.required "script" n.selector) (← f.withDefault "params" (list n.term) [])
  | _ => none

/-- The kind of a statement and its fields, among which the kind is named. -/
def taggedKind (n : Nested) : Reader StatementKind := taken fun p j => do
  match j with
  | .object fs =>
    let head ← Fields.read? ["stmt"] p j
    let tag ← head.required "stmt" statementTag
    let known ← Fields.select? (statementFields tag) fs
    n.statementKind tag ⟨head.place, true, known⟩
  | _ => none

/-- A statement, which must be an object, given readers for what is in it. All of it but its position
is taken in as a whole. -/
def statementStep (n : Nested) : Reader Statement := fun p j => do
  match j with
  | .object fs =>
    let head ← Fields.read? ["pos"] p j
    let pos ← head.withDefault "pos" position .unknown
    return .mk pos (← n.taggedKind p (.object (fs.filter fun f => f.1 != some "pos")))
  | _ => none

def within : (depth : Nat) → Nested
  | 0 => ⟨fun _ _ => none, fun _ _ => none⟩
  | depth + 1 =>
    let inner := within depth
    ⟨inner.termStep, inner.statementStep⟩

end Nested

def nested : Nested := Nested.within maxDepth

def term : Reader Term := nested.term

def statement : Reader Statement := nested.statement

def fragment : Reader Fragment := nested.fragment

def selector : Reader Selector := nested.selector

def declarationFields : String → List String
  | "class" => ["name", "classifier"]
  | "interface" => ["name"]
  | "implements" => ["ty", "interface"]
  | "field" => ["owner", "name", "ty", "slot"]
  | "message" | "script" => ["owner", "name", "id"]
  | "const" => ["name", "value"]
  | "typedef" => ["name", "ty"]
  | _ => []

def declarationKind (tag : String) (f : Fields) : Option Declaration := do
  match tag with
  | "class" => return .cls (← f.required "name" asText) (← f.required "classifier" classifier)
  | "interface" => return .interface (← f.required "name" asText)
  | "implements" =>
    return .implements (← f.required "ty" typeRef) (← f.required "interface" typeRef)
  | "field" =>
    return .field (← f.required "owner" typeRef) (← f.required "name" asText)
      (← f.required "ty" typeRef) (← f.required "slot" asUInt8)
  | "message" =>
    return .message (← f.required "owner" typeRef) (← f.required "name" asText)
      (← f.required "id" asUInt16)
  | "script" =>
    return .script (← f.required "owner" typeRef) (← f.required "name" asText)
      (← f.required "id" asUInt16)
  | "const" => return .const (← f.required "name" asText) (← f.required "value" term)
  | "typedef" => return .typedef (← f.required "name" asText) (← f.required "ty" typeRef)
  | _ => none

/-- A declaration: an object with its kind in it, or a list that begins with the kind. -/
def declaration : Reader Declaration := taken fun p j => do
  match j with
  | .object fs =>
    let head ← Fields.read? ["decl"] p j
    let tag ← head.required "decl" asText
    let known ← Fields.select? (declarationFields tag) fs
    declarationKind tag ⟨head.place, true, known⟩
  | .array (.string (some tag) :: items) =>
    let f ← Fields.read? (declarationFields tag) p (.array items)
    declarationKind tag f
  | _ => none

def paramDef : Reader ParamDef := fun p j => do
  let f ← Fields.read? ["name", "ty", "inline"] p j
  return ⟨← f.required "name" asText, ← f.required "ty" typeRef, ← f.nullable "inline" perm⟩

def macroDef : Reader MacroDef := fun p j => do
  let f ← Fields.read? ["name", "params", "body", "pos"] p j
  return ⟨← f.required "name" asText, ← f.withDefault "params" (list paramDef) [],
    ← f.required "body" term, ← f.withDefault "pos" position .unknown⟩

def scriptRef : Reader ScriptRef := taken fun p j =>
  match asUInt16 p j, asText p j with
  | some n, _ => some (.number n)
  | none, some s => some (.name s)
  | none, none => none

def eventScript : Reader EventScript := fun p j => do
  let f ← Fields.read? ["pos", "classifier", "script", "body"] p j
  return ⟨← f.withDefault "pos" position .unknown, ← f.required "classifier" classifier,
    ← f.required "script" scriptRef, ← f.required "body" statement⟩

def document : Reader Document := fun p j => do
  let f ← Fields.read? ["declarations", "macros", "install", "events", "remove"] p j
  return ⟨← f.withDefault "declarations" (list declaration) [],
    ← f.withDefault "macros" (list macroDef) [], ← f.nullable "install" statement,
    ← f.withDefault "events" (list eventScript) [], ← f.nullable "remove" statement⟩

end AgentScript.Reader

namespace AgentScript

def Reader.run (reader : Reader α) (j : Json) : Option α := reader .start j

def Document.parse? (s : String) : Option Document :=
  (Json.parse? s).bind Reader.document.run

/-- Whether the text of a unit reads back as the unit. Two units have one text only if they are the
same. -/
def Document.readsBack (d : Document) : Bool :=
  match Document.parse? d.text with
  | some other => other.text == d.text
  | none => false

end AgentScript
