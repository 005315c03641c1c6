import AgentScript.Json.Basic
import AgentScript.Tree.Document

/-! The written form of units. Every field is written, in a fixed order. -/
namespace AgentScript

open Json (fields tagged text int nat orNull)

def Classifier.json (c : Classifier) : Json :=
  fields [("family", nat c.family.toNat), ("genus", nat c.genus.toNat),
    ("species", nat c.species.toNat)]

def Position.json (p : Position) : Json :=
  fields [("file", text p.file), ("line", nat p.line.toNat), ("column", nat p.column.toNat)]

def ChainOp.word : ChainOp → String
  | add => "add"
  | sub => "sub"
  | mul => "mul"
  | div => "div"
  | or => "or"
  | and => "and"

def Perm.word : Perm → String
  | r => "r"
  | w => "w"
  | rw => "rw"

def singleJson (v : Float32) : Json :=
  match Single.fileText? v with
  | some token => .number token
  | none => .null

def bytesJson (bs : List UInt8) : Json := .array (bs.map fun b => nat b.toNat)

def Value.json : Value → Json
  | int v => tagged "int" (Json.int v.toInt)
  | float v => tagged "float" (singleJson v)
  | str s => tagged "str" (text s)
  | bytes bs => tagged "bytes" (bytesJson bs)

mutual
def TypeRef.json : TypeRef → Json
  | .named name => tagged "named" (text name)
  | .classifier c => tagged "classifier" c.json
  | .nullable t => tagged "nullable" t.json
  | .union members => tagged "union" (.array (typeRefsJson members))
def typeRefsJson : List TypeRef → List Json
  | [] => []
  | t :: rest => t.json :: typeRefsJson rest
end

mutual
def Term.json : Term → Json
  | .int v => tagged "int" (int v.toInt)
  | .float v => tagged "float" (singleJson v)
  | .str s => tagged "str" (text s)
  | .bytes bs => tagged "bytes" (bytesJson bs)
  | .id name => tagged "id" (text name)
  | .group items => tagged "group" (.array (termsJson items))
  | .chain op operands => tagged "chain" (fields [("op", text op.word),
      ("operands", .array (termsJson operands))])
  | .call name args => tagged "call" (fields [("name", text name),
      ("args", .array (termsJson args))])
  | .field base name => tagged "field" (fields [("base", base.json), ("field", text name)])
  | .cast base ty => tagged "cast" (fields [("base", base.json), ("ty", ty.json)])
  | .denull base => tagged "denull" base.json
  | .compare op left right => tagged "compare" (fields [("op", text op.name),
      ("left", left.json), ("right", right.json)])
  | .logic op left right => tagged "logic" (fields [("op", text op.name),
      ("left", left.json), ("right", right.json)])
  | .not t => tagged "not" t.json
  | .inline parts ty => tagged "inline" (fields [("parts", .array (fragmentsJson parts)),
      ("ty", ty.json)])
  | .messageId ty name script => tagged "message_id" (fields [("ty", ty.json),
      ("name", text name), ("script", .bool script)])
  | .isInstance base cls => tagged "instanceof" (fields [("base", base.json),
      ("class", cls.json)])
  | .seq body result => tagged "seq" (fields [("body", .array (statementsJson body)),
      ("result", result.json)])
def termsJson : List Term → List Json
  | [] => []
  | t :: rest => t.json :: termsJson rest
def Fragment.json : Fragment → Json
  | .text s => tagged "text" (text s)
  | .term t => tagged "expr" t.json
def fragmentsJson : List Fragment → List Json
  | [] => []
  | p :: rest => p.json :: fragmentsJson rest
def Selector.json : Selector → Json
  | .name name => tagged "name" (text name)
  | .number t => tagged "id" t.json
def Statement.json : Statement → Json
  | .mk pos kind => fields (("pos", pos.json) :: kind.jsonFields)
def statementsJson : List Statement → List Json
  | [] => []
  | s :: rest => s.json :: statementsJson rest
def StatementKind.jsonFields : StatementKind → List (String × Json)
  | .block body closed => [("stmt", text "block"), ("body", .array (statementsJson body)),
      ("scoped", .bool closed)]
  | .declare names types init => [("stmt", text "let"), ("names", .array (names.map text)),
      ("types", .array (types.map (orNull TypeRef.json))), ("init", optionTermJson init)]
  | .assign targets source => [("stmt", text "assign"), ("targets", optionTermJson targets),
      ("source", source.json)]
  | .update op target source => [("stmt", text "mod_assign"), ("op", text op.word),
      ("target", target.json), ("source", source.json)]
  | .synonym name target => [("stmt", text "alias"), ("name", text name), ("target", target.json)]
  | .branch cond yes no => [("stmt", text "if"), ("cond", cond.json), ("then", yes.json),
      ("else", optionStatementJson no)]
  | .loop body => [("stmt", text "loop"), ("body", body.json)]
  | .breakLoop => [("stmt", text "break")]
  | .continueLoop => [("stmt", text "continue")]
  | .enumerate kind agent params body => [("stmt", text "enum"), ("kind", text kind.name),
      ("agent", agent.json), ("params", .array (termsJson params)), ("body", body.json)]
  | .inline parts => [("stmt", text "inline"), ("parts", .array (fragmentsJson parts))]
  | .send agent message params delay => [("stmt", text "send"), ("agent", agent.json),
      ("message", message.json), ("params", .array (termsJson params)),
      ("after", optionTermJson delay)]
  | .call script params => [("stmt", text "call"), ("script", script.json),
      ("params", .array (termsJson params))]
def optionTermJson : Option Term → Json
  | none => .null
  | some t => t.json
def optionStatementJson : Option Statement → Json
  | none => .null
  | some s => s.json
end

def Declaration.jsonFields : Declaration → List (String × Json)
  | cls name c => [("decl", text "class"), ("name", text name), ("classifier", c.json)]
  | interface name => [("decl", text "interface"), ("name", text name)]
  | implements ty i => [("decl", text "implements"), ("ty", ty.json), ("interface", i.json)]
  | field owner name ty slot => [("decl", text "field"), ("owner", owner.json),
      ("name", text name), ("ty", ty.json), ("slot", nat slot.toNat)]
  | message owner name number => [("decl", text "message"), ("owner", owner.json),
      ("name", text name), ("id", nat number.toNat)]
  | script owner name number => [("decl", text "script"), ("owner", owner.json),
      ("name", text name), ("id", nat number.toNat)]
  | const name value => [("decl", text "const"), ("name", text name), ("value", value.json)]
  | typedef name ty => [("decl", text "typedef"), ("name", text name), ("ty", ty.json)]

def Declaration.json (d : Declaration) : Json := fields d.jsonFields

def ParamDef.json (p : ParamDef) : Json :=
  fields [("name", text p.name), ("ty", p.ty.json),
    ("inline", orNull (fun perm => text perm.word) p.inline)]

def MacroDef.json (m : MacroDef) : Json :=
  fields [("name", text m.name), ("params", .array (m.params.map ParamDef.json)),
    ("body", m.body.json), ("pos", m.pos.json)]

def ScriptRef.json : ScriptRef → Json
  | number n => nat n.toNat
  | name s => text s

def EventScript.json (e : EventScript) : Json :=
  fields [("pos", e.pos.json), ("classifier", e.classifier.json), ("script", e.script.json),
    ("body", e.body.json)]

def Document.json (d : Document) : Json :=
  fields [("declarations", .array (d.declarations.map Declaration.json)),
    ("macros", .array (d.macros.map MacroDef.json)),
    ("install", orNull Statement.json d.install),
    ("events", .array (d.events.map EventScript.json)),
    ("remove", orNull Statement.json d.remove)]

def Document.text (d : Document) : String := d.json.pretty

end AgentScript
