import AgentScript.Operator
import AgentScript.Types.Registry

/-!
Lines of generated script code. Instructions have arguments, and jumps have labels that are numbered
through the whole unit; text given by the script itself is kept as it is.
-/
namespace AgentScript

inductive Arg where
  | register (slot : Nat)
  /-- A field of the owner of the script. -/
  | ownField (slot : Nat)
  /-- A field of the agent that `targ` points to. -/
  | targetField (slot : Nat)
  | name (code : String)
  | literal (v : Value)
  | raw (text : String)

namespace Arg

def registerName (slot : Nat) : String := "va" ++ Text.twoDigits slot

def text : Arg → String
  | register slot => registerName slot
  | ownField slot => "mv" ++ Text.twoDigits slot
  | targetField slot => "ov" ++ Text.twoDigits slot
  | name code => code
  | literal v => v.literal
  | raw text => text

def int (n : Int32) : Arg := literal (.int n)

/-- The variable for the agent that fields are read from. -/
def targ : Arg := name "targ"

end Arg

inductive Label where
  | numbered (n : Nat)
  | named (text : String)

def Label.text (head : String) : Label → String
  | numbered n => head ++ Text.nat n
  | named text => text

/-- A single comparison. -/
structure Atom where
  left : Arg
  op : CompareOp
  right : Arg

def Atom.text (a : Atom) : String := Text.words [a.left.text, a.op.name, a.right.text]

/-- Comparisons with connectives between them. Scripts have no brackets for tests. -/
structure Test where
  first : Atom
  rest : List (LogicOp × Atom)

namespace Test

def atom (left : Arg) (op : CompareOp) (right : Arg) : Test := ⟨⟨left, op, right⟩, []⟩

def join (op : LogicOp) (a b : Test) : Test := ⟨a.first, a.rest ++ (op, b.first) :: b.rest⟩

def text (t : Test) : String :=
  Text.words (t.first.text :: t.rest.flatMap fun (op, a) => [op.name, a.text])

end Test

/-- The store instruction for a storage class. -/
inductive StoreOp where
  | agent
  | string
  | value
  deriving DecidableEq

def StoreOp.name : StoreOp → String
  | agent => "seta"
  | string => "sets"
  | value => "setv"

inductive Instr where
  | store (op : StoreOp) (target input : Arg)
  | arith (op : ChainOp) (target operand : Arg)
  /-- Turns the number in a variable into its text. -/
  | toText (target : Arg)
  | append (target operand : Arg)
  | appendNumber (target operand : Arg)
  | doif (test : Test)
  | otherwise
  | endi
  | goto (label : Label)
  | subr (label : Label)
  /-- Opens an enumeration. -/
  | enumerate (text : String)
  | next
  | raw (text : String)
  | script (header : String)
  | remove
  | endScript

def Instr.text (labelHead : String) : Instr → String
  | store op target input => Text.words [op.name, target.text, input.text]
  | arith op target operand => Text.words [op.instruction, target.text, operand.text]
  | toText target => Text.words ["sets", target.text, "vtos", target.text]
  | append target operand => Text.words ["adds", target.text, operand.text]
  | appendNumber target operand => Text.words ["adds", target.text, "vtos", operand.text]
  | doif test => "doif " ++ test.text
  | otherwise => "else"
  | endi => "endi"
  | goto label => "goto " ++ label.text labelHead
  | subr label => "subr " ++ label.text labelHead
  | enumerate text => text
  | next => "next"
  | raw text => text
  | script header => header
  | remove => "rscr"
  | endScript => "endm"

/-- The lines that apply an operator to a variable that holds a value of type `lt`. Adding a string
turns the other side into text. -/
def ChainOp.lines (types : Registry) (op : ChainOp) (lt rt : TypeId) (target operand : Arg) :
    List Instr :=
  match op with
  | .add =>
    match types.canCast lt Registry.string, types.canCast rt Registry.string with
    | false, false => [.arith .add target operand]
    | false, true => [.toText target, .append target operand]
    | true, false => [.appendNumber target operand]
    | true, true => [.append target operand]
  | op => [.arith op target operand]

end AgentScript
