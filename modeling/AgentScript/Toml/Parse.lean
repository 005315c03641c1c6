import AgentScript.Toml.Basic

/-! Reading the lines of a settings file. -/
namespace AgentScript.Toml

/-! ### Words -/

def isDigits (isDigit : Char → Bool) : List Char → Bool
  | [] => false
  | [c] => isDigit c
  | c :: '_' :: rest => isDigit c && isDigits isDigit rest
  | c :: rest => isDigit c && isDigits isDigit rest

def digitsValue (base : Nat) (cs : List Char) : Nat :=
  cs.foldl (fun n c => n * base + (Json.hexValue? c).getD 0) 0

def withoutBars (cs : List Char) : List Char := cs.filter (· != '_')

/-- Digits that do not begin with a zero, unless it is the only one. -/
def isWhole (cs : List Char) : Bool :=
  isDigits Char.isDigit cs && (cs.head? != some '0' || cs.length == 1)

def isBased (base : Nat) (cs : List Char) : Bool :=
  isDigits (fun c => (Json.hexValue? c).any (· < base)) cs &&
    digitsValue base (withoutBars cs) < Nat.pow 2 63

def dropSign : List Char → Bool × List Char
  | '-' :: cs => (true, cs)
  | '+' :: cs => (false, cs)
  | cs => (false, cs)

def isInteger : List Char → Bool
  | '0' :: 'x' :: cs => isBased 16 cs
  | '0' :: 'o' :: cs => isBased 8 cs
  | '0' :: 'b' :: cs => isBased 2 cs
  | cs =>
    let (negative, digits) := dropSign cs
    isWhole digits &&
      digitsValue 10 (withoutBars digits) < Nat.pow 2 63 + (if negative then 1 else 0)

def isExponent (cs : List Char) : Bool := isDigits Char.isDigit (dropSign cs).2

def isExponentMark (c : Char) : Bool := c = 'e' || c = 'E'

/-- Whole digits, and then a fraction, an exponent, or both. -/
def isFloat (cs : List Char) : Bool :=
  let cs := (dropSign cs).2
  if cs = ['i', 'n', 'f'] ∨ cs = ['n', 'a', 'n'] then true
  else
    let isPart (c : Char) := c.isDigit || c = '_'
    isWhole (cs.takeWhile isPart) &&
      match cs.dropWhile isPart with
      | '.' :: rest =>
        isDigits Char.isDigit (rest.takeWhile isPart) &&
          match rest.dropWhile isPart with
          | [] => true
          | c :: rest => isExponentMark c && isExponent rest
      | c :: rest => isExponentMark c && isExponent rest
      | [] => false

def isWordChar (c : Char) : Bool := c.isAlphanum || c = '_' || c = '-' || c = '+' || c = '.'

def word? (cs : List Char) : Option Scalar :=
  if cs = ['t', 'r', 'u', 'e'] then some (.bool true)
  else if cs = ['f', 'a', 'l', 's', 'e'] then some (.bool false)
  else if isInteger cs || isFloat cs then some .number
  else none

def scalar? (cs : List Char) : Option (Scalar × List Char) :=
  match cs with
  | '"' :: _ | '\'' :: _ => do
    let (s, rest) ← text? cs
    return (.text (String.ofList s), rest)
  | _ => do return (← word? (cs.takeWhile isWordChar), cs.dropWhile isWordChar)

/-! ### Keys -/

def isKeyChar (c : Char) : Bool := c.isAlphanum || c = '_' || c = '-'

def keyPart? (cs : List Char) : Option (String × List Char) :=
  match cs with
  | '"' :: rest => do
    let (s, rest) ← quoted? rest
    return (String.ofList s, rest)
  | '\'' :: rest => do
    let (s, rest) ← literal? rest
    return (String.ofList s, rest)
  | _ => match cs.takeWhile isKeyChar with
    | [] => none
    | part => some (String.ofList part, cs.dropWhile isKeyChar)

/-- Parts of a key with points between them, of at most `parts` parts. -/
def keyWithin? : (parts : Nat) → List Char → Option (Path × List Char)
  | 0, _ => none
  | parts + 1, cs => do
    let (part, rest) ← keyPart? (cs.dropWhile isBlank)
    match rest.dropWhile isBlank with
    | '.' :: rest =>
      let (more, rest) ← keyWithin? parts rest
      return (part :: more, rest)
    | rest => return ([part], rest)

def key? (cs : List Char) : Option (Path × List Char) := keyWithin? (cs.length + 1) cs

/-! ### Lines -/

/-- The rest of a line holds at most a comment. -/
def endLine? (cs : List Char) : Option (List Char) :=
  let cs := match cs.dropWhile isBlank with
    | '#' :: rest => rest.dropWhile isPlain
    | rest => rest
  match cs with
  | [] => some []
  | '\n' :: rest | '\r' :: '\n' :: rest => some rest
  | _ => none

def header? (cs : List Char) : Option (Path × List Char) := do
  match ← key? cs with
  | (path, ']' :: rest) => return (path, rest)
  | _ => none

def pair? (cs : List Char) : Option (Path × Scalar × List Char) := do
  match ← key? cs with
  | (key, '=' :: rest) =>
    let (value, rest) ← scalar? (rest.dropWhile isBlank)
    return (key, value, rest)
  | _ => none

/-- The lines from some line of a table on. Every line is at least one character. -/
def linesWithin? : (count : Nat) → (table : Path) → List Char → Option (List Line)
  | 0, _, cs => if cs.isEmpty then some [] else none
  | count + 1, table, cs =>
    match cs.dropWhile isBlank with
    | [] => some []
    | '[' :: rest => do
      let (path, rest) ← header? rest
      return .header path :: (← linesWithin? count path (← endLine? rest))
    | c :: rest =>
      if c = '#' || c = '\n' || c = '\r' then do
        linesWithin? count table (← endLine? (c :: rest))
      else do
        let (key, value, rest) ← pair? (c :: rest)
        return .pair table key value :: (← linesWithin? count table (← endLine? rest))

/-- A byte order mark may stand in front. -/
def dropMark : List Char → List Char
  | '\ufeff' :: cs => cs
  | cs => cs

def parse? (text : String) : Option (List Line) := do
  let cs := dropMark text.toList
  let lines ← linesWithin? (cs.length + 1) [] cs
  if consistent lines then some lines else none

/-! ### Settings -/

/-- Whether a line makes the key a table of the file. -/
def Line.makesTable (name : String) : Line → Bool
  | header (first :: _) => first == name
  | pair [] (first :: _ :: _) _ => first == name
  | _ => false

def Line.valueOf? (name : String) : Line → Option Scalar
  | pair [] [key] value => if key = name then some value else none
  | _ => none

/-- A setting of the file, which must be of its kind where it is given. -/
def setting? (lines : List Line) (name : String) (read : Scalar → Option α) (default : α) :
    Option α :=
  if lines.any (·.makesTable name) then none
  else match lines.findSome? (·.valueOf? name) with
    | some value => read value
    | none => some default

end AgentScript.Toml

namespace AgentScript.Toml.Scalar

def asBool? : Scalar → Option Bool
  | bool b => some b
  | _ => none

def asText? : Scalar → Option String
  | text s => some s
  | _ => none

end AgentScript.Toml.Scalar
