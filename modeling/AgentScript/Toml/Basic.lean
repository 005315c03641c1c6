import AgentScript.Json.Parse

/-!
Settings files in the part of TOML that settings need: keys with scalar values, below headers of
tables. A file is the list of its lines. Lines that define one place twice contradict each other.
-/
namespace AgentScript.Toml

inductive Scalar where
  | text (s : String)
  | bool (b : Bool)
  /-- Numbers are never settings, so their values do not matter. -/
  | number

abbrev Path := List String

inductive Line where
  | header (table : Path)
  /-- A value of a table. A key of more than one part makes tables on its way. -/
  | pair (table key : Path) (value : Scalar)

/-- The tables that a key makes on its way. -/
def keyTables (table key : Path) : List Path :=
  (List.range (key.length - 1)).map fun i => table ++ key.take (i + 1)

/-- Whether two lines, in either order, define one place in two ways. -/
def Line.contradicts : Line → Line → Bool
  | header a, header b => a == b
  | header h, pair t k _ | pair t k _, header h =>
    (t ++ k).isPrefixOf h || (keyTables t k).contains h
  | pair t k _, pair u l _ => (t ++ k).isPrefixOf (u ++ l) || (u ++ l).isPrefixOf (t ++ k)

def consistent : List Line → Bool
  | [] => true
  | line :: rest => rest.all (fun other => !line.contradicts other) && consistent rest

/-! ### Texts -/

/-- Control characters are written as escapes, a tab apart. -/
def isPlain (c : Char) : Bool := c = '\t' || (32 ≤ c.toNat && c.toNat != 127)

def hexNumber? (digits : List Char) : Option Nat :=
  digits.foldlM (fun n c => do return n * 16 + (← Json.hexValue? c)) 0

def codePoint? (digits : List Char) : Option Char := do
  let n ← hexNumber? digits
  if n.isValidChar then some (Char.ofNat n) else none

def escape? : Char → Option Char
  | 'b' => some '\x08'
  | 't' => some '\t'
  | 'n' => some '\n'
  | 'f' => some '\x0c'
  | 'r' => some '\r'
  | '"' => some '"'
  | '\\' => some '\\'
  | _ => none

def quoted? : List Char → Option (List Char × List Char)
  | [] => none
  | '"' :: rest => some ([], rest)
  | '\\' :: 'u' :: a :: b :: c :: d :: rest => do
    let x ← codePoint? [a, b, c, d]
    let (cs, rest) ← quoted? rest
    return (x :: cs, rest)
  | '\\' :: 'U' :: a :: b :: c :: d :: e :: f :: g :: h :: rest => do
    let x ← codePoint? [a, b, c, d, e, f, g, h]
    let (cs, rest) ← quoted? rest
    return (x :: cs, rest)
  | '\\' :: e :: rest => do
    let x ← escape? e
    let (cs, rest) ← quoted? rest
    return (x :: cs, rest)
  | c :: rest =>
    if isPlain c && c != '\\' then do
      let (cs, rest) ← quoted? rest
      return (c :: cs, rest)
    else none

def literal? (cs : List Char) : Option (List Char × List Char) :=
  let isInner (c : Char) := isPlain c && c != '\''
  match cs.dropWhile isInner with
  | '\'' :: rest => some (cs.takeWhile isInner, rest)
  | _ => none

def isBlank (c : Char) : Bool := c = ' ' || c = '\t'

def startsLine : List Char → Bool
  | '\n' :: _ | '\r' :: '\n' :: _ => true
  | _ => false

/-- A line end right after the opening quotes does not count. -/
def dropLineEnd : List Char → List Char
  | '\n' :: rest | '\r' :: '\n' :: rest => rest
  | cs => cs

/-- A text of several lines, after the opening quotes. A backslash at the end of a line joins it to
the next that is not blank; `joining` says that this is going on. -/
def multiline? (joining : Bool) : List Char → Option (List Char × List Char)
  | [] => none
  | '"' :: '"' :: '"' :: '"' :: '"' :: rest => some (['"', '"'], rest)
  | '"' :: '"' :: '"' :: '"' :: rest => some (['"'], rest)
  | '"' :: '"' :: '"' :: rest => some ([], rest)
  | '\r' :: '\n' :: rest => do
    let (cs, rest) ← multiline? joining rest
    return (if joining then cs else '\n' :: cs, rest)
  | '\\' :: 'u' :: a :: b :: c :: d :: rest => do
    let x ← codePoint? [a, b, c, d]
    let (cs, rest) ← multiline? false rest
    return (x :: cs, rest)
  | '\\' :: 'U' :: a :: b :: c :: d :: e :: f :: g :: h :: rest => do
    let x ← codePoint? [a, b, c, d, e, f, g, h]
    let (cs, rest) ← multiline? false rest
    return (x :: cs, rest)
  | '\\' :: e :: rest =>
    if startsLine ((e :: rest).dropWhile isBlank) then multiline? true (e :: rest)
    else do
      let x ← escape? e
      let (cs, rest) ← multiline? false rest
      return (x :: cs, rest)
  | c :: rest =>
    if joining && (isBlank c || c = '\n') then multiline? true rest
    else if (isPlain c && c != '\\') || c = '\n' then do
      let (cs, rest) ← multiline? false rest
      return (c :: cs, rest)
    else none

/-- A text of several lines without escapes, after the opening apostrophes. -/
def multilineLiteral? : List Char → Option (List Char × List Char)
  | [] => none
  | '\'' :: '\'' :: '\'' :: '\'' :: '\'' :: rest => some (['\'', '\''], rest)
  | '\'' :: '\'' :: '\'' :: '\'' :: rest => some (['\''], rest)
  | '\'' :: '\'' :: '\'' :: rest => some ([], rest)
  | '\r' :: '\n' :: rest => do
    let (cs, rest) ← multilineLiteral? rest
    return ('\n' :: cs, rest)
  | c :: rest =>
    if isPlain c || c = '\n' then do
      let (cs, rest) ← multilineLiteral? rest
      return (c :: cs, rest)
    else none

def text? : List Char → Option (List Char × List Char)
  | '"' :: '"' :: '"' :: rest => multiline? false (dropLineEnd rest)
  | '"' :: rest => quoted? rest
  | '\'' :: '\'' :: '\'' :: rest => multilineLiteral? (dropLineEnd rest)
  | '\'' :: rest => literal? rest
  | _ => none

end AgentScript.Toml
