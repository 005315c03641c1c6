import AgentScript.Json.Basic

/-!
Reading the text of a unit file as a value. Only the grammar is checked here: how deep a value may
be nested, and which numbers and strings are in range, depends on what is read from it.
-/
namespace AgentScript.Json

def isBlank (c : Char) : Bool := c == ' ' || c == '\n' || c == '\t' || c == '\r'

def skipBlank (cs : List Char) : List Char := cs.dropWhile isBlank

def hexValue? (c : Char) : Option Nat :=
  if '0' ≤ c ∧ c ≤ '9' then some (c.toNat - '0'.toNat)
  else if 'a' ≤ c ∧ c ≤ 'f' then some (c.toNat - 'a'.toNat + 10)
  else if 'A' ≤ c ∧ c ≤ 'F' then some (c.toNat - 'A'.toNat + 10)
  else none

def hexUnit? (a b c d : Char) : Option Nat := do
  return ((← hexValue? a) * 16 + (← hexValue? b)) * 256 + ((← hexValue? c) * 16 + (← hexValue? d))

/-- A character of a string: itself, or a sixteen bit unit given by an escape. -/
inductive StringUnit where
  | char (c : Char)
  | code (n : Nat)

def simpleEscape? : Char → Option Char
  | '"' => some '"'
  | '\\' => some '\\'
  | '/' => some '/'
  | 'b' => some '\x08'
  | 'f' => some '\x0c'
  | 'n' => some '\n'
  | 'r' => some '\r'
  | 't' => some '\t'
  | _ => none

/-- The units of a string up to its closing quote, and the rest of the text. -/
def stringUnits? : List Char → Option (List StringUnit × List Char)
  | [] => none
  | '"' :: rest => some ([], rest)
  | '\\' :: 'u' :: a :: b :: c :: d :: rest => do
    let n ← hexUnit? a b c d
    let (units, rest) ← stringUnits? rest
    return (.code n :: units, rest)
  | '\\' :: e :: rest => do
    let c ← simpleEscape? e
    let (units, rest) ← stringUnits? rest
    return (.char c :: units, rest)
  | c :: rest =>
    if c.toNat < 32 ∨ c = '\\' then none
    else do
      let (units, rest) ← stringUnits? rest
      return (.char c :: units, rest)

def isHighSurrogate (n : Nat) : Bool := 0xD800 ≤ n && n < 0xDC00

def isLowSurrogate (n : Nat) : Bool := 0xDC00 ≤ n && n < 0xE000

/-- The characters that the units spell, unless half of a surrogate pair stands alone. -/
def decodeUnits? : List StringUnit → Option (List Char)
  | [] => some []
  | .char c :: rest => (decodeUnits? rest).map (c :: ·)
  | .code n :: .code m :: rest =>
    if isHighSurrogate n then
      if isLowSurrogate m then
        (decodeUnits? rest).map (Char.ofNat (0x10000 + (n - 0xD800) * 0x400 + (m - 0xDC00)) :: ·)
      else none
    else if isLowSurrogate n then none
    else (decodeUnits? (.code m :: rest)).map (Char.ofNat n :: ·)
  | .code n :: rest =>
    if isHighSurrogate n || isLowSurrogate n then none
    else (decodeUnits? rest).map (Char.ofNat n :: ·)

def parseString? (cs : List Char) : Option (Option String × List Char) :=
  (stringUnits? cs).map fun (units, rest) => ((decodeUnits? units).map String.ofList, rest)

def takeDigits (cs : List Char) : List Char × List Char :=
  (cs.takeWhile Char.isDigit, cs.dropWhile Char.isDigit)

def wholePart? (cs : List Char) : Option (List Char × List Char) :=
  match cs with
  | '0' :: rest => match rest with
    | c :: _ => if c.isDigit then none else some (['0'], rest)
    | [] => some (['0'], [])
  | _ => match takeDigits cs with
    | ([], _) => none
    | (digits, rest) => some (digits, rest)

def fractionPart? : List Char → Option (List Char × List Char)
  | '.' :: rest => match takeDigits rest with
    | ([], _) => none
    | (digits, rest) => some ('.' :: digits, rest)
  | rest => some ([], rest)

def exponentDigits? (head : List Char) (cs : List Char) : Option (List Char × List Char) :=
  match takeDigits cs with
  | ([], _) => none
  | (digits, rest) => some (head ++ digits, rest)

def exponentPart? : List Char → Option (List Char × List Char)
  | e :: cs =>
    if e = 'e' ∨ e = 'E' then
      match cs with
      | '+' :: rest => exponentDigits? [e, '+'] rest
      | '-' :: rest => exponentDigits? [e, '-'] rest
      | rest => exponentDigits? [e] rest
    else some ([], e :: cs)
  | [] => some ([], [])

def unsignedNumber? (cs : List Char) : Option (List Char × List Char) := do
  let (whole, rest) ← wholePart? cs
  let (fraction, rest) ← fractionPart? rest
  let (exponent, rest) ← exponentPart? rest
  return (whole ++ fraction ++ exponent, rest)

def parseNumber? (cs : List Char) : Option (Json × List Char) :=
  match cs with
  | '-' :: cs => (unsignedNumber? cs).map fun (token, rest) =>
    (.number (String.ofList ('-' :: token)), rest)
  | cs => (unsignedNumber? cs).map fun (token, rest) => (.number (String.ofList token), rest)

mutual
def parseValue? : (fuel : Nat) → List Char → Option (Json × List Char)
  | 0, _ => none
  | fuel + 1, cs =>
    match skipBlank cs with
    | 'n' :: 'u' :: 'l' :: 'l' :: rest => some (.null, rest)
    | 't' :: 'r' :: 'u' :: 'e' :: rest => some (.bool true, rest)
    | 'f' :: 'a' :: 'l' :: 's' :: 'e' :: rest => some (.bool false, rest)
    | '"' :: rest => (parseString? rest).map fun (s, rest) => (.string s, rest)
    | '[' :: rest => match skipBlank rest with
      | ']' :: rest => some (.array [], rest)
      | rest => (parseItems? fuel rest).map fun (items, rest) => (.array items, rest)
    | '{' :: rest => match skipBlank rest with
      | '}' :: rest => some (.object [], rest)
      | rest => (parseFields? fuel rest).map fun (fs, rest) => (.object fs, rest)
    | rest => parseNumber? rest
def parseItems? : (fuel : Nat) → List Char → Option (List Json × List Char)
  | 0, _ => none
  | fuel + 1, cs => do
    let (item, rest) ← parseValue? fuel cs
    match skipBlank rest with
    | ']' :: rest => return ([item], rest)
    | ',' :: rest =>
      let (items, rest) ← parseItems? fuel rest
      return (item :: items, rest)
    | _ => none
def parseFields? : (fuel : Nat) → List Char → Option (List (Option String × Json) × List Char)
  | 0, _ => none
  | fuel + 1, cs =>
    match skipBlank cs with
    | '"' :: rest => do
      let (key, rest) ← parseString? rest
      match skipBlank rest with
      | ':' :: rest =>
        let (value, rest) ← parseValue? fuel rest
        match skipBlank rest with
        | '}' :: rest => return ([(key, value)], rest)
        | ',' :: rest =>
          let (fs, rest) ← parseFields? fuel rest
          return ((key, value) :: fs, rest)
        | _ => none
      | _ => none
    | _ => none
end

/-- Each bracket and each item takes one step of the parser. -/
def parseFuel (cs : List Char) : Nat := 2 * cs.length + 2

/-- The value that a text is, with nothing but blanks around it. -/
def parse? (s : String) : Option Json := do
  let cs := s.toList
  let (value, rest) ← parseValue? (parseFuel cs) cs
  if skipBlank rest = [] then return value else none

end AgentScript.Json
