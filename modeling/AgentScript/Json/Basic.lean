import AgentScript.Text

/-!
Values of the format that unit files are written in, and their two written forms. A number is kept
as it is written, and the fields of an object in their order, repeated ones included.
-/
namespace AgentScript

inductive Json where
  | null
  | bool (b : Bool)
  | number (token : String)
  /-- There is no text when an escape names half of a surrogate pair. -/
  | string (text : Option String)
  | array (items : List Json)
  | object (fields : List (Option String × Json))

namespace Json

def text (s : String) : Json := string (some s)

def int (n : Int) : Json := number (Text.int n)

def nat (n : Nat) : Json := int n

def fields (fs : List (String × Json)) : Json :=
  object (fs.map fun f => (some f.1, f.2))

/-- An object with one field, whose name tells what its content is. -/
def tagged (tag : String) (content : Json) : Json := fields [(tag, content)]

def orNull (write : α → Json) : Option α → Json
  | none => null
  | some a => write a

/-! ### Written forms -/

def hexDigit (n : Nat) : Char := (Nat.toDigits 16 n).headD '0'

def escapeChar (c : Char) : List Char :=
  if c = '"' then ['\\', '"']
  else if c = '\\' then ['\\', '\\']
  else if c = '\x08' then ['\\', 'b']
  else if c = '\x0c' then ['\\', 'f']
  else if c = '\n' then ['\\', 'n']
  else if c = '\r' then ['\\', 'r']
  else if c = '\t' then ['\\', 't']
  else if c.toNat < 32 then
    ['\\', 'u', '0', '0', hexDigit (c.toNat / 16), hexDigit (c.toNat % 16)]
  else [c]

def quote (s : List Char) : List Char := '"' :: s.flatMap escapeChar ++ ['"']

def quoteText (s : Option String) : List Char := quote (s.getD "").toList

def newline (level : Nat) : List Char := '\n' :: List.replicate (2 * level) ' '

mutual
def prettyAt (level : Nat) : Json → List Char
  | null => "null".toList
  | bool b => (if b then "true" else "false").toList
  | number token => token.toList
  | string s => quoteText s
  | array [] => ['[', ']']
  | array (item :: items) =>
    '[' :: newline (level + 1) ++ prettyAt (level + 1) item ++ prettyItems (level + 1) items ++
      newline level ++ [']']
  | object [] => ['{', '}']
  | object (field :: fs) =>
    '{' :: newline (level + 1) ++ prettyField (level + 1) field ++ prettyFields (level + 1) fs ++
      newline level ++ ['}']
def prettyItems (level : Nat) : List Json → List Char
  | [] => []
  | item :: items => ',' :: newline level ++ prettyAt level item ++ prettyItems level items
def prettyField (level : Nat) : Option String × Json → List Char
  | (key, value) => quoteText key ++ [':', ' '] ++ prettyAt level value
def prettyFields (level : Nat) : List (Option String × Json) → List Char
  | [] => []
  | field :: fs => ',' :: newline level ++ prettyField level field ++ prettyFields level fs
end

mutual
def compactChars : Json → List Char
  | null => "null".toList
  | bool b => (if b then "true" else "false").toList
  | number token => token.toList
  | string s => quoteText s
  | array [] => ['[', ']']
  | array (item :: items) => '[' :: compactChars item ++ compactItems items ++ [']']
  | object [] => ['{', '}']
  | object (field :: fs) => '{' :: compactField field ++ compactFields fs ++ ['}']
def compactItems : List Json → List Char
  | [] => []
  | item :: items => ',' :: compactChars item ++ compactItems items
def compactField : Option String × Json → List Char
  | (key, value) => quoteText key ++ ':' :: compactChars value
def compactFields : List (Option String × Json) → List Char
  | [] => []
  | field :: fs => ',' :: compactField field ++ compactFields fs
end

def pretty (j : Json) : String := String.ofList (prettyAt 0 j)

def compact (j : Json) : String := String.ofList (compactChars j)

end Json

end AgentScript
