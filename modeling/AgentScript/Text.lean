/-!
Pieces of text that every rendered form shares: decimal numbers, slot numbers, and the two tests on
text that code generation and error messages rely on.
-/
namespace AgentScript.Text

def nat (n : Nat) : String := n.repr

def int : Int → String
  | .ofNat n => nat n
  | .negSucc n => "-" ++ nat (n + 1)

/-- Slot numbers have at least two digits. -/
def twoDigits (n : Nat) : String :=
  if n < 10 then "0" ++ nat n else nat n

def words (parts : List String) : String := " ".intercalate parts

def suffixes : List α → List (List α)
  | [] => [[]]
  | a :: rest => (a :: rest) :: suffixes rest

def occursIn (needle text : String) : Bool :=
  (suffixes text.toList).any needle.toList.isPrefixOf

def isWordChar (c : Char) : Bool := c.isAlphanum || c == '_'

/-- The run of letters, digits and underscores that `text` begins with. -/
def leadingWord (text : String) : String :=
  String.ofList (text.toList.takeWhile isWordChar)

end AgentScript.Text
