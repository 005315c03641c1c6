/-!
Quoted text in scripts. A backslash introduces the escape of a character that cannot stand for
itself inside the quotes.
-/
namespace AgentScript.Quoted

def escape : Char → List Char
  | '\\' => ['\\', '\\']
  | '"' => ['\\', '"']
  | '\r' => ['\\', 'r']
  | '\n' => ['\\', 'n']
  | '\t' => ['\\', 't']
  | '\x00' => ['\\', '0']
  | c => [c]

def encode (s : List Char) : List Char := s.flatMap escape

def text (s : String) : String :=
  String.ofList ('"' :: encode s.toList ++ ['"'])

end AgentScript.Quoted
