/-!
# Quoted text

The inside of a quoted string in the DOT language.  `Dot.escape` writes any text so
that no character of it ends the string: quotes, backslashes and angle brackets get a
backslash, a line feed is written with the letter `n`, and carriage returns are left out.
-/

namespace ContractCalls
namespace Dot

/-- A character inside a quoted string. -/
def escapeChar : Char → List Char
  | '\\' => ['\\', '\\']
  | '"' => ['\\', '"']
  | '<' => ['\\', '<']
  | '>' => ['\\', '>']
  | '\n' => ['\\', 'n']
  | '\r' => []
  | c => [c]

def escapeChars (cs : List Char) : List Char := cs.flatMap escapeChar

/-- A text inside a quoted string. -/
def escape (s : String) : String := .ofList (escapeChars s.toList)

end Dot
end ContractCalls
