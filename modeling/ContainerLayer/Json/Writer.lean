/-
Writing JSON: texts, arrays and objects out of values that are already written.
-/

namespace ContainerLayer
namespace JsonText

def escape (c : Char) : List Char :=
  if c = '"' || c = '\\' then ['\\', c]
  else if c = '\x08' then ['\\', 'b']
  else if c = '\x0c' then ['\\', 'f']
  else if c = '\n' then ['\\', 'n']
  else if c = '\r' then ['\\', 'r']
  else if c = '\t' then ['\\', 't']
  else if c < ' ' then
    ['\\', 'u', '0', '0', Nat.digitChar (c.toNat / 16), Nat.digitChar (c.toNat % 16)]
  else [c]

def quote (s : String) : String := String.ofList ('"' :: (s.toList.flatMap escape ++ ['"']))

def array (items : List String) : String := "[" ++ String.intercalate "," items ++ "]"

def object (fields : List (String × String)) : String :=
  "\x7b" ++ String.intercalate "," (fields.map fun f => quote f.1 ++ ":" ++ f.2) ++ "\x7d"

/-- An object with a line for each of its fields. -/
def lines (fields : List (String × String)) : String :=
  "\x7b\n" ++ String.intercalate ",\n" (fields.map fun f => "  " ++ quote f.1 ++ ": " ++ f.2)
    ++ "\n\x7d"

end JsonText
end ContainerLayer
