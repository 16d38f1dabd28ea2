import StackEscape.Json.Basic
import StackEscape.Text

/-!
# Writing JSON

`Json.pretty` writes a value over several lines, every element and member on its own, indented by
two spaces. Only what JSON does not allow in strings is escaped.
-/

namespace StackEscape.Json

def escape (n : Nat) : List Char :=
  if n = 0x22 then ['\\', '"']
  else if n = 0x5C then ['\\', '\\']
  else if n = 0x08 then ['\\', 'b']
  else if n = 0x09 then ['\\', 't']
  else if n = 0x0A then ['\\', 'n']
  else if n = 0x0C then ['\\', 'f']
  else if n = 0x0D then ['\\', 'r']
  else if n < 0x20 ∨ ¬ n.isValidChar then '\\' :: 'u' :: Text.hexDigits 4 n
  else [Char.ofNat n]

def quote (points : List Nat) : List Char := '"' :: points.flatMap escape ++ ['"']

def newLine (depth : Nat) : List Char := '\n' :: List.replicate (2 * depth) ' '

mutual

/-- A value whose first line is indented to a depth already. -/
def pretty (depth : Nat) : Json → List Char
  | .null => "null".toList
  | .bool true => "true".toList
  | .bool false => "false".toList
  | .number literal => literal
  | .string points => quote points
  | .array [] => ['[', ']']
  | .array (e :: es) =>
    '[' :: newLine (depth + 1) ++ pretty (depth + 1) e ++ prettyElements (depth + 1) es
      ++ newLine depth ++ [']']
  | .object [] => ['\x7b', '\x7d']
  | .object ((name, value) :: ms) =>
    '\x7b' :: newLine (depth + 1) ++ quote name ++ [':', ' '] ++ pretty (depth + 1) value
      ++ prettyMembers (depth + 1) ms ++ newLine depth ++ ['\x7d']

def prettyElements (depth : Nat) : List Json → List Char
  | [] => []
  | e :: es => ',' :: newLine depth ++ pretty depth e ++ prettyElements depth es

def prettyMembers (depth : Nat) : List (List Nat × Json) → List Char
  | [] => []
  | (name, value) :: ms =>
    ',' :: newLine depth ++ quote name ++ [':', ' '] ++ pretty depth value
      ++ prettyMembers depth ms

end

def toText (v : Json) : String := String.ofList (v.pretty 0)

end StackEscape.Json
