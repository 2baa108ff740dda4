import ClassCollapse.Json.Value

/-!
# Writing JSON

The spaced form puts each item and member on a line of its own, two spaces deeper than the brackets
around it; lists and objects without contents are a pair of brackets. The compact form has no
blanks.
-/

namespace ClassCollapse.Json

def quoted (body : List Char) : List Char :=
  '"' :: (body ++ ['"'])

/-- A line feed and the blanks in front of the next line. -/
def newLine (depth : Nat) : List Char :=
  '\n' :: List.replicate (2 * depth) ' '

def boolName (b : Bool) : List Char :=
  if b then ['t', 'r', 'u', 'e'] else ['f', 'a', 'l', 's', 'e']

mutual

/-- The spaced form of a value whose brackets stand at a depth. -/
def spaced (depth : Nat) : Json → List Char
  | .null => ['n', 'u', 'l', 'l']
  | .bool b => boolName b
  | .number literal => literal
  | .string body => quoted body
  | .list [] => ['[', ']']
  | .list (item :: items) =>
    '[' :: (newLine (depth + 1) ++ spaced (depth + 1) item ++ spacedItems (depth + 1) items ++
      newLine depth ++ [']'])
  | .object [] => ['{', '}']
  | .object ((key, value) :: members) =>
    '{' :: (newLine (depth + 1) ++ quoted key ++ [':', ' '] ++ spaced (depth + 1) value ++
      spacedMembers (depth + 1) members ++ newLine depth ++ ['}'])

/-- The further items of a list. -/
def spacedItems (depth : Nat) : List Json → List Char
  | [] => []
  | item :: items => ',' :: (newLine depth ++ spaced depth item ++ spacedItems depth items)

def spacedMembers (depth : Nat) : List (List Char × Json) → List Char
  | [] => []
  | (key, value) :: members =>
    ',' :: (newLine depth ++ quoted key ++ [':', ' '] ++ spaced depth value ++
      spacedMembers depth members)

end

def pretty (value : Json) : String :=
  String.ofList (spaced 0 value)

mutual

/-- The compact form of a value. -/
def packed : Json → List Char
  | .null => ['n', 'u', 'l', 'l']
  | .bool b => boolName b
  | .number literal => literal
  | .string body => quoted body
  | .list [] => ['[', ']']
  | .list (item :: items) => '[' :: (packed item ++ packedItems items ++ [']'])
  | .object [] => ['{', '}']
  | .object ((key, value) :: members) =>
    '{' :: (quoted key ++ ':' :: packed value ++ packedMembers members ++ ['}'])

def packedItems : List Json → List Char
  | [] => []
  | item :: items => ',' :: (packed item ++ packedItems items)

def packedMembers : List (List Char × Json) → List Char
  | [] => []
  | (key, value) :: members => ',' :: (quoted key ++ ':' :: packed value ++ packedMembers members)

end

def compact (value : Json) : String :=
  String.ofList (packed value)

end ClassCollapse.Json
