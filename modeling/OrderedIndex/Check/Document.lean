/-
  OrderedIndex/Check/Document.lean
  ================================
  **JSON documents** and their text, indented by two spaces a level.
-/
import OrderedIndex.Hex

namespace OrderedIndex

/-- A JSON document. -/
inductive Document
  | bool (b : Bool)
  | number (n : Int)
  | text (s : String)
  | list (items : List Document)
  | record (fields : List (String × Document))

namespace Document

/-- A character inside a JSON string: quotes, backslashes and control characters are escaped. -/
def renderChar (c : Char) : String :=
  if c = '"' then "\\\""
  else if c = '\\' then "\\\\"
  else if c = '\n' then "\\n"
  else if c = '\r' then "\\r"
  else if c = '\t' then "\\t"
  else if c = '\x08' then "\\b"
  else if c = '\x0c' then "\\f"
  else if c.toNat < 32 then "\\u00" ++ String.ofList (Hex.ofByte c.toUInt8)
  else c.toString

def renderText (s : String) : String := "\"" ++ String.join (s.toList.map renderChar) ++ "\""

/-- The beginning of a line at a depth, two spaces a level. -/
def newLine (depth : Nat) : String := "\n" ++ String.ofList (List.replicate (2 * depth) ' ')

/-- Items between brackets, each on a line of its own. -/
def renderBlock (depth : Nat) (left right : String) (items : List String) : String :=
  if items.isEmpty then left ++ right
  else
    left ++ newLine (depth + 1) ++ ("," ++ newLine (depth + 1)).intercalate items ++
      newLine depth ++ right

mutual

/-- The text of a document whose first line is indented by `depth` levels. -/
def render (depth : Nat) : Document → String
  | bool true => "true"
  | bool false => "false"
  | number n => toString n
  | text s => renderText s
  | list items => renderBlock depth "[" "]" (renderItems (depth + 1) items)
  | record fields => renderBlock depth "\x7b" "\x7d" (renderFields (depth + 1) fields)

def renderItems (depth : Nat) : List Document → List String
  | [] => []
  | item :: items => render depth item :: renderItems depth items

def renderFields (depth : Nat) : List (String × Document) → List String
  | [] => []
  | (name, field) :: fields =>
    (renderText name ++ ": " ++ render depth field) :: renderFields depth fields

end

end Document

end OrderedIndex
