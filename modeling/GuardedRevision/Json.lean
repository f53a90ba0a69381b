/-!
# JSON texts

Values and their text, one item a line and two spaces for each level. Fields keep their order.
-/

namespace GuardedRevision

inductive Json where
  | null
  | number (n : Int)
  | string (text : String)
  | list (items : List Json)
  | record (fields : List (String × Json))

namespace Json

def hexDigit (n : Nat) : Char := (Nat.toDigits 16 n).headD '0'

/-- A character inside a string. Only quotes, backslashes and control characters below space are
written in another form. -/
def escaped (c : Char) : List Char :=
  if c = '"' then ['\\', '"']
  else if c = '\\' then ['\\', '\\']
  else if c = '\x08' then ['\\', 'b']
  else if c = '\x0c' then ['\\', 'f']
  else if c = '\n' then ['\\', 'n']
  else if c = '\r' then ['\\', 'r']
  else if c = '\t' then ['\\', 't']
  else if c < ' ' then ['\\', 'u', '0', '0', hexDigit (c.toNat / 16), hexDigit (c.toNat % 16)]
  else [c]

def quoted (text : String) : String :=
  String.ofList ('"' :: text.toList.flatMap escaped ++ ['"'])

def line (level : Nat) : String := String.ofList ('\n' :: List.replicate (2 * level) ' ')

mutual

def textAt (level : Nat) : Json → String
  | .null => "null"
  | .number n => toString n
  | .string text => quoted text
  | .list [] => "[]"
  | .list (item :: rest) =>
      "[" ++ line (level + 1) ++ textAt (level + 1) item ++ itemsAt (level + 1) rest ++
        line level ++ "]"
  | .record [] => "\x7b\x7d"
  | .record (field :: rest) =>
      "\x7b" ++ line (level + 1) ++ fieldAt (level + 1) field ++ fieldsAt (level + 1) rest ++
        line level ++ "\x7d"

def itemsAt (level : Nat) : List Json → String
  | [] => ""
  | item :: rest => "," ++ line level ++ textAt level item ++ itemsAt level rest

def fieldAt (level : Nat) : String × Json → String
  | (key, value) => quoted key ++ ": " ++ textAt level value

def fieldsAt (level : Nat) : List (String × Json) → String
  | [] => ""
  | field :: rest => "," ++ line level ++ fieldAt level field ++ fieldsAt level rest

end

def text (value : Json) : String := textAt 0 value

def ofOption {α : Type} (json : α → Json) : Option α → Json
  | none => .null
  | some a => json a

end Json

end GuardedRevision
