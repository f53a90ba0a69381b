import GuardedRevision.Toml.Item
import GuardedRevision.Toml.Scalar

/-!
# Reading TOML

`Toml.read?` reads a document of TOML 1.0, or nothing. A reader takes what it reads from the front of
the text and hands on the rest. Values nest, and keys go on, only so deep.
-/

namespace GuardedRevision.Toml

abbrev Reader (α : Type) := List Char → Option (α × List Char)

def isBlank (c : Char) : Bool := c == ' ' || c == '\t'

def isPrintable (c : Char) : Bool := c == '\t' || (' ' ≤ c && c != '\x7f')

def isBareKey (c : Char) : Bool := c.isAlphanum || c == '_' || c == '-'

def skipBlanks (text : List Char) : List Char := text.dropWhile isBlank

def lineEnd? : List Char → Option (List Char)
  | '\n' :: rest => some rest
  | '\r' :: '\n' :: rest => some rest
  | _ => none

def skipComment (text : List Char) : List Char :=
  match text with
  | '#' :: rest => rest.dropWhile isPrintable
  | _ => text

/-- Ends a statement: blanks, a comment, and the line end or the end of the text. -/
def statementEnd? (text : List Char) : Option (List Char) :=
  match skipComment (skipBlanks text) with
  | [] => some []
  | rest => lineEnd? rest

/-- Skips blanks, comments and line ends. In a comment, all but line ends is skipped that may stand
there. -/
def skipSpaceFrom (inComment : Bool) : List Char → List Char
  | [] => []
  | '\n' :: rest => skipSpaceFrom false rest
  | '\r' :: '\n' :: rest => skipSpaceFrom false rest
  | c :: rest =>
      if inComment && isPrintable c then skipSpaceFrom true rest
      else if !inComment && isBlank c then skipSpaceFrom false rest
      else if !inComment && c == '#' then skipSpaceFrom true rest
      else c :: rest

def skipSpace (text : List Char) : List Char := skipSpaceFrom false text

def skipBlankLines : List Char → List Char
  | [] => []
  | '\n' :: rest => skipBlankLines rest
  | '\r' :: '\n' :: rest => skipBlankLines rest
  | c :: rest => if isBlank c then skipBlankLines rest else c :: rest

def hexChar? (digits : List Char) : Option Char :=
  let n := Scalar.valueIn 16 digits
  if digits.all Scalar.isHex && (n < 0xd800 || (0xdfff < n && n < 0x110000)) then
    some (Char.ofNat n)
  else
    none

def escape? : Reader Char
  | 'b' :: rest => some ('\x08', rest)
  | 't' :: rest => some ('\t', rest)
  | 'n' :: rest => some ('\n', rest)
  | 'f' :: rest => some ('\x0c', rest)
  | 'r' :: rest => some ('\r', rest)
  | '"' :: rest => some ('"', rest)
  | '\\' :: rest => some ('\\', rest)
  | 'u' :: rest =>
      if (rest.take 4).length = 4 then (hexChar? (rest.take 4)).map (·, rest.drop 4) else none
  | 'U' :: rest =>
      if (rest.take 8).length = 8 then (hexChar? (rest.take 8)).map (·, rest.drop 8) else none
  | _ => none

def basic? : Nat → Reader (List Char)
  | 0, _ => none
  | steps + 1, text =>
      match text with
      | '"' :: rest => some ([], rest)
      | '\\' :: rest => do
          let (c, rest) ← escape? rest
          let (chars, rest) ← basic? steps rest
          return (c :: chars, rest)
      | c :: rest =>
          if isPrintable c then do
            let (chars, rest) ← basic? steps rest
            return (c :: chars, rest)
          else
            none
      | [] => none

def literal? (text : List Char) : Option (List Char × List Char) :=
  let chars := text.takeWhile fun c => isPrintable c && c != '\''
  match text.drop chars.length with
  | '\'' :: rest => some (chars, rest)
  | _ => none

/-- The end of a string in triple quotes. Up to two quotes before the end belong to the string. -/
def closing? (quote : Char) (text : List Char) : Option (List Char × List Char) :=
  let count := ((text.take 5).takeWhile (· == quote)).length
  if count < 3 then none else some (List.replicate (count - 3) quote, text.drop count)

/-- A string in triple double quotes. A backslash at the end of a line joins it to the next text. -/
def multiBasic? : Nat → Reader (List Char)
  | 0, _ => none
  | steps + 1, text =>
      match closing? '"' text with
      | some found => some found
      | none =>
          match lineEnd? text with
          | some rest => do
              let (chars, rest) ← multiBasic? steps rest
              return ('\n' :: chars, rest)
          | none =>
              match text with
              | '\\' :: rest =>
                  match lineEnd? (skipBlanks rest) with
                  | some later => multiBasic? steps (skipBlankLines later)
                  | none => do
                      let (c, rest) ← escape? rest
                      let (chars, rest) ← multiBasic? steps rest
                      return (c :: chars, rest)
              | c :: rest =>
                  if isPrintable c then do
                    let (chars, rest) ← multiBasic? steps rest
                    return (c :: chars, rest)
                  else
                    none
              | [] => none

def multiLiteral? : Nat → Reader (List Char)
  | 0, _ => none
  | steps + 1, text =>
      match closing? '\'' text with
      | some found => some found
      | none =>
          match lineEnd? text with
          | some rest => do
              let (chars, rest) ← multiLiteral? steps rest
              return ('\n' :: chars, rest)
          | none =>
              match text with
              | c :: rest =>
                  if isPrintable c then do
                    let (chars, rest) ← multiLiteral? steps rest
                    return (c :: chars, rest)
                  else
                    none
              | [] => none

/-- A line end right after the opening quotes does not belong to the string. -/
def skipLineEnd (text : List Char) : List Char := (lineEnd? text).getD text

def string? : Reader (List Char)
  | '"' :: '"' :: '"' :: rest => multiBasic? (rest.length + 1) (skipLineEnd rest)
  | '\'' :: '\'' :: '\'' :: rest => multiLiteral? (rest.length + 1) (skipLineEnd rest)
  | '"' :: rest => basic? (rest.length + 1) rest
  | '\'' :: rest => literal? rest
  | _ => none

def simpleKey? : Reader String
  | '"' :: rest => (basic? (rest.length + 1) rest).map fun (chars, rest) => (String.ofList chars, rest)
  | '\'' :: rest => (literal? rest).map fun (chars, rest) => (String.ofList chars, rest)
  | text =>
      let chars := text.takeWhile isBareKey
      if chars.isEmpty then none else some (String.ofList chars, text.drop chars.length)

/-- Keys with dots between them, and blanks around each. -/
def key? : Nat → Reader (List String)
  | 0, _ => none
  | steps + 1, text => do
      let (first, rest) ← simpleKey? (skipBlanks text)
      match skipBlanks rest with
      | '.' :: rest => do
          let (later, rest) ← key? steps rest
          return (first :: later, rest)
      | rest => return ([first], rest)

/-- The most parts in a key, and the most arrays and tables in braces around a value. -/
def maxDepth : Nat := 79

def dottedKey? (text : List Char) : Option (List String × List Char) := do
  let (path, rest) ← key? (text.length + 1) text
  if path.length ≤ maxDepth then return (path, rest) else none

def isTokenChar (c : Char) : Bool :=
  c.isAlphanum || c == '_' || c == '+' || c == '-' || c == '.' || c == ':'

/-- The token at the front of a text. A date goes on after one space when a digit follows. -/
def token (text : List Char) : List Char :=
  let first := text.takeWhile isTokenChar
  match text.drop first.length with
  | ' ' :: c :: rest =>
      if Scalar.isDate first && c.isDigit then
        first ++ ' ' :: (c :: rest).takeWhile isTokenChar
      else
        first
  | _ => first

def scalar? (text : List Char) : Option (Item × List Char) :=
  let chars := token text
  let rest := text.drop chars.length
  if chars = "true".toList then some (.boolean true, rest)
  else if chars = "false".toList then some (.boolean false, rest)
  else if Scalar.isDateTime chars then some (.dateTime (String.ofList chars), rest)
  else if Scalar.isFloat chars then some (.float (String.ofList chars), rest)
  else (Scalar.integer? chars).map fun n => (.integer n, rest)

mutual

/-- A value; `steps` bounds how many values and parts of values are read, `depth` how deep they nest. -/
def value? : Nat → Nat → Reader Item
  | 0, _, _ => none
  | steps + 1, depth, text =>
      match text with
      | '[' :: rest =>
          match depth with
          | 0 => none
          | depth + 1 =>
              (items? steps depth (skipSpace rest)).map fun (items, rest) => (.array items, rest)
      | '{' :: rest =>
          match depth, skipBlanks rest with
          | 0, _ => none
          | _, '}' :: rest => some (.table .inline [], rest)
          | depth + 1, _ =>
              (pairs? steps depth [] rest).map fun (entries, rest) => (.table .inline entries, rest)
      | '"' :: _ => (string? text).map fun (chars, rest) => (.string (String.ofList chars), rest)
      | '\'' :: _ => (string? text).map fun (chars, rest) => (.string (String.ofList chars), rest)
      | _ => scalar? text

/-- The items of an array up to its closing bracket; a comma may stand after the last one. -/
def items? : Nat → Nat → Reader (List Item)
  | 0, _, _ => none
  | steps + 1, depth, text =>
      match text with
      | ']' :: rest => some ([], rest)
      | _ => do
          let (item, rest) ← value? steps depth text
          match skipSpace rest with
          | ',' :: rest => do
              let (later, rest) ← items? steps depth (skipSpace rest)
              return (item :: later, rest)
          | ']' :: rest => return ([item], rest)
          | _ => none

/-- The pairs of a table in braces up to the closing one, all on one line. -/
def pairs? : Nat → Nat → Entries → Reader Entries
  | 0, _, _, _ => none
  | steps + 1, depth, entries, text => do
      let (path, rest) ← dottedKey? text
      let key ← path.getLast?
      match rest with
      | '=' :: rest => do
          let (item, rest) ← value? steps depth (skipBlanks rest)
          let entries ← entries.addInline path.dropLast key item
          match skipBlanks rest with
          | ',' :: rest => pairs? steps depth entries rest
          | '}' :: rest => return (entries, rest)
          | _ => none
      | _ => none

end

structure Draft where
  entries : Entries
  header : List String

def Draft.header? (draft : Draft) : Reader Draft
  | '[' :: '[' :: rest => do
      let (path, rest) ← dottedKey? rest
      match rest with
      | ']' :: ']' :: rest => do
          let entries ← draft.entries.openArrayTable path.dropLast (← path.getLast?)
          return (⟨entries, path⟩, ← statementEnd? rest)
      | _ => none
  | '[' :: rest => do
      let (path, rest) ← dottedKey? rest
      match rest with
      | ']' :: rest => do
          let entries ← draft.entries.openTable path.dropLast (← path.getLast?)
          return (⟨entries, path⟩, ← statementEnd? rest)
      | _ => none
  | _ => none

def Draft.pair? (draft : Draft) : Reader Draft
  | text => do
      let (path, rest) ← dottedKey? text
      match rest with
      | '=' :: rest => do
          let (item, rest) ← value? (rest.length + 1) maxDepth (skipBlanks rest)
          let rest ← statementEnd? rest
          let entries ←
            draft.entries.addUnder draft.header path.dropLast (← path.getLast?) item
          return (⟨entries, draft.header⟩, rest)
      | _ => none

def Draft.finish? : Nat → Draft → List Char → Option Entries
  | 0, _, _ => none
  | steps + 1, draft, text =>
      match skipBlanks text with
      | [] => some draft.entries
      | '#' :: rest => (statementEnd? ('#' :: rest)).bind (finish? steps draft)
      | '[' :: rest => do
          let (draft, rest) ← draft.header? ('[' :: rest)
          finish? steps draft rest
      | text =>
          match lineEnd? text with
          | some rest => finish? steps draft rest
          | none => do
              let (draft, rest) ← draft.pair? text
              finish? steps draft rest

/-- The entries of a document. A byte order mark in front of it does not count. -/
def read? (text : String) : Option Entries :=
  let chars := match text.toList with
    | '\ufeff' :: rest => rest
    | chars => chars
  Draft.finish? (chars.length + 1) ⟨[], []⟩ chars

end GuardedRevision.Toml
