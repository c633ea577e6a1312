import BatchFlow.Json

/-!
# The text of a JSON value

Both layouts come from one function, `Json.write`: they differ only in what stands between the
parts of a container and after a key, so a statement about reading back is made once for both.
Quoting goes character by character, which lets a proof about a text go by induction on it.
-/

namespace BatchFlow
namespace Json

/-- A lower-case hexadecimal digit. -/
def hexDigit (n : Nat) : Char :=
  if n < 10 then Char.ofNat ('0'.toNat + n) else Char.ofNat ('a'.toNat + (n - 10))

/-- A character inside quotes. Only the quote, the backslash and the control characters below the
blank need an escape; the other characters stand for themselves. -/
def escape (c : Char) : List Char :=
  if c = '"' then ['\\', '"']
  else if c = '\\' then ['\\', '\\']
  else if c = '\x08' then ['\\', 'b']
  else if c = '\x0c' then ['\\', 'f']
  else if c = '\n' then ['\\', 'n']
  else if c = '\r' then ['\\', 'r']
  else if c = '\t' then ['\\', 't']
  else if c.toNat < 32 then ['\\', 'u', '0', '0', hexDigit (c.toNat / 16), hexDigit (c.toNat % 16)]
  else [c]

def quote (text : String) : List Char :=
  '"' :: text.toList.flatMap escape ++ ['"']

/-- How a container is laid out: on one line, or one entry to a line. -/
inductive Layout where
  | compact
  | indented
  deriving DecidableEq

/-- What stands before an entry, and before the closing bracket, at a depth. -/
def Layout.gap : Layout → Nat → List Char
  | compact, _ => []
  | indented, depth => '\n' :: List.replicate (2 * depth) ' '

def Layout.colon : Layout → List Char
  | compact => [':']
  | indented => [':', ' ']

/-- A container around entries that are already written. Without entries both layouts agree. -/
def enclose (layout : Layout) (depth : Nat) (opening closing : Char) :
    List (List Char) → List Char
  | [] => [opening, closing]
  | first :: rest =>
      opening :: (layout.gap (depth + 1) ++ first ++
        rest.flatMap (fun entry => ',' :: layout.gap (depth + 1) ++ entry) ++
        layout.gap depth ++ [closing])

mutual

/-- The characters of a value that stands at a depth. -/
def write (layout : Layout) (depth : Nat) : Json → List Char
  | null => ['n', 'u', 'l', 'l']
  | bool true => ['t', 'r', 'u', 'e']
  | bool false => ['f', 'a', 'l', 's', 'e']
  | int n => (toString n).toList
  | decimal text => text.toList
  | str text => quote text
  | arr items => enclose layout depth '[' ']' (writeItems layout (depth + 1) items)
  | obj members => enclose layout depth '{' '}' (writeMembers layout (depth + 1) members)

def writeItems (layout : Layout) (depth : Nat) : List Json → List (List Char)
  | [] => []
  | item :: rest => write layout depth item :: writeItems layout depth rest

def writeMembers (layout : Layout) (depth : Nat) : List (String × Json) → List (List Char)
  | [] => []
  | (key, value) :: rest =>
      (quote key ++ layout.colon ++ write layout depth value) :: writeMembers layout depth rest

end

/-- The text of a value on its own. -/
def render (layout : Layout) (value : Json) : String :=
  String.ofList (write layout 0 value)

end Json
end BatchFlow
