import BatchFlow.Json.Numeral

/-!
# Reading JSON text

The grammar is strict: four blanks, no comments, no trailing commas, no leading zeros, no raw
control characters inside quotes. A container is read with its nesting depth as the recursion
parameter, so a text that nests deeper than the caller allows is refused, and a text is never
deeper than it is long.

A value may also be skimmed: its grammar is checked and its meaning is not. A skimmed text may
hold a lone surrogate or a number that is not finite, which no value stands for. `Json.readKeeping`
skims the members of the outer object that the caller has no use for.
-/

namespace BatchFlow
namespace Json

/-- Whether a part of a text is read for its value or for its grammar alone. -/
inductive Mode where
  | exact
  | skim
  deriving DecidableEq

def isBlank (c : Char) : Bool :=
  c == ' ' || c == '\t' || c == '\n' || c == '\r'

def skipBlanks (cs : List Char) : List Char :=
  cs.dropWhile isBlank

/-! ### Quoted text -/

/-- A part of a quoted text: a character, or the code unit of a numeric escape. -/
inductive Piece where
  | char (c : Char)
  | unit (n : Nat)

def hexValue? (c : Char) : Option Nat :=
  if '0' ≤ c ∧ c ≤ '9' then some (c.toNat - '0'.toNat)
  else if 'a' ≤ c ∧ c ≤ 'f' then some (c.toNat - 'a'.toNat + 10)
  else if 'A' ≤ c ∧ c ≤ 'F' then some (c.toNat - 'A'.toNat + 10)
  else none

def hexUnit? (a b c d : Char) : Option Nat := do
  return (((← hexValue? a) * 16 + (← hexValue? b)) * 16 + (← hexValue? c)) * 16 + (← hexValue? d)

def escaped? : Char → Option Char
  | '"' => some '"'
  | '\\' => some '\\'
  | '/' => some '/'
  | 'b' => some '\x08'
  | 'f' => some '\x0c'
  | 'n' => some '\n'
  | 'r' => some '\r'
  | 't' => some '\t'
  | _ => none

/-- The parts up to the closing quote, and what follows it. -/
def pieces? : List Char → Option (List Piece × List Char)
  | [] => none
  | '"' :: rest => some ([], rest)
  | '\\' :: 'u' :: a :: b :: c :: d :: rest => do
      let n ← hexUnit? a b c d
      let (tail, rest) ← pieces? rest
      return (.unit n :: tail, rest)
  | '\\' :: e :: rest => do
      let c ← escaped? e
      let (tail, rest) ← pieces? rest
      return (.char c :: tail, rest)
  | c :: rest =>
      if c = '\\' ∨ c.toNat < 32 then none
      else do
        let (tail, rest) ← pieces? rest
        return (.char c :: tail, rest)

def isHighSurrogate (n : Nat) : Bool := 0xD800 ≤ n && n < 0xDC00

def isLowSurrogate (n : Nat) : Bool := 0xDC00 ≤ n && n < 0xE000

/-- The characters that the parts stand for. A surrogate counts only as half of a pair. -/
def joinPieces? : List Piece → Option (List Char)
  | [] => some []
  | .char c :: rest => (joinPieces? rest).map (c :: ·)
  | .unit n :: .unit m :: rest =>
      if isHighSurrogate n then
        if isLowSurrogate m then
          (joinPieces? rest).map
            (Char.ofNat (0x10000 + (n - 0xD800) * 0x400 + (m - 0xDC00)) :: ·)
        else none
      else if isLowSurrogate n then none
      else (joinPieces? (.unit m :: rest)).map (Char.ofNat n :: ·)
  | .unit n :: rest =>
      if isHighSurrogate n || isLowSurrogate n then none
      else (joinPieces? rest).map (Char.ofNat n :: ·)

/-- Text after its opening quote. Skimming leaves the value empty. -/
def text? (mode : Mode) (cs : List Char) : Option (String × List Char) := do
  let (parts, rest) ← pieces? cs
  match mode with
  | .skim => return ("", rest)
  | .exact => return (String.ofList (← joinPieces? parts), rest)

/-! ### Numbers -/

/-- At least one digit, and what follows. -/
def digits? (cs : List Char) : Option (List Char × List Char) :=
  match cs.takeWhile Char.isDigit with
  | [] => none
  | ds => some (ds, cs.dropWhile Char.isDigit)

/-- The digits before the point: a zero stands alone. -/
def whole? : List Char → Option (List Char × List Char)
  | '0' :: rest => some (['0'], rest)
  | cs => digits? cs

def fraction? : List Char → Option (Option (List Char) × List Char)
  | '.' :: rest => (digits? rest).map fun (ds, rest) => (some ds, rest)
  | cs => some (none, cs)

def exponentDigits? : List Char → Option ((Option Char × List Char) × List Char)
  | '+' :: rest => (digits? rest).map fun (ds, rest) => ((some '+', ds), rest)
  | '-' :: rest => (digits? rest).map fun (ds, rest) => ((some '-', ds), rest)
  | cs => (digits? cs).map fun (ds, rest) => ((none, ds), rest)

def exponent? : List Char → Option (Option (Option Char × List Char) × List Char)
  | 'e' :: rest => (exponentDigits? rest).map fun (e, rest) => (some e, rest)
  | 'E' :: rest => (exponentDigits? rest).map fun (e, rest) => (some e, rest)
  | cs => some (none, cs)

def sign : List Char → Bool × List Char
  | '-' :: rest => (true, rest)
  | cs => (false, cs)

def numeral? (cs : List Char) : Option (Numeral × List Char) := do
  let (negative, rest) := sign cs
  let (whole, rest) ← whole? rest
  let (fraction, rest) ← fraction? rest
  let (exponent, rest) ← exponent? rest
  return (⟨negative, whole, fraction, exponent⟩, rest)

def number? (mode : Mode) (cs : List Char) : Option (Json × List Char) := do
  let (n, rest) ← numeral? cs
  match mode with
  | .skim => return (.null, rest)
  | .exact => if n.isFinite then return (n.toJson, rest) else none

/-! ### Values -/

/-- A value that is not a container. -/
def scalar? (mode : Mode) : List Char → Option (Json × List Char)
  | 'n' :: 'u' :: 'l' :: 'l' :: rest => some (.null, rest)
  | 't' :: 'r' :: 'u' :: 'e' :: rest => some (.bool true, rest)
  | 'f' :: 'a' :: 'l' :: 's' :: 'e' :: rest => some (.bool false, rest)
  | '"' :: rest => (text? mode rest).map fun (text, rest) => (.str text, rest)
  | cs => number? mode cs

/-- The entries of a container up to its closing bracket, at least one and with a comma between
any two. The count bounds the entries; the length of the text always suffices. -/
def entries? {α : Type} (entry : List Char → Option (α × List Char)) (closing : Char) :
    Nat → List Char → Option (List α × List Char)
  | 0, _ => none
  | count + 1, cs => do
      let (first, rest) ← entry (skipBlanks cs)
      match skipBlanks rest with
      | c :: rest =>
          if c = closing then some ([first], rest)
          else if c = ',' then do
            let (more, rest) ← entries? entry closing count rest
            return (first :: more, rest)
          else none
      | [] => none

/-- The entries of a container after its opening bracket. -/
def container? {α : Type} (entry : List Char → Option (α × List Char)) (closing : Char)
    (cs : List Char) : Option (List α × List Char) :=
  match skipBlanks cs with
  | [] => none
  | c :: rest =>
      if c = closing then some ([], rest) else entries? entry closing (c :: rest).length (c :: rest)

/-- A member of an object. How the value is read may depend on the key. -/
def member? (mode : Mode) (value : String → List Char → Option (Json × List Char)) :
    List Char → Option ((String × Json) × List Char)
  | '"' :: cs => do
      let (key, rest) ← text? mode cs
      match skipBlanks rest with
      | ':' :: rest => do
          let (v, rest) ← value key (skipBlanks rest)
          return ((key, v), rest)
      | _ => none
  | _ => none

/-- A value that nests at most as deep as the bound, and what follows it. -/
def value? (mode : Mode) : Nat → List Char → Option (Json × List Char)
  | depth + 1, '[' :: cs =>
      (container? (value? mode depth) ']' cs).map fun (items, rest) => (.arr items, rest)
  | depth + 1, '{' :: cs =>
      (container? (member? mode fun _ => value? mode depth) '}' cs).map
        fun (members, rest) => (.obj members, rest)
  | _, cs => scalar? mode cs

/-- A value with nothing but blanks after it. -/
def complete? (result : Option (Json × List Char)) : Option Json :=
  match result with
  | some (value, rest) => if (skipBlanks rest).isEmpty then some value else none
  | none => none

/-- The value that a text stands for. -/
def read? (text : String) : Option Json :=
  complete? (value? .exact text.length (skipBlanks text.toList))

/-- The deepest nesting that typed data may have. -/
def maxDepth : Nat := 127

/-- The value that a text stands for, with the members of the outer object that are not kept
skimmed: their keys stay, their values are left blank. -/
def readKeeping? (keep : String → Bool) (text : String) : Option Json :=
  match skipBlanks text.toList with
  | '{' :: cs =>
      complete? ((container? (member? .exact fun key =>
          if keep key then value? .exact (maxDepth - 1) else value? .skim text.length) '}' cs).map
        fun (members, rest) => (.obj members, rest))
  | cs => complete? (value? .exact maxDepth cs)

end Json
end BatchFlow
