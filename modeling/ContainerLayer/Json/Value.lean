import ContainerLayer.Text.Hexadecimal

/-
JSON values, and how they are read.

Escapes in a text may name halves of a character.  A text with half a character
in it is well formed, but it stands for no text: that is `JsonValue.text none`.
-/

namespace ContainerLayer

inductive JsonValue where
  | null
  | bool (b : Bool)
  | number (digits : String)
  | text (s : Option String)
  | array (items : List JsonValue)
  /-- The fields in order; names may come more than once. -/
  | object (fields : List (Option String × JsonValue))

namespace JsonValue

def isSpace (c : Char) : Bool := c == ' ' || c == '\n' || c == '\t' || c == '\r'

def skipSpace (cs : List Char) : List Char := cs.dropWhile isSpace

def escaped? : Char → Option Char
  | '"' => some '"'
  | '\\' => some '\\'
  | '/' => some '/'
  | 'b' => some '\x08'
  | 'f' => some '\x0c'
  | 'n' => some '\n'
  | 'r' => some '\r'
  | 't' => some '\t'
  | _ => none

/-- Is `n` the first half of a character? -/
def isHighHalf (n : Nat) : Bool := 0xD800 ≤ n && n < 0xDC00

/-- Is `n` the second half of a character? -/
def isLowHalf (n : Nat) : Bool := 0xDC00 ≤ n && n < 0xE000

/-- The character that two halves make. -/
def joinHalves (high low : Nat) : Char :=
  Char.ofNat (0x10000 + (high - 0xD800) * 1024 + (low - 0xDC00))

structure Partial where
  /-- The characters so far, last first. -/
  chars : List Char := []
  /-- The first half of a character that just came. -/
  half : Option Nat := none
  /-- No half of a character has been left alone. -/
  whole : Bool := true

def Partial.push (p : Partial) (c : Char) : Partial :=
  { chars := c :: p.chars, whole := p.whole && p.half.isNone }

def Partial.pushCode (p : Partial) (n : Nat) : Partial :=
  if isHighHalf n then { p with half := some n, whole := p.whole && p.half.isNone }
  else if isLowHalf n then
    match p.half with
    | some high => { chars := joinHalves high n :: p.chars, whole := p.whole }
    | none => { p with whole := false }
  else p.push (Char.ofNat n)

def Partial.text? (p : Partial) : Option String :=
  if p.whole && p.half.isNone then some (String.ofList p.chars.reverse) else none

/-- Reads a text up to the quote that ends it, behind what is in `p`. -/
def readText (p : Partial) : List Char → Option (Option String × List Char)
  | [] => none
  | '"' :: r => some (p.text?, r)
  | '\\' :: 'u' :: a :: b :: c :: d :: r => do
    readText (p.pushCode (← Text.ofHex? [a, b, c, d])) r
  | '\\' :: c :: r => do readText (p.push (← escaped? c)) r
  | c :: r => if c < ' ' then none else readText (p.push c) r

/-- Takes the digits from the front, of which there has to be one. -/
def digits? (cs : List Char) : Option (List Char × List Char) :=
  let ds := cs.takeWhile Char.isDigit
  if ds = [] then none else some (ds, cs.dropWhile Char.isDigit)

def readExponent (cs : List Char) : Option (List Char × List Char) :=
  match cs with
  | e :: r =>
    if e = 'e' || e = 'E' then
      match r with
      | '+' :: r => (digits? r).map fun (ds, r) => (e :: '+' :: ds, r)
      | '-' :: r => (digits? r).map fun (ds, r) => (e :: '-' :: ds, r)
      | r => (digits? r).map fun (ds, r) => (e :: ds, r)
    else some ([], cs)
  | [] => some ([], [])

def readFraction (cs : List Char) : Option (List Char × List Char) :=
  match cs with
  | '.' :: r => (digits? r).map fun (ds, r) => ('.' :: ds, r)
  | _ => some ([], cs)

/-- Reads the whole part of a number: only zero starts with a zero. -/
def readWhole (cs : List Char) : Option (List Char × List Char) := do
  let (ds, r) ← digits? cs
  if ds.head? = some '0' && 1 < ds.length then none else some (ds, r)

def readNumber (cs : List Char) : Option (JsonValue × List Char) := do
  let (sign, r) := match cs with
    | '-' :: r => (['-'], r)
    | _ => ([], cs)
  let (whole, r) ← readWhole r
  let (fraction, r) ← readFraction r
  let (exponent, r) ← readExponent r
  return (.number (String.ofList (sign ++ whole ++ fraction ++ exponent)), r)

mutual

/-- Reads a value in which others are nested less than `fuel` deep. -/
def readValue (cs : List Char) (fuel : Nat) : Option (JsonValue × List Char) :=
  match fuel with
  | 0 => none
  | fuel + 1 =>
    match skipSpace cs with
    | 'n' :: 'u' :: 'l' :: 'l' :: r => some (.null, r)
    | 't' :: 'r' :: 'u' :: 'e' :: r => some (.bool true, r)
    | 'f' :: 'a' :: 'l' :: 's' :: 'e' :: r => some (.bool false, r)
    | '"' :: r => (readText {} r).map fun (s, r) => (.text s, r)
    | '[' :: r =>
      match skipSpace r with
      | ']' :: r => some (.array [], r)
      | r => (readItems r fuel).map fun (items, r) => (.array items, r)
    | '\x7b' :: r =>
      match skipSpace r with
      | '\x7d' :: r => some (.object [], r)
      | r => (readFields r fuel).map fun (fields, r) => (.object fields, r)
    | cs => readNumber cs

def readItems (cs : List Char) (fuel : Nat) : Option (List JsonValue × List Char) :=
  match fuel with
  | 0 => none
  | fuel + 1 => do
    let (v, r) ← readValue cs fuel
    match skipSpace r with
    | ',' :: r =>
      let (vs, r) ← readItems r fuel
      return (v :: vs, r)
    | ']' :: r => return ([v], r)
    | _ => none

def readFields (cs : List Char) (fuel : Nat) :
    Option (List (Option String × JsonValue) × List Char) :=
  match fuel with
  | 0 => none
  | fuel + 1 =>
    match skipSpace cs with
    | '"' :: r => do
      let (name, r) ← readText {} r
      match skipSpace r with
      | ':' :: r =>
        let (v, r) ← readValue r fuel
        match skipSpace r with
        | ',' :: r =>
          let (fs, r) ← readFields r fuel
          return ((name, v) :: fs, r)
        | '\x7d' :: r => return ([(name, v)], r)
        | _ => none
      | _ => none
    | _ => none

end

def read? (text : String) : Option JsonValue := do
  let cs := text.toList
  let (v, r) ← readValue cs (cs.length + 1)
  if skipSpace r = [] then some v else none

def text? : JsonValue → Option String
  | text s => s
  | _ => none

end JsonValue
end ContainerLayer
