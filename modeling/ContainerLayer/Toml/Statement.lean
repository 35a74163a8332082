import ContainerLayer.Text.Hexadecimal

/-
Setting files: their statements, and how they are read.

These files are written in TOML.  Of its values only those that a setting can
have are read: texts, tables, and lists with nothing in them.  Numbers, dates
and all other lists are refused like any malformed text, and so are headers of
tables that come in rows.
-/

namespace ContainerLayer
namespace Toml

abbrev KeyPath := List String

inductive Value where
  | text (s : String)
  | emptyList
  | table (fields : List (KeyPath × Value))

inductive Statement where
  /-- What follows belongs to the table at `path`. -/
  | header (path : KeyPath)
  | assignment (path : KeyPath) (value : Value)

def isSpace (c : Char) : Bool := c == ' ' || c == '\t'

def isTextChar (c : Char) : Bool := c == '\t' || (' ' ≤ c && c != '\x7f')

def isKeyChar (c : Char) : Bool :=
  ('a' ≤ c && c ≤ 'z') || ('A' ≤ c && c ≤ 'Z') || ('0' ≤ c && c ≤ '9') || c == '-' || c == '_'

def skipSpace (cs : List Char) : List Char := cs.dropWhile isSpace

def newline? : List Char → Option (List Char)
  | '\n' :: r => some r
  | '\r' :: '\n' :: r => some r
  | _ => none

/-- Passes over the end of a line, if there is one, or nothing. -/
def dropNewline (cs : List Char) : List Char := (newline? cs).getD cs

/-- The character with the code point that hexadecimal digits stand for, if it has one. -/
def charOfHex? (digits : List Char) : Option Char := do
  let n ← Text.ofHex? digits
  if n.isValidChar then some (Char.ofNat n) else none

def escaped? : Char → Option Char
  | 'b' => some '\x08'
  | 't' => some '\t'
  | 'n' => some '\n'
  | 'f' => some '\x0c'
  | 'r' => some '\r'
  | '"' => some '"'
  | '\\' => some '\\'
  | _ => none

/-- Reads a text up to the double quote that ends it, behind the characters in `acc`, which
are last first. -/
def quotedText (acc : List Char) : List Char → Option (String × List Char)
  | [] => none
  | '\\' :: 'u' :: a :: b :: c :: d :: r => do
    quotedText ((← charOfHex? [a, b, c, d]) :: acc) r
  | '\\' :: 'U' :: a :: b :: c :: d :: e :: f :: g :: h :: r => do
    quotedText ((← charOfHex? [a, b, c, d, e, f, g, h]) :: acc) r
  | '\\' :: c :: r => do quotedText ((← escaped? c) :: acc) r
  | '"' :: r => some (String.ofList acc.reverse, r)
  | c :: r => if isTextChar c then quotedText (c :: acc) r else none

/-- Reads a text up to the single quote that ends it; backslashes mean nothing in it. -/
def literalText (acc : List Char) : List Char → Option (String × List Char)
  | [] => none
  | '\'' :: r => some (String.ofList acc.reverse, r)
  | c :: r => if isTextChar c then literalText (c :: acc) r else none

/-- The end of a text of several lines, once three of its quotes were read: up to two more
belong to the text. -/
def closeLines (quote : Char) (acc r : List Char) : String × List Char :=
  let more := (r.takeWhile (· == quote)).take 2
  (String.ofList (acc.reverse ++ more), r.drop more.length)

/-- Does a backslash in front of `r` join lines? -/
def joinsLines (r : List Char) : Bool := (newline? (skipSpace r)).isSome

/-- Reads a text of several lines up to the three double quotes that end it.  `joining` says
that blanks and ends of lines are passed over. -/
def quotedLines (acc : List Char) (joining : Bool) : List Char → Option (String × List Char)
  | [] => none
  | '"' :: '"' :: '"' :: r => some (closeLines '"' acc r)
  | '\\' :: 'u' :: a :: b :: c :: d :: r => do
    quotedLines ((← charOfHex? [a, b, c, d]) :: acc) false r
  | '\\' :: 'U' :: a :: b :: c :: d :: e :: f :: g :: h :: r => do
    quotedLines ((← charOfHex? [a, b, c, d, e, f, g, h]) :: acc) false r
  | '\\' :: c :: r =>
    if joinsLines (c :: r) then quotedLines acc true (c :: r)
    else do quotedLines ((← escaped? c) :: acc) false r
  | '\r' :: '\n' :: r => quotedLines (if joining then acc else '\n' :: acc) joining r
  | '\n' :: r => quotedLines (if joining then acc else '\n' :: acc) joining r
  | c :: r =>
    if joining && isSpace c then quotedLines acc true r
    else if isTextChar c then quotedLines (c :: acc) false r
    else none

/-- Reads a text of several lines up to the three single quotes that end it. -/
def literalLines (acc : List Char) : List Char → Option (String × List Char)
  | [] => none
  | '\'' :: '\'' :: '\'' :: r => some (closeLines '\'' acc r)
  | '\r' :: '\n' :: r => literalLines ('\n' :: acc) r
  | '\n' :: r => literalLines ('\n' :: acc) r
  | c :: r => if isTextChar c then literalLines (c :: acc) r else none

def key : List Char → Option (String × List Char)
  | '"' :: r => quotedText [] r
  | '\'' :: r => literalText [] r
  | cs =>
    let name := cs.takeWhile isKeyChar
    if name = [] then none else some (String.ofList name, cs.dropWhile isKeyChar)

/-- Reads at most `fuel` keys with dots in between and blanks around them. -/
def keyPath (cs : List Char) : (fuel : Nat) → Option (KeyPath × List Char)
  | 0 => none
  | fuel + 1 => do
    let (k, r) ← key (skipSpace cs)
    match skipSpace r with
    | '.' :: r =>
      let (ks, r) ← keyPath r fuel
      return (k :: ks, r)
    | r => return ([k], r)

/-- Passes over what is left of a list with nothing but blanks and comments in it. -/
def emptyListEnd (inComment : Bool) : List Char → Option (List Char)
  | [] => none
  | '\r' :: '\n' :: r => emptyListEnd false r
  | '\n' :: r => emptyListEnd false r
  | c :: r =>
    if inComment then if isTextChar c then emptyListEnd true r else none
    else if c = ']' then some r
    else if c = '#' then emptyListEnd true r
    else if isSpace c then emptyListEnd false r
    else none

mutual

/-- Reads a value in which tables are nested less than `fuel` deep. -/
def value (fuel : Nat) (cs : List Char) : Option (Value × List Char) :=
  match fuel with
  | 0 => none
  | fuel + 1 =>
    match cs with
    | '"' :: '"' :: '"' :: r => (quotedLines [] false (dropNewline r)).map fun (s, r) => (.text s, r)
    | '"' :: r => (quotedText [] r).map fun (s, r) => (.text s, r)
    | '\'' :: '\'' :: '\'' :: r => (literalLines [] (dropNewline r)).map fun (s, r) => (.text s, r)
    | '\'' :: r => (literalText [] r).map fun (s, r) => (.text s, r)
    | '[' :: r => (emptyListEnd false r).map fun r => (.emptyList, r)
    | '\x7b' :: r =>
      match skipSpace r with
      | '\x7d' :: r => some (.table [], r)
      | r => (fields fuel r).map fun (fs, r) => (.table fs, r)
    | _ => none

def fields (fuel : Nat) (cs : List Char) : Option (List (KeyPath × Value) × List Char) :=
  match fuel with
  | 0 => none
  | fuel + 1 => do
    match ← keyPath cs cs.length with
    | (path, '=' :: r) =>
      let (v, r) ← value fuel (skipSpace r)
      match skipSpace r with
      | ',' :: r =>
        let (fs, r) ← fields fuel r
        return ((path, v) :: fs, r)
      | '\x7d' :: r => return ([(path, v)], r)
      | _ => none
    | _ => none

end

def lineEnd (cs : List Char) : Option (List Char) :=
  let r :=
    match skipSpace cs with
    | '#' :: r => r.dropWhile isTextChar
    | r => r
  if r = [] then some [] else newline? r

/-- Reads one statement and the rest of its line; a line may also hold none. -/
def statement (cs : List Char) : Option (Option Statement × List Char) :=
  match cs with
  | '[' :: r => do
    match ← keyPath r r.length with
    | (path, ']' :: r) => return (some (.header path), ← lineEnd r)
    | _ => none
  | c :: _ =>
    if c = '#' || c = '\n' || c = '\r' then do return (none, ← lineEnd cs)
    else do
      match ← keyPath cs cs.length with
      | (path, '=' :: r) =>
        let (v, r) ← value (r.length + 1) (skipSpace r)
        return (some (.assignment path v), ← lineEnd r)
      | _ => none
  | [] => some (none, [])

def statements (cs : List Char) : (fuel : Nat) → Option (List Statement)
  | 0 => none
  | fuel + 1 =>
    match skipSpace cs with
    | [] => some []
    | cs => do
      let (s, r) ← statement cs
      return s.toList ++ (← statements r fuel)

/-- The statements of a setting file.  A mark of the byte order in front means nothing. -/
def read? (text : String) : Option (List Statement) :=
  let cs := match text.toList with
    | '\uFEFF' :: r => r
    | cs => cs
  statements cs (cs.length + 1)

end Toml
end ContainerLayer
