import ContainerLayer.Bytes

/-
Reading UTF-8.

`Utf8.tokens` cuts any bytes into characters and stray sequences; a stray
sequence is the longest start of a well-formed character that goes wrong, or a
single byte that starts none.  Everything else here is a view of the tokens:
the strict reading, the lenient one, and the place of the first fault.
-/

namespace ContainerLayer

/-- One step of reading UTF-8. -/
inductive Utf8Token where
  | char (c : Char)
  /-- Bytes that are no character; `cut` says that the text ends inside them. -/
  | stray (bytes : Bytes) (cut : Bool)

namespace Utf8

def isContinuation (x : UInt8) : Bool := 0x80 ≤ x && x ≤ 0xBF

/-- The low six bits of a continuation byte. -/
def payload (x : UInt8) : Nat := x.toNat % 64

/-- The range that the second byte of a three byte character has to be in.
It rules out surrogates and spellings that are longer than needed. -/
def secondOfThree (a b : UInt8) : Bool :=
  if a = 0xE0 then 0xA0 ≤ b && b ≤ 0xBF
  else if a = 0xED then 0x80 ≤ b && b ≤ 0x9F
  else isContinuation b

/-- The range that the second byte of a four byte character has to be in. -/
def secondOfFour (a b : UInt8) : Bool :=
  if a = 0xF0 then 0x90 ≤ b && b ≤ 0xBF
  else if a = 0xF4 then 0x80 ≤ b && b ≤ 0x8F
  else isContinuation b

/-- The token that starts with the byte `a`, and how many bytes of `r` belong to it. -/
def step (a : UInt8) (r : Bytes) : Utf8Token × Nat :=
  if a < 0x80 then (.char (Char.ofNat a.toNat), 0)
  else if 0xC2 ≤ a && a ≤ 0xDF then
    match r with
    | [] => (.stray [a] true, 0)
    | b :: _ =>
      if isContinuation b then (.char (Char.ofNat (a.toNat % 32 * 64 + payload b)), 1)
      else (.stray [a] false, 0)
  else if 0xE0 ≤ a && a ≤ 0xEF then
    match r with
    | [] => (.stray [a] true, 0)
    | [b] => if secondOfThree a b then (.stray [a, b] true, 1) else (.stray [a] false, 0)
    | b :: c :: _ =>
      if !secondOfThree a b then (.stray [a] false, 0)
      else if !isContinuation c then (.stray [a, b] false, 1)
      else (.char (Char.ofNat ((a.toNat % 16 * 64 + payload b) * 64 + payload c)), 2)
  else if 0xF0 ≤ a && a ≤ 0xF4 then
    match r with
    | [] => (.stray [a] true, 0)
    | [b] => if secondOfFour a b then (.stray [a, b] true, 1) else (.stray [a] false, 0)
    | [b, c] =>
      if !secondOfFour a b then (.stray [a] false, 0)
      else if !isContinuation c then (.stray [a, b] false, 1)
      else (.stray [a, b, c] true, 2)
    | b :: c :: d :: _ =>
      if !secondOfFour a b then (.stray [a] false, 0)
      else if !isContinuation c then (.stray [a, b] false, 1)
      else if !isContinuation d then (.stray [a, b, c] false, 2)
      else
        (.char (Char.ofNat (((a.toNat % 8 * 64 + payload b) * 64 + payload c) * 64 + payload d)), 3)
  else (.stray [a] false, 0)

/-- The tokens of `b`, with `acc` the ones already read, last first. -/
def tokensOnto (acc : List Utf8Token) : Bytes → List Utf8Token
  | [] => acc.reverse
  | a :: r =>
    let (t, n) := step a r
    tokensOnto (t :: acc) (r.drop n)
termination_by b => b.length
decreasing_by simp only [List.length_drop, List.length_cons]; omega

def tokens (b : Bytes) : List Utf8Token := tokensOnto [] b

def decode? (b : Bytes) : Option String :=
  let chars := (tokens b).mapM fun
    | .char c => some c
    | .stray _ _ => none
  chars.map String.ofList

/-- The text of `b` with each stray sequence read as U+FFFD. -/
def decodeLossy (b : Bytes) : String :=
  String.ofList <| (tokens b).map fun
    | .char c => c
    | .stray _ _ => '\uFFFD'

structure Flaw where
  /-- How many bytes in front of the fault are well formed. -/
  index : Nat
  /-- How many bytes are at fault; `none` if the text ends inside a character. -/
  length : Option Nat

/-- The first fault among the tokens, the first of which starts at `index`. -/
def flawFrom (index : Nat) : List Utf8Token → Option Flaw
  | [] => none
  | .char c :: r => flawFrom (index + c.utf8Size) r
  | .stray bytes cut :: _ => some ⟨index, if cut then none else some bytes.length⟩

def flaw? (b : Bytes) : Option Flaw := flawFrom 0 (tokens b)

def Flaw.message (f : Flaw) : String :=
  match f.length with
  | some n => s!"invalid utf-8 sequence of {n} bytes from index {f.index}"
  | none => s!"incomplete utf-8 byte sequence from index {f.index}"

end Utf8
end ContainerLayer
