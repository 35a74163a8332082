import ContainerLayer.Digest.Sha256

/-
Digests of content, as written in descriptors: an algorithm and an encoded
value with a colon between them.

The algorithm is a list of parts joined by `+`, `.`, `_` or `-`.  For the
registered algorithms the value has to be a lower-case hexadecimal number of
the right length; for others any value over a small alphabet is fine.
-/

namespace ContainerLayer

structure Digest where
  algorithm : String
  encoded : String
  deriving DecidableEq

namespace Digest

inductive Flaw where
  | noColon
  | emptyComponent
  | badComponent (part : String)
  | emptyValue
  | badValue (value : String)
  | badLength (found expected : Nat)
  | notHexadecimal (value : String)
  deriving DecidableEq

def Flaw.message : Flaw → String
  | noColon => "missing ':' in digest"
  | emptyComponent => "Empty algorithm component"
  | badComponent part => s!"Invalid algorithm component: {part}"
  | emptyValue => "Empty algorithm value"
  | badValue value => s!"Invalid encoded value {value}"
  | badLength found expected => s!"Invalid digest length {found} expected {expected}"
  | notHexadecimal value => s!"Invalid non-hexadecimal character in digest: {value}"

def isJoint (c : Char) : Bool := c == '+' || c == '.' || c == '_' || c == '-'

def isPartChar (c : Char) : Bool := ('a' ≤ c && c ≤ 'z') || ('0' ≤ c && c ≤ '9')

def isValueChar (c : Char) : Bool :=
  isPartChar c || ('A' ≤ c && c ≤ 'Z') || c == '=' || c == '_' || c == '-'

def isHexChar (c : Char) : Bool := ('0' ≤ c && c ≤ '9') || ('a' ≤ c && c ≤ 'f')

def parts (cs : List Char) : List (List Char) :=
  cs.foldr (fun c acc =>
    match acc with
    | [] => [[c]]
    | p :: ps => if isJoint c then [] :: p :: ps else (c :: p) :: ps) [[]]

/-- How long the value of a registered algorithm is. -/
def registeredLength (algorithm : String) : Option Nat :=
  if algorithm = "sha256" then some 64
  else if algorithm = "sha384" then some 96
  else if algorithm = "sha512" then some 128
  else none

def checkParts : List (List Char) → Except Flaw Unit
  | [] => .ok ()
  | p :: ps =>
    if p = [] then .error .emptyComponent
    else if p.all isPartChar then checkParts ps
    else .error (.badComponent (String.ofList p))

/-- Checks a value on its own and against what its algorithm asks for. -/
def checkValue (algorithm : String) (value : List Char) : Except Flaw Unit :=
  if value = [] then .error .emptyValue
  else if !value.all isValueChar then .error (.badValue (String.ofList value))
  else
    match registeredLength algorithm with
    | none => .ok ()
    | some n =>
      if value.length ≠ n then .error (.badLength value.length n)
      else if value.all isHexChar then .ok ()
      else .error (.notHexadecimal (String.ofList value))

def parse (text : String) : Except Flaw Digest := do
  let cs := text.toList
  let name := cs.takeWhile (· != ':')
  match cs.dropWhile (· != ':') with
  | [] => throw .noColon
  | _ :: value =>
    checkParts (parts name)
    checkValue (String.ofList name) value
    return ⟨String.ofList name, String.ofList value⟩

def render (d : Digest) : String := d.algorithm ++ ":" ++ d.encoded

def ofSha256 (value : Bytes) : Except Flaw Digest := parse ("sha256:" ++ value.hex)

end Digest
end ContainerLayer
