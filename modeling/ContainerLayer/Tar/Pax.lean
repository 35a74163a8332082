import ContainerLayer.Tar.Defect

/-
Extension records: keys with values that stand in front of an entry and take
precedence over the fields of its header.

A record is a line `LENGTH KEY=VALUE`, where the length counts the whole line
with its newline.  Since records are lines here, a value cannot hold a newline.
-/

namespace ContainerLayer
namespace Tar

structure PaxRecord where
  key : Bytes
  value : Bytes
  deriving DecidableEq

namespace Pax

def parseLine (line : Bytes) : Option PaxRecord := do
  let digits := line.takeWhile (· != 32)
  let rest ← (line.dropWhile (· != 32)).tail?
  let length ← Number.ofText? 10 (← Utf8.decode? digits).toList
  if length ≠ line.length + 1 then none
  else
    let key := rest.takeWhile (· != 61)
    let value ← (rest.dropWhile (· != 61)).tail?
    some ⟨key, value⟩

/-- The records, where `none` stands for a malformed one.  An empty line ends them. -/
def records (data : Bytes) : List (Option PaxRecord) :=
  ((data.splitOn 10).takeWhile (· != [])).map parseLine

/-- The value of the first well-formed record with the given key. -/
def value? (key : Bytes) (data : Bytes) : Option Bytes :=
  (records data).findSome? fun r =>
    match r with
    | some r => if r.key = key then some r.value else none
    | none => none

/-- The number in the first record with the given key, unless a malformed record comes
first or the value is no number. -/
def numberAmong? (key : Bytes) : List (Option PaxRecord) → Option Nat
  | [] => none
  | none :: _ => none
  | some r :: rs =>
    if r.key = key then do Number.ofText? 10 (← Utf8.decode? r.value).toList
    else numberAmong? key rs

def number? (key : Bytes) (data : Bytes) : Option Nat := numberAmong? key (records data)

def pathKey : Bytes := ascii "path"

def linkPathKey : Bytes := ascii "linkpath"

def sizeKey : Bytes := ascii "size"

def uidKey : Bytes := ascii "uid"

def gidKey : Bytes := ascii "gid"

/-- The length of a record that is `rest` bytes long without its digits: `digits` is tried
first, and `limit` is the first number with more digits than that. -/
def recordLength (fuel rest digits limit : Nat) : Nat :=
  match fuel with
  | 0 => rest + digits
  | fuel + 1 =>
    if rest + digits < limit then rest + digits
    else recordLength fuel rest (digits + 1) (limit * 10)

def renderRecord (key value : Bytes) : Bytes :=
  let rest := 3 + key.length + value.length
  let length := recordLength rest rest 1 10
  ascii (toString length) ++ 32 :: (key ++ 61 :: (value ++ [10]))

def render (rs : List PaxRecord) : Bytes := rs.flatMap fun r => renderRecord r.key r.value

end Pax
end Tar
end ContainerLayer
