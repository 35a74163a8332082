import ContainerLayer.Text.Blank
import ContainerLayer.Text.Utf8

/-
Numbers in the fields of a tar header.

A number is written in octal digits, or, if the first bit of its field is set,
in binary.  Octal fields end with a zero byte and may hold white space around
the digits.  Both forms hold any number below `2 ^ 64`, if the field is wide
enough; writing takes the octal form as long as the number fits.
-/

namespace ContainerLayer
namespace Tar

inductive NumberFlaw where
  | notText (lossy : String)
  | notNumber (text : String)

def NumberFlaw.message : NumberFlaw → String
  | notText lossy => s!"numeric field did not have utf-8 text: {lossy}"
  | notNumber text => s!"numeric field was not a number: {text}"

namespace Number

/-- The value of a digit in the given base, which is at most ten. -/
def digit? (base : Nat) (c : Char) : Option Nat :=
  let d := c.toNat - '0'.toNat
  if '0' ≤ c && d < base then some d else none

/-- The number that digits stand for, most significant first, if there are any and the
number is below `2 ^ 64`. -/
def ofDigits? (base : Nat) (cs : List Char) : Option Nat :=
  if cs = [] then none
  else do
    let n ← cs.foldlM (fun n c => do
      let m := n * base + (← digit? base c)
      if m < 0x10000000000000000 then some m else none) 0
    return n

/-- An unsigned number, with or without a plus sign. -/
def ofText? (base : Nat) : List Char → Option Nat
  | '+' :: cs => ofDigits? base cs
  | cs => ofDigits? base cs

def ofOctal (field : Bytes) : Except NumberFlaw Nat :=
  let text := field.untilZero
  match Utf8.decode? text with
  | none => .error (.notText (Utf8.decodeLossy text))
  | some s =>
    match ofText? 8 (Text.trimBlanks s.toList) with
    | some n => .ok n
    | none => .error (.notNumber s)

/-- Reads a binary field: its last eight bytes, without the mark if that is among them. -/
def ofBinary (field : Bytes) : Nat :=
  if field.length ≤ 8 then
    match field with
    | [] => 0
    | x :: r => Bytes.bigEndian (UInt8.ofNat (x.toNat % 128) :: r)
  else Bytes.bigEndian (field.drop (field.length - 8))

def ofField (field : Bytes) : Except NumberFlaw Nat :=
  match field with
  | x :: _ => if 128 ≤ x then .ok (ofBinary field) else ofOctal field
  | [] => ofOctal field

/-- The `count` low octal digits of `n`, the last one first. -/
def octalDigits : (count n : Nat) → Bytes
  | 0, _ => []
  | count + 1, n => UInt8.ofNat (48 + n % 8) :: octalDigits count (n / 8)

/-- Writes `n` in octal into a field of `width` bytes: as many low digits as fit in front
of a zero byte. -/
def toOctal (width n : Nat) : Bytes :=
  if width = 0 then [] else (octalDigits (width - 1) n).reverse ++ [0]

def toBinary (width n : Nat) : Bytes :=
  match List.replicate (width - 8) 0 ++ Bytes.ofNatBigEndian (min width 8) n with
  | [] => []
  | x :: r => (x ||| 128) :: r

/-- Writes `n` into a field of `width` bytes, in octal unless it is too large. -/
def toField (width n : Nat) : Bytes :=
  if n ≥ 8589934592 || (width = 8 && n ≥ 2097152) then toBinary width n else toOctal width n

theorem length_octalDigits (count n : Nat) : (octalDigits count n).length = count := by
  induction count generalizing n with
  | zero => rfl
  | succ k ih => simp [octalDigits, ih]

theorem length_toOctal (width n : Nat) : (toOctal width n).length = width := by
  unfold toOctal
  split
  · simp_all
  · simp only [List.length_append, List.length_reverse, length_octalDigits, List.length_singleton]
    omega

theorem length_toBinary (width n : Nat) : (toBinary width n).length = width := by
  have h : (List.replicate (width - 8) 0 ++ Bytes.ofNatBigEndian (min width 8) n : Bytes).length
      = width := by
    simp only [List.length_append, List.length_replicate, Bytes.length_ofNatBigEndian]; omega
  unfold toBinary
  split
  · simp_all
  · rename_i x r e; rw [e] at h; simpa using h

theorem length_toField (width n : Nat) : (toField width n).length = width := by
  unfold toField
  split
  · exact length_toBinary width n
  · exact length_toOctal width n

end Number
end Tar
end ContainerLayer
