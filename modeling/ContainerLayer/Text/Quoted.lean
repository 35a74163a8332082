import ContainerLayer.Text.Printable
import ContainerLayer.Text.Utf8

/-
Quoted names: how paths are shown in messages.

A quoted name stands between double quotes.  Quotes, backslashes and characters
that cannot be shown are escaped, and bytes that are no character are shown in
hexadecimal, so different names never look the same.
-/

namespace ContainerLayer
namespace Text

/-- The digits of `n` in lower-case hexadecimal, without zeros in front. -/
def hexNumber (n : Nat) : List Char := Nat.toDigits 16 n

def quoteChar (c : Char) : List Char :=
  if c = '\x00' then ['\\', '0']
  else if c = '\t' then ['\\', 't']
  else if c = '\r' then ['\\', 'r']
  else if c = '\n' then ['\\', 'n']
  else if c = '\\' || c = '"' then ['\\', c]
  else if isPrintable c then [c]
  else '\\' :: 'u' :: '\x7b' :: (hexNumber c.toNat ++ ['\x7d'])

/-- A byte that is part of no character, as it is shown in quotes. -/
def quoteByte (x : UInt8) : List Char :=
  '\\' :: 'x' :: (Bytes.hexDigits x).map Char.toUpper

def quoted (b : Bytes) : String :=
  let body := (Utf8.tokens b).flatMap fun
    | .char c => quoteChar c
    | .stray bytes _ => bytes.flatMap quoteByte
  String.ofList ('"' :: (body ++ ['"']))

end Text
end ContainerLayer
