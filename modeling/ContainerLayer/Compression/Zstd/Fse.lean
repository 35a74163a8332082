import ContainerLayer.Compression.Zstd.Bits

/-
Finite state entropy coding: tables of states, each of which stands for a
symbol and says how many bits lead to the next state.

A table is made from the number of states that each symbol has.
-/

namespace ContainerLayer
namespace Zstd

/-- A state: its symbol, and how to get to the next state. -/
structure FseState where
  symbol : Nat
  bits : Nat
  base : Nat
  deriving Inhabited

/-- A table with `2 ^ log` states. -/
structure FseTable where
  log : Nat
  states : Array FseState

namespace Fse

/-- How many states a symbol has: none, that many, or one of those at the end of the table
for symbols that are too rare for a state of their own. -/
abbrev Share := Int

/-- The places of the table in the order in which they are given out: `count` steps from
`place`, leaving out those from `limit` on. -/
def places (size limit step place : Nat) : (count : Nat) → List Nat
  | 0 => []
  | count + 1 =>
    let rest := places size limit step ((place + step) % size) count
    if place < limit then place :: rest else rest

/-- The table for the shares of the symbols, which add up to `2 ^ log`. -/
def build (log : Nat) (shares : List Share) : FseTable :=
  let size := 1 <<< log
  let symbols := shares.zipIdx
  let rare := (symbols.filter fun p => p.1 = -1).map (·.2)
  let common := symbols.flatMap fun p => List.replicate p.1.toNat p.2
  let limit := size - rare.length
  let step := size / 2 + size / 8 + 3
  let spread := (places size limit step 0 size).zip common
  let start := (Array.replicate size 0)
  let placed := spread.foldl (fun a p => a.setIfInBounds p.1 p.2) start
  let placed := rare.zipIdx.foldl (fun a p => a.setIfInBounds (size - 1 - p.2) p.1) placed
  let counters := (shares.map fun s => if s = -1 then 1 else s.toNat).toArray
  let (states, _) := placed.foldl (fun (acc : Array FseState × Array Nat) symbol =>
    let (states, counters) := acc
    let next := counters.getD symbol 1
    let bits := log - highBit next
    (states.push ⟨symbol, bits, (next <<< bits) - size⟩,
      counters.setIfInBounds symbol (next + 1))) (#[], counters)
  ⟨log, states⟩

/-- The table with one state only, for a symbol that is repeated. -/
def single (symbol : Nat) : FseTable := ⟨0, #[⟨symbol, 0, 0⟩]⟩

/-- Puts zero shares in front of `acc` for as long as the two bits at `place` say so. -/
def zeros (b : Array UInt8) (acc : List Share) (place : Nat) : (fuel : Nat) → List Share × Nat
  | 0 => (acc, place)
  | fuel + 1 =>
    let n := bitsAt b place 2
    let acc := List.replicate n 0 ++ acc
    if n = 3 then zeros b acc (place + 2) fuel else (acc, place + 2)

/-- Reads shares until they add up, with `remaining` states to be given out and the shares
so far in `acc`, last first.  There are at most `fuel` of them. -/
def sharesFrom (b : Array UInt8) (acc : List Share) (remaining place : Nat) :
    (fuel : Nat) → Option (List Share × Nat)
  | 0 => if remaining = 0 then some (acc.reverse, place) else none
  | fuel + 1 =>
    if remaining = 0 then some (acc.reverse, place)
    else
      let width := highBit (remaining + 1) + 1
      let value := bitsAt b place width
      let half := 1 <<< (width - 1)
      let threshold := (1 <<< width) - 2 - remaining
      let (value, place) :=
        if value % half < threshold then (value % half, place + width - 1)
        else if half ≤ value then (value - threshold, place + width)
        else (value, place + width)
      let share : Share := (value : Int) - 1
      if remaining < share.natAbs then none
      else
        let acc := share :: acc
        let (acc, place) := if share = 0 then zeros b acc place (8 * b.size) else (acc, place)
        sharesFrom b acc (remaining - share.natAbs) place fuel

/-- Reads the description of a table for symbols up to `maxSymbol` with at most
`2 ^ maxLog` states.  The rest of the bytes comes back. -/
def describe (maxSymbol maxLog : Nat) (b : Bytes) : Option (FseTable × Bytes) := do
  let a := b.toArray
  let log := bitsAt a 0 4 + 5
  if maxLog < log then none
  let (shares, place) ← sharesFrom a [] (1 <<< log) 4 (maxSymbol + 1)
  let used := (place + 7) / 8
  if maxSymbol + 1 < shares.length || b.length < used then none
  return (build log shares, b.drop used)

end Fse

namespace FseTable

def state (t : FseTable) (n : Nat) : FseState := t.states.getD n default

def start (t : FseTable) (s : Backward) : Nat × Backward := s.read t.log

def next (t : FseTable) (n : Nat) (s : Backward) : Nat × Backward :=
  let st := t.state n
  let (more, s) := s.read st.bits
  (st.base + more, s)

end FseTable
end Zstd
end ContainerLayer
