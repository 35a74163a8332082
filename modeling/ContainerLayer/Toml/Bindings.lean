import ContainerLayer.Toml.Statement

/-
What a setting file says: which paths of keys are bound to what.

No path is bound twice.  A table may be named by headers below its own before
its own header comes, but it has only one header, and neither dotted keys nor
headers add to a table that was finished elsewhere.
-/

namespace ContainerLayer
namespace Toml

/-- What made a table. -/
inductive Origin where
  /-- It was written between braces, as a whole. -/
  | inline
  /-- Its own header. -/
  | header
  /-- Dotted keys that lead through it. -/
  | dotted
  /-- A header of a table below it. -/
  | implied
  deriving DecidableEq

inductive Binding where
  | text (s : String)
  | emptyList
  | table (origin : Origin)
  deriving DecidableEq

abbrev Bindings := List (KeyPath × Binding)

namespace Bindings

def bind? (path : KeyPath) (x : Binding) (b : Bindings) : Option Bindings :=
  match b.lookup path with
  | none => some ((path, x) :: b)
  | some _ => none

/-- The paths from `base` down along `keys`, without `base` and the last one. -/
def between (base keys : KeyPath) : List KeyPath :=
  (List.range keys.length).tail.map fun n => base ++ keys.take n

def passHeader (b : Bindings) (path : KeyPath) : Option Bindings :=
  match b.lookup path with
  | none => some ((path, .table .implied) :: b)
  | some (.table .inline) => none
  | some (.table _) => some b
  | some _ => none

/-- Passes through the table at `path` on the way of dotted keys. -/
def passDotted (b : Bindings) (path : KeyPath) : Option Bindings :=
  match b.lookup path with
  | none => some ((path, .table .dotted) :: b)
  | some (.table .dotted) => some b
  | some (.table .implied) => some b
  | some _ => none

def openTable (path : KeyPath) (b : Bindings) : Option Bindings := do
  let b ← (between [] path).foldlM passHeader b
  match b.lookup path with
  | none => return (path, .table .header) :: b
  | some (.table .implied) =>
    return b.map fun p => if p.1 = path then (path, .table .header) else p
  | some _ => none

/-- Goes along dotted keys in the table at `base`, up to the last but one.  That one has to
be a table made by dotted keys, too. -/
def passKeys (base keys : KeyPath) (b : Bindings) : Option Bindings := do
  let way := between base keys
  let b ← way.foldlM passDotted b
  match way.getLast? with
  | none => return b
  | some last => if b.lookup last = some (.table .dotted) then return b else none

mutual

/-- Binds a path to a value, and what a table holds below it. -/
def bindValue (path : KeyPath) (v : Value) (b : Bindings) : Option Bindings :=
  match v with
  | .text s => bind? path (.text s) b
  | .emptyList => bind? path .emptyList b
  | .table fields => do
    let b ← bind? path (.table .inline) b
    bindFields path fields b

def bindFields (base : KeyPath) (fields : List (KeyPath × Value)) (b : Bindings) :
    Option Bindings :=
  match fields with
  | [] => some b
  | (keys, v) :: rest => do
    let b ← passKeys base keys b
    let b ← bindValue (base ++ keys) v b
    bindFields base rest b

end

/-- Carries out statements, where `base` is the table that assignments belong to. -/
def ofStatementsIn (base : KeyPath) (b : Bindings) : List Statement → Option Bindings
  | [] => some b
  | .header path :: rest => do ofStatementsIn path (← openTable path b) rest
  | .assignment keys v :: rest => do
    ofStatementsIn base (← bindFields base [(keys, v)] b) rest

/-- The bindings that statements come to, unless they contradict each other. -/
def ofStatements? (ss : List Statement) : Option Bindings := ofStatementsIn [] [] ss

def ofText? (text : String) : Option Bindings := (read? text).bind ofStatements?

def keysIn (path : KeyPath) (b : Bindings) : List String :=
  b.filterMap fun p => if p.1.dropLast = path then p.1.getLast? else none

end Bindings
end Toml
end ContainerLayer
