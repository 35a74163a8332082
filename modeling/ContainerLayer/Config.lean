import ContainerLayer.LayerError
import ContainerLayer.StripPrefix
import ContainerLayer.Toml.Bindings
import ContainerLayer.Tree.Resolve

/-
The configuration: which directory of a Windows layer holds the container's
files, and what kind of host applies the layers.
-/

namespace ContainerLayer

/-- The kinds of hosts, told apart by the layers that they apply on their own. -/
inductive Host where
  | linux
  | windows
  deriving DecidableEq

def Host.text : Host → String
  | linux => "linux"
  | windows => "windows"

def Host.ofText? (t : String) : Option Host := [linux, windows].find? fun h => h.text = t

structure Config where
  /-- The directory whose entries are moved to the root. -/
  start : String := windowsFiles
  host : Host := .linux
  deriving DecidableEq

namespace Config

open Toml

def startKey : String := "path_prefix"

def hostKey : String := "host"

def startOf? (b : Bindings) : Option String :=
  match b.lookup [startKey] with
  | none => some windowsFiles
  | some (.text s) => some s
  | some _ => none

/-- Is there nothing in what a path is bound to? -/
def isHollow (b : Bindings) (path : KeyPath) : Bool :=
  match b.lookup path with
  | some .emptyList => true
  | some (.table _) => b.keysIn path = []
  | _ => false

/-- The host that bindings give: by its name, or as the one key of a table. -/
def hostOf? (b : Bindings) : Option Host :=
  match b.lookup [hostKey] with
  | none => some .linux
  | some (.text s) => Host.ofText? s
  | some .emptyList => none
  | some (.table _) =>
    match b.keysIn [hostKey] with
    | [k] => if isHollow b [hostKey, k] then Host.ofText? k else none
    | _ => none

/-- The configuration that bindings give.  Keys without a meaning are refused. -/
def ofBindings? (b : Bindings) : Option Config := do
  if (b.keysIn []).all fun k => k = startKey || k = hostKey then
    return { start := ← startOf? b, host := ← hostOf? b }
  else none

/-- Reads a configuration.  An empty start would take all entries for the container's. -/
def ofText (text : String) : Except ConfigFlaw Config :=
  match (Bindings.ofText? text).bind ofBindings? with
  | none => .error .malformed
  | some c => if c.start = "" then .error .emptyStart else .ok c

def load (t : Tree) (path : PathParts) : Except ConfigFlaw Config :=
  match t.readFile path with
  | .error _ => .error .unreadable
  | .ok data =>
    match Utf8.decode? data with
    | none => .error .unreadable
    | some text => ofText text

end Config
end ContainerLayer
