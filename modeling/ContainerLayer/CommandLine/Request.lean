import ContainerLayer.MediaType

/-
Requests: what the arguments of the command ask for.

Arguments are taken one by one, and the first that makes no sense ends the
reading, as does the first that asks for help or the version.  What is missing
shows only at the end.
-/

namespace ContainerLayer

/-- The arguments that come with a value. -/
inductive Setting where
  | layout
  | digest
  | size
  | mediaType
  | target
  | config
  deriving DecidableEq

namespace Setting

def all : List Setting := [layout, digest, size, mediaType, target, config]

def required : List Setting := [layout, digest, size, target]

def name : Setting → String
  | layout => "layout"
  | digest => "digest"
  | size => "size"
  | mediaType => "media-type"
  | target => "target"
  | config => "config"

def ofName? (n : String) : Option Setting := all.find? fun s => s.name = n

def isPath : Setting → Bool
  | layout => true
  | target => true
  | config => true
  | _ => false

end Setting

/-- The arguments that stand on their own. -/
inductive Flag where
  | plain
  | help
  | version
  deriving DecidableEq

def Flag.ofName? (n : String) : Option Flag :=
  if n = "plain" then some .plain
  else if n = "help" then some .help
  else if n = "version" then some .version
  else none

def Flag.ofLetter? (c : Char) : Option Flag :=
  if c = 'h' then some .help
  else if c = 'V' then some .version
  else none

inductive UsageError where
  | unexpected (argument : String)
  | noValue (s : Setting)
  | unneededValue (flag value : String)
  | repeated (name : String)
  | badSize (text : String)
  | missing (s : List Setting)
  deriving DecidableEq

def UsageError.message : UsageError → String
  | unexpected a => s!"unexpected argument '{a}' found"
  | noValue s => s!"a value is required for '--{s.name}' but none was supplied"
  | unneededValue f v => s!"unexpected value '{v}' for '--{f}' found; no more were expected"
  | repeated n => s!"the argument '--{n}' cannot be used multiple times"
  | badSize t => s!"invalid value '{t}' for '--size'"
  | missing s =>
    "the following required arguments were not provided: "
      ++ String.intercalate " " (s.map fun s => "--" ++ s.name)

structure ApplyRequest where
  layout : String
  digest : String
  size : Nat
  mediaType : String := MediaType.layerBase
  target : String
  config : Option String := none
  plain : Bool := false
  deriving DecidableEq

inductive Request where
  | apply (r : ApplyRequest)
  | help
  | version
  deriving DecidableEq

namespace Request

/-- The values given so far, and whether the layer is to be applied as it is. -/
structure Draft where
  values : List (Setting × String) := []
  plain : Bool := false

def Draft.get? (d : Draft) (s : Setting) : Option String := d.values.lookup s

/-- A number of 64 bits; there may be a plus in front of it. -/
def number? (text : String) : Option Nat :=
  let ds := match text.toList with
    | '+' :: r => r
    | cs => cs
  if ds = [] || !ds.all Char.isDigit then none
  else
    let n := ds.foldl (fun n c => n * 10 + (c.toNat - 48)) 0
    if n < 0x10000000000000000 then some n else none

def Draft.set (d : Draft) (s : Setting) (value : String) : Except UsageError Draft :=
  if (d.get? s).isSome then .error (.repeated s.name)
  else if s.isPath && value = "" then .error (.noValue s)
  else if s = .size && (number? value).isNone then .error (.badSize value)
  else .ok { d with values := (s, value) :: d.values }

def Draft.finish (d : Draft) : Except UsageError Request :=
  match d.get? .layout, d.get? .digest, (d.get? .size).bind number?, d.get? .target with
  | some layout, some digest, some size, some target =>
    .ok <| .apply {
      layout, digest, size, target
      mediaType := (d.get? .mediaType).getD MediaType.layerBase
      config := d.get? .config
      plain := d.plain }
  | _, _, _, _ => .error (.missing (Setting.required.filter fun s => (d.get? s).isNone))

/-- An argument by its form. -/
inductive Form where
  /-- Two dashes: what follows is not for settings and flags. -/
  | separator
  | long (name : String) (value : Option String)
  | short (letter : Char)
  | plain

def formOf (argument : String) : Form :=
  match argument.toList with
  | ['-', '-'] => .separator
  | '-' :: '-' :: cs =>
    let name := String.ofList (cs.takeWhile (· != '='))
    match cs.dropWhile (· != '=') with
    | [] => .long name none
    | _ :: value => .long name (some (String.ofList value))
  | '-' :: c :: _ => .short c
  | _ => .plain

/-- Can the argument be the value of the setting in front of it? -/
def isValue (argument : String) : Bool :=
  match formOf argument with
  | .plain => true
  | _ => false

/-- Takes a flag; `next` reads the other arguments. -/
def takeFlag (d : Draft) (f : Flag) (next : Draft → Except UsageError Request) :
    Except UsageError Request :=
  match f with
  | .help => .ok .help
  | .version => .ok .version
  | .plain => if d.plain then .error (.repeated "plain") else next { d with plain := true }

def readFrom (d : Draft) : List String → Except UsageError Request
  | [] => d.finish
  | argument :: rest =>
    match formOf argument with
    | .plain => .error (.unexpected argument)
    | .separator =>
      match rest with
      | [] => d.finish
      | extra :: _ => .error (.unexpected extra)
    | .short c =>
      match Flag.ofLetter? c with
      | none => .error (.unexpected argument)
      | some f => takeFlag d f fun d => readFrom d rest
    | .long name value =>
      match Setting.ofName? name, Flag.ofName? name, value with
      | some s, _, some v => do readFrom (← d.set s v) rest
      | some s, _, none =>
        match rest with
        | v :: rest => if isValue v then do readFrom (← d.set s v) rest else .error (.noValue s)
        | [] => .error (.noValue s)
      | none, some _, some v => .error (.unneededValue name v)
      | none, some f, none => takeFlag d f fun d => readFrom d rest
      | none, none, _ => .error (.unexpected argument)

def read (arguments : List String) : Except UsageError Request := readFrom {} arguments

end Request
end ContainerLayer
