import ContainerLayer.Json.Value
import ContainerLayer.Json.Writer
import ContainerLayer.Mount

/-
Mounts in JSON: objects with the type, the source and the options, or arrays of
these three in that order.  The options may be missing.
-/

namespace ContainerLayer
namespace Mount

/-- The names of the fields in the order in which they are written. -/
def fieldNames : List String := ["type", "source", "options"]

def optionsOf? : JsonValue → Option (List String)
  | .array items => items.mapM JsonValue.text?
  | _ => none

def ofValues? (kind source : JsonValue) (options : Option JsonValue) : Option Mount := do
  return {
    kind := ← kind.text?
    source := Bytes.ofText (← source.text?)
    options := ← (options.map optionsOf?).getD (some []) }

def valuesOf (name : String) (fields : List (Option String × JsonValue)) : List JsonValue :=
  fields.filterMap fun f => if f.1 = some name then some f.2 else none

/-- The mount that a value gives.  Fields with other names mean nothing, but each of the
three names may come only once. -/
def ofValue? : JsonValue → Option Mount
  | .object fields =>
    if fields.any (·.1.isNone) then none
    else
      match valuesOf "type" fields, valuesOf "source" fields, valuesOf "options" fields with
      | [kind], [source], [] => ofValues? kind source none
      | [kind], [source], [options] => ofValues? kind source (some options)
      | _, _, _ => none
  | .array [kind, source] => ofValues? kind source none
  | .array [kind, source, options] => ofValues? kind source (some options)
  | _ => none

def ofJson? (text : String) : Option Mount := (JsonValue.read? text).bind ofValue?

/-- Writes a mount; a source that is no text cannot be written. -/
def toJson? (m : Mount) : Option String := do
  let source ← Utf8.decode? m.source
  return JsonText.object (fieldNames.zip
    [JsonText.quote m.kind, JsonText.quote source, JsonText.array (m.options.map JsonText.quote)])

end Mount
end ContainerLayer
