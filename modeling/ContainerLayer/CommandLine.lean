import ContainerLayer.Applier
import ContainerLayer.CommandLine.Request

/-
The command: applies a layer from a layout of an image to a directory.

It prints the descriptor of the layer without compression.  Arguments that make
no sense end it with the status 2, and everything else that goes wrong with 1.
-/

namespace ContainerLayer
namespace CommandLine

def name : String := "winlayer-apply"

def version : String := "0.1.0"

def help : String :=
  "Applies a container layer from an OCI image layout to a directory\n\n"
    ++ "Usage: " ++ name
    ++ " [OPTIONS] --layout <LAYOUT> --digest <DIGEST> --size <SIZE> --target <TARGET>\n\n"
    ++ "Options:\n"
    ++ "      --layout <LAYOUT>          The OCI image layout directory holding the blob\n"
    ++ "      --digest <DIGEST>          Digest of the layer blob (sha256:...)\n"
    ++ "      --size <SIZE>              Size of the layer blob in bytes\n"
    ++ "      --media-type <MEDIA_TYPE>  [default: " ++ MediaType.layerBase ++ "]\n"
    ++ "      --target <TARGET>          The directory to apply the layer to\n"
    ++ "      --config <CONFIG>          Configuration file\n"
    ++ "      --plain                    Apply the layer as is, instead of as a Windows layer\n"
    ++ "  -h, --help                     Print help\n"
    ++ "  -V, --version                  Print version\n"

inductive RunError where
  | digest (flaw : Digest.Flaw)
  | layer (e : LayerError)

def RunError.message : RunError → String
  | digest flaw => "parsing --digest: " ++ flaw.message
  | layer e => e.message

/-- The configuration that a request names, or else the usual one. -/
def configOf (r : ApplyRequest) (t : Tree) : Except LayerError Config :=
  match r.config with
  | none => .ok {}
  | some path => (Config.load t (Tree.partsOf (Bytes.ofText path))).mapError .config

def storeOf (r : ApplyRequest) : Store := { root := Bytes.ofText r.layout }

def prepare (r : ApplyRequest) (t : Tree) : Except RunError (Config × Descriptor) := do
  let config ← (configOf r t).mapError .layer
  let digest ← (Digest.parse r.digest).mapError .digest
  return (config, { mediaType := .ofText r.mediaType, digest, size := r.size })

def apply (r : ApplyRequest) (t : Tree) : Except RunError Descriptor × Tree :=
  match prepare r t with
  | .error e => (.error e, t)
  | .ok (config, d) =>
    let store := storeOf r
    let applier := Applier.forHost store (.direct store) config
    let mounts := [Mount.bind (Bytes.ofText r.target)]
    let (result, t) := applier.apply d mounts { windowsLayer := !r.plain } t
    (result.mapError .layer, t)

structure Outcome where
  status : Nat
  output : String := ""
  complaint : String := ""
  tree : Tree

def run (arguments : List String) (t : Tree) : Outcome :=
  match Request.read arguments with
  | .error e => { status := 2, complaint := "error: " ++ e.message ++ "\n", tree := t }
  | .ok .help => { status := 0, output := help, tree := t }
  | .ok .version => { status := 0, output := name ++ " " ++ version ++ "\n", tree := t }
  | .ok (.apply r) =>
    match apply r t with
    | (.error e, tree) => { status := 1, complaint := "Error: " ++ e.message ++ "\n", tree }
    | (.ok d, tree) => { status := 0, output := d.render ++ "\n", tree }

end CommandLine
end ContainerLayer
