import ThriftIdl.Model
import ThriftIdl.Source

/-!
Building models, one after the other. The warnings of the last build are kept, also if it
failed, until they are asked for.
-/

namespace ThriftIdl

/-- A builder holds the warnings of its last build. -/
structure Builder where
  warnings : List Warning := []

/-- Why no model was built from files. -/
inductive BuildError where
  | discovery (error : DiscoveryError)
  | source (error : Model.AddError)

namespace Builder

def cleared (builder : Builder) : Builder := { builder with warnings := [] }

def finish (builder : Builder) (model : Model) : Except Fault Model × Builder :=
  let (result, model) := model.parse
  let (warnings, model) := model.drain
  (result.map fun () => model, { builder with warnings := warnings })

/-- The model of documents given by name and text. -/
def buildTexts (builder : Builder) (texts : List (String × String)) :
    Except Fault Model × Builder :=
  match texts.foldlM (fun (model : Model) text => model.add text.1 text.2) Model.empty with
  | .error fault => (.error fault, builder.cleared)
  | .ok model => builder.cleared.finish model

/-- The model of the documents found under the inputs. -/
def buildFiles (builder : Builder) (files : Files) (inputs : List String) :
    Except BuildError Model × Builder :=
  match Source.discover files inputs with
  | .error error => (.error (.discovery error), builder.cleared)
  | .ok sources =>
    let added := sources.foldlM (fun (model : Model) source =>
      model.addBytes source.name source.content) Model.empty
    match added with
    | .error error => (.error (.source error), builder.cleared)
    | .ok model =>
      let (result, builder) := builder.cleared.finish model
      (result.mapError fun fault => .source (.fault fault), builder)

/-- The warnings of the last build, and the builder without them. -/
def drain (builder : Builder) : List Warning × Builder := (builder.warnings, {})

end Builder

end ThriftIdl
