import RowCodec.Binding.Config
import RowCodec.Json.Fields

/-!
# Configurations as JSON

Every setting may be missing and then has its standard value; an array may be shorter than the
settings are many.
-/

namespace RowCodec.Config

def toJson (c : Config) : Json := Json.ofMembers [("redact_sensitive", .bool c.redactSensitive)]

def ofJson? : Json → Option Config
  | .array [] => some standard
  | j => do
    match ← Json.fields? ["redact_sensitive"] j with
    | [none] => return standard
    | [some redact] => return ⟨← Json.toBool? redact⟩
    | _ => none

/-- The configuration that a JSON text stands for. -/
def parse? (text : String) : Option Config := (Json.parse? false text).bind ofJson?

end RowCodec.Config
