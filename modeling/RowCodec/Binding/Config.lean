/-!
# Configuration of a binding
-/

namespace RowCodec

/-- What a serializer is told beside its schema and types. -/
structure Config where
  /-- Keeps the names of fields and columns, and the types of columns, out of failed writes and reads;
      they then show the column's index only. -/
  redactSensitive : Bool
deriving DecidableEq, Repr

namespace Config

/-- Names are shown. -/
def standard : Config := ⟨false⟩

instance : Inhabited Config := ⟨standard⟩

end Config

end RowCodec
