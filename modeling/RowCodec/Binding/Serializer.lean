import RowCodec.Binding.Config
import RowCodec.Binding.Group

/-!
# Serializers

A schema with a key type and a value type bound to it: objects to tuples and back.

* `Serializer.ofOffers` binds the key side, then the value side; `Serializer.new` binds two shapes.
* `Serializer.serialize` measures both objects, reserves exactly that many bytes and writes the key
  and the value. A row without a value, or with a null whole key, is not supported and panics.
* `Serializer.decodeKey` and `Serializer.decodeValue` read one side of a tuple.
-/

namespace RowCodec

/-- A bound schema. -/
structure Serializer where
  schema : Schema
  config : Config
  key : GroupBinding
  value : GroupBinding
deriving DecidableEq

namespace Serializer

/-- Binds a key type and a value type to a schema. -/
def ofOffers (schema : Schema) (config : Config) (key value : Offer) :
    Except BindingError Serializer := do
  let redact := config.redactSensitive
  let key ← GroupBinding.ofOffer key schema.key 0 "key" redact
  let value ← GroupBinding.ofOffer value schema.value schema.key.length "value" redact
  return { schema, config, key, value }

/-- Binds the shapes of keys and values to a schema. -/
def new (schema : Schema) (config : Config) (key value : Shape) :
    Except BindingError Serializer :=
  ofOffers schema config key.offer value.offer

/-- What the sizes of the two chunks depend on. A missing value counts for nothing. -/
def statistics (s : Serializer) (key : Object) (value : Option Object) :
    Outcome Diagnostic (Statistic × Statistic) := do
  let keyStatistic ← s.key.statistic s.schema.key key
  let valueStatistic ← match value with
    | some value => s.value.statistic s.schema.value value
    | none => .ok .empty
  return (keyStatistic, valueStatistic)

/-- The number of bytes of the row's tuple. -/
def tupleSize (s : Serializer) (key : Object) (value : Option Object) : Outcome Diagnostic Nat := do
  let (keyStatistic, valueStatistic) ← s.statistics key value
  s.schema.tupleSize keyStatistic valueStatistic

/-- The tuple of a row. -/
def serialize (s : Serializer) (key : Object) (value : Option Object) :
    Outcome Diagnostic EncodedTuple := do
  if s.key.isNull key then Outcome.abort .nullKey
  else
    match value with
    | none => Outcome.abort .nullValue
    | some value =>
      let (keyStatistic, valueStatistic) ← s.statistics key (some value)
      let size ← s.schema.tupleSize keyStatistic valueStatistic
      let builder ← Outcome.mapCause TupleError.diagnostic <|
        Builder.new s.schema size keyStatistic.nonNull valueStatistic.nonNull
      let step := s.key.write key builder
      step.outcome
      let step := s.value.write value step.builder
      step.outcome
      Outcome.ofExcept (step.builder.build.mapError TupleError.diagnostic)

/-- The given bytes as a tuple of the schema. -/
def view (s : Serializer) (bytes : List UInt8) : Outcome Diagnostic View :=
  (View.new s.schema bytes).mapCause TupleError.diagnostic

/-- The key that a tuple holds. -/
def decodeKey (s : Serializer) (bytes : List UInt8) : Outcome Diagnostic Object := do
  s.key.read (← s.view bytes)

/-- The value that a tuple holds. -/
def decodeValue (s : Serializer) (bytes : List UInt8) : Outcome Diagnostic Object := do
  s.value.read (← s.view bytes)

end Serializer

end RowCodec
