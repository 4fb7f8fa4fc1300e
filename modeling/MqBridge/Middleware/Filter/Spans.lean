import MqBridge.Json.Compose
import MqBridge.Middleware.Filter.Evaluate

/-! Predicates on the raw members of a payload against the document. A field is
read where it stands, without the rest of the document, and the last member of a
name is the one that the parser keeps. -/
namespace MqBridge.FilterExpression

open List hiding lookup

open Option InsertionMap

open Json RawJson

variable {engine : Engine} {floats : Floats} {message : CanonicalMessage} {key : String}
    {depth : Nat}

variable {pairs : List (String × Doc)}

variable {term : FastTerm engine.Decimal}

section Agrees

variable {document merged : Value} {pairs : List (String × Doc)} {result : Bool}
  (hParsed : fromSlice floats message.payload = some document)
    (hPairs : rawPairs message.payload = some pairs)

include hParsed hPairs

end Agrees

end MqBridge.FilterExpression
