import MqBridge.Json.Value

/-! `RawPairs`: the top-level members of an object, each value left as it is
written. A name can only be borrowed from the text if it has no escapes. -/
namespace MqBridge.RawJson

open Json Option

def plainByte : Piece → Option UInt8
  | .plain byte _ => some byte
  | _ => none

def borrowedKey (key : List Piece) : Option String := (key.mapM plainByte).bind Text.decodeUtf8

def memberPair (label : Label) (doc : Doc) : Option (String × Doc) :=
  (borrowedKey label.key).bind fun key =>
    if (Text.decodeUtf8 doc.text).isSome then some (key, doc) else none

def memberPairs : Members → Option (List (String × Doc))
  | .last label doc _ => (memberPair label doc).map fun pair => [pair]
  | .next label doc _ rest =>
    (memberPair label doc).bind fun pair => (memberPairs rest).map (pair :: ·)

def pairsOf : Doc → Option (List (String × Doc))
  | .emptyObject _ => some []
  | .object members => memberPairs members
  | _ => none

def rawPairs (bytes : List UInt8) : Option (List (String × Doc)) := (scan bytes).bind pairsOf

end MqBridge.RawJson
