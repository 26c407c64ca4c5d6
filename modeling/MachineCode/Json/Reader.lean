import MachineCode.Json.Token

/-!
# Reading JSON

The value that a JSON text denotes is found in one pass over its tokens. The state of the pass is
the stack of the containers that are still open, together with what may come next; a text denotes a
value if the pass ends with a value and no open container. Containers that hold something may be
nested up to a fixed depth.

## Main definitions

* `Json.State` : the state between two tokens.
* `Json.State.step` : how a token changes the state.
* `Json.ofText?` : the value that a text denotes.
-/

namespace MachineCode.Json

/-- A container that is still open, with what it holds so far, last part first. An object has also
the name whose value is being read. -/
inductive Frame where
  | array (items : List Json)
  | object (members : List (String × Json)) (name : String)

/-- What has been read and what may come next. -/
inductive State where
  /-- A value has to come. -/
  | awaitValue (frames : List Frame)
  /-- The first item of an array has to come, or its end. -/
  | awaitFirstItem (frames : List Frame)
  /-- The first name of an object has to come, or its end. -/
  | awaitFirstName (frames : List Frame)
  /-- A further name of an object has to come. -/
  | awaitName (members : List (String × Json)) (frames : List Frame)
  /-- The colon behind a name has to come. -/
  | awaitColon (members : List (String × Json)) (name : String) (frames : List Frame)
  /-- A value is complete. -/
  | complete (value : Json) (frames : List Frame)

namespace State

/-- The greatest number of containers that may be open at the same time. An empty container does not
count. -/
def maxDepth : Nat :=
  200

/-- The state behind the first token of a value. -/
def beginValue (frames : List Frame) : Token → Option State
  | .null => some (.complete .null frames)
  | .bool value => some (.complete (.bool value) frames)
  | .number value => some (.complete (.number value) frames)
  | .string value => some (.complete (.string value) frames)
  | .openBracket => some (.awaitFirstItem frames)
  | .openBrace => some (.awaitFirstName frames)
  | .closeBracket | .closeBrace | .colon | .comma => none

/-- The state behind a token that follows a complete value. -/
def afterValue (value : Json) : List Frame → Token → Option State
  | .array items :: frames, .comma => some (.awaitValue (.array (value :: items) :: frames))
  | .array items :: frames, .closeBracket =>
    some (.complete (.array (value :: items).reverse) frames)
  | .object members name :: frames, .comma => some (.awaitName ((name, value) :: members) frames)
  | .object members name :: frames, .closeBrace =>
    some (.complete (.object ((name, value) :: members).reverse) frames)
  | _, _ => none

/-- The state behind a token, if the token may come. -/
def step : State → Token → Option State
  | .awaitValue frames, token => beginValue frames token
  | .awaitFirstItem frames, .closeBracket => some (.complete (.array []) frames)
  | .awaitFirstItem frames, token =>
    if frames.length < maxDepth then beginValue (.array [] :: frames) token else none
  | .awaitFirstName frames, .closeBrace => some (.complete (.object []) frames)
  | .awaitFirstName frames, .string name =>
    if frames.length < maxDepth then some (.awaitColon [] name frames) else none
  | .awaitFirstName .., _ => none
  | .awaitName members frames, .string name => some (.awaitColon members name frames)
  | .awaitName .., _ => none
  | .awaitColon members name frames, .colon => some (.awaitValue (.object members name :: frames))
  | .awaitColon .., _ => none
  | .complete value frames, token => afterValue value frames token

/-- The value that has been read, if nothing is left open. -/
def result? : State → Option Json
  | .complete value [] => some value
  | _ => none

end State

/-- The value that a sequence of tokens denotes. -/
def ofTokens? (tokens : List Token) : Option Json :=
  (tokens.foldlM State.step (.awaitValue [])).bind State.result?

/-- The value that a text denotes. -/
def ofText? (text : String) : Option Json :=
  (Token.scan text.toList).bind ofTokens?

end MachineCode.Json
