/-
Reading JSON text.

The reader is a stack machine over tokens: its state says what may come next and holds the
arrays and objects that have been begun and not ended.  At most `maxDepth` of them can be open at
a time.  Of several entries of an object with one key the last counts.

The program itself does not read JSON, it is given a reader.  All that it relies on is the relation
`Denotes` between a text and its value: strict JSON, this bound on the depth, the last of several
entries with a key, integers of 64 bits, and floats that are computed from their digits as
`decimal?` computes them.  `parse?_eq_some_iff` says that the reader here meets it and accepts
nothing else.
-/
import FieldQuery.Json.Token

namespace FieldQuery.Json

/-- The most arrays and objects that can be open at a time. -/
def maxDepth : Nat := 127

/-- An array or an object that has not ended. -/
inductive Container where
  /-- The items of an array, the last one first. -/
  | array (items : List Json)
  | object (fields : Fields Json)
  /-- The entries of an object and the key of one whose value has not ended. -/
  | entry (fields : Fields Json) (key : String)

/-- What may come next. -/
inductive Expected where
  | value
  | valueOrEnd
  | key
  | keyOrEnd
  | colon
  | commaOrEnd
  deriving DecidableEq, Repr

/-- What the reader knows after some tokens. -/
inductive State where
  /-- Inside the containers, the innermost first. -/
  | reading (expected : Expected) (containers : List Container)
  /-- The text has been read up to its value. -/
  | finished (j : Json)

namespace State

/-- The state before the first token. -/
def start : State := .reading .value []

/-- Puts a value where the innermost container expects it. -/
def deliver (j : Json) : List Container → Option State
  | [] => some (.finished j)
  | .array items :: outer => some (.reading .commaOrEnd (.array (j :: items) :: outer))
  | .entry fields key :: outer =>
    some (.reading .commaOrEnd (.object (Fields.insert key j fields) :: outer))
  | .object _ :: _ => none

/-- Begins a container. -/
def begin (expected : Expected) (container : Container) (containers : List Container) :
    Option State :=
  if containers.length < maxDepth then some (.reading expected (container :: containers))
  else none

/-- Reads a token where a value can begin. -/
def stepValue (containers : List Container) : Token → Option State
  | .scalar s => deliver (.scalar s) containers
  | .beginArray => begin .valueOrEnd (.array []) containers
  | .beginObject => begin .keyOrEnd (.object []) containers
  | _ => none

/-- Reads a token where a key can begin. -/
def stepKey : List Container → Token → Option State
  | .object fields :: outer, .scalar (.string key) =>
    some (.reading .colon (.entry fields key :: outer))
  | _, _ => none

/-- Reads the end of a container. -/
def stepEnd : List Container → Token → Option State
  | .array items :: outer, .endArray => deliver (.array items.reverse) outer
  | .object fields :: outer, .endObject => deliver (.object fields) outer
  | _, _ => none

/-- Reads a token after a value inside a container. -/
def stepAfter : List Container → Token → Option State
  | .array items :: outer, .comma => some (.reading .value (.array items :: outer))
  | .object fields :: outer, .comma => some (.reading .key (.object fields :: outer))
  | containers, token => stepEnd containers token

/-- Reads a token. -/
def step : State → Token → Option State
  | .reading .value containers, token => stepValue containers token
  | .reading .valueOrEnd containers, .endArray => stepEnd containers .endArray
  | .reading .valueOrEnd containers, token => stepValue containers token
  | .reading .key containers, token => stepKey containers token
  | .reading .keyOrEnd containers, .endObject => stepEnd containers .endObject
  | .reading .keyOrEnd containers, token => stepKey containers token
  | .reading .colon containers, .colon => some (.reading .value containers)
  | .reading .colon _, _ => none
  | .reading .commaOrEnd containers, token => stepAfter containers token
  | .finished _, _ => none

/-- The value of a text that ends here. -/
def value? : State → Option Json
  | .finished j => some j
  | .reading .. => none

end State

/-- The value that a JSON text stands for. -/
def parse? (text : String) : Option Json :=
  (tokens? text.toList).bind fun tokens => (tokens.foldlM State.step .start).bind State.value?

end FieldQuery.Json
