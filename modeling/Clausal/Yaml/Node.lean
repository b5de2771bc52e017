import Clausal.Yaml.Scalar
import Clausal.Yaml.Token
/-! Documents as trees of mappings, lists and scalars. -/
namespace Clausal.Yaml

/-- A node of a document. -/
inductive Node where
  /-- A scalar; a plain one may stand for something other than its text. -/
  | scalar (text : List Char) (isPlain : Bool)
  | list (items : List Node)
  /-- A mapping; keys may come more than once. -/
  | mapping (fields : List (Node × Node))
deriving Inhabited

namespace Node

/-- The node where there is nothing. -/
def absent : Node :=
  .scalar [] true

mutual

/-- The node at the start of some tokens, and the tokens after it. In brackets no block collection may
start, and only after a key may dashes without a list of their own. Each call takes a token or hands
the tokens on once, so twice their number is enough fuel. -/
def read : (fuel : Nat) → (inFlow allowsDashes : Bool) → List Token → Option (Node × List Token)
  | 0, _, _, _ => none
  | fuel + 1, inFlow, allowsDashes, tokens =>
    match tokens with
    | .scalar text isPlain :: rest => some (.scalar text isPlain, rest)
    | .flowListStart :: .flowListEnd :: rest => some (.list [], rest)
    | .flowListStart :: rest =>
      (readFlowItems fuel rest).map fun (items, rest) => (.list items, rest)
    | .flowMappingStart :: .flowMappingEnd :: rest => some (.mapping [], rest)
    | .flowMappingStart :: rest =>
      (readFlowFields fuel rest).map fun (fields, rest) => (.mapping fields, rest)
    | .item :: _ =>
      if allowsDashes then
        (readItems fuel false tokens).map fun (items, rest) => (.list items, rest)
      else none
    | .listStart :: rest =>
      if inFlow then none
      else (readItems fuel true rest).map fun (items, rest) => (.list items, rest)
    | .mappingStart :: rest =>
      if inFlow then none
      else (readFields fuel rest).map fun (fields, rest) => (.mapping fields, rest)
    | _ => none

/-- The node at the start of some tokens, or the absent one before one of the given tokens. -/
def readUnless : (fuel : Nat) → (inFlow allowsDashes : Bool) → (stops : List Token) →
    List Token → Option (Node × List Token)
  | 0, _, _, _, _ => none
  | fuel + 1, inFlow, allowsDashes, stops, tokens =>
    if tokens.head?.any (stops.contains ·) then some (absent, tokens)
    else read fuel inFlow allowsDashes tokens

/-- The items of a list by columns. One without a list of its own ends before any other token. -/
def readItems : (fuel : Nat) → (isClosed : Bool) → List Token → Option (List Node × List Token)
  | 0, _, _ => none
  | fuel + 1, isClosed, tokens =>
    match tokens with
    | .item :: rest => do
      let stops := if isClosed then [.item, .blockEnd] else [.item, .key, .value, .blockEnd]
      let (item, rest) ← readUnless fuel false false stops rest
      let (items, rest) ← readItems fuel isClosed rest
      return (item :: items, rest)
    | .blockEnd :: rest => some ([], if isClosed then rest else tokens)
    | _ => if isClosed then none else some ([], tokens)

/-- The fields of a mapping by columns. -/
def readFields : (fuel : Nat) → List Token → Option (List (Node × Node) × List Token)
  | 0, _ => none
  | fuel + 1, tokens =>
    match tokens with
    | .key :: rest => do
      let stops := [.key, .value, .blockEnd]
      let (key, rest) ← readUnless fuel false true stops rest
      let (value, rest) ← match rest with
        | .value :: rest => readUnless fuel false true stops rest
        | rest => some (absent, rest)
      let (fields, rest) ← readFields fuel rest
      return ((key, value) :: fields, rest)
    | .blockEnd :: rest => some ([], rest)
    | _ => none

/-- A key and its value in brackets, which `closing` ends. -/
def readFlowField : (fuel : Nat) → (closing : Token) → List Token →
    Option ((Node × Node) × List Token)
  | 0, _, _ => none
  | fuel + 1, closing, tokens => do
    let (key, rest) ← readUnless fuel true false [.value, .separator, closing] tokens
    match rest with
    | .value :: rest =>
      let (value, rest) ← readUnless fuel true false [.separator, closing] rest
      return ((key, value), rest)
    | rest => return ((key, absent), rest)

/-- One or more items in brackets. A key with its value is a mapping. -/
def readFlowItems : (fuel : Nat) → List Token → Option (List Node × List Token)
  | 0, _ => none
  | fuel + 1, tokens => do
    let (item, rest) ← match tokens with
      | .key :: rest =>
        (readFlowField fuel .flowListEnd rest).map fun (field, rest) => (.mapping [field], rest)
      | tokens => read fuel true false tokens
    match rest with
    | .separator :: .flowListEnd :: rest | .flowListEnd :: rest => return ([item], rest)
    | .separator :: rest =>
      let (items, rest) ← readFlowItems fuel rest
      return (item :: items, rest)
    | _ => none

/-- One or more fields in brackets. A key without a sign for one has no value. -/
def readFlowFields : (fuel : Nat) → List Token → Option (List (Node × Node) × List Token)
  | 0, _ => none
  | fuel + 1, tokens => do
    let (field, rest) ← match tokens with
      | .key :: rest => readFlowField fuel .flowMappingEnd rest
      | tokens => (read fuel true false tokens).map fun (key, rest) => ((key, absent), rest)
    match rest with
    | .separator :: .flowMappingEnd :: rest | .flowMappingEnd :: rest => return ([field], rest)
    | .separator :: rest =>
      let (fields, rest) ← readFlowFields fuel rest
      return (field :: fields, rest)
    | _ => none

end

/-- The node of the one document that some tokens are, and the tokens after it. -/
def ofTokens? (tokens : List Token) : Option Node := do
  let fuel := 2 * tokens.length + 2
  let (node, rest) ← match tokens with
    | [] | [.documentStart] => some (absent, [])
    | .documentStart :: .documentEnd :: rest => some (absent, rest)
    | .documentStart :: rest => read fuel false false rest
    | tokens => read fuel false false tokens
  if rest.all (· == .documentEnd) then some node else none

/-- The node that a document is. -/
def parse? (text : String) : Option Node := do
  ofTokens? (← tokens? text)

/-- The text of a scalar. -/
def text? : Node → Option String
  | .scalar text _ => some (String.ofList text)
  | _ => none

/-- The fields of a mapping, whose keys have to be texts. A missing value counts as an empty
mapping. -/
def fields? : Node → Option (List (String × Node))
  | .mapping fields => fields.mapM fun (key, value) => key.text?.map (·, value)
  | .scalar [] true => some []
  | _ => none

/-- The truth value of a plain scalar. -/
def truth? : Node → Option Bool
  | .scalar text true => Yaml.truth? (String.ofList text)
  | _ => none

/-- The count of a plain scalar. -/
def count? : Node → Option Nat
  | .scalar text true => Yaml.count? text
  | _ => none

/-- The texts of a list of scalars. A missing value counts as an empty list. -/
def texts? : Node → Option (List String)
  | .list items => items.mapM text?
  | .scalar [] true => some []
  | _ => none

/-- The values of a field. -/
def valuesOf (name : String) (fields : List (String × Node)) : List Node :=
  (fields.filter (·.1 = name)).map (·.2)

/-- The value of a field that has to be there once. -/
def field? (name : String) (fields : List (String × Node)) : Option Node :=
  match valuesOf name fields with
  | [value] => some value
  | _ => none

/-- The value of a field that may be there once. -/
def optionalField? (name : String) (fields : List (String × Node)) : Option (Option Node) :=
  match valuesOf name fields with
  | [] => some none
  | [value] => some (some value)
  | _ => none

end Node
end Clausal.Yaml
