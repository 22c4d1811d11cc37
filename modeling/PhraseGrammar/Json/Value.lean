import PhraseGrammar.Json.Token

/-!
# JSON values

A value is written as its tokens, one directly after the other. `Value.read?` goes through the
tokens of a text once, with the brackets that are open on a stack, and accepts exactly one value.
An object keeps its fields in order, repeated ones too; which of them count is left to whoever
decodes the value.
-/

set_option autoImplicit false

namespace PhraseGrammar.Json

/-- A JSON value. -/
inductive Value where
  | null
  | bool (value : Bool)
  | natural (n : Nat)
  | decimal (numeral : List Char)
  | string (content : Literal)
  | array (items : List Value)
  | object (fields : List (Literal × Value))

namespace Value

/-! ## Writing -/

mutual

/-- The tokens of a value. -/
def tokens : Value → List Token
  | null => [.null]
  | bool value => [.bool value]
  | natural n => [.natural n]
  | decimal numeral => [.decimal numeral]
  | string content => [.literal content]
  | array [] => [.openBracket, .closeBracket]
  | array (item :: rest) => .openBracket :: (tokens item ++ itemTokens rest)
  | object [] => [.openBrace, .closeBrace]
  | object ((key, value) :: rest) =>
    .openBrace :: .literal key :: .colon :: (tokens value ++ fieldTokens rest)

/-- The tokens of the items after the first, with the closing bracket. -/
def itemTokens : List Value → List Token
  | [] => [.closeBracket]
  | item :: rest => .comma :: (tokens item ++ itemTokens rest)

/-- The tokens of the fields after the first, with the closing brace. -/
def fieldTokens : List (Literal × Value) → List Token
  | [] => [.closeBrace]
  | (key, value) :: rest =>
    .comma :: .literal key :: .colon :: (tokens value ++ fieldTokens rest)

end

/-- The written form of a value. -/
def write (value : Value) : String :=
  String.ofList (value.tokens.flatMap Token.spelling)

/-! ## Reading -/

/-- What an open bracket holds so far, the last first, and the key that awaits its value. -/
inductive Frame where
  | items (before : List Value)
  | fields (before : List (Literal × Value)) (key : Literal)

/-- What the next token has to be. -/
inductive Awaited where
  | value
  | itemOrEnd
  | keyOrEnd
  | key (before : List (Literal × Value))
  | colon (before : List (Literal × Value)) (key : Literal)
  | commaOrEnd (value : Value)

/-- The value of a token that is one by itself. -/
def ofToken? : Token → Option Value
  | .null => some null
  | .bool value => some (bool value)
  | .natural n => some (natural n)
  | .decimal numeral => some (decimal numeral)
  | .literal content => some (string content)
  | _ => none

/-- What a token that begins a value opens, or that it is a value. -/
def begin? (frames : List Frame) (token : Token) : Option (Awaited × List Frame) :=
  match token with
  | .openBracket => some (.itemOrEnd, frames)
  | .openBrace => some (.keyOrEnd, frames)
  | token => (ofToken? token).map fun value => (.commaOrEnd value, frames)

/-- One step of reading: what is awaited after the token, and the brackets that are open then. -/
def step? : Awaited → List Frame → Token → Option (Awaited × List Frame)
  | .value, frames, token => begin? frames token
  | .itemOrEnd, frames, .closeBracket => some (.commaOrEnd (array []), frames)
  | .itemOrEnd, frames, token => begin? (.items [] :: frames) token
  | .keyOrEnd, frames, .closeBrace => some (.commaOrEnd (object []), frames)
  | .keyOrEnd, frames, .literal key => some (.colon [] key, frames)
  | .key before, frames, .literal key => some (.colon before key, frames)
  | .colon before key, frames, .colon => some (.value, .fields before key :: frames)
  | .commaOrEnd value, .items before :: frames, .comma =>
    some (.value, .items (value :: before) :: frames)
  | .commaOrEnd value, .items before :: frames, .closeBracket =>
    some (.commaOrEnd (array (value :: before).reverse), frames)
  | .commaOrEnd value, .fields before key :: frames, .comma =>
    some (.key ((key, value) :: before), frames)
  | .commaOrEnd value, .fields before key :: frames, .closeBrace =>
    some (.commaOrEnd (object ((key, value) :: before).reverse), frames)
  | _, _, _ => none

/-- Reads tokens to their end, where one value has been read and no bracket is open. -/
def read? : Awaited → List Frame → List Token → Option Value
  | .commaOrEnd value, [], [] => some value
  | _, _, [] => none
  | awaited, frames, token :: rest =>
    match step? awaited frames token with
    | some (awaited, frames) => read? awaited frames rest
    | none => none

/-- The value of a text. -/
def parse? (text : String) : Option Value :=
  (tokens? text.toList).bind fun tokens => read? .value [] tokens

end Value

end PhraseGrammar.Json
