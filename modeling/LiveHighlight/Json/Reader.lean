import LiveHighlight.Json.Token

/-!
# Reading JSON

Builds the value that a text holds from its tokens. Reading never fails: a defect becomes part of the value, at the place
where it stands in the text.
-/

namespace LiveHighlight

namespace Json

mutual

/-- The value that the tokens begin with, and the tokens after it. Each nested call spends one unit of fuel. -/
def readValue : (fuel : Nat) → List Token → Json × List Token
  | 0, _ => (.broken .malformed, [])
  | _ + 1, [] => (.broken .truncated, [])
  | fuel + 1, token :: rest =>
    match token with
    | .null => (.null, rest)
    | .bool b => (.bool b, rest)
    | .natural n => (.natural n, rest)
    | .number => (.number, rest)
    | .string s => (.string s, rest)
    | .beginArray =>
      match rest with
      | [] => (.array [] (.stopped .truncated), [])
      | .endArray :: rest => (.array [] .closed, rest)
      | rest =>
        let (items, ending, rest) := readItems fuel rest
        (.array items ending, rest)
    | .beginObject =>
      match rest with
      | [] => (.object [] (.stopped .truncated), [])
      | .endObject :: rest => (.object [] .closed, rest)
      | rest =>
        let (fields, ending, rest) := readFields fuel rest
        (.object fields ending, rest)
    | .bad _ defect => (.broken defect, [])
    | .endArray | .endObject | .comma | .colon => (.broken .malformed, [])

/-- The items of an array from its first one on. -/
def readItems : (fuel : Nat) → List Token → List Json × Ending × List Token
  | 0, _ => ([], .stopped .malformed, [])
  | fuel + 1, tokens =>
    let (item, rest) := readValue fuel tokens
    match rest with
    | [] => ([item], .stopped .truncated, [])
    | .endArray :: rest => ([item], .closed, rest)
    | [.comma] => ([item], .dangling .truncated, [])
    | .comma :: .endArray :: rest => ([item], .dangling .malformed, rest)
    | .comma :: rest =>
      let (items, ending, rest) := readItems fuel rest
      (item :: items, ending, rest)
    | _ :: rest => ([item], .stopped .malformed, rest)

/-- The fields of an object from its first one on. -/
def readFields : (fuel : Nat) → List Token → List (String × Json) × Ending × List Token
  | 0, _ => ([], .stopped .malformed, [])
  | fuel + 1, tokens =>
    match tokens with
    | [] => ([], .stopped .truncated, [])
    | .bad true defect :: rest => ([], .stopped defect, rest)
    | .string key :: rest =>
      match rest with
      | [] => ([(key, .broken .truncated)], .stopped .truncated, [])
      | .colon :: rest =>
        let (value, rest) := readValue fuel rest
        match rest with
        | [] => ([(key, value)], .stopped .truncated, [])
        | .endObject :: rest => ([(key, value)], .closed, rest)
        | .comma :: rest =>
          let (fields, ending, rest) := readFields fuel rest
          ((key, value) :: fields, ending, rest)
        | _ :: rest => ([(key, value)], .stopped .malformed, rest)
      | _ :: rest => ([(key, .broken .malformed)], .stopped .malformed, rest)
    | _ :: rest => ([], .stopped .malformed, rest)

end

/-- The value that a text holds, and whether anything follows it. Two units of fuel for each token are enough, since every
call either spends a token or is made by one that did. -/
def ofText (text : String) : Json × Bool :=
  let tokens := Token.ofText text.toList
  let (value, rest) := readValue (2 * tokens.length + 1) tokens
  (value, !rest.isEmpty)

end Json

end LiveHighlight
