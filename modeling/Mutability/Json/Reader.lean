import Mutability.Json.Scanner

/-!
# Reading JSON text

`parse` reads a whole text as one value. Arrays and objects may stand at most `nestingLimit` deep.
-/

namespace Mutability.Json

abbrev ValueScanner := List Char → Option (Json × List Char)

/-- The items of an array after its bracket; `budget` bounds their number. -/
def scanItems (item : ValueScanner) (budget : Nat) (cs : List Char) :
    Option (List Json × List Char) :=
  match budget with
  | 0 => none
  | budget + 1 => do
    let (first, rest) ← item cs
    match skipGap rest with
    | ',' :: rest => do
      let (others, rest) ← scanItems item budget rest
      return (first :: others, rest)
    | ']' :: rest => return ([first], rest)
    | _ => none

/-- The members of an object after its brace; `budget` bounds their number. -/
def scanMembers (item : ValueScanner) (budget : Nat) (cs : List Char) :
    Option (List (String × Json) × List Char) :=
  match budget with
  | 0 => none
  | budget + 1 => do
    let rest ← scanWord ['"'] (skipGap cs)
    let (key, rest) ← scanString rest
    let rest ← scanWord [':'] (skipGap rest)
    let (value, rest) ← item rest
    let first := (String.ofList key, value)
    match skipGap rest with
    | ',' :: rest => do
      let (others, rest) ← scanMembers item budget rest
      return (first :: others, rest)
    | '}' :: rest => return ([first], rest)
    | _ => none

/-- A value, with `depth` brackets still to be opened. -/
def scanValue (depth : Nat) (cs : List Char) : Option (Json × List Char) :=
  match skipGap cs with
  | 'n' :: rest => (scanWord ['u', 'l', 'l'] rest).map fun rest => (null, rest)
  | 't' :: rest => (scanWord ['r', 'u', 'e'] rest).map fun rest => (bool true, rest)
  | 'f' :: rest => (scanWord ['a', 'l', 's', 'e'] rest).map fun rest => (bool false, rest)
  | '"' :: rest => (scanString rest).map fun (text, rest) => (string (String.ofList text), rest)
  | '[' :: rest =>
    match depth with
    | 0 => none
    | depth + 1 =>
      match skipGap rest with
      | ']' :: rest => some (array [], rest)
      | rest => (scanItems (scanValue depth) rest.length rest).map fun (items, rest) =>
        (array items, rest)
  | '{' :: rest =>
    match depth with
    | 0 => none
    | depth + 1 =>
      match skipGap rest with
      | '}' :: rest => some (object [], rest)
      | rest => (scanMembers (scanValue depth) rest.length rest).map fun (members, rest) =>
        (ofMembers members, rest)
  | rest => scanNumber rest

/-- How deep arrays and objects may stand in each other. -/
def nestingLimit : Nat := 127

def parse (text : String) : Option Json := do
  let (value, rest) ← scanValue nestingLimit text.toList
  if (skipGap rest).isEmpty then return value else none

end Mutability.Json
