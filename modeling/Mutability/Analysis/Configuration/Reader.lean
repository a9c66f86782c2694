import Mutability.Analysis.Configuration
import Mutability.Json.Scanner

/-!
# Reading a configuration

A configuration is an object of the three settings, or an array of them in order; settings left
out have their standard value. The text is read from left to right, the first problem decides,
and what follows the first complete value is not looked at.
-/

namespace Mutability.Configuration

open Json (skipGap scanWord scanString scanNumber isDigit)

/-- Reads a value at the front and returns what follows it. -/
abbrev PartReader (α : Type) := List Char → Except Fault (α × List Char)

/-! ## Pieces of text -/

def orMalformed {α : Type} : Option α → Except Fault α
  | some a => .ok a
  | none => .error .malformed

/-- One character after a gap. -/
def expect (c : Char) (cs : List Char) : Except Fault (List Char) :=
  orMalformed (scanWord [c] (skipGap cs))

def readString (cs : List Char) : Except Fault (String × List Char) := do
  let (text, rest) ← orMalformed (scanString cs)
  return (String.ofList text, rest)

/-- A value of a wrong kind does not fit, provided that it is JSON. Of an array or object only the
bracket is looked at. -/
def wrongKind (path : List Segment) : List Char → Fault
  | 'n' :: rest => sound (scanWord ['u', 'l', 'l'] rest).isSome
  | 't' :: rest => sound (scanWord ['r', 'u', 'e'] rest).isSome
  | 'f' :: rest => sound (scanWord ['a', 'l', 's', 'e'] rest).isSome
  | '"' :: rest => sound (scanString rest).isSome
  | '[' :: _ => .misfit path
  | '{' :: _ => .misfit path
  | cs => sound (scanNumber cs).isSome
where
  sound (isJson : Bool) : Fault := if isJson then .misfit path else .malformed

/-! ## Settings -/

def named (path : List Segment) (name : String) : Except Fault Convention :=
  match Convention.ofText? name with
  | some c => .ok c
  | none => .error (.misfit path)

def readNull (path : List Segment) (cs : List Char) : Except Fault (List Char) :=
  match skipGap cs with
  | 'n' :: rest => orMalformed (scanWord ['u', 'l', 'l'] rest)
  | cs => .error (wrongKind path cs)

/-- A convention is its name, or an object with the name as its only key and null as its value.
Whatever else stands in place of a name is not even looked at. -/
def readConvention (path : List Segment) : PartReader Convention := fun cs =>
  match skipGap cs with
  | '"' :: rest => do
    let (name, rest) ← readString rest
    return (← named path name, rest)
  | '{' :: rest => do
    let rest ← expect '"' rest
    let (name, rest) ← readString rest
    let convention ← named path name
    let rest ← expect ':' rest
    let rest ← readNull (path ++ [.key name]) rest
    let rest ← expect '}' rest
    return (convention, rest)
  | _ => .error .malformed

/-- An integer that is not negative. -/
def readCount (path : List Segment) : PartReader Nat := fun cs =>
  match skipGap cs with
  | [] => .error .malformed
  | c :: rest =>
    if c = '-' || isDigit c then
      match scanNumber (c :: rest) with
      | some (.int n, rest) => if n < 0 then .error (.misfit path) else .ok (n.toNat, rest)
      | some _ => .error (.misfit path)
      | none => .error .malformed
    else .error (wrongKind path (c :: rest))

def readFlag (path : List Segment) : PartReader Bool := fun cs =>
  match skipGap cs with
  | 't' :: rest => do return (true, ← orMalformed (scanWord ['r', 'u', 'e'] rest))
  | 'f' :: rest => do return (false, ← orMalformed (scanWord ['a', 'l', 's', 'e'] rest))
  | cs => .error (wrongKind path cs)

/-! ## The object form -/

/-- The settings read so far. -/
structure Settings where
  convention : Option Convention
  maxPasses : Option Nat
  parallel : Option Bool

def Settings.none : Settings := ⟨.none, .none, .none⟩

def Settings.complete (s : Settings) : Configuration :=
  ⟨s.convention.getD standard.convention, s.maxPasses.getD standard.maxPasses,
   s.parallel.getD standard.parallel⟩

/-- Reads the value after a key, which may not have been read before. -/
def readSetting {α : Type} (known : Option α) (read : PartReader α) : PartReader α := fun cs => do
  if known.isSome then .error (.misfit [])
  else read (← expect ':' cs)

/-- Reads one member, whose key is already read. -/
def readMember (s : Settings) (key : String) (cs : List Char) :
    Except Fault (Settings × List Char) := do
  let path := [Segment.key key]
  if key = "annotation_mode" then
    let (value, rest) ← readSetting s.convention (readConvention path) cs
    return ({ s with convention := some value }, rest)
  else if key = "max_passes" then
    let (value, rest) ← readSetting s.maxPasses (readCount path) cs
    return ({ s with maxPasses := some value }, rest)
  else if key = "parallel" then
    let (value, rest) ← readSetting s.parallel (readFlag path) cs
    return ({ s with parallel := some value }, rest)
  else .error (.misfit path)

/-- Reads members from a key on; `budget` bounds their number. -/
def readMembers (s : Settings) (budget : Nat) (cs : List Char) : Except Fault Settings :=
  match budget with
  | 0 => .error .malformed
  | budget + 1 => do
    let cs ← expect '"' cs
    let (key, rest) ← readString cs
    let (s, rest) ← readMember s key rest
    match skipGap rest with
    | '}' :: _ => return s
    | ',' :: rest => readMembers s budget rest
    | _ => .error .malformed

/-! ## The array form -/

/-- Reads an element if there is one; all but the first stand after a comma. -/
def readElement {α : Type} (first : Bool) (read : PartReader α) :
    PartReader (Option α) := fun cs =>
  match skipGap cs with
  | ']' :: rest => .ok (none, ']' :: rest)
  | [] => .error .malformed
  | c :: rest =>
    if first then some? (read (c :: rest))
    else if c = ',' then
      match skipGap rest with
      | ']' :: _ => .error .malformed
      | rest => some? (read rest)
    else .error .malformed
where
  some? : Except Fault (α × List Char) → Except Fault (Option α × List Char)
  | .ok (a, rest) => .ok (some a, rest)
  | .error fault => .error fault

def readElements (cs : List Char) : Except Fault Settings := do
  let (convention, rest) ← readElement true (readConvention [.index 0]) cs
  let (maxPasses, rest) ← readElement false (readCount [.index 1]) rest
  let (parallel, rest) ← readElement false (readFlag [.index 2]) rest
  let _ ← expect ']' rest
  return ⟨convention, maxPasses, parallel⟩

/-! ## The whole -/

def readSettings (cs : List Char) : Except Fault Settings :=
  match skipGap cs with
  | '[' :: rest => readElements rest
  | '{' :: rest =>
    match skipGap rest with
    | '}' :: _ => .ok .none
    | rest => readMembers .none rest.length rest
  | cs => .error (wrongKind [] cs)

/-- The configuration written at the front of a text. -/
def read (text : String) : Except Fault Configuration := do
  (← readSettings text.toList).complete.validate

end Mutability.Configuration
