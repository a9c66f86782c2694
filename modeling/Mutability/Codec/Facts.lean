import Mutability.Codec.Basic
import Mutability.Analysis.Configuration
import Mutability.Entity.Kind
import Mutability.Lattice.Property

/-!
# Facts and settings as JSON
-/

namespace Mutability

open Codec

instance : Codec Level := ofNames [.delayed, .no, .yes] Level.text

def Grade.key : Grade → String
  | delayed => "delay"
  | no => "false"
  | eventual => "eventual"
  | before => "eventual_before"
  | after => "eventual_after"
  | effective => "effective"

instance : Codec Grade := ofNames Grade.all Grade.key

/-- Three grades, from the value inwards. -/
instance : Codec MultiLevel where
  encode m := .array (m.components.map encode)
  decode
    | .array [base, content, deepContent] => do
      return ⟨← decode base, ← decode content, ← decode deepContent⟩
    | _ => none

instance : Codec Size where
  encode
    | .notASize => .string "not_a_size"
    | .atLeast n => tagged "min" n
    | .exactly n => tagged "equals" n
  decode value := do
    match ← alternative? value with
    | ("not_a_size", given) => unit .notASize given
    | ("min", given) => content .atLeast given
    | ("equals", given) => content .exactly given
    | _ => none

def SizeCopy.key : SizeCopy → String
  | noCopy => "no_copy"
  | copyMin => "copy_min"
  | copy => "copy"

instance : Codec SizeCopy := ofNames [.noCopy, .copyMin, .copy] SizeCopy.key

instance : Codec Fact where
  encode
    | .delayed => .string "delayed"
    | .flag b => tagged "bool" b
    | .multi m => tagged "multi" m
    | .size s => tagged "size" s
    | .sizeCopy c => tagged "size_copy" c
  decode value := do
    match ← alternative? value with
    | ("delayed", given) => unit .delayed given
    | ("bool", given) => content .flag given
    | ("multi", given) => content .multi given
    | ("size", given) => content .size given
    | ("size_copy", given) => content .sizeCopy given
    | _ => none

def Family.key : Family → String
  | level => "level"
  | multiLevel => "multi_level"
  | size => "size"
  | sizeCopy => "size_copy"

instance : Codec Family := ofNames [.level, .multiLevel, .size, .sizeCopy] Family.key

def Property.key : Property → String
  | notNull => "NOT_NULL"
  | contextNotNull => "CONTEXT_NOT_NULL"
  | immutable => "IMMUTABLE"
  | contextImmutable => "CONTEXT_IMMUTABLE"
  | container => "CONTAINER"
  | independent => "INDEPENDENT"
  | modified => "MODIFIED"
  | contextModified => "CONTEXT_MODIFIED"
  | final => "FINAL"
  | finalizer => "FINALIZER"
  | constant => "CONSTANT"
  | fluent => "FLUENT"
  | identity => "IDENTITY"
  | singleton => "SINGLETON"
  | utilityClass => "UTILITY_CLASS"
  | extensionClass => "EXTENSION_CLASS"
  | ignoreModifications => "IGNORE_MODIFICATIONS"
  | notModified1 => "NOT_MODIFIED1"
  | beforeMark => "BEFORE_MARK"
  | size => "SIZE"
  | sizeOut => "SIZE_OUT"
  | sizeCopy => "SIZE_COPY"

instance : Codec Property := ofNames Property.all Property.key

instance : Codec EntityKind :=
  ofNames [.type, .method, .field, .parameter, .localVariable] EntityKind.text

instance : Codec Convention := ofNames Convention.all Convention.text

namespace Configuration

def keys : List String := ["annotation_mode", "max_passes", "parallel"]

/-- The settings given, in order; an array may end early, an object may hold no other keys. -/
def given? : Json → Option (List (Option Json))
  | .object members =>
    if members.all fun member => keys.contains member.1 then
      some (keys.map fun key => members.lookup key)
    else none
  | .array items =>
    if items.length ≤ keys.length then
      some (items.map some ++ List.replicate (keys.length - items.length) none)
    else none
  | _ => none

/-- Settings that are not given have their standard value. -/
instance : Codec Configuration where
  encode c :=
    .object [("annotation_mode", encode c.convention), ("max_passes", encode c.maxPasses),
      ("parallel", encode c.parallel)]
  decode value := do
    match ← given? value with
    | [convention, maxPasses, parallel] =>
      return ⟨← fieldOr standard.convention convention, ← fieldOr standard.maxPasses maxPasses,
        ← fieldOr standard.parallel parallel⟩
    | _ => none

end Configuration

end Mutability
