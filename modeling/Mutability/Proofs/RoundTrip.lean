import Mathlib.Data.List.Nodup
import Mutability.Codec.Facts
import Mutability.Codec.Markers
import Mutability.Codec.Types
import Mutability.Proofs.Vocabulary

/-!
# Codecs read what they write

Every type, declaration, marker and fact is read back as it was written
(`decode_encode_reordered`). JSON does not fix the order of an object's members, so reading is
looked at up to that order (`Json.Reordered`): records find their members by key, and an
alternative is an object with one member only. `LawfulCodec` goes through the data from the inside
out, and `TypeExpr.induct` carries it through types nested to any depth.
-/

namespace Mutability

/-- The same value with the members of its objects in any order. -/
inductive Json.Reordered : Json → Json → Prop where
  | refl (value : Json) : Reordered value value
  | array {items items' : List Json} (h : List.Forall₂ Reordered items items') :
      Reordered (.array items) (.array items')
  | object {members moved members' : List (String × Json)} (hmoved : members.Perm moved)
      (hkeys : moved.map Prod.fst = members'.map Prod.fst)
      (hvalues : List.Forall₂ Reordered (moved.map Prod.snd) (members'.map Prod.snd)) :
      Reordered (.object members) (.object members')

namespace Json

/-- Each member is found under its key, reordered. -/
def Finds (members members' : List (String × Json)) : Prop :=
  ∀ key value, members.lookup key = some value →
    ∃ value', members'.lookup key = some value' ∧ value.Reordered value'

theorem forall₂_reordered_refl (items : List Json) : List.Forall₂ Reordered items items :=
  List.forall₂_same.mpr fun item _ => .refl item

theorem Finds.refl (members : List (String × Json)) : Finds members members :=
  fun _ value h => ⟨value, h, .refl value⟩

/-- Where keys are distinct, a member is found if it is there. -/
theorem lookup_eq_some_iff_mem {members : List (String × Json)}
    (hnodup : (members.map Prod.fst).Nodup) {key : String} {value : Json} :
    members.lookup key = some value ↔ (key, value) ∈ members := by
  rw [List.lookup_eq_some_iff]
  constructor
  · rintro ⟨before, after, rfl, -⟩
    simp
  · intro hmem
    obtain ⟨before, after, rfl⟩ := List.append_of_mem hmem
    refine ⟨before, after, rfl, fun member hmember => ?_⟩
    rw [List.map_append, List.nodup_append] at hnodup
    have hne : member.1 ≠ key := hnodup.2.2 _ (List.mem_map_of_mem hmember) _ (by simp)
    simpa using hne.symm

theorem Finds.of_forall₂ {members members' : List (String × Json)}
    (hkeys : members.map Prod.fst = members'.map Prod.fst)
    (hvalues : List.Forall₂ Reordered (members.map Prod.snd) (members'.map Prod.snd)) :
    Finds members members' := by
  induction members generalizing members' with
  | nil => exact fun key value h => by cases h
  | cons member rest ih =>
    obtain ⟨key, value⟩ := member
    cases members' with
    | nil => cases hkeys
    | cons member' rest' =>
      obtain ⟨key', value'⟩ := member'
      obtain ⟨rfl, hrest⟩ := List.cons.inj hkeys
      obtain ⟨hvalue, hvalues⟩ := List.forall₂_cons.mp hvalues
      intro sought found hfound
      rw [List.lookup_cons] at hfound ⊢
      split at hfound
      · rename_i heq
        cases hfound
        exact ⟨value', by rw [heq], hvalue⟩
      · rename_i heq
        rw [heq]
        exact ih hrest hvalues sought found hfound

namespace Reordered

variable {value : Json}

/-- Members may be moved as they are. -/
theorem of_perm {members members' : List (String × Json)} (h : members.Perm members') :
    (Json.object members).Reordered (.object members') :=
  .object h rfl (forall₂_reordered_refl _)

theorem eq_null (h : value.Reordered .null) : value = .null := by
  cases h
  rfl

theorem of_array {items : List Json} (h : (Json.array items).Reordered value) :
    ∃ items', value = .array items' ∧ List.Forall₂ Reordered items items' := by
  cases h with
  | refl => exact ⟨items, rfl, forall₂_reordered_refl items⟩
  | array h => exact ⟨_, rfl, h⟩

theorem of_object {members : List (String × Json)} (hnodup : (members.map Prod.fst).Nodup)
    (h : (Json.object members).Reordered value) :
    ∃ members', value = .object members' ∧ Finds members members' := by
  cases h with
  | refl => exact ⟨members, rfl, .refl members⟩
  | @object _ moved members' hmoved hkeys hvalues =>
    refine ⟨members', rfl, fun key value hvalue => ?_⟩
    have hnodup' : (moved.map Prod.fst).Nodup := (hmoved.map _).nodup_iff.mp hnodup
    have hmem : (key, value) ∈ moved :=
      hmoved.mem_iff.mp ((lookup_eq_some_iff_mem hnodup).mp hvalue)
    exact Finds.of_forall₂ hkeys hvalues key value ((lookup_eq_some_iff_mem hnodup').mpr hmem)

theorem of_single {key : String} {content : Json}
    (h : (Json.object [(key, content)]).Reordered value) :
    ∃ content', value = .object [(key, content')] ∧ content.Reordered content' := by
  cases h with
  | refl => exact ⟨content, rfl, .refl content⟩
  | @object _ moved members' hmoved hkeys hvalues =>
    obtain rfl := List.singleton_perm.mp hmoved
    obtain ⟨⟨key', content'⟩, rfl, rfl⟩ := List.map_eq_singleton_iff.mp hkeys.symm
    exact ⟨content', rfl, (List.forall₂_cons.mp hvalues).1⟩

end Reordered

end Json

/-- What a codec writes is read back, also with its members in another order. -/
class LawfulCodec (α : Type) [Codec α] : Prop where
  decode_of_reordered : ∀ {a : α} {value : Json}, (Codec.encode a).Reordered value →
    Codec.decode value = some a

theorem LawfulCodec.decode_encode {α : Type} [Codec α] [LawfulCodec α] (a : α) :
    Codec.decode (Codec.encode a) = some a :=
  decode_of_reordered (.refl _)

namespace Codec

open LawfulCodec

variable {α β : Type} [Codec α] [Codec β]

/-! ## Plain values, lists and missing values -/

instance : LawfulCodec Bool where
  decode_of_reordered h := by
    cases h
    rfl

instance : LawfulCodec String where
  decode_of_reordered h := by
    cases h
    rfl

instance : LawfulCodec Nat where
  decode_of_reordered {n} _ h := by
    cases h
    have hnonneg : ¬ (n : Int) < 0 := by omega
    show (if (n : Int) < 0 then none else some (n : Int).toNat) = some n
    rw [if_neg hnonneg, Int.toNat_natCast]

instance : LawfulCodec UInt32 where
  decode_of_reordered {n} _ h := by
    cases h
    have hrange : (0 : Int) ≤ n.toNat ∧ (n.toNat : Int) < UInt32.size :=
      ⟨Int.natCast_nonneg _, Int.ofNat_lt.mpr n.toNat_lt_size⟩
    show (if _ then some (UInt32.ofNat (n.toNat : Int).toNat) else none) = some n
    rw [if_pos hrange, Int.toNat_natCast, UInt32.ofNat_toNat]

instance : LawfulCodec UInt64 where
  decode_of_reordered {n} _ h := by
    cases h
    have hrange : (0 : Int) ≤ n.toNat ∧ (n.toNat : Int) < UInt64.size :=
      ⟨Int.natCast_nonneg _, Int.ofNat_lt.mpr n.toNat_lt_size⟩
    show (if _ then some (UInt64.ofNat (n.toNat : Int).toNat) else none) = some n
    rw [if_pos hrange, Int.toNat_natCast, UInt64.ofNat_toNat]

instance : LawfulCodec Int64 where
  decode_of_reordered {n} _ h := by
    cases h
    have hrange : Int64.minValue.toInt ≤ n.toInt ∧ n.toInt ≤ Int64.maxValue.toInt :=
      ⟨n.minValue_le_toInt, n.toInt_le⟩
    show (if _ then some (Int64.ofInt n.toInt) else none) = some n
    rw [if_pos hrange, Int64.ofInt_toInt]

omit [Codec α] in
/-- A list is read back if its items are. -/
theorem decodeAll_of_reordered {write : α → Json} {read : Json → Option α} {as : List α}
    (hread : ∀ a ∈ as, ∀ value, (write a).Reordered value → read value = some a)
    {values : List Json} (h : List.Forall₂ Json.Reordered (as.map write) values) :
    decodeAll read values = some as := by
  induction as generalizing values with
  | nil =>
    cases h
    rfl
  | cons a as ih =>
    cases h with
    | cons hvalue hvalues =>
      rw [decodeAll, hread a List.mem_cons_self _ hvalue,
        ih (fun a ha => hread a (List.mem_cons_of_mem _ ha)) hvalues]
      rfl

instance [LawfulCodec α] : LawfulCodec (List α) where
  decode_of_reordered h := by
    obtain ⟨values, rfl, hvalues⟩ := h.of_array
    exact decodeAll_of_reordered (fun _ _ _ => decode_of_reordered) hvalues

instance [LawfulCodec α] [LawfulCodec β] : LawfulCodec (α × β) where
  decode_of_reordered h := by
    obtain ⟨values, rfl, hvalues⟩ := h.of_array
    rcases hvalues with _ | ⟨ha, _ | ⟨hb, _ | _⟩⟩
    show (do return (← decode _, ← decode _)) = _
    rw [decode_of_reordered ha, decode_of_reordered hb]
    rfl

/-- A missing value can be told from the others if those are not written as null. -/
theorem lawful_option [LawfulCodec α] (hnull : ∀ a : α, encode a ≠ .null) :
    LawfulCodec (Option α) where
  decode_of_reordered {a value} h := by
    cases a with
    | none =>
      cases h
      rfl
    | some a =>
      have hread : decode value = some a := decode_of_reordered h
      cases value with
      | null => exact absurd h.eq_null (hnull a)
      | bool | int | decimal | string | array | object => exact congrArg (Option.map some) hread

/-! ## Alternatives -/

omit [Codec α] in
theorem lawful_ofNames {all : List α} {name : α → String} (hall : ∀ a, a ∈ all)
    (hnames : (all.map name).Nodup) : @LawfulCodec α (ofNames all name) := by
  refine @LawfulCodec.mk α (ofNames all name) fun {a} value h => ?_
  have hfind : all.find? (name · = name a) = some a := by
    cases hfound : all.find? (name · = name a) with
    | none =>
      have hnone := List.find?_eq_none.mp hfound a (hall a)
      simp at hnone
    | some b =>
      have hname : name b = name a := by simpa using List.find?_some hfound
      rw [List.inj_on_of_nodup_map hnames (hall b) (hall a) hname]
  cases h
  show (do unit (← all.find? (name · = name a)) none) = some a
  rw [hfind]
  rfl

/-- An alternative is read back if its content is and its name leads to it. -/
theorem decode_of_tagged [LawfulCodec α] {name : String} {a : α} {value : Json} (make : α → β)
    (h : (tagged name a).Reordered value)
    (hname : ∀ given, decode (.object [(name, given)]) = content make (some given)) :
    decode value = some (make a) := by
  obtain ⟨given, rfl, hgiven⟩ := h.of_single
  rw [hname]
  exact congrArg (Option.map make) (decode_of_reordered hgiven)

/-! ## Records -/

section Fields

variable {members members' : List (String × Json)} (h : Json.Finds members members') {key : String}

include h

theorem field_of_finds [LawfulCodec α] {a : α} (hkey : members.lookup key = some (encode a)) :
    field (members'.lookup key) = some a := by
  obtain ⟨value, hvalue, hsame⟩ := h key _ hkey
  rw [hvalue]
  exact decode_of_reordered hsame

theorem optionalField_of_finds [LawfulCodec (Option α)] {a : Option α}
    (hkey : members.lookup key = some (encode a)) :
    optionalField (members'.lookup key) = some a := by
  obtain ⟨value, hvalue, hsame⟩ := h key _ hkey
  rw [hvalue]
  exact decode_of_reordered hsame

end Fields

end Codec

open Codec LawfulCodec

/-! ## Facts -/

instance : LawfulCodec Grade := lawful_ofNames (fun a => by cases a <;> decide) (by decide)

instance : LawfulCodec MultiLevel where
  decode_of_reordered h := by
    obtain ⟨values, rfl, hvalues⟩ := h.of_array
    rcases hvalues with _ | ⟨hbase, _ | ⟨hcontent, _ | ⟨hdeep, _ | _⟩⟩⟩
    show (do return (⟨← decode _, ← decode _, ← decode _⟩ : MultiLevel)) = _
    rw [decode_of_reordered hbase, decode_of_reordered hcontent, decode_of_reordered hdeep]
    rfl

instance : LawfulCodec Size where
  decode_of_reordered {s value} h := by
    cases s with
    | notASize =>
      cases h
      rfl
    | atLeast n => exact decode_of_tagged Size.atLeast h fun _ => rfl
    | exactly n => exact decode_of_tagged Size.exactly h fun _ => rfl

instance : LawfulCodec SizeCopy := lawful_ofNames (fun a => by cases a <;> decide) (by decide)

instance : LawfulCodec Fact where
  decode_of_reordered {fact value} h := by
    cases fact with
    | delayed =>
      cases h
      rfl
    | flag b => exact decode_of_tagged Fact.flag h fun _ => rfl
    | multi m => exact decode_of_tagged Fact.multi h fun _ => rfl
    | size s => exact decode_of_tagged Fact.size h fun _ => rfl
    | sizeCopy c => exact decode_of_tagged Fact.sizeCopy h fun _ => rfl

/-! ## Markers -/

instance : LawfulCodec MarkerName := lawful_ofNames MarkerName.mem_all (by decide)

instance : LawfulCodec Argument where
  decode_of_reordered {a value} h := by
    cases a with
    | bool b =>
      cases h
      rfl
    | int n =>
      obtain rfl : value = .int n.toInt := by
        cases h
        rfl
      exact congrArg (Option.map Argument.int) (decode_of_reordered h)
    | text s =>
      cases h
      rfl

instance : LawfulCodec Marker where
  decode_of_reordered {m value} h := by
    obtain ⟨members, rfl, hfinds⟩ := h.of_object (by simp)
    show (do return (⟨← field (members.lookup "kind"),
      ← field (members.lookup "parameters")⟩ : Marker)) = some m
    rw [field_of_finds (a := m.name) hfinds rfl, field_of_finds (a := m.arguments) hfinds rfl]
    rfl

/-! ## Types -/

instance : LawfulCodec Wildcard := lawful_ofNames (fun a => by cases a <;> decide) (by decide)

instance : LawfulCodec Primitive := lawful_ofNames (fun a => by cases a <;> decide) (by decide)

instance : LawfulCodec Owner where
  decode_of_reordered {owner value} h := by
    cases owner with
    | type name => exact decode_of_tagged Owner.type h fun _ => rfl
    | method name => exact decode_of_tagged Owner.method h fun _ => rfl

instance : LawfulCodec (Option Owner) := lawful_option fun owner => by cases owner <;> nofun

instance : LawfulCodec TypeParameter where
  decode_of_reordered {p value} h := by
    obtain ⟨members, rfl, hfinds⟩ := h.of_object (by simp)
    show (do return (⟨← optionalField (members.lookup "owner"), ← field (members.lookup "index"),
      ← field (members.lookup "name")⟩ : TypeParameter)) = some p
    rw [optionalField_of_finds (a := p.owner) hfinds rfl, field_of_finds (a := p.index) hfinds rfl,
      field_of_finds (a := p.name) hfinds rfl]
    rfl

instance : LawfulCodec Base where
  decode_of_reordered {base value} h := by
    cases base with
    | nominal name => exact decode_of_tagged Base.nominal h fun _ => rfl
    | primitive p => exact decode_of_tagged Base.primitive h fun _ => rfl
    | parameter p => exact decode_of_tagged Base.parameter h fun _ => rfl
    | null =>
      cases h
      rfl
    | wildcard =>
      cases h
      rfl

namespace TypeExpr

theorem listToJson_eq_map (ts : List TypeExpr) : listToJson ts = ts.map encode := by
  induction ts with
  | nil => rfl
  | cons t ts ih =>
    rw [listToJson, ih]
    rfl

theorem ofJsonList?_eq_decodeAll (values : List Json) :
    ofJsonList? values = decodeAll ofJson? values := by
  induction values with
  | nil =>
    rw [ofJsonList?]
    rfl
  | cons value values ih => rw [ofJsonList?, decodeAll, ih]

/-- A type is a record of its four parts. -/
theorem encode_eq (t : TypeExpr) :
    encode t = .object [("base", encode t.base), ("parameters", encode t.arguments),
      ("arrays", encode t.arrays), ("wildcard", encode t.wildcard)] := by
  obtain ⟨base, arguments, arrays, wildcard⟩ := t
  show toJson _ = _
  rw [toJson, listToJson_eq_map]
  rfl

/-- The arguments are read from the member of their key. -/
theorem argumentsOf?_eq {members : List (String × Json)} {values : List Json}
    (h : members.lookup "parameters" = some (.array values)) :
    argumentsOf? members = ofJsonList? values := by
  induction members with
  | nil => cases h
  | cons member rest ih =>
    obtain ⟨key, value⟩ := member
    rw [List.lookup_cons] at h
    rw [argumentsOf?.eq_def]
    by_cases hkey : key = "parameters"
    · subst hkey
      cases h
      exact if_pos rfl
    · have hbeq : ("parameters" == key) = false := by simpa using Ne.symm hkey
      rw [hbeq] at h
      exact (if_neg hkey).trans (ih h)

theorem decode_of_reordered_encode (t : TypeExpr) {value : Json} (h : (encode t).Reordered value) :
    decode value = some t := by
  induction t using TypeExpr.induct generalizing value with
  | step t ih =>
    obtain ⟨base, arguments, arrays, wildcard⟩ := t
    rw [encode_eq] at h
    obtain ⟨members, rfl, hfinds⟩ := h.of_object (by simp)
    have harguments : argumentsOf? members = some arguments := by
      obtain ⟨_, hlookup, hsame⟩ := hfinds "parameters" _ rfl
      obtain ⟨values, rfl, hvalues⟩ := hsame.of_array
      rw [argumentsOf?_eq hlookup, ofJsonList?_eq_decodeAll]
      exact decodeAll_of_reordered (fun a ha _ => ih a ha) hvalues
    show ofJson? (.object members) = _
    rw [ofJson?, field_of_finds (a := base) hfinds rfl, harguments,
      field_of_finds (a := arrays) hfinds rfl, field_of_finds (a := wildcard) hfinds rfl]
    rfl

end TypeExpr

instance : LawfulCodec TypeExpr := ⟨fun h => TypeExpr.decode_of_reordered_encode _ h⟩

instance : LawfulCodec (Option TypeExpr) := lawful_option fun t => by
  rw [TypeExpr.encode_eq]
  nofun

/-! ## Declarations -/

instance : LawfulCodec Formal where
  decode_of_reordered {f value} h := by
    obtain ⟨members, rfl, hfinds⟩ := h.of_object (by simp)
    show (do return (⟨← field (members.lookup "name"),
      ← field (members.lookup "bounds")⟩ : Formal)) = some f
    rw [field_of_finds (a := f.name) hfinds rfl, field_of_finds (a := f.bounds) hfinds rfl]
    rfl

instance : LawfulCodec Signature where
  decode_of_reordered {s value} h := by
    obtain ⟨members, rfl, hfinds⟩ := h.of_object (by simp)
    show (do return (⟨← field (members.lookup "parameters"),
      ← field (members.lookup "return_type")⟩ : Signature)) = some s
    rw [field_of_finds (a := s.parameters) hfinds rfl, field_of_finds (a := s.result) hfinds rfl]
    rfl

instance : LawfulCodec (Option Signature) := lawful_option nofun

instance : LawfulCodec DeclarationKind :=
  lawful_ofNames (fun a => by cases a <;> decide) (by decide)

instance : LawfulCodec Declaration where
  decode_of_reordered {d value} h := by
    obtain ⟨members, rfl, hfinds⟩ := h.of_object (by simp)
    show (do return (⟨← field (members.lookup "name"), ← field (members.lookup "kind"),
      ← field (members.lookup "type_parameters"), ← optionalField (members.lookup "parent"),
      ← field (members.lookup "interfaces"), ← optionalField (members.lookup "functional")⟩ :
      Declaration)) = some d
    rw [field_of_finds (a := d.name) hfinds rfl, field_of_finds (a := d.kind) hfinds rfl,
      field_of_finds (a := d.formals) hfinds rfl, optionalField_of_finds (a := d.parent) hfinds rfl,
      field_of_finds (a := d.interfaces) hfinds rfl,
      optionalField_of_finds (a := d.functional) hfinds rfl]
    rfl

/-- Types, declarations, markers and facts are read back as they were written, in whatever order
the members of objects come. -/
theorem decode_encode_reordered :
    (∀ t : TypeExpr, decode (encode t) = some t ∧
      ∀ value, (encode t).Reordered value → decode value = some t) ∧
    (∀ d : Declaration, decode (encode d) = some d ∧
      ∀ value, (encode d).Reordered value → decode value = some d) ∧
    (∀ m : Marker, decode (encode m) = some m ∧
      ∀ value, (encode m).Reordered value → decode value = some m) ∧
    ∀ fact : Fact, decode (encode fact) = some fact ∧
      ∀ value, (encode fact).Reordered value → decode value = some fact :=
  ⟨fun t => ⟨decode_encode t, fun _ => decode_of_reordered⟩,
    fun d => ⟨decode_encode d, fun _ => decode_of_reordered⟩,
    fun m => ⟨decode_encode m, fun _ => decode_of_reordered⟩,
    fun fact => ⟨decode_encode fact, fun _ => decode_of_reordered⟩⟩

/-- Values with the members of their objects the other way round. -/
theorem reversed_members_decode :
    decode (.object [("wildcard", .string "none"), ("arrays", .int 2),
        ("parameters", .array [.object [("wildcard", .string "extends"), ("arrays", .int 0),
          ("parameters", .array []), ("base", .string "null")]]),
        ("base", .object [("nominal", .string "List")])]) =
      some (⟨.nominal "List", [⟨.null, [], 0, .upper⟩], 2, .plain⟩ : TypeExpr) ∧
    decode (.object [("functional", .null), ("interfaces", .array []), ("parent", .null),
        ("type_parameters", .array []), ("kind", .string "interface"), ("name", .string "Box")]) =
      some (Declaration.plainInterface "Box") ∧
    decode (.object [("parameters", .array [.array [.string "min", .int (-3)]]),
        ("kind", .string "Size")]) = some (⟨.size, [("min", .int (-3))]⟩ : Marker) ∧
    decode (.object [("size", .object [("equals", .int 4294967295)])]) =
      some (Fact.size (.exactly 4294967295)) := by
  obtain ⟨htype, hdeclaration, hmarker, hfact⟩ := decode_encode_reordered
  refine ⟨(htype _).2 _ ?_, (hdeclaration _).2 _ (.of_perm (List.reverse_perm _).symm),
    (hmarker _).2 _ (.of_perm (List.reverse_perm _).symm), (hfact _).2 _ (.refl _)⟩
  have hargument : (encode (⟨.null, [], 0, .upper⟩ : TypeExpr)).Reordered _ :=
    .of_perm (List.reverse_perm _).symm
  exact .object (List.reverse_perm _).symm rfl
    (.cons (.refl _) (.cons (.refl _)
      (.cons (.array (.cons hargument .nil)) (.cons (.refl _) .nil))))

end Mutability
