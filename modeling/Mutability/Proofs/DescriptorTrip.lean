import Mathlib.Data.List.DropRight
import Mutability.Proofs.ContractTrip

/-!
# Eventual descriptors through markers

A method shows its eventual descriptor in `@Mark`, `@Only` and `@TestMark`, with the fields joined
to one label. Read back as contracts, these markers give the descriptor again
(`descriptor_survives`), as long as no field name has a comma in it: a label splits into the names
it was joined from (`splitLabels_label`), and the role is told by which of the three markers there
are (`roleMarker?`).
-/

namespace Mutability

namespace Text

/-- No blank is left at the start of any beginning of a text that has lost its leading blanks. -/
theorem dropWhile_of_isPrefix {cs kept : List Char} (h : kept <+: cs.dropWhile isBlank) :
    kept.dropWhile isBlank = kept := by
  cases kept with
  | nil => rfl
  | cons c rest =>
    obtain ⟨tail, htail⟩ := h
    have hhead := List.head?_dropWhile_not isBlank cs
    rw [← htail] at hhead
    simp only [List.cons_append, List.head?_cons] at hhead
    exact List.dropWhile_cons_of_neg (by simpa using hhead)

theorem trimChars_trimChars (cs : List Char) : trimChars (trimChars cs) = trimChars cs := by
  have hbeginning : trimChars cs <+: cs.dropWhile isBlank := by
    rw [trimChars, ← List.reverse_suffix, List.reverse_reverse]
    exact List.dropWhile_suffix _
  have hstart := dropWhile_of_isPrefix hbeginning
  unfold trimChars at hstart ⊢
  rw [hstart, List.reverse_reverse, List.dropWhile_idempotent]

theorem trim_trim (text : String) : trim (trim text) = trim text := by
  rw [trim, trim, String.toList_ofList, trimChars_trimChars]

theorem nameSet_of_pairwise {names : List String} (h : names.Pairwise (· < ·)) :
    nameSet names = names := by
  induction names with
  | nil => rfl
  | cons name rest ih =>
    obtain ⟨hname, hrest⟩ := List.pairwise_cons.mp h
    show insertName name (nameSet rest) = name :: rest
    rw [ih hrest]
    cases rest with
    | nil => rfl
    | cons other rest => simp only [insertName, if_pos (hname other List.mem_cons_self)]

end Text

namespace Eventual

/-- What the fields of a descriptor look like: trimmed names, none of them empty, in order. -/
structure Tidy (fields : List String) : Prop where
  trimmed : ∀ field ∈ fields, Text.trim field = field
  nonempty : ∀ field ∈ fields, field ≠ ""
  sorted : fields.Pairwise (· < ·)

theorem tidy_fieldSet (fields : List String) : Tidy (fieldSet fields) := by
  have hmem (field : String) (h : field ∈ fieldSet fields) :
      (∃ written ∈ fields, Text.trim written = field) ∧ field ≠ "" := by
    simpa [fieldSet, Text.mem_nameSet] using h
  refine ⟨fun field h => ?_, fun field h => (hmem field h).2, Text.pairwise_nameSet _⟩
  obtain ⟨⟨written, -, rfl⟩, -⟩ := hmem field h
  exact Text.trim_trim written

theorem tidy_of_make {fields : List String} {mark : Bool} {after test : Option Bool} {e : Eventual}
    (h : make fields mark after test = .ok e) : Tidy e.fields := by
  unfold make at h
  split_ifs at h <;> cases h
  · exact tidy_fieldSet []
  · exact tidy_fieldSet fields

namespace Tidy

variable {fields : List String} (h : Tidy fields)

include h

theorem map_trim : fields.map Text.trim = fields :=
  (List.map_congr_left h.trimmed).trans (List.map_id fields)

theorem filter_nonempty : fields.filter (· ≠ "") = fields :=
  List.filter_eq_self.mpr fun field hfield => decide_eq_true (h.nonempty field hfield)

theorem fieldSet_eq : fieldSet fields = fields := by
  rw [fieldSet, h.map_trim, h.filter_nonempty, Text.nameSet_of_pairwise h.sorted]

theorem make_eq (hfields : fields ≠ []) (mark : Bool) (after test : Option Bool) :
    make fields mark after test = .ok ⟨fields, mark, after, test⟩ := by
  rw [make, h.fieldSet_eq, if_neg (by simpa using hfields)]

end Tidy

/-- A label splits into the names that it was joined from. -/
theorem splitLabels_label {e : Eventual} (h : Tidy e.fields) (hfields : e.fields ≠ [])
    (hcomma : ∀ field ∈ e.fields, ',' ∉ field.toList) : splitLabels e.label = e.fields := by
  have hsplit : e.label.toList.splitOn ',' = e.fields.map String.toList := by
    rw [label, String.toList_intercalate]
    exact List.splitOn_intercalate ',' (by simpa using hcomma) (by simpa using hfields)
  have htrim : ((fun part => Text.trim (String.ofList part)) ∘ String.toList) = Text.trim := by
    funext field
    simp
  rw [splitLabels, hsplit, List.map_map, htrim, h.map_trim, h.filter_nonempty]

end Eventual

namespace Derivation

/-- The markers that show what a method has to do with the mark. -/
def markNames : List MarkerName := [.mark, .only, .testMark]

/-- The marker of a name that shows its part of the role. -/
def roleMarker? (e : Eventual) : MarkerName → Option Marker
  | .mark => if e.mark then some ⟨.mark, [("value", .text e.label)]⟩ else none
  | .only => e.after.map fun after =>
      ⟨.only, [(if after then "after" else "before", .text e.label)]⟩
  | .testMark => e.test.map fun test =>
      ⟨.testMark, ("value", .text e.label) :: if test then [] else [("before", .bool true)]⟩
  | _ => none

theorem name_of_roleMarker? {e : Eventual} {name : MarkerName} {m : Marker}
    (h : roleMarker? e name = some m) : m.name = name := by
  unfold roleMarker? at h
  split at h
  · cases (Option.ite_none_right_eq_some.mp h).2
    rfl
  · obtain ⟨_, -, rfl⟩ := Option.map_eq_some_iff.mp h
    rfl
  · obtain ⟨_, -, rfl⟩ := Option.map_eq_some_iff.mp h
    rfl
  · cases h

theorem markVerdicts_eq {e : Eventual} (he : e.fields ≠ []) :
    markVerdicts e = (markNames.filterMap (roleMarker? e)).map .present := by
  have hevent : e.isEventual = true := by simpa [Eventual.isEventual] using he
  rw [markVerdicts, if_pos hevent]
  rcases e with ⟨fields, _ | _, _ | _ | _, _ | _ | _⟩ <;> rfl

theorem mem_markVerdicts {e : Eventual} (he : e.fields ≠ []) {m : Marker}
    (hm : m.name ∈ markNames) : (m, true) ∈ markVerdicts e ↔ roleMarker? e m.name = some m := by
  rw [markVerdicts_eq he]
  simp only [List.mem_map, List.mem_filterMap, Verdict.present, Prod.mk.injEq, and_true,
    exists_eq_right]
  constructor
  · rintro ⟨name, -, hname⟩
    rwa [name_of_roleMarker? hname]
  · exact fun h => ⟨m.name, hm, h⟩

/-- Of all that is said of a method only the descriptor's own part shows the mark. -/
theorem mem_methodVerdicts {s : Store} {facts : MethodFacts} {vs : List Verdict}
    (h : methodVerdicts s facts = .ok vs) (hconstructor : facts.isConstructor = false) {m : Marker}
    (hm : m.name ∈ markNames) : (m, true) ∈ vs ↔ (m, true) ∈ markVerdicts facts.eventual := by
  have htopics : ∀ name ∈ markNames, name.topic = name := by decide
  have hother {topics : List MarkerName} {ws : List Verdict} (hws : Coherent topics ws)
      (hdisjoint : ∀ name ∈ markNames, name ∉ topics) : (m, true) ∉ ws := fun hmem =>
    hdisjoint _ hm (htopics _ hm ▸ hws.within _ hmem)
  unfold methodVerdicts at h
  obtain ⟨independence, hindependence, h⟩ := bind_eq_ok h
  have hno_independence := hother (methodIndependence_coherent hindependence) (by decide)
  have hno_modification := hother (modificationVerdicts_coherent (s.read .modified)) (by decide)
  have hno_identity := hother (flagVerdicts_coherent (s.read .identity) .identity) (by decide)
  have hno_result := hother (resultVerdicts_coherent s) (by decide)
  have hno_finalizer : m ≠ .plain .finalizer := by
    rintro rfl
    exact absurd hm (by decide)
  have hcommon : (m, true) ∈ commonMethodVerdicts s facts ↔
      (m, true) ∈ markVerdicts facts.eventual := by
    simp only [commonMethodVerdicts, List.mem_append, hno_modification, false_or,
      or_iff_right_iff_imp]
    split <;> simp [Verdict.present, hno_finalizer]
  rw [if_neg (by simp [hconstructor])] at h
  split_ifs at h
  · cases h
    simp [hno_independence, hcommon]
  · cases h
    simp [hno_independence, hcommon, hno_identity]
  · obtain ⟨immutability, himmutability, h⟩ := bind_eq_ok h
    have hno_immutability := hother (betterImmutability_coherent himmutability) (by decide)
    cases h
    simp [hno_independence, hcommon, hno_identity, hno_result, hno_immutability]

end Derivation

namespace Contract

open Mutability.Derivation (markNames roleMarker?)

/-- Where all contracts of a name have one marker, that is the latest one. -/
theorem latest?_eq {contracts : List Contract} {name : MarkerName} {found : Option Marker}
    (h : ∀ m, found = some m ↔ m.name = name ∧ ∃ c ∈ contracts, c.marker = m) :
    latest? contracts name = found := by
  unfold latest?
  cases hlatest : contracts.reverse.find? (·.marker.name = name) with
  | none =>
    have hnone (c : Contract) (hc : c ∈ contracts) : c.marker.name ≠ name := by
      simpa using List.find?_eq_none.mp hlatest c (List.mem_reverse.mpr hc)
    rw [Option.map_none, eq_comm, Option.eq_none_iff_forall_ne_some]
    intro m hm
    obtain ⟨hname, c, hc, rfl⟩ := (h m).mp hm
    exact hnone c hc hname
  | some c =>
    have hname : c.marker.name = name := by simpa using List.find?_some hlatest
    have hc : c ∈ contracts := List.mem_reverse.mp (List.mem_of_find?_eq_some hlatest)
    exact ((h c.marker).mpr ⟨hname, c, hc, rfl⟩).symm

/-- The three markers of a descriptor tell its fields and its role. -/
theorem eventualOf_of_roles {contracts : List Contract} {e : Eventual}
    (htidy : Eventual.Tidy e.fields) (hfields : e.fields ≠ [])
    (hcomma : ∀ field ∈ e.fields, ',' ∉ field.toList)
    (hrole : e.test.isSome ∧ e.mark = false ∧ e.after = none ∨
      (e.mark = true ∨ e.after.isSome) ∧ e.test = none)
    (hlatest : ∀ name ∈ markNames, latest? contracts name = roleMarker? e name) :
    eventualOf contracts = .ok e := by
  have hsplit := Eventual.splitLabels_label htidy hfields hcomma
  have hlabel : e.label ≠ "" := by
    intro hempty
    rw [hempty] at hsplit
    exact hfields (hsplit.symm.trans (by decide))
  have hdescribe (mark : Bool) (after test : Option Bool) :
      describe (Eventual.splitLabels e.label) mark after test =
        .ok ⟨e.fields, mark, after, test⟩ := by
    rw [hsplit, describe, htidy.make_eq hfields]
  unfold eventualOf
  rw [hlatest .mark (by decide), hlatest .only (by decide), hlatest .testMark (by decide)]
  obtain ⟨fields, mark, after, test⟩ := e
  rcases hrole with ⟨htest, rfl, rfl⟩ | ⟨hmark, rfl⟩
  · obtain ⟨test, rfl⟩ := Option.isSome_iff_exists.mp htest
    cases test <;> exact hdescribe _ _ _
  · cases after with
    | none =>
      obtain rfl : mark = true := by simpa using hmark
      exact hdescribe _ _ _
    | some after =>
      cases mark <;> cases after <;>
        simp [roleMarker?, Marker.textArgument, Marker.argument?, List.lookup_cons, hlabel,
          hdescribe]

/-- The markers of a descriptor state no fact. -/
theorem factsOf_marks {contracts : List Contract} (hsingle : Single contracts)
    (h : ∀ c ∈ contracts, c.marker.name ∈ markNames) : factsOf contracts = [] := by
  have hplain : ∀ name ∈ markNames, name ≠ .size ∧
      ∀ absent, factsOf [⟨.plain name, absent⟩] = [] := by decide
  refine List.eq_nil_iff_forall_not_mem.mpr fun ⟨p, fact⟩ hfact => ?_
  obtain ⟨c, hc, hfact⟩ := (factsOf_iff hsingle).mp hfact
  obtain ⟨hsize, hnone⟩ := hplain _ (h c hc)
  rw [factsOf_plain hsize, hnone] at hfact
  cases hfact

end Contract

namespace Derivation

/-- The descriptor of a method survives a trip through its markers: the present `@Mark`, `@Only` and
`@TestMark` give it again, and they leave a store as it is. -/
theorem descriptor_survives {fields : List String} {mark : Bool} {after test : Option Bool}
    {e : Eventual} (hmake : Eventual.make fields mark after test = .ok e) (hfields : e.fields ≠ [])
    (hcomma : ∀ field ∈ e.fields, ',' ∉ field.toList)
    (hrole : e.test.isSome ∧ e.mark = false ∧ e.after = none ∨
      (e.mark = true ∨ e.after.isSome) ∧ e.test = none)
    {s : Store} {facts : MethodFacts} (hconstructor : facts.isConstructor = false)
    (heventual : facts.eventual = e) {set : MarkerSet} (hset : derive s (.method facts) = .ok set)
    {contracts : List Contract}
    (hcontracts : ∀ c, c ∈ contracts ↔
      c.absent = false ∧ c.marker ∈ set.present ∧ c.marker.name ∈ markNames) (t : Store) :
    Contract.importAll t contracts = (t, .ok e) := by
  obtain ⟨-, vs, hvs, rfl⟩ := derive_eq_ok hset
  have hagree := verdicts_agree hvs
  have hpresent (m : Marker) : m ∈ (MarkerSet.ofList vs).present ↔ (m, true) ∈ vs :=
    MarkerSet.mem_present.trans (MarkerSet.mem_ofList hagree _)
  simp only [hpresent] at hcontracts
  have hsingle : Contract.Single contracts :=
    Contract.single_of_agree hagree fun c hc =>
      have ⟨habsent, hm, _⟩ := (hcontracts c).mp hc
      ⟨habsent, hm⟩
  have hroles {m : Marker} (hm : m.name ∈ markNames) :
      (m, true) ∈ vs ↔ roleMarker? e m.name = some m := by
    rw [mem_methodVerdicts hvs hconstructor hm, heventual, mem_markVerdicts hfields hm]
  have hlatest : ∀ name ∈ markNames, Contract.latest? contracts name = roleMarker? e name := by
    intro name hname
    refine Contract.latest?_eq fun m => ⟨fun hm => ?_, ?_⟩
    · obtain rfl := name_of_roleMarker? hm
      exact ⟨rfl, ⟨m, false⟩, (hcontracts _).mpr ⟨rfl, (hroles hname).mpr hm, hname⟩, rfl⟩
    · rintro ⟨rfl, c, hc, rfl⟩
      exact (hroles hname).mp ((hcontracts c).mp hc).2.1
  have hfacts : Contract.factsOf contracts = [] :=
    Contract.factsOf_marks hsingle fun c hc => ((hcontracts c).mp hc).2.2
  have hevent := Contract.eventualOf_of_roles (Eventual.tidy_of_make hmake) hfields hcomma hrole
    hlatest
  rw [Contract.importAll_eq_ok, hfacts]
  exact ⟨rfl, hevent⟩

/-- A method that passes the mark of three fields, given with blanks around their names. -/
theorem padded_descriptor_survives :
    let e : Eventual := ⟨["a b", "zähler", "状態"], true, some false, none⟩
    let modified (p : Property) : Option Fact := if p = .modified then some (.flag true) else none
    Eventual.make [" zähler ", "", "a b\t", "状態", "a b"] true (some false) none = .ok e ∧
    ∃ set, derive ⟨"fill", .method, true, .defensive, modified, true⟩
        (.method ⟨false, true, false, false, false, e, false⟩) = .ok set ∧
      set.present = [.plain .modified, ⟨.mark, [("value", .text "a b,zähler,状態")]⟩,
        ⟨.only, [("before", .text "a b,zähler,状態")]⟩] ∧
      ∀ t, Contract.importAll t ((set.present.filter (·.name ∈ markNames)).map (⟨·, false⟩)) =
        (t, .ok e) := by
  intro e modified
  have hmake : Eventual.make [" zähler ", "", "a b\t", "状態", "a b"] true (some false) none =
      .ok e := by decide +kernel
  have hset : derive ⟨"fill", .method, true, .defensive, modified, true⟩
      (.method ⟨false, true, false, false, false, e, false⟩) = .ok _ := rfl
  refine ⟨hmake, _, hset, by decide +kernel, ?_⟩
  refine descriptor_survives hmake (by decide) (by decide) (by decide) rfl rfl hset fun c => ?_
  obtain ⟨m, a⟩ := c
  simp only [List.mem_map, List.mem_filter, Contract.mk.injEq, decide_eq_true_eq]
  exact ⟨fun ⟨_, hm, heq, ha⟩ => ⟨ha.symm, heq ▸ hm⟩, fun ⟨ha, hm⟩ => ⟨m, hm, rfl, ha.symm⟩⟩

end Derivation

end Mutability
