import Mutability.Proofs.PlatformTypes
import Mutability.Types.Supertype

/-!
# What types are made of

`Every P` says that all bases in a type, at any depth of its arguments, satisfy `P`. Replacing
parameters, boxing and erasing lead to no other bases than those that were there, so a supertype
seen from a type over declared names is again one (`directSupertype_every`), and to build it no
lookup fails (`exists_directSupertype`).
-/

namespace Mutability

/-! ## Induction on types -/

namespace TypeExpr

theorem sizeOf_lt_of_mem_arguments {t a : TypeExpr} (ha : a ∈ t.arguments) :
    sizeOf a < sizeOf t := by
  have := List.sizeOf_lt_of_mem ha
  cases t
  simp only [TypeExpr.mk.sizeOf_spec] at this ⊢
  omega

/-- What holds of a type if it holds of its arguments holds of all types. -/
@[elab_as_elim]
theorem induct {motive : TypeExpr → Prop}
    (step : ∀ t, (∀ a ∈ t.arguments, motive a) → motive t) (t : TypeExpr) : motive t :=
  step t fun a ha =>
    have : sizeOf a < sizeOf t := sizeOf_lt_of_mem_arguments ha
    induct step a
termination_by sizeOf t

end TypeExpr

/-! ## Types over given bases -/

inductive TypeExpr.Every (P : Base → Prop) : TypeExpr → Prop where
  | intro {t : TypeExpr} :
      P t.base → (∀ a ∈ t.arguments, TypeExpr.Every P a) → TypeExpr.Every P t

namespace TypeExpr

variable {P : Base → Prop} {t : TypeExpr}

theorem name?_eq_some_iff {name : String} : t.name? = some name ↔ t.base = .nominal name := by
  unfold name?
  cases t.base <;> simp

theorem parameter?_eq_some_iff {p : TypeParameter} :
    t.parameter? = some p ↔ t.base = .parameter p := by
  cases hbase : t.base <;> simp [parameter?, hbase]

theorem Every.base (ht : t.Every P) : P t.base := by
  cases ht with
  | intro hbase _ => exact hbase

theorem Every.arguments (ht : t.Every P) : ∀ a ∈ t.arguments, a.Every P := by
  cases ht with
  | intro _ harguments => exact harguments

theorem Every.erased (ht : t.Every P) : t.erased.Every P :=
  .intro ht.base (by simp [TypeExpr.erased])

theorem Every.mono {Q : Base → Prop} (hPQ : ∀ b, P b → Q b) (ht : t.Every P) : t.Every Q := by
  induction ht with
  | intro hbase _ ih => exact .intro (hPQ _ hbase) ih

mutual

def decideEvery (P : Base → Prop) [DecidablePred P] : (t : TypeExpr) → Decidable (t.Every P)
  | ⟨base, arguments, _, _⟩ =>
    match decideEveryList P arguments with
    | .isTrue hs => if hb : P base then .isTrue (.intro hb hs) else .isFalse fun ht => hb ht.base
    | .isFalse hs => .isFalse fun ht => hs ht.arguments

def decideEveryList (P : Base → Prop) [DecidablePred P] :
    (ts : List TypeExpr) → Decidable (∀ t ∈ ts, t.Every P)
  | [] => .isTrue (by simp)
  | t :: ts =>
    match decideEvery P t with
    | .isTrue ht =>
      match decideEveryList P ts with
      | .isTrue hts => .isTrue (List.forall_mem_cons.mpr ⟨ht, hts⟩)
      | .isFalse hts => .isFalse fun hall => hts (List.forall_mem_cons.mp hall).2
    | .isFalse ht => .isFalse fun hall => ht (List.forall_mem_cons.mp hall).1

end

instance [DecidablePred P] : Decidable (t.Every P) := decideEvery P t

end TypeExpr

/-- Boxing does not lead out of the bases. -/
def BoxClosed (P : Base → Prop) : Prop := ∀ p : Primitive, P (.primitive p) → P (.nominal p.boxName)

namespace Bindings

variable {P : Base → Prop} {b : Bindings}

/-- What parameters stand for has a property. -/
def All (Q : TypeExpr → Prop) (b : Bindings) : Prop := ∀ entry ∈ b.entries, Q entry.2

/-- Parameters stand for types over the given bases. -/
def Every (P : Base → Prop) (b : Bindings) : Prop := b.All (TypeExpr.Every P)

theorem all_of_find? {Q : TypeExpr → Prop} (hb : b.All Q) {p : TypeParameter} {t : TypeExpr}
    (ht : b.find? p = some t) : Q t := by
  unfold find? at ht
  obtain ⟨before, after, happ, _⟩ := List.lookup_eq_some_iff.mp ht
  exact hb (p, t) (by simp [happ])

theorem all_bindNew {Q : TypeExpr → Prop} (hb : b.All Q) (p : TypeParameter) {t : TypeExpr}
    (ht : Q t) : (b.bindNew p t).All Q := by
  unfold bindNew
  split
  · exact hb
  · intro entry hentry
    rcases List.mem_append.mp hentry with h | h
    · exact hb entry h
    · rw [List.mem_singleton.mp h]
      exact ht

theorem every_follow (hb : b.Every P) (blocked : List TypeParameter) {t : TypeExpr}
    (ht : t.Every P) : (b.follow blocked t).1.Every P := by
  fun_induction b.follow blocked t with
  | case1 => exact ht
  | case2 => exact ht
  | case3 => exact ht
  | case4 blocked t p hbase hp bound hfind hne ih =>
    have hbound : bound.Every P := all_of_find? hb hfind
    exact ih (.intro hbound.base hbound.arguments)
  | case5 => exact ht

theorem every_boxArgument (hbox : BoxClosed P) {t : TypeExpr} (ht : t.Every P) :
    (boxArgument t).Every P := by
  unfold boxArgument
  split
  · rename_i p hp
    split
    · refine .intro (hbox p ?_) (by simp [TypeExpr.nominal, TypeExpr.ofBase])
      unfold TypeExpr.primitive? at hp
      split at hp <;> simp_all
      rename_i hbase
      exact hbase ▸ ht.base
    · exact ht
  · exact ht

theorem every_translate (hbox : BoxClosed P) (hb : b.Every P) (blocked : List TypeParameter)
    {t : TypeExpr} (ht : t.Every P) : (b.translate blocked t).Every P := by
  induction blocked, t using translate.induct b with
  | case1 blocked t followed ih =>
    have hfollowed : followed.1.Every P := every_follow hb blocked ht
    rw [translate]
    refine .intro hfollowed.base fun a ha => ?_
    obtain ⟨⟨argument, hmem⟩, _, rfl⟩ := List.mem_map.mp ha
    exact every_boxArgument hbox (ih argument hmem (hfollowed.arguments argument hmem))

theorem every_apply (hbox : BoxClosed P) (hb : b.Every P) {t : TypeExpr} (ht : t.Every P) :
    (b.apply t).Every P := by
  unfold apply
  split
  · exact ht
  · exact every_translate hbox hb [] ht

/-- Only a parameter is replaced as a whole. -/
theorem base_apply {t : TypeExpr} (ht : t.parameter? = none) : (b.apply t).base = t.base := by
  unfold apply
  split
  · rfl
  · rw [translate]
    simp only [follow_of_parameter?_eq_none ht]

end Bindings

/-! ## Names -/

namespace TypeExpr

def baseNames : Base → List String
  | .nominal name => [name]
  | _ => []

mutual

/-- The names in a type, with repetition. -/
def names : TypeExpr → List String
  | ⟨base, arguments, _, _⟩ => baseNames base ++ namesList arguments

def namesList : List TypeExpr → List String
  | [] => []
  | t :: ts => names t ++ namesList ts

end

theorem mem_namesList {name : String} {ts : List TypeExpr} :
    name ∈ namesList ts ↔ ∃ t ∈ ts, name ∈ t.names := by
  induction ts with
  | nil => simp [namesList]
  | cons t ts ih => simp [namesList, ih]

theorem names_eq (t : TypeExpr) : t.names = baseNames t.base ++ namesList t.arguments := by
  cases t
  rw [names]

end TypeExpr

/-- The names in the types of a declaration: its supertypes, bounds and method. -/
def Declaration.mentions (d : Declaration) : List String :=
  TypeExpr.namesList d.supertypes ++ TypeExpr.namesList (d.formals.flatMap (·.bounds)) ++
    TypeExpr.namesList (d.functional.elim [] fun s => s.result :: s.parameters)

/-! ## Supertypes -/

namespace Hierarchy

variable {P : Base → Prop} {h : Hierarchy}

/-- Bindings are collected from a new declared name with arguments, or there are none. The name is
then visited, and its arguments are taken if there are as many as formal parameters. -/
theorem collect_eq_ok {t : TypeExpr} {known c : Collected} (hc : h.collect t known = .ok c) :
    c = known ∨ ∃ name d, t.base = .nominal name ∧ name ∉ known.visited ∧ h.find? name = some d ∧
      (c = ⟨known.bindings, name :: known.visited⟩ ∨ t.arguments.length = d.formals.length ∧
        h.collectArguments t.arguments d.parameters ⟨known.bindings, name :: known.visited⟩ =
          .ok c) := by
  obtain ⟨base, arguments, arrays, wildcard⟩ := t
  cases base with
  | nominal name =>
    rw [collect] at hc
    split at hc
    · cases hc
      exact Or.inl rfl
    · rename_i hnew
      cases hd : h.find? name with
      | none => simp [require, hd] at hc
      | some d =>
        simp only [require, hd] at hc
        refine Or.inr ⟨name, d, rfl, by simp_all, hd, ?_⟩
        split at hc
        · rename_i harity
          exact Or.inr ⟨harity.symm, hc⟩
        · cases hc
          exact Or.inl rfl
  | primitive | parameter | null | wildcard =>
    simp only [collect] at hc
    cases hc
    exact Or.inl rfl

theorem collectArguments_eq_ok {arguments : List TypeExpr} {ps : List TypeParameter}
    {known c : Collected} (hc : h.collectArguments arguments ps known = .ok c) :
    (ps.zip arguments = [] ∧ c = known) ∨
      ∃ a rest p qs first, arguments = a :: rest ∧ ps = p :: qs ∧
        h.collect a ⟨known.bindings.bindNew p a, known.visited⟩ = .ok first ∧
        h.collectArguments rest qs first = .ok c := by
  cases arguments with
  | nil =>
    rw [collectArguments] at hc
    · cases hc
      exact Or.inl ⟨List.zip_nil_right, rfl⟩
    · simp
  | cons a rest =>
    cases ps with
    | nil =>
      rw [collectArguments] at hc
      · cases hc
        exact Or.inl ⟨rfl, rfl⟩
      · simp
    | cons p qs =>
      rw [collectArguments] at hc
      split at hc
      · cases hc
      · rename_i first hfirst
        exact Or.inr ⟨a, rest, p, qs, first, rfl, rfl, hfirst, hc⟩

section Collected

variable {Q : TypeExpr → Prop} (hQ : ∀ t, Q t → ∀ a ∈ t.arguments, Q a)

theorem collectArguments_all {arguments : List TypeExpr}
    (ih : ∀ a ∈ arguments, Q a → ∀ known c, known.bindings.All Q → h.collect a known = .ok c →
      c.bindings.All Q)
    (harguments : ∀ a ∈ arguments, Q a) (ps : List TypeParameter) {known c : Collected}
    (hknown : known.bindings.All Q) (hc : h.collectArguments arguments ps known = .ok c) :
    c.bindings.All Q := by
  induction arguments generalizing ps known with
  | nil =>
    rcases collectArguments_eq_ok hc with ⟨-, rfl⟩ | ⟨a, rest, p, qs, first, harg, -⟩
    · exact hknown
    · cases harg
  | cons a arguments ihList =>
    rcases collectArguments_eq_ok hc with ⟨-, rfl⟩ | ⟨_, _, p, qs, first, ⟨⟩, rfl, hfirst, hrest⟩
    · exact hknown
    · have ha := harguments a List.mem_cons_self
      have hnext := ih a List.mem_cons_self ha _ _ (Bindings.all_bindNew hknown p ha) hfirst
      exact ihList (fun x hx => ih x (List.mem_cons_of_mem a hx))
        (fun x hx => harguments x (List.mem_cons_of_mem a hx)) qs hnext hrest

include hQ in
theorem collect_all {t : TypeExpr} (ht : Q t) {known c : Collected}
    (hknown : known.bindings.All Q) (hc : h.collect t known = .ok c) : c.bindings.All Q := by
  induction t using TypeExpr.induct generalizing known c with
  | step t ih =>
    rcases collect_eq_ok hc with rfl | ⟨name, d, -, -, -, rfl | ⟨-, harguments⟩⟩
    · exact hknown
    · exact hknown
    · have hsame : Bindings.All Q (Collected.mk known.bindings (name :: known.visited)).1 := hknown
      exact collectArguments_all (fun a ha hQa known c => ih a ha hQa) (hQ t ht) _ hsame harguments

theorem argumentBindings_eq_ok {t : TypeExpr} {b : Bindings} (hb : h.argumentBindings t = .ok b) :
    ∃ c, h.collect t ⟨.empty, []⟩ = .ok c ∧ c.bindings = b := by
  unfold argumentBindings at hb
  cases hc : h.collect t ⟨.empty, []⟩ with
  | error fault =>
    rw [hc] at hb
    cases hb
  | ok c =>
    rw [hc] at hb
    cases hb
    exact ⟨c, rfl, rfl⟩

include hQ in
/-- A property that goes over to arguments goes over to what parameters stand for. -/
theorem argumentBindings_all {t : TypeExpr} (ht : Q t) {b : Bindings}
    (hb : h.argumentBindings t = .ok b) : b.All Q := by
  obtain ⟨c, hc, rfl⟩ := argumentBindings_eq_ok hb
  exact collect_all hQ ht (by simp [Bindings.All, Bindings.empty]) hc

theorem every_argumentBindings {t : TypeExpr} (ht : t.Every P) {b : Bindings}
    (hb : h.argumentBindings t = .ok b) : b.Every P :=
  argumentBindings_all (fun _ hu => hu.arguments) ht hb

end Collected

/-- A supertype as seen from a type is as declared, raw, or has the arguments put in. -/
theorem directSupertype_cases {sub declared u : TypeExpr}
    (hu : h.directSupertype sub declared = .ok u) :
    u = declared ∨ u = declared.erased ∨
      ∃ b, h.argumentBindings sub = .ok b ∧ u = b.apply declared := by
  unfold directSupertype at hu
  split at hu
  · rename_i name _
    cases hd : h.require name with
    | error fault =>
      rw [hd] at hu
      cases hu
    | ok d =>
      simp only [hd, bind, Except.bind] at hu
      split at hu
      · cases hu
        exact Or.inr (Or.inl rfl)
      · cases hb : h.argumentBindings sub with
        | error fault =>
          rw [hb] at hu
          cases hu
        | ok b =>
          rw [hb] at hu
          cases hu
          exact Or.inr (Or.inr ⟨b, rfl, rfl⟩)
  · cases hu
    exact Or.inl rfl

/-- A declared supertype as seen from a type is made of what the two are made of. -/
theorem directSupertype_every (hbox : BoxClosed P) {sub declared u : TypeExpr}
    (hsub : sub.Every P) (hdeclared : declared.Every P)
    (hu : h.directSupertype sub declared = .ok u) : u.Every P := by
  rcases directSupertype_cases hu with rfl | rfl | ⟨b, hb, rfl⟩
  · exact hdeclared
  · exact hdeclared.erased
  · exact Bindings.every_apply hbox (every_argumentBindings hsub hb) hdeclared

/-- A declared supertype that is no parameter keeps its base. -/
theorem base_directSupertype {sub declared u : TypeExpr} (hdeclared : declared.parameter? = none)
    (hu : h.directSupertype sub declared = .ok u) : u.base = declared.base := by
  rcases directSupertype_cases hu with rfl | rfl | ⟨b, _, rfl⟩
  · rfl
  · rfl
  · exact Bindings.base_apply hdeclared

/-! ## Declared names -/

/-- Only declared names. -/
def Knows (h : Hierarchy) : Base → Prop
  | .nominal name => h.Declares name
  | _ => True

/-- Every name that a declaration mentions is declared. -/
def Closed (h : Hierarchy) : Prop := ∀ d ∈ h.declarations, ∀ name ∈ d.mentions, h.Declares name

instance : Decidable h.Closed :=
  inferInstanceAs (Decidable (∀ d ∈ h.declarations, ∀ name ∈ d.mentions, h.Declares name))

theorem every_knows {t : TypeExpr} (ht : ∀ name ∈ t.names, h.Declares name) : t.Every h.Knows := by
  induction t using TypeExpr.induct with
  | step t ih =>
    rw [TypeExpr.names_eq] at ht
    refine .intro ?_ fun a ha => ih a ha fun name hname => ?_
    · cases hbase : t.base with
      | nominal name =>
        refine ht name (List.mem_append_left _ ?_)
        simp [hbase, TypeExpr.baseNames]
      | primitive | parameter | null | wildcard => trivial
    · exact ht name (List.mem_append_right _ (TypeExpr.mem_namesList.mpr ⟨a, ha, hname⟩))

theorem Closed.supertype (hclosed : h.Closed) {name : String} {d : Declaration}
    (hd : h.find? name = some d) {t : TypeExpr} (ht : t ∈ d.supertypes) : t.Every h.Knows := by
  refine every_knows fun n hn => hclosed d (List.mem_of_find?_eq_some hd) n ?_
  exact List.mem_append_left _ (List.mem_append_left _ (TypeExpr.mem_namesList.mpr ⟨t, ht, hn⟩))

theorem FromPlatform.boxClosed (hp : h.FromPlatform) : BoxClosed h.Knows :=
  fun p _ => hp.declares_boxName p

theorem declares_of_every {t : TypeExpr} (ht : t.Every h.Knows) {name : String}
    (hbase : t.base = .nominal name) : h.Declares name := by
  have hknows := ht.base
  rwa [hbase] at hknows

theorem exists_require {name : String} (hname : h.Declares name) :
    ∃ d, h.find? name = some d ∧ h.require name = .ok d := by
  obtain ⟨d, hd⟩ := Option.isSome_iff_exists.mp hname
  exact ⟨d, hd, by simp [require, hd]⟩

theorem exists_collectArguments {arguments : List TypeExpr}
    (ih : ∀ a ∈ arguments, ∀ known, ∃ c, h.collect a known = .ok c) (ps : List TypeParameter)
    (known : Collected) : ∃ c, h.collectArguments arguments ps known = .ok c := by
  induction arguments generalizing ps known with
  | nil => exact ⟨known, by simp [collectArguments]⟩
  | cons a arguments ihList =>
    cases ps with
    | nil => exact ⟨known, by simp [collectArguments]⟩
    | cons p ps =>
      obtain ⟨c, hc⟩ := ih a List.mem_cons_self ⟨known.bindings.bindNew p a, known.visited⟩
      obtain ⟨c', hc'⟩ := ihList (fun x hx => ih x (List.mem_cons_of_mem a hx)) ps c
      exact ⟨c', by simp [collectArguments, hc, hc']⟩

theorem exists_collect {t : TypeExpr} (ht : t.Every h.Knows) (known : Collected) :
    ∃ c, h.collect t known = .ok c := by
  induction ht generalizing known with
  | @intro t hbase _ ih =>
    obtain ⟨base, arguments, arrays, wildcard⟩ := t
    cases base with
    | nominal name =>
      obtain ⟨d, _, hd⟩ := exists_require hbase
      rw [collect, hd]
      split
      · exact ⟨known, rfl⟩
      · simp only
        split
        · exact exists_collectArguments ih _ _
        · exact ⟨_, rfl⟩
    | primitive | parameter | null | wildcard => exact ⟨known, by simp [collect]⟩

theorem exists_argumentBindings {t : TypeExpr} (ht : t.Every h.Knows) :
    ∃ b, h.argumentBindings t = .ok b := by
  obtain ⟨c, hc⟩ := exists_collect ht ⟨.empty, []⟩
  exact ⟨c.bindings, by simp [argumentBindings, hc, Except.map]⟩

theorem exists_directSupertype {sub : TypeExpr} (hsub : sub.Every h.Knows) (declared : TypeExpr) :
    ∃ u, h.directSupertype sub declared = .ok u := by
  unfold directSupertype
  split
  · rename_i name hbase
    obtain ⟨d, _, hd⟩ := exists_require (declares_of_every hsub hbase)
    obtain ⟨b, hb⟩ := exists_argumentBindings hsub
    simp only [hd, hb, bind, Except.bind]
    split <;> exact ⟨_, rfl⟩
  · exact ⟨declared, rfl⟩

/-- A type of declared names has a method exactly if it is a functional interface. -/
theorem exists_signature? {t : TypeExpr} (ht : t.Every h.Knows) {name : String}
    (hbase : t.base = .nominal name) :
    ∃ found, h.signature? t = .ok found ∧ found.isSome = h.isFunctional name := by
  obtain ⟨d, hfind, hd⟩ := exists_require (declares_of_every ht hbase)
  obtain ⟨b, hb⟩ := exists_argumentBindings ht
  unfold signature? isFunctional
  simp only [hbase, hfind, hd, hb, bind, Except.bind]
  cases d.functional <;> exact ⟨_, rfl, rfl⟩

end Hierarchy

end Mutability
