import Mutability.Proofs.SupertypeBindings

/-!
# Types of members

The type of a member mentions parameters of several types, its owners. Each owner that is a
supertype of the type through which the member is reached says what its parameters stand for, but so
do the types nested in its arguments for theirs (`use_of_argumentBindings`). Of several bindings of
one parameter the first in the order of owner names counts. So a parameter is filled from the
supertype of its own name, unless an owner of a smaller name has a use of that name somewhere in its
arguments (`memberType_fills`).
-/

namespace Mutability

/-! ## Merged bindings -/

namespace Bindings

theorem find?_merge (b other : Bindings) (p : TypeParameter) :
    (b.merge other).find? p = (b.find? p).or (other.find? p) := by
  obtain ⟨entries⟩ := other
  show (entries.foldl (fun merged entry => merged.bindNew entry.1 entry.2) b).find? p =
    (b.find? p).or (entries.lookup p)
  induction entries generalizing b with
  | nil => simp
  | cons entry entries ih =>
    obtain ⟨q, t⟩ := entry
    rw [List.foldl_cons, ih, find?_bindNew, List.lookup_cons, Option.or_assoc]
    by_cases hpq : p = q
    · simp [hpq]
    · have hne : (p == q) = false := by simp [hpq]
      simp [hpq, hne]

/-- Applying bindings puts in what they come to, and boxes arguments if there are any bindings. -/
theorem apply_eq_substitute_or_boxed (b : Bindings) (t : TypeExpr) :
    b.apply t = t.substitute b.resolved ∨ b.apply t = (t.substitute b.resolved).boxed := by
  unfold apply
  split
  · rename_i hempty
    refine Or.inl (TypeExpr.substitute_eq_self fun o _ => ?_).symm
    have hnone : b.resolved = fun _ => none := by
      funext p
      simp [resolved, find?, List.isEmpty_iff.mp hempty]
    cases hbase : o.base <;> simp [TypeExpr.boundIn, hnone]
  · exact Or.inr (translate_nil b t)

end Bindings

namespace Hierarchy

open Relation

variable {h : Hierarchy} {name : String} {d : Declaration} {owner declared : TypeExpr}
  {p : TypeParameter} {c : TypeExpr}

/-- What the supertype of a name says that a parameter stands for. -/
def boundAbove? (h : Hierarchy) (owner : TypeExpr) (p : TypeParameter) (name : String) :
    Option TypeExpr :=
  (h.supertypeBindings owner name).toOption.bind (·.find? p)

/-- What the supertypes of some names say that a parameter stands for; the first one counts. -/
def firstBinding? (h : Hierarchy) (owner : TypeExpr) (names : List String) (p : TypeParameter) :
    Option TypeExpr :=
  names.findSome? (h.boundAbove? owner p)

theorem boundAbove?_of_ok {b : Bindings} (hb : h.supertypeBindings owner name = .ok b)
    (p : TypeParameter) : h.boundAbove? owner p name = b.find? p := by
  rw [boundAbove?, hb]
  rfl

theorem boundAbove?_eq_some (hc : h.boundAbove? owner p name = some c) :
    ∃ b seen, h.supertype? owner name = .ok (some seen) ∧ h.argumentBindings seen = .ok b ∧
      b.find? p = some c := by
  cases hb : h.supertypeBindings owner name with
  | error fault => simp [boundAbove?, hb, Except.toOption] at hc
  | ok b =>
    rw [boundAbove?_of_ok hb] at hc
    rcases supertypeBindings_eq_ok hb with ⟨-, rfl⟩ | ⟨seen, hseen, hb⟩
    · cases hc
    · exact ⟨b, seen, hseen, hb, hc⟩

theorem mergeSupertypeBindings_eq_ok {names : List String} {known merged : Bindings}
    (hmerged : h.mergeSupertypeBindings owner names known = .ok merged) :
    (∀ name ∈ names, ∃ b, h.supertypeBindings owner name = .ok b) ∧
      ∀ p, merged.find? p = (known.find? p).or (h.firstBinding? owner names p) := by
  induction names generalizing known with
  | nil =>
    cases hmerged
    exact ⟨by simp, fun p => by simp [firstBinding?]⟩
  | cons name names ih =>
    cases hb : h.supertypeBindings owner name with
    | error fault => simp [mergeSupertypeBindings, hb, bind, Except.bind] at hmerged
    | ok b =>
      simp only [mergeSupertypeBindings, hb, bind, Except.bind] at hmerged
      obtain ⟨hall, hfind⟩ := ih hmerged
      refine ⟨List.forall_mem_cons.mpr ⟨⟨b, hb⟩, hall⟩, fun p => ?_⟩
      have hfirst : h.firstBinding? owner (name :: names) p =
          (b.find? p).or (h.firstBinding? owner names p) := by
        rw [firstBinding?, List.findSome?_cons, boundAbove?_of_ok hb]
        cases b.find? p <;> rfl
      rw [hfind p, Bindings.find?_merge, Option.or_assoc, hfirst]

theorem memberType_eq_ok {filled : TypeExpr} (hfilled : h.memberType declared owner = .ok filled) :
    ∃ m, h.mergeSupertypeBindings owner (Text.nameSet (owners declared)) .empty = .ok m ∧
      filled = m.apply declared := by
  unfold memberType at hfilled
  cases hm : h.mergeSupertypeBindings owner (Text.nameSet (owners declared)) .empty with
  | error fault => simp [hm, bind, Except.bind] at hfilled
  | ok m =>
    simp only [hm, bind, Except.bind] at hfilled
    exact ⟨m, rfl, (Except.ok.inj hfilled).symm⟩

/-! ## Where bindings come from -/

/-- What arguments bind a parameter to that is not one of those they are for, they bind inside. -/
theorem inside_of_collectArguments {U : TypeExpr → Prop} {arguments : List TypeExpr}
    (ih : ∀ a ∈ arguments, ∀ known found, h.collect a known = .ok found →
      found.bindings.find? p = some c → known.bindings.find? p = some c ∨ U a)
    {ps : List TypeParameter} (hps : p ∉ ps) {known found : Collected}
    (hfound : h.collectArguments arguments ps known = .ok found)
    (hc : found.bindings.find? p = some c) :
    known.bindings.find? p = some c ∨ ∃ a ∈ arguments, U a := by
  induction arguments generalizing ps known with
  | nil =>
    rcases collectArguments_eq_ok hfound with ⟨-, rfl⟩ | ⟨a, rest, q, qs, first, harguments, -⟩
    · exact Or.inl hc
    · cases harguments
  | cons a arguments ihList =>
    rcases collectArguments_eq_ok hfound with ⟨-, rfl⟩ |
      ⟨_, _, q, qs, first, ⟨⟩, rfl, hfirst, hrest⟩
    · exact Or.inl hc
    · obtain ⟨hpq, hqs⟩ := List.ne_and_not_mem_of_not_mem_cons hps
      rcases ihList (fun x hx => ih x (List.mem_cons_of_mem a hx)) hqs hrest with
        hbefore | ⟨x, hx, hU⟩
      · rcases ih a List.mem_cons_self _ _ hfirst hbefore with hknown | hU
        · rw [Bindings.find?_bindNew, if_neg hpq, Option.or_none] at hknown
          exact Or.inl hknown
        · exact Or.inr ⟨a, List.mem_cons_self, hU⟩
      · exact Or.inr ⟨x, List.mem_cons_of_mem a hx, hU⟩

section Origin

variable (hd : h.find? d.name = some d) (hp : p ∈ d.parameters)

include hd hp

theorem use_of_collect {t : TypeExpr} {known found : Collected}
    (hfound : h.collect t known = .ok found) (hc : found.bindings.find? p = some c) :
    known.bindings.find? p = some c ∨
      ∃ use ∈ t.occurrences, use.base = .nominal d.name ∧ d.bound? use p = some c := by
  induction t using TypeExpr.induct generalizing known found with
  | step t ih =>
    rcases collect_eq_ok hfound with rfl | ⟨own, e, hbase, -, he, rfl | ⟨harity, harguments⟩⟩
    · exact Or.inl hc
    · exact Or.inl hc
    · by_cases hown : own = d.name
      · -- the type itself is a use of the declaration
        subst hown
        cases hd.symm.trans he
        obtain ⟨-, hfind⟩ := find?_collectArguments (fun a _ _ _ => find?_collect) d.parameters
          (List.mem_cons_self (a := d.name)) harguments
        rw [hfind p (Declaration.owner_of_mem_parameters hp)] at hc
        rcases Option.or_eq_some_iff.mp hc with hknown | ⟨-, hactual⟩
        · exact Or.inl hknown
        · refine Or.inr ⟨t, t.self_mem_occurrences, hbase, ?_⟩
          rw [Declaration.bound?, if_pos harity]
          exact hactual
      · have hps : p ∉ e.parameters := by
          intro hmem
          have howner := (Declaration.owner_of_mem_parameters hp).symm.trans
            (Declaration.owner_of_mem_parameters hmem)
          cases howner.trans (by rw [name_of_find? he])
          exact hown rfl
        rcases inside_of_collectArguments (fun a ha _ _ => ih a ha) hps harguments hc with
          hknown | ⟨a, ha, use, huse, hspec⟩
        · exact Or.inl hknown
        · exact Or.inr ⟨use, TypeExpr.occurrence_of_argument ha huse, hspec⟩

/-- What a type says that a parameter stands for, it says by a use of the parameter's owner. -/
theorem use_of_argumentBindings {t : TypeExpr} {b : Bindings} (hb : h.argumentBindings t = .ok b)
    (hc : b.find? p = some c) :
    ∃ use ∈ t.occurrences, use.base = .nominal d.name ∧ d.bound? use p = some c := by
  obtain ⟨found, hfound, rfl⟩ := argumentBindings_eq_ok hb
  rcases use_of_collect hd hp hfound hc with hempty | huse
  · cases hempty
  · exact huse

end Origin

/-! ## The first owner -/

theorem mem_owners {q : TypeParameter} (hq : q ∈ declared.parameters)
    (howner : q.owner = some (.type name)) : name ∈ owners declared := by
  induction declared using TypeExpr.induct with
  | step t ih =>
    have hargument : ∀ a ∈ t.arguments, name ∈ owners a → name ∈ ownersList t.arguments := by
      generalize t.arguments = arguments
      intro a ha hname
      induction arguments with
      | nil => cases ha
      | cons x arguments ihList =>
        rw [ownersList, List.mem_append]
        rcases List.mem_cons.mp ha with rfl | ha
        · exact Or.inl hname
        · exact Or.inr (ihList ha)
    obtain ⟨base, arguments, arrays, wildcard⟩ := t
    rw [owners, List.mem_append]
    rw [TypeExpr.parameters_eq] at hq
    rcases List.mem_append.mp hq with hself | hinner
    · left
      have hbase : base = .parameter q :=
        TypeExpr.parameter?_eq_some_iff.mp (Option.mem_toList.mp hself)
      obtain ⟨_, index, text⟩ := q
      cases howner
      rw [hbase]
      exact List.mem_singleton.mpr rfl
    · obtain ⟨a, ha, hq⟩ := List.mem_flatMap.mp hinner
      exact Or.inr (hargument a ha (ih a ha hq))

/-- A parameter that the supertype of its owner binds is bound first by it, or by an owner of a
smaller name with a use of the parameter's owner within its arguments. -/
theorem firstBinding?_cases (hd : h.find? d.name = some d) {names : List String}
    (hsorted : names.Pairwise (· < ·)) (hmem : d.name ∈ names) (hp : p ∈ d.parameters)
    {b : TypeExpr} (hb : h.boundAbove? owner p d.name = some b) :
    ∃ c, h.firstBinding? owner names p = some c ∧
      (c = b ∨ ∃ name ∈ names, name < d.name ∧ ∃ upper,
        h.supertype? owner name = .ok (some upper) ∧
        ∃ use ∈ upper.inner, use.base = .nominal d.name ∧ d.bound? use p = some c) := by
  obtain ⟨c, hc⟩ : ∃ c, h.firstBinding? owner names p = some c := by
    refine Option.ne_none_iff_exists'.mp fun hnone => ?_
    have := List.findSome?_eq_none_iff.mp hnone d.name hmem
    simp [hb] at this
  refine ⟨c, hc, ?_⟩
  obtain ⟨before, name, after, hsplit, hname, hbefore⟩ := List.findSome?_eq_some_iff.mp hc
  rw [hsplit, List.mem_append, List.mem_cons] at hmem
  rcases hmem with hmem | hself | hmem
  · simp [hbefore d.name hmem] at hb
  · rw [← hself, hb] at hname
    exact Or.inl (Option.some.inj hname).symm
  · right
    have hlt : name < d.name := by
      rw [hsplit] at hsorted
      exact (List.pairwise_cons.mp (List.pairwise_append.mp hsorted).2.1).1 d.name hmem
    obtain ⟨b, upper, hupper, hargs, hfind⟩ := boundAbove?_eq_some hname
    obtain ⟨use, huse, hbase, hbound⟩ := use_of_argumentBindings hd hp hargs hfind
    refine ⟨name, by rw [hsplit]; simp, hlt, upper, hupper, use, ?_, hbase, hbound⟩
    -- the supertype itself has the smaller name
    rw [TypeExpr.occurrences_eq, List.mem_cons] at huse
    rcases huse with rfl | hinner
    · cases hbase.symm.trans (base_of_supertype? hupper)
      exact absurd hlt (String.lt_irrefl _)
    · exact hinner

/-! ## Proper owners -/

theorem named_of_supertype? {seen : TypeExpr} (hseen : h.supertype? owner name = .ok (some seen)) :
    ∃ own, owner.base = .nominal own := by
  obtain ⟨visited, hresult⟩ := supertype?_eq_ok hseen
  rcases searchSupertype_succ_eq_ok hresult with ⟨-, hnone⟩ | ⟨hbase, -⟩ | ⟨own, -, hbase, -⟩
  · cases hnone
  · exact ⟨name, hbase⟩
  · exact ⟨own, hbase⟩

/-- Supertypes of a proper type are proper. -/
theorem Proper.supertype? (hown : h.OwnSupertypes) (howner : h.Proper owner) {seen : TypeExpr}
    (hseen : h.supertype? owner name = .ok (some seen)) : h.Proper seen := by
  obtain ⟨visited, hresult⟩ := supertype?_eq_ok hseen
  have hhops := hops_of_searchSupertype hresult
  clear hresult hseen
  induction hhops with
  | refl => exact howner.withoutArrays
  | tail _ hhop ih =>
    obtain ⟨own, d, declared, hbase, hd, hmem, hu⟩ := declared_of_hop hhop
    obtain ⟨-, -, hparameters, hprimitive⟩ := hown d (List.mem_of_find?_eq_some hd) declared hmem
    rw [ih.eq_seenFrom hbase hd hparameters hprimitive hu]
    exact ih.seenFrom hown hbase hd hmem

/-- Through an owner that is proper there is nothing to resolve. -/
theorem resolved_of_firstBinding? (hown : h.OwnSupertypes) (hfitting : h.Fitting owner)
    (hfixed : Fixed owner) (hboxed : owner.boxed = owner) {m : Bindings} {names : List String}
    (hm : ∀ p, m.find? p = h.firstBinding? owner names p) : m.resolved = m.find? := by
  funext p
  cases hc : m.find? p with
  | none => simp [Bindings.resolved, hc]
  | some c =>
    obtain ⟨before, name, after, -, hname, -⟩ :=
      List.findSome?_eq_some_iff.mp ((hm p).symm.trans hc)
    obtain ⟨b, seen, hseen, hb, hfind⟩ := boundAbove?_eq_some hname
    have howner : h.Proper owner := ⟨named_of_supertype? hseen, hfitting, hfixed, hboxed⟩
    have hproper := howner.supertype? hown hseen
    have hall : b.All fun t => Fixed t ∧ t.boxed = t :=
      argumentBindings_all
        (fun t ht a ha => ⟨ht.1.arguments a ha, (Bindings.argument_of_boxed ht.2 ha).1⟩)
        ⟨hproper.fixed, hproper.boxed⟩ hb
    have hbound := Bindings.all_of_find? hall hfind
    exact resolved_of_fixed hc hbound.1 hbound.2

/-- The type of a member has all parameters replaced at once by their first bindings, in the order
of owner names, each as it is resolved; through a proper owner there is nothing to resolve. A
parameter that the supertype of its own type binds is replaced by another type only where an owner
of a smaller name has a use of that type within the arguments of its supertype, and then by what
that use has. -/
theorem memberType_fills {filled : TypeExpr} (hfilled : h.memberType declared owner = .ok filled) :
    ∃ m : Bindings,
      (∀ p, m.find? p = h.firstBinding? owner (Text.nameSet (owners declared)) p) ∧
      (filled = declared.substitute m.resolved ∨
        filled = (declared.substitute m.resolved).boxed) ∧
      (h.OwnSupertypes → h.Fitting owner → (∀ o ∈ owner.occurrences, o.parameter? = none) →
        (∀ o ∈ owner.inner, o.isPrimitive = false) → m.resolved = m.find?) ∧
      ∀ (d : Declaration) (seen b : TypeExpr) (p : TypeParameter), p ∈ declared.parameters →
        h.find? d.name = some d → h.supertype? owner d.name = .ok (some seen) →
        seen.arguments.length = d.formals.length → d.actuals seen.arguments p = some b →
        ∃ c, m.find? p = some c ∧
          (c = b ∨ ∃ name ∈ owners declared, name < d.name ∧ ∃ upper,
            h.supertype? owner name = .ok (some upper) ∧
            ∃ use ∈ upper.inner, use.base = .nominal d.name ∧ d.bound? use p = some c) := by
  obtain ⟨m, hm, rfl⟩ := memberType_eq_ok hfilled
  obtain ⟨hall, hfind⟩ := mergeSupertypeBindings_eq_ok hm
  have hfirst : ∀ p, m.find? p = h.firstBinding? owner (Text.nameSet (owners declared)) p := by
    intro p
    rw [hfind p]
    rfl
  refine ⟨m, hfirst, m.apply_eq_substitute_or_boxed declared,
    fun hown hfitting hfixed hprimitive => ?_, fun d seen b p hp hd hseen harity hactual => ?_⟩
  · exact resolved_of_firstBinding? hown hfitting (fixed_iff.mpr hfixed)
      (Bindings.boxed_of_inner hprimitive) hfirst
  · have hparameter := (Declaration.mem_of_actuals hactual).1
    have hmem : d.name ∈ Text.nameSet (owners declared) := (Text.mem_nameSet _ _).mpr
      (mem_owners hp (Declaration.owner_of_mem_parameters hparameter))
    obtain ⟨bindings, hbindings⟩ := hall d.name hmem
    have hbound : h.boundAbove? owner p d.name = some b := by
      obtain ⟨seen', hseen', hb⟩ := find?_supertypeBindings hd hbindings hparameter
      cases hseen.symm.trans hseen'
      rw [boundAbove?_of_ok hbindings, hb, Option.bind_some, Declaration.bound?, if_pos harity,
        hactual]
    obtain ⟨c, hc, horigin⟩ :=
      firstBinding?_cases hd (Text.pairwise_nameSet _) hmem hparameter hbound
    refine ⟨c, (hfirst p).trans hc, horigin.imp_right ?_⟩
    rintro ⟨name, hname, hrest⟩
    exact ⟨name, (Text.mem_nameSet _ _).mp hname, hrest⟩

/-- Two owners, where the second in the order of names has a use of the first in its argument. -/
theorem page_members_filled :
    let order := Platform.own "java.lang.Comparable" 0 "T"
    let element := Platform.own "java.util.List" 0 "E"
    let number := TypeExpr.nominal "java.lang.Integer"
    let texts := Platform.comparableTo "java.lang.String"
    let page := TypeExpr.nominal "com.example.Page"
    let h := Platform.hierarchy.extend [Platform.classOf "com.example.Page" []
      [.applied "java.lang.Comparable" [number], .applied "java.util.List" [texts]]]
    let declared := TypeExpr.applied "java.util.Map"
      [{ order with wildcard := .lower }, { element with arrays := 1 }]
    h.OwnSupertypes ∧ h.Fitting page ∧ ∃ filled, h.memberType declared page = .ok filled ∧
      filled = .applied "java.util.Map"
        [{ number with wildcard := .lower }, { texts with arrays := 1 }] := by
  intro order element number texts page h declared
  have hown : h.OwnSupertypes := by decide +kernel
  have hfitting : h.Fitting page := Or.inl rfl
  obtain ⟨filled, hfilled⟩ : ∃ filled, h.memberType declared page = .ok filled := ⟨_, rfl⟩
  refine ⟨hown, hfitting, filled, hfilled, ?_⟩
  obtain ⟨m, hfirst, hput, hresolved, -⟩ := memberType_fills hfilled
  have hfind : m.resolved = h.firstBinding? page ["java.lang.Comparable", "java.util.List"] :=
    (hresolved hown hfitting (by decide) (by decide)).trans (funext hfirst)
  rw [hfind] at hput
  rcases hput with hput | hput <;> exact hput.trans rfl

/-- A type is comparable to lists of texts, and is a list of numbers. The element type of lists is
filled with the numbers where it stands alone, and with the texts where the type of what can be
compared stands beside it, though all that is asked of the owner and the hierarchy holds. -/
theorem elements_filled_from_argument :
    let order := Platform.own "java.lang.Comparable" 0 "T"
    let element := Platform.own "java.util.List" 0 "E"
    let text := TypeExpr.nominal "java.lang.String"
    let number := TypeExpr.nominal "java.lang.Integer"
    let texts := TypeExpr.applied "java.util.List" [text]
    let catalog := TypeExpr.nominal "com.example.Catalog"
    let batch := [Platform.classOf "com.example.Catalog" []
      [.applied "java.lang.Comparable" [texts], .applied "java.util.List" [number]]]
    let h := Platform.hierarchy.extend batch
    Platform.hierarchy.register batch = .ok h ∧
      h.OwnSupertypes ∧ h.Fitting catalog ∧ (∀ o ∈ catalog.occurrences, o.parameter? = none) ∧
      (∀ o ∈ catalog.inner, o.isPrimitive = false) ∧
      h.supertype? catalog "java.util.List" = .ok (some (.applied "java.util.List" [number])) ∧
      h.memberType element catalog = .ok number ∧
      h.memberType (.applied "java.util.Map" [order, element]) catalog =
        .ok (.applied "java.util.Map" [texts, text]) := by
  intro order element text number texts catalog batch h
  have hregister : Platform.hierarchy.register batch = .ok h :=
    Platform.register_of_order (by decide +kernel) (by decide +kernel)
  have hown : h.OwnSupertypes := by decide +kernel
  have hfixed : ∀ o ∈ catalog.occurrences, o.parameter? = none := by decide
  have hfill (t : TypeExpr) (m : Bindings)
      (hm : h.mergeSupertypeBindings catalog (Text.nameSet (owners t)) .empty = .ok m)
      (hne : m.entries.isEmpty = false) :
      h.memberType t catalog = .ok (t.substitute m.find?).boxed := by
    have hresolved : m.resolved = m.find? :=
      resolved_of_firstBinding? hown (Or.inl rfl) (fixed_iff.mpr hfixed) rfl
        fun p => ((mergeSupertypeBindings_eq_ok hm).2 p).trans rfl
    rw [memberType, hm, ← hresolved, ← Bindings.translate_nil]
    simp only [bind, Except.bind, pure, Except.pure, Bindings.apply, hne, Bool.false_eq_true,
      ↓reduceIte]
  refine ⟨hregister, hown, Or.inl rfl, hfixed, by decide, rfl, ?_, ?_⟩
  · exact (hfill element _ rfl rfl).trans rfl
  · exact (hfill (.applied "java.util.Map" [order, element]) _ rfl rfl).trans rfl

end Hierarchy

end Mutability
