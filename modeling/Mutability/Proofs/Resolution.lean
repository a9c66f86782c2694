import Mutability.Proofs.ErasedReachability
import Mutability.Proofs.Termination

/-!
# Hierarchies in which every lookup succeeds

A hierarchy is scoped if all that its declarations and methods mention is declared: names, and type
parameters with their owner and index. Types are computed on the way, by putting arguments in, by
erasing and by boxing, but they never lead out of what is declared. So between types of a scoped
hierarchy no search fails: every distance that is found is an answer, and supertypes and types of
members always have one (`lookups_succeed`).
-/

namespace Mutability

/-- The types written in a declaration: its supertypes, bounds and method. -/
def Declaration.types (d : Declaration) : List TypeExpr :=
  d.supertypes ++ d.formals.flatMap (·.bounds) ++
    d.functional.elim [] fun s => s.result :: s.parameters

theorem Declaration.mem_mentions {d : Declaration} {name : String} :
    name ∈ d.mentions ↔ ∃ t ∈ d.types, name ∈ t.names := by
  simp only [mentions, types, List.mem_append, TypeExpr.mem_namesList, or_and_right, exists_or]

namespace Hierarchy

open Relation

/-! ## Scope -/

/-- The formal parameters that an owner declares. -/
def formalsOf (h : Hierarchy) : Option Owner → List Formal
  | none => []
  | some (.type name) => (h.find? name).elim [] (·.formals)
  | some (.method name) => (h.methods.lookup name).getD []

/-- A name is declared, and a parameter is one of those that its owner declares. -/
def Resolves (h : Hierarchy) : Base → Prop
  | .nominal name => h.Declares name
  | .parameter p => p.index < (h.formalsOf p.owner).length
  | _ => True

instance (h : Hierarchy) : DecidablePred h.Resolves
  | .nominal name => inferInstanceAs (Decidable (h.Declares name))
  | .parameter p => inferInstanceAs (Decidable (p.index < (h.formalsOf p.owner).length))
  | .primitive _ => .isTrue trivial
  | .null => .isTrue trivial
  | .wildcard => .isTrue trivial

/-- The bounds of methods' parameters, where the latest registration of a method counts. -/
def methodBounds (h : Hierarchy) : List TypeExpr :=
  (h.methods.filter fun entry => h.methods.lookup entry.1 = some entry.2).flatMap fun entry =>
    entry.2.flatMap (·.bounds)

/-- All that is mentioned is declared. -/
def Scoped (h : Hierarchy) : Prop :=
  ∀ t ∈ h.declarations.flatMap (·.types) ++ h.methodBounds, t.Every h.Resolves

instance (h : Hierarchy) : Decidable h.Scoped :=
  inferInstanceAs (Decidable
    (∀ t ∈ h.declarations.flatMap (·.types) ++ h.methodBounds, t.Every h.Resolves))

variable {h : Hierarchy}

theorem knows_of_resolves {t : TypeExpr} (ht : t.Every h.Resolves) : t.Every h.Knows := by
  refine ht.mono fun base hbase => ?_
  cases base with
  | nominal name => exact hbase
  | primitive | parameter | null | wildcard => trivial

theorem declares_of_mem_names {t : TypeExpr} (ht : t.Every h.Knows) {name : String}
    (hname : name ∈ t.names) : h.Declares name := by
  induction ht with
  | @intro t hbase _ ih =>
    rw [TypeExpr.names_eq] at hname
    rcases List.mem_append.mp hname with hown | hinner
    · cases hb : t.base <;> simp_all [TypeExpr.baseNames, Knows]
    · obtain ⟨a, ha, hmem⟩ := TypeExpr.mem_namesList.mp hinner
      exact ih a ha hmem

theorem Closed.declared (hclosed : h.Closed) {d : Declaration} (hd : d ∈ h.declarations)
    {t : TypeExpr} (ht : t ∈ d.types) : t.Every h.Knows :=
  every_knows fun name hname => hclosed d hd name (Declaration.mem_mentions.mpr ⟨t, ht, hname⟩)

/-- A bound is written in a declaration or with a method. -/
theorem mem_of_bound {owner : Option Owner} {formal : Formal} (hformal : formal ∈ h.formalsOf owner)
    {b : TypeExpr} (hb : b ∈ formal.bounds) :
    (∃ d ∈ h.declarations, b ∈ d.types) ∨ b ∈ h.methodBounds := by
  unfold formalsOf at hformal
  split at hformal
  · cases hformal
  · rename_i name
    cases hd : h.find? name with
    | none => simp [hd] at hformal
    | some d =>
      rw [hd] at hformal
      refine Or.inl ⟨d, List.mem_of_find?_eq_some hd, ?_⟩
      refine List.mem_append_left _ (List.mem_append_right _ ?_)
      exact List.mem_flatMap.mpr ⟨formal, hformal, hb⟩
  · rename_i name
    cases hm : h.methods.lookup name with
    | none => simp [hm] at hformal
    | some formals =>
      rw [hm] at hformal
      obtain ⟨before, after, happ, -⟩ := List.lookup_eq_some_iff.mp hm
      have hentry : (name, formals) ∈ h.methods := by simp [happ]
      refine Or.inr (List.mem_flatMap.mpr ⟨(name, formals), ?_, ?_⟩)
      · exact List.mem_filter.mpr ⟨hentry, by simpa using hm⟩
      · exact List.mem_flatMap.mpr ⟨formal, hformal, hb⟩

namespace Scoped

variable (hscoped : h.Scoped)

include hscoped

theorem declared {d : Declaration} (hd : d ∈ h.declarations) {t : TypeExpr} (ht : t ∈ d.types) :
    t.Every h.Resolves :=
  hscoped t (List.mem_append_left _ (List.mem_flatMap.mpr ⟨d, hd, ht⟩))

theorem closed : h.Closed := by
  intro d hd name hname
  obtain ⟨t, ht, hn⟩ := Declaration.mem_mentions.mp hname
  exact declares_of_mem_names (knows_of_resolves (hscoped.declared hd ht)) hn

/-- The bounds that an owner declares are in scope. -/
theorem bound {owner : Option Owner} {formal : Formal} (hformal : formal ∈ h.formalsOf owner)
    {b : TypeExpr} (hb : b ∈ formal.bounds) : b.Every h.Resolves := by
  rcases mem_of_bound hformal hb with ⟨d, hd, hmem⟩ | hmem
  · exact hscoped.declared hd hmem
  · exact hscoped b (List.mem_append_right _ hmem)

end Scoped

/-! ## Types that are computed -/

/-- A parameter in scope has bounds, those of one of its owner's parameters. -/
theorem exists_bounds {p : TypeParameter} (hp : h.Resolves (.parameter p)) :
    ∃ formal ∈ h.formalsOf p.owner, h.bounds p = .ok formal.bounds := by
  have hindex : p.index < (h.formalsOf p.owner).length := hp
  refine ⟨(h.formalsOf p.owner)[p.index], List.getElem_mem hindex, ?_⟩
  have howner : h.ownerFormals p = .ok (h.formalsOf p.owner) := by
    unfold ownerFormals formalsOf at *
    split
    · simp_all
    · rename_i name howner
      cases hd : h.find? name <;> simp_all [require, Except.map]
    · rename_i name howner
      cases hm : h.methods.lookup name <;> simp_all
  simp only [bounds, howner, bind, Except.bind, List.getElem?_eq_getElem hindex]
  rfl

theorem formalsOf_of_ownerFormals {p : TypeParameter} {formals : List Formal}
    (hformals : h.ownerFormals p = .ok formals) : h.formalsOf p.owner = formals := by
  unfold ownerFormals at hformals
  split at hformals
  · cases hformals
  · rename_i name howner
    cases hd : h.find? name <;> simp_all [formalsOf, require, Except.map]
  · rename_i name howner
    cases hm : h.methods.lookup name <;> simp_all [formalsOf]

/-- Bounds that are looked up are those of one of the owner's parameters. -/
theorem exists_formal_of_bounds {p : TypeParameter} {bounds : List TypeExpr}
    (hbounds : h.bounds p = .ok bounds) :
    ∃ formal ∈ h.formalsOf p.owner, formal.bounds = bounds := by
  unfold Hierarchy.bounds at hbounds
  cases hformals : h.ownerFormals p with
  | error fault => simp [hformals, bind, Except.bind] at hbounds
  | ok formals =>
    simp only [hformals, bind, Except.bind] at hbounds
    cases hformal : formals[p.index]? with
    | none => simp [hformal] at hbounds
    | some formal =>
      rw [hformal] at hbounds
      cases hbounds
      rw [formalsOf_of_ownerFormals hformals]
      exact ⟨formal, List.mem_of_getElem? hformal, rfl⟩

theorem FromPlatform.boxClosed_resolves (hbuilt : h.FromPlatform) : BoxClosed h.Resolves :=
  fun p _ => hbuilt.declares_boxName p

/-- Parts, bounds and supertypes of types in scope are in scope. -/
theorem Scoped.closedUnder (hscoped : h.Scoped) (hbuilt : h.FromPlatform) :
    h.ClosedUnder (·.Every h.Resolves) where
  arguments t ht := ht.arguments
  elements t ht := .intro ht.base ht.arguments
  bounds t ht b hb := by
    unfold boundsOf at hb
    cases hp : t.parameter? with
    | none => simp [hp] at hb
    | some p =>
      have hbase : t.base = .parameter p := TypeExpr.parameter?_eq_some_iff.mp hp
      obtain ⟨formal, hformal, hbounds⟩ := exists_bounds (hbase ▸ ht.base)
      simp only [hp, hbounds, Except.toOption, Option.getD_some] at hb
      exact hscoped.bound hformal hb
  supertypes t ht u hu := by
    obtain ⟨own, d, declared, -, hfind, hdeclared, hok⟩ := declared_of_hop hu
    have hscope : declared.Every h.Resolves := by
      refine hscoped.declared (List.mem_of_find?_eq_some hfind) ?_
      exact List.mem_append_left _ (List.mem_append_left _ hdeclared)
    exact directSupertype_every hbuilt.boxClosed_resolves ht hscope hok

/-! ## The search for a supertype -/

/-- What a search finds lies some hops up. -/
theorem hops_of_searchSupertype {name : String} {n : Nat} {t found : TypeExpr}
    {visited visited' : List String}
    (hfound : h.searchSupertype name n t visited = .ok (some found, visited')) :
    ReflTransGen h.Hop t found := by
  induction n generalizing t visited with
  | zero => cases hfound
  | succ n ih =>
    rcases searchSupertype_succ_eq_ok hfound with
      ⟨-, hnone⟩ | ⟨-, hself⟩ | ⟨own, d, hbase, -, -, hd, hrest⟩
    · cases hnone
    · cases hself
      exact .refl
    · obtain ⟨declared, hmem, u, before, hu, -, hvisit⟩ :=
        firstSupertype_eq_some (fun _ _ _ => subset_searchSupertype) hrest
      exact .head (hop_of_declared hbase hd hmem hu) (ih hvisit)

section Supertypes

variable (hbuilt : h.FromPlatform) (hscoped : h.Scoped) {sub : TypeExpr}
  (hsub : sub.Every h.Resolves)

include hbuilt hscoped hsub

theorem exists_supertype_resolves (name : String) :
    ∃ found, h.supertype? sub name = .ok found ∧ ∀ u ∈ found, u.Every h.Resolves := by
  have hclosed := hscoped.closedUnder hbuilt
  have hstart : sub.withoutArrays.Every h.Resolves := hclosed.elements sub hsub
  obtain ⟨⟨found, visited⟩, hresult⟩ := (hbuilt.upClosed hscoped.closed).exists_searchSupertype
    name (h.size + 1) (knows_of_resolves hstart) []
  refine ⟨found, by rw [supertype?, hresult]; rfl, fun u hu => ?_⟩
  obtain rfl : found = some u := hu
  have hhops := hops_of_searchSupertype hresult
  clear hresult
  induction hhops with
  | refl => exact hstart
  | tail _ hhop ih => exact hclosed.supertypes _ ih _ hhop

theorem exists_supertypeBindings (name : String) : ∃ b, h.supertypeBindings sub name = .ok b := by
  obtain ⟨found, hfound, hresolves⟩ := exists_supertype_resolves hbuilt hscoped hsub name
  simp only [supertypeBindings, hfound, bind, Except.bind]
  cases found with
  | none => exact ⟨_, rfl⟩
  | some u => exact exists_argumentBindings (knows_of_resolves (hresolves u rfl))

theorem exists_mergeSupertypeBindings (names : List String) (known : Bindings) :
    ∃ b, h.mergeSupertypeBindings sub names known = .ok b := by
  induction names generalizing known with
  | nil => exact ⟨known, rfl⟩
  | cons name names ih =>
    obtain ⟨b, hb⟩ := exists_supertypeBindings hbuilt hscoped hsub name
    obtain ⟨merged, hmerged⟩ := ih (known.merge b)
    exact ⟨merged, by simp [mergeSupertypeBindings, hb, hmerged, bind, Except.bind]⟩

theorem exists_memberType (declared : TypeExpr) : ∃ t, h.memberType declared sub = .ok t := by
  obtain ⟨b, hb⟩ := exists_mergeSupertypeBindings hbuilt hscoped hsub
    (Text.nameSet (owners declared)) .empty
  exact ⟨b.apply declared, by rw [memberType, hb]; rfl⟩

end Supertypes

end Hierarchy

/-! ## The search for a distance -/

namespace Assignability

variable {h : Hierarchy} {reversed : List TypeParameter}

theorem Move.Resolved.after {α : Type} {x : Except Unresolved α} {next : α → Move}
    (hx : ∃ a, x = .ok a) (hnext : ∀ a, (next a).Resolved h) : (Move.after x next).Resolved h := by
  obtain ⟨a, rfl⟩ := hx
  exact hnext a

theorem sameNameMove_resolved (target source : TypeExpr) (mode : Mode) :
    (sameNameMove target source mode).Resolved h := by
  unfold sameNameMove
  split_ifs
  · exact ⟨_, rfl⟩
  · exact ⟨_, rfl⟩
  · exact ⟨_, rfl⟩
  · trivial

theorem parameterSourceMove_resolved {q : Query} (hs : q.source.Every h.Resolves)
    {p : TypeParameter} (hsource : q.source.base = .parameter p) :
    (parameterSourceMove h reversed q p).Resolved h := by
  obtain ⟨formal, -, hbounds⟩ := Hierarchy.exists_bounds (hsource ▸ hs.base)
  unfold parameterSourceMove
  split_ifs
  · trivial
  · exact .after ⟨_, hbounds⟩ fun _ => trivial

section Moves

variable {q : Query} (ht : q.target.Every h.Resolves) (hs : q.source.Every h.Resolves)

include ht hs

theorem compareFunctional_resolved {target source : String}
    (htarget : q.target.base = .nominal target) (hsource : q.source.base = .nominal source) :
    ∃ d, compareFunctional h q.target q.source q.mode = .ok d := by
  obtain ⟨left, hleft, -⟩ := Hierarchy.exists_signature? (Hierarchy.knows_of_resolves ht) htarget
  obtain ⟨right, hright, -⟩ := Hierarchy.exists_signature? (Hierarchy.knows_of_resolves hs) hsource
  simp only [compareFunctional, hleft, hright, bind, Except.bind]
  cases left with
  | none => exact ⟨_, rfl⟩
  | some left =>
    cases right with
    | none => exact ⟨_, rfl⟩
    | some right => exact ⟨_, rfl⟩

theorem differentNamesMove_resolved {target source : String}
    (htarget : q.target.base = .nominal target) (hsource : q.source.base = .nominal source) :
    (differentNamesMove h q.target q.source target source q.mode).Resolved h := by
  have hknows := Hierarchy.knows_of_resolves hs
  unfold differentNamesMove
  split_ifs
  · exact compareFunctional_resolved ht hs htarget hsource
  · obtain ⟨d, -, hd⟩ := Hierarchy.exists_require (Hierarchy.declares_of_every hknows hsource)
    refine .after ⟨d, hd⟩ fun d t _ => ?_
    exact Hierarchy.exists_directSupertype hknows t
  · exact ⟨_, rfl⟩

theorem concreteMove_resolved : (concreteMove h q).Resolved h := by
  unfold concreteMove
  split_ifs
  · exact ⟨_, rfl⟩
  · trivial
  · split
    · exact ⟨_, rfl⟩
    · exact ⟨_, rfl⟩
    · exact ⟨_, rfl⟩
    · rename_i target source htarget hsource
      split_ifs
      · exact sameNameMove_resolved _ _ _
      · exact differentNamesMove_resolved ht hs htarget hsource
    · exact ⟨_, rfl⟩

theorem parameterTargetMove_resolved {p : TypeParameter} (htarget : q.target.base = .parameter p) :
    (parameterTargetMove h q p).Resolved h := by
  obtain ⟨formal, -, hbounds⟩ := Hierarchy.exists_bounds (htarget ▸ ht.base)
  refine .after ⟨_, hbounds⟩ fun bounds => ?_
  split_ifs
  · exact ⟨_, rfl⟩
  · split
    · trivial
    · trivial
    · rename_i p' hsource
      obtain ⟨formal', -, hbounds'⟩ := Hierarchy.exists_bounds (hsource ▸ hs.base)
      refine .after ⟨_, hbounds'⟩ fun bounds' => ?_
      split_ifs
      · exact ⟨_, rfl⟩
      · trivial
    · exact ⟨_, rfl⟩

theorem directedMove_resolved : (directedMove h reversed q).Resolved h := by
  unfold directedMove
  split_ifs
  · exact ⟨_, rfl⟩
  · exact ⟨_, rfl⟩
  · cases htarget : q.target.base with
    | parameter p => exact parameterTargetMove_resolved ht hs htarget
    | null | wildcard => exact ⟨_, rfl⟩
    | nominal | primitive =>
      cases hsource : q.source.base with
      | parameter p => exact parameterSourceMove_resolved hs hsource
      | null | wildcard => exact ⟨_, rfl⟩
      | nominal | primitive => exact concreteMove_resolved ht hs

/-- Between types in scope no lookup of a comparison fails. -/
theorem move_resolved : (move h reversed q).Resolved h := by
  unfold move
  split_ifs
  · exact ⟨_, rfl⟩
  · exact ⟨_, rfl⟩
  · exact ⟨_, rfl⟩
  · cases q.mode with
    | contravariant | any => trivial
    | invariant | covariant | erasure => exact directedMove_resolved ht hs

end Moves

theorem search_ne_unresolved (hbuilt : h.FromPlatform) (hscoped : h.Scoped)
    (reversed : List TypeParameter) (g : Bool) (n : Nat) (path : List Visit) {q : Query}
    (ht : q.target.Every h.Resolves) (hs : q.source.Every h.Resolves) (fault : Unresolved) :
    search ⟨h, reversed, g⟩ n path q ≠ .unresolved fault := by
  induction n generalizing path q with
  | zero => exact nofun
  | succ n ih =>
    rw [search_succ]
    refine Move.run_of (P := fun x => x ≠ .unresolved fault) (by simp)
      (Or.inl (move_resolved ht hs)) fun q' hq' => ?_
    have hclosed := hscoped.closedUnder hbuilt
    obtain ⟨ht', hs'⟩ := (makes_move h reversed q).closedUnder hclosed ht hs hq'
    exact ih _ ht' hs'

end Assignability

namespace Hierarchy

/-- Between types in scope every distance that is found is an answer, whatever the mode and the
reversed parameters, and the search for a supertype or for the type of a member succeeds. -/
theorem lookups_succeed {h : Hierarchy} (hbuilt : h.FromPlatform) (hscoped : h.Scoped)
    (target source : TypeExpr) (ht : target.Every h.Resolves) (hs : source.Every h.Resolves) :
    (∀ reversed mode, h.distance reversed target source mode ≠ .unfinished →
      ∃ d, h.distance reversed target source mode = .answer d) ∧
    (∀ name, ∃ found, h.supertype? source name = .ok found) ∧
    ∃ t, h.memberType target source = .ok t := by
  refine ⟨fun reversed mode hhalts => ?_, fun name => ?_, ?_⟩
  · obtain ⟨n, hn⟩ := Assignability.exists_depth_solve ⟨h, reversed, true⟩
      ⟨target, source, false, mode⟩
    have hsearch := Assignability.search_ne_unresolved hbuilt hscoped reversed true n []
      (q := ⟨target, source, false, mode⟩) ht hs
    rw [hn n (Nat.le_refl n)] at hsearch
    cases hd : h.distance reversed target source mode with
    | answer d => exact ⟨d, rfl⟩
    | unresolved fault => exact absurd hd (hsearch fault)
    | unfinished => exact absurd hd hhalts
  · obtain ⟨found, hfound, -⟩ := exists_supertype_resolves hbuilt hscoped hs name
    exact ⟨found, hfound⟩
  · exact exists_memberType hbuilt hscoped hs target

/-- A parameter of a method whose bound comes back to it, and which is looked at both ways. -/
theorem lookups_through_bounds :
    let least : TypeParameter := ⟨some (.method "com.example.Ranks.least"), 0, "X"⟩
    let below : TypeExpr := { TypeExpr.parameter least with wildcard := .upper }
    let rank := TypeExpr.nominal "com.example.Rank"
    let batch : List Declaration :=
      [⟨"com.example.Rank", .ofClass, [], some (.nominal TypeExpr.objectName),
        [.applied "java.lang.Comparable" [rank]], none⟩]
    ∃ h, Platform.hierarchy.register batch = .ok h ∧
      let h := h.addMethod "com.example.Ranks.least"
        [⟨"X", [.applied "java.lang.Comparable" [below]]⟩]
      h.Scoped ∧ (∃ d, h.distance [least] (.parameter least) rank .any = .answer d) ∧
        (∃ found, h.supertype? rank "java.lang.Comparable" = .ok found) ∧
        ∃ t, h.memberType (.parameter least) rank = .ok t := by
  intro least below rank batch
  let h := Platform.hierarchy.extend batch
  have hregister : Platform.hierarchy.register batch = .ok h :=
    Platform.register_of_order (by decide +kernel) (by decide +kernel)
  let h' := h.addMethod "com.example.Ranks.least"
    [⟨"X", [.applied "java.lang.Comparable" [below]]⟩]
  have hscoped : h'.Scoped := by decide +kernel
  have hsearch : Assignability.search ⟨h', [least], true⟩ 8 []
      ⟨.parameter least, rank, false, .any⟩ ≠ .unfinished := by decide +kernel
  have hhalts : h'.distance [least] (.parameter least) rank .any ≠ .unfinished := by
    rw [distance, Assignability.solve_eq_of_search hsearch]
    exact hsearch
  obtain ⟨hdistance, hsupertype, hmember⟩ :=
    lookups_succeed (.addMethod _ _ (.register .platform hregister)) hscoped (.parameter least) rank
      (by decide +kernel) (by decide +kernel)
  exact ⟨h, hregister, hscoped, hdistance [least] .any hhalts, hsupertype _, hmember⟩

end Hierarchy

end Mutability
