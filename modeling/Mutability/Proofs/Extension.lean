import Mutability.Proofs.Depth
import Mutability.Proofs.SupertypePath

/-!
# Hierarchies that grow

A hierarchy may refer to types that are declared later. Some lookups of such a type fail, others
take it for one that is no functional interface. So with plain declarations added, a computation
that failed may succeed, but one that came to a result comes to the same one (`KeptBy`): each lookup
that it made finds what it found before. `register_keeps_answers` says so of distances, supertypes,
methods and types of members. Most lookups have no regard to the bounds of formal parameters, and
are kept as well where these are others (`DeclaredIn`).

The search for a supertype counts its hops, and is given more of them in a greater hierarchy. But a
search that succeeds only ever leaves names that are declared and new to it, so that both
hierarchies give it enough (`searchSupertype_keptBy`).
-/

namespace Mutability

/-! ## Results that are kept -/

/-- The second computation has the result of the first, if that has one. -/
def KeptBy {α : Type} (x y : Except Unresolved α) : Prop := ∀ a, x = .ok a → y = .ok a

namespace KeptBy

variable {α β : Type} {x y : Except Unresolved α}

theorem refl (x : Except Unresolved α) : KeptBy x x := fun _ hx => hx

theorem of_error (fault : Unresolved) (y : Except Unresolved α) : KeptBy (.error fault) y := nofun

theorem bind {f g : α → Except Unresolved β} (hxy : KeptBy x y)
    (hfg : ∀ a, x = .ok a → KeptBy (f a) (g a)) : KeptBy (x >>= f) (y >>= g) := by
  cases x with
  | error fault => exact .of_error _ _
  | ok a =>
    rw [hxy a rfl]
    exact hfg a rfl

theorem map (hxy : KeptBy x y) (f : α → β) : KeptBy (x.map f) (y.map f) := by
  cases x with
  | error fault => exact .of_error _ _
  | ok a =>
    rw [hxy a rfl]
    exact refl _

end KeptBy

namespace Outcome

variable {α β : Type}

/-- The second outcome is the first one, if that is an answer. -/
def KeptBy (x y : Outcome α) : Prop := ∀ a, x = .answer a → y = .answer a

theorem KeptBy.bind {x y : Outcome α} {f g : α → Outcome β} (hxy : x.KeptBy y)
    (hfg : ∀ a, (f a).KeptBy (g a)) : (x >>= f).KeptBy (y >>= g) := by
  intro b hb
  obtain ⟨a, ha, hrest⟩ := bind_eq_answer.mp hb
  exact bind_eq_answer.mpr ⟨a, hxy a ha, hfg a b hrest⟩

theorem sequential_keptBy : Sequential (KeptBy (α := α)) :=
  ⟨fun _ _ ha => ha, KeptBy.bind⟩

end Outcome

/-- The second declaration is the first one, with other bounds of its formal parameters at most. -/
structure Declaration.SameButBounds (d d' : Declaration) : Prop where
  parameters : d'.parameters = d.parameters
  interfaces : d'.interfaces = d.interfaces
  parent : d'.parent = d.parent
  functional : d'.functional = d.functional

section SameButBounds

variable {d d' : Declaration} (hsame : d.SameButBounds d')

include hsame

theorem Declaration.SameButBounds.length_eq : d'.formals.length = d.formals.length := by
  simpa [Declaration.parameters] using congrArg List.length hsame.parameters

theorem Declaration.SameButBounds.isEmpty_eq : d'.formals.isEmpty = d.formals.isEmpty := by
  rw [Bool.eq_iff_iff, List.isEmpty_iff_length_eq_zero, List.isEmpty_iff_length_eq_zero,
    hsame.length_eq]

end SameButBounds

namespace Hierarchy

/-- The second hierarchy has the declarations and methods of the first, and no functional interface
that is new. -/
structure GrowsTo (h h' : Hierarchy) : Prop where
  find : ∀ {name d}, h.find? name = some d → h'.find? name = some d
  plain : ∀ {name d}, h.find? name = none → h'.find? name = some d → d.functional = none
  methods : h'.methods = h.methods
  size_le : h.size ≤ h'.size

theorem growsTo_of_register {h h' : Hierarchy} {batch : List Declaration}
    (hreg : h.register batch = .ok h') (hplain : ∀ d ∈ batch, d.functional = none) :
    h.GrowsTo h' := by
  obtain ⟨hdup, -, rfl⟩ := register_eq_ok hreg
  refine ⟨find?_extend_of_find? hdup, ?_, rfl, by simp [extend, size]⟩
  intro name d hold hnew
  have hmem : d ∈ batch ++ h.declarations := List.mem_of_find?_eq_some hnew
  rcases List.mem_append.mp hmem with hd | hd
  · exact hplain d hd
  · have hname := List.find?_eq_none.mp hold d hd
    simp [name_of_find? hnew] at hname

/-! ## Lookups up to bounds -/

/-- What the first hierarchy declares, the second declares too, up to bounds, and the functional
interfaces are the same. -/
structure DeclaredIn (h h' : Hierarchy) : Prop where
  find : ∀ {name d}, h.find? name = some d →
    ∃ d', h'.find? name = some d' ∧ d.SameButBounds d'
  isFunctional_eq : ∀ name, h'.isFunctional name = h.isFunctional name

theorem collectArguments_keptBy {h h' : Hierarchy} {arguments : List TypeExpr}
    (ih : ∀ a ∈ arguments, ∀ known, KeptBy (h.collect a known) (h'.collect a known))
    (ps : List TypeParameter) (known : Collected) :
    KeptBy (h.collectArguments arguments ps known) (h'.collectArguments arguments ps known) := by
  induction arguments generalizing ps known with
  | nil => simp [collectArguments, KeptBy]
  | cons a arguments ihList =>
    cases ps with
    | nil => simp [collectArguments, KeptBy]
    | cons p ps =>
      rw [collectArguments, collectArguments]
      have hfirst := ih a List.mem_cons_self ⟨known.bindings.bindNew p a, known.visited⟩
      cases hc : h.collect a ⟨known.bindings.bindNew p a, known.visited⟩ with
      | error fault => exact .of_error _ _
      | ok c =>
        rw [hfirst c hc]
        exact ihList (fun x hx => ih x (List.mem_cons_of_mem a hx)) ps c

namespace DeclaredIn

variable {h h' : Hierarchy} (hdeclared : h.DeclaredIn h')

include hdeclared

theorem exists_require {name : String} {d : Declaration} (hd : h.require name = .ok d) :
    ∃ d', h'.require name = .ok d' ∧ d.SameButBounds d' := by
  obtain ⟨d', hd', hsame⟩ := hdeclared.find (Assignability.find?_of_require hd)
  exact ⟨d', by simp [require, hd'], hsame⟩

theorem require_bind_keptBy {α : Type} {f f' : Declaration → Except Unresolved α}
    (hf : ∀ d d', d.SameButBounds d' → KeptBy (f d) (f' d')) (name : String) :
    KeptBy (h.require name >>= f) (h'.require name >>= f') := by
  cases hd : h.require name with
  | error fault => exact .of_error _ _
  | ok d =>
    obtain ⟨d', hd', hsame⟩ := hdeclared.exists_require hd
    rw [hd']
    exact hf d d' hsame

theorem collect_keptBy (t : TypeExpr) (known : Collected) :
    KeptBy (h.collect t known) (h'.collect t known) := by
  obtain ⟨base, arguments, arrays, wildcard⟩ := t
  cases base with
  | nominal name =>
    rw [collect, collect]
    split
    · exact KeptBy.refl _
    · cases hd : h.require name with
      | error fault => exact .of_error _ _
      | ok d =>
        obtain ⟨d', hd', hsame⟩ := hdeclared.exists_require hd
        simp only [hd', hsame.length_eq, hsame.parameters]
        split
        · exact collectArguments_keptBy (fun a _ => collect_keptBy a) _ _
        · exact KeptBy.refl _
  | primitive | parameter | null | wildcard => simp [collect, KeptBy]
termination_by sizeOf t
decreasing_by
  rename_i hmem
  have := List.sizeOf_lt_of_mem hmem
  simp only [TypeExpr.mk.sizeOf_spec]
  omega

theorem argumentBindings_keptBy (t : TypeExpr) :
    KeptBy (h.argumentBindings t) (h'.argumentBindings t) :=
  (hdeclared.collect_keptBy t _).map _

theorem directSupertype_keptBy (sub declared : TypeExpr) :
    KeptBy (h.directSupertype sub declared) (h'.directSupertype sub declared) := by
  unfold directSupertype
  split
  · refine hdeclared.require_bind_keptBy (fun d d' hsame => ?_) _
    rw [hsame.isEmpty_eq]
    split
    · exact KeptBy.refl _
    · exact (hdeclared.argumentBindings_keptBy sub).bind fun _ _ => KeptBy.refl _
  · exact KeptBy.refl _

theorem signature?_keptBy (t : TypeExpr) : KeptBy (h.signature? t) (h'.signature? t) := by
  unfold signature?
  split
  · refine hdeclared.require_bind_keptBy (fun d d' hsame => ?_) _
    rw [hsame.functional]
    split
    · exact KeptBy.refl _
    · exact (hdeclared.argumentBindings_keptBy t).bind fun _ _ => KeptBy.refl _
  · exact KeptBy.refl _

end DeclaredIn

/-! ## Lookups -/

namespace GrowsTo

variable {h h' : Hierarchy} (hgrows : h.GrowsTo h')

include hgrows

theorem require_keptBy (name : String) : KeptBy (h.require name) (h'.require name) := by
  unfold require
  cases hd : h.find? name with
  | none => exact nofun
  | some d =>
    rw [hgrows.find hd]
    exact KeptBy.refl _

theorem isFunctional_eq (name : String) : h'.isFunctional name = h.isFunctional name := by
  unfold isFunctional
  cases hd : h.find? name with
  | some d => rw [hgrows.find hd]
  | none =>
    cases hd' : h'.find? name with
    | none => rfl
    | some d => simp [hgrows.plain hd hd']

theorem declaredIn : h.DeclaredIn h' where
  find hd := ⟨_, hgrows.find hd, rfl, rfl, rfl, rfl⟩
  isFunctional_eq := hgrows.isFunctional_eq

theorem ownerFormals_keptBy (p : TypeParameter) :
    KeptBy (h.ownerFormals p) (h'.ownerFormals p) := by
  unfold ownerFormals
  rw [hgrows.methods]
  split
  · exact nofun
  · exact (hgrows.require_keptBy _).map _
  · exact KeptBy.refl _

theorem bounds_keptBy (p : TypeParameter) : KeptBy (h.bounds p) (h'.bounds p) :=
  (hgrows.ownerFormals_keptBy p).bind fun _ _ => KeptBy.refl _

/-! ## Supertypes -/

omit hgrows in
theorem unvisited_le_of_subset {visited visited' : List String} (hsub : visited ⊆ visited') :
    h.unvisited visited' ≤ h.unvisited visited := by
  refine List.countP_mono_left fun d _ hd => ?_
  simp only [decide_eq_true_eq] at hd ⊢
  exact fun hmem => hd (hsub hmem)

omit hgrows in
theorem firstSupertype_keptBy {visit visit' : TypeExpr → List String → Except Unresolved Found}
    {concrete concrete' : TypeExpr → Except Unresolved TypeExpr} {start : List String}
    (hconcrete : ∀ t, KeptBy (concrete t) (concrete' t))
    (hvisit : ∀ t visited, start ⊆ visited → KeptBy (visit t visited) (visit' t visited))
    (hsubset : ∀ t visited result, visit t visited = .ok result → visited ⊆ result.2)
    (ts : List TypeExpr) {visited : List String} (hstart : start ⊆ visited) :
    KeptBy (firstSupertype visit concrete ts visited)
      (firstSupertype visit' concrete' ts visited) := by
  induction ts generalizing visited with
  | nil => exact KeptBy.refl _
  | cons t ts ih =>
    refine (hconcrete t).bind fun u _ => ?_
    refine (hvisit u visited hstart).bind fun result hresult => ?_
    obtain ⟨found, visited'⟩ := result
    cases found with
    | some found => exact KeptBy.refl _
    | none => exact ih (List.Subset.trans hstart (hsubset u visited _ hresult))

/-- Hops that are enough for the declarations of the smaller hierarchy which are not visited yet
are enough in both. -/
theorem searchSupertype_keptBy (name : String) {hops hops' : Nat} (t : TypeExpr)
    {visited : List String} (hhops : h.unvisited visited < hops)
    (hhops' : h.unvisited visited < hops') :
    KeptBy (h.searchSupertype name hops t visited) (h'.searchSupertype name hops' t visited) := by
  induction hops generalizing hops' t visited with
  | zero => omega
  | succ hops ih =>
    obtain ⟨hops', rfl⟩ : ∃ k, hops' = k + 1 := ⟨hops' - 1, by omega⟩
    rw [searchSupertype, searchSupertype]
    split
    · rename_i own _
      split
      · exact KeptBy.refl _
      · split
        · exact KeptBy.refl _
        · rename_i hnew
          refine (hgrows.require_keptBy own).bind fun d hd => ?_
          have hfewer : h.unvisited (own :: visited) < h.unvisited visited :=
            unvisited_cons_lt (by simpa using hnew) (Assignability.find?_of_require hd)
          refine firstSupertype_keptBy (hgrows.declaredIn.directSupertype_keptBy t)
            (fun u between hsub => ?_) (fun _ _ _ => subset_searchSupertype) _
            (List.Subset.refl _)
          have := unvisited_le_of_subset (h := h) hsub
          exact ih u (by omega) (by omega)
    · exact KeptBy.refl _

theorem supertype?_keptBy (sub : TypeExpr) (name : String) :
    KeptBy (h.supertype? sub name) (h'.supertype? sub name) := by
  have hsize : h.unvisited [] ≤ h.size := List.countP_le_length
  have hle := hgrows.size_le
  exact (hgrows.searchSupertype_keptBy name _ (by omega) (by omega)).map _

theorem supertypeBindings_keptBy (sub : TypeExpr) (name : String) :
    KeptBy (h.supertypeBindings sub name) (h'.supertypeBindings sub name) := by
  refine (hgrows.supertype?_keptBy sub name).bind fun found _ => ?_
  cases found with
  | none => exact KeptBy.refl _
  | some found => exact hgrows.declaredIn.argumentBindings_keptBy found

theorem mergeSupertypeBindings_keptBy (sub : TypeExpr) (names : List String) (known : Bindings) :
    KeptBy (h.mergeSupertypeBindings sub names known)
      (h'.mergeSupertypeBindings sub names known) := by
  induction names generalizing known with
  | nil => exact KeptBy.refl _
  | cons name names ih =>
    exact (hgrows.supertypeBindings_keptBy sub name).bind fun b _ => ih (known.merge b)

theorem memberType_keptBy (declared owner : TypeExpr) :
    KeptBy (h.memberType declared owner) (h'.memberType declared owner) :=
  (hgrows.mergeSupertypeBindings_keptBy owner _ _).bind fun _ _ => KeptBy.refl _

end GrowsTo

end Hierarchy

/-! ## Distances -/

namespace Assignability

open Hierarchy

/-- The second move is the first one, unless that is a lookup that failed. -/
inductive Move.KeptBy : Move → Move → Prop where
  | failed (fault : Unresolved) (m : Move) : KeptBy (.done (.error fault)) m
  | same (m : Move) : KeptBy m m

theorem Move.KeptBy.after {α : Type} {x y : Except Unresolved α} {next next' : α → Move}
    (hxy : Mutability.KeptBy x y) (hnext : ∀ a, (next a).KeptBy (next' a)) :
    (Move.after x next).KeptBy (Move.after y next') := by
  cases x with
  | error fault => exact .failed fault _
  | ok a =>
    rw [hxy a rfl]
    exact hnext a

section Declared

variable {h h' : Hierarchy} (hdeclared : h.DeclaredIn h')

include hdeclared

theorem compareFunctional_keptBy (target source : TypeExpr) (mode : Mode) :
    KeptBy (compareFunctional h target source mode) (compareFunctional h' target source mode) :=
  (hdeclared.signature?_keptBy target).bind fun _ _ =>
    (hdeclared.signature?_keptBy source).bind fun _ _ => KeptBy.refl _

theorem differentNamesMove_keptBy (target source : TypeExpr) (targetName sourceName : String)
    (mode : Mode) :
    (differentNamesMove h target source targetName sourceName mode).KeptBy
      (differentNamesMove h' target source targetName sourceName mode) := by
  unfold differentNamesMove
  rw [hdeclared.isFunctional_eq, hdeclared.isFunctional_eq]
  split_ifs
  · have hkept := compareFunctional_keptBy hdeclared target source mode
    cases hd : compareFunctional h target source mode with
    | error fault => exact .failed fault _
    | ok d =>
      rw [hkept d hd]
      exact .same _
  · cases hd : h.require sourceName with
    | error fault => exact .failed fault _
    | ok d =>
      obtain ⟨d', hd', hsame⟩ := hdeclared.exists_require hd
      rw [hd', Move.after, Move.after, climbable, climbable, hsame.interfaces, hsame.parent]
      exact .same _
  · exact .same _

theorem concreteMove_keptBy (q : Query) : (concreteMove h q).KeptBy (concreteMove h' q) := by
  unfold concreteMove
  split_ifs
  · exact .same _
  · exact .same _
  · split
    · exact .same _
    · exact .same _
    · exact .same _
    · split_ifs
      · exact .same _
      · exact differentNamesMove_keptBy hdeclared _ _ _ _ _
    · exact .same _

end Declared

section Moves

variable {h h' : Hierarchy} (hgrows : h.GrowsTo h')

include hgrows

theorem parameterTargetMove_keptBy (q : Query) (p : TypeParameter) :
    (parameterTargetMove h q p).KeptBy (parameterTargetMove h' q p) := by
  refine .after (hgrows.bounds_keptBy p) fun bounds => ?_
  split_ifs
  · exact .same _
  · split
    · exact .same _
    · exact .same _
    · exact .after (hgrows.bounds_keptBy _) fun sourceBounds => .same _
    · exact .same _

theorem parameterSourceMove_keptBy (reversed : List TypeParameter) (q : Query)
    (p : TypeParameter) :
    (parameterSourceMove h reversed q p).KeptBy (parameterSourceMove h' reversed q p) := by
  unfold parameterSourceMove
  split_ifs
  · exact .same _
  · exact .after (hgrows.bounds_keptBy p) fun bounds => .same _

theorem directedMove_keptBy (reversed : List TypeParameter) (q : Query) :
    (directedMove h reversed q).KeptBy (directedMove h' reversed q) := by
  unfold directedMove
  split_ifs
  · exact .same _
  · exact .same _
  · cases q.target.base with
    | parameter p => exact parameterTargetMove_keptBy hgrows q p
    | null | wildcard => exact .same _
    | nominal | primitive =>
      cases q.source.base with
      | parameter p => exact parameterSourceMove_keptBy hgrows reversed q p
      | null | wildcard => exact .same _
      | nominal | primitive => exact concreteMove_keptBy hgrows.declaredIn q

theorem move_keptBy (reversed : List TypeParameter) (q : Query) :
    (move h reversed q).KeptBy (move h' reversed q) := by
  unfold move
  split_ifs
  · exact .same _
  · exact .same _
  · exact .same _
  · cases q.mode with
    | contravariant | any => exact .same _
    | invariant | covariant | erasure => exact directedMove_keptBy hgrows reversed q

/-- A move that comes to an answer comes to the same one in the greater hierarchy. -/
theorem Move.run_keptBy {reversed : List TypeParameter} {g : Bool} {recur recur' : Answerer}
    {path : List Visit} {m m' : Move} (hm : m.KeptBy m')
    (hrecur : ∀ path q, (recur path q).KeptBy (recur' path q)) :
    (m.run ⟨h, reversed, g⟩ recur path).KeptBy (m'.run ⟨h', reversed, g⟩ recur' path) := by
  cases hm with
  | failed fault => exact nofun
  | same m =>
    refine run_relates Outcome.sequential_keptBy (fun _ _ => rfl) (fun _ _ _ => id) ?_
      fun q _ => hrecur _ q
    rintro v declared - t -
    cases hu : h.directSupertype v.source t with
    | error fault => exact nofun
    | ok u =>
      rw [hgrows.declaredIn.directSupertype_keptBy v.source t u hu]
      exact hrecur _ _

theorem search_keptBy (reversed : List TypeParameter) (g : Bool) (depth : Nat)
    (path : List Visit) (q : Query) :
    (search ⟨h, reversed, g⟩ depth path q).KeptBy (search ⟨h', reversed, g⟩ depth path q) := by
  induction depth generalizing path q with
  | zero => exact nofun
  | succ depth ih =>
    rw [search_succ, search_succ]
    exact Move.run_keptBy hgrows (move_keptBy hgrows reversed q) ih

end Moves

end Assignability

namespace Hierarchy

open Assignability

theorem GrowsTo.distance_keptBy {h h' : Hierarchy} (hgrows : h.GrowsTo h')
    (reversed : List TypeParameter) (target source : TypeExpr) (mode : Mode) :
    (h.distance reversed target source mode).KeptBy (h'.distance reversed target source mode) := by
  intro d hd
  obtain ⟨depth, hdepth⟩ := exists_depth_solve ⟨h, reversed, true⟩ ⟨target, source, false, mode⟩
  have hsearch := hdepth depth (Nat.le_refl depth)
  exact solve_eq_answer (search_keptBy hgrows reversed true depth [] _ d (hsearch.trans hd))

/-- A batch of plain declarations does not change what is known: distances, supertypes with what
their parameters stand for, methods of functional interfaces and types of members that could be
found before are found again. -/
theorem register_keeps_answers {h h' : Hierarchy} {batch : List Declaration}
    (hreg : h.register batch = .ok h') (hplain : ∀ d ∈ batch, d.functional = none) :
    (∀ reversed target source mode d, h.distance reversed target source mode = .answer d →
      h'.distance reversed target source mode = .answer d) ∧
    (∀ sub name found, h.supertype? sub name = .ok found → h'.supertype? sub name = .ok found) ∧
    (∀ sub name b, h.supertypeBindings sub name = .ok b → h'.supertypeBindings sub name = .ok b) ∧
    (∀ t found, h.signature? t = .ok found → h'.signature? t = .ok found) ∧
    ∀ declared owner t, h.memberType declared owner = .ok t →
      h'.memberType declared owner = .ok t := by
  have hgrows := growsTo_of_register hreg hplain
  exact ⟨hgrows.distance_keptBy, hgrows.supertype?_keptBy, hgrows.supertypeBindings_keptBy,
    hgrows.declaredIn.signature?_keptBy, hgrows.memberType_keptBy⟩

/-- A class that refers to an interface before that is declared. -/
theorem report_answers_kept :
    let element : TypeParameter := ⟨some (.type "java.util.List"), 0, "E"⟩
    let text := TypeExpr.nominal "java.lang.String"
    let texts := TypeExpr.applied "java.util.List" [text]
    let report := TypeExpr.nominal "com.example.Report"
    let printable := TypeExpr.nominal "com.example.Printable"
    let runnable := TypeExpr.nominal "java.lang.Runnable"
    let earlier : List Declaration :=
      [⟨"com.example.Report", .ofClass, [], none, [texts, printable], none⟩]
    let batch : List Declaration :=
      [⟨"com.example.Printable", .ofInterface, [], none,
        [.applied "java.lang.Comparable" [report]], none⟩]
    ∃ h h', Platform.hierarchy.register earlier = .ok h ∧
      h.find? "com.example.Printable" = none ∧ h.register batch = .ok h' ∧
      h'.distance [] texts report .covariant = .answer .hop ∧
      h'.distance [] runnable printable .invariant = .answer .notAssignable ∧
      h'.supertype? report "java.util.List" = .ok (some texts) ∧
      h'.supertypeBindings report "java.util.List" = .ok ⟨[(element, text)]⟩ ∧
      h'.signature? runnable = .ok (some ⟨[], .primitive .void⟩) ∧
      h'.memberType (.parameter element) report = .ok text := by
  intro element text texts report printable runnable earlier batch
  let h := Platform.hierarchy.extend earlier
  let order := Platform.declarations.map (·.name) ++ ["com.example.Printable", "com.example.Report"]
  have hearlier : Platform.hierarchy.register earlier = .ok h :=
    register_of_acyclic (by decide +kernel) (acyclic_of_order order (by decide +kernel))
  have hreg : h.register batch = .ok (h.extend batch) :=
    register_of_acyclic (by decide +kernel) (acyclic_of_order order (by decide +kernel))
  have hmember : h.memberType (.parameter element) report = .ok text := by
    have hbindings : h.mergeSupertypeBindings report
        (Text.nameSet (owners (.parameter element))) .empty = .ok ⟨[(element, text)]⟩ := rfl
    rw [memberType, hbindings]
    show Except.ok (Bindings.apply _ _) = _
    rw [Bindings.apply, if_neg (by decide), Bindings.translate,
      Bindings.follow_of_find? rfl (by simp) rfl (by decide),
      Bindings.follow_of_parameter?_eq_none rfl]
    rfl
  obtain ⟨hdistance, hsupertype, hbindings, hsignature, hkept⟩ :=
    register_keeps_answers hreg (by decide)
  exact ⟨h, h.extend batch, hearlier, by decide +kernel, hreg,
    hdistance _ _ _ _ _ (solve_eq_answer (n := 5) (by decide +kernel)),
    hdistance _ _ _ _ _ (solve_eq_answer (n := 5) (by decide +kernel)),
    hsupertype _ _ _ rfl, hbindings _ _ _ rfl, hsignature _ _ rfl, hkept _ _ _ hmember⟩

end Hierarchy

end Mutability
