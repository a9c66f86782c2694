import Mathlib.Data.List.Sort
import Mathlib.Data.Set.Basic
import Mutability.Proofs.PlatformTypes

/-!
# Registration

The declarations of a hierarchy form a graph of names, with a link from each type to its declared
supertypes. Whatever batches are offered to a hierarchy, accepted or not, the graph never gets a
cycle, and a batch is accepted exactly if its names are new and it closes none (`register_exact`).
A supertype may be declared long after the types that refer to it, so that a cycle can pass through
declarations that were there before; but it always passes through the batch that closes it, and only
names of the batch are looked at.
-/

namespace Mutability

open Relation

/-! ## Graphs of declarations -/

/-- A declaration of the first name has a supertype of the second. -/
def Links (declared : Set Declaration) (a b : String) : Prop :=
  ∃ d ∈ declared, d.name = a ∧ ∃ t ∈ d.supertypes, t.name? = some b

/-- No links lead from a name back to it. -/
def CycleFree (declared : Set Declaration) : Prop :=
  ∀ name, ¬ TransGen (Links declared) name name

namespace Hierarchy

/-- The declarations that are found under their names. -/
def contents (h : Hierarchy) : Set Declaration := {d | h.find? d.name = some d}

variable {h : Hierarchy} {batch : List Declaration}

theorem links_contents (h : Hierarchy) : Links h.contents = h.Super := by
  funext a b
  refine propext ⟨?_, fun hab => ?_⟩
  · rintro ⟨d, hd, rfl, t, ht, hb⟩
    exact super_iff.mpr ⟨d, hd, t, ht, hb⟩
  · obtain ⟨d, hd, t, ht, hb⟩ := super_iff.mp hab
    obtain rfl := name_of_find? hd
    exact ⟨d, hd, rfl, t, ht, hb⟩

theorem cycleFree_contents_iff : CycleFree h.contents ↔ h.Acyclic := by
  rw [CycleFree, links_contents, Acyclic]

/-! ## New names -/

/-- Every name in the batch is new, and new only once. -/
def Fresh (h : Hierarchy) (batch : List Declaration) : Prop :=
  (batch.map (·.name)).Nodup ∧ ∀ d ∈ batch, ¬ h.Declares d.name

instance (h : Hierarchy) (batch : List Declaration) : Decidable (h.Fresh batch) :=
  inferInstanceAs (Decidable (_ ∧ _))

theorem countWith_eq (h : Hierarchy) (batch : List Declaration) (name : String) :
    h.countWith batch name =
      (batch.map (·.name)).count name + (if (h.find? name).isSome then 1 else 0) := by
  rw [countWith, List.count, List.countP_map]
  rfl

/-- A batch has no duplicates exactly if it is fresh. -/
theorem duplicateCounts_eq_nil_iff : h.duplicateCounts batch = [] ↔ h.Fresh batch := by
  have hcounts : h.duplicateCounts batch = [] ↔ ∀ d ∈ batch, h.countWith batch d.name ≤ 1 := by
    simp [duplicateCounts, List.filter_eq_nil_iff, Text.mem_nameSet]
  have hpos : ∀ d ∈ batch, 0 < (batch.map (·.name)).count d.name := fun d hd =>
    List.count_pos_iff.mpr (List.mem_map_of_mem hd)
  rw [hcounts, Fresh, List.nodup_iff_count_eq_one, List.forall_mem_map, ← forall₂_and]
  refine forall₂_congr fun d hd => ?_
  have := hpos d hd
  rw [countWith_eq, Declares]
  split_ifs <;> simp [*] <;> omega

theorem find?_of_nodup {ds : List Declaration} (hnodup : (ds.map (·.name)).Nodup) {d : Declaration}
    (hd : d ∈ ds) : ds.find? (·.name = d.name) = some d := by
  induction ds with
  | nil => cases hd
  | cons d' ds ih =>
    obtain ⟨hd', hnodup⟩ := List.nodup_cons.mp hnodup
    rcases List.mem_cons.mp hd with rfl | hd
    · simp
    · have hne : d'.name ≠ d.name := fun heq => hd' (List.mem_map.mpr ⟨d, hd, heq.symm⟩)
      simpa [List.find?_cons, hne] using ih hnodup hd

theorem find?_extend_of_mem (hfresh : h.Fresh batch) {d : Declaration} (hd : d ∈ batch) :
    (h.extend batch).find? d.name = some d := by
  show List.find? _ (batch ++ h.declarations) = _
  rw [List.find?_append, find?_of_nodup hfresh.1 hd, Option.some_or]

/-- With a fresh batch, a hierarchy holds what it held before and the batch. -/
theorem contents_extend (hfresh : h.Fresh batch) :
    (h.extend batch).contents = h.contents ∪ {d | d ∈ batch} := by
  ext d
  constructor
  · intro (hd : (h.extend batch).find? d.name = some d)
    by_cases hname : d.name ∈ batch.map (·.name)
    · obtain ⟨d', hd', heq⟩ := List.mem_map.mp hname
      rw [← heq, find?_extend_of_mem hfresh hd'] at hd
      cases hd
      exact Or.inr hd'
    · rw [find?_extend_of_not_mem hname] at hd
      exact Or.inl hd
  · rintro (hd | hd)
    · exact find?_extend_of_find? (duplicateCounts_eq_nil_iff.mpr hfresh) hd
    · exact find?_extend_of_mem hfresh hd

/-! ## Cycles -/

theorem mem_cyclicNames_iff {name : String} :
    name ∈ h.cyclicNames batch ↔
      name ∈ batch.map (·.name) ∧ TransGen (h.extend batch).Super name name := by
  rw [cyclicNames, List.mem_filter, Text.mem_nameSet, decide_eq_true_iff, mem_ancestors_iff]

theorem pairwise_cyclicNames (h : Hierarchy) (batch : List Declaration) :
    (h.cyclicNames batch).Pairwise (· < ·) :=
  (Text.pairwise_nameSet _).filter _

theorem cyclicNames_eq_nil_iff (hacyclic : h.Acyclic) :
    h.cyclicNames batch = [] ↔ (h.extend batch).Acyclic := by
  refine ⟨acyclic_extend hacyclic, fun hextend => List.eq_nil_iff_forall_not_mem.mpr ?_⟩
  exact fun name hname => hextend name (mem_cyclicNames_iff.mp hname).2

/-- The three ways of a registration, each with the condition for it. -/
theorem register_cases (hacyclic : h.Acyclic) (batch : List Declaration) :
    (¬ h.Fresh batch ∧ ∃ counts, h.register batch = .error (.duplicates counts)) ∨
    (h.Fresh batch ∧ ¬ (h.extend batch).Acyclic ∧
      h.register batch = .error (.cyclic (h.cyclicNames batch))) ∨
    (h.Fresh batch ∧ (h.extend batch).Acyclic ∧ h.register batch = .ok (h.extend batch)) := by
  rw [← duplicateCounts_eq_nil_iff, ← cyclicNames_eq_nil_iff hacyclic]
  unfold register
  split_ifs with hdup hcyclic
  · exact Or.inl ⟨hdup, _, rfl⟩
  · exact Or.inr (Or.inl ⟨not_not.mp hdup, hcyclic, rfl⟩)
  · exact Or.inr (Or.inr ⟨not_not.mp hdup, not_not.mp hcyclic, rfl⟩)

/-! ## Offers -/

/-- The hierarchy after a batch is offered to it. A batch that is rejected changes nothing. -/
def offer (h : Hierarchy) (batch : List Declaration) : Hierarchy :=
  match h.register batch with
  | .ok h' => h'
  | .error _ => h

def offerAll (h : Hierarchy) (batches : List (List Declaration)) : Hierarchy :=
  batches.foldl offer h

theorem offer_of_ok {h' : Hierarchy} (hreg : h.register batch = .ok h') : h.offer batch = h' := by
  rw [offer, hreg]

theorem offer_of_error {rejection : Rejection} (hreg : h.register batch = .error rejection) :
    h.offer batch = h := by
  rw [offer, hreg]

theorem acyclic_offer (hacyclic : h.Acyclic) (batch : List Declaration) :
    (h.offer batch).Acyclic := by
  cases hreg : h.register batch with
  | error rejection => rwa [offer_of_error hreg]
  | ok h' =>
    obtain ⟨-, hcyclic, rfl⟩ := register_eq_ok hreg
    rw [offer_of_ok hreg]
    exact acyclic_extend hacyclic hcyclic

theorem acyclic_offerAll (hacyclic : h.Acyclic) (batches : List (List Declaration)) :
    (h.offerAll batches).Acyclic := by
  induction batches generalizing h with
  | nil => exact hacyclic
  | cons batch batches ih => exact ih (acyclic_offer hacyclic batch)

theorem acyclic_empty : Hierarchy.empty.Acyclic :=
  acyclic_of_order [] (by simp [empty])

/-- Offers from the beginning keep a hierarchy free of cycles. A batch is accepted exactly if its
names are new and it closes no cycle, and is then added as a whole; otherwise nothing changes, and a
closed cycle is reported with exactly the names of the batch on it. -/
theorem register_exact {start : Hierarchy}
    (hstart : start = Hierarchy.empty ∨ start = Platform.hierarchy)
    (batches : List (List Declaration)) (batch : List Declaration) :
    let h := start.offerAll batches
    let together := h.contents ∪ {d | d ∈ batch}
    CycleFree h.contents ∧
      ((∃ h', h.register batch = .ok h') ↔ h.Fresh batch ∧ CycleFree together) ∧
      (∀ h', h.register batch = .ok h' → h.offer batch = h' ∧ h'.contents = together ∧
        h'.size = h.size + batch.length ∧ h'.methods = h.methods) ∧
      (∀ rejection, h.register batch = .error rejection → h.offer batch = h) ∧
      ((∃ names, h.register batch = .error (.cyclic names)) ↔
        h.Fresh batch ∧ ¬ CycleFree together) ∧
      ∀ names, h.register batch = .error (.cyclic names) → names.Pairwise (· < ·) ∧
        ∀ name, name ∈ names ↔
          name ∈ batch.map (·.name) ∧ TransGen (Links together) name name := by
  intro h together
  have hacyclic : h.Acyclic := by
    rcases hstart with rfl | rfl
    · exact acyclic_offerAll acyclic_empty batches
    · exact acyclic_offerAll Platform.acyclic_hierarchy batches
  have htogether (hfresh : h.Fresh batch) : (h.extend batch).contents = together :=
    contents_extend hfresh
  refine ⟨cycleFree_contents_iff.mpr hacyclic, ?_⟩
  rcases register_cases hacyclic batch with ⟨hfresh, counts, hreg⟩ | ⟨hfresh, hcycle, hreg⟩ |
    ⟨hfresh, hextend, hreg⟩
  · refine ⟨by simp [hreg, hfresh], by simp [hreg], fun _ => offer_of_error, by simp [hreg, hfresh],
      by simp [hreg]⟩
  · rw [← cycleFree_contents_iff, htogether hfresh] at hcycle
    refine ⟨by simp [hreg, hcycle], by simp [hreg], fun _ => offer_of_error,
      by simp [hreg, hfresh, hcycle], fun names hnames => ?_⟩
    cases hreg.symm.trans hnames
    refine ⟨pairwise_cyclicNames h batch, fun name => ?_⟩
    rw [mem_cyclicNames_iff, ← links_contents, htogether hfresh]
  · rw [← cycleFree_contents_iff, htogether hfresh] at hextend
    refine ⟨by simp [hreg, hfresh, hextend], fun h' hh' => ?_, fun _ => offer_of_error,
      by simp [hreg, hextend], by simp [hreg]⟩
    refine ⟨offer_of_ok hh', ?_⟩
    cases hreg.symm.trans hh'
    exact ⟨htogether hfresh, by simp [extend, size, Nat.add_comm], rfl⟩

/-- An interface may refer to one that is declared later, which may then not refer back to it. -/
theorem tail_closes_cycle :
    let head : Declaration :=
      ⟨"com.example.Head", .ofInterface, [], none, [.nominal "com.example.Tail"], none⟩
    let tail : Declaration :=
      ⟨"com.example.Tail", .ofInterface, [], none,
        [.applied "java.util.List" [.nominal "com.example.Head"], .nominal "com.example.Head"],
        none⟩
    let h := Platform.hierarchy.offerAll [[head]]
    head ∈ h.contents ∧ h.register [tail] = .error (.cyclic ["com.example.Tail"]) ∧
      h.offer [tail] = h := by
  intro head tail h
  have hacyclic : (Platform.hierarchy.extend [head]).Acyclic :=
    acyclic_of_order ("com.example.Tail" :: Platform.declarations.map (·.name) ++ [head.name])
      (by decide +kernel)
  have hh : h = Platform.hierarchy.extend [head] :=
    offer_of_ok (register_of_acyclic (by decide +kernel) hacyclic)
  have hhead : head ∈ h.contents := by
    rw [hh]
    exact find?_extend_of_mem (by decide +kernel) List.mem_cons_self
  obtain ⟨-, -, -, hunchanged, hcyclic, hnames⟩ :=
    register_exact (Or.inr (Eq.refl Platform.hierarchy)) [[head]] [tail]
  have hcycle : TransGen (Links (h.contents ∪ {d | d ∈ [tail]})) tail.name tail.name :=
    .tail (.single ⟨tail, Or.inr List.mem_cons_self, rfl, .nominal head.name, by decide, rfl⟩)
      ⟨head, Or.inl hhead, rfl, .nominal tail.name, by decide, rfl⟩
  have hfresh : h.Fresh [tail] := by
    rw [hh]
    decide +kernel
  obtain ⟨names, hreg⟩ := hcyclic.mpr ⟨hfresh, fun hfree => hfree tail.name hcycle⟩
  refine ⟨hhead, ?_, hunchanged _ hreg⟩
  obtain ⟨hsorted, hmem⟩ := hnames names hreg
  have hsingle : names = [tail.name] := by
    refine hsorted.eq_of_mem_iff (List.pairwise_singleton _ _) fun name => ?_
    rw [hmem, List.mem_singleton]
    refine ⟨fun hname => by simpa using hname.1, ?_⟩
    rintro rfl
    exact ⟨by simp, hcycle⟩
  rw [hreg, hsingle]

end Hierarchy

end Mutability
