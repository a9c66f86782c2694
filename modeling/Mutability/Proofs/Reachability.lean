import Mathlib.Logic.Relation
import Mutability.Types.Hierarchy
import Mutability.Types.Platform

/-!
# Reachable names and acyclic hierarchies

`Super` is one declared hop between names. The walk of a hierarchy collects exactly what can be
reached by hops (`mem_ancestors_iff`), so a registered batch never closes a cycle. In an acyclic
hierarchy every hop to a declared name lowers the `height`, which bounds all searches upwards.
-/

namespace Mutability

open Relation

/-- Steps that all go down in rank lead nowhere back. -/
theorem not_transGen_self_of_rank {α : Type} {r : α → α → Prop} (rank : α → Nat)
    (hrank : ∀ a b, r a b → rank b < rank a) (a : α) : ¬ TransGen r a a := by
  have hlt : ∀ b, TransGen r a b → rank b < rank a := by
    intro b hab
    induction hab with
    | single hab => exact hrank _ _ hab
    | tail _ hbc ih => exact Nat.lt_trans (hrank _ _ hbc) ih
  exact fun hcycle => Nat.lt_irrefl _ (hlt a hcycle)

namespace Hierarchy

/-- The second name is that of a declared supertype of the first. -/
def Super (h : Hierarchy) (a b : String) : Prop := b ∈ h.supernames a

instance (h : Hierarchy) (a b : String) : Decidable (h.Super a b) :=
  inferInstanceAs (Decidable (b ∈ h.supernames a))

def Declares (h : Hierarchy) (name : String) : Prop := (h.find? name).isSome = true

instance (h : Hierarchy) (name : String) : Decidable (h.Declares name) :=
  inferInstanceAs (Decidable ((h.find? name).isSome = true))

/-- No type is its own supertype. -/
def Acyclic (h : Hierarchy) : Prop := ∀ name, ¬ TransGen h.Super name name

theorem super_iff {h : Hierarchy} {a b : String} :
    h.Super a b ↔ ∃ d, h.find? a = some d ∧ ∃ t ∈ d.supertypes, t.name? = some b := by
  unfold Super supernames
  cases h.find? a <;> simp

/-! ## The walk -/

theorem mem_walk_of_visited {h : Hierarchy} {visited pending : List String} {x : String}
    (hx : x ∈ visited) : x ∈ h.walk visited pending := by
  fun_induction h.walk visited pending with
  | case1 => exact hx
  | case2 visited name pending hn ih => exact ih hx
  | case3 visited name pending hn ih => exact ih (List.mem_cons_of_mem name hx)

theorem mem_walk_of_pending {h : Hierarchy} {visited pending : List String} {x : String}
    (hx : x ∈ pending) : x ∈ h.walk visited pending := by
  fun_induction h.walk visited pending with
  | case1 => cases hx
  | case2 visited name pending hn ih =>
    rcases List.mem_cons.mp hx with rfl | hx
    · exact mem_walk_of_visited hn
    · exact ih hx
  | case3 visited name pending hn ih =>
    rcases List.mem_cons.mp hx with rfl | hx
    · exact mem_walk_of_visited List.mem_cons_self
    · exact ih (List.mem_append_right _ hx)

/-- Soundness: what the walk adds is reached from a pending name. -/
theorem reached_of_mem_walk {h : Hierarchy} {visited pending : List String} {x : String}
    (hx : x ∈ h.walk visited pending) :
    x ∈ visited ∨ ∃ name ∈ pending, ReflTransGen h.Super name x := by
  fun_induction h.walk visited pending with
  | case1 => exact Or.inl hx
  | case2 visited name pending hn ih =>
    rcases ih hx with hv | ⟨other, hmem, hr⟩
    · exact Or.inl hv
    · exact Or.inr ⟨other, List.mem_cons_of_mem name hmem, hr⟩
  | case3 visited name pending hn ih =>
    rcases ih hx with hv | ⟨other, hmem, hr⟩
    · rcases List.mem_cons.mp hv with rfl | hv
      · exact Or.inr ⟨x, List.mem_cons_self, .refl⟩
      · exact Or.inl hv
    · rcases List.mem_append.mp hmem with hsuper | hmem
      · exact Or.inr ⟨name, List.mem_cons_self, .head hsuper hr⟩
      · exact Or.inr ⟨other, List.mem_cons_of_mem name hmem, hr⟩

/-- The walk is closed under hops if what was visited before leads to visited or pending names. -/
theorem walk_closed {h : Hierarchy} {visited pending : List String}
    (hinv : ∀ a ∈ visited, ∀ b, h.Super a b → b ∈ visited ∨ b ∈ pending) {a b : String}
    (ha : a ∈ h.walk visited pending) (hab : h.Super a b) : b ∈ h.walk visited pending := by
  fun_induction h.walk visited pending with
  | case1 visited => exact (hinv a ha b hab).resolve_right (by simp)
  | case2 visited name pending hn ih =>
    refine ih (fun x hx y hxy => ?_) ha
    rcases hinv x hx y hxy with hy | hy
    · exact Or.inl hy
    · rcases List.mem_cons.mp hy with rfl | hy
      · exact Or.inl hn
      · exact Or.inr hy
  | case3 visited name pending hn ih =>
    refine ih (fun x hx y hxy => ?_) ha
    rcases List.mem_cons.mp hx with rfl | hx
    · exact Or.inr (List.mem_append_left _ hxy)
    · rcases hinv x hx y hxy with hy | hy
      · exact Or.inl (List.mem_cons_of_mem name hy)
      · rcases List.mem_cons.mp hy with rfl | hy
        · exact Or.inl List.mem_cons_self
        · exact Or.inr (List.mem_append_right _ hy)

/-- The ancestors of a name are exactly the names reached by one hop or more. -/
theorem mem_ancestors_iff {h : Hierarchy} {name x : String} :
    x ∈ h.ancestors name ↔ TransGen h.Super name x := by
  constructor
  · intro hx
    rcases reached_of_mem_walk hx with hv | ⟨other, hmem, hr⟩
    · cases hv
    · exact TransGen.head' hmem hr
  · intro hr
    induction hr with
    | single hab => exact mem_walk_of_pending hab
    | tail _ hbc ih => exact walk_closed (by simp) ih hbc

/-! ## Acyclicity -/

theorem acyclic_of_rank {h : Hierarchy} (rank : String → Nat)
    (hrank : ∀ a b, h.Super a b → rank b < rank a) : h.Acyclic :=
  not_transGen_self_of_rank rank hrank

/-- A hierarchy is acyclic if its types can be listed with every type after its supertypes. -/
theorem acyclic_of_order {h : Hierarchy} (order : List String)
    (horder : ∀ d ∈ h.declarations, ∀ t ∈ d.supertypes, ∀ b ∈ t.name?,
      order.idxOf b < order.idxOf d.name) : h.Acyclic := by
  refine acyclic_of_rank order.idxOf fun a b hab => ?_
  obtain ⟨d, hd, t, ht, hb⟩ := super_iff.mp hab
  exact name_of_find? hd ▸ horder d (List.mem_of_find?_eq_some hd) t ht b hb

section Registration

variable {h : Hierarchy} {batch : List Declaration}

theorem find?_extend_of_not_mem {name : String} (hname : name ∉ batch.map (·.name)) :
    (h.extend batch).find? name = h.find? name := by
  unfold find? extend
  rw [List.find?_append, List.find?_eq_none.mpr, Option.none_or]
  intro d hd hdn
  exact hname (List.mem_map.mpr ⟨d, hd, by simpa using hdn⟩)

/-- A batch without duplicates declares only new names. -/
theorem not_declares_of_duplicateCounts (hdup : h.duplicateCounts batch = []) {name : String}
    (hname : name ∈ batch.map (·.name)) : h.find? name = none := by
  cases hfind : h.find? name with
  | none => rfl
  | some d =>
    have hpos : 0 < batch.countP (·.name = name) := by
      obtain ⟨d', hd', hn⟩ := List.mem_map.mp hname
      exact List.countP_pos_iff.mpr ⟨d', hd', by simpa using hn⟩
    have hmem : (name, h.countWith batch name) ∈ h.duplicateCounts batch := by
      refine List.mem_filter.mpr ⟨List.mem_map.mpr ⟨name, ?_, rfl⟩, ?_⟩
      · exact (Text.mem_nameSet name _).mpr hname
      · simp only [countWith, hfind, Option.isSome_some, ↓reduceIte, gt_iff_lt, decide_eq_true_eq]
        omega
    rw [hdup] at hmem
    cases hmem

theorem find?_extend_of_find? (hdup : h.duplicateCounts batch = []) {name : String}
    {d : Declaration} (hd : h.find? name = some d) : (h.extend batch).find? name = some d := by
  rw [find?_extend_of_not_mem, hd]
  intro hname
  rw [not_declares_of_duplicateCounts hdup hname] at hd
  cases hd

/-- A path in the extended hierarchy is one of the old hierarchy or passes through the batch. -/
theorem transGen_extend_cases {a b : String} (hab : TransGen (h.extend batch).Super a b) :
    TransGen h.Super a b ∨
      ∃ name ∈ batch.map (·.name), ReflTransGen (h.extend batch).Super a name ∧
        TransGen (h.extend batch).Super name b := by
  have hop : ∀ {x y}, (h.extend batch).Super x y → x ∈ batch.map (·.name) ∨ h.Super x y := by
    intro x y hxy
    by_cases hx : x ∈ batch.map (·.name)
    · exact Or.inl hx
    · refine Or.inr ?_
      rw [super_iff] at hxy ⊢
      rwa [find?_extend_of_not_mem hx] at hxy
  induction hab with
  | single hxy =>
    rcases hop hxy with hx | hold
    · exact Or.inr ⟨_, hx, .refl, .single hxy⟩
    · exact Or.inl (.single hold)
  | tail hax hxy ih =>
    rcases ih with hold | ⟨name, hname, hto, hfrom⟩
    · rcases hop hxy with hx | hnext
      · exact Or.inr ⟨_, hx, hax.to_reflTransGen, .single hxy⟩
      · exact Or.inl (.tail hold hnext)
    · exact Or.inr ⟨name, hname, hto, .tail hfrom hxy⟩

theorem acyclic_extend (hold : h.Acyclic) (hcyclic : h.cyclicNames batch = []) :
    (h.extend batch).Acyclic := by
  intro name hcycle
  rcases transGen_extend_cases hcycle with hc | ⟨start, hstart, hto, hfrom⟩
  · exact hold name hc
  · have hself : TransGen (h.extend batch).Super start start := TransGen.trans_left hfrom hto
    have hmem : start ∈ h.cyclicNames batch :=
      List.mem_filter.mpr ⟨(Text.mem_nameSet start _).mpr hstart,
        by simpa using mem_ancestors_iff.mpr hself⟩
    rw [hcyclic] at hmem
    cases hmem

theorem register_eq_ok {h' : Hierarchy} (hreg : h.register batch = .ok h') :
    h.duplicateCounts batch = [] ∧ h.cyclicNames batch = [] ∧ h' = h.extend batch := by
  unfold register at hreg
  split at hreg
  · cases hreg
  · rename_i hdup
    split at hreg
    · cases hreg
    · rename_i hcyclic
      cases hreg
      exact ⟨Classical.not_not.mp hdup, Classical.not_not.mp hcyclic, rfl⟩

/-- A batch of new names is registered where the result is acyclic. -/
theorem register_of_acyclic (hdup : h.duplicateCounts batch = [])
    (hacyclic : (h.extend batch).Acyclic) : h.register batch = .ok (h.extend batch) := by
  have hcyclic : h.cyclicNames batch = [] := by
    refine List.filter_eq_nil_iff.mpr fun name _ hmem => hacyclic name ?_
    exact mem_ancestors_iff.mp (by simpa using hmem)
  simp [register, hdup, hcyclic]

end Registration

/-! ## Height -/

/-- The number of declarations above a name. -/
def height (h : Hierarchy) (name : String) : Nat :=
  h.declarations.countP (·.name ∈ h.ancestors name)

theorem height_le_size (h : Hierarchy) (name : String) : h.height name ≤ h.size :=
  List.countP_le_length

/-- A hop to a declared name goes to a lower height. -/
theorem height_lt {h : Hierarchy} (hacyclic : h.Acyclic) {a b : String} (hab : h.Super a b)
    (hb : h.Declares b) : h.height b < h.height a := by
  obtain ⟨d, hd⟩ := Option.isSome_iff_exists.mp hb
  have hname := name_of_find? hd
  obtain ⟨before, after, happ⟩ := List.append_of_mem (List.mem_of_find?_eq_some hd)
  have hmono : ∀ ds : List Declaration,
      ds.countP (·.name ∈ h.ancestors b) ≤ ds.countP (·.name ∈ h.ancestors a) := by
    refine fun ds => List.countP_mono_left fun x _ hx => ?_
    simp only [decide_eq_true_eq, mem_ancestors_iff] at hx ⊢
    exact TransGen.head hab hx
  have hin : b ∈ h.ancestors a := mem_ancestors_iff.mpr (.single hab)
  have hout : b ∉ h.ancestors b := fun hmem => hacyclic b (mem_ancestors_iff.mp hmem)
  have hbefore := hmono before
  have hafter := hmono after
  unfold height
  rw [happ, List.countP_append, List.countP_append, List.countP_cons, List.countP_cons]
  simp only [hname, hin, hout, decide_true, decide_false, Bool.false_eq_true, ↓reduceIte]
  omega

end Hierarchy

end Mutability
