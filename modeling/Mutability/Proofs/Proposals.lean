import Mutability.Proofs.StoreRuns
import Mathlib.Order.Bounds.Defs

/-!
# Proposals

A proposal offers a fact for a property; the better of it and the stored one stays, and a fact of
another family is refused. What is stored after a list of proposals is the greatest of what was
stored and what was offered (`stored_proposeAll_isGreatest`). The order is antisymmetric, so the
greatest is unique and the list may be permuted.
-/

namespace Mutability

namespace Property

theorem fits_iff {p : Property} {f : Fact} :
    p.fits f = true ↔ f = .delayed ∨ f.family? = some p.family := by
  cases f <;> simp [fits, Fact.family?]

/-- Of two facts that fit the same property one is below the other. -/
theorem le_total_of_fits {p : Property} {a b : Fact} (ha : p.fits a = true)
    (hb : p.fits b = true) : a ≤ b ∨ b ≤ a := by
  rcases fits_iff.mp ha with hdelayed | hfa
  · exact Or.inl ((Fact.le_iff a b).mpr (Or.inl hdelayed))
  rcases fits_iff.mp hb with hdelayed | hfb
  · exact Or.inr ((Fact.le_iff b a).mpr (Or.inl hdelayed))
  have hfamily : a.family? = b.family? := hfa.trans hfb.symm
  rcases Int.le_total a.code b.code with hle | hle
  · exact Or.inl ((Fact.le_iff a b).mpr (Or.inr ⟨hfamily, hle⟩))
  · exact Or.inr ((Fact.le_iff b a).mpr (Or.inr ⟨hfamily.symm, hle⟩))

theorem le_of_not_lt {p : Property} {a b : Fact} (ha : p.fits a = true) (hb : p.fits b = true)
    (h : ¬ a < b) : b ≤ a := by
  rcases le_total_of_fits ha hb with hle | hle
  · by_cases hge : b ≤ a
    · exact hge
    · exact absurd ((Fact.lt_iff_le_not_ge a b).mpr ⟨hle, hge⟩) h
  · exact hle

end Property

namespace Store

theorem WellTyped.fits_stored {s : Store} (hs : s.WellTyped) (p : Property) :
    p.fits (s.stored p) = true := by
  unfold stored
  cases hfact : s.facts p with
  | none => rfl
  | some fact =>
    by_cases hrole : p.role = .context
    · exact Property.fits_iff.mpr (hs.context p fact hrole hfact)
    · have hpolicy : p.policy = .upgrade := by
        unfold Property.policy
        split
        · exact absurd ‹_› hrole
        · rfl
      exact Property.fits_iff.mpr (Or.inr (hs.upgrade p fact hpolicy hfact).2)

/-! ## One proposal -/

/-- The facts that may be stored for a property once the proposals are made. -/
def candidates (s : Store) (proposals : List (Property × Fact)) (p : Property) : Set Fact :=
  {fact | fact = s.stored p ∨ ((p, fact) ∈ proposals ∧ fact.family? = some p.family)}

theorem keep_frame (s : Store) (p : Property) (fact : Fact) :
    s.keep p fact = { s with facts := (s.keep p fact).facts } := by
  unfold keep
  split <;> rfl

/-- A proposal leaves all of a store but its facts. -/
theorem perform_improve_frame (s : Store) (p : Property) (fact : Fact) :
    (s.perform (.improve p fact)).1 =
      { s with facts := (s.perform (.improve p fact)).1.facts } := by
  rw [perform_improve]
  split
  · rfl
  · split
    · rfl
    · exact s.keep_frame p _

theorem perform_improve_misfit {s : Store} {p : Property} {fact : Fact} (hopen : s.frozen = false)
    (hfits : p.fits fact = false) :
    s.perform (.improve p fact) = (s, some (.familyMismatch s.entity p p.family fact)) := by
  simp [perform_improve, hopen, hfits]

/-- A fact is only written where another one is stored. -/
theorem facts_keep (s : Store) (p q : Property) (fact : Fact) :
    (s.keep p fact).facts q =
      if (s.keep p fact).stored q = s.stored q then s.facts q
      else some ((s.keep p fact).stored q) := by
  by_cases hq : q = p
  · subst hq
    rw [stored_keep_self]
    unfold keep
    by_cases h : s.stored q = fact
    · simp [h]
    · simp [h, Ne.symm h]
  · rw [stored_keep_ne fact hq, facts_keep_ne fact hq, if_pos rfl]

theorem facts_perform_improve (s : Store) (p q : Property) (fact : Fact) :
    (s.perform (.improve p fact)).1.facts q =
      if (s.perform (.improve p fact)).1.stored q = s.stored q then s.facts q
      else some ((s.perform (.improve p fact)).1.stored q) := by
  rw [perform_improve]
  split
  · rw [if_pos rfl]
  · split
    · rw [if_pos rfl]
    · exact s.facts_keep p q _

theorem stored_improve_isGreatest {s : Store} (hs : s.WellTyped) (hopen : s.frozen = false)
    (q : Property) (offer : Fact) (p : Property) :
    IsGreatest (s.candidates [(q, offer)] p) ((s.perform (.improve q offer)).1.stored p) := by
  cases hfits : q.fits offer with
  | false =>
    rw [perform_improve_misfit hopen hfits]
    refine ⟨Or.inl rfl, ?_⟩
    rintro fact (rfl | ⟨hmem, hfamily⟩)
    · exact Fact.le_refl _
    · obtain ⟨rfl, rfl⟩ : p = q ∧ fact = offer := by simpa using hmem
      rw [Property.fits_iff.mpr (Or.inr hfamily)] at hfits
      cases hfits
  | true =>
    have hstored : ∀ fact, (q, fact) ∈ [(q, offer)] → fact = offer := by simp
    by_cases hp : p = q
    · subst hp
      rw [stored_improve_accepted ((s.perform_improve_accepted_iff p offer).mpr ⟨hopen, hfits⟩)]
      split
      · rename_i hlt
        have hdelayed : offer ≠ .delayed := by
          rintro rfl
          have hnot := ((Fact.lt_iff_le_not_ge _ _).mp hlt).2
          exact hnot ((Fact.le_iff _ _).mpr (Or.inl rfl))
        refine ⟨Or.inr ⟨List.mem_singleton_self _, Property.family?_of_fits hfits hdelayed⟩, ?_⟩
        rintro fact (rfl | ⟨hmem, _⟩)
        · exact Fact.le_of_lt hlt
        · rw [hstored fact hmem]
          exact Fact.le_refl _
      · rename_i hlt
        refine ⟨Or.inl rfl, ?_⟩
        rintro fact (rfl | ⟨hmem, _⟩)
        · exact Fact.le_refl _
        · rw [hstored fact hmem]
          exact Property.le_of_not_lt (hs.fits_stored p) hfits hlt
    · have hkept : (s.perform (.improve q offer)).1.stored p = s.stored p := by
        simp only [stored]
        rw [perform_facts_ne (by simpa [Call.property?] using Ne.symm hp)]
      rw [hkept]
      refine ⟨Or.inl rfl, ?_⟩
      rintro fact (rfl | ⟨hmem, _⟩)
      · exact Fact.le_refl _
      · simp [hp] at hmem

/-! ## A list of proposals -/

/-- Makes one proposal after the other; one that is refused does not stop those after it. -/
def proposeAll (s : Store) (proposals : List (Property × Fact)) : Store :=
  s.run (proposals.map fun (p, fact) => .improve p fact)

theorem proposeAll_cons (s : Store) (p : Property) (fact : Fact)
    (proposals : List (Property × Fact)) :
    s.proposeAll ((p, fact) :: proposals) =
      (s.perform (.improve p fact)).1.proposeAll proposals := rfl

theorem proposeAll_append (s : Store) (before after : List (Property × Fact)) :
    s.proposeAll (before ++ after) = (s.proposeAll before).proposeAll after := by
  unfold proposeAll
  rw [List.map_append, run_append]

theorem proposeAll_frame (s : Store) (proposals : List (Property × Fact)) :
    s.proposeAll proposals = { s with facts := (s.proposeAll proposals).facts } := by
  induction proposals generalizing s with
  | nil => rfl
  | cons proposal proposals ih =>
    obtain ⟨p, fact⟩ := proposal
    rw [proposeAll_cons, ih, perform_improve_frame]

theorem frozen_proposeAll (s : Store) (proposals : List (Property × Fact)) :
    (s.proposeAll proposals).frozen = s.frozen := by
  rw [proposeAll_frame]

/-- The greatest candidate of a first proposal and the greatest of the rest, one after the other. -/
theorem candidates_cons_isGreatest {s t : Store} {p : Property} {proposal : Property × Fact}
    {proposals : List (Property × Fact)} {last : Fact}
    (hfirst : IsGreatest (s.candidates [proposal] p) (t.stored p))
    (hrest : IsGreatest (t.candidates proposals p) last) :
    IsGreatest (s.candidates (proposal :: proposals) p) last := by
  have hle : t.stored p ≤ last := hrest.2 (Or.inl rfl)
  constructor
  · rcases hrest.1 with rfl | ⟨hmem, hfamily⟩
    · rcases hfirst.1 with hsame | ⟨hmem, hfamily⟩
      · exact Or.inl hsame
      · refine Or.inr ⟨?_, hfamily⟩
        rw [List.mem_singleton.mp hmem]
        exact List.mem_cons_self
    · exact Or.inr ⟨List.mem_cons_of_mem _ hmem, hfamily⟩
  · rintro fact (rfl | ⟨hmem, hfamily⟩)
    · exact Fact.le_trans (hfirst.2 (Or.inl rfl)) hle
    · rcases List.mem_cons.mp hmem with hhead | htail
      · exact Fact.le_trans (hfirst.2 (Or.inr ⟨List.mem_singleton.mpr hhead, hfamily⟩)) hle
      · exact hrest.2 (Or.inr ⟨htail, hfamily⟩)

theorem stored_proposeAll_isGreatest {s : Store} (hs : s.WellTyped) (hopen : s.frozen = false)
    (proposals : List (Property × Fact)) (p : Property) :
    IsGreatest (s.candidates proposals p) ((s.proposeAll proposals).stored p) := by
  induction proposals generalizing s with
  | nil =>
    refine ⟨Or.inl rfl, ?_⟩
    rintro fact (rfl | ⟨hmem, _⟩)
    · exact Fact.le_refl _
    · cases hmem
  | cons proposal proposals ih =>
    obtain ⟨q, offer⟩ := proposal
    have hopen' : (s.perform (.improve q offer)).1.frozen = false := by
      rw [perform_improve_frame]
      exact hopen
    exact candidates_cons_isGreatest (stored_improve_isGreatest hs hopen q offer p)
      (ih (hs.perform _) hopen')

theorem stored_le_proposeAll {s : Store} (hs : s.WellTyped) (hopen : s.frozen = false)
    (proposals : List (Property × Fact)) (p : Property) :
    s.stored p ≤ (s.proposeAll proposals).stored p :=
  (stored_proposeAll_isGreatest hs hopen proposals p).2 (Or.inl rfl)

/-- Whether a fact is there at all is decided by the stored facts too. -/
theorem facts_proposeAll {s : Store} (hs : s.WellTyped) (hopen : s.frozen = false)
    (proposals : List (Property × Fact)) (p : Property) :
    (s.proposeAll proposals).facts p =
      if (s.proposeAll proposals).stored p = s.stored p then s.facts p
      else some ((s.proposeAll proposals).stored p) := by
  induction proposals generalizing s with
  | nil => exact (if_pos rfl).symm
  | cons proposal proposals ih =>
    obtain ⟨q, offer⟩ := proposal
    have hopen' : (s.perform (.improve q offer)).1.frozen = false := by
      rw [perform_improve_frame]
      exact hopen
    have hfirst := (stored_improve_isGreatest hs hopen q offer p).2 (Or.inl rfl)
    have hrest := stored_le_proposeAll (hs.perform (.improve q offer)) hopen' proposals p
    have hwritten := s.facts_perform_improve q p offer
    rw [proposeAll_cons, ih (hs.perform _) hopen']
    generalize (s.perform (.improve q offer)).1 = t at hfirst hrest hwritten ⊢
    by_cases hlast : (t.proposeAll proposals).stored p = t.stored p
    · rw [if_pos hlast, hwritten, hlast]
    · -- a stored fact that went up does not come back down to the one it replaced
      have hne : (t.proposeAll proposals).stored p ≠ s.stored p := by
        intro hback
        rw [hback] at hrest hlast
        exact hlast (Fact.le_antisymm hfirst hrest)
      rw [if_neg hlast, if_neg hne]

theorem proposeAll_perm {s : Store} (hs : s.WellTyped) (hopen : s.frozen = false)
    {order proposals : List (Property × Fact)} (h : order.Perm proposals) :
    s.proposeAll order = s.proposeAll proposals := by
  have hstored : ∀ p, (s.proposeAll order).stored p = (s.proposeAll proposals).stored p := by
    intro p
    have hcandidates : s.candidates order p = s.candidates proposals p := by
      simp only [candidates, h.mem_iff]
    have horder := stored_proposeAll_isGreatest hs hopen order p
    have hproposals := stored_proposeAll_isGreatest hs hopen proposals p
    rw [hcandidates] at horder
    exact Fact.le_antisymm (hproposals.2 horder.1) (horder.2 hproposals.1)
  have hfacts : (s.proposeAll order).facts = (s.proposeAll proposals).facts := by
    funext p
    rw [facts_proposeAll hs hopen, facts_proposeAll hs hopen, hstored p]
  rw [proposeAll_frame, hfacts, ← proposeAll_frame]

/-- Proposals to a store that is not frozen may be made in any order. Each property ends with the
greatest of the fact stored for it and those of its family that are offered for it. A fact of
another family is refused, wherever it stands, and the rest goes on as if it were not there. -/
theorem proposals_commute (entity : String) (kind : EntityKind) (defined : Bool)
    (convention : Convention) (calls : List Call) (proposals : List (Property × Fact)) :
    let s := (empty entity kind defined convention).run calls
    s.frozen = false →
    (∀ order, order.Perm proposals → s.proposeAll order = s.proposeAll proposals) ∧
    (∀ p, IsGreatest
      {fact | fact = s.stored p ∨ ((p, fact) ∈ proposals ∧ fact.family? = some p.family)}
      ((s.proposeAll proposals).stored p)) ∧
    ∀ before p fact after,
      (((s.proposeAll before).perform (.improve p fact)).2 = none ↔
        fact = .delayed ∨ fact.family? = some p.family) ∧
      (fact ≠ .delayed → fact.family? ≠ some p.family →
        (s.proposeAll before).perform (.improve p fact) =
          (s.proposeAll before, some (.familyMismatch s.entity p p.family fact)) ∧
        s.proposeAll (before ++ (p, fact) :: after) = s.proposeAll (before ++ after)) := by
  intro s hopen
  have hs : s.WellTyped := (wellTyped_empty entity kind defined convention).run calls
  refine ⟨fun order h => proposeAll_perm hs hopen h,
    fun p => stored_proposeAll_isGreatest hs hopen proposals p, ?_⟩
  intro before p fact after
  have hopen' : (s.proposeAll before).frozen = false := by rw [frozen_proposeAll, hopen]
  have hentity : (s.proposeAll before).entity = s.entity := by rw [proposeAll_frame]
  constructor
  · rw [perform_improve_accepted_iff, Property.fits_iff]
    simp [hopen']
  · intro hdelayed hfamily
    have hmisfit : p.fits fact = false := by
      rw [← Bool.not_eq_true, Property.fits_iff]
      exact not_or.mpr ⟨hdelayed, hfamily⟩
    have hrefused := perform_improve_misfit hopen' hmisfit
    rw [hentity] at hrefused
    refine ⟨hrefused, ?_⟩
    rw [proposeAll_append, proposeAll_cons, hrefused, ← proposeAll_append]

theorem mixed_proposals_reversed :
    let s := (empty "acme.Pool" .type true .defensive).run
      [.set .container (.flag false), .set .contextNotNull .delayed]
    let proposals : List (Property × Fact) :=
      [(.size, .size (.atLeast 3)), (.container, .delayed), (.size, .flag true),
       (.container, .flag true), (.size, .size (.exactly 2))]
    s.frozen = false ∧ s.proposeAll proposals.reverse = s.proposeAll proposals ∧
      (s.proposeAll proposals).stored .size = .size (.atLeast 3) ∧
      (s.proposeAll proposals).stored .container = .flag true :=
  ⟨rfl, (proposals_commute "acme.Pool" .type true .defensive _ _ rfl).1 _ (List.reverse_perm _),
    by decide +kernel, by decide +kernel⟩

end Store

end Mutability
