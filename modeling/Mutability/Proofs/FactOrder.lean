import Mutability.Lattice.Property

/-!
# The order of facts

`Fact.le_iff` reads the order through families and codes: a delayed fact is below all, and two
others are comparable exactly if they have the same family. Within a family the code says all of a
fact, so the order is antisymmetric. `MultiLevel.exists_deeper_rise` is what
the order of packed codes says of single depths: a grade only goes down where a deeper one goes up.
-/

namespace Mutability

/-! ## Codes -/

theorem MultiLevel.code_injective {a b : MultiLevel} (h : a.code = b.code) : a = b := by
  have ha := ofCode_code a
  rw [h, ofCode_code b] at ha
  cases ha
  rfl

theorem Size.code_injective {a b : Size} (h : a.code = b.code) : a = b := by
  cases a <;> cases b <;> simp only [Size.code] at h
  case notASize.notASize => rfl
  case atLeast.atLeast m n =>
    have hmn : m = n := UInt32.toNat.inj (by omega)
    rw [hmn]
  case exactly.exactly m n =>
    have hmn : m = n := UInt32.toNat.inj (by omega)
    rw [hmn]
  all_goals omega

theorem SizeCopy.code_injective {a b : SizeCopy} (h : a.code = b.code) : a = b := by
  cases a <;> cases b <;> simp [SizeCopy.code] at h ⊢

/-! ## Facts -/

namespace Fact

private theorem compare_code_iff (m n : Nat) :
    (compare m n = .lt ∨ compare m n = .eq) ↔ (m : Int) ≤ n := by
  rw [Nat.compare_eq_lt, Nat.compare_eq_eq]
  omega

theorem le_iff (a b : Fact) :
    a ≤ b ↔ a = .delayed ∨ (a.family? = b.family? ∧ a.code ≤ b.code) := by
  change (compare? a b = some .lt ∨ compare? a b = some .eq) ↔ _
  cases a <;> cases b <;>
    simp only [compare?, family?, code, reduceCtorEq, false_or, or_false, true_or, or_true,
      false_and, true_and, Option.some.injEq]
  case flag.flag x y => cases x <;> cases y <;> decide
  case multi.multi x y => exact compare_code_iff x.code y.code
  case size.size x y => exact compare_code_iff x.code y.code
  case sizeCopy.sizeCopy x y => exact compare_code_iff x.code y.code

theorem le_refl (a : Fact) : a ≤ a := (le_iff a a).mpr (Or.inr ⟨rfl, Int.le_refl _⟩)

theorem le_trans {a b c : Fact} (hab : a ≤ b) (hbc : b ≤ c) : a ≤ c := by
  rw [le_iff] at hab hbc ⊢
  rcases hab with ha | ⟨hf, hc⟩
  · exact Or.inl ha
  · rcases hbc with hb | ⟨hf', hc'⟩
    · subst hb
      left
      cases a <;> simp [family?] at hf ⊢
    · exact Or.inr ⟨hf.trans hf', Int.le_trans hc hc'⟩

theorem le_of_lt {a b : Fact} (h : a < b) : a ≤ b := Or.inl h

/-- Nothing but a delayed fact is below a delayed one. -/
theorem eq_delayed_of_le_delayed {a : Fact} (h : a ≤ .delayed) : a = .delayed := by
  rcases (le_iff a .delayed).mp h with ha | ⟨hf, _⟩
  · exact ha
  · cases a <;> simp [family?] at hf ⊢

theorem eq_of_code {a b : Fact} (hfamily : a.family? = b.family?) (hcode : a.code = b.code) :
    a = b := by
  cases a <;> cases b <;> simp only [family?, reduceCtorEq, Option.some.injEq] at hfamily <;>
    simp only [code, Int.natCast_inj] at hcode
  case delayed.delayed => rfl
  case flag.flag x y => cases x <;> cases y <;> simp at hcode ⊢
  case multi.multi x y => rw [MultiLevel.code_injective hcode]
  case size.size x y => rw [Size.code_injective hcode]
  case sizeCopy.sizeCopy x y => rw [SizeCopy.code_injective hcode]

theorem le_antisymm {a b : Fact} (hab : a ≤ b) (hba : b ≤ a) : a = b := by
  rcases (le_iff a b).mp hab with rfl | ⟨hfamily, hle⟩
  · exact (eq_delayed_of_le_delayed hba).symm
  · rcases (le_iff b a).mp hba with rfl | ⟨-, hge⟩
    · exact eq_delayed_of_le_delayed hab
    · exact eq_of_code hfamily (by omega)

private theorem compare_code_lt_iff (m n : Nat) :
    compare m n = .lt ↔ (m : Int) ≤ n ∧ ¬ (n : Int) ≤ m := by
  rw [Nat.compare_eq_lt]
  omega

theorem lt_iff_le_not_ge (a b : Fact) : a < b ↔ a ≤ b ∧ ¬ b ≤ a := by
  rw [le_iff, le_iff]
  change compare? a b = some .lt ↔ _
  cases a <;> cases b <;>
    simp only [compare?, family?, code, reduceCtorEq, false_or, true_or, false_and, true_and,
      not_true_eq_false, not_false_eq_true, and_true, and_false, Option.some.injEq]
  case flag.flag x y => cases x <;> cases y <;> decide
  case multi.multi x y => exact compare_code_lt_iff x.code y.code
  case size.size x y => exact compare_code_lt_iff x.code y.code
  case sizeCopy.sizeCopy x y => exact compare_code_lt_iff x.code y.code

theorem multi_le_multi {a b : MultiLevel} : multi a ≤ multi b ↔ a ≤ b := by
  rw [le_iff]
  change _ ↔ a.code ≤ b.code
  simp [family?, code]

/-- A fact above a graded one is graded. -/
theorem exists_multi_of_le {a : MultiLevel} {f : Fact} (h : multi a ≤ f) :
    ∃ b, f = multi b ∧ a ≤ b := by
  rcases (le_iff _ _).mp h with ha | ⟨hf, _⟩
  · simp at ha
  · cases f <;> simp [family?] at hf
    exact ⟨_, rfl, multi_le_multi.mp h⟩

end Fact

/-! ## Depths of a graded fact -/

theorem Grade.code_le (g : Grade) : g.code ≤ 5 := by
  cases g <;> decide

theorem Grade.holds_iff (g : Grade) : g.holds = true ↔ 2 ≤ g.code := by
  cases g <;> decide

namespace MultiLevel

theorem code_eq (m : MultiLevel) :
    m.code = m.base.code + 8 * m.content.code + 64 * m.deepContent.code := by
  simp only [code, Grade.codeAt, Nat.pow_eq, Nat.reducePow]
  omega

/-- In the order of codes a grade is lower than before only if a deeper one is higher. -/
theorem exists_deeper_rise {a b : MultiLevel} (h : a ≤ b) {j : Nat}
    (hj : (b.rawAt j).code < (a.rawAt j).code) :
    ∃ k, j < k ∧ (a.rawAt k).code < (b.rawAt k).code := by
  have hc : a.code ≤ b.code := h
  have hbase := b.base.code_le
  have hcontent := b.content.code_le
  rw [code_eq, code_eq] at hc
  by_cases hdeep : a.deepContent.code < b.deepContent.code
  · match j with
    | 0 => exact ⟨2, by omega, hdeep⟩
    | 1 => exact ⟨2, by omega, hdeep⟩
    | 2 => simp only [rawAt] at hj; omega
    | j + 3 => simp only [rawAt] at hj; omega
  · match j with
    | 0 =>
      refine ⟨1, by omega, ?_⟩
      simp only [rawAt] at hj ⊢
      omega
    | 1 => simp only [rawAt] at hj; omega
    | 2 => simp only [rawAt] at hj; omega
    | j + 3 => simp only [rawAt] at hj; omega

/-- A depth reads as holding exactly if it is one of the three and all grades down to it hold. -/
theorem readAt_holds_iff (m : MultiLevel) (d : Nat) :
    (m.readAt d).holds = true ↔ d < 3 ∧ ∀ j ≤ d, (m.rawAt j).holds = true := by
  have hno : Grade.no.holds = false := rfl
  match d with
  | 0 => simp [readAt, rawAt]
  | 1 =>
    cases hb : m.base.holds <;>
      simp [readAt, rawAt, hb, hno, Nat.le_succ_iff, or_imp, forall_and]
  | 2 =>
    cases hb : m.base.holds <;> cases hc : m.content.holds <;>
      simp [readAt, rawAt, hb, hc, hno, Nat.le_succ_iff, or_imp, forall_and]
  | d + 3 => simp [readAt, hno, show ¬ d + 3 < 3 by omega]

end MultiLevel

end Mutability
