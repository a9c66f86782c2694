import Mathlib.Algebra.Ring.Int.Defs
import Mathlib.Order.Hom.Basic
import Mutability.Proofs.FactOrder

/-!
# The codes of sizes

A size and its code say the same. The codes are the integers from `0` to `2 ^ 33`, each the code of
one size (`ofCode?_eq_some_iff`, `exists_code_iff`), and a signed 64-bit word is wide enough for all
that is computed on the way to them (`toInt_packed`). So sizes are ordered like the integers of that
interval.

In the order of facts nothing comes between sizes whose codes follow each other
(`Fact.size_covBy_iff`): lower bounds and exact counts take turns.
-/

namespace Mutability

namespace Size

/-! ## Codes in 64-bit words -/

/-- The code, computed in signed 64-bit words that wrap round. -/
def packed : Size → Int64
  | notASize => 0
  | atLeast n => 2 * Int64.ofNat n.toNat + 1
  | exactly n => 2 * Int64.ofNat n.toNat + 2

private theorem toInt_twice_add (n : UInt32) {k : Int64} (hk : 0 ≤ k.toInt) (hk' : k.toInt ≤ 2) :
    (2 * Int64.ofNat n.toNat + k).toInt = 2 * n.toNat + k.toInt := by
  have hn := n.toNat_lt
  have htwo : (2 : Int64).toInt = 2 := rfl
  have htwice : (2 * Int64.ofNat n.toNat).toInt = 2 * n.toNat := by
    rw [Int64.toInt_mul, Int64.toInt_ofNat_of_lt (by omega), htwo]
    exact Int.bmod_eq_of_le (by omega) (by omega)
  rw [Int64.toInt_add, htwice]
  exact Int.bmod_eq_of_le (by omega) (by omega)

/-- The words never wrap round. -/
theorem toInt_packed (s : Size) : s.packed.toInt = s.code := by
  cases s with
  | notASize => rfl
  | atLeast n => exact toInt_twice_add n (by decide) (by decide)
  | exactly n => exact toInt_twice_add n (by decide) (by decide)

/-! ## Sizes of codes -/

theorem word?_eq_some_iff {n : Nat} {w : UInt32} : word? n = some w ↔ w.toNat = n := by
  unfold word?
  split
  · rename_i hn
    rw [Option.some.injEq]
    constructor
    · rintro rfl
      exact UInt32.toNat_ofNat_of_lt' hn
    · rintro rfl
      exact UInt32.ofNat_toNat
  · rename_i hn
    refine iff_of_false nofun ?_
    rintro rfl
    exact hn w.toNat_lt_size

theorem ofCode?_of_neg {e : ℤ} (h : e < 0) : ofCode? e = none := if_pos h

theorem ofCode?_odd (n : Nat) : ofCode? (2 * n + 1) = (word? n).map atLeast := by
  have hhalf : ((2 * n + 1 : ℤ).toNat - 1) / 2 = n := by omega
  rw [ofCode?, if_neg (by omega), if_neg (by omega), if_pos (by omega), hhalf]

theorem ofCode?_even (n : Nat) : ofCode? (2 * n + 2) = (word? n).map exactly := by
  have hhalf : ((2 * n + 2 : ℤ).toNat - 2) / 2 = n := by omega
  rw [ofCode?, if_neg (by omega), if_neg (by omega), if_neg (by omega), hhalf]

/-- What is asked of an integer that may be a code: its sign, and whether it is odd. -/
theorem code_cases (e : ℤ) :
    e < 0 ∨ e = 0 ∨ (∃ n : Nat, e = 2 * n + 1) ∨ ∃ n : Nat, e = 2 * n + 2 := by
  rcases Int.lt_trichotomy e 0 with hneg | hzero | hpos
  · exact Or.inl hneg
  · exact Or.inr (Or.inl hzero)
  · rcases Int.emod_two_eq e with heven | hodd
    · exact Or.inr (Or.inr (Or.inr ⟨((e - 2) / 2).toNat, by omega⟩))
    · exact Or.inr (Or.inr (Or.inl ⟨((e - 1) / 2).toNat, by omega⟩))

/-- An integer is read as a size exactly if it is the code of that size. -/
theorem ofCode?_eq_some_iff (e : ℤ) (s : Size) : ofCode? e = some s ↔ (s.code : ℤ) = e := by
  constructor
  · intro h
    rcases code_cases e with hneg | rfl | ⟨n, rfl⟩ | ⟨n, rfl⟩
    · rw [ofCode?_of_neg hneg] at h
      cases h
    · cases h
      rfl
    · rw [ofCode?_odd] at h
      obtain ⟨w, hw, rfl⟩ := Option.map_eq_some_iff.mp h
      rw [← word?_eq_some_iff.mp hw]
      rfl
    · rw [ofCode?_even] at h
      obtain ⟨w, hw, rfl⟩ := Option.map_eq_some_iff.mp h
      rw [← word?_eq_some_iff.mp hw]
      rfl
  · rintro rfl
    cases s with
    | notASize => rfl
    | atLeast n =>
      show ofCode? (2 * n.toNat + 1) = _
      rw [ofCode?_odd, word?_eq_some_iff.mpr rfl]
      rfl
    | exactly n =>
      show ofCode? (2 * n.toNat + 2) = _
      rw [ofCode?_even, word?_eq_some_iff.mpr rfl]
      rfl

theorem code_le (s : Size) : (s.code : ℤ) ≤ 2 ^ 33 := by
  cases s with
  | notASize => decide
  | atLeast n =>
    have hn := n.toNat_lt
    rw [code]
    omega
  | exactly n =>
    have hn := n.toNat_lt
    rw [code]
    omega

/-- Every integer of the interval is a code. At its end is the exact count of the greatest word. -/
theorem exists_code_iff (e : ℤ) : (∃ s : Size, (s.code : ℤ) = e) ↔ 0 ≤ e ∧ e ≤ 2 ^ 33 := by
  constructor
  · rintro ⟨s, rfl⟩
    have hle := s.code_le
    omega
  · rintro ⟨h0, hle⟩
    have hword : ∀ n : Nat, n < 2 ^ 32 → ∃ w : UInt32, w.toNat = n :=
      fun n hn => ⟨UInt32.ofNat n, UInt32.toNat_ofNat_of_lt' hn⟩
    rcases code_cases e with hneg | rfl | ⟨n, rfl⟩ | ⟨n, rfl⟩
    · omega
    · exact ⟨notASize, rfl⟩
    · obtain ⟨w, rfl⟩ := hword n (by omega)
      exact ⟨atLeast w, rfl⟩
    · obtain ⟨w, rfl⟩ := hword n (by omega)
      exact ⟨exactly w, rfl⟩

theorem isSome_ofCode?_iff (e : ℤ) : (ofCode? e).isSome ↔ 0 ≤ e ∧ e ≤ 2 ^ 33 := by
  rw [Option.isSome_iff_exists, ← exists_code_iff]
  exact exists_congr fun s => ofCode?_eq_some_iff e s

example : ofCode? 8589934592 = some (exactly 4294967295) ∧ ofCode? 8589934593 = none := by decide

/-- Sizes and their codes, in the same order. -/
def codeIso : Size ≃o {e : ℤ // 0 ≤ e ∧ e ≤ 2 ^ 33} where
  toFun s := ⟨s.code, (exists_code_iff s.code).mp ⟨s, rfl⟩⟩
  invFun e := (ofCode? e).get ((isSome_ofCode?_iff e).mpr e.2)
  left_inv s := by simp [(ofCode?_eq_some_iff s.code s).mpr rfl]
  right_inv e := Subtype.ext ((ofCode?_eq_some_iff e _).mp (Option.some_get _).symm)
  map_rel_iff' := Int.ofNat_le

end Size

/-! ## Sizes among facts -/

namespace Fact

theorem size_lt_size {a b : Size} : size a < size b ↔ a.code < b.code := by
  change some (compare a.code b.code) = some .lt ↔ _
  rw [Option.some.injEq, Nat.compare_eq_lt]

/-- A fact above a size is a size. -/
theorem exists_size_of_lt {a : Size} {f : Fact} (h : size a < f) : ∃ b, f = size b := by
  rcases (le_iff _ _).mp (le_of_lt h) with ha | ⟨hfamily, _⟩
  · cases ha
  · cases f <;> simp [family?] at hfamily
    exact ⟨_, rfl⟩

/-- A size is right above another exactly if its code is the next one. -/
theorem size_covBy_iff {a b : Size} : size a ⋖ size b ↔ b.code = a.code + 1 := by
  constructor
  · rintro ⟨hlt, hnone⟩
    rw [size_lt_size] at hlt
    by_contra hne
    -- a code that is skipped is the code of some size, which then stands between the two
    have hle := b.code_le
    obtain ⟨c, hc⟩ := (Size.exists_code_iff (a.code + 1)).mpr (by omega)
    exact hnone (size_lt_size.mpr (show a.code < c.code by omega))
      (size_lt_size.mpr (by omega))
  · intro hnext
    refine ⟨size_lt_size.mpr (by omega), fun f haf hfb => ?_⟩
    obtain ⟨c, rfl⟩ := exists_size_of_lt haf
    rw [size_lt_size] at haf hfb
    omega

end Fact

namespace Size

/-- The code is exact over its whole range: it fits in 64 bits, reading it back gives the size and
nothing else, just the integers from `0` to `2 ^ 33` are read, and sizes are ordered like them. So
among facts the exact count `n` is right above the lower bound `n`, and right below the lower bound
that is greater by one, if there is a word for that. -/
theorem codes_exact :
    (∀ s : Size, s.packed.toInt = s.code ∧ ofCode? s.code = some s) ∧
    (∀ e : ℤ, ((ofCode? e).isSome ↔ 0 ≤ e ∧ e ≤ 2 ^ 33) ∧
      ∀ s, ofCode? e = some s ↔ (s.code : ℤ) = e) ∧
    (∃ iso : Size ≃o {e : ℤ // 0 ≤ e ∧ e ≤ 2 ^ 33}, ∀ s, (iso s : ℤ) = s.code) ∧
    ∀ n m : UInt32,
      (Fact.size (.atLeast n) ⋖ .size (.exactly m) ↔ m = n) ∧
      (Fact.size (.exactly n) ⋖ .size (.atLeast m) ↔ m.toNat = n.toNat + 1) := by
  refine ⟨fun s => ⟨s.toInt_packed, (ofCode?_eq_some_iff _ _).mpr rfl⟩,
    fun e => ⟨isSome_ofCode?_iff e, ofCode?_eq_some_iff e⟩, ⟨codeIso, fun s => rfl⟩,
    fun n m => ⟨?_, ?_⟩⟩
  · rw [Fact.size_covBy_iff, ← UInt32.toNat_inj]
    simp only [code]
    omega
  · rw [Fact.size_covBy_iff]
    simp only [code]
    omega

end Size

end Mutability
