import Mutability.Proofs.ArgumentInvariance

/-!
# The algebra of distances

Distances are a semiring whose sum is the better of two and whose product adds them up. Costs that
have come to the largest word stay there, which takes nothing from the laws: added words are the
exact sum cut off at the largest one (`toNat_saturatingAdd`), and cutting off is monotone.

A distance that is not assignable absorbs all others. So a sum of answers may stop at the first such
one, and does. The sum of all answers (`sumAll`) is the same, except that it also asks the queries
that a stop leaves out (`Skips`) and needs an answer to each of them (`sumOf_eq_sumAll_iff`).
-/

namespace Mutability

namespace Distance

/-! ## Costs -/

theorem toNat_saturatingAdd (a b : UInt32) :
    (saturatingAdd a b).toNat = min (a.toNat + b.toNat) (UInt32.size - 1) :=
  UInt32.toNat_ofNat_of_lt' (Nat.lt_of_le_of_lt (Nat.min_le_right _ _) (by decide))

theorem saturatingAdd_comm (a b : UInt32) : saturatingAdd a b = saturatingAdd b a := by
  rw [saturatingAdd, Nat.add_comm, saturatingAdd]

theorem saturatingAdd_assoc (a b c : UInt32) :
    saturatingAdd (saturatingAdd a b) c = saturatingAdd a (saturatingAdd b c) := by
  apply UInt32.toNat.inj
  simp only [toNat_saturatingAdd]
  omega

theorem saturatingAdd_zero (a : UInt32) : saturatingAdd a 0 = a := by
  apply UInt32.toNat.inj
  have ha := a.toNat_lt_size
  rw [toNat_saturatingAdd, UInt32.toNat_zero]
  omega

theorem saturatingAdd_le_saturatingAdd (a : UInt32) {b c : UInt32} (h : b ≤ c) :
    saturatingAdd a b ≤ saturatingAdd a c := by
  rw [UInt32.le_iff_toNat_le] at h ⊢
  rw [toNat_saturatingAdd, toNat_saturatingAdd]
  omega

/-! ## Sums -/

theorem plus_comm (a b : Distance) : a.plus b = b.plus a := by
  cases a <;> cases b <;> simp only [plus, saturatingAdd_comm]

theorem plus_assoc (a b c : Distance) : (a.plus b).plus c = a.plus (b.plus c) := by
  cases a <;> cases b <;> cases c <;> simp only [plus, saturatingAdd_assoc]

theorem plus_equal (a : Distance) : a.plus .equal = a := by
  cases a with
  | notAssignable => rfl
  | cost n => rw [equal, plus, saturatingAdd_zero]

theorem plus_notAssignable (a : Distance) : a.plus .notAssignable = .notAssignable := by
  cases a <;> rfl

theorem better_self (a : Distance) : a.better a = a := by
  cases a <;> simp [better]

theorem better_notAssignable (a : Distance) : a.better .notAssignable = a := by
  cases a <;> rfl

theorem better_of_le {m n : UInt32} (h : m ≤ n) : (cost m).better (cost n) = cost m := by
  rw [better, if_pos h]

/-- The lower of two costs stays the lower one when the same is added to both. They may become the
same, at the largest word. -/
theorem plus_better_of_le (a : Distance) {m n : UInt32} (h : m ≤ n) :
    a.plus ((cost m).better (cost n)) = (a.plus (cost m)).better (a.plus (cost n)) := by
  cases a with
  | notAssignable => rfl
  | cost k =>
    rw [better_of_le h, plus, plus, better_of_le (saturatingAdd_le_saturatingAdd k h)]

theorem plus_better (a b c : Distance) :
    a.plus (b.better c) = (a.plus b).better (a.plus c) := by
  cases b with
  | notAssignable => rw [better, plus_notAssignable, better]
  | cost m =>
    cases c with
    | notAssignable => rw [plus_notAssignable, better_notAssignable, better_notAssignable]
    | cost n =>
      rcases UInt32.le_total m n with hmn | hnm
      · exact plus_better_of_le a hmn
      · rw [better_comm (cost m), better_comm (a.plus (cost m))]
        exact plus_better_of_le a hnm

end Distance

namespace Assignability

/-! ## Sums that stop -/

/-- The sum of all answers. -/
def sumAll (answer : Query → Outcome Distance) (qs : List Query) (sum : Distance) :
    Outcome Distance :=
  qs.foldlM (fun sum q => return sum.plus (← answer q)) sum

/-- Of the queries, those after the first whose answer is not assignable, if all before it are
assignable. -/
inductive Skips (answer : Query → Outcome Distance) : List Query → List Query → Prop where
  | stop {q : Query} {later : List Query} :
      answer q = .answer .notAssignable → Skips answer (q :: later) later
  | next {q : Query} {n : UInt32} {qs later : List Query} :
      answer q = .answer (.cost n) → Skips answer qs later → Skips answer (q :: qs) later

variable {answer : Query → Outcome Distance} {q : Query} {qs : List Query}

theorem sumAll_cons {d : Distance} (hq : answer q = .answer d) (qs : List Query)
    (sum : Distance) : sumAll answer (q :: qs) sum = sumAll answer qs (sum.plus d) := by
  rw [sumAll, List.foldlM_cons, hq]
  rfl

/-- Where a query has no answer, neither sum gets past it. -/
theorem sums_of_missing (hq : ∀ d, answer q ≠ .answer d) (sum : Distance) :
    sumOf answer (q :: qs) sum = sumAll answer (q :: qs) sum := by
  rw [sumAll, List.foldlM_cons, sumOf]
  cases hout : answer q with
  | answer d => exact absurd hout (hq d)
  | unresolved fault => rfl
  | unfinished => rfl

theorem not_skips_of_missing (hq : ∀ d, answer q ≠ .answer d) (later : List Query) :
    ¬ Skips answer (q :: qs) later := by
  intro hskips
  cases hskips with
  | stop hstop => exact hq _ hstop
  | next hnext _ => exact hq _ hnext

/-- Nothing is added any more, but an answer is still needed to every query. -/
theorem sumAll_notAssignable_iff :
    sumAll answer qs .notAssignable = .answer .notAssignable ↔
      ∀ q ∈ qs, ∃ d, answer q = .answer d := by
  induction qs with
  | nil => exact iff_of_true rfl (by simp)
  | cons q qs ih =>
    rw [List.forall_mem_cons]
    cases hq : answer q with
    | answer d =>
      rw [sumAll_cons hq, show Distance.notAssignable.plus d = .notAssignable from rfl, ih]
      simp
    | unresolved fault => simp [sumAll, hq, Bind.bind, Outcome.bind]
    | unfinished => simp [sumAll, hq, Bind.bind, Outcome.bind]

/-- Stopping makes no difference exactly if every query that is left out has an answer. -/
theorem sumOf_eq_sumAll_iff (answer : Query → Outcome Distance) (qs : List Query) (n : UInt32) :
    sumOf answer qs (.cost n) = sumAll answer qs (.cost n) ↔
      ∀ later, Skips answer qs later → ∀ q ∈ later, ∃ d, answer q = .answer d := by
  induction qs generalizing n with
  | nil => exact iff_of_true rfl nofun
  | cons q qs ih =>
    by_cases hmissing : ∀ d, answer q ≠ .answer d
    · exact iff_of_true (sums_of_missing hmissing _)
        fun later hskips => absurd hskips (not_skips_of_missing hmissing later)
    obtain ⟨d, hq⟩ : ∃ d, answer q = .answer d := by simpa using hmissing
    rw [sumAll_cons hq, sumOf_cons hq]
    cases d with
    | cost m =>
      have hgoes : ((Distance.cost n).plus (.cost m)).isAssignable = true := rfl
      rw [if_pos hgoes, Distance.plus, ih]
      constructor
      · intro hlater later hskips
        cases hskips with
        | stop hstop => simp [hq] at hstop
        | next _ hrest => exact hlater later hrest
      · exact fun hlater later hskips => hlater later (.next hq hskips)
    | notAssignable =>
      -- the one sum stops here and leaves `qs` out, the other has nothing to add but still asks
      rw [Distance.plus_notAssignable, if_neg (by decide), eq_comm, sumAll_notAssignable_iff]
      constructor
      · intro hall later hskips
        cases hskips with
        | stop _ => exact hall
        | next hnext _ => simp [hq] at hnext
      · exact fun hlater => hlater qs (.stop hq)

end Assignability

namespace Distance

open Assignability

end Distance

end Mutability
