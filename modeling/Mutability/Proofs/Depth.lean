import Mathlib.Logic.Basic
import Mathlib.Tactic.ByContra
import Mutability.Proofs.Moves

/-!
# Depths of a search

A search that is finished at some depth has the same outcome at every greater one
(`search_extendsTo`). So a query has one outcome that all searches come to from some depth on, and
this is what `solve` gives (`exists_depth_solve`). That going deeper finds this outcome holds of
every search that keeps what it found (`Deepens.exists_depth_deepen`).
-/

namespace Mutability

namespace Outcome

variable {α β : Type}

/-- The second outcome is the first one, unless that is unfinished. -/
def ExtendsTo (x y : Outcome α) : Prop := x ≠ .unfinished → y = x

theorem ExtendsTo.bind {x y : Outcome α} {f g : α → Outcome β} (hxy : x.ExtendsTo y)
    (hfg : ∀ a, (f a).ExtendsTo (g a)) : (x >>= f).ExtendsTo (y >>= g) := by
  intro hfinished
  cases x with
  | answer a =>
    rw [hxy (by simp)]
    exact hfg a hfinished
  | unresolved fault =>
    rw [hxy (by simp)]
    rfl
  | unfinished => exact absurd rfl hfinished

/-- What holds of both parts of a computation holds of the whole: it is one of them. -/
theorem bind_of {P : Outcome α → Prop} {x : Outcome α} {next : α → Outcome α} (hx : P x)
    (hnext : ∀ a, P (next a)) : P (x >>= next) := by
  cases x with
  | answer a => exact hnext a
  | unresolved fault => exact hx
  | unfinished => exact hx

/-- A relation between outcomes that answers and sequences of computations keep. -/
structure Sequential (R : Outcome α → Outcome α → Prop) : Prop where
  answer : ∀ a, R (.answer a) (.answer a)
  bind : ∀ {x y : Outcome α} {f g : α → Outcome α}, R x y → (∀ a, R (f a) (g a)) →
    R (x >>= f) (y >>= g)

theorem sequential_extendsTo : Sequential (ExtendsTo (α := α)) :=
  ⟨fun _ _ => rfl, ExtendsTo.bind⟩

theorem sequential_of {P : Outcome α → Prop} (hanswer : ∀ a, P (.answer a)) :
    Sequential fun x y => x = y ∧ P x where
  answer a := ⟨rfl, hanswer a⟩
  bind hx hf := ⟨by rw [hx.1, funext fun a => (hf a).1], bind_of hx.2 fun a => (hf a).2⟩

/-! ## Searches that go deeper -/

/-- The search keeps at greater depths what it has found. -/
def Deepens (search : Nat → Outcome α) : Prop := ∀ n m, n ≤ m → (search n).ExtendsTo (search m)

theorem enoughDepth_of_unfinished {search : Nat → Outcome α} {depth : Nat}
    (hdepth : search depth = .unfinished) :
    enoughDepth search depth = enoughDepth search (2 * depth + 1) := by
  rw [enoughDepth, repeatM_eq_of_monadTail, repeatM.body, hdepth]
  rfl

theorem enoughDepth_of_finished {search : Nat → Outcome α} {depth : Nat}
    (hdepth : search depth ≠ .unfinished) : enoughDepth search depth = depth := by
  rw [enoughDepth, repeatM_eq_of_monadTail, repeatM.body]
  split
  · rename_i hunf
    exact absurd hunf hdepth
  · rfl

section Deepens

variable {search : Nat → Outcome α} (hsearch : Deepens search)

include hsearch

theorem Deepens.eq_of_finished {n m : Nat} (hn : search n ≠ .unfinished)
    (hm : search m ≠ .unfinished) : search n = search m := by
  rcases Nat.le_total n m with hle | hle
  · exact (hsearch n m hle hn).symm
  · exact hsearch m n hle hm

theorem Deepens.search_enoughDepth {n : Nat} (hn : search n ≠ .unfinished) (depth : Nat) :
    search (enoughDepth search depth) = search n := by
  induction hk : n - depth using Nat.strongRecOn generalizing depth with
  | ind k ih =>
    by_cases hdepth : search depth = .unfinished
    · have hlt : depth < n := by
        by_contra hle
        exact hn ((hsearch n depth (by omega) hn).symm.trans hdepth)
      rw [enoughDepth_of_unfinished hdepth]
      exact ih (n - (2 * depth + 1)) (by omega) _ rfl
    · rw [enoughDepth_of_finished hdepth]
      exact hsearch.eq_of_finished hdepth hn

theorem Deepens.deepen_eq {n : Nat} (hn : search n ≠ .unfinished) (depth : Nat) :
    deepen search depth = search n := by
  unfold deepen
  split
  · exact hsearch.search_enoughDepth hn depth
  · rename_i hfirst
    exact hsearch.eq_of_finished (fun hunf => hfirst hunf) hn

/-- From some depth on, every search comes to the outcome that going deeper finds. -/
theorem Deepens.exists_depth_deepen (start : Nat) :
    ∃ depth, ∀ n, depth ≤ n → search n = deepen search start := by
  by_cases hall : ∀ n, search n = .unfinished
  · refine ⟨0, fun n _ => ?_⟩
    rw [deepen, hall, hall]
    exact (hall _).symm
  · obtain ⟨k, hk⟩ := not_forall.mp hall
    exact ⟨k, fun n hn => (hsearch k n hn hk).trans (hsearch.deepen_eq hk start).symm⟩

end Deepens

end Outcome

namespace Assignability

/-! ## Several queries -/

section Queries

variable {R : Outcome Distance → Outcome Distance → Prop} (hR : Outcome.Sequential R)

include hR

theorem sumOf_relates {answer answer' : Query → Outcome Distance} {qs : List Query}
    (hqs : ∀ q ∈ qs, R (answer q) (answer' q)) (sum : Distance) :
    R (sumOf answer qs sum) (sumOf answer' qs sum) := by
  induction qs generalizing sum with
  | nil => exact hR.answer sum
  | cons q qs ih =>
    refine hR.bind (hqs q List.mem_cons_self) fun d => ?_
    show R (if _ then _ else _) (if _ then _ else _)
    split_ifs
    · exact ih (fun x hx => hqs x (List.mem_cons_of_mem q hx)) _
    · exact hR.answer _

theorem bestOf_relates {answer answer' : Query → Outcome Distance} {qs : List Query}
    (hqs : ∀ q ∈ qs, R (answer q) (answer' q)) (best : Distance) :
    R (bestOf answer qs best) (bestOf answer' qs best) := by
  induction qs generalizing best with
  | nil => exact hR.answer best
  | cons q qs ih =>
    exact hR.bind (hqs q List.mem_cons_self) fun d =>
      ih (fun x hx => hqs x (List.mem_cons_of_mem q hx)) _

theorem firstHop_relates {answer answer' : TypeExpr → Outcome Distance} {ts : List TypeExpr}
    (hts : ∀ t ∈ ts, R (answer t) (answer' t)) :
    R (firstHop answer ts) (firstHop answer' ts) := by
  induction ts with
  | nil => exact hR.answer _
  | cons t ts ih =>
    refine hR.bind (hts t List.mem_cons_self) fun d => ?_
    show R (if _ then _ else _) (if _ then _ else _)
    split_ifs
    · exact hR.answer _
    · exact ih fun x hx => hts x (List.mem_cons_of_mem t hx)

theorem guarded_relates {s s' : Setting} {path path' : List Visit} {v : Visit}
    {expand expand' : List Visit → Outcome Distance}
    (hguard : (s'.guarded && path'.contains v) = (s.guarded && path.contains v))
    (hexpand : R (expand (v :: path)) (expand' (v :: path'))) :
    R (guarded s path v expand) (guarded s' path' v expand') := by
  unfold guarded
  simp only [hguard]
  split_ifs
  · exact hR.answer _
  · exact hexpand

/-- Moves come to related outcomes if their queries do, and the lookups they depend on, and if the
guard stops them in both places or in none. -/
theorem Move.run_relates {s s' : Setting} {recur recur' : Answerer} {path path' : List Visit}
    {m : Move}
    (hguard : ∀ v, m.visit? = some v →
      (s'.guarded && path'.contains v) = (s.guarded && path.contains v))
    (hdone : ∀ result, m = .done result → R (.ofExcept result) (.ofExcept result))
    (hclimb : ∀ v declared, m = .climb v declared → ∀ t ∈ declared,
      R (Outcome.ofExcept (s.hierarchy.directSupertype v.source t) >>= fun u =>
          recur (v :: path) ⟨v.target, u, true, v.mode⟩)
        (Outcome.ofExcept (s'.hierarchy.directSupertype v.source t) >>= fun u =>
          recur' (v :: path') ⟨v.target, u, true, v.mode⟩))
    (hasked : ∀ q ∈ m.asked s.hierarchy, R (recur (m.enter path) q) (recur' (m.enter path') q)) :
    R (m.run s recur path) (m.run s' recur' path') := by
  cases m with
  | done result => exact hdone result rfl
  | pass q => exact hasked q (by simp [asked])
  | either q q' =>
    refine hR.bind (hasked q (by simp [asked])) fun first => ?_
    exact hR.bind (hasked q' (by simp [asked])) fun second => hR.answer _
  | sum qs => exact sumOf_relates hR hasked _
  | bounds v qs =>
    rw [run, run]
    exact guarded_relates hR (hguard v rfl) (bestOf_relates hR hasked _)
  | climb v declared =>
    rw [run, run]
    exact guarded_relates hR (hguard v rfl) (firstHop_relates hR (hclimb v declared rfl))

end Queries

section Depth

variable {h : Hierarchy} {reversed : List TypeParameter}

theorem Move.mem_asked_climb {visit : Visit} {declared : List TypeExpr} {t u : TypeExpr}
    (ht : t ∈ declared) (hu : h.directSupertype visit.source t = .ok u) :
    ⟨visit.target, u, true, visit.mode⟩ ∈ (Move.climb visit declared).asked h :=
  List.mem_filterMap.mpr ⟨t, ht, by rw [hu]; rfl⟩

theorem Move.exists_of_mem_asked_climb {visit : Visit} {declared : List TypeExpr} {q : Query}
    (hq : q ∈ (Move.climb visit declared).asked h) :
    ∃ t ∈ declared, ∃ u, h.directSupertype visit.source t = .ok u ∧
      q = ⟨visit.target, u, true, visit.mode⟩ := by
  obtain ⟨t, ht, hsome⟩ := List.mem_filterMap.mp hq
  cases hu : h.directSupertype visit.source t with
  | error fault => simp [hu, Except.toOption] at hsome
  | ok u =>
    rw [hu] at hsome
    cases hsome
    exact ⟨t, ht, u, hu, rfl⟩

/-- A finished move has the same outcome wherever its queries have, if the guard stops it in both
places or in none. -/
theorem Move.run_extendsTo {g g' : Bool} {recur recur' : Answerer} {path path' : List Visit}
    {m : Move}
    (hguard : ∀ v, m.visit? = some v → (g' && path'.contains v) = (g && path.contains v))
    (hasked : ∀ q ∈ m.asked h, (recur (m.enter path) q).ExtendsTo (recur' (m.enter path') q)) :
    (m.run ⟨h, reversed, g⟩ recur path).ExtendsTo (m.run ⟨h, reversed, g'⟩ recur' path') := by
  refine run_relates Outcome.sequential_extendsTo hguard (fun _ _ _ => rfl) ?_ hasked
  rintro v declared rfl t ht
  cases hu : h.directSupertype v.source t with
  | error fault => exact fun _ => rfl
  | ok u => exact hasked _ (mem_asked_climb ht hu)

theorem search_succ (s : Setting) (depth : Nat) (path : List Visit) (q : Query) :
    search s (depth + 1) path q =
      (move s.hierarchy s.reversed q).run s (search s depth) path :=
  step_eq_run s (search s depth) path q

/-- A greater depth does not change an outcome. -/
theorem search_extendsTo (s : Setting) {n m : Nat} (hle : n ≤ m) (path : List Visit) (q : Query) :
    (search s n path q).ExtendsTo (search s m path q) := by
  induction n generalizing m path q with
  | zero => exact fun hfinished => absurd rfl hfinished
  | succ n ih =>
    obtain ⟨m, rfl⟩ := Nat.exists_eq_add_of_le' (Nat.lt_of_lt_of_le (Nat.succ_pos n) hle)
    rw [search_succ, search_succ]
    exact Move.run_extendsTo (fun _ _ => rfl) fun q' _ => ih (by omega) _ q'

theorem search_eq_unfinished_of_le {s : Setting} {n m : Nat} (hle : n ≤ m) {path : List Visit}
    {q : Query} (hm : search s m path q = .unfinished) : search s n path q = .unfinished := by
  by_contra hn
  exact hn (by rw [← search_extendsTo s hle path q hn, hm])

/-! ## Depths that are enough -/

theorem deepens_search (s : Setting) (path : List Visit) (q : Query) :
    Outcome.Deepens fun depth => search s depth path q :=
  fun _ _ hle => search_extendsTo s hle path q

/-- From some depth on, every search comes to the outcome of the query. -/
theorem exists_depth_solve (s : Setting) (q : Query) :
    ∃ depth, ∀ n, depth ≤ n → search s n [] q = solve s q :=
  (deepens_search s [] q).exists_depth_deepen _

theorem solve_eq_of_search {s : Setting} {q : Query} {n : Nat}
    (hn : search s n [] q ≠ .unfinished) : solve s q = search s n [] q :=
  (deepens_search s [] q).deepen_eq hn _

theorem solve_eq_answer {s : Setting} {q : Query} {n : Nat} {d : Distance}
    (hn : search s n [] q = .answer d) : solve s q = .answer d := by
  rw [solve_eq_of_search (n := n) (by simp [hn]), hn]

end Depth

/-! ## What holds of all outcomes -/

/-- No lookup of the move fails. -/
def Move.Resolved (h : Hierarchy) : Move → Prop
  | done result => ∃ d, result = .ok d
  | climb visit declared => ∀ t ∈ declared, ∃ u, h.directSupertype visit.source t = .ok u
  | _ => True

section Outcomes

variable {P : Outcome Distance → Prop} (hanswer : ∀ d, P (.answer d))

include hanswer

/-- What holds of all answers and of what the queries of a move come to holds of the move. A lookup
that fails counts, unless there is none. -/
theorem Move.run_of {h : Hierarchy} {reversed : List TypeParameter} {g : Bool} {recur : Answerer}
    {path : List Visit} {m : Move} (hfault : m.Resolved h ∨ ∀ fault, P (.unresolved fault))
    (hasked : ∀ q ∈ m.asked h, P (recur (m.enter path) q)) :
    P (m.run ⟨h, reversed, g⟩ recur path) := by
  have hself : m.run ⟨h, reversed, g⟩ recur path = m.run ⟨h, reversed, g⟩ recur path ∧
      P (m.run ⟨h, reversed, g⟩ recur path) := by
    refine run_relates (Outcome.sequential_of hanswer) (fun _ _ => rfl) ?_ ?_
      fun q hq => ⟨rfl, hasked q hq⟩
    · rintro (fault | d) rfl
      · rcases hfault with ⟨d, hd⟩ | hfault
        · cases hd
        · exact ⟨rfl, hfault fault⟩
      · exact ⟨rfl, hanswer d⟩
    · rintro v declared rfl t ht
      refine ⟨rfl, ?_⟩
      cases hu : h.directSupertype v.source t with
      | ok u => exact hasked _ (mem_asked_climb ht hu)
      | error fault =>
        rcases hfault with hresolved | hfault
        · obtain ⟨u, hok⟩ := hresolved t ht
          cases hu.symm.trans hok
        · exact hfault fault
  exact hself.2

end Outcomes

/-! ## Finished searches -/

section Finished

variable {h : Hierarchy} {reversed : List TypeParameter}

/-- A move is finished once all its queries are. -/
theorem Move.run_ne_unfinished {g : Bool} {recur : Answerer} {path : List Visit} {m : Move}
    (hasked : ∀ q ∈ m.asked h, recur (m.enter path) q ≠ .unfinished) :
    m.run ⟨h, reversed, g⟩ recur path ≠ .unfinished :=
  run_of (P := fun x => x ≠ .unfinished) (by simp) (Or.inr (by simp)) hasked

/-- Of finitely many queries that all come to an end at some depth, there is a depth for all. -/
theorem exists_depth_forall {s : Setting} {path : List Visit} {qs : List Query}
    (hqs : ∀ q ∈ qs, ∃ n, search s n path q ≠ .unfinished) :
    ∃ n, ∀ q ∈ qs, search s n path q ≠ .unfinished := by
  induction qs with
  | nil => exact ⟨0, by simp⟩
  | cons q qs ih =>
    obtain ⟨n, hn⟩ := hqs q List.mem_cons_self
    obtain ⟨m, hm⟩ := ih fun x hx => hqs x (List.mem_cons_of_mem q hx)
    refine ⟨max n m, fun x hx => ?_⟩
    rcases List.mem_cons.mp hx with rfl | hx
    · rwa [search_extendsTo s (Nat.le_max_left n m) path x hn]
    · rw [search_extendsTo s (Nat.le_max_right n m) path x (hm x hx)]
      exact hm x hx

theorem exists_search_of_asked {s : Setting} {path : List Visit} {q : Query}
    (hasked : ∀ q' ∈ (move s.hierarchy s.reversed q).asked s.hierarchy,
      ∃ n, search s n ((move s.hierarchy s.reversed q).enter path) q' ≠ .unfinished) :
    ∃ n, search s n path q ≠ .unfinished := by
  obtain ⟨n, hn⟩ := exists_depth_forall hasked
  exact ⟨n + 1, by rw [search_succ]; exact Move.run_ne_unfinished hn⟩

end Finished

end Assignability

end Mutability
