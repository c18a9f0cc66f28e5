import Mathlib.Data.List.Basic
import Mathlib.Data.List.Forall2

/-!
# Lists of steps that may fail

`List.mapM` over steps that may fail comes to all their values, or to the first error.  This file
says so as equalities of lists, so that the rest is a matter of positions and members.

* `exists_of_bind_eq_ok`, `eq_ok_of_toOption` — one step and another, and one step alone;
* `cases_of_map_eq`, `map_bind_eq_of_map_eq` — two steps side by side;
* `mapM_eq_ok_iff`, `map_eq_map_ok_iff` — all steps come to a value;
* `exists_left_of_forall₂`, `exists_right_of_forall₂` — members of lists that go together;
* `exists_forall₂`, `exists_forall₂_of_both` — a list that goes with another, or with two;
* `forall₂_imp_mem`, `forall₂_trans`, `exists_split_of_forall₂`, `forall₂_congr_mem`,
  `pairwise_of_forall₂` — what is carried over from one list to the next;
* `mapM_eq_error_iff` — the steps before the first that fails come to values;
* `errorOf?`, `errorOf?_bind`, `errorOf?_mapM` — the error that steps come to, which is the first of
  theirs;
* `mapM_isSome_iff`, `forall₂_of_mapM_eq_some` — steps that may have no value;
* `mapM_eq_map`, `mapM_congr_left`, `map_eq_of_map_ok`, `map_map_eq_self` — what holds of the values
  one by one holds of the lists;
* `Collects` — steps whose values go into a state one by one: `Collects.errorOf?_run` and
  `Collects.invariant`.
-/

namespace ProductionRates

variable {ε α β : Type} {f : α → Except ε β}

/-- What follows a step that may fail comes to a value if both come to one. -/
theorem exists_of_bind_eq_ok {step : Except ε α} {b : β} (h : step >>= f = .ok b) :
    ∃ a, step = .ok a ∧ f a = .ok b := by
  cases step with
  | error error => cases h
  | ok a => exact ⟨a, rfl, h⟩

/-- A step that has a value comes to it. -/
theorem eq_ok_of_toOption {step : Except ε α} {a : α} (h : step.toOption = some a) :
    step = .ok a := by
  cases step with
  | error error => cases h
  | ok b => exact congrArg Except.ok (Option.some.inj h)

/-- The values of steps are determined by them. -/
theorem map_ok_injective : Function.Injective (List.map (Except.ok : β → Except ε β)) :=
  List.map_injective_iff.2 fun _ _ h => Except.ok.inj h

/-- Steps come to a list of values just when each of them comes to its own. -/
theorem mapM_eq_ok_iff {as : List α} {bs : List β} :
    as.mapM f = .ok bs ↔ as.map f = bs.map .ok := by
  induction as generalizing bs with
  | nil => cases bs <;> simp [pure, Except.pure]
  | cons a as ih =>
    rw [List.mapM_cons, List.map_cons]
    cases hhead : f a with
    | error error => cases bs <;> simp [bind, Except.bind]
    | ok b =>
      cases htail : as.mapM f with
      | error error =>
        have hnone : ∀ bs : List β, as.map f ≠ bs.map .ok := by
          intro bs hbs
          rw [ih.2 hbs] at htail
          cases htail
        cases bs <;> simp [bind, Except.bind, hnone]
      | ok tail =>
        have htail := ih.1 htail
        cases bs with
        | nil => simp [bind, Except.bind, pure, Except.pure]
        | cons first rest =>
          simp [bind, Except.bind, pure, Except.pure, htail, map_ok_injective.eq_iff]

/-- The same is read off two lists just when it is read off their members one by one. -/
theorem map_eq_map_iff_forall₂ {γ δ : Type} {read : α → δ} {other : γ → δ} {as : List α}
    {cs : List γ} :
    as.map read = cs.map other ↔ List.Forall₂ (fun a c => read a = other c) as cs := by
  rw [← List.forall₂_eq_eq_eq, List.forall₂_map_left_iff, List.forall₂_map_right_iff]

/-- Steps come to values in turn just when each comes to its own. -/
theorem map_eq_map_ok_iff {as : List α} {bs : List β} :
    as.map f = bs.map .ok ↔ List.Forall₂ (fun a b => f a = .ok b) as bs :=
  map_eq_map_iff_forall₂

/-- Members of lists that go together have a partner. -/
theorem exists_left_of_forall₂ {γ : Type} {R : α → γ → Prop} {as : List α} {cs : List γ}
    (h : List.Forall₂ R as cs) {c : γ} (hc : c ∈ cs) : ∃ a ∈ as, R a c := by
  induction h with
  | nil => cases hc
  | cons hhead _ ih =>
    rcases List.mem_cons.1 hc with rfl | hc
    · exact ⟨_, List.mem_cons_self .., hhead⟩
    · obtain ⟨a, ha, hac⟩ := ih hc
      exact ⟨a, List.mem_cons_of_mem _ ha, hac⟩

theorem exists_right_of_forall₂ {γ : Type} {R : α → γ → Prop} {as : List α} {cs : List γ}
    (h : List.Forall₂ R as cs) {a : α} (ha : a ∈ as) : ∃ c ∈ cs, R a c :=
  exists_left_of_forall₂ (R := fun c a => R a c) (List.Forall₂.flip h) ha

/-- What holds between partners may depend on the members of the first list. -/
theorem forall₂_imp_mem {γ : Type} {R S : α → γ → Prop} {as : List α} {cs : List γ}
    (h : List.Forall₂ R as cs) (himp : ∀ a ∈ as, ∀ c, R a c → S a c) : List.Forall₂ S as cs :=
  ((List.forall₂_and_left _ _).2 ⟨himp, h⟩).imp fun _ c hboth => hboth.1 c hboth.2

/-- Partners of partners make lists that go together. -/
theorem forall₂_trans {γ δ : Type} {R : α → γ → Prop} {S : γ → δ → Prop} {T : α → δ → Prop}
    {as : List α} {cs : List γ} {ds : List δ} (h : List.Forall₂ R as cs)
    (hnext : List.Forall₂ S cs ds) (htrans : ∀ a ∈ as, ∀ c d, R a c → S c d → T a d) :
    List.Forall₂ T as ds := by
  induction h generalizing ds with
  | nil =>
    cases hnext
    exact .nil
  | cons hhead _ ih =>
    cases hnext with
    | cons hother hothers =>
      refine .cons (htrans _ (List.mem_cons_self ..) _ _ hhead hother) (ih hothers ?_)
      exact fun a ha => htrans a (List.mem_cons_of_mem _ ha)

/-- Where one of two lists is split, the other is split alike. -/
theorem exists_split_of_forall₂ {γ : Type} {R : α → γ → Prop} {as : List α} {before after : List γ}
    {c : γ} (h : List.Forall₂ R as (before ++ c :: after)) :
    ∃ first a last, as = first ++ a :: last ∧ List.Forall₂ R first before ∧ R a c := by
  induction before generalizing as with
  | nil =>
    obtain ⟨a, last, hhead, -, rfl⟩ := List.forall₂_cons_right_iff.1 h
    exact ⟨[], a, last, rfl, .nil, hhead⟩
  | cons b before ih =>
    obtain ⟨other, rest, hother, hrest, rfl⟩ := List.forall₂_cons_right_iff.1 h
    obtain ⟨first, a, last, rfl, hfirst, hhead⟩ := ih hrest
    exact ⟨other :: first, a, last, rfl, .cons hother hfirst, hhead⟩

/-- Members go together in one way if they do in another. -/
theorem forall₂_congr_mem {γ : Type} {R S : α → γ → Prop} {as : List α} {cs : List γ}
    (h : ∀ a ∈ as, ∀ c ∈ cs, (R a c ↔ S a c)) : List.Forall₂ R as cs ↔ List.Forall₂ S as cs := by
  rw [List.forall₂_iff_get, List.forall₂_iff_get]
  refine and_congr_right fun _ => forall_congr' fun i => forall₂_congr fun hi hj => ?_
  exact h _ (List.get_mem ..) _ (List.get_mem ..)

/-- What holds between any two members holds between their partners, if it is carried over. -/
theorem pairwise_of_forall₂ {γ : Type} {R : α → γ → Prop} {P : α → α → Prop} {Q : γ → γ → Prop}
    {as : List α} {cs : List γ} (h : List.Forall₂ R as cs) (has : as.Pairwise P)
    (hcarry : ∀ a b c d, R a c → R b d → P a b → Q c d) : cs.Pairwise Q := by
  induction h with
  | nil => exact .nil
  | cons hhead hrest ih =>
    obtain ⟨hfirst, has⟩ := List.pairwise_cons.1 has
    refine .cons (fun d hd => ?_) (ih has)
    obtain ⟨b, hb, hbd⟩ := exists_left_of_forall₂ hrest hd
    exact hcarry _ _ _ _ hhead hbd (hfirst b hb)

/-- Partners of the members make a list that goes with theirs. -/
theorem exists_forall₂ {γ : Type} {R : α → γ → Prop} {as : List α} (h : ∀ a ∈ as, ∃ c, R a c) :
    ∃ cs, List.Forall₂ R as cs := by
  induction as with
  | nil => exact ⟨[], .nil⟩
  | cons a as ih =>
    obtain ⟨c, hc⟩ := h a (List.mem_cons_self ..)
    obtain ⟨cs, hcs⟩ := ih fun other hother => h other (List.mem_cons_of_mem _ hother)
    exact ⟨c :: cs, .cons hc hcs⟩

/-- What members that go together both go with makes a list. -/
theorem exists_forall₂_of_both {γ δ : Type} {R : α → δ → Prop} {S : γ → δ → Prop} {as : List α}
    {cs : List γ} (h : List.Forall₂ (fun a c => ∃ d, R a d ∧ S c d) as cs) :
    ∃ ds, List.Forall₂ R as ds ∧ List.Forall₂ S cs ds := by
  induction h with
  | nil => exact ⟨[], .nil, .nil⟩
  | cons hhead _ ih =>
    obtain ⟨d, ha, hc⟩ := hhead
    obtain ⟨ds, has, hcs⟩ := ih
    exact ⟨d :: ds, .cons ha has, .cons hc hcs⟩

/-- Steps come to an error just when one of them does and those before it come to values. -/
theorem mapM_eq_error_iff {as : List α} {error : ε} :
    as.mapM f = .error error ↔ ∃ before a after, as = before ++ a :: after ∧
      f a = .error error ∧ ∀ other ∈ before, ∃ b, f other = .ok b := by
  induction as with
  | nil => simp [pure, Except.pure]
  | cons a as ih =>
    rw [List.mapM_cons]
    cases hhead : f a with
    | error first =>
      constructor
      · intro h
        cases h
        exact ⟨[], a, as, rfl, hhead, by simp⟩
      · rintro ⟨before, fails, after, hsplit, hfails, hbefore⟩
        cases before with
        | nil =>
          cases hsplit
          rw [hhead] at hfails
          rw [hfails]
          rfl
        | cons other before =>
          cases hsplit
          obtain ⟨b, hb⟩ := hbefore a (List.mem_cons_self ..)
          rw [hhead] at hb
          cases hb
    | ok b =>
      have hbind : (do let b ← Except.ok b; let bs ← as.mapM f; pure (b :: bs)) =
          Except.error error ↔ as.mapM f = .error error := by
        cases as.mapM f <;> simp [bind, Except.bind, pure, Except.pure]
      rw [hbind, ih]
      constructor
      · rintro ⟨before, fails, after, rfl, hfails, hbefore⟩
        refine ⟨a :: before, fails, after, rfl, hfails, ?_⟩
        intro other hother
        rcases List.mem_cons.1 hother with rfl | hother
        · exact ⟨b, hhead⟩
        · exact hbefore other hother
      · rintro ⟨before, fails, after, hsplit, hfails, hbefore⟩
        cases before with
        | nil =>
          cases hsplit
          rw [hhead] at hfails
          cases hfails
        | cons other before =>
          cases hsplit
          exact ⟨before, fails, after, rfl, hfails,
            fun other hother => hbefore other (List.mem_cons_of_mem _ hother)⟩

/-- The error that a step comes to, if it comes to one. -/
def errorOf? : Except ε α → Option ε
  | .ok _ => none
  | .error error => some error

theorem errorOf?_eq_none_iff {step : Except ε α} : errorOf? step = none ↔ ∃ a, step = .ok a := by
  cases step <;> simp [errorOf?]

theorem errorOf?_eq_some_iff {step : Except ε α} {error : ε} :
    errorOf? step = some error ↔ step = .error error := by
  cases step <;> simp [errorOf?]

theorem map_eq_ok_iff {change : α → β} {step : Except ε α} {b : β} :
    change <$> step = .ok b ↔ ∃ a, step = .ok a ∧ change a = b := by
  cases step <;> simp [Functor.map, Except.map]

/-- Two steps with the same error, or with values of which the same is made. -/
theorem cases_of_map_eq {γ δ : Type} {change : α → γ} {other : δ → γ} {step : Except ε α}
    {next : Except ε δ} (h : next.map other = step.map change) :
    (∃ error, step = .error error ∧ next = .error error) ∨
      ∃ a d, step = .ok a ∧ next = .ok d ∧ other d = change a := by
  cases step with
  | error error => cases next with
    | error first => exact .inl ⟨error, rfl, congrArg Except.error (Except.error.inj h)⟩
    | ok d => cases h
  | ok a => cases next with
    | error first => cases h
    | ok d => exact .inr ⟨a, d, rfl, rfl, Except.ok.inj h⟩

/-- Of steps of which the same is made, the same is made after what only depends on that. -/
theorem map_bind_eq_of_map_eq {γ δ : Type} {change : α → γ} {step next : Except ε α}
    (h : next.map change = step.map change) {read : β → δ}
    (hafter : ∀ a b, change b = change a → (f b).map read = (f a).map read) :
    (next >>= f).map read = (step >>= f).map read := by
  rcases cases_of_map_eq h with ⟨error, hstep, hnext⟩ | ⟨a, b, hstep, hnext, hsame⟩
  · rw [hstep, hnext]
  · rw [hstep, hnext]
    exact hafter a b hsame

theorem mapError_eq_ok_iff {ε' : Type} {change : ε → ε'} {step : Except ε α} {a : α} :
    Except.mapError change step = .ok a ↔ step = .ok a := by
  cases step <;> simp [Except.mapError]

theorem errorOf?_mapError {ε' : Type} (change : ε → ε') (step : Except ε α) :
    errorOf? (Except.mapError change step) = (errorOf? step).map change := by
  cases step <;> rfl

/-- The error of two steps is that of the first, or else that of the second. -/
theorem errorOf?_bind {step : Except ε α} {next : Option ε}
    (h : ∀ a, step = .ok a → errorOf? (f a) = next) :
    errorOf? (step >>= f) = (errorOf? step).or next := by
  cases step with
  | error error => rfl
  | ok a => exact h a rfl

theorem errorOf?_map (step : Except ε α) (change : α → β) :
    errorOf? (change <$> step) = errorOf? step := by
  cases step <;> rfl

/-- The error of steps one after the other is the first of theirs. -/
theorem errorOf?_mapM (as : List α) :
    errorOf? (as.mapM f) = as.findSome? fun a => errorOf? (f a) := by
  induction as with
  | nil => rfl
  | cons a as ih =>
    have htail (b : β) : errorOf? (as.mapM f >>= fun bs => pure (b :: bs)) =
        as.findSome? fun a => errorOf? (f a) := by
      have hpure (bs : List β) : errorOf? (pure (b :: bs) : Except ε (List β)) = none := rfl
      rw [errorOf?_bind fun bs _ => hpure bs, ih, Option.or_none]
    rw [List.mapM_cons, errorOf?_bind fun b _ => htail b, List.findSome?_cons]
    cases errorOf? (f a) <;> rfl

/-- Steps that may have no value all have one just when each has. -/
theorem mapM_isSome_iff {read : α → Option β} {as : List α} :
    (as.mapM read).isSome ↔ ∀ a ∈ as, (read a).isSome := by
  induction as with
  | nil => simp
  | cons a as ih =>
    rw [List.mapM_cons, List.forall_mem_cons, ← ih]
    cases read a <;> cases as.mapM read <;> simp

/-- Steps that have values come to them one by one. -/
theorem forall₂_of_mapM_eq_some {read : α → Option β} {as : List α} {bs : List β}
    (h : as.mapM read = some bs) : List.Forall₂ (fun a b => read a = some b) as bs := by
  induction as generalizing bs with
  | nil =>
    cases h
    exact .nil
  | cons a as ih =>
    rw [List.mapM_cons] at h
    obtain ⟨b, hb, h⟩ := Option.bind_eq_some_iff.1 h
    obtain ⟨rest, hrest, h⟩ := Option.bind_eq_some_iff.1 h
    cases h
    exact .cons hb (ih hrest)

/-- Steps that differ by what is done to their values come to values that differ by it. -/
theorem mapM_eq_map {γ : Type} {g : α → Except ε γ} {change : β → γ} {as : List α}
    (h : ∀ a ∈ as, g a = (f a).map change) :
    as.mapM g = (as.mapM f).map (List.map change) := by
  induction as with
  | nil => rfl
  | cons a as ih =>
    have ih := ih fun other hother => h other (List.mem_cons_of_mem _ hother)
    rw [List.mapM_cons, List.mapM_cons, ih, h a (List.mem_cons_self ..)]
    cases f a with
    | error error => rfl
    | ok b => cases as.mapM f <;> rfl

theorem mapM_congr_left {m : Type → Type} [Monad m] [LawfulMonad m] {f g : α → m β} {as : List α}
    (h : ∀ a ∈ as, g a = f a) : as.mapM g = as.mapM f := by
  induction as with
  | nil => rfl
  | cons a as ih =>
    rw [List.mapM_cons, List.mapM_cons, h a (List.mem_cons_self ..),
      ih fun other hother => h other (List.mem_cons_of_mem _ hother)]

/-- What is read off the values of steps can be read off the steps, if it can one by one. -/
theorem map_eq_of_map_ok {γ : Type} {read : β → γ} {expected : α → γ} {as : List α} {bs : List β}
    (hrow : as.map f = bs.map .ok)
    (h : ∀ a ∈ as, ∀ b, f a = .ok b → read b = expected a) :
    bs.map read = as.map expected := by
  induction as generalizing bs with
  | nil =>
    cases bs with
    | nil => rfl
    | cons b bs => cases hrow
  | cons a as ih =>
    cases bs with
    | nil => cases hrow
    | cons b bs =>
      obtain ⟨hhead, htail⟩ := List.cons.inj hrow
      rw [List.map_cons, List.map_cons, h a (List.mem_cons_self ..) b hhead,
        ih htail fun other hother => h other (List.mem_cons_of_mem _ hother)]

/-- What is undone member by member is undone. -/
theorem map_map_eq_self {there : α → β} {back : β → α} {as : List α}
    (h : ∀ a ∈ as, back (there a) = a) : (as.map there).map back = as := by
  rw [List.map_map]
  exact (List.map_congr_left h).trans (List.map_id as)

/-! ## Steps that add to a state -/

/-- The run adds the value of each step to a state, and goes on from there. -/
structure Collects {σ : Type} (f : α → Except ε β) (add : σ → α → β → σ)
    (run : σ → List α → Except ε σ) : Prop where
  /-- Without steps the state stays. -/
  nil : ∀ s, run s [] = .ok s
  /-- After the first step the run goes on from the state with its value. -/
  cons : ∀ s a as, run s (a :: as) = f a >>= fun b => run (add s a b) as

namespace Collects

variable {σ : Type} {add : σ → α → β → σ} {run : σ → List α → Except ε σ}

/-- The error of a run is the first of the steps. -/
theorem errorOf?_run (h : Collects f add run) (s : σ) (as : List α) :
    errorOf? (run s as) = as.findSome? fun a => errorOf? (f a) := by
  induction as generalizing s with
  | nil => rw [h.nil]; rfl
  | cons a as ih =>
    rw [h.cons, errorOf?_bind fun b _ => ih (add s a b), List.findSome?_cons]
    cases errorOf? (f a) <;> rfl

/-- A run whose steps all come to values comes to a state. -/
theorem exists_run (h : Collects f add run) (s : σ) {as : List α} {bs : List β}
    (hbs : as.map f = bs.map .ok) : ∃ t, run s as = .ok t := by
  induction as generalizing s bs with
  | nil => exact ⟨s, h.nil s⟩
  | cons a as ih =>
    cases bs with
    | nil => cases hbs
    | cons b bs =>
      obtain ⟨hhead, htail⟩ := List.cons.inj hbs
      obtain ⟨t, ht⟩ := ih (add s a b) htail
      exact ⟨t, by rw [h.cons, hhead]; exact ht⟩

/-- What holds of the steps done, their values and the state, and is kept by a step, holds after a
run. -/
theorem invariant (h : Collects f add run) (holds : List α → List β → σ → Prop)
    (hstep : ∀ done made s a b, holds done made s → f a = .ok b →
      holds (done ++ [a]) (made ++ [b]) (add s a b))
    (done : List α) (made : List β) {s t : σ} {as : List α} (hs : holds done made s)
    (hrun : run s as = .ok t) :
    ∃ bs, as.map f = bs.map .ok ∧ holds (done ++ as) (made ++ bs) t := by
  induction as generalizing done made s with
  | nil =>
    rw [h.nil] at hrun
    cases hrun
    exact ⟨[], rfl, by simpa using hs⟩
  | cons a as ih =>
    rw [h.cons] at hrun
    obtain ⟨b, hb, hrest⟩ := exists_of_bind_eq_ok hrun
    obtain ⟨bs, hbs, hholds⟩ := ih _ _ (hstep done made s a b hs hb) hrest
    refine ⟨b :: bs, by rw [List.map_cons, List.map_cons, hb, hbs], ?_⟩
    simpa using hholds

end Collects

end ProductionRates
