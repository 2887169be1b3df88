import Moc.Lib.Memory

/-!
# Runs

A system takes one input after another. `run` collects the outputs of a system whose steps may
fault, and `Agree` says that two systems give the same outputs and end in related states; a
simulation of single steps is one of whole runs. For a system whose step is total, `Always` says
that a property holds in every state of a run, `EachStep` that every step taken meets a condition,
and `always_iff_eachStep` is the rule that turns an invariant into the exact condition for a
property of runs.
-/

open Memory

namespace Runs

variable {σ τ ι ο : Type}

/-! ## Outputs -/

/-- The outputs of a run and the state it ends in. -/
def run (step : σ → ι → Except Fault (ο × σ)) : σ → List ι → Except Fault (List ο × σ)
  | s, [] => .ok ([], s)
  | s, i :: is => do
    let (o, s) ← step s i
    let (os, s) ← run step s is
    return (o :: os, s)

/-- The same output and related states, or the same fault. -/
def Agree (R : σ → τ → Prop) : Except Fault (ο × σ) → Except Fault (ο × τ) → Prop
  | .ok (o, s), .ok (o', t) => o = o' ∧ R s t
  | .error e, .error e' => e = e'
  | _, _ => False

/-- Two systems whose steps agree from states that are related for the inputs to come agree on every
run. -/
theorem run_agree_rest {R : List ι → σ → τ → Prop} {f : σ → ι → Except Fault (ο × σ)}
    {g : τ → ι → Except Fault (ο × τ)}
    (hstep : ∀ s t i is, R (i :: is) s t → Agree (R is) (f s i) (g t i)) {s : σ} {t : τ}
    {is : List ι} (hst : R is s t) : Agree (R []) (run f s is) (run g t is) := by
  induction is generalizing s t with
  | nil => exact ⟨rfl, hst⟩
  | cons i is ih =>
    have hi := hstep s t i is hst
    unfold run
    cases hf : f s i with
    | error e =>
      cases hg : g t i with
      | error e' =>
        rw [hf, hg] at hi
        exact hi
      | ok r =>
        rw [hf, hg] at hi
        exact hi.elim
    | ok p =>
      cases hg : g t i with
      | error e' =>
        rw [hf, hg] at hi
        exact hi.elim
      | ok q =>
        obtain ⟨o, s'⟩ := p
        obtain ⟨o', t'⟩ := q
        rw [hf, hg] at hi
        obtain ⟨rfl, hs'⟩ := hi
        -- The two runs go on from related states.
        have hrest := ih hs'
        simp only [ok_bind]
        cases hf' : run f s' is <;> cases hg' : run g t' is <;> rw [hf', hg'] at hrest
        · exact hrest
        · exact hrest.elim
        · exact hrest.elim
        · exact ⟨congrArg _ hrest.1, hrest.2⟩

/-- Two systems whose steps agree from related states agree on every run. -/
theorem run_agree {R : σ → τ → Prop} {f : σ → ι → Except Fault (ο × σ)}
    {g : τ → ι → Except Fault (ο × τ)} (hstep : ∀ s t i, R s t → Agree R (f s i) (g t i))
    {s : σ} {t : τ} (hst : R s t) (is : List ι) : Agree R (run f s is) (run g t is) :=
  run_agree_rest (R := fun _ => R) (fun s t i _ => hstep s t i) hst

/-- What every step that does not fault keeps, for the inputs of a run that does not fault, holds at
its end. -/
theorem run_keeps_of_mem {I : σ → Prop} {step : σ → ι → Except Fault (ο × σ)} {is : List ι}
    (keep : ∀ i ∈ is, ∀ s o s', I s → step s i = .ok (o, s') → I s') {s s' : σ} (hs : I s)
    {os : List ο} (hrun : run step s is = .ok (os, s')) : I s' := by
  induction is generalizing s os with
  | nil =>
    obtain ⟨-, rfl⟩ := Prod.mk.inj (Except.ok.inj hrun)
    exact hs
  | cons i is ih =>
    obtain ⟨⟨o, s₁⟩, hstep, hrun⟩ := bind_eq_ok.mp hrun
    dsimp only at hrun
    obtain ⟨⟨os', s₂⟩, hrest, hend⟩ := bind_eq_ok.mp hrun
    obtain ⟨-, rfl⟩ := Prod.mk.inj (Except.ok.inj hend)
    exact ih (fun j hj => keep j (List.mem_cons_of_mem _ hj))
      (keep i List.mem_cons_self s o s₁ hs hstep) hrest

theorem run_keeps {I : σ → Prop} {step : σ → ι → Except Fault (ο × σ)}
    (keep : ∀ s i o s', I s → step s i = .ok (o, s') → I s') {s s' : σ} (hs : I s) {is : List ι}
    {os : List ο} (hrun : run step s is = .ok (os, s')) : I s' :=
  run_keeps_of_mem (fun i _ s o s' => keep s i o s') hs hrun

/-! ## Properties of runs -/

variable {next : σ → ι → σ}

/-- `P` holds in every state of the run. -/
def Always (next : σ → ι → σ) (P : σ → Prop) : σ → List ι → Prop
  | s, [] => P s
  | s, i :: is => P s ∧ Always next P (next s i) is

/-- Every step of the run meets `G`. -/
def EachStep (next : σ → ι → σ) (G : σ → ι → Prop) : σ → List ι → Prop
  | _, [] => True
  | s, i :: is => G s i ∧ EachStep next G (next s i) is

instance EachStep.decidable (next : σ → ι → σ) (G : σ → ι → Prop) [∀ s i, Decidable (G s i)] :
    (s : σ) → (is : List ι) → Decidable (EachStep next G s is)
  | _, [] => .isTrue trivial
  | s, i :: is =>
    have := EachStep.decidable next G (next s i) is
    inferInstanceAs (Decidable (G s i ∧ EachStep next G (next s i) is))

/-- A condition that the inputs of the run meet in every state. -/
theorem eachStep_of_mem {G : σ → ι → Prop} {is : List ι} (h : ∀ i ∈ is, ∀ s, G s i) (s : σ) :
    EachStep next G s is := by
  induction is generalizing s with
  | nil => trivial
  | cons i is ih =>
    exact ⟨h i List.mem_cons_self s, ih (fun j hj => h j (List.mem_cons_of_mem i hj)) (next s i)⟩

/-- A condition that every step meets. -/
theorem eachStep_of_forall {G : σ → ι → Prop} (h : ∀ s i, G s i) (s : σ) (is : List ι) :
    EachStep next G s is :=
  eachStep_of_mem (fun i _ s => h s i) s

/-- Conditions that say the same of every step say the same of a run. -/
theorem eachStep_congr {G G' : σ → ι → Prop} (h : ∀ s i, G s i ↔ G' s i) (s : σ) (is : List ι) :
    EachStep next G s is ↔ EachStep next G' s is := by
  induction is generalizing s with
  | nil => exact Iff.rfl
  | cons i is ih => exact and_congr (h s i) (ih _)

theorem eachStep_append {G : σ → ι → Prop} {s : σ} {is js : List ι} :
    EachStep next G s (is ++ js) ↔ EachStep next G s is ∧ EachStep next G (is.foldl next s) js := by
  induction is generalizing s with
  | nil => exact (iff_of_eq (true_and _)).symm
  | cons i is ih => exact (and_congr_right fun _ => ih).trans and_assoc.symm

/-- A run that goes on where another one has ended. -/
theorem always_append {P : σ → Prop} {s : σ} {is js : List ι} :
    Always next P s (is ++ js) →
      Always next P s is ∧ Always next P (is.foldl next s) js := by
  induction is generalizing s with
  | nil =>
    intro h
    cases js with
    | nil => exact ⟨h, h⟩
    | cons j js => exact ⟨h.1, h⟩
  | cons i is ih =>
    intro h
    obtain ⟨h₁, h₂⟩ := ih h.2
    exact ⟨⟨h.1, h₁⟩, h₂⟩

theorem Always.head {P : σ → Prop} {s : σ} {is : List ι} (h : Always next P s is) : P s := by
  cases is with
  | nil => exact h
  | cons i is => exact h.1

theorem always_last {P : σ → Prop} {s : σ} {is : List ι} (h : Always next P s is) :
    P (is.foldl next s) := by
  induction is generalizing s with
  | nil => exact h
  | cons i is ih => exact ih h.2

/-- An invariant that a step under `G` keeps holds in every state of a run whose steps meet `G`. -/
theorem always_of_eachStep {I P : σ → Prop} {G : σ → ι → Prop} (sound : ∀ s, I s → P s)
    (keep : ∀ s i, I s → G s i → I (next s i)) {s : σ} (hs : I s) {is : List ι}
    (hG : EachStep next G s is) : Always next P s is := by
  induction is generalizing s with
  | nil => exact sound s hs
  | cons i is ih => exact ⟨sound s hs, ih (keep s i hs hG.1) hG.2⟩

/-- The exact condition for a property of runs. `I` is an invariant of the runs whose steps meet
`G`, and a step that does not meet `G` breaks the property. `L` is what is known of every step. -/
theorem always_iff_eachStep {I P : σ → Prop} {L G : σ → ι → Prop} (sound : ∀ s, I s → P s)
    (keep : ∀ s i, I s → L s i → G s i → I (next s i))
    (break_ : ∀ s i, I s → L s i → ¬G s i → ¬P (next s i)) {s : σ} (hs : I s)
    {is : List ι} (hL : EachStep next L s is) :
    Always next P s is ↔ EachStep next G s is := by
  induction is generalizing s with
  | nil => exact ⟨fun _ => trivial, fun _ => sound s hs⟩
  | cons i is ih =>
    by_cases hG : G s i
    · have hrest := ih (keep s i hs hL.1 hG) hL.2
      exact ⟨fun h => ⟨hG, hrest.mp h.2⟩, fun h => ⟨sound s hs, hrest.mpr h.2⟩⟩
    · exact ⟨fun h => absurd h.2.head (break_ s i hs hL.1 hG), fun h => absurd h.1 hG⟩

/-! ## The end of a run -/

/-- An invariant that a step under `G` keeps holds at the end of a run whose steps meet `G`. -/
theorem foldl_of_eachStep {I : σ → Prop} {G : σ → ι → Prop}
    (keep : ∀ s i, I s → G s i → I (next s i)) {s : σ} (hs : I s) {is : List ι}
    (hG : EachStep next G s is) : I (is.foldl next s) := by
  induction is generalizing s with
  | nil => exact hs
  | cons i is ih => exact ih (keep s i hs hG.1) hG.2

theorem foldl_keeps {I : σ → Prop} (keep : ∀ s i, I s → I (next s i)) {s : σ} (hs : I s)
    (is : List ι) : I (is.foldl next s) :=
  foldl_of_eachStep (G := fun _ _ => True) (fun s i h _ => keep s i h) hs
    (eachStep_of_forall (fun _ _ => trivial) s is)

/-- A step that does not meet `G` leads into `D`, which no step leaves. -/
theorem foldl_of_not_eachStep {I D : σ → Prop} {G : σ → ι → Prop}
    (keep : ∀ s i, I s → G s i → I (next s i)) (break_ : ∀ s i, I s → ¬G s i → D (next s i))
    (stay : ∀ s i, D s → D (next s i)) {s : σ} (hs : I s) {is : List ι}
    (hG : ¬EachStep next G s is) : D (is.foldl next s) := by
  induction is generalizing s with
  | nil => exact absurd trivial hG
  | cons i is ih =>
    by_cases hi : G s i
    · exact ih (keep s i hs hi) fun h => hG ⟨hi, h⟩
    · exact foldl_keeps stay (break_ s i hs hi) is

/-- What a step brings about exactly when it does not meet `G`, and no step takes back, holds at the
end of the runs with such a step. -/
theorem foldl_iff_not_eachStep {I D : σ → Prop} {G : σ → ι → Prop}
    (keep : ∀ s i, I s → I (next s i)) (step : ∀ s i, I s → (D (next s i) ↔ D s ∨ ¬G s i)) {s : σ}
    (hs : I s) (is : List ι) : D (is.foldl next s) ↔ D s ∨ ¬EachStep next G s is := by
  induction is generalizing s with
  | nil => exact (or_iff_left (not_not_intro trivial)).symm
  | cons i is ih =>
    calc D (is.foldl next (next s i))
        ↔ D (next s i) ∨ ¬EachStep next G (next s i) is := ih (keep s i hs)
      _ ↔ (D s ∨ ¬G s i) ∨ ¬EachStep next G (next s i) is := or_congr_left (step s i hs)
      _ ↔ D s ∨ ¬(G s i ∧ EachStep next G (next s i) is) := by rw [or_assoc, not_and_or]

end Runs
