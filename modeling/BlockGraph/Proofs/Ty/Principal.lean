import BlockGraph.Ty.Context
import BlockGraph.Proofs.Ty.Descent

/-!
# Unification is sound, complete and most general

A context serves requests: allocate a variable, clear a slot, unify, try to unify, hand over the
errors.  `Context.Reachable` are the contexts that some sequence of requests leads to; requests may
fail, and may even mention variables that were never allocated.  In all of them the table is sound
(`Reachable.sound`).

`unify_principal` is the specification of unification in such a context.  It succeeds exactly if
some solution makes the two types equal; then the solutions left are exactly those, and the two
types resolve to one.  A trial gives the same verdict.
-/

namespace BlockGraph.Context

/-- What a context can be asked for. -/
inductive Request where
  | fresh
  | clear (slot : Ty)
  | unify (a b : Ty) (origin : Origin)
  | probe (a b : Ty)
  | takeErrors

/-- The context after a request, whatever its answer was. -/
def serve (c : Context) : Request → Context
  | .fresh => c.fresh.2
  | .clear slot => (c.clear slot).2
  | .unify a b origin => (c.unify a b origin).2
  | .probe a b => (c.probe a b).2
  | .takeErrors => c.takeErrors.2

/-- Some sequence of requests leads from the empty context to this one. -/
def Reachable (c : Context) : Prop := ∃ requests : List Request, requests.foldl serve empty = c

/-! ## What a request does -/

theorem unify_table (c : Context) (a b : Ty) (origin : Origin) :
    (c.unify a b origin).2.table = (c.table.unify a b).table := by
  unfold unify
  rcases c.table.unify a b with t | ⟨clash | f, t⟩ <;> rfl

theorem probe_table (c : Context) (a b : Ty) :
    (c.probe a b).2.table = c.table ∨ (c.probe a b).2.table = (c.table.unify a b).table := by
  unfold probe
  rcases c.table.unify a b with t | ⟨clash | f, t⟩
  · exact Or.inl rfl
  · exact Or.inl rfl
  · exact Or.inr rfl

/-- Every request keeps the table sound. -/
theorem sound_serve {c : Context} (hc : c.table.Sound) (r : Request) : (c.serve r).table.Sound := by
  cases r with
  | fresh | clear slot => exact hc.fresh
  | unify a b origin =>
    rw [serve, unify_table]
    exact (hc.unify_spec a b).1
  | probe a b =>
    rw [serve]
    rcases probe_table c a b with h | h <;> rw [h]
    · exact hc
    · exact (hc.unify_spec a b).1
  | takeErrors => exact hc

theorem Reachable.sound {c : Context} (hc : c.Reachable) : c.table.Sound := by
  obtain ⟨requests, rfl⟩ := hc
  suffices h : ∀ c : Context, c.table.Sound → (requests.foldl serve c).table.Sound from
    h empty Table.sound_empty
  induction requests with
  | nil => exact fun c hc => hc
  | cons r requests ih => exact fun c hc => ih (c.serve r) (sound_serve hc r)

/-! ## The verdict -/

/-- Some solution of the context makes the two types equal. -/
def Solvable (c : Context) (a b : Ty) : Prop := ∃ σ, c.table.Solution σ ∧ a.subst σ = b.subst σ

/-- Unification of allocated types ends in one of two ways.  The resolved types of the table it
leaves are a solution, which is why success means that there is one. -/
theorem unify_cases {c : Context} (hc : c.table.Sound) {a b : Ty} (ha : c.table.Covers a)
    (hb : c.table.Covers b) :
        (∃ t, c.table.unify a b = .done t ∧ t.Sound ∧ c.table.Grows t ∧ c.Solvable a b ∧
          ∀ σ, t.Solution σ ↔ c.table.Solution σ ∧ a.subst σ = b.subst σ) ∨
      ∃ clash t, c.table.unify a b = .stopped (.clash clash) t ∧ ¬ c.Solvable a b := by
  obtain ⟨hsound, hgrows, hconcl⟩ := hc.unify_spec a b
  have hcov : c.table.CoversAll [(a, b)] := by simp [ha, hb]
  rcases hu : c.table.unify a b with t | ⟨clash | f, t⟩ <;> rw [hu] at hsound hgrows hconcl
  · have hsol : ∀ σ, t.Solution σ ↔ c.table.Solution σ ∧ a.subst σ = b.subst σ :=
      fun σ => by simpa using hconcl σ
    have himage : t.Solution t.image := Table.Sound.solution_image hsound
    exact Or.inl ⟨t, rfl, hsound, hgrows, ⟨t.image, (hsol _).1 himage⟩, hsol⟩
  · refine Or.inr ⟨clash, t, rfl, ?_⟩
    rintro ⟨σ, hσ, heq⟩
    exact hconcl hcov σ hσ (by simpa using heq)
  · exact absurd hcov hconcl

/-- **Unification is sound, complete and most general.**  In a reachable context it always answers;
the answer is success exactly if the equation has a solution; the solutions it leaves are those of
the context that satisfy the equation, and both sides then resolve to one type.  A trial answers
likewise and leaves no trace. -/
theorem unify_principal {c : Context} (hc : c.Reachable) {a b : Ty} (ha : c.table.Covers a)
    (hb : c.table.Covers b) (origin : Origin) :
    (∃ answer, (c.unify a b origin).1 = .ok answer ∧ (answer = none ↔ c.Solvable a b)) ∧
      ((c.unify a b origin).1 = .ok none → (∀ σ, (c.unify a b origin).2.table.Solution σ ↔
          c.table.Solution σ ∧ a.subst σ = b.subst σ) ∧
        ∃ ty, (c.unify a b origin).2.table.resolve a = .ok ty ∧
          (c.unify a b origin).2.table.resolve b = .ok ty) ∧
      (∃ verdict, c.probe a b = (.ok verdict, c) ∧ (verdict = true ↔ c.Solvable a b)) := by
  rcases unify_cases hc.sound ha hb with ⟨t, hu, hsound, hgrows, hsolv, hsol⟩ | ⟨clash, t, hu, hno⟩
  · simp only [unify, probe, hu]
    refine ⟨⟨none, rfl, by simpa using hsolv⟩, fun _ => ⟨hsol, ?_⟩,
      ⟨true, rfl, by simpa using hsolv⟩⟩
    have himage := ((hsol t.image).1 hsound.solution_image).2
    refine ⟨a.subst t.image, hsound.resolve_eq (hgrows.covers ha), ?_⟩
    rw [hsound.resolve_eq (hgrows.covers hb), himage]
  · simp only [unify, probe, hu]
    refine ⟨⟨some ⟨clash, origin⟩, rfl, by simpa using hno⟩, fun h => ?_,
      ⟨false, rfl, by simpa using hno⟩⟩
    cases h

/-- Two variables, the first of them a list of the second. -/
def listContext : Context :=
  [Request.fresh, .fresh, .unify (.var 0) (.list (.var 1)) .builtin].foldl serve empty

theorem unify_principal_list :
    listContext.Solvable (.var 0) (.list .int) ∧ ¬ listContext.Solvable (.var 1) (.var 0) := by
  have hc : listContext.Reachable := ⟨_, rfl⟩
  have h0 : listContext.table.Covers (.var 0) := by decide
  have h1 : listContext.table.Covers (.var 1) := by decide
  have hlist : listContext.table.Covers (.list .int) := by decide
  have hyes : (listContext.unify (.var 0) (.list .int) .builtin).1 = .ok none := by rfl
  have hno : (listContext.unify (.var 1) (.var 0) .builtin).1 ≠ .ok none := by
    intro h
    cases h
  obtain ⟨⟨answer, hanswer, hiff⟩, -⟩ := unify_principal hc h0 hlist .builtin
  obtain ⟨⟨answer', hanswer', hiff'⟩, -⟩ := unify_principal hc h1 h0 .builtin
  refine ⟨hiff.1 (Except.ok.inj (hanswer.symm.trans hyes)), fun h => hno ?_⟩
  rw [hanswer', hiff'.2 h]

end BlockGraph.Context
