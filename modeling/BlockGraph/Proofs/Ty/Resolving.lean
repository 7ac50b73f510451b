import BlockGraph.Proofs.Ty.Termination

/-!
# Resolution gives a canonical form

Two types are equal under all solutions of a context exactly if they resolve to the same type
(`Table.Sound.subst_image_eq_iff`): a resolved type has only unbound roots for variables, resolving
it again changes nothing, and the resolved types are themselves a solution.

Resolution is a loop with two stacks, one of tasks and the other of resolved types
(`Table.resolveRound`).  It breaks off when a task does not find on the second stack what it is to
put together; since it ends with the resolved type it never does (`Loop.Ends.eq_of_visits`).
-/

namespace BlockGraph

namespace Table

variable {t : Table} {a b ty : Ty} {v : Nat}

/-! ## Resolved types -/

/-- The variables of a resolved type are unbound and stand for their class. -/
theorem Sound.root_of_mem_image (ht : t.Sound) (hv : v < t.size) :
    ∀ {u : Nat}, u ∈ (t.image v).occurrences → u < t.size ∧ t.root u = u ∧ t.value u = none := by
  refine ht.binding_induction (p := fun v => ∀ {u : Nat}, u ∈ (t.image v).occurrences →
    u < t.size ∧ t.root u = u ∧ t.value u = none) (fun v hv ih u hu => ?_) hv
  cases hvalue : t.value v with
  | none =>
    rw [ht.image_of_none hv hvalue, Ty.mem_occurrences_var] at hu
    subst hu
    exact ⟨root_lt ht.forest hv, root_root ht.forest v, (value_root ht.forest v).trans hvalue⟩
  | some inner =>
    rw [ht.image_of_some hvalue] at hu
    obtain ⟨u', hu', hu⟩ := Ty.mem_occurrences_subst.1 hu
    exact ih inner hvalue u' hu' hu

theorem Sound.root_of_mem_resolved (ht : t.Sound) (hcov : t.Covers ty) {u : Nat}
    (hu : u ∈ (ty.subst t.image).occurrences) : u < t.size ∧ t.root u = u ∧ t.value u = none := by
  obtain ⟨v, hv, hu⟩ := Ty.mem_occurrences_subst.1 hu
  exact ht.root_of_mem_image (hcov v hv) hu

theorem Sound.covers_resolved (ht : t.Sound) (hcov : t.Covers ty) : t.Covers (ty.subst t.image) :=
  fun _ hu =>
  (ht.root_of_mem_resolved hcov hu).1

/-- The most general solution tells types apart that some solution does not make equal. -/
theorem Sound.subst_image_eq_iff (ht : t.Sound) (ha : t.Covers a) (hb : t.Covers b) :
    a.subst t.image = b.subst t.image ↔ ∀ σ, t.Solution σ → a.subst σ = b.subst σ := by
  constructor
  · intro heq σ hσ
    rw [← hσ.subst_image ht ha, heq, hσ.subst_image ht hb]
  · exact fun h => h t.image ht.solution_image

end Table

/-! ## The loop -/

namespace Loop

variable {σ ρ : Type} {round : σ → σ ⊕ ρ} {s s' : σ} {r : ρ}

/-- Round after round, the loop comes from `s` to `s'`. -/
def Visits (round : σ → σ ⊕ ρ) : σ → σ → Prop := Relation.ReflTransGen fun s s' => round s = .inl s'

theorem Ends.of_visits (h : Ends round s r) (hs : Visits round s s') : Ends round s' r := by
  induction hs with
  | refl => exact h
  | tail _ hround ih =>
    cases ih with
    | stop hstop => exact absurd (hround.symm.trans hstop) (by simp)
    | next hnext rest =>
      cases Sum.inl.inj (hround.symm.trans hnext)
      exact rest

/-- Wherever the loop stops on its way, it stops with its result. -/
theorem Ends.eq_of_visits (h : Ends round s r) (hs : Visits round s s') {r' : ρ}
    (hstop : round s' = .inr r') :
    r' = r :=
  Ends.unique (.stop hstop) (h.of_visits hs)

end Loop

/-- **Resolution gives a canonical form.**  In a reachable context a type over allocated variables
resolves; the variables of the resolved type are unbound roots, it resolves to itself, and solutions
do not tell it from the type.  Two types resolve to one exactly if all solutions make them equal.
The loop with two stacks ends with the resolved type, and on its way there never breaks off, as it
would at a type missing from the second stack. -/
theorem Context.resolve_canonical {c : Context} (hc : c.Reachable) {a b : Ty}
    (ha : c.table.Covers a) (hb : c.table.Covers b) : ∃ a' b', c.table.resolve a = .ok a' ∧
      c.table.resolve b = .ok b' ∧
      (∀ v ∈ a'.occurrences, c.table.find v = .ok v ∧ c.table.probe v = .ok none) ∧
      c.table.resolve a' = .ok a' ∧ (∀ σ, c.table.Solution σ → a'.subst σ = a.subst σ) ∧
      (a' = b' ↔ ∀ σ, c.table.Solution σ → a.subst σ = b.subst σ) ∧
      Loop.Ends c.table.resolveRound ([.visit a], []) (some a') ∧
      ∀ s, Loop.Visits c.table.resolveRound ([.visit a], []) s →
      c.table.resolveRound s ≠ .inr none := by
  have ht := hc.sound
  have hends := ht.ends_resolve ha (ht.resolve_eq ha)
  refine ⟨_, _, ht.resolve_eq ha, ht.resolve_eq hb, fun v hv => ?_, ?_,
    fun σ hσ => hσ.subst_image ht ha, ht.subst_image_eq_iff ha hb, hends, fun s hs hstop => ?_⟩
  · obtain ⟨hlt, hroot, hvalue⟩ := ht.root_of_mem_resolved ha hv
    exact ⟨Table.find_eq_ok.2 ⟨hlt, hroot⟩, Table.probe_eq_ok.2 ⟨hlt, hvalue⟩⟩
  · rw [ht.resolve_eq (ht.covers_resolved ha), ht.solution_image.subst_image ht ha]
  · exact absurd (hends.eq_of_visits hs hstop) (Option.some_ne_none _).symm

/-- Where the first variable is a list of the second, a function from it is a function from such
lists. -/
theorem Context.resolve_canonical_list :
    let a : Ty := .fn (.var 0) (.pair (.var 1) (.var 0))
    let b : Ty := .fn (.list (.var 1)) (.pair (.var 1) (.list (.var 1)))
    listContext.Reachable ∧ listContext.table.Covers a ∧ listContext.table.Covers b ∧
      (∀ σ, listContext.table.Solution σ → a.subst σ = b.subst σ) ∧
      Loop.Ends listContext.table.resolveRound ([.visit a], []) (some b) := by
  intro a b
  have hc : listContext.Reachable := ⟨_, rfl⟩
  have ha : listContext.table.Covers a := by decide
  have hb : listContext.table.Covers b := by decide
  have hresolve : listContext.table.resolve a = .ok b ∧ listContext.table.resolve b = .ok b :=
    ⟨rfl, rfl⟩
  obtain ⟨a', b', ha', hb', -, -, -, hiff, hends, -⟩ := resolve_canonical hc ha hb
  cases hresolve.1.symm.trans ha'
  cases hresolve.2.symm.trans hb'
  exact ⟨hc, ha, hb, hiff.1 rfl, hends⟩

end BlockGraph
