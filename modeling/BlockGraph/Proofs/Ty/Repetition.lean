import BlockGraph.Proofs.Ty.Descent

/-!
# Unifying what is equal

A table only ever learns: what solves it after a unification solved it before (`Grows.solution`),
whether the unification succeeded or broke off.  So an equation that holds stays true and one that
cannot hold stays false, whatever is unified later.  Unifying two types that resolve to one teaches
the table nothing at all (`Sound.unify_of_image`).
-/

namespace BlockGraph.Table

open Loop

variable {t t' : Table} {a b : Ty} {pairs pairs' rest : List (Ty × Ty)} {v : Nat}

/-- What solves a table solved it when it knew less. -/
theorem Grows.solution (h : t.Grows t') {σ : Nat → Ty} (hσ : t'.Solution σ) : t.Solution σ := by
  refine solution_iff.2 ⟨fun v => ?_, fun v ty hv => hσ.value (h.value_eq hv)⟩
  rw [hσ.root v, ← h.root_root, ← hσ.root]

variable (ht : t.Sound)
include ht

theorem Unbound.image (hv : t.Unbound v) : t.image v = .var v := by
  rw [ht.image_of_none hv.lt hv.value_eq, hv.root_eq]

/-- An unbound variable does not resolve to what another type resolves to. -/
theorem Unbound.image_ne (hv : t.Unbound v) (hty : a.isVar = false) :
    t.image v ≠ a.subst t.image := by
  intro heq
  have hvar := Ty.isVar_subst t.image hty
  rw [← heq, hv.image ht] at hvar
  cases hvar

/-- A round on two outermost forms that resolve to one type leaves the table as it is. -/
theorem Sound.table_of_compareRound (ha : t.head a = .ok a) (hb : t.head b = .ok b)
    (heq : a.subst t.image = b.subst t.image) (h : t.compareRound rest a b = .inl (t', pairs')) :
    t' = t := by
  rcases Ty.pair_cases a b with ⟨v, w, rfl, rfl⟩ | ⟨v, rfl, hty⟩ | ⟨v, hty, rfl⟩ | ⟨hvar, hvar'⟩
  · have hvw : v = w := by
      simpa [(ht.unbound_of_head ha).image ht, (ht.unbound_of_head hb).image ht] using heq
    rw [compareRound, meet, if_pos hvw] at h
    cases h
    rfl
  · exact absurd heq ((ht.unbound_of_head ha).image_ne ht hty)
  · exact absurd heq.symm ((ht.unbound_of_head hb).image_ne ht hty)
  · by_cases hform : a.form = b.form
    · rw [compareRound_parts hvar hvar' hform] at h
      cases h
      rfl
    · rw [compareRound_differ hvar hvar' hform] at h
      cases h

theorem Sound.table_of_unifyRound (heq : Unifies t.image pairs)
    (h : unifyRound (t, pairs) = .inl (t', pairs')) : t' = t := by
  cases pairs with
  | nil => cases h
  | cons p rest =>
    obtain ⟨a, b⟩ := p
    rw [unifyRound] at h
    split at h
    · next a' b' ha hb =>
      have himage := ht.solution_image
      rw [unifies_cons, himage.head ht ha, himage.head ht hb] at heq
      exact ht.table_of_compareRound (ht.head_head ha) (ht.head_head hb) heq.1 h
    · cases h
    · cases h

/-- A loop over pairs that resolve to one type each ends with the table it began with. -/
theorem Sound.ends_of_unifies (hcov : t.CoversAll pairs) (heq : Unifies t.image pairs) {o : Outcome}
    (h : Ends unifyRound (t, pairs) o) : o = .done t := by
  generalize hs : (t, pairs) = s at h
  induction h generalizing pairs with
  | @stop s o hround =>
    subst hs
    have hspec := ht.unifyRound_spec pairs
    rw [hround] at hspec
    rcases o with t' | ⟨c | f, t'⟩
    · obtain ⟨rfl, -⟩ := hspec
      rfl
    · exact absurd heq (hspec.2 hcov _ ht.solution_image)
    · exact absurd hcov hspec.2
  | @next s s' o hround _ ih =>
    subst hs
    obtain ⟨t', pairs'⟩ := s'
    obtain rfl := ht.table_of_unifyRound heq hround
    have hspec := ht.unifyRound_spec pairs
    rw [hround] at hspec
    exact ih (hspec.covers hcov) ((hspec.solution_iff _).2 ⟨ht.solution_image, heq⟩).2 rfl

/-- **Unifying two types that resolve to one changes nothing.** -/
theorem Sound.unify_of_image (ha : t.Covers a) (hb : t.Covers b)
    (heq : a.subst t.image = b.subst t.image) : t.unify a b = .done t := by
  have hends := ht.ends_unify a b
  exact ht.ends_of_unifies (by simp [ha, hb]) (by simpa using heq) hends

end BlockGraph.Table
