import BlockGraph.Proofs.Ty.Principal
import BlockGraph.Proofs.Ty.Repetition

/-!
# Where unification breaks off

A clash is reported with the two types that clash.  `unify_leftmost` says which they are: in the
table that is left, they stand at one position of the two resolved types, the first side's in the
first; their outermost forms differ, the forms above them agree, and everything to the left of them
is equal (`Ty.Clashes`).

The proof goes backwards along the loop over pairs, with the types resolved in the table that it
ends with.  Whatever the loop has put behind it is equal there, so the first clash among the pairs
after a round is the first clash among the pairs before it (`FirstClash.parts`), at a position
longer by one step where a pair was taken apart.
-/

namespace BlockGraph

open Relation

variable {a b x y : Ty} {p : List Nat} {e f : Ty}

/-! ## Positions -/

namespace Ty

/-- What stands at a position, given by the number of the part at each step down. -/
def at? (ty : Ty) : List Nat → Option Ty
  | [] => some ty
  | i :: p => ty.parts[i]?.bind (·.at? p)

/-- A position parts from another by a step to the left. -/
def LeftOf : List Nat → List Nat → Prop
  | i :: q, j :: p => i < j ∨ i = j ∧ LeftOf q p
  | _, _ => False

/-- `e` in `x` and `f` in `y` are the leftmost parts, both at position `p`, whose outermost forms
differ. -/
structure Clashes (x y : Ty) (p : List Nat) (e f : Ty) : Prop where
  left : x.at? p = some e
  right : y.at? p = some f
  differ : e.isVar = false ∧ f.isVar = false ∧ e.form ≠ f.form
  above : ∀ q, q <+: p → q ≠ p → ∃ x' y', x.at? q = some x' ∧ y.at? q = some y' ∧ x'.form = y'.form
  before : ∀ q, LeftOf q p → x.at? q = y.at? q

/-- A clash within parts that nothing to the left of them tells apart. -/
theorem Clashes.within {i : Nat} {x' y' : Ty} (h : Clashes x' y' p e f) (hform : x.form = y.form)
    (hx : x.parts[i]? = some x') (hy : y.parts[i]? = some y')
    (hbefore : ∀ j < i, x.parts[j]? = y.parts[j]?) : Clashes x y (i :: p) e f where
  left := by rw [at?, hx, Option.bind_some, h.left]
  right := by rw [at?, hy, Option.bind_some, h.right]
  differ := h.differ
  above q hq hne := by
    cases q with
    | nil => exact ⟨x, y, rfl, rfl, hform⟩
    | cons j q =>
      obtain ⟨rfl, hshort⟩ := List.cons_prefix_cons.1 hq
      obtain ⟨u, v, hu, hv, heq⟩ := h.above q hshort fun h => hne (by rw [h])
      exact ⟨u, v, by rw [at?, hx, Option.bind_some, hu], by rw [at?, hy, Option.bind_some, hv],
        heq⟩
  before q hq := by
    cases q with
    | nil => exact hq.elim
    | cons j q =>
      rcases hq with hlt | ⟨rfl, hq⟩
      · rw [at?, at?, hbefore j hlt]
      · rw [at?, at?, hx, hy, Option.bind_some, Option.bind_some, h.before q hq]

end Ty

namespace Table

open Loop

variable {t t' : Table} {rest pairs pairs' : List (Ty × Ty)} {σ : Nat → Ty} {clash : Clash}

/-! ## The first clash among pairs -/

/-- Of some pairs, resolved by `σ`, the first that are not equal clash. -/
def FirstClash (σ : Nat → Ty) (pairs : List (Ty × Ty)) (e f : Ty) : Prop :=
  ∃ before a b after p, pairs = before ++ (a, b) :: after ∧ Unifies σ before ∧
    Ty.Clashes (a.subst σ) (b.subst σ) p e f

theorem FirstClash.cons (h : FirstClash σ rest e f) (heq : a.subst σ = b.subst σ) :
    FirstClash σ ((a, b) :: rest) e f := by
  obtain ⟨before, a', b', after, p, rfl, hbefore, hclash⟩ := h
  exact ⟨(a, b) :: before, a', b', after, p, rfl, (unifies_cons ..).2 ⟨heq, hbefore⟩, hclash⟩

/-- What clashes first when a pair is taken apart clashed first before. -/
theorem FirstClash.parts (hform : a.form = b.form) (ha : a.isVar = false) (hb : b.isVar = false)
    (h : FirstClash σ (a.parts.zip b.parts ++ rest) e f) : FirstClash σ ((a, b) :: rest) e f := by
  obtain ⟨before, a', b', after, p, heq, hbefore, hclash⟩ := h
  have hlength := Ty.length_parts_of_form hform
  have hsubst : (a.subst σ).form = (b.subst σ).form :=
    by rw [Ty.form_subst σ ha, Ty.form_subst σ hb, hform]
  rcases List.append_eq_append_iff.1 heq with ⟨front, rfl, hrest⟩ | ⟨back, hzip, hback⟩
  · -- all parts are equal, so the clash is behind the pair
    rw [unifies_append, unifies_zip σ hlength] at hbefore
    refine FirstClash.cons ⟨front, a', b', after, p, hrest, hbefore.2, hclash⟩ ?_
    rw [Ty.subst_eq_iff_parts ha hb hform, hbefore.1]
  cases back with
  | nil =>
    rw [List.append_nil] at hzip
    rw [← hzip, unifies_zip σ hlength] at hbefore
    refine FirstClash.cons ⟨[], a', b', after, p, by simpa using hback.symm, by simp, hclash⟩ ?_
    rw [Ty.subst_eq_iff_parts ha hb hform, hbefore]
  | cons pair back =>
    obtain ⟨rfl, rfl⟩ := List.cons.inj hback
    -- the clash is within the pair, below the part that the pair before it leads to
    have hget : ∀ j : Nat, (a.parts.zip b.parts)[j]? = (before ++ (a', b') :: back)[j]? :=
      fun j => by rw [hzip]
    have hpart := hget before.length
    rw [List.getElem?_append_right le_rfl, Nat.sub_self, List.getElem?_cons_zero,
      List.getElem?_zip_eq_some] at hpart
    refine ⟨[], a, b, rest, before.length :: p, rfl, by simp,
      hclash.within hsubst ?_ ?_ fun j hj => ?_⟩
    · rw [Ty.parts_subst σ ha, List.getElem?_map, hpart.1, Option.map_some]
    · rw [Ty.parts_subst σ hb, List.getElem?_map, hpart.2, Option.map_some]
    · have hearlier := hget j
      rw [List.getElem?_append_left hj, List.getElem?_eq_getElem hj,
        List.getElem?_zip_eq_some] at hearlier
      rw [Ty.parts_subst σ ha, Ty.parts_subst σ hb, List.getElem?_map, List.getElem?_map,
        hearlier.1, hearlier.2, Option.map_some, Option.map_some, hbefore _ (List.getElem_mem hj)]

/-! ## One round -/

/-- A round that goes on takes a pair apart, or makes it equal. -/
theorem compareRound_eq_inl (h : t.compareRound rest a b = .inl (t', pairs')) :
    a.isVar = false ∧ b.isVar = false ∧ a.form = b.form ∧ t' = t ∧
      pairs' = a.parts.zip b.parts ++ rest ∨ pairs' = rest ∧ t.compareRound
      [] a b = .inl (t', []) := by
  have hcarry : ∀ {o : Outcome}, carryOn rest o = .inl (t', pairs') →
      pairs' = rest ∧ carryOn [] o = .inl (t', []) := by
    intro o ho
    cases o with
    | done t1 => cases ho; exact ⟨rfl, rfl⟩
    | stopped why t1 => cases ho
  rcases Ty.pair_cases a b with ⟨v, w, rfl, rfl⟩ | ⟨v, rfl, hty⟩ | ⟨v, hty, rfl⟩ | ⟨hvar, hvar'⟩
  · exact .inr (hcarry h)
  · rw [compareRound_assign hty] at h ⊢
    exact .inr (hcarry h)
  · rw [compareRound_assigned hty] at h ⊢
    exact .inr (hcarry h)
  · by_cases hform : a.form = b.form
    · rw [compareRound_parts hvar hvar' hform] at h
      cases h
      exact .inl ⟨hvar, hvar', hform, rfl, rfl⟩
    · rw [compareRound_differ hvar hvar' hform] at h
      cases h

/-- A round that ends in a clash has met two different forms, or a variable and a type that it is
not to be. -/
theorem compareRound_eq_clash (h : t.compareRound rest a b = .inr (.stopped (.clash clash) t')) :
    a.isVar = false ∧ b.isVar = false ∧ a.form ≠ b.form ∧
      t.mismatch a b = .stopped (.clash clash) t' ∨
        ∃ v ty, (a = .var v ∧ b = ty ∨ a = ty ∧ b = .var v) ∧ ty.isVar = false ∧
        t.assign v ty = .stopped (.clash clash) t' := by
  have hcarry : ∀ {o : Outcome}, carryOn rest o = .inr (.stopped (.clash clash) t') →
      o = .stopped (.clash clash) t' := by
    intro o ho
    cases o with
    | done t1 => cases ho
    | stopped why t1 => cases ho; rfl
  rcases Ty.pair_cases a b with ⟨v, w, rfl, rfl⟩ | ⟨v, rfl, hty⟩ | ⟨v, hty, rfl⟩ | ⟨hvar, hvar'⟩
  · have h := hcarry h
    rw [meet] at h
    split at h <;> cases h
  · rw [compareRound_assign hty] at h
    exact .inr ⟨v, b, .inl ⟨rfl, rfl⟩, hty, hcarry h⟩
  · rw [compareRound_assigned hty] at h
    exact .inr ⟨v, a, .inr ⟨rfl, rfl⟩, hty, hcarry h⟩
  · by_cases hform : a.form = b.form
    · rw [compareRound_parts hvar hvar' hform] at h
      cases h
    · rw [compareRound_differ hvar hvar' hform] at h
      exact .inl ⟨hvar, hvar', hform, Sum.inr.inj h⟩

/-- A variable that a class leads to occurs in what the class resolves to. -/
theorem Sound.mem_occurrences_image (ht : t.Sound) {v s : Nat} (hv : t.Unbound v)
    (h : ReflTransGen t.Binds s v) : v ∈ (t.image s).occurrences := by
  induction h using ReflTransGen.head_induction_on with
  | refl => simp [hv.image ht]
  | head hs _ ih =>
    obtain ⟨-, ty, hty, u, hu, -, rfl⟩ := binds_iff.1 hs
    rw [ht.image_of_some hty, Ty.mem_occurrences_subst]
    exact ⟨u, hu, by rwa [ht.solution_image.root u]⟩

/-- What is true of a clash in the table that it leaves. -/
def Explains (t : Table) (pairs : List (Ty × Ty)) : Clash → Prop
  | .mismatch expected found => FirstClash t.image pairs expected found
  | .infinite v ty => t.Unbound v ∧ ty.isVar = false ∧ t.Covers ty ∧
  v ∈ (ty.subst t.image).occurrences

/-- The clash with which a round ends. -/
theorem Sound.explains_of_compareRound (ht : t.Sound) (ha : t.head a = .ok a)
    (hb : t.head b = .ok b) (hcov : t.Covers a ∧ t.Covers b)
    (h : t.compareRound rest a b = .inr (.stopped (.clash clash) t')) :
    t' = t ∧ t.Explains ((a, b) :: rest) clash := by
  rcases compareRound_eq_clash h with ⟨hvar, hvar', hform, hmismatch⟩ | ⟨v, ty, hpair, hty, hassign⟩
  · simp only [mismatch, ht.resolve_eq hcov.1, ht.resolve_eq hcov.2, proceed] at hmismatch
    cases hmismatch
    refine ⟨rfl, [], a, b, rest, [], rfl, by simp, rfl, rfl, ?_, fun q hq hne => ?_, fun q hq => ?_⟩
    · exact ⟨Ty.isVar_subst _ hvar, Ty.isVar_subst _ hvar',
        by rwa [Ty.form_subst _ hvar, Ty.form_subst _ hvar']⟩
    · exact absurd (List.prefix_nil.1 hq) hne
    · cases q <;> exact hq.elim
  · have hv : t.Unbound v := by
      rcases hpair with ⟨rfl, -⟩ | ⟨-, rfl⟩
      · exact ht.unbound_of_head ha
      · exact ht.unbound_of_head hb
    have hcov : t.Covers ty := by
      rcases hpair with ⟨-, rfl⟩ | ⟨rfl, -⟩
      · exact hcov.2
      · exact hcov.1
    rcases ht.assign_cases hv ty with ⟨hdone, -⟩ | ⟨hstop, hleads⟩ | ⟨fault, hfault, -⟩
    · cases hdone.symm.trans hassign
    · cases hstop.symm.trans hassign
      obtain ⟨u, hu, hreach⟩ := hleads hcov
      refine ⟨rfl, hv, hty, hcov, Ty.mem_occurrences_subst.2 ⟨u, hu, ?_⟩⟩
      rw [ht.solution_image.root u]
      exact ht.mem_occurrences_image hv hreach
    · cases hfault.symm.trans hassign

/-- What clashes first after a round that goes on clashed first before it, seen from any later
table. -/
theorem Sound.firstClash_of_compareRound (ht : t.Sound) (ha : t.head a = .ok a)
    (hb : t.head b = .ok b) (h : t.compareRound rest a b = .inl (t', pairs')) (hσ : t'.Solution σ)
    (hclash : FirstClash σ pairs' e f) :
    FirstClash σ ((a, b) :: rest) e f := by
  rcases compareRound_eq_inl h with ⟨hvar, hvar', hform, rfl, rfl⟩ | ⟨rfl, halone⟩
  · exact hclash.parts hform hvar hvar'
  · have hspec := ht.compareRound_spec [] ha hb
    rw [halone] at hspec
    exact hclash.cons ((unifies_cons ..).1 ((hspec.solution_iff σ).1 ⟨hσ, unifies_nil σ⟩).2).1

/-! ## The whole loop -/

theorem FirstClash.of_heads (ht : t.Sound) (hσ : t.Solution σ) (ha : t.head a = .ok x)
    (hb : t.head b = .ok y) (h : FirstClash σ ((x, y) :: rest) e f) :
    FirstClash σ ((a, b) :: rest) e f := by
  obtain ⟨before, a', b', after, p, heq, hbefore, hclash⟩ := h
  cases before with
  | nil =>
    obtain ⟨hpair, rfl⟩ := List.cons.inj heq
    cases hpair
    rw [← hσ.head ht ha, ← hσ.head ht hb] at hclash
    exact ⟨[], a, b, rest, p, rfl, hbefore, hclash⟩
  | cons pair before =>
    obtain ⟨rfl, rfl⟩ := List.cons.inj heq
    rw [unifies_cons, ← hσ.head ht ha, ← hσ.head ht hb] at hbefore
    exact ⟨(a, b) :: before, a', b', after, p, rfl, (unifies_cons ..).2 hbefore, hclash⟩

/-- The clash with which the loop ends, told of the pairs that it began with. -/
theorem Sound.explains_of_ends (ht : t.Sound) (hcov : t.CoversAll pairs)
    (h : Ends unifyRound (t, pairs) (.stopped (.clash clash) t')) : t'.Explains pairs clash := by
  generalize hs : (t, pairs) = s at h
  generalize ho : Outcome.stopped (.clash clash) t' = o at h
  induction h generalizing t pairs with
  | @stop s o hround =>
    subst hs ho
    cases pairs with
    | nil => cases hround
    | cons pair rest =>
      obtain ⟨a, b⟩ := pair
      have hpair := ((coversAll_cons ..).1 hcov).1
      rw [unifyRound] at hround
      split at hround
      · next x y ha hb =>
        obtain ⟨rfl, hexplains⟩ := ht.explains_of_compareRound (ht.head_head ha) (ht.head_head hb)
          ⟨ht.covers_head hpair.1 ha, ht.covers_head hpair.2 hb⟩ hround
        cases clash with
        | mismatch expected found => exact FirstClash.of_heads ht ht.solution_image ha hb hexplains
        | infinite v ty => exact hexplains
      · cases hround
      · cases hround
  | @next s s' o hround hends ih =>
    subst hs ho
    obtain ⟨t1, pairs1⟩ := s'
    have hspec := ht.unifyRound_spec pairs
    rw [hround] at hspec
    have hcov1 : t1.CoversAll pairs1 := fun p hp =>
      ⟨hspec.grows.covers (hspec.covers hcov p hp).1, hspec.grows.covers (hspec.covers hcov p hp).2⟩
    have hexplains := ih hspec.sound hcov1 rfl rfl
    cases clash with
    | infinite v ty => exact hexplains
    | mismatch expected found =>
      -- the table at the end knows all that the tables before it knew
      obtain ⟨hsound, hgrows, -⟩ := hspec.sound.of_ends hends
      have hσ1 := hgrows.solution hsound.solution_image
      cases pairs with
      | nil => cases hround
      | cons pair rest =>
        obtain ⟨a, b⟩ := pair
        rw [unifyRound] at hround
        split at hround
        · next x y ha hb =>
          exact FirstClash.of_heads ht (hspec.grows.solution hσ1) ha hb
            (ht.firstClash_of_compareRound (ht.head_head ha) (ht.head_head hb) hround hσ1 hexplains)
        · cases hround
        · cases hround

end Table

namespace Context

/-- **A mismatch names the leftmost clash, with its sides kept.**  In a reachable context
unification of allocated types answers.  Success collects no error; otherwise the error that is
returned is the one that is collected, and has the origin that was given.  In the table that is
left, the types of a mismatch are the leftmost parts of the two resolved types that clash, and the
variable of an infinite type is unbound, stands for its class, and occurs in the resolved type,
which is no variable. -/
theorem unify_leftmost {c : Context} (hc : c.Reachable) {a b : Ty} (ha : c.table.Covers a)
    (hb : c.table.Covers b) (origin : Origin) :
    ∃ answer c', c.unify a b origin = (.ok answer, c') ∧ (answer = none → c'.errors = c.errors) ∧
      ∀ error, answer = some error → c'.errors = c.errors ++ [error] ∧ error.origin = origin ∧
        (∀ expected found, error.clash = .mismatch expected found →
          ∃ x y p, c'.table.resolve a = .ok x ∧ c'.table.resolve b = .ok y ∧
          x.Clashes y p expected found) ∧
        ∀ v ty, error.clash = .infinite v ty → c'.table.find v = .ok v ∧
          c'.table.probe v = .ok none ∧ ty.isVar = false ∧ ∃ r, c'.table.resolve ty = .ok r ∧
          v ∈ r.occurrences := by
  rcases unify_cases hc.sound ha hb with ⟨t, hu, -⟩ | ⟨clash, t, hu, -⟩
  · exact ⟨none, { c with table := t }, by rw [unify, hu], fun _ => rfl,
      fun error h => (by cases h)⟩
  · refine ⟨some ⟨clash, origin⟩, { c with table := t, errors := c.errors ++ [⟨clash, origin⟩] },
      by rw [unify, hu], (fun h => by cases h), fun error h => ?_⟩
    cases h
    obtain ⟨hsound, hgrows, -⟩ := hc.sound.unify_spec a b
    have hexplains := hc.sound.explains_of_ends (by simp [ha, hb]) (hu ▸ hc.sound.ends_unify a b)
    rw [hu] at hsound hgrows
    refine ⟨rfl, rfl, fun expected found h => ?_, fun v ty h => ?_⟩
    · cases h
      obtain ⟨before, a', b', after, p, hpairs, -, hclash⟩ := hexplains
      cases before with
      | nil =>
        cases hpairs
        exact ⟨_, _, p, hsound.resolve_eq (hgrows.covers ha), hsound.resolve_eq (hgrows.covers hb),
          hclash⟩
      | cons pair before => simp at hpairs
    · cases h
      obtain ⟨hv, hty, hcov, hmem⟩ := hexplains
      exact ⟨Table.find_eq_ok.2 ⟨hv.lt, hv.root_eq⟩, Table.probe_eq_ok.2 ⟨hv.lt, hv.value_eq⟩, hty,
        _, hsound.resolve_eq hcov, hmem⟩

/-- The second arguments of two pairs, of which the first resolve to lists of one variable. -/
theorem unify_leftmost_pair :
    ∃ c', listContext.unify (.pair (.var 0) (.list .int)) (.pair (.list (.var 1)) (.list .bool))
      .builtin = (.ok (some ⟨.mismatch .int .bool, .builtin⟩), c') ∧
    c'.errors = listContext.errors ++ [⟨.mismatch .int .bool, .builtin⟩] ∧
    ∃ x y p, c'.table.resolve (.pair (.var 0) (.list .int)) = .ok x ∧
      c'.table.resolve (.pair (.list (.var 1)) (.list .bool)) = .ok y ∧
      x.Clashes y p .int .bool := by
  obtain ⟨answer, c', hrun, -, herror⟩ :=
    unify_leftmost (c := listContext) ⟨_, rfl⟩ (a := .pair (.var 0) (.list .int))
      (b := .pair (.list (.var 1)) (.list .bool)) (by decide) (by decide) .builtin
  obtain rfl : answer = some ⟨.mismatch .int .bool, .builtin⟩ :=
    Except.ok.inj (congrArg Prod.fst hrun).symm
  obtain ⟨herrors, -, hclash, -⟩ := herror _ rfl
  exact ⟨c', hrun, herrors, hclash _ _ rfl⟩

end Context

end BlockGraph
