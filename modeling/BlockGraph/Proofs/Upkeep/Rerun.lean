import BlockGraph.Proofs.Inference.Blame
import BlockGraph.Proofs.Upkeep.Adequacy

/-!
# Inferring twice

Inference may be run again on a tree that was not cleared in between.  It meets the same equations,
in a table that has learnt from them.

* `Posed.unchanged`: equations that all hold leave everything as it is;
* `Posed.error_again`, `Posed.origin_again`: an equation that failed fails again, and one that held
  holds again, so the same connections have errors;
* `infer_twice`: a second inference of any part of a tree changes nothing if the first found no
  error.  If it found some, the second may get further before it breaks off at an equation that
  fails; then the types of the first become more special.
-/

namespace BlockGraph.Workspace

variable {w w' v u : Workspace} {Q : Block → Prop} {r root b : BlockId} {block : Block}
  {c : ConnectionId} {es : List Equation}

/-! ## The same equations once more -/

namespace Posed

variable (h : Posed es w v) (h' : Posed es v u) (ht : w.types.Sound)
include h h' ht

/-- The same connections have errors. -/
theorem error_again (c : ConnectionId) : u.slotError c ≠ none ↔ v.slotError c ≠ none := by
  rw [h'.error]
  refine or_iff_left_of_imp ?_
  rintro ⟨e, he, hsocket, hfails⟩
  have himage := (h'.sound (h.sound ht)).solution_image
  exact (h.error c).2 (.inr ⟨e, he, hsocket, mt (h.holds_iff ht he (h'.solution himage)).2 hfails⟩)

/-- The errors are about the same equations. -/
theorem origin_again (hfree : ∀ e ∈ es, w.slotError e.socket = none)
    (hone : ∀ e ∈ es, ∀ e' ∈ es, e.socket = e'.socket → e.origin = e'.origin) (c : ConnectionId) :
    (u.slotError c).map TypeError.origin = (v.slotError c).map TypeError.origin := by
  have hagain := h.error_again h' ht c
  cases hv : v.slotError c with
  | none =>
    rw [hv] at hagain
    simpa using hagain
  | some error =>
    rw [hv] at hagain
    obtain ⟨error', hu⟩ := Option.ne_none_iff_exists'.1 (hagain.2 (by simp))
    rw [hu]
    rcases h'.origin hu with hsame | ⟨e, he, hsocket, horigin⟩
    · cases hv.symm.trans hsame
      rfl
    · rcases h.origin hv with hold | ⟨e', he', hsocket', horigin'⟩
      · rw [← hsocket, hfree e he] at hold
        cases hold
      · rw [Option.map_some, Option.map_some, ← horigin, ← horigin',
          hone e he e' he' (hsocket.trans hsocket'.symm)]

/-- The types become instances. -/
theorem shows_again (hv : v.Poised root) :
    u.Shows root ((v.reading v.types.image).subst u.types.image) := by
  have hkept := h'.toKeepsSlots
  have hsound := h'.sound (h.sound ht)
  refine shows_iff.2 fun a ha => ?_
  obtain ⟨ty, hty, hcovers⟩ := hv.held (hkept.retypes.sameGraph.symm.holderBelow ha)
  refine ⟨ty, (hkept.typeAt a).trans hty, ?_⟩
  rw [Typing.typeAt_subst, reading_typeAt hty,
    (h'.solution hsound.solution_image).subst_image (h.sound ht) hcovers,
    hsound.resolve_eq (hcovers.mono hkept.size.ge)]

end Posed

/-! ## Parts of trees that are up to date -/

section Laid

variable (hlaid : ∀ {block : Block}, Q block → block.Laid) (h : Upheld Q True w)
  (htyped : w.isTyped = true)
include hlaid h htyped

/-- Trees that are up to date have types throughout, whether or not they have errors. -/
theorem Upheld.exists_shows (hr : r ∈ w.top) : ∃ τ : Typing, w.Shows r τ := by
  have hw := h.standing.inOrder
  have hkeeps := h.standing.keepsTree hlaid (h.here htyped r hr id)
  obtain ⟨ty, w', π, hreinfer, hagree⟩ := h.exists_reinfer htyped hr
  obtain ⟨x, done, base, -, -, hready, hsolving⟩ :=
    exists_solving_of_reinfer hw htyped (hw.live_of_top hr) hkeeps hreinfer
  exact ⟨_, hagree.shows (retypes_reinfer hreinfer).sameGraph (hready.shows hsolving)⟩

/-- What a use is bound to has a type that the table knows. -/
theorem Upheld.covers_value {x : VariableId} (huse : w.UseAt b c x) :
    ∃ b' block', w.blocks[b']? = some block' ∧ block'.kind.isBinder = true ∧
      w.ownVariable b' = .ok x ∧ ∃ ty, w.boundType x = some ty ∧ w.types.Covers ty := by
  obtain ⟨block, -, -, hblock, -⟩ := id huse
  obtain ⟨r, -, hr, hbelow⟩ := h.standing.inOrder.exists_root hblock
  have hbinder := (h.standing.keepsTree hlaid (h.here htyped r hr id)).bound hbelow huse
  obtain ⟨τ, hshows⟩ := h.exists_shows hlaid htyped hr
  obtain ⟨ty, hty, hresolve⟩ := shows_iff.1 hshows (.inr x) hbinder
  obtain ⟨b', block', -, hblock', hkind, hown⟩ := hbinder
  exact ⟨b', block', hblock', hkind, hown, ty, hty, Table.covers_of_resolve hresolve⟩

/-- Any part of a tree can be cleared, and its equations can be put up then. -/
theorem Upheld.exists_poised (hroot : w.blocks[root]? = some block) :
    ∃ w0, w.clearTypes root = .ok w0 ∧ Retypes w w0 ∧ w0.Poised root ∧ w0.ErrorFree root := by
  have hw := h.standing.inOrder
  have hlayout : ∀ {b : BlockId} {block : Block}, w.Below root b → w.blocks[b]? = some block →
      w.KeepsLayout b block := fun _ hblock =>
      h.standing.owned.keepsLayout hblock (hlaid (h.standing.block hblock))
  obtain ⟨w0, done, base, hclear, hdone, hcleared⟩ := exists_clearTypes hw htyped hroot hlayout
  have hretypes := hcleared.retypes
  have hsame := hretypes.sameGraph
  refine ⟨w0, hclear, hretypes, (hw.keeps hretypes.keeps).poised (fun {b block} hbelow hblock => ?_)
    (hcleared.covers hw hlayout hdone) fun {b c x} _ huse => ?_,
    hcleared.errorFree hdone⟩
  · rw [hsame.below_eq] at hbelow
    rw [hsame.blocks] at hblock
    exact (hlayout hbelow hblock).retypes hretypes
  · obtain ⟨b', block', hblock', hkind, hown, ty, hty, hcovers⟩ :=
      h.covers_value hlaid htyped (hsame.symm.useAt huse)
    by_cases hbelow : w.Below root b'
    · exact hcleared.covers hw hlayout hdone (a := .inr x)
        (hsame.binderBelow ⟨b', block', hbelow, hblock', hkind, hown⟩)
    · -- a declaration elsewhere is as it was
      obtain ⟨found, hfound, rfl, -⟩ :=
        h.standing.owned.var hblock' ((ownVariable_eq_ok hblock').1 hown)
      have hrun := hclear
      simp only [clearTypes, htyped, Bool.not_true, Bool.false_eq_true, if_false,
        bind_eq_ok] at hrun
      obtain ⟨order, horder, hfold⟩ := hrun
      rw [clearBlock_eq] at hfold
      have hkept := (retypesIn_renewBlocks hw h.standing.owned hroot horder hfold).agree.var
        hfound hbelow
      refine ⟨ty, ?_, hcovers.mono hcleared.size⟩
      obtain ⟨found', hfound', heq⟩ := Option.map_eq_some_iff.1 hkept
      rw [boundType, hfound', ← hty, boundType, hfound]
      exact congrArg Variable.type? heq

end Laid

/-- **Inferring twice.**  In a typed workspace that edits have led to, any block can be cleared with
what is below it, inferred, and inferred again without being cleared.  If the first inference finds
no error, the second changes nothing.  In any case the same connections have errors after it, each
for the same equation, and the types of sockets and declarations are those of the first or more
special ones. -/
theorem infer_twice (hw : w.ReachableBy Call.IsEdit) (htyped : w.isTyped = true)
    (hroot : w.containsBlock root = true) :
    ∃ w0 ty w1 ty' w2, w.clearTypes root = .ok w0 ∧ w0.infer root = .ok (ty, w1) ∧
      w1.infer root = .ok (ty', w2) ∧ (w1.ErrorFree root → ty' = ty ∧ w2 = w1) ∧
      (∀ c, (w2.slotError c).map TypeError.origin = (w1.slotError c).map TypeError.origin) ∧
      ∃ (τ : Typing) (σ : Nat → Ty), w1.Shows root τ ∧ w2.Shows root (τ.subst σ) := by
  have h : Upheld Block.Regular True w := hw.upheld Block.steady_regular
  obtain ⟨block, hblock⟩ := containsBlock_iff.1 hroot
  obtain ⟨w0, hclear, hretypes, hpoised, hfree⟩ := h.exists_poised (fun hb => hb.laid) htyped hblock
  have hblock0 : w0.blocks[root]? = some block := by rw [hretypes.sameGraph.blocks, hblock]
  have htyped0 : w0.isTyped = true := by rw [hretypes.rest]; exact htyped
  obtain ⟨order, ty, w1, hmem, hinfer, hty, hfirst⟩ := hpoised.exists_infer htyped0 hblock0
  have hsound := hpoised.inOrder.sound
  have hpoised1 := hfirst.toKeepsSlots.poised hpoised
  obtain ⟨order', ty', w2, hmem', hinfer', hty', hsecond⟩ := hpoised1.exists_infer
    (by rw [hfirst.retypes.rest]; exact htyped0) (by rw [hfirst.retypes.sameGraph.blocks, hblock0])
  -- the second inference meets the equations of the first
  have hequations : ∀ e, e ∈ w1.equations order' ↔ e ∈ w0.equations order := fun e => by
    rw [hfirst.toKeepsSlots.equations, mem_equations, mem_equations]
    simp only [hmem, hmem', hfirst.retypes.sameGraph.below_eq]
  replace hsecond := hsecond.congr hequations
  have hsocket : ∀ e ∈ w0.equations order, ∃ connection, w0.connections[e.socket]? =
      some connection ∧ w0.Below root connection.block := fun e he => by
    obtain ⟨b, hb, he⟩ := mem_equations.1 he
    exact hpoised.inOrder.below_of_equation ((hmem _).1 hb) he
  refine ⟨w0, ty, w1, ty', w2, hclear, hinfer, hinfer', fun hfree1 => ?_, ?_, _, _, hpoised1.shows,
    hfirst.shows_again hsecond hsound hpoised1⟩
  · have hholds : ∀ e ∈ w0.equations order, e.Holds w1.types.image := fun e he => by
      by_contra hfails
      obtain ⟨connection, hc, hb⟩ := hsocket e he
      obtain ⟨new, hnew, hblock', -⟩ := hfirst.retypes.sameGraph.connection hc
      have herror := (hfirst.error e.socket).2 (.inr ⟨e, he, rfl, hfails⟩)
      rw [slotError_eq hnew] at herror
      exact herror
        (hfree1 _ new hnew (by rw [hfirst.retypes.sameGraph.below_eq, hblock']; exact hb))
    obtain rfl := hsecond.unchanged hholds
    exact ⟨Except.ok.inj (hty'.symm.trans hty), rfl⟩
  · refine hfirst.origin_again hsecond hsound (fun e he => ?_) fun e he e' he' =>
      hpoised.inOrder.origin_eq he he'
    obtain ⟨connection, hc, hb⟩ := hsocket e he
    rw [slotError_eq hc]
    exact hfree _ connection hc hb

/-- A function over a pair that is used as its own second component.  The equation of that use fails
half-way, before a later one says that the second component is a pair as well. -/
def nestedPair : Except Fault Workspace :=
  [Call.fromRecord (.node { tag := "lambda", id := ⟨1⟩ }
    [("RETURN", .node { tag := "pair_create", id := ⟨2⟩ }
      [("FIRST", .node { tag := "logic_ternary", id := ⟨3⟩ }
        [("THEN", .node { tag := "pair_second", id := ⟨4⟩ }
          [("PAIR", .node { tag := "variables_get", id := ⟨5⟩ } [] none)] none),
        ("ELSE", .node { tag := "variables_get", id := ⟨6⟩ } [] none)] none),
      ("SECOND", .node { tag := "pair_first", id := ⟨7⟩ }
        [("PAIR", .node { tag := "pair_second", id := ⟨8⟩ }
          [("PAIR", .node { tag := "variables_get", id := ⟨9⟩ } [] none)] none)] none)] none)]
          none)].foldlM
    Call.run (Workspace.new {})

/-- There the second inference finds that both pairs have first components of one type, and the
error at the use has another text. -/
theorem infer_twice_nestedPair : ∃ w w0 ty w1 ty' w2, nestedPair = .ok w ∧
    w.clearTypes ⟨1⟩ = .ok w0 ∧ w0.infer ⟨1⟩ = .ok (ty, w1) ∧ w1.infer ⟨1⟩ = .ok (ty', w2) ∧
    ty.map Ty.text = some "(Pair<?81, Pair<?89, ?90>>) -> Pair<Pair<?89, ?90>, ?89>" ∧
    ty'.map Ty.text = some "(Pair<?81, Pair<?81, ?90>>) -> Pair<Pair<?81, ?90>, ?81>" ∧
    (w2.slotError ⟨12⟩).map TypeError.message ≠ (w1.slotError ⟨12⟩).map TypeError.message ∧
    (w2.slotError ⟨12⟩).map TypeError.origin = (w1.slotError ⟨12⟩).map TypeError.origin ∧
    ∃ (τ : Typing) (σ : Nat → Ty), w1.Shows ⟨1⟩ τ ∧ w2.Shows ⟨1⟩ (τ.subst σ) := by
  obtain ⟨w, hrun, htyped, hroot, hchecks⟩ : ∃ w, nestedPair = .ok w ∧ w.isTyped = true ∧
      w.containsBlock ⟨1⟩ = true ∧ ((w.clearTypes ⟨1⟩).toOption.any fun w0 =>
        (w0.infer ⟨1⟩).toOption.any fun first => (first.2.infer ⟨1⟩).toOption.any fun second =>
          decide ( first.1.map Ty.text =
            some "(Pair<?81, Pair<?89, ?90>>) -> Pair<Pair<?89, ?90>, ?89>" ∧
          second.1.map Ty.text = some "(Pair<?81, Pair<?81, ?90>>) -> Pair<Pair<?81, ?90>, ?81>" ∧
          (second.2.slotError ⟨12⟩).map TypeError.message ≠ (first.2.slotError ⟨12⟩).map
            TypeError.message)) = true :=
    exists_ok_of_any (by decide +kernel)
  have hreachable : w.ReachableBy Call.IsEdit :=
    (ReachableBy.new {}).foldlM (by simp [Call.IsEdit]) hrun
  obtain ⟨w0, ty, w1, ty', w2, hclear, hfirst, hsecond, -, horigin, hshows⟩ :=
    infer_twice hreachable htyped hroot
  rw [hclear, Except.toOption, Option.any_some, hfirst, Except.toOption, Option.any_some, hsecond,
    Except.toOption, Option.any_some, decide_eq_true_eq] at hchecks
  exact ⟨w, w0, ty, w1, ty', w2, hrun, hclear, hfirst, hsecond, hchecks.1, hchecks.2.1, hchecks.2.2,
    horigin ⟨12⟩, hshows⟩

end BlockGraph.Workspace
