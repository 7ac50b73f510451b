import BlockGraph.Proofs.Ty.Worklist

/-!
# The descent and the worklist agree

`Table.unify` goes down the structure of its first type and, at a bound variable, on into its value,
through a bounded number of bindings.  `ends_unify` says that it does what the loop of `unifyRound`
does: in a sound table the loop ends, and its outcome is that of `unify`.

The bound is never met.  The bindings on the way down to a subterm lie on one path of the binding
graph (`Trail`); the graph has no cycle, so their classes are all different, and there are no more
of them than variables.
-/

namespace BlockGraph.Table

open Relation Loop

variable {pairs : List (Ty × Ty)} {n : Nat} {t : Table} {a b ty : Ty} {p : Ty × Ty}
  {trail : Finset Nat} {o : Outcome} {again : Table → Ty → Ty → Outcome}

/-! ## Outcomes and the rest of the list -/

/-- The loop comes to `r` if it goes on with `rest` after an outcome. -/
def Outcome.Leads : Outcome → List (Ty × Ty) → Outcome → Prop
  | .done t, rest, r => Ends unifyRound (t, rest) r
  | .stopped why t, _, r => r = .stopped why t

/-- The loop treats the pairs, whatever stands behind them, as the outcome says. -/
def Handles (t : Table) (pairs : List (Ty × Ty)) (o : Outcome) : Prop :=
  ∀ rest r, o.Leads rest r → Ends unifyRound (t, pairs ++ rest) r

theorem ends_nil (t : Table) : Ends unifyRound (t, []) (.done t) := .stop rfl

theorem Handles.ends (h : t.Handles pairs o) : Ends unifyRound (t, pairs) o := by
  have hleads : o.Leads [] o := by
    cases o with
    | done t' => exact ends_nil t'
    | stopped why t' => rfl
  simpa using h [] o hleads

theorem handles_nil (t : Table) : t.Handles [] (.done t) := fun _ _ h => h

/-- One pair after the other. -/
theorem Handles.andThen {next : Table → Outcome} (h : t.Handles [p] o)
    (hnext : ∀ t', o = .done t' → t'.Handles pairs (next t')) :
    t.Handles (p :: pairs) (o.andThen next) := by
  intro rest r hr
  apply h (pairs ++ rest) r
  cases o with
  | done t' => exact hnext t' rfl rest r hr
  | stopped why t' => exact hr

/-- A round that comes to an outcome at once. -/
theorem handles_of_carryOn (h : ∀ rest, unifyRound (t, p :: rest) = carryOn rest o) :
    t.Handles [p] o := by
  intro rest r hr
  cases o with
  | done t' => exact .next (h rest) hr
  | stopped why t' =>
    cases hr
    exact .stop (h rest)

/-- A round that puts other pairs in the place of the first. -/
theorem handles_of_parts (parts : List (Ty × Ty))
    (h : ∀ rest, unifyRound (t, p :: rest) = .inl (t, parts ++ rest)) (hparts : t.Handles parts o) :
    t.Handles [p] o :=
  fun rest r hr => .next (h rest) (hparts rest r hr)

/-- Two pairs with the same first round. -/
theorem Handles.congr {q : Ty × Ty}
    (h : ∀ rest, unifyRound (t, p :: rest) = unifyRound (t, q :: rest)) (hq : t.Handles [q] o) :
    t.Handles [p] o := by
  intro rest r hr
  cases hq rest r hr with
  | stop hround => exact .stop ((h rest).trans hround)
  | next hround hends => exact .next ((h rest).trans hround) hends

theorem carryOn_mismatch (t : Table) (rest : List (Ty × Ty)) (a b : Ty) :
    carryOn rest (t.mismatch a b) = .inr (t.mismatch a b) := by
  rcases mismatch_eq t a b with ⟨x, y, h⟩ | ⟨f, h, -⟩ <;> rw [h] <;> rfl

/-- An outcome once the outermost forms of both sides are known. -/
theorem handles_of_heads {a' : Ty} {next : Ty → Outcome} (ha : t.head a = .ok a')
    (h : ∀ b', t.head b = .ok b' →
      (∀ rest, unifyRound (t, (a, b) :: rest) = t.compareRound rest a' b') → t.Handles
      [(a, b)] (next b')) :
    t.Handles [(a, b)] (t.proceed (t.head b) next) := by
  cases hb : t.head b with
  | error f =>
    exact handles_of_carryOn fun rest => by simp only [unifyRound, ha, hb, proceed, carryOn]
  | ok b' =>
    exact h b' hb fun rest => by simp only [unifyRound, ha, hb]

/-! ## Trails -/

/-- Bound classes from each of which the binding graph leads to every variable of a type. -/
structure Trail (t : Table) (trail : Finset Nat) (ty : Ty) : Prop where
  bound : ∀ s ∈ trail, t.root s = s ∧ ∃ inner, t.value s = some inner
  leads : ∀ s ∈ trail, ∀ v ∈ ty.occurrences, TransGen t.Binds s (t.root v)

theorem Trail.card_le (h : t.Trail trail ty) : trail.card ≤ t.size := by
  have hsub : trail ⊆ Finset.range t.size := by
    intro s hs
    obtain ⟨-, inner, hval⟩ := h.bound s hs
    exact Finset.mem_range.2 (lt_of_value_eq_some hval)
  simpa using Finset.card_le_card hsub

theorem Trail.of_subset (h : t.Trail trail a)
    (hsub : ∀ v ∈ b.occurrences, v ∈ a.occurrences) : t.Trail trail b :=
  ⟨h.bound, fun s hs v hv => h.leads s hs v (hsub v hv)⟩

theorem Trail.grows {t' : Table} (h : t.Trail trail ty) (hgrows : t.Grows t') :
    t'.Trail trail ty where
  bound s hs := by
    obtain ⟨hroot, inner, hval⟩ := h.bound s hs
    exact ⟨(hgrows.root_eq hval).trans hroot, inner, hgrows.value_eq hval⟩
  leads s hs v hv := by
    rw [← hgrows.root_root]
    exact hgrows.transGen_binds (h.leads s hs v hv)

/-- A step through a binding lengthens the trail: the class of the variable is not yet on it. -/
theorem Trail.through (ht : t.Sound) {v : Nat} {inner : Ty} (h : t.Trail trail (.var v))
    (hval : t.value v = some inner) :
    t.root v ∉ trail ∧ t.Trail (insert (t.root v) trail) inner := by
  have hmem : v ∈ (Ty.var v).occurrences := Ty.mem_occurrences_var.2 rfl
  have hvalr : t.value (t.root v) = some inner := (value_root ht.forest v).trans hval
  have hedge : ∀ u ∈ inner.occurrences, t.Binds (t.root v) (t.root u) := fun u hu =>
    binds_iff.2 ⟨root_root ht.forest v, inner, hvalr, u, hu, ht.covers hval u hu, rfl⟩
  refine ⟨fun hv => ht.acyclic _ (h.leads _ hv v hmem), ?_, ?_⟩
  · intro s hs
    rcases Finset.mem_insert.1 hs with rfl | hs
    · exact ⟨root_root ht.forest v, inner, hvalr⟩
    · exact h.bound s hs
  · intro s hs u hu
    rcases Finset.mem_insert.1 hs with rfl | hs
    · exact TransGen.single (hedge u hu)
    · exact (h.leads s hs v hmem).tail (hedge u hu)

/-! ## The descent -/

/-- The pairs of two argument lists, one after the other.  Each pair may let the table grow, so the
trail is carried along. -/
theorem handles_unifyArgs {as : List Ty}
    (hargs : ∀ a ∈ as, ∀ (t : Table) (b : Ty), t.Sound → t.Trail trail a → t.size = n →
      t.Handles [(a, b)] (a.unifyWith again t b)) (bs : List Ty) (ht : t.Sound) (hn : t.size = n)
    (htrail : ∀ a ∈ as, t.Trail trail a) : t.Handles (as.zip bs) (Ty.unifyArgs again t as bs) := by
  induction as generalizing bs t with
  | nil => exact handles_nil t
  | cons a as ih =>
    cases bs with
    | nil => exact handles_nil t
    | cons b bs =>
      have hfirst := hargs a List.mem_cons_self t b ht (htrail a List.mem_cons_self) hn
      rw [Ty.unifyArgs, List.zip_cons_cons]
      refine hfirst.andThen fun t' hdone => ?_
      rw [hdone] at hfirst
      obtain ⟨hsound, hgrows, -⟩ := ht.of_ends hfirst.ends
      exact ih (fun a' ha' => hargs a' (List.mem_cons_of_mem _ ha')) bs hsound
        (hgrows.size_eq.trans hn) fun a' ha' =>
        (htrail a' (List.mem_cons_of_mem _ ha')).grows hgrows

/-- The walk down one term.  `again` is called behind a binding, where the trail is longer by one
class. -/
theorem handles_unifyWith {depth : Nat}
    (hagain : ∀ (t : Table) (trail : Finset Nat) (a b : Ty), t.Sound → t.Trail trail a →
      t.size < depth + trail.card → t.Handles [(a, b)] (again t a b))
    (hdepth : n < depth + 1 + trail.card) (a : Ty) :
    ∀ (t : Table) (b : Ty), t.Sound → t.Trail trail a → t.size = n →
      t.Handles [(a, b)] (a.unifyWith again t b) := by
  induction a with
  | var v =>
    intro t b ht htrail hn
    rw [Ty.unifyWith]
    by_cases hv : v < t.size
    · rw [probe_of_lt hv]
      cases hval : t.value v with
      | some inner =>
        obtain ⟨hfresh, htrail'⟩ := htrail.through ht hval
        have hcard : t.size < depth + (insert (t.root v) trail).card := by
          rw [Finset.card_insert_of_notMem hfresh]
          omega
        refine (hagain t _ inner b ht htrail' hcard).congr fun rest => ?_
        -- the outermost form of the variable is its value
        simp only [unifyRound, head_var hv, hval, Option.getD_some,
          head_of_not_var (ht.not_var hval)]
      | none =>
        have ha : t.head (.var v) = .ok (.var (t.root v)) := by
          rw [head_var hv, hval]
          rfl
        simp only [proceed, find_of_lt hv]
        refine handles_of_heads ha fun b' _ hround => handles_of_carryOn fun rest => ?_
        rw [hround, compareRound]
    · rw [probe_of_not_lt hv]
      refine handles_of_carryOn fun rest => ?_
      simp only [unifyRound, head, probe_of_not_lt hv, error_bind, proceed, carryOn]
  | con c =>
    intro t b ht _ _
    rw [Ty.unifyWith]
    refine handles_of_heads rfl fun b' _ hround => handles_of_carryOn fun rest => ?_
    rw [hround]
    cases b' with
    | var w => rfl
    | con d =>
      simp only [compareRound]
      split
      · rfl
      · exact (carryOn_mismatch ..).symm
    | app d bs | fn arg result => exact (carryOn_mismatch ..).symm
  | app c as ih =>
    intro t b ht htrail hn
    rw [Ty.unifyWith]
    refine handles_of_heads rfl fun b' _ hround => ?_
    cases b' with
    | var w => exact handles_of_carryOn fun rest => hround rest
    | con d => exact handles_of_carryOn fun rest => (hround rest).trans (carryOn_mismatch ..).symm
    | app d bs =>
      by_cases hcd : c = d ∧ as.length = bs.length
      · simp only [compareRound, if_pos hcd] at hround ⊢
        refine handles_of_parts _ hround (handles_unifyArgs ih bs ht hn fun a ha => ?_)
        exact htrail.of_subset fun v hv => Ty.mem_occurrences_app.2 ⟨a, ha, hv⟩
      · simp only [compareRound, if_neg hcd] at hround ⊢
        exact handles_of_carryOn fun rest => (hround rest).trans (carryOn_mismatch ..).symm
    | fn arg result =>
      exact handles_of_carryOn fun rest => (hround rest).trans (carryOn_mismatch ..).symm
  | fn arg result iharg ihresult =>
    intro t b ht htrail hn
    rw [Ty.unifyWith]
    refine handles_of_heads rfl fun b' _ hround => ?_
    cases b' with
    | var w => exact handles_of_carryOn fun rest => hround rest
    | con d => exact handles_of_carryOn fun rest => (hround rest).trans (carryOn_mismatch ..).symm
    | app d bs =>
      exact handles_of_carryOn fun rest => (hround rest).trans (carryOn_mismatch ..).symm
    | fn arg' result' =>
      have hfirst := iharg t arg' ht
        (htrail.of_subset fun v hv => Ty.mem_occurrences_fn.2 (Or.inl hv)) hn
      have hsecond := htrail.of_subset (b := result) fun v hv => Ty.mem_occurrences_fn.2 (Or.inr hv)
      refine handles_of_parts [(arg, arg'), (result, result')] hround ?_
      refine hfirst.andThen fun t' hdone => ?_
      rw [hdone] at hfirst
      obtain ⟨hsound, hgrows, -⟩ := ht.of_ends hfirst.ends
      exact ihresult t' result' hsound (hsecond.grows hgrows) (hgrows.size_eq.trans hn)

theorem handles_unifyWithin (depth : Nat) :
    ∀ (t : Table) (trail : Finset Nat) (a b : Ty), t.Sound → t.Trail trail a →
      t.size < depth + trail.card → t.Handles [(a, b)] (unifyWithin depth t a b) := by
  induction depth with
  | zero =>
    intro t trail a b _ htrail hdepth
    have := htrail.card_le
    omega
  | succ depth ih =>
    intro t trail a b ht htrail hdepth
    exact handles_unifyWith ih hdepth a t b ht htrail rfl

/-- In a sound table the loop ends, with the outcome of `unify`. -/
theorem Sound.ends_unify (ht : t.Sound) (a b : Ty) :
    Ends unifyRound (t, [(a, b)]) (t.unify a b) := by
  have htrail : t.Trail ∅ a := ⟨by simp, by simp⟩
  exact (handles_unifyWithin (t.size + 1) t ∅ a b ht htrail (by simp)).ends

/-- What unification does, by way of the loop. -/
theorem Sound.unify_spec (ht : t.Sound) (a b : Ty) : (t.unify a b).table.Sound ∧
    t.Grows (t.unify a b).table ∧
      t.Concludes [(a, b)] (t.unify a b) :=
  ht.of_ends (ht.ends_unify a b)

end BlockGraph.Table
