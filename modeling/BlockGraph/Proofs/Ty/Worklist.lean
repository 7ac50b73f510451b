import BlockGraph.Proofs.Ty.Solutions

/-!
# Unification as a worklist

Unification can be read as a loop over a list of pairs still to be made equal (`Table.unifyRound`):
a round takes the first pair, looks at the outermost forms of its sides, and either learns
something, puts the pairs of parts in its place, or stops.  The loop has no bound; it ends if some
number of rounds comes to a result (`Loop.Ends`).

What one round does to the table, to its solutions and to the pairs is said once, by
`Sound.unifyRound_spec`; `Sound.of_ends` carries it to the end of the loop: every solution is kept
that makes the two sides of each pair equal, and no other.
-/

namespace BlockGraph

variable {rest : List (Ty × Ty)} {as : List Ty} {r v : Nat} {t t' : Table} {a b ty : Ty}

open Relation

/-! ## Loops -/

/-- Round after round, the loop comes from `s` to the result `r`. -/
inductive Loop.Ends {σ ρ : Type} (round : σ → σ ⊕ ρ) : σ → ρ → Prop
  | stop {s : σ} {r : ρ} (h : round s = .inr r) : Loop.Ends round s r
  | next {s s' : σ} {r : ρ} (h : round s = .inl s') (rest : Loop.Ends round s' r) :
  Loop.Ends round s r

theorem Loop.Ends.of_next {σ ρ : Type} {round : σ → σ ⊕ ρ} {s s' : σ} {r : ρ}
    (h : Loop.Ends round s r) (hs : round s = .inl s') : Loop.Ends round s' r := by
  cases h with
  | stop hstop => exact absurd (hstop.symm.trans hs) (by simp)
  | next hnext rest =>
    cases Sum.inl.inj (hnext.symm.trans hs)
    exact rest

theorem Loop.Ends.unique {σ ρ : Type} {round : σ → σ ⊕ ρ} {s : σ} {r r' : ρ}
    (h : Loop.Ends round s r) (h' : Loop.Ends round s r') : r = r' := by
  induction h with
  | stop hs =>
    cases h' with
    | stop hs' => exact Sum.inr.inj (hs.symm.trans hs')
    | next hs' _ => exact absurd (hs.symm.trans hs') (by simp)
  | next hs _ ih => exact ih (h'.of_next hs)

namespace Table

open Loop

/-- A table and the pairs still to be made equal in it. -/
abbrev Worklist := Table × List (Ty × Ty)

/-- Goes on with the remaining pairs unless the walk has stopped. -/
def carryOn (rest : List (Ty × Ty)) : Outcome → Worklist ⊕ Outcome
  | .done t => .inl (t, rest)
  | .stopped why t => .inr (.stopped why t)

/-- The round for two outermost forms. -/
def compareRound (t : Table) (rest : List (Ty × Ty)) : Ty → Ty → Worklist ⊕ Outcome
  | .var v, b => carryOn rest (t.meet v b)
  | a, .var w => carryOn rest (t.assign w a)
  | .con c, .con d => if c = d then .inl (t, rest) else .inr (t.mismatch (.con c) (.con d))
  | .app c as, .app d bs =>
    if c = d ∧ as.length = bs.length then .inl (t, as.zip bs ++ rest)
    else .inr (t.mismatch (.app c as) (.app d bs))
  | .fn arg result, .fn arg' result' => .inl (t, (arg, arg') :: (result, result') :: rest)
  | a, b => .inr (t.mismatch a b)

/-- One round of the loop. -/
def unifyRound : Worklist → Worklist ⊕ Outcome
  | (t, []) => .inr (.done t)
  | (t, (a, b) :: rest) =>
    match t.head a, t.head b with
    | .ok a, .ok b => t.compareRound rest a b
    | .error f, _ => .inr (.stopped (.fault f) t)
    | .ok _, .error f => .inr (.stopped (.fault f) t)

/-- An assignment makes the two sides of every pair equal. -/
def Unifies (σ : Nat → Ty) (pairs : List (Ty × Ty)) : Prop := ∀ p ∈ pairs, p.1.subst σ = p.2.subst σ

@[simp] theorem unifies_nil (σ : Nat → Ty) : Unifies σ [] := by simp [Unifies]

@[simp] theorem unifies_cons (σ : Nat → Ty) (a b : Ty) (pairs : List (Ty × Ty)) :
    Unifies σ ((a, b) :: pairs) ↔ a.subst σ = b.subst σ ∧ Unifies σ pairs := by
  simp [Unifies]

@[simp] theorem unifies_append (σ : Nat → Ty) (ps qs : List (Ty × Ty)) :
    Unifies σ (ps ++ qs) ↔ Unifies σ ps ∧ Unifies σ qs := by
  simp only [Unifies, List.mem_append]
  grind

/-- Lists of one length are equal after substitution exactly if their entries are. -/
theorem unifies_zip (σ : Nat → Ty) {bs : List Ty} (h : as.length = bs.length) :
    Unifies σ (as.zip bs) ↔ as.map (Ty.subst σ) = bs.map (Ty.subst σ) := by
  induction as generalizing bs with
  | nil =>
    cases bs with
    | nil => simp
    | cons b bs => simp at h
  | cons a as ih =>
    cases bs with
    | nil => simp at h
    | cons b bs =>
      have hlen : as.length = bs.length := by simpa using h
      simp [ih hlen]

/-! ## Outermost forms -/

theorem head_var (hv : v < t.size) :
    t.head (.var v) = .ok ((t.value v).getD (.var (t.root v))) := by
  simp only [head, probe_of_lt hv, ok_bind]
  cases t.value v with
  | none => simp only [find_of_lt hv, ok_bind, pure_eq_ok, Option.getD_none]
  | some ty => rfl

theorem head_of_not_var (h : ty.isVar = false) : t.head ty = .ok ty := by
  cases ty with
  | var v => simp [Ty.isVar] at h
  | con c | app c as | fn arg result => rfl

theorem head_ok (h : t.Covers ty) : ∃ a, t.head ty = .ok a := by
  cases ty with
  | var v => exact ⟨_, head_var (h v (Ty.mem_occurrences_var.2 rfl))⟩
  | con c | app c as | fn arg result => exact ⟨_, rfl⟩

/-- An unbound variable that stands for its class. -/
structure Unbound (t : Table) (v : Nat) : Prop where
  lt : v < t.size
  root_eq : t.root v = v
  value_eq : t.value v = none

/-- What the outermost form of a type is: the type itself, the value of a bound variable, or the
root of an unbound one. -/
theorem head_cases (ht : t.Sound) (h : t.head ty = .ok a) :
    (ty.isVar = false ∧ a = ty) ∨ (∃ v, ty = .var v ∧ t.value v = some a) ∨
      ∃ v, ty = .var v ∧ a = .var (t.root v) ∧ t.Unbound (t.root v) := by
  by_cases hty : ty.isVar = false
  · rw [head_of_not_var hty] at h
    exact Or.inl ⟨hty, (Except.ok.inj h).symm⟩
  · obtain ⟨v, rfl⟩ : ∃ v, ty = .var v := by
      cases ty with
      | var v => exact ⟨v, rfl⟩
      | con c | app c as | fn arg result => exact absurd rfl hty
    by_cases hv : v < t.size
    · rw [head_var hv] at h
      cases hval : t.value v with
      | none =>
        rw [hval] at h
        refine Or.inr (Or.inr ⟨v, rfl, (Except.ok.inj h).symm, ?_⟩)
        exact ⟨root_lt ht.forest hv, root_root ht.forest v, (value_root ht.forest v).trans hval⟩
      | some inner =>
        rw [hval] at h
        exact Or.inr (Or.inl ⟨v, rfl, hval.trans (congrArg some (Except.ok.inj h))⟩)
    · simp only [head, probe_of_not_lt hv, error_bind] at h
      cases h

theorem Solution.head (ht : t.Sound) {σ : Nat → Ty} (hσ : t.Solution σ)
    (h : t.head ty = .ok a) : ty.subst σ = a.subst σ := by
  rcases head_cases ht h with ⟨-, rfl⟩ | ⟨v, rfl, hv⟩ | ⟨v, rfl, rfl, -⟩
  · rfl
  · rw [Ty.subst_var, hσ.value hv]
  · rw [Ty.subst_var, Ty.subst_var, ← hσ.root]

theorem Sound.unbound_of_head (ht : t.Sound) (h : t.head ty = .ok (.var v)) : t.Unbound v := by
  rcases head_cases ht h with ⟨hty, rfl⟩ | ⟨w, rfl, hw⟩ | ⟨w, rfl, hw, hunbound⟩
  · simp [Ty.isVar] at hty
  · have := ht.not_var hw
    simp [Ty.isVar] at this
  · cases hw
    exact hunbound

theorem Sound.covers_head (ht : t.Sound) (hcov : t.Covers ty) (h : t.head ty = .ok a) :
    t.Covers a := by
  rcases head_cases ht h with ⟨-, rfl⟩ | ⟨v, rfl, hv⟩ | ⟨v, rfl, rfl, hunbound⟩
  · exact hcov
  · exact ht.covers hv
  · exact covers_var hunbound.lt

/-- Taking the outermost form twice changes nothing. -/
theorem Sound.head_head (ht : t.Sound) (h : t.head ty = .ok a) : t.head a = .ok a := by
  rcases head_cases ht h with ⟨hty, rfl⟩ | ⟨v, rfl, hv⟩ | ⟨v, rfl, rfl, hunbound⟩
  · exact head_of_not_var hty
  · exact head_of_not_var (ht.not_var hv)
  · rw [head_var hunbound.lt, hunbound.value_eq, hunbound.root_eq]
    rfl

/-! ## Growth -/

/-- A table learns only: classes become larger, and what is bound stays as it is. -/
structure Grows (t t' : Table) : Prop where
  size_eq : t'.size = t.size
  root_root : ∀ v, t'.root (t.root v) = t'.root v
  value_eq : ∀ {v : Nat} {ty : Ty}, t.value v = some ty → t'.value v = some ty
  root_eq : ∀ {v : Nat} {ty : Ty}, t.value v = some ty → t'.root v = t.root v

theorem Grows.refl (ht : t.Forest) : t.Grows t :=
  ⟨rfl, Table.root_root ht, fun h => h, fun _ => rfl⟩

theorem Grows.trans {t1 t2 t3 : Table} (h : t1.Grows t2) (h' : t2.Grows t3) : t1.Grows t3 where
  size_eq := h'.size_eq.trans h.size_eq
  root_root v := by rw [← h'.root_root, h.root_root, h'.root_root]
  value_eq hv := h'.value_eq (h.value_eq hv)
  root_eq hv := (h'.root_eq (h.value_eq hv)).trans (h.root_eq hv)

theorem Grows.covers (h : t.Grows t') (hcov : t.Covers ty) : t'.Covers ty := by
  intro v hv
  rw [h.size_eq]
  exact hcov v hv

theorem grows_bind (ht : t.Forest) (hr : t.Unbound r) (ty : Ty) : t.Grows (t.bind r ty) where
  size_eq := size_bind t r ty
  root_root v := by rw [root_bind ht, root_bind ht, Table.root_root ht]
  value_eq {v ty'} hv := by
    rw [value_bind ht hr.lt, if_neg, hv]
    intro hvr
    rw [← value_root ht, hvr, hr.value_eq] at hv
    cases hv
  root_eq _ := root_bind ht r ty _

theorem Joins.grows {keep drop : Nat} (h : t.Joins t' keep drop) (ht : t.Forest)
    (hdropv : t.value drop = none) : t.Grows t' where
  size_eq := h.size_eq
  root_root v := by rw [h.root_eq, h.root_eq, Table.root_root ht]
  value_eq {v ty} hv := by rw [h.value_eq, hv]
  root_eq {v ty} hv := by
    rw [h.root_eq, if_neg]
    intro hvd
    rw [← value_root ht, hvd, hdropv] at hv
    cases hv

theorem grows_union (ht : t.Forest) {a b : Nat} (hne : a ≠ b) (ha : t.Unbound a)
    (hb : t.Unbound b) : t.Grows (t.union a b) := by
  rcases union_spec ht hne ha.lt hb.lt ha.root_eq hb.root_eq ha.value_eq hb.value_eq with h | h
  · exact h.grows ht hb.value_eq
  · exact h.grows ht ha.value_eq

/-- Paths of the binding graph survive growth; only their last class may have become larger. -/
theorem Grows.transGen_binds (h : t.Grows t') {s : Nat}
    (hrs : TransGen t.Binds r s) : TransGen t'.Binds r (t'.root s) := by
  have hedge : ∀ x y, t.Binds x y → t'.Binds x (t'.root y) := by
    intro x y hxy
    obtain ⟨hx, ty, hv, u, hu, hlt, rfl⟩ := binds_iff.1 hxy
    exact binds_iff.2 ⟨(h.root_eq hv).trans hx, ty, h.value_eq hv, u, hu, by rwa [h.size_eq],
      (h.root_root u).symm⟩
  induction hrs with
  | single hxy => exact TransGen.single (hedge _ _ hxy)
  | @tail m s _ hms ih =>
    have hm : t'.root m = m := by
      obtain ⟨hm, ty, hv, -⟩ := binds_iff.1 hms
      exact (h.root_eq hv).trans hm
    rw [hm] at ih
    exact ih.tail (hedge _ _ hms)

/-! ## What a round does -/

theorem mismatch_eq (t : Table) (a b : Ty) :
    (∃ x y, t.mismatch a b = .stopped (.clash (.mismatch x y)) t) ∨
      ∃ f, t.mismatch a b = .stopped (.fault f) t ∧
      (t.resolve a = .error f ∨ t.resolve b = .error f) := by
  unfold mismatch
  cases ha : t.resolve a with
  | error f => exact Or.inr ⟨f, rfl, Or.inl rfl⟩
  | ok x =>
    cases hb : t.resolve b with
    | error f => exact Or.inr ⟨f, rfl, Or.inr rfl⟩
    | ok y => exact Or.inl ⟨x, y, rfl⟩

/-- What an assignment does: it binds, or the type leads back to the variable, or some variable is
not allocated. -/
theorem Sound.assign_cases (ht : t.Sound) (hv : t.Unbound v) (ty : Ty) :
    (t.assign v ty = .done (t.bind v ty) ∧ t.Covers ty ∧
        ∀ u ∈ ty.occurrences, ¬ ReflTransGen t.Binds (t.root u) v) ∨
      (t.assign v ty = .stopped (.clash (.infinite v ty)) t ∧
        (t.Covers ty → ∃ u ∈ ty.occurrences, ReflTransGen t.Binds (t.root u) v)) ∨
      ∃ f, t.assign v ty = .stopped (.fault f) t ∧ ¬ t.Covers ty := by
  cases hocc : t.occurs v ty with
  | error f =>
    refine Or.inr (Or.inr ⟨f, by simp only [assign, hocc, proceed], fun hcov => ?_⟩)
    obtain ⟨found, hfound, -⟩ := ht.occurs_spec hv.lt hcov
    rw [hfound] at hocc
    cases hocc
  | ok inside =>
    have hiff : t.Covers ty →
        (inside = true ↔ ∃ u ∈ ty.occurrences, ReflTransGen t.Binds (t.root u) v) := by
      intro hcov
      obtain ⟨found, hfound, hiff⟩ := ht.occurs_spec hv.lt hcov
      rw [hfound] at hocc
      cases hocc
      rwa [hv.root_eq] at hiff
    cases inside with
    | false =>
      have hcov := covers_of_occurs hocc
      refine Or.inl ⟨by simp [assign, hocc, proceed], hcov, fun u hu h => ?_⟩
      exact absurd ((hiff hcov).2 ⟨u, hu, h⟩) Bool.false_ne_true
    | true =>
      exact Or.inr (Or.inl ⟨by simp [assign, hocc, proceed], fun hcov => (hiff hcov).1 rfl⟩)

/-- All variables of all pairs are allocated. -/
def CoversAll (t : Table) (pairs : List (Ty × Ty)) : Prop := ∀ p ∈ pairs, t.Covers p.1 ∧
  t.Covers p.2

@[simp] theorem coversAll_nil (t : Table) : t.CoversAll [] := by
  simp [CoversAll]

@[simp] theorem coversAll_cons (t : Table) (a b : Ty) (pairs : List (Ty × Ty)) :
    t.CoversAll ((a, b) :: pairs) ↔ (t.Covers a ∧ t.Covers b) ∧ t.CoversAll pairs := by
  simp [CoversAll]

/-- Everything a round that goes on has done to the worklist. -/
structure Advances (t : Table) (pairs : List (Ty × Ty)) (t' : Table) (pairs' : List (Ty × Ty)) :
    Prop where
  sound : t'.Sound
  grows : t.Grows t'
  solution_iff : ∀ σ, (t'.Solution σ ∧ Unifies σ pairs') ↔ (t.Solution σ ∧ Unifies σ pairs)
  covers : t.CoversAll pairs → t.CoversAll pairs'

/-- Everything known when a round stops with a clash or a fault. -/
def Halts (t : Table) (pairs : List (Ty × Ty)) : Outcome → Prop
  | .done t' => t' = t ∧ pairs = []
  | .stopped (.clash _) t' => t' = t ∧ (t.CoversAll pairs → ∀ σ, t.Solution σ → ¬ Unifies σ pairs)
  | .stopped (.fault _) t' => t' = t ∧ ¬ t.CoversAll pairs

/-- The result of a round: it goes on as `Advances` says or ends as `Halts` says. -/
def RoundSpec (t : Table) (pairs : List (Ty × Ty)) : Worklist ⊕ Outcome → Prop
  | .inl (t', pairs') => t.Advances pairs t' pairs'
  | .inr o => t.Halts pairs o

/-- A pair whose parts take its place. -/
theorem Sound.advances_parts (ht : t.Sound) (parts : List (Ty × Ty))
    (hparts : ∀ σ, Unifies σ parts ↔ a.subst σ = b.subst σ)
    (hcov : t.Covers a → t.Covers b → t.CoversAll parts) :
    t.Advances ((a, b) :: rest) t (parts ++ rest) where
  sound := ht
  grows := .refl ht.forest
  solution_iff σ := by rw [unifies_append, unifies_cons, hparts]
  covers h p hp := by
    obtain ⟨ha, hb⟩ := h (a, b) (List.mem_cons_self ..)
    rcases List.mem_append.1 hp with hp | hp
    · exact hcov ha hb p hp
    · exact h p (List.mem_cons_of_mem _ hp)

theorem covers_of_mem_parts (ha : a.isVar = false) (h : t.Covers a) (hty : ty ∈ a.parts) :
    t.Covers ty :=
  fun v hv => h v ((Ty.mem_occurrences_parts ha).2 ⟨ty, hty, hv⟩)

/-- Two forms that no assignment makes equal end the loop as they should. -/
theorem Sound.round_mismatch (ht : t.Sound) (hne : ∀ σ, a.subst σ ≠ b.subst σ) :
    t.RoundSpec ((a, b) :: rest) (.inr (t.mismatch a b)) := by
  rcases Table.mismatch_eq t a b with ⟨x, y, h⟩ | ⟨f, h, hf⟩
  · rw [h]
    exact ⟨rfl, fun _ σ _ hσ => hne σ ((unifies_cons ..).1 hσ).1⟩
  · rw [h]
    refine ⟨rfl, fun hcov => ?_⟩
    obtain ⟨ha, hb⟩ := hcov (a, b) (List.mem_cons_self ..)
    rcases hf with hf | hf
    · rw [ht.resolve_eq ha] at hf
      cases hf
    · rw [ht.resolve_eq hb] at hf
      cases hf

/-- The round in which an unbound variable meets a form that is not a variable. -/
theorem Sound.round_assign (ht : t.Sound) (hv : t.Unbound v) (hty : ty.isVar = false)
    (hpair : ∀ σ, a.subst σ = b.subst σ ↔ σ v = ty.subst σ)
    (hcov : t.Covers a → t.Covers b → t.Covers ty) :
    t.RoundSpec ((a, b) :: rest) (carryOn rest (t.assign v ty)) := by
  rcases ht.assign_cases hv ty with ⟨h, hcovty, hocc⟩ | ⟨h, hleads⟩ | ⟨f, h, hnot⟩
  · rw [h]
    refine ⟨ht.bind hv.lt hty hcovty hocc, grows_bind ht.forest hv ty, fun σ => ?_, ?_⟩
    · rw [solution_bind_iff ht.forest hv.lt hv.root_eq hv.value_eq, unifies_cons, hpair, and_assoc]
    · exact fun h p hp => h p (List.mem_cons_of_mem _ hp)
  · rw [h]
    refine ⟨rfl, fun hall σ hσ hu => ?_⟩
    obtain ⟨ha, hb⟩ := hall (a, b) (List.mem_cons_self ..)
    obtain ⟨u, hu', hle⟩ := hleads (hcov ha hb)
    rw [← hv.root_eq] at hle
    exact hσ.ne_of_leads hty hu' hle ((hpair σ).1 ((unifies_cons ..).1 hu).1)
  · rw [h]
    refine ⟨rfl, fun hall => hnot ?_⟩
    obtain ⟨ha, hb⟩ := hall (a, b) (List.mem_cons_self ..)
    exact hcov ha hb

/-- A variable is assigned the form that it meets, on either side. -/
theorem compareRound_assign (hb : b.isVar = false) :
    t.compareRound rest (.var v) b = carryOn rest (t.assign v b) := by
  cases b with
  | var w => cases hb
  | _ => rfl

theorem compareRound_assigned (ha : a.isVar = false) :
    t.compareRound rest a (.var v) = carryOn rest (t.assign v a) := by
  cases a with
  | var w => cases ha
  | _ => rfl

/-- Two forms that agree are taken apart. -/
theorem compareRound_parts (ha : a.isVar = false) (hb : b.isVar = false) (h : a.form = b.form) :
    t.compareRound rest a b = .inl (t, a.parts.zip b.parts ++ rest) := by
  cases a <;> cases b <;> simp_all [Ty.form, Ty.parts, Ty.isVar, compareRound]

theorem compareRound_differ (ha : a.isVar = false) (hb : b.isVar = false) (h : a.form ≠ b.form) :
    t.compareRound rest a b = .inr (t.mismatch a b) := by
  cases a <;> cases b <;> simp_all [Ty.form, Ty.isVar, compareRound]

/-- A round on two outermost forms does what `RoundSpec` says. -/
theorem Sound.compareRound_spec (ht : t.Sound) (rest : List (Ty × Ty)) (ha : t.head a = .ok a)
    (hb : t.head b = .ok b) : t.RoundSpec ((a, b) :: rest) (t.compareRound rest a b) := by
  rcases Ty.pair_cases a b with ⟨v, w, rfl, rfl⟩ | ⟨v, rfl, hty⟩ | ⟨v, hty, rfl⟩ | ⟨hvar, hvar'⟩
  · have hv := ht.unbound_of_head ha
    have hw := ht.unbound_of_head hb
    rw [compareRound, meet]
    by_cases hvw : v = w
    · subst hvw
      rw [if_pos rfl]
      exact ht.advances_parts [] (by simp) (by simp)
    · rw [if_neg hvw]
      refine ⟨ht.union hvw hv.lt hw.lt hv.root_eq hw.root_eq hv.value_eq hw.value_eq,
        grows_union ht.forest hvw hv hw, fun σ => ?_, ?_⟩
      · rw [solution_union_iff ht.forest hvw hv.lt hw.lt hv.root_eq hw.root_eq hv.value_eq
          hw.value_eq, unifies_cons, and_assoc, Ty.subst_var, Ty.subst_var]
      · exact fun h p hp => h p (List.mem_cons_of_mem _ hp)
  · rw [compareRound_assign hty]
    exact ht.round_assign (ht.unbound_of_head ha) hty (fun σ => by rw [Ty.subst_var]) fun _ h => h
  · rw [compareRound_assigned hty]
    exact ht.round_assign (ht.unbound_of_head hb) hty (fun σ => by rw [Ty.subst_var, eq_comm])
      fun h _ => h
  · by_cases hform : a.form = b.form
    · rw [compareRound_parts hvar hvar' hform]
      refine ht.advances_parts _ (fun σ => ?_) fun hca hcb p hp => ?_
      · rw [unifies_zip σ (Ty.length_parts_of_form hform), Ty.subst_eq_iff_parts hvar hvar' hform]
      · obtain ⟨hpa, hpb⟩ := List.of_mem_zip hp
        exact ⟨covers_of_mem_parts hvar hca hpa, covers_of_mem_parts hvar' hcb hpb⟩
    · rw [compareRound_differ hvar hvar' hform]
      refine ht.round_mismatch fun σ heq => hform ?_
      rw [← Ty.form_subst σ hvar, heq, Ty.form_subst σ hvar']

/-- A round on any pair does what `RoundSpec` says: taking outermost forms changes no solution. -/
theorem Sound.unifyRound_spec (ht : t.Sound) (pairs : List (Ty × Ty)) :
    t.RoundSpec pairs (unifyRound (t, pairs)) := by
  cases pairs with
  | nil => exact ⟨rfl, rfl⟩
  | cons p rest =>
    obtain ⟨a, b⟩ := p
    rw [unifyRound]
    cases ha : t.head a with
    | error f =>
      refine ⟨rfl, fun hcov => ?_⟩
      obtain ⟨a', ha'⟩ := head_ok ((coversAll_cons ..).1 hcov).1.1
      rw [ha'] at ha
      cases ha
    | ok a' =>
      cases hb : t.head b with
      | error f =>
        refine ⟨rfl, fun hcov => ?_⟩
        obtain ⟨b', hb'⟩ := head_ok ((coversAll_cons ..).1 hcov).1.2
        rw [hb'] at hb
        cases hb
      | ok b' =>
        have hspec := ht.compareRound_spec rest (ht.head_head ha) (ht.head_head hb)
        have heq : ∀ σ, t.Solution σ →
            (Unifies σ ((a, b) :: rest) ↔ Unifies σ ((a', b') :: rest)) := by
          intro σ hσ
          rw [unifies_cons, unifies_cons, hσ.head ht ha, hσ.head ht hb]
        have hcov : t.CoversAll ((a, b) :: rest) → t.CoversAll ((a', b') :: rest) := by
          rw [coversAll_cons, coversAll_cons]
          exact fun h => ⟨⟨ht.covers_head h.1.1 ha, ht.covers_head h.1.2 hb⟩, h.2⟩
        simp only
        revert hspec
        generalize t.compareRound rest a' b' = result
        rcases result with ⟨t', pairs'⟩ | (t' | ⟨c | f, t'⟩)
        · rintro ⟨hsound, hgrows, hsol, hcov'⟩
          refine ⟨hsound, hgrows, fun σ => ?_, fun h => hcov' (hcov h)⟩
          rw [hsol]
          exact and_congr_right fun hσ => (heq σ hσ).symm
        · rintro ⟨-, h⟩
          cases h
        · rintro ⟨rfl, h⟩
          exact ⟨rfl, fun hall σ hσ hu => h (hcov hall) σ hσ ((heq σ hσ).1 hu)⟩
        · rintro ⟨rfl, h⟩
          exact ⟨rfl, fun hall => h (hcov hall)⟩

/-! ## What the loop does -/

/-- What the end of the loop says about the pairs it began with. -/
def Concludes (t : Table) (pairs : List (Ty × Ty)) : Outcome → Prop
  | .done t' => ∀ σ, t'.Solution σ ↔ t.Solution σ ∧ Unifies σ pairs
  | .stopped (.clash _) _ => t.CoversAll pairs → ∀ σ, t.Solution σ → ¬ Unifies σ pairs
  | .stopped (.fault _) _ => ¬ t.CoversAll pairs

/-- From a sound table the loop ends in a sound table that has grown, and says about the solutions
what it should. -/
theorem Sound.of_ends (ht : t.Sound) {pairs : List (Ty × Ty)} {o : Outcome}
    (h : Ends unifyRound (t, pairs) o) : o.table.Sound ∧ t.Grows o.table ∧ t.Concludes pairs o := by
  generalize hs : (t, pairs) = s at h
  induction h generalizing t pairs with
  | @stop s o hround =>
    subst hs
    have hspec := ht.unifyRound_spec pairs
    rw [hround] at hspec
    rcases o with t' | ⟨c | f, t'⟩
    · obtain ⟨rfl, rfl⟩ := hspec
      exact ⟨ht, .refl ht.forest, fun σ => by simp⟩
    · obtain ⟨rfl, hno⟩ := hspec
      exact ⟨ht, .refl ht.forest, hno⟩
    · obtain ⟨rfl, hno⟩ := hspec
      exact ⟨ht, .refl ht.forest, hno⟩
  | @next s s' o hround _ ih =>
    subst hs
    obtain ⟨t', pairs'⟩ := s'
    have hspec := ht.unifyRound_spec pairs
    rw [hround] at hspec
    obtain ⟨hsound, hgrows, hsol, hcov⟩ := hspec
    obtain ⟨hosound, hogrows, hconcl⟩ := ih hsound rfl
    have hcov' : t.CoversAll pairs → t'.CoversAll pairs' := fun h p hp =>
      ⟨hgrows.covers (hcov h p hp).1, hgrows.covers (hcov h p hp).2⟩
    refine ⟨hosound, hgrows.trans hogrows, ?_⟩
    rcases o with t'' | ⟨c | f, t''⟩
    · exact fun σ => (hconcl σ).trans (hsol σ)
    · intro hall σ hσ hu
      obtain ⟨hσ', hu'⟩ := (hsol σ).2 ⟨hσ, hu⟩
      exact hconcl (hcov' hall) σ hσ' hu'
    · exact fun hall => hconcl (hcov' hall)

end Table

end BlockGraph
