import BlockGraph.Proofs.Ty.Principal

/-!
# No infinite types, hence termination

The walks through a table can be written as loops with a stack and no bound: looking for the
outermost form of a type (`headRound`), resolving it (`resolveRound`), the occurs check
(`occursRound`), and unification (`unifyRound`).  Each goes on into the value of a bound variable,
so none would end in a table with a class that leads back to itself.

`walks_end` says that no reachable context has such a class, and that on allocated variables all
four loops end, with the results of `Table.head`, `Table.resolve`, `Table.occurs` and `Table.unify`.
-/

namespace BlockGraph

variable {args : List Ty} {t : Table} {ty : Ty} {root : Nat}

open Relation Loop

namespace Table

/-! ## The outermost form -/

/-- A round of the search for the outermost form; it breaks off at a variable that is not
allocated. -/
def headRound (t : Table) : Ty → Ty ⊕ Option Ty
  | .var v =>
    match t.probe v, t.find v with
    | .ok (some inner), _ => .inl inner
    | .ok none, .ok root => .inr (some (.var root))
    | _, _ => .inr none
  | ty => .inr (some ty)

theorem headRound_of_not_var (h : ty.isVar = false) : t.headRound ty = .inr (some ty) := by
  cases ty with
  | var v => simp [Ty.isVar] at h
  | con c | app c as | fn arg result => rfl

/-- The search ends with the outermost form.  It goes through one binding at most, since no value is
a variable. -/
theorem Sound.ends_head (ht : t.Sound) {a : Ty} (h : t.head ty = .ok a) :
    Ends t.headRound ty (some a) := by
  rcases head_cases ht h with ⟨hty, rfl⟩ | ⟨v, rfl, hv⟩ | ⟨v, rfl, rfl, hunbound⟩
  · exact .stop (headRound_of_not_var hty)
  · refine .next ?_ (.stop (headRound_of_not_var (ht.not_var hv)))
    simp only [headRound, probe_of_lt (lt_of_value_eq_some hv), hv]
  · have hlt : v < t.size := by
      by_contra hlt
      simp only [head, probe_of_not_lt hlt, error_bind] at h
      cases h
    have hval : t.value v = none := (value_root ht.forest v).symm.trans hunbound.value_eq
    refine .stop ?_
    simp only [headRound, probe_of_lt hlt, find_of_lt hlt, hval]

/-! ## Resolution -/

/-- What is left to do in a resolution: a type to resolve, or a term to build from the types that
were resolved last. -/
inductive Task where
  | visit (ty : Ty)
  | app (name : String) (arity : Nat)
  | fn

/-- A round of the resolution.  The state is the tasks and the resolved types, last first. -/
def resolveRound (t : Table) : List Task × List Ty → (List Task × List Ty) ⊕ Option Ty
  | ([], done) => .inr done.head?
  | (.visit (.var v) :: tasks, done) =>
    match t.probe v, t.find v with
    | .ok (some inner), _ => .inl (.visit inner :: tasks, done)
    | .ok none, .ok root => .inl (tasks, .var root :: done)
    | _, _ => .inr none
  | (.visit (.con name) :: tasks, done) => .inl (tasks, .con name :: done)
  | (.visit (.app name args) :: tasks, done) =>
    .inl (args.map .visit ++ .app name args.length :: tasks, done)
  | (.visit (.fn arg result) :: tasks, done) =>
    .inl (.visit arg :: .visit result :: .fn :: tasks, done)
  | (.app name arity :: tasks, done) =>
    if arity ≤ done.length then .inl (tasks, .app name (done.take arity).reverse :: done.drop arity)
    else .inr none
  | (.fn :: tasks, result :: arg :: done) => .inl (tasks, .fn arg result :: done)
  | (.fn :: _, _) => .inr none

/-- The loop puts the resolved type on top of the others and goes on with the remaining tasks. -/
def Resolves (t : Table) (ty : Ty) : Prop :=
  ∀ tasks done r, Ends t.resolveRound (tasks, ty.subst t.image :: done) r →
    Ends t.resolveRound (.visit ty :: tasks, done) r

theorem resolves_args (h : ∀ a ∈ args, t.Resolves a) (tasks : List Task) (done : List Ty)
    (r : Option Ty)
    (hends : Ends t.resolveRound (tasks, (args.map (Ty.subst t.image)).reverse ++ done) r) :
    Ends t.resolveRound (args.map .visit ++ tasks, done) r := by
  induction args generalizing done with
  | nil => exact hends
  | cons a as ih =>
    refine h a List.mem_cons_self _ _ _ (ih (fun x hx => h x (List.mem_cons_of_mem _ hx)) _ ?_)
    simpa using hends

theorem resolves_of_vars (h : ∀ v ∈ ty.occurrences, t.Resolves (.var v)) : t.Resolves ty := by
  induction ty with
  | var v => exact h v (Ty.mem_occurrences_var.2 rfl)
  | con name => exact fun tasks done r hends => .next rfl (by simpa using hends)
  | app name args ih =>
    intro tasks done r hends
    refine .next rfl (resolves_args (fun a ha => ih a ha fun v hv => h v ?_) _ _ _ (.next ?_ hends))
    · exact Ty.mem_occurrences_app.2 ⟨a, ha, hv⟩
    · simp [resolveRound]
  | fn arg result iharg ihresult =>
    intro tasks done r hends
    have harg := iharg fun v hv => h v (Ty.mem_occurrences_fn.2 (Or.inl hv))
    have hresult := ihresult fun v hv => h v (Ty.mem_occurrences_fn.2 (Or.inr hv))
    refine .next rfl (harg _ _ _ (hresult _ _ _ (.next rfl ?_)))
    simpa using hends

theorem Sound.resolves (ht : t.Sound) (hcov : t.Covers ty) : t.Resolves ty := by
  refine resolves_of_vars fun v hv =>
    ht.binding_induction (p := fun v => t.Resolves (.var v)) (fun v hlt ih => ?_) (hcov v hv)
  intro tasks done r hends
  cases hval : t.value v with
  | none =>
    refine .next ?_ hends
    simp only [resolveRound, probe_of_lt hlt, find_of_lt hlt, hval, Ty.subst_var,
      ht.image_of_none hlt hval]
  | some inner =>
    have hround : t.resolveRound (.visit (.var v) :: tasks, done) = .inl (.visit inner :: tasks,
        done) := by
      simp only [resolveRound, probe_of_lt hlt, hval]
    rw [Ty.subst_var, ht.image_of_some hval] at hends
    exact .next hround (resolves_of_vars (ih inner hval) _ _ _ hends)

/-- The resolution ends with the resolved type. -/
theorem Sound.ends_resolve (ht : t.Sound) {r : Ty} (hcov : t.Covers ty)
    (h : t.resolve ty = .ok r) : Ends t.resolveRound ([.visit ty], []) (some r) := by
  refine ht.resolves hcov _ _ _ (.stop ?_)
  rw [ht.resolve_eq hcov] at h
  rw [← Except.ok.inj h]
  rfl

/-! ## The occurs check -/

/-- A round of the occurs check for the class of `root`. -/
def occursRound (t : Table) (root : Nat) : List Ty → List Ty ⊕ Option Bool
  | [] => .inr (some false)
  | .var v :: rest =>
    match t.find v, t.probe v with
    | .ok r, .ok value =>
      if r = root then .inr (some true)
      else match value with
        | some inner => .inl (inner :: rest)
        | none => .inl rest
    | _, _ => .inr none
  | .con _ :: rest => .inl rest
  | .app _ args :: rest => .inl (args.reverse ++ rest)
  | .fn arg result :: rest => .inl (arg :: result :: rest)

/-- Some variable of the type leads to the class of `root`. -/
def Reaches (t : Table) (root : Nat) (ty : Ty) : Prop :=
  ∃ u ∈ ty.occurrences, ReflTransGen t.Binds (t.root u) root

/-- The loop answers yes at the type if it reaches the class, and goes on behind it otherwise. -/
def Searches (t : Table) (root : Nat) (ty : Ty) : Prop :=
  ∀ rest answer, (t.Reaches root ty → answer = some true) →
    (¬ t.Reaches root ty → Ends (t.occursRound root) rest answer) →
    Ends (t.occursRound root) (ty :: rest) answer

theorem searches_args (h : ∀ a ∈ args, t.Searches root a) (rest : List Ty) (answer : Option Bool)
    (hyes : (∃ a ∈ args, t.Reaches root a) → answer = some true)
    (hno : (¬ ∃ a ∈ args, t.Reaches root a) → Ends (t.occursRound root) rest answer) :
    Ends (t.occursRound root) (args ++ rest) answer := by
  induction args with
  | nil => exact hno (by simp)
  | cons a as ih =>
    refine h a List.mem_cons_self _ _ (fun ha => hyes ⟨a, List.mem_cons_self, ha⟩) fun ha => ?_
    refine ih (fun x hx => h x (List.mem_cons_of_mem _ hx)) ?_ fun has => hno ?_
    · rintro ⟨x, hx, hxr⟩
      exact hyes ⟨x, List.mem_cons_of_mem _ hx, hxr⟩
    · rintro ⟨x, hx, hxr⟩
      rcases List.mem_cons.1 hx with rfl | hx
      · exact ha hxr
      · exact has ⟨x, hx, hxr⟩

theorem searches_of_vars (h : ∀ v ∈ ty.occurrences, t.Searches root (.var v)) :
    t.Searches root ty := by
  induction ty with
  | var v => exact h v (Ty.mem_occurrences_var.2 rfl)
  | con name => exact fun rest answer _ hno => .next rfl (hno (by simp [Reaches]))
  | app name args ih =>
    intro rest answer hyes hno
    have hreaches : (∃ a ∈ args.reverse, t.Reaches root a) ↔ t.Reaches root (.app name args) := by
      simp only [Reaches, List.mem_reverse, Ty.mem_occurrences_app]
      grind
    refine .next rfl (searches_args (fun a ha => ?_) rest answer ?_ ?_)
    · have ha := List.mem_reverse.1 ha
      exact ih a ha fun v hv => h v (Ty.mem_occurrences_app.2 ⟨a, ha, hv⟩)
    · rwa [hreaches]
    · rwa [hreaches]
  | fn arg result iharg ihresult =>
    intro rest answer hyes hno
    have hreaches : t.Reaches root (.fn arg result) ↔ t.Reaches root arg ∨
        t.Reaches root result := by
      simp only [Reaches, Ty.mem_occurrences_fn]
      grind
    rw [hreaches] at hyes hno
    have harg := iharg fun v hv => h v (Ty.mem_occurrences_fn.2 (Or.inl hv))
    have hresult := ihresult fun v hv => h v (Ty.mem_occurrences_fn.2 (Or.inr hv))
    refine .next rfl (harg _ _ (fun ha => hyes (Or.inl ha)) fun ha => ?_)
    refine hresult _ _ (fun hr => hyes (Or.inr hr)) fun hr => hno ?_
    exact fun h => h.elim ha hr

theorem Sound.searches (ht : t.Sound) (root : Nat) (hcov : t.Covers ty) : t.Searches root ty := by
  refine searches_of_vars fun v hv =>
    ht.binding_induction (p := fun v => t.Searches root (.var v)) (fun v hlt ih => ?_) (hcov v hv)
  intro rest answer hyes hno
  have hreaches : t.Reaches root (.var v) ↔ ReflTransGen t.Binds (t.root v) root := by
    simp [Reaches]
  rw [hreaches] at hyes hno
  by_cases hroot : t.root v = root
  · rw [hyes (by rw [hroot])]
    refine .stop ?_
    simp only [occursRound, find_of_lt hlt, probe_of_lt hlt, if_pos hroot]
  · cases hval : t.value v with
    | none =>
      have hround : t.occursRound root (.var v :: rest) = .inl rest := by
        simp only [occursRound, find_of_lt hlt, probe_of_lt hlt, if_neg hroot, hval]
      refine .next hround (hno fun h => hroot ?_)
      exact eq_of_reflTransGen_binds ((value_root ht.forest v).trans hval) h
    | some inner =>
      have hround : t.occursRound root (.var v :: rest) = .inl (inner :: rest) := by
        simp only [occursRound, find_of_lt hlt, probe_of_lt hlt, if_neg hroot, hval]
      rw [ht.leads_iff hval hroot] at hyes hno
      exact .next hround (searches_of_vars (ih inner hval) rest answer hyes hno)

/-- The occurs check ends with its answer. -/
theorem Sound.ends_occurs (ht : t.Sound) {v : Nat} (hv : v < t.size)
    (hcov : t.Covers ty) : ∃ found, t.occurs v ty = .ok found ∧
      Ends (t.occursRound (t.root v)) [ty] (some found) := by
  obtain ⟨found, hfound, hiff⟩ := ht.occurs_spec hv hcov
  refine ⟨found, hfound, ht.searches (t.root v) hcov [] _ (fun h => by rw [hiff.2 h]) fun h => ?_⟩
  have hfalse : found = false := by simpa using mt hiff.1 h
  rw [hfalse]
  exact .stop rfl

end Table

namespace Context

/-- **No infinite types, hence termination.**  In a reachable context no class leads back to itself
and no value is a variable; therefore the four unbounded loops end on allocated variables. -/
theorem walks_end {c : Context} (hc : c.Reachable) : Acyclic c.table.Binds ∧
      (∀ v ty, c.table.probe v = .ok (some ty) → ty.isVar = false) ∧ (∀ ty, c.table.Covers ty →
        (∃ form, c.table.head ty = .ok form ∧ Ends c.table.headRound ty (some form)) ∧
        (∃ r, c.table.resolve ty = .ok r ∧ Ends c.table.resolveRound ([.visit ty], []) (some r)) ∧
        ∀ v root, c.table.find v = .ok root → ∃ found, c.table.occurs v ty = .ok found ∧
          Ends (c.table.occursRound root) [ty] (some found)) ∧
      ∀ a b, Ends Table.unifyRound (c.table, [(a, b)]) (c.table.unify a b) := by
  have ht := hc.sound
  refine ⟨ht.acyclic, fun v ty h => ht.not_var (Table.probe_eq_ok.1 h).2, fun ty hcov => ?_,
    ht.ends_unify⟩
  obtain ⟨form, hform⟩ := Table.head_ok hcov
  refine ⟨⟨form, hform, ht.ends_head hform⟩, ?_, fun v root hroot => ?_⟩
  · exact ⟨_, ht.resolve_eq hcov, ht.ends_resolve hcov (ht.resolve_eq hcov)⟩
  · obtain ⟨hv, rfl⟩ := Table.find_eq_ok.1 hroot
    exact ht.ends_occurs hv hcov

theorem walks_end_list : Acyclic listContext.table.Binds ∧ listContext.table.Covers (.var 0) ∧
    Ends listContext.table.resolveRound ([.visit (.var 0)], []) (some (.list (.var 1))) := by
  have hcov : listContext.table.Covers (.var 0) := by decide
  have hresolve : listContext.table.resolve (.var 0) = .ok (.list (.var 1)) := rfl
  obtain ⟨hacyclic, -, hends, -⟩ := walks_end (c := listContext) ⟨_, rfl⟩
  obtain ⟨-, ⟨r, hr, hround⟩, -⟩ := hends _ hcov
  rw [hresolve] at hr
  rw [Except.ok.inj hr]
  exact ⟨hacyclic, hcov, hround⟩

end Context

end BlockGraph
