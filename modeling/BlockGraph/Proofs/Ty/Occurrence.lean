import BlockGraph.Proofs.Ty.Leftmost
import BlockGraph.Proofs.Ty.Resolving

/-!
# The occurs check is exact

The occurs check for a variable follows the bindings of a type and looks for the variable's class.
`occurs_exact` says that it finds the class exactly where some variable of the type leads to it
(`Table.Reaches`), whether the variable is bound or not.  What an unbound variable resolves to is
the root of its class, and a class leads to such a root exactly if the root occurs in what the class
resolves to (`Sound.mem_image_iff`).
-/

namespace BlockGraph

open Relation Loop

namespace Table

variable {t : Table} {v s : Nat} {ty : Ty}

/-- An unbound variable occurs in what a class resolves to exactly if the class leads to it. -/
theorem Sound.mem_image_iff (ht : t.Sound) (hv : t.Unbound v) (hs : s < t.size) :
    v ∈ (t.image s).occurrences ↔ ReflTransGen t.Binds (t.root s) v := by
  constructor
  · refine ht.binding_induction (p := fun s => v ∈ (t.image s).occurrences →
      ReflTransGen t.Binds (t.root s) v) (fun s hs ih hmem => ?_) hs
    cases hvalue : t.value s with
    | none =>
      rw [ht.image_of_none hs hvalue, Ty.mem_occurrences_var] at hmem
      rw [hmem]
    | some inner =>
      rw [ht.image_of_some hvalue, Ty.mem_occurrences_subst] at hmem
      obtain ⟨u, hu, hmem⟩ := hmem
      exact .head (ht.binds hvalue hu) (ih inner hvalue u hu hmem)
  · intro h
    rw [ht.solution_image.root s]
    exact ht.mem_occurrences_image hv h

/-- An unbound variable occurs in a resolved type exactly if some variable of the type leads to
it. -/
theorem Sound.mem_resolved_iff (ht : t.Sound) (hv : t.Unbound v) (hcov : t.Covers ty) :
    v ∈ (ty.subst t.image).occurrences ↔ t.Reaches v ty := by
  rw [Ty.mem_occurrences_subst]
  exact exists_congr fun u => and_congr_right fun hu => ht.mem_image_iff hv (hcov u hu)

end Table

/-- **The occurs check is exact.**  In a reachable context, for an allocated variable and a type
over allocated variables, it ends, as a loop with a stack and no record of what it has seen; it
answers yes exactly if the class of a variable of the type is the variable's class or leads to it
through bound values.  For an unbound variable that is to say that what it resolves to, the root of
its class, occurs in the resolved type. -/
theorem Context.occurs_exact {c : Context} (hc : c.Reachable) {v : Nat} (hv : v < c.varCount)
    {ty : Ty} (hcov : c.table.Covers ty) : ∃ root found, c.table.find v = .ok root ∧
      c.table.occurs v ty = .ok found ∧ Ends (c.table.occursRound root) [ty] (some found) ∧
      (found = true ↔ ∃ u ∈ ty.occurrences, ∃ s, c.table.find u = .ok s ∧
        ReflTransGen c.table.Binds s root) ∧
      (c.table.probe v = .ok none → c.table.resolve (.var v) = .ok (.var root) ∧
        ∃ resolved, c.table.resolve ty = .ok resolved ∧
        (found = true ↔ root ∈ resolved.occurrences)) := by
  have ht := hc.sound
  obtain ⟨found, hfound, hiff⟩ := ht.occurs_spec hv hcov
  obtain ⟨found', hfound', hends⟩ := ht.ends_occurs hv hcov
  cases hfound.symm.trans hfound'
  refine ⟨c.table.root v, found, Table.find_of_lt hv, hfound, hends, hiff.trans ?_,
    fun hunbound => ?_⟩
  · refine exists_congr fun u => and_congr_right fun hu => ?_
    simp only [Table.find_of_lt (hcov u hu), Except.ok.injEq, exists_eq_left']
  · have hvalue := (Table.probe_eq_ok.1 hunbound).2
    have hroot : c.table.Unbound (c.table.root v) :=
      ⟨Table.root_lt ht.forest hv, Table.root_root ht.forest v,
        (Table.value_root ht.forest v).trans hvalue⟩
    have hvar : c.table.Covers (.var v) := fun u hu => Ty.mem_occurrences_var.1 hu ▸ hv
    refine ⟨?_, _, ht.resolve_eq hcov, hiff.trans (ht.mem_resolved_iff hroot hcov).symm⟩
    rw [ht.resolve_eq hvar, Ty.subst_var, ht.image_of_none hv hvalue]

/-- Where the first variable is a list of the second, the second occurs in a function from the
first, and the first, which is bound, in no list of the second. -/
theorem Context.occurs_exact_list :
    (∃ root, listContext.table.find 1 = .ok root ∧ ∃ resolved,
      listContext.table.resolve (.fn (.var 0) .int) = .ok resolved ∧ root ∈ resolved.occurrences) ∧
      ∃ root, listContext.table.find 0 = .ok root ∧ ¬ ∃ u ∈ (Ty.list (.var 1)).occurrences, ∃ s,
        listContext.table.find u = .ok s ∧ ReflTransGen listContext.table.Binds s root := by
  have hc : listContext.Reachable := ⟨_, rfl⟩
  have hyes : listContext.table.occurs 1 (.fn (.var 0) .int) = .ok true := rfl
  have hno : listContext.table.occurs 0 (.list (.var 1)) = .ok false := rfl
  have hcov : listContext.table.Covers (.fn (.var 0) .int) := by decide
  have hcov' : listContext.table.Covers (.list (.var 1)) := by decide
  obtain ⟨root, found, hroot, hfound, -, -, hunbound⟩ := occurs_exact hc (v := 1) (by decide) hcov
  obtain ⟨root', found', hroot', hfound', -, hiff, -⟩ := occurs_exact hc (v := 0) (by decide) hcov'
  cases hyes.symm.trans hfound
  cases hno.symm.trans hfound'
  obtain ⟨-, resolved, hresolved, hmem⟩ := hunbound rfl
  exact ⟨⟨root, hroot, resolved, hresolved, hmem.1 rfl⟩, root', hroot',
    fun h => Bool.false_ne_true (hiff.2 h)⟩

end BlockGraph
