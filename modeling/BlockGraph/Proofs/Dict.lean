import Mathlib.Data.String.Basic
import Mathlib.Data.List.Induction
import BlockGraph.Dict

/-!
# Dictionaries in order

The dictionary of a list of entries has its keys in increasing order (`Dict.sorted_ofList`) and no
entry that is not in the list (`Dict.mem_of_mem_ofList`).  A list that is in order already is its
own dictionary (`Dict.ofList_eq_self`).
-/

namespace BlockGraph.Dict

variable {α : Type} {d : Dict α} {k : String} {v : α} {l : List (String × α)} {e : String × α}

/-- The keys increase. -/
def Sorted (d : Dict α) : Prop := d.Pairwise fun a b => a.1 < b.1

/-! ## Putting -/

theorem mem_of_mem_put (h : e ∈ put k v d) : e = (k, v) ∨ e ∈ d := by
  fun_induction put k v d <;> grind

theorem sorted_put (hd : d.Sorted) : (put k v d).Sorted := by
  induction d with
  | nil => simp [put, Sorted]
  | cons e rest ih =>
    obtain ⟨hlt, hrest⟩ := List.pairwise_cons.1 hd
    unfold put
    by_cases heq : k = e.1
    · rw [if_pos heq]
      exact List.pairwise_cons.2 ⟨fun y hy => heq ▸ hlt y hy, hrest⟩
    · rw [if_neg heq]
      by_cases hk : k < e.1
      · rw [if_pos hk]
        refine List.pairwise_cons.2 ⟨fun y hy => ?_, hd⟩
        rcases List.mem_cons.1 hy with rfl | hy
        · exact hk
        · exact hk.trans (hlt y hy)
      · rw [if_neg hk]
        refine List.pairwise_cons.2 ⟨fun y hy => ?_, ih hrest⟩
        rcases mem_of_mem_put hy with rfl | hy
        · exact lt_of_le_of_ne (not_lt.1 hk) (Ne.symm heq)
        · exact hlt y hy

/-- A key above all others goes to the end. -/
theorem put_of_forall_lt (h : ∀ e ∈ d, e.1 < k) : put k v d = d ++ [(k, v)] := by
  induction d with
  | nil => rfl
  | cons e rest ih =>
    have hk : e.1 < k := h e List.mem_cons_self
    unfold put
    rw [if_neg (ne_of_gt hk), if_neg (not_lt.2 hk.le),
      ih fun y hy => h y (List.mem_cons_of_mem _ hy)]
    rfl

/-! ## Lists of entries -/

theorem ofList_concat (l : List (String × α)) (e : String × α) :
    ofList (l ++ [e]) = put e.1 e.2 (ofList l) := by
  simp [ofList]

theorem sorted_ofList (l : List (String × α)) : (ofList l).Sorted := by
  induction l using List.reverseRecOn with
  | nil => exact List.Pairwise.nil
  | append_singleton l e ih =>
    rw [ofList_concat]
    exact sorted_put ih

theorem mem_of_mem_ofList (h : e ∈ ofList l) : e ∈ l := by
  induction l using List.reverseRecOn with
  | nil => exact h
  | append_singleton l e' ih =>
    rw [ofList_concat] at h
    rcases mem_of_mem_put h with rfl | h
    · simp
    · exact List.mem_append_left _ (ih h)

/-- A list in order is its own dictionary. -/
theorem ofList_eq_self (hd : d.Sorted) : ofList d = d := by
  induction d using List.reverseRecOn with
  | nil => rfl
  | append_singleton d e ih =>
    obtain ⟨hd, -, hlt⟩ := List.pairwise_append.1 hd
    rw [ofList_concat, ih hd]
    exact put_of_forall_lt fun x hx => hlt x hx e (by simp)

end BlockGraph.Dict
