import Mathlib.Data.Finset.Card
import Mathlib.Data.Finset.Range
import BlockGraph.Ty.Table

/-!
# Classes of type variables

A table is a forest: each variable points up, and the ranks rise on the way (`Table.Forest`).  Under
that invariant the bounded climb of the table always arrives, so a variable has a root
(`Table.root`) and its class a value (`Table.value`), and the table can be described by these two
functions alone.

The main statements say what each of the three ways to change a table does to roots and values:

* `root_fresh`, `value_fresh`: allocating a variable changes neither.
* `union_spec`: joining two unbound roots sends the class of one to the other.
* `root_bind`, `value_bind`: binding a root gives its class a value and moves no root.
-/

namespace BlockGraph.Table

variable {r v : Nat} {t : Table}

/-! ## Roots and values -/

/-- One link up; a root and an unallocated variable stay where they are. -/
def up (t : Table) (v : Nat) : Nat := (t.entries[v]?.map (·.parent)).getD v

/-- The value stored with a variable, whether or not it is a root. -/
def stored (t : Table) (v : Nat) : Option Ty := t.entries[v]?.bind (·.value)

/-- The variable that stands for the class of `v`. -/
def root (t : Table) (v : Nat) : Nat := t.climb t.size v

/-- The type that the class of `v` is bound to. -/
def value (t : Table) (v : Nat) : Option Ty := t.stored (t.root v)

/-- The ranks rise along the links, which stay inside the table. -/
structure Forest (t : Table) : Prop where
  parent_lt : ∀ {v : Nat} {e : Entry}, t.entries[v]? = some e → e.parent < t.size
  rank_lt : ∀ {v : Nat} {e : Entry}, t.entries[v]? = some e → e.parent ≠ v →
    e.rank < t.rank e.parent

theorem exists_entry (h : v < t.size) : ∃ e, t.entries[v]? = some e :=
  ⟨_, Array.getElem?_eq_getElem h⟩

theorem find_eq_ok : t.find v = .ok r ↔ v < t.size ∧ t.root v = r := by
  unfold find
  split <;> simp_all [root]

theorem find_of_lt (h : v < t.size) : t.find v = .ok (t.root v) := find_eq_ok.2 ⟨h, rfl⟩

theorem find_of_not_lt (h : ¬ v < t.size) : t.find v = .error (.unallocated v t.size) := if_neg h

theorem probe_of_lt (h : v < t.size) : t.probe v = .ok (t.value v) := by
  simp only [probe, find_of_lt h]
  rfl

theorem probe_of_not_lt (h : ¬ v < t.size) : t.probe v = .error (.unallocated v t.size) := by
  simp only [probe, find_of_not_lt h]
  rfl

theorem probe_eq_ok {o : Option Ty} : t.probe v = .ok o ↔ v < t.size ∧ t.value v = o := by
  by_cases h : v < t.size
  · simp [probe_of_lt h, h]
  · simp [probe_of_not_lt h, h]

/-! ## The climb -/

theorem climb_succ (t : Table) (n v : Nat) :
    t.climb (n + 1) v = if t.up v = v then v else t.climb n (t.up v) := by
  rw [climb, up]
  cases t.entries[v]? with
  | none | some e => simp

theorem climb_of_up_eq (h : t.up v = v) (n : Nat) : t.climb n v = v := by
  cases n with
  | zero => rfl
  | succ n => rw [climb_succ, if_pos h]

theorem up_of_not_lt (h : ¬ v < t.size) : t.up v = v := by
  rw [up, Array.getElem?_eq_none (Nat.le_of_not_lt h)]
  rfl

theorem up_lt (ht : t.Forest) (h : v < t.size) : t.up v < t.size := by
  obtain ⟨e, hv⟩ := exists_entry h
  rw [up, hv]
  exact ht.parent_lt hv

theorem rank_up (ht : t.Forest) (h : t.up v ≠ v) : t.rank v < t.rank (t.up v) := by
  cases hv : t.entries[v]? with
  | none => simp [up, hv] at h
  | some e =>
    have hup : t.up v = e.parent := by simp [up, hv]
    rw [hup] at h ⊢
    rw [show t.rank v = e.rank by simp [rank, hv]]
    exact ht.rank_lt hv h

/-- The variables of higher rank; a link up leaves fewer of them. -/
def higher (t : Table) (v : Nat) : Finset Nat := (Finset.range t.size).filter fun w =>
  t.rank v < t.rank w

theorem card_higher_up (ht : t.Forest) (h : t.up v ≠ v) :
    (t.higher (t.up v)).card < (t.higher v).card := by
  have hv : v < t.size := by
    by_contra hn
    exact h (up_of_not_lt hn)
  have hrank := rank_up ht h
  refine Finset.card_lt_card ⟨?_, ?_⟩
  · intro w hw
    simp only [higher, Finset.mem_filter] at hw ⊢
    exact ⟨hw.1, hrank.trans hw.2⟩
  · intro hsub
    have hmem : t.up v ∈ t.higher v := Finset.mem_filter.2 ⟨Finset.mem_range.2 (up_lt ht hv), hrank⟩
    exact lt_irrefl _ (Finset.mem_filter.1 (hsub hmem)).2

/-- A climb with as many links as there are variables of higher rank arrives. -/
theorem up_climb (ht : t.Forest) :
    ∀ (n v : Nat), (t.higher v).card ≤ n → t.up (t.climb n v) = t.climb n v := by
  intro n
  induction n with
  | zero =>
    intro v hv
    by_contra h
    have := card_higher_up ht h
    simp only [climb] at this
    omega
  | succ n ih =>
    intro v hv
    rw [climb_succ]
    by_cases h : t.up v = v
    · rw [if_pos h, h]
    · rw [if_neg h]
      have := card_higher_up ht h
      exact ih _ (by omega)

theorem climb_eq_climb {n m : Nat} (h : t.up (t.climb n v) = t.climb n v)
    (hnm : n ≤ m) : t.climb m v = t.climb n v := by
  induction n generalizing m v with
  | zero => exact climb_of_up_eq h m
  | succ n ih =>
    obtain ⟨m, rfl⟩ : ∃ k, m = k + 1 := ⟨m - 1, by omega⟩
    rw [climb_succ] at h ⊢
    rw [climb_succ]
    by_cases hv : t.up v = v
    · rw [if_pos hv, if_pos hv]
    · rw [if_neg hv] at h ⊢
      rw [if_neg hv]
      exact ih h (by omega)

theorem card_higher_le (t : Table) (v : Nat) : (t.higher v).card ≤ t.size := by
  calc (t.higher v).card ≤ (Finset.range t.size).card := Finset.card_filter_le _ _
    _ = t.size := Finset.card_range _

section Root

variable {t : Table} (ht : t.Forest)

include ht

theorem up_root (v : Nat) : t.up (t.root v) = t.root v := up_climb ht _ _ (t.card_higher_le v)

theorem root_up (v : Nat) : t.root (t.up v) = t.root v := by
  by_cases h : t.up v = v
  · rw [h]
  · have hcard := card_higher_up ht h
    have hle := t.card_higher_le v
    have harrive : t.up (t.climb (t.size - 1) (t.up v)) = t.climb (t.size - 1) (t.up v) :=
      up_climb ht _ _ (by omega)
    calc t.root (t.up v) = t.climb (t.size - 1) (t.up v) := climb_eq_climb harrive (by omega)
      _ = t.climb (t.size - 1 + 1) v := by rw [climb_succ, if_neg h]
      _ = t.root v := by rw [root, Nat.sub_add_cancel (by omega)]

/-- The root is the only choice of a variable per class that roots choose for themselves. -/
theorem eq_root {f : Nat → Nat} (hup : ∀ v, f (t.up v) = f v) (hroot : ∀ v, t.up v = v → f v = v)
    (v : Nat) : f v = t.root v := by
  have hclimb : ∀ n v, f (t.climb n v) = f v := by
    intro n
    induction n with
    | zero => intro v; rfl
    | succ n ih =>
      intro v
      rw [climb_succ]
      by_cases h : t.up v = v
      · rw [if_pos h]
      · rw [if_neg h, ih, hup]
  calc f v = f (t.root v) := (hclimb t.size v).symm
    _ = t.root v := hroot _ (up_root ht v)

theorem root_lt (h : v < t.size) : t.root v < t.size := by
  have hclimb : ∀ n v, v < t.size → t.climb n v < t.size := by
    intro n
    induction n with
    | zero => intro v hv; exact hv
    | succ n ih =>
      intro v hv
      rw [climb_succ]
      split
      · exact hv
      · exact ih _ (up_lt ht hv)
  exact hclimb _ _ h

@[simp] theorem root_root (v : Nat) : t.root (t.root v) = t.root v :=
  climb_of_up_eq (up_root ht v) _

@[simp] theorem value_root (v : Nat) : t.value (t.root v) = t.value v := by
  rw [value, root_root ht, value]

end Root

theorem root_of_up_eq (h : t.up v = v) : t.root v = v := climb_of_up_eq h _

theorem up_of_root_eq (ht : t.Forest) (h : t.root v = v) : t.up v = v := by
  have := up_root ht v
  rwa [h] at this

theorem root_of_not_lt (h : ¬ v < t.size) : t.root v = v := root_of_up_eq (up_of_not_lt h)

theorem value_of_not_lt (h : ¬ v < t.size) : t.value v = none := by
  rw [value, root_of_not_lt h, stored, Array.getElem?_eq_none (Nat.le_of_not_lt h)]
  rfl

theorem lt_of_value_eq_some {ty : Ty} (h : t.value v = some ty) : v < t.size := by
  by_contra hn
  rw [value_of_not_lt hn] at h
  cases h

/-! ## Allocation -/

theorem forest_empty : empty.Forest where
  parent_lt h := by simp [empty] at h
  rank_lt h := by simp [empty] at h

@[simp] theorem size_fresh (t : Table) : t.fresh.2.size = t.size + 1 := by simp [fresh, size]

theorem getElem?_fresh (t : Table) (v : Nat) :
    t.fresh.2.entries[v]? = if v = t.size then some ⟨t.size, 0, none⟩ else t.entries[v]? := by
  simp only [fresh, Array.getElem?_push]
  rfl

theorem up_fresh (t : Table) (v : Nat) : t.fresh.2.up v = t.up v := by
  rw [up, getElem?_fresh]
  split
  · next h => simp [h, up_of_not_lt]
  · rfl

theorem stored_fresh (t : Table) (v : Nat) : t.fresh.2.stored v = t.stored v := by
  rw [stored, getElem?_fresh]
  split
  · next h => simp [h, stored, size]
  · rfl

theorem forest_fresh (ht : t.Forest) : t.fresh.2.Forest where
  parent_lt {v e} h := by
    rw [getElem?_fresh] at h
    rw [size_fresh]
    split at h
    · cases h
      exact Nat.lt_succ_self _
    · exact Nat.lt_succ_of_lt (ht.parent_lt h)
  rank_lt {v e} h hne := by
    rw [getElem?_fresh] at h
    split at h
    · next hv =>
      cases h
      exact absurd hv.symm hne
    · have hp : e.parent ≠ t.size := (ht.parent_lt h).ne
      have hrank : t.fresh.2.rank e.parent = t.rank e.parent := by
        simp only [rank, getElem?_fresh, if_neg hp]
      rw [hrank]
      exact ht.rank_lt h hne

theorem root_fresh (ht : t.Forest) (v : Nat) : t.fresh.2.root v = t.root v := by
  symm
  refine eq_root (forest_fresh ht) ?_ ?_ v
  · intro w
    rw [up_fresh, root_up ht]
  · intro w hw
    rw [up_fresh] at hw
    exact root_of_up_eq hw

theorem value_fresh (ht : t.Forest) (v : Nat) : t.fresh.2.value v = t.value v := by
  rw [value, root_fresh ht, stored_fresh, value]

/-! ## Binding -/

@[simp] theorem size_bind (t : Table) (r : Nat) (ty : Ty) : (t.bind r ty).size = t.size := by
  simp [bind, size]

theorem getElem?_bind (t : Table) (r : Nat) (ty : Ty) (v : Nat) : (t.bind r ty).entries[v]? =
      if r = v then t.entries[v]?.map ({ · with value := some ty }) else t.entries[v]? := by
  simp only [bind, Array.getElem?_modify]

theorem up_bind (t : Table) (r : Nat) (ty : Ty) (v : Nat) : (t.bind r ty).up v = t.up v := by
  rw [up, getElem?_bind, up]
  split
  · rw [Option.map_map]
    rfl
  · rfl

theorem rank_bind (t : Table) (r : Nat) (ty : Ty) (v : Nat) : (t.bind r ty).rank v = t.rank v := by
  rw [rank, getElem?_bind, rank]
  by_cases h : r = v
  · rw [if_pos h]
    cases t.entries[v]? <;> rfl
  · rw [if_neg h]

theorem stored_bind (hr : r < t.size) (ty : Ty) (v : Nat) :
    (t.bind r ty).stored v = if r = v then some ty else t.stored v := by
  rw [stored, getElem?_bind, stored]
  split
  · next h =>
    subst h
    obtain ⟨e, he⟩ := exists_entry hr
    rw [he]
    rfl
  · rfl

theorem forest_bind (ht : t.Forest) (r : Nat) (ty : Ty) : (t.bind r ty).Forest where
  parent_lt {v e} h := by
    rw [getElem?_bind] at h
    rw [size_bind]
    split at h
    · obtain ⟨e', he', rfl⟩ := Option.map_eq_some_iff.1 h
      exact (ht.parent_lt he' : e'.parent < t.size)
    · exact ht.parent_lt h
  rank_lt {v e} h hne := by
    rw [getElem?_bind] at h
    rw [rank_bind]
    split at h
    · obtain ⟨e', he', rfl⟩ := Option.map_eq_some_iff.1 h
      exact (ht.rank_lt he' hne : e'.rank < t.rank e'.parent)
    · exact ht.rank_lt h hne

theorem root_bind (ht : t.Forest) (r : Nat) (ty : Ty) (v : Nat) :
    (t.bind r ty).root v = t.root v := by
  symm
  refine eq_root (forest_bind ht r ty) ?_ ?_ v
  · intro w
    rw [up_bind, root_up ht]
  · intro w hw
    rw [up_bind] at hw
    exact root_of_up_eq hw

theorem value_bind (ht : t.Forest) (hr : r < t.size) (ty : Ty) (v : Nat) :
    (t.bind r ty).value v = if t.root v = r then some ty else t.value v := by
  rw [value, root_bind ht, stored_bind hr, value]
  simp only [eq_comm]

/-! ## Union -/

/-- The table in which the root `drop` points at `keep`, whose rank is raised by `extra`. -/
def pointAt (t : Table) (drop keep extra : Nat) : Table :=
  ⟨(t.entries.modify drop ({ · with parent := keep })).modify keep fun e =>
    { e with rank := e.rank + extra }⟩

section PointAt

variable {t : Table} {drop keep extra : Nat}

theorem getElem?_pointAt (hne : drop ≠ keep) (v : Nat) : (t.pointAt drop keep extra).entries[v]? =
      if v = drop then t.entries[v]?.map ({ · with parent := keep })
      else if v = keep then t.entries[v]?.map fun e => { e with rank := e.rank + extra }
      else t.entries[v]? := by
  simp only [pointAt, Array.getElem?_modify]
  grind

@[simp] theorem size_pointAt : (t.pointAt drop keep extra).size = t.size := by
  simp [pointAt, size]

theorem up_pointAt (hne : drop ≠ keep) (hd : drop < t.size) (v : Nat) :
    (t.pointAt drop keep extra).up v = if v = drop then keep else t.up v := by
  obtain ⟨e, hdrop⟩ := exists_entry hd
  rw [up, getElem?_pointAt hne, up]
  by_cases h : v = drop
  · subst h
    simp [hdrop]
  · by_cases hk : v = keep
    · rw [if_neg h, if_neg h, if_pos hk, Option.map_map]
      rfl
    · rw [if_neg h, if_neg h, if_neg hk]

theorem stored_pointAt (hne : drop ≠ keep) (v : Nat) :
    (t.pointAt drop keep extra).stored v = t.stored v := by
  rw [stored, getElem?_pointAt hne, stored]
  split
  · cases t.entries[v]? <;> rfl
  · split
    · cases t.entries[v]? <;> rfl
    · rfl

theorem rank_pointAt (hne : drop ≠ keep) (hk : keep < t.size) (v : Nat) :
    (t.pointAt drop keep extra).rank v = if v = keep then t.rank v + extra else t.rank v := by
  obtain ⟨e, hkeep⟩ := exists_entry hk
  rw [rank, getElem?_pointAt hne, rank]
  by_cases h : v = drop
  · subst h
    rw [if_pos rfl, if_neg hne]
    cases t.entries[v]? <;> rfl
  · rw [if_neg h]
    by_cases hv : v = keep
    · subst hv
      simp [hkeep]
    · rw [if_neg hv, if_neg hv]

/-- The ranks still rise: below `keep` they were lower already, and `drop` comes out lower. -/
theorem forest_pointAt (ht : t.Forest) (hne : drop ≠ keep) (hk : keep < t.size)
    (hroot : t.up keep = keep) (hrank : t.rank drop < t.rank keep + extra) :
    (t.pointAt drop keep extra).Forest where
  parent_lt {v e} h := by
    rw [getElem?_pointAt hne] at h
    rw [size_pointAt]
    split at h
    · obtain ⟨e', -, rfl⟩ := Option.map_eq_some_iff.1 h
      exact hk
    · split at h
      · obtain ⟨e', he', rfl⟩ := Option.map_eq_some_iff.1 h
        exact (ht.parent_lt he' : e'.parent < t.size)
      · exact ht.parent_lt h
  rank_lt {v e} h hne' := by
    rw [getElem?_pointAt hne] at h
    rw [rank_pointAt hne hk]
    split at h
    · next hv =>
      obtain ⟨e', he', rfl⟩ := Option.map_eq_some_iff.1 h
      have hrank' : e'.rank = t.rank drop := by simp [rank, ← hv, he']
      simp only [if_true]
      omega
    · split at h
      · next hv =>
        -- `keep` is a root, so its entry points at itself
        obtain ⟨e', he', rfl⟩ := Option.map_eq_some_iff.1 h
        subst hv
        exact absurd (by simpa [up, he'] using hroot) hne'
      · have hlt := ht.rank_lt h hne'
        split <;> omega

theorem root_pointAt (ht : t.Forest) (hne : drop ≠ keep) (hd : drop < t.size) (hk : keep < t.size)
    (hdrop : t.up drop = drop) (hkeep : t.up keep = keep)
    (hrank : t.rank drop < t.rank keep + extra) (v : Nat) :
    (t.pointAt drop keep extra).root v = if t.root v = drop then keep else t.root v := by
  symm
  refine eq_root (forest_pointAt ht hne hk hkeep hrank) (f := fun v =>
    if t.root v = drop then keep else t.root v) ?_ ?_ v
  · intro w
    rw [up_pointAt hne hd]
    by_cases hw : w = drop
    · subst hw
      simp only [if_true, root_of_up_eq hdrop, root_of_up_eq hkeep, if_neg hne.symm]
    · simp only [if_neg hw, root_up ht]
  · intro w hw
    rw [up_pointAt hne hd] at hw
    by_cases hwd : w = drop
    · rw [if_pos hwd] at hw
      exact absurd (hw.trans hwd) hne.symm
    · rw [if_neg hwd] at hw
      simp only [root_of_up_eq hw, if_neg hwd]

end PointAt

/-- A union makes one of the two roots point at the other and keeps the ranks rising. -/
theorem union_eq_pointAt (t : Table) (a b : Nat) :
    (t.union a b = t.pointAt b a 0 ∧ t.rank b < t.rank a + 0) ∨
      ∃ extra, t.union a b = t.pointAt a b extra ∧ t.rank a < t.rank b + extra := by
  have hzero : ∀ (es : Array Table.Entry) (i : Nat),
      es.modify i (fun e => { e with rank := e.rank + 0 }) = es := by
    intro es i
    ext j hj hj' <;> simp [Array.getElem_modify]
  unfold union
  split
  · next h => exact Or.inl ⟨by simp only [pointAt, hzero], by omega⟩
  · split
    · next h => exact Or.inr ⟨0, by simp only [pointAt, hzero], by omega⟩
    · exact Or.inr ⟨1, rfl, by omega⟩

/-- What a union of two unbound roots does: the class of one of them, `drop`, goes to the other. -/
structure Joins (t t' : Table) (keep drop : Nat) : Prop where
  forest : t'.Forest
  size_eq : t'.size = t.size
  root_eq : ∀ v, t'.root v = if t.root v = drop then keep else t.root v
  value_eq : ∀ v, t'.value v = t.value v

theorem joins_pointAt (ht : t.Forest) {drop keep extra : Nat} (hne : drop ≠ keep)
    (hd : drop < t.size) (hk : keep < t.size) (hdrop : t.root drop = drop)
    (hkeep : t.root keep = keep) (hdropv : t.value drop = none) (hkeepv : t.value keep = none)
    (hrank : t.rank drop < t.rank keep + extra) :
    t.Joins (t.pointAt drop keep extra) keep drop := by
  have hud := up_of_root_eq ht hdrop
  have huk := up_of_root_eq ht hkeep
  have hroot := root_pointAt ht hne hd hk hud huk hrank
  refine ⟨forest_pointAt ht hne hk huk hrank, size_pointAt, hroot, ?_⟩
  intro v
  rw [value, hroot, stored_pointAt hne]
  by_cases h : t.root v = drop
  · rw [value, hkeep] at hkeepv
    rw [value, hdrop] at hdropv
    rw [if_pos h, value, h, hdropv, hkeepv]
  · rw [if_neg h, value]

theorem union_spec (ht : t.Forest) {a b : Nat} (hne : a ≠ b) (ha : a < t.size) (hb : b < t.size)
    (hra : t.root a = a) (hrb : t.root b = b) (hva : t.value a = none) (hvb : t.value b = none) :
    t.Joins (t.union a b) a b ∨ t.Joins (t.union a b) b a := by
  rcases union_eq_pointAt t a b with ⟨h, hrank⟩ | ⟨extra, h, hrank⟩
  · rw [h]
    exact Or.inl (joins_pointAt ht hne.symm hb ha hrb hra hvb hva hrank)
  · rw [h]
    exact Or.inr (joins_pointAt ht hne ha hb hra hrb hva hvb hrank)

end BlockGraph.Table
