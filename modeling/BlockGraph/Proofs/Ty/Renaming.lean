import BlockGraph.Proofs.Ty.Descent

/-!
# Renaming the variables of a table

Two tables can hold the same classes under other numbers.  `Table.Embeds f S t t'` says that `f`
takes the variables in `S`, which are closed under what `t` knows of them, one to one to variables
of `t'` of which `t'` knows the same.  Every operation commutes with such a renaming:

* `Embeds.root_eq`, `Embeds.value_eq`, `Embeds.head_eq` for the lookups;
* `Embeds.image_eq` for resolution;
* `Embeds.leads_iff` for the occurs check;
* `Embeds.fresh`, `Embeds.bind` and `Embeds.union` for what a table can learn;
* `Embeds.unify` for unification: it ends the same way, in tables that embed again, and reports the
  same clash under other numbers.

`Table.Carries` says that a table goes on from another and has changed nothing of what that knew.
-/

namespace BlockGraph

variable {r v : Nat} {ty : Ty} {S S' : Nat → Prop} {c : Clash}

open Relation

/-! ## Types -/

namespace Ty

/-- The type with other numbers for its variables. -/
def rename (f : Nat → Nat) (ty : Ty) : Ty := ty.subst fun v => .var (f v)

variable {f g : Nat → Nat}

@[simp] theorem rename_var (f : Nat → Nat) (v : Nat) : (var v).rename f = var (f v) := rfl

@[simp] theorem rename_app (f : Nat → Nat) (name : String) (args : List Ty) :
    (app name args).rename f = app name (args.map (rename f)) :=
  subst_app _ name args

@[simp] theorem rename_fn (f : Nat → Nat) (arg result : Ty) :
    (fn arg result).rename f = fn (arg.rename f) (result.rename f) := rfl

theorem rename_congr (h : ∀ v ∈ ty.occurrences, f v = g v) : ty.rename f = ty.rename g :=
  subst_congr fun v hv => by rw [h v hv]

theorem rename_rename (f g : Nat → Nat) (ty : Ty) : (ty.rename f).rename g = ty.rename (g ∘ f) :=
  subst_subst _ _ ty

theorem rename_id (ty : Ty) : ty.rename id = ty := by
  induction ty using Ty.induction with
  | var v | con name => rfl
  | app name args ih =>
    rw [rename_app, List.map_congr_left ih]
    simp
  | fn arg result harg hresult => rw [rename_fn, harg, hresult]

theorem mem_occurrences_rename {u : Nat} : u ∈ (ty.rename f).occurrences ↔
    ∃ v ∈ ty.occurrences, u = f v := by
  simp [rename, mem_occurrences_subst]

@[simp] theorem isVar_rename (f : Nat → Nat) (ty : Ty) : (ty.rename f).isVar = ty.isVar := by
  cases ty <;> rfl

/-- Every variable of the type is in `S`. -/
def Within (S : Nat → Prop) (ty : Ty) : Prop := ∀ v ∈ ty.occurrences, S v

theorem Within.mono (h : ty.Within S) (hS : ∀ v, S v → S' v) :
    ty.Within S' := fun v hv => hS v (h v hv)

@[simp] theorem within_var : (var v).Within S ↔ S v := by
  simp [Within]

end Ty

def Clash.rename (f : Nat → Nat) : Clash → Clash
  | .mismatch expected found => .mismatch (expected.rename f) (found.rename f)
  | .infinite v ty => .infinite (f v) (ty.rename f)

/-- Every variable of the clash is in `S`. -/
def Clash.Within (S : Nat → Prop) : Clash → Prop
  | .mismatch expected found => expected.Within S ∧ found.Within S
  | .infinite v ty => S v ∧ ty.Within S

def TypeError.rename (f : Nat → Nat) (e : TypeError) : TypeError := ⟨e.clash.rename f, e.origin⟩

theorem Clash.rename_congr {f g : Nat → Nat} (hc : c.Within S)
    (h : ∀ v, S v → f v = g v) : c.rename f = c.rename g := by
  cases c with
  | mismatch expected found =>
    simp only [Clash.rename, Ty.rename_congr fun v hv => h v (hc.1 v hv),
      Ty.rename_congr fun v hv => h v (hc.2 v hv)]
  | infinite v ty => simp only [Clash.rename, h v hc.1, Ty.rename_congr fun u hu => h u (hc.2 u hu)]

theorem Clash.Within.mono (hc : c.Within S) (hS : ∀ v, S v → S' v) : c.Within S' := by
  cases c with
  | mismatch expected found => exact ⟨hc.1.mono hS, hc.2.mono hS⟩
  | infinite v ty => exact ⟨hS v hc.1, hc.2.mono hS⟩

namespace Table

open Loop

variable {f : Nat → Nat} {S : Nat → Prop} {t t' t'' : Table} {a b : Ty} {pairs : List (Ty × Ty)}

/-! ## Going on from a table -/

/-- `t'` has more variables, and knows of those of `t` what `t` knew. -/
structure Carries (t t' : Table) : Prop where
  size_le : t.size ≤ t'.size
  entry : ∀ v < t.size, t'.entries[v]? = t.entries[v]?

namespace Carries

theorem refl (t : Table) : t.Carries t := ⟨le_rfl, fun _ _ => rfl⟩

theorem trans (h : t.Carries t') (h' : t'.Carries t'') : t.Carries t'' where
  size_le := h.size_le.trans h'.size_le
  entry v hv := by rw [h'.entry v (hv.trans_le h.size_le), h.entry v hv]

theorem fresh (t : Table) : t.Carries t.fresh.2 where
  size_le := by simp
  entry v hv := by rw [getElem?_fresh, if_neg hv.ne]

theorem freshMany (t : Table) (n : Nat) : t.Carries (t.freshMany n).2 := by
  induction n generalizing t with
  | zero => exact refl t
  | succ n ih => exact (fresh t).trans (ih t.fresh.2)

end Carries

/-! ## Embeddings -/

def Entry.rename (f : Nat → Nat) (e : Entry) : Entry :=
  ⟨f e.parent, e.rank, e.value.map (Ty.rename f)⟩

/-- What an entry speaks of is in `S`. -/
def Entry.Within (S : Nat → Prop) (e : Entry) : Prop := S e.parent ∧ ∀ ty, e.value = some ty →
  ty.Within S

/-- `f` places the variables in `S`, with all that `t` knows of them, in `t'`. -/
structure Embeds (f : Nat → Nat) (S : Nat → Prop) (t t' : Table) : Prop where
  inj : ∀ {u v : Nat}, S u → S v → f u = f v → u = v
  entry : ∀ {v : Nat}, S v → ∃ e, t.entries[v]? = some e ∧ e.Within S ∧
    t'.entries[f v]? = some (e.rename f)

namespace Embeds

theorem none (f : Nat → Nat) (t t' : Table) : Embeds f (fun _ => False) t t' :=
  ⟨fun h => h.elim, fun h => h.elim⟩

section

variable (h : Embeds f S t t')
include h

theorem lt_size (hv : S v) : v < t.size := by
  obtain ⟨e, he, -⟩ := h.entry hv
  exact (Array.getElem?_eq_some_iff.1 he).1

theorem map_lt_size (hv : S v) : f v < t'.size := by
  obtain ⟨e, -, -, he⟩ := h.entry hv
  exact (Array.getElem?_eq_some_iff.1 he).1

theorem covers (hty : ty.Within S) : t.Covers ty := fun v hv => h.lt_size (hty v hv)

theorem covers_rename (hty : ty.Within S) : t'.Covers (ty.rename f) := by
  intro u hu
  obtain ⟨v, hv, rfl⟩ := Ty.mem_occurrences_rename.1 hu
  exact h.map_lt_size (hty v hv)

theorem congr {g : Nat → Nat} (hg : ∀ v, S v → f v = g v) : Embeds g S t t' where
  inj hu hv huv := h.inj hu hv (by rw [hg _ hu, hg _ hv, huv])
  entry {v} hv := by
    obtain ⟨e, he, hwithin, he'⟩ := h.entry hv
    refine ⟨e, he, hwithin, ?_⟩
    rw [← hg v hv, he']
    have hvalue : e.value.map (Ty.rename f) = e.value.map (Ty.rename g) := by
      cases hval : e.value with
      | none => rfl
      | some ty =>
        exact congrArg some (Ty.rename_congr fun u hu => hg u (hwithin.2 ty hval u hu))
    simp only [Entry.rename, hg _ hwithin.1, hvalue]

/-- What lies outside of the two parts does not matter. -/
theorem frame {u u' : Table} (ht : ∀ v, S v → u.entries[v]? = t.entries[v]?)
    (ht' : ∀ v, S v → u'.entries[f v]? = t'.entries[f v]?) : Embeds f S u u' where
  inj := h.inj
  entry {v} hv := by
    obtain ⟨e, he, hwithin, he'⟩ := h.entry hv
    exact ⟨e, by rw [ht v hv, he], hwithin, by rw [ht' v hv, he']⟩

/-! ### Lookups -/

theorem up_eq (hv : S v) : t'.up (f v) = f (t.up v) := by
  obtain ⟨e, he, -, he'⟩ := h.entry hv
  simp [up, he, he', Entry.rename]

theorem up_mem (hv : S v) : S (t.up v) := by
  obtain ⟨e, he, hwithin, -⟩ := h.entry hv
  simpa [up, he] using hwithin.1

theorem stored_eq (hv : S v) : t'.stored (f v) = (t.stored v).map (Ty.rename f) := by
  obtain ⟨e, he, -, he'⟩ := h.entry hv
  simp [stored, he, he', Entry.rename]

theorem stored_within (hv : S v) (hty : t.stored v = some ty) : ty.Within S := by
  obtain ⟨e, he, hwithin, -⟩ := h.entry hv
  exact hwithin.2 ty (by simpa [stored, he] using hty)

theorem rank_eq (hv : S v) : t'.rank (f v) = t.rank v := by
  obtain ⟨e, he, -, he'⟩ := h.entry hv
  simp [rank, he, he', Entry.rename]

theorem climb_eq (n : Nat) :
    ∀ {v : Nat}, S v → S (t.climb n v) ∧ t'.climb n (f v) = f (t.climb n v) := by
  induction n with
  | zero => exact fun hv => ⟨hv, rfl⟩
  | succ n ih =>
    intro v hv
    rw [climb_succ, climb_succ, h.up_eq hv]
    by_cases hup : t.up v = v
    · rw [if_pos hup, if_pos (by rw [hup])]
      exact ⟨hv, rfl⟩
    · rw [if_neg hup, if_neg fun heq => hup (h.inj (h.up_mem hv) hv heq)]
      exact ih (h.up_mem hv)

end

section Sound

variable (h : Embeds f S t t') (ht : t.Sound) (ht' : t'.Sound) {s' : Nat}

include h ht ht'

/-- The chains have the same length on both sides; the longer bound serves both. -/
theorem root_eq (hv : S v) : t'.root (f v) = f (t.root v) := by
  have hleft : t.climb (max t.size t'.size) v = t.root v :=
    climb_eq_climb (up_root ht.forest v) (le_max_left _ _)
  have hright : t'.climb (max t.size t'.size) (f v) = t'.root (f v) :=
    climb_eq_climb (up_root ht'.forest (f v)) (le_max_right _ _)
  rw [← hleft, ← hright]
  exact (h.climb_eq _ hv).2

omit ht ht' in
theorem root_mem (hv : S v) : S (t.root v) := (h.climb_eq _ hv).1

theorem value_eq (hv : S v) : t'.value (f v) = (t.value v).map (Ty.rename f) := by
  rw [value, h.root_eq ht ht' hv, h.stored_eq (h.root_mem hv), value]

omit ht ht' in
theorem value_within (hv : S v) (hty : t.value v = some ty) : ty.Within S :=
  h.stored_within (h.root_mem hv) hty

theorem head_eq (hty : ty.Within S) (ha : t.head ty = .ok a) :
    a.Within S ∧ t'.head (ty.rename f) = .ok (a.rename f) := by
  cases ty with
  | var v =>
    have hv : S v := Ty.within_var.1 hty
    rw [head_var (h.lt_size hv)] at ha
    rw [Ty.rename_var, head_var (h.map_lt_size hv), h.value_eq ht ht' hv, h.root_eq ht ht' hv]
    cases hval : t.value v with
    | none =>
      rw [hval] at ha
      cases ha
      exact ⟨Ty.within_var.2 (h.root_mem hv), rfl⟩
    | some inner =>
      rw [hval] at ha
      cases ha
      exact ⟨h.value_within hv hval, rfl⟩
  | con name => cases ha; exact ⟨hty, rfl⟩
  | app name args =>
    cases ha
    exact ⟨hty, by rw [head_of_not_var (by rw [Ty.isVar_rename]; rfl)]⟩
  | fn arg result => cases ha; exact ⟨hty, rfl⟩

/-! ### What leads where -/

theorem binds_iff (hr : S r) : t'.Binds (f r) s' ↔ ∃ s, S s ∧ s' = f s ∧ t.Binds r s := by
  simp only [Table.binds_iff, h.root_eq ht ht' hr, h.value_eq ht ht' hr]
  constructor
  · rintro ⟨hroot, ty', hty', u', hu', -, rfl⟩
    obtain ⟨ty, hty, rfl⟩ := Option.map_eq_some_iff.1 hty'
    obtain ⟨u, hu, rfl⟩ := Ty.mem_occurrences_rename.1 hu'
    have hSu : S u := h.value_within hr hty u hu
    exact ⟨t.root u, h.root_mem hSu, h.root_eq ht ht' hSu, h.inj (h.root_mem hr) hr hroot, ty, hty,
      u, hu, h.lt_size hSu, rfl⟩
  · rintro ⟨s, -, rfl, hroot, ty, hty, u, hu, -, rfl⟩
    have hSu : S u := h.value_within hr hty u hu
    exact ⟨by rw [hroot], ty.rename f, by rw [hty, Option.map_some], f u,
      Ty.mem_occurrences_rename.2 ⟨u, hu, rfl⟩, h.map_lt_size hSu, h.root_eq ht ht' hSu⟩

theorem leads_iff (hr : S r) :
    ReflTransGen t'.Binds (f r) s' ↔ ∃ s, S s ∧ s' = f s ∧ ReflTransGen t.Binds r s := by
  constructor
  · intro hpath
    induction hpath with
    | refl => exact ⟨r, hr, rfl, .refl⟩
    | tail _ hstep ih =>
      obtain ⟨m, hm, rfl, hrm⟩ := ih
      obtain ⟨s, hs, rfl, hms⟩ := (h.binds_iff ht ht' hm).1 hstep
      exact ⟨s, hs, rfl, hrm.tail hms⟩
  · rintro ⟨s, -, rfl, hpath⟩
    have hboth : S s ∧ ReflTransGen t'.Binds (f r) (f s) := by
      induction hpath with
      | refl => exact ⟨hr, .refl⟩
      | tail _ hstep ih =>
        obtain ⟨-, ty, hval, u, hu, -, rfl⟩ := Table.binds_iff.1 hstep
        have hmem : S (t.root u) := h.root_mem (h.value_within ih.1 hval u hu)
        exact ⟨hmem, ih.2.tail ((h.binds_iff ht ht' ih.1).2 ⟨_, hmem, rfl, hstep⟩)⟩
    exact hboth.2

theorem occurs_eq (hv : S v) (hty : ty.Within S) :
    t'.occurs (f v) (ty.rename f) = t.occurs v ty := by
  obtain ⟨found, hfound, hiff⟩ := ht.occurs_spec (h.lt_size hv) (h.covers hty)
  obtain ⟨found', hfound', hiff'⟩ := ht'.occurs_spec (h.map_lt_size hv) (h.covers_rename hty)
  have hsame : found' = true ↔ found = true := by
    rw [hiff, hiff']
    constructor
    · rintro ⟨u', hu', hpath⟩
      obtain ⟨u, hu, rfl⟩ := Ty.mem_occurrences_rename.1 hu'
      rw [h.root_eq ht ht' (hty u hu)] at hpath
      obtain ⟨s, hs, heq, hpath⟩ := (h.leads_iff ht ht' (h.root_mem (hty u hu))).1 hpath
      rw [h.root_eq ht ht' hv] at heq
      rw [h.inj (h.root_mem hv) hs heq]
      exact ⟨u, hu, hpath⟩
    · rintro ⟨u, hu, hpath⟩
      refine ⟨f u, Ty.mem_occurrences_rename.2 ⟨u, hu, rfl⟩, ?_⟩
      rw [h.root_eq ht ht' (hty u hu), h.root_eq ht ht' hv]
      exact (h.leads_iff ht ht' (h.root_mem (hty u hu))).2 ⟨_, h.root_mem hv, rfl, hpath⟩
  rw [hfound, hfound']
  cases found <;> cases found' <;> simp_all

/-! ### Resolution -/

theorem image_eq (hv : S v) : (t.image v).Within S ∧ t'.image (f v) = (t.image v).rename f := by
  refine ht.binding_induction
    (p := fun v => S v → (t.image v).Within S ∧ t'.image (f v) = (t.image v).rename f)
    (fun v hlt ih hv => ?_) (h.lt_size hv) hv
  have hval' := h.value_eq ht ht' hv
  cases hval : t.value v with
  | none =>
    rw [hval, Option.map_none] at hval'
    rw [ht.image_of_none hlt hval, ht'.image_of_none (h.map_lt_size hv) hval', h.root_eq ht ht' hv]
    exact ⟨Ty.within_var.2 (h.root_mem hv), rfl⟩
  | some inner =>
    rw [hval, Option.map_some] at hval'
    have hinner := h.value_within hv hval
    rw [ht.image_of_some hval, ht'.image_of_some hval']
    constructor
    · intro u hu
      obtain ⟨w, hw, hu⟩ := Ty.mem_occurrences_subst.1 hu
      exact (ih inner hval w hw (hinner w hw)).1 u hu
    · rw [Ty.rename, Ty.rename, Ty.subst_subst, Ty.subst_subst]
      exact Ty.subst_congr fun w hw => (ih inner hval w hw (hinner w hw)).2

theorem subst_image_eq (hty : ty.Within S) :
    (ty.subst t.image).Within S ∧ (ty.rename f).subst t'.image = (ty.subst t.image).rename f := by
  constructor
  · intro u hu
    obtain ⟨v, hv, hu⟩ := Ty.mem_occurrences_subst.1 hu
    exact (h.image_eq ht ht' (hty v hv)).1 u hu
  · rw [Ty.rename, Ty.rename, Ty.subst_subst, Ty.subst_subst]
    exact Ty.subst_congr fun v hv => (h.image_eq ht ht' (hty v hv)).2

/-- A type and its renaming resolve to the same, renamed. -/
theorem resolve_eq (hty : ty.Within S) : ∃ r, t.resolve ty = .ok r ∧ r.Within S ∧
    t'.resolve (ty.rename f) = .ok (r.rename f) := by
  obtain ⟨hwithin, heq⟩ := h.subst_image_eq ht ht' hty
  exact ⟨_, ht.resolve_eq (h.covers hty), hwithin,
    by rw [ht'.resolve_eq (h.covers_rename hty), heq]⟩

end Sound

/-! ### Learning -/

variable (h : Embeds f S t t')
include h

theorem bind (hr : S r) (hty : ty.Within S) :
    Embeds f S (t.bind r ty) (t'.bind (f r) (ty.rename f)) where
  inj := h.inj
  entry {v} hv := by
    obtain ⟨e, he, hwithin, he'⟩ := h.entry hv
    rw [getElem?_bind, getElem?_bind, he, he']
    by_cases hrv : r = v
    · rw [if_pos hrv, if_pos (by rw [hrv])]
      refine ⟨_, rfl, ⟨hwithin.1, fun ty' hty' => ?_⟩, rfl⟩
      cases hty'
      exact hty
    · rw [if_neg hrv, if_neg fun heq => hrv (h.inj hr hv heq)]
      exact ⟨e, rfl, hwithin, rfl⟩

theorem pointAt {drop keep : Nat} (hdrop : S drop) (hkeep : S keep) (hne : drop ≠ keep)
    (extra : Nat) :
    Embeds f S (t.pointAt drop keep extra) (t'.pointAt (f drop) (f keep) extra) where
  inj := h.inj
  entry {v} hv := by
    obtain ⟨e, he, hwithin, he'⟩ := h.entry hv
    have hne' : f drop ≠ f keep := fun heq => hne (h.inj hdrop hkeep heq)
    rw [getElem?_pointAt hne, getElem?_pointAt hne', he, he']
    by_cases hvd : v = drop
    · rw [if_pos hvd, if_pos (by rw [hvd])]
      exact ⟨_, rfl, ⟨hkeep, hwithin.2⟩, rfl⟩
    · rw [if_neg hvd, if_neg fun heq => hvd (h.inj hv hdrop heq)]
      by_cases hvk : v = keep
      · rw [if_pos hvk, if_pos (by rw [hvk])]
        exact ⟨_, rfl, hwithin, rfl⟩
      · rw [if_neg hvk, if_neg fun heq => hvk (h.inj hv hkeep heq)]
        exact ⟨e, rfl, hwithin, rfl⟩

/-- The ranks are the same, so the same root survives. -/
theorem union {a b : Nat} (ha : S a) (hb : S b) (hne : a ≠ b) :
    Embeds f S (t.union a b) (t'.union (f a) (f b)) := by
  have hzero : ∀ (t : Table) (drop keep : Nat),
      (⟨t.entries.modify drop ({ · with parent := keep })⟩ : Table) = t.pointAt drop keep 0 := by
    intro t drop keep
    refine congrArg Table.mk ?_
    ext j hj hj' <;> simp [Array.getElem_modify]
  unfold Table.union
  rw [h.rank_eq ha, h.rank_eq hb]
  split
  · simp only [hzero]
    exact h.pointAt hb ha hne.symm 0
  · split
    · simp only [hzero]
      exact h.pointAt ha hb hne 0
    · exact h.pointAt ha hb hne 1

theorem fresh :
    Embeds (Function.update f t.size t'.size) (fun v => S v ∨ v = t.size) t.fresh.2 t'.fresh.2 := by
  have hold : ∀ {v : Nat}, S v → v ≠ t.size := fun hv => (h.lt_size hv).ne
  have hupdate : ∀ {v : Nat}, S v → Function.update f t.size t'.size v = f v := fun hv =>
    Function.update_of_ne (hold hv) _ _
  refine ⟨?_, ?_⟩
  · rintro u v (hu | rfl) (hv | rfl) heq
    · rw [hupdate hu, hupdate hv] at heq
      exact h.inj hu hv heq
    · rw [hupdate hu, Function.update_self] at heq
      exact absurd heq (h.map_lt_size hu).ne
    · rw [hupdate hv, Function.update_self] at heq
      exact absurd heq.symm (h.map_lt_size hv).ne
    · rfl
  · rintro v (hv | rfl)
    · obtain ⟨e, he, hwithin, he'⟩ := (h.congr fun v hv => (hupdate hv).symm).entry hv
      refine ⟨e, by rw [getElem?_fresh, if_neg (hold hv), he], ⟨.inl hwithin.1, fun ty hty =>
        (hwithin.2 ty hty).mono fun _ => .inl⟩, ?_⟩
      rw [hupdate hv] at he' ⊢
      rw [getElem?_fresh, if_neg (h.map_lt_size hv).ne, he']
    · refine ⟨⟨t.size, 0, Option.none⟩, by rw [getElem?_fresh, if_pos rfl], ⟨.inr rfl, by simp⟩, ?_⟩
      rw [Function.update_self, getElem?_fresh, if_pos rfl]
      simp [Entry.rename]

theorem freshMany (n : Nat) :
    ∃ g, (∀ v, S v → g v = f v) ∧ (∀ i < n, g (t.size + i) = t'.size + i) ∧
      Embeds g (fun v => S v ∨ t.size ≤ v ∧ v < t.size + n) (t.freshMany n).2
      (t'.freshMany n).2 := by
  induction n generalizing t t' f S with
  | zero =>
    refine ⟨f, fun _ _ => rfl, fun i hi => absurd hi (Nat.not_lt_zero i), ?_⟩
    have hiff : (fun v => S v ∨ t.size ≤ v ∧ v < t.size + 0) = S := by
      funext v
      exact propext ⟨fun hv => hv.elim id fun h => by omega, .inl⟩
    rw [hiff]
    exact h
  | succ n ih =>
    obtain ⟨g, hold, hnew, hembeds⟩ := ih h.fresh
    simp only [size_fresh] at hnew hembeds
    refine ⟨g, fun v hv => ?_, fun i hi => ?_, ?_⟩
    · rw [hold v (.inl hv), Function.update_of_ne (h.lt_size hv).ne]
    · cases i with
      | zero => rw [Nat.add_zero, hold _ (.inr rfl), Function.update_self, Nat.add_zero]
      | succ i =>
        rw [← Nat.add_assoc, Nat.add_right_comm, hnew i (by omega)]
        omega
    · have hiff : (fun v => S v ∨ t.size ≤ v ∧ v < t.size + (n + 1)) = fun v =>
          (S v ∨ v = t.size) ∨ t.size + 1 ≤ v ∧ v < t.size + 1 + n := by
        funext v
        refine propext ⟨?_, ?_⟩
        · rintro (hv | hv)
          · exact .inl (.inl hv)
          · rcases Nat.eq_or_lt_of_le hv.1 with heq | hlt
            · exact .inl (.inr heq.symm)
            · exact .inr ⟨hlt, by omega⟩
        · rintro ((hv | rfl) | hv)
          · exact .inl hv
          · exact .inr ⟨le_rfl, by omega⟩
          · exact .inr ⟨by omega, by omega⟩
      rw [hiff]
      exact hembeds

/-- More variables on the left, of which nothing is said. -/
theorem carries_left (ht : t.Carries t'') : Embeds f S t'' t' :=
  h.frame (fun v hv => ht.entry v (h.lt_size hv)) fun _ _ => rfl

theorem carries_right (ht : t'.Carries t'') : Embeds f S t t'' :=
  h.frame (fun _ _ => rfl) fun v hv => ht.entry (f v) (h.map_lt_size hv)

end Embeds

/-! ## Unification -/

/-- Entries outside of `S` are as they were. -/
def Leaves (S : Nat → Prop) (t u : Table) : Prop := ∀ v, ¬ S v → u.entries[v]? = t.entries[v]?

theorem Leaves.bind (hr : S r) (t : Table) (ty : Ty) : Leaves S t (t.bind r ty) := by
  intro v hv
  rw [getElem?_bind, if_neg]
  rintro rfl
  exact hv hr

theorem Leaves.union {a b : Nat} (ha : S a) (hb : S b) (hne : a ≠ b) (t : Table) :
    Leaves S t (t.union a b) := by
  intro v hv
  have hva : v ≠ a := fun h => hv (h ▸ ha)
  have hvb : v ≠ b := fun h => hv (h ▸ hb)
  obtain ⟨heq, -⟩ | ⟨extra, heq, -⟩ := union_eq_pointAt t a b
  · rw [heq, getElem?_pointAt hne.symm, if_neg hvb, if_neg hva]
  · rw [heq, getElem?_pointAt hne, if_neg hva, if_neg hvb]

/-- Two ends of a unification that are the same under `f`. -/
inductive Mirrors (f : Nat → Nat) (S : Nat → Prop) (t : Table) : Outcome → Outcome → Prop
  | done {u u' : Table} (h : Embeds f S u u') (hleaves : Leaves S t u) :
  Mirrors f S t (.done u) (.done u')
  | clash {u u' : Table} {c : Clash} (h : Embeds f S u u') (hleaves : Leaves S t u)
      (hc : c.Within S) :
      Mirrors f S t (.stopped (.clash c) u) (.stopped (.clash (c.rename f)) u')

def renamePairs (f : Nat → Nat) (pairs : List (Ty × Ty)) : List (Ty × Ty) :=
  pairs.map fun p => (p.1.rename f, p.2.rename f)

/-- All types of some pairs are in `S`. -/
def PairsWithin (S : Nat → Prop) (pairs : List (Ty × Ty)) : Prop := ∀ p ∈ pairs, p.1.Within S ∧
  p.2.Within S

/-- What a round on one side says about the round on the other. -/
def RoundMirrors (f : Nat → Nat) (S : Nat → Prop) (t : Table) (x x' : Worklist ⊕ Outcome) : Prop :=
  (∃ u u' pairs, x = .inl (u, pairs) ∧ x' = .inl (u', renamePairs f pairs) ∧ Embeds f S u u' ∧
      Leaves S t u ∧ PairsWithin S pairs) ∨
    ∃ o o', x = .inr o ∧ x' = .inr o' ∧ Mirrors f S t o o'

namespace Embeds

section Round

variable (h : Embeds f S t t') (ht : t.Sound) (ht' : t'.Sound) {rest : List (Ty × Ty)}
  (hrest : PairsWithin S rest)

include h ht ht'

theorem mismatch (ha : a.Within S) (hb : b.Within S) :
    Mirrors f S t (t.mismatch a b) (t'.mismatch (a.rename f) (b.rename f)) := by
  obtain ⟨x, hx, hxS, hx'⟩ := h.resolve_eq ht ht' ha
  obtain ⟨y, hy, hyS, hy'⟩ := h.resolve_eq ht ht' hb
  have heq : t.mismatch a b = .stopped (.clash (.mismatch x y)) t := by
    simp only [Table.mismatch, hx, hy, proceed]
  have heq' : t'.mismatch (a.rename f) (b.rename f) =
      .stopped (.clash (.mismatch (x.rename f) (y.rename f))) t' := by
    simp only [Table.mismatch, hx', hy', proceed]
  rw [heq, heq']
  exact .clash (c := .mismatch x y) h (fun _ _ => rfl) ⟨hxS, hyS⟩

include hrest

theorem round_assign (hv : S v) (hty : ty.Within S) :
    RoundMirrors f S t (carryOn rest (t.assign v ty))
      (carryOn (renamePairs f rest) (t'.assign (f v) (ty.rename f))) := by
  obtain ⟨found, hfound, -⟩ := ht.occurs_spec (h.lt_size hv) (h.covers hty)
  have hassign : t.assign v ty =
      if found then .stopped (.clash (.infinite v ty)) t else .done (t.bind v ty) := by
    simp only [assign, hfound, proceed]
  have hassign' : t'.assign (f v) (ty.rename f) =
      if found then .stopped (.clash (.infinite (f v) (ty.rename f))) t'
      else .done (t'.bind (f v) (ty.rename f)) := by
    simp only [assign, h.occurs_eq ht ht' hv hty, hfound, proceed]
  rw [hassign, hassign']
  cases found with
  | true => exact .inr ⟨_, _, rfl, rfl, .clash (c := .infinite v ty) h (fun _ _ => rfl) ⟨hv, hty⟩⟩
  | false => exact .inl ⟨_, _, rest, rfl, rfl, h.bind hv hty, .bind hv t ty, hrest⟩

omit ht ht' in
theorem round_zip {as bs : List Ty} (has : ∀ a ∈ as, a.Within S) (hbs : ∀ b ∈ bs, b.Within S) :
    RoundMirrors f S t (.inl (t, as.zip bs ++ rest))
      (.inl (t', (as.map (Ty.rename f)).zip (bs.map (Ty.rename f)) ++ renamePairs f rest)) := by
  refine .inl ⟨t, t', as.zip bs ++ rest, rfl, ?_, h, fun _ _ => rfl, ?_⟩
  · simp only [renamePairs, List.map_append, List.zip_map]
    rfl
  · intro p hp
    rcases List.mem_append.1 hp with hp | hp
    · exact ⟨has _ (List.of_mem_zip hp).1, hbs _ (List.of_mem_zip hp).2⟩
    · exact hrest p hp

theorem compareRound (ha : a.Within S) (hb : b.Within S) :
    RoundMirrors f S t (t.compareRound rest a b)
      (t'.compareRound (renamePairs f rest) (a.rename f) (b.rename f)) := by
  rcases Ty.pair_cases a b with ⟨v, w, rfl, rfl⟩ | ⟨v, rfl, hty⟩ | ⟨v, hty, rfl⟩ | ⟨hvar, hvar'⟩
  · have hv : S v := Ty.within_var.1 ha
    have hw : S w := Ty.within_var.1 hb
    simp only [Ty.rename_var, Table.compareRound, meet]
    by_cases hvw : v = w
    · rw [if_pos hvw, if_pos (by rw [hvw])]
      exact .inl ⟨_, _, rest, rfl, rfl, h, fun _ _ => rfl, hrest⟩
    · rw [if_neg hvw, if_neg fun heq => hvw (h.inj hv hw heq)]
      exact .inl ⟨_, _, rest, rfl, rfl, h.union hv hw hvw, .union hv hw hvw t, hrest⟩
  · rw [compareRound_assign hty, Ty.rename_var, compareRound_assign (by rw [Ty.isVar_rename, hty])]
    exact h.round_assign ht ht' hrest (Ty.within_var.1 ha) hb
  · rw [compareRound_assigned hty, Ty.rename_var,
      compareRound_assigned (by rw [Ty.isVar_rename, hty])]
    exact h.round_assign ht ht' hrest (Ty.within_var.1 hb) ha
  have hren : (a.rename f).isVar = false := by rw [Ty.isVar_rename, hvar]
  have hren' : (b.rename f).isVar = false := by rw [Ty.isVar_rename, hvar']
  have hforms : (a.rename f).form = (b.rename f).form ↔ a.form = b.form := by
    rw [Ty.rename, Ty.rename, Ty.form_subst _ hvar, Ty.form_subst _ hvar']
  by_cases hform : a.form = b.form
  · rw [compareRound_parts hvar hvar' hform, compareRound_parts hren hren' (hforms.2 hform),
      Ty.rename, Ty.rename, Ty.parts_subst _ hvar, Ty.parts_subst _ hvar']
    exact h.round_zip hrest (fun p hp v hv => ha v ((Ty.mem_occurrences_parts hvar).2 ⟨p, hp, hv⟩))
      fun p hp v hv => hb v ((Ty.mem_occurrences_parts hvar').2 ⟨p, hp, hv⟩)
  · rw [compareRound_differ hvar hvar' hform, compareRound_differ hren hren' (hforms.not.2 hform)]
    exact .inr ⟨_, _, rfl, rfl, h.mismatch ht ht' ha hb⟩

end Round

variable (h : Embeds f S t t') (ht : t.Sound) (ht' : t'.Sound)
include h ht ht'

theorem unifyRound (hpairs : PairsWithin S pairs) :
    RoundMirrors f S t (Table.unifyRound (t, pairs))
    (Table.unifyRound (t', renamePairs f pairs)) := by
  cases pairs with
  | nil => exact .inr ⟨_, _, rfl, rfl, .done h fun _ _ => rfl⟩
  | cons p rest =>
    obtain ⟨a, b⟩ := p
    obtain ⟨ha, hb⟩ := hpairs (a, b) (by simp)
    obtain ⟨a1, ha1⟩ := head_ok (h.covers ha)
    obtain ⟨b1, hb1⟩ := head_ok (h.covers hb)
    obtain ⟨hwa, ha1'⟩ := h.head_eq ht ht' ha ha1
    obtain ⟨hwb, hb1'⟩ := h.head_eq ht ht' hb hb1
    have hround : Table.unifyRound (t, (a, b) :: rest) = t.compareRound rest a1 b1 := by
      simp only [Table.unifyRound, ha1, hb1]
    have hround' : Table.unifyRound (t', renamePairs f ((a, b) :: rest)) =
        t'.compareRound (renamePairs f rest) (a1.rename f) (b1.rename f) := by
      simp only [renamePairs, List.map_cons, Table.unifyRound, ha1', hb1']
    rw [hround, hround']
    exact h.compareRound ht ht' (fun p hp => hpairs p (by simp [hp])) hwa hwb

/-- The walks on both sides go on in step, so they end together. -/
theorem ends (hpairs : PairsWithin S pairs) {o o' : Outcome}
    (ho : Ends Table.unifyRound (t, pairs) o)
    (ho' : Ends Table.unifyRound (t', renamePairs f pairs) o') : Mirrors f S t o o' := by
  generalize hs : (t, pairs) = s at ho
  induction ho generalizing t t' pairs with
  | stop hstop =>
    subst hs
    obtain ⟨u, u', pairs', heq, -⟩ | ⟨x, x', hx, hx', hmirrors⟩ := h.unifyRound ht ht' hpairs
    · exact absurd (hstop.symm.trans heq) (by simp)
    · cases Sum.inr.inj (hstop.symm.trans hx)
      rwa [Ends.unique ho' (.stop hx')]
  | next hnext _ ih =>
    subst hs
    obtain ⟨u, u', pairs', heq, heq', hu, hleaves, hpairs'⟩ | ⟨x, x', hx, -⟩ :=
      h.unifyRound ht ht' hpairs
    · cases Sum.inl.inj (hnext.symm.trans heq)
      have hsound := ht.unifyRound_spec pairs
      have hsound' := ht'.unifyRound_spec (renamePairs f pairs)
      rw [heq] at hsound
      rw [heq'] at hsound'
      cases ih hu hsound.sound hsound'.sound hpairs' (ho'.of_next heq') rfl with
      | done hv hv' => exact .done hv fun x hx => (hv' x hx).trans (hleaves x hx)
      | clash hv hv' hc => exact .clash hv (fun x hx => (hv' x hx).trans (hleaves x hx)) hc
    · exact absurd (hnext.symm.trans hx) (by simp)

/-- Unification does on both sides the same. -/
theorem unify (ha : a.Within S) (hb : b.Within S) :
    Mirrors f S t (t.unify a b) (t'.unify (a.rename f) (b.rename f)) := by
  have hpairs : PairsWithin S [(a, b)] := by
    simp only [PairsWithin, List.mem_singleton]
    rintro p rfl
    exact ⟨ha, hb⟩
  exact h.ends ht ht' hpairs (ht.ends_unify a b) (ht'.ends_unify _ _)

end Embeds

end Table

end BlockGraph
