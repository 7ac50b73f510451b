import BlockGraph.Proofs.Acyclic
import BlockGraph.Proofs.Workspace.Skeleton

/-!
# Well-formed skeletons

A skeleton says one thing several times over: what is joined to what stands in the targets, in the
registry of free connections, in the parents, in the lists of children, and in the list of blocks
that stand alone.  `Skeleton.Formed` says that these agree and that no block stands above itself:

* `Wired`: connections and the places that list them correspond, and targets are symmetric;
* `Related`: parents, children and the blocks that stand alone agree;
* the parent of a block is the owner of what its superior connection is joined to;
* parents form no cycle.

That joined connections pass each other's checks is kept apart (`Skeleton.Checked`), because a check
can be replaced while two connections are joined.
-/

namespace BlockGraph

variable {b p : BlockId} {c t : ConnectionId} {k : ConnectionKind} {f : Frame} {j j' : Joint}

open Relation

theorem Check.intersects_comm (a b : Check) : Check.intersects a b = Check.intersects b a := by
  cases a with
  | none => cases b <;> rfl
  | some a =>
    cases b with
    | none => rfl
    | some b =>
      rw [Bool.eq_iff_iff]
      simp only [Check.intersects, List.any_eq_true, List.contains_iff_mem]
      exact ⟨fun ⟨x, hx, hx'⟩ => ⟨x, hx', hx⟩, fun ⟨x, hx, hx'⟩ => ⟨x, hx', hx⟩⟩

namespace Skeleton

variable {s s' : Skeleton}

/-- `p` is the parent of `b`. -/
def ParentOf (s : Skeleton) (p b : BlockId) : Prop := ∃ f, s.frame b = some f ∧ f.parent = some p

/-- A superior connection of `b` is joined to a connection of `p`. -/
def Attached (s : Skeleton) (b p : BlockId) : Prop :=
  ∃ c j t j', s.joint c = some j ∧ j.block = b ∧ j.kind.isSuperior = true ∧ j.target = some t ∧
    s.joint t = some j' ∧ j'.block = p

/-- Connections and places correspond, the registry holds the free connections, and targets pair up
connections of different blocks. -/
structure Wired (s : Skeleton) : Prop where
  listed : ∀ {b : BlockId} {c : ConnectionId} {k : ConnectionKind},
    (∃ f, s.frame b = some f ∧ (c, k) ∈ f.places) ↔ ∃ j, s.joint c = some j ∧ j.block = b ∧
    j.kind = k
  nodup : ∀ {b : BlockId} {f : Frame}, s.frame b = some f → (f.places.map Prod.fst).Nodup
  fitted : ∀ {b : BlockId} {f : Frame}, s.frame b = some f → ∀ x ∈ f.slots, x.Fitted
  stem : ∀ {b : BlockId} {f : Frame}, s.frame b = some f → f.output = none ∨ f.previous = none
  index : ∀ {c : ConnectionId} {j : Joint}, s.joint c = some j → c.index < s.count
  free : ∀ {c : ConnectionId}, s.free c = true ↔ ∃ j, s.joint c = some j ∧ j.target = none
  target : ∀ {c t : ConnectionId} {j : Joint}, s.joint c = some j → j.target = some t →
    ∃ j', s.joint t = some j' ∧ j'.target = some c ∧ j'.kind = j.kind.opposite ∧ j'.block ≠ j.block

/-- Parents, children and the blocks that stand alone agree. -/
structure Related (s : Skeleton) : Prop where
  live : ∀ {p b : BlockId}, s.ParentOf p b → ∃ f, s.frame p = some f
  children_nodup : ∀ {p : BlockId} {f : Frame}, s.frame p = some f → f.children.Nodup
  mem_children : ∀ {p b : BlockId} {f : Frame}, s.frame p = some f →
    (b ∈ f.children ↔ s.ParentOf p b)
  top_nodup : s.top.Nodup
  mem_top : ∀ {b : BlockId}, b ∈ s.top ↔ ∃ f, s.frame b = some f ∧ f.parent = none

/-- All that a skeleton says agrees, and no block stands above itself. -/
structure Formed (s : Skeleton) : Prop where
  wired : s.Wired
  related : s.Related
  parent : ∀ {b p : BlockId} {f : Frame}, s.frame b = some f → (f.parent = some p ↔ s.Attached b p)
  acyclic : Acyclic s.ParentOf

/-- Joined connections pass each other's checks. -/
def Checked (s : Skeleton) : Prop :=
  ∀ c t j j', s.joint c = some j → j.target = some t → s.joint t = some j' →
    Check.intersects j.check j'.check = true

/-- Where there is nothing, nothing disagrees. -/
theorem formed_of_empty (hframe : ∀ b f, s.frame b ≠ some f) (hjoint : ∀ c j, s.joint c ≠ some j)
    (hfree : ∀ c, s.free c = false) (htop : s.top = []) : s.Formed where
  wired :=
    { listed := by
        intro b c k
        constructor
        · rintro ⟨f, hf, -⟩
          exact absurd hf (hframe b f)
        · rintro ⟨j, hj, -⟩
          exact absurd hj (hjoint c j)
      nodup := fun hf => absurd hf (hframe _ _)
      fitted := fun hf => absurd hf (hframe _ _)
      stem := fun hf => absurd hf (hframe _ _)
      index := fun hj => absurd hj (hjoint _ _)
      free := by
        intro c
        rw [hfree c]
        simp [hjoint]
      target := fun hj => absurd hj (hjoint _ _) }
  related :=
    { live := by
        rintro p b ⟨f, hf, -⟩
        exact absurd hf (hframe b f)
      children_nodup := fun hf => absurd hf (hframe _ _)
      mem_children := fun hf => absurd hf (hframe _ _)
      top_nodup := by simp [htop]
      mem_top := by simp [htop, hframe] }
  parent hf := absurd hf (hframe _ _)
  acyclic b hb := by
    obtain ⟨p, -, f, hf, -⟩ := TransGen.tail'_iff.1 hb
    exact absurd hf (hframe b f)

/-! ## What follows at once -/

namespace Wired

variable (hs : s.Wired)
include hs

theorem frame_of_joint (hj : s.joint c = some j) :
    ∃ f, s.frame j.block = some f ∧ (c, j.kind) ∈ f.places :=
  hs.listed.2 ⟨j, hj, rfl, rfl⟩

theorem joint_of_frame (hf : s.frame b = some f) (hc : (c, k) ∈ f.places) :
    ∃ j, s.joint c = some j ∧ j.block = b ∧ j.kind = k :=
  hs.listed.1 ⟨f, hf, hc⟩

/-- What a connection is joined to is joined to it. -/
theorem target_back (hj : s.joint c = some j) (ht : j.target = some t) (hj' : s.joint t = some j') :
    j'.target = some c := by
  obtain ⟨j0, hj0, hback, -⟩ := hs.target hj ht
  cases hj'.symm.trans hj0
  exact hback

/-- Of two joined connections one is superior. -/
theorem isSuperior_target (hj : s.joint c = some j) (ht : j.target = some t)
    (hj' : s.joint t = some j') : j'.kind.isSuperior = !j.kind.isSuperior := by
  obtain ⟨j0, hj0, -, hkind, -⟩ := hs.target hj ht
  cases hj'.symm.trans hj0
  rw [hkind, ConnectionKind.isSuperior_opposite]

/-- No connection is joined to itself. -/
theorem target_ne_self (hj : s.joint c = some j) : j.target ≠ some c := by
  intro ht
  obtain ⟨j', hj', -, -, hblock⟩ := hs.target hj ht
  cases hj.symm.trans hj'
  exact hblock rfl

/-- The connections that a frame lists are those that name its block. -/
theorem mem_connections (hf : s.frame b = some f) :
    c ∈ f.connections ↔ ∃ j, s.joint c = some j ∧ j.block = b := by
  rw [← Frame.map_fst_places (hs.fitted hf), List.mem_map]
  constructor
  · rintro ⟨⟨c, k⟩, hmem, rfl⟩
    obtain ⟨j, hj, hb, -⟩ := hs.joint_of_frame hf hmem
    exact ⟨j, hj, hb⟩
  · rintro ⟨j, hj, rfl⟩
    obtain ⟨f', hf', hmem⟩ := hs.frame_of_joint hj
    rw [hf] at hf'
    cases hf'
    exact ⟨_, hmem, rfl⟩

end Wired

theorem superior?_of_mem_places (hstem : f.output = none ∨ f.previous = none)
    (hk : k.isSuperior = true) (h : (c, k) ∈ f.places) : f.superior? = some c := by
  unfold Frame.superior?
  rcases (Frame.mem_places_superior hk).1 h with ⟨h, -⟩ | ⟨h, -⟩
  · rw [h]
    rfl
  · rcases hstem with hout | hprev
    · rw [hout, h]
      rfl
    · rw [hprev] at h
      cases h

/-- A superior connection is the one its block plugs in by. -/
theorem Wired.superior_of_joint (hs : s.Wired) (hj : s.joint c = some j)
    (hk : j.kind.isSuperior = true) :
    ∃ f, s.frame j.block = some f ∧ f.superior? = some c := by
  obtain ⟨f, hf, hmem⟩ := hs.frame_of_joint hj
  exact ⟨f, hf, superior?_of_mem_places (hs.stem hf) hk hmem⟩

theorem Wired.joint_of_superior (hs : s.Wired) (hf : s.frame b = some f)
    (hc : f.superior? = some c) :
    ∃ j, s.joint c = some j ∧ j.block = b ∧ j.kind.isSuperior = true := by
  have hplace : ∃ k, k.isSuperior = true ∧ (c, k) ∈ f.places := by
    rcases Option.or_eq_some_iff.1 hc with h | ⟨-, h⟩
    · exact ⟨.output, rfl, Frame.mem_places.2 (Or.inl ⟨h, rfl⟩)⟩
    · exact ⟨.previousStatement, rfl, Frame.mem_places.2 (Or.inr (Or.inl ⟨h, rfl⟩))⟩
  obtain ⟨k, hk, hmem⟩ := hplace
  obtain ⟨j, hj, hb, rfl⟩ := hs.joint_of_frame hf hmem
  exact ⟨j, hj, hb, hk⟩

/-- A block has one superior connection at most. -/
theorem Wired.superior_unique (hs : s.Wired) {c' : ConnectionId} (hj : s.joint c = some j)
    (hj' : s.joint c' = some j') (hb : j.block = j'.block) (hk : j.kind.isSuperior = true)
    (hk' : j'.kind.isSuperior = true) : c = c' := by
  obtain ⟨f, hf, hc⟩ := hs.superior_of_joint hj hk
  obtain ⟨f', hf', hc'⟩ := hs.superior_of_joint hj' hk'
  rw [← hb, hf] at hf'
  cases hf'
  rw [hc] at hc'
  exact Option.some.inj hc'

/-! ## Families

`Related` looks at parents, children and the list of blocks that stand alone only. -/

/-- What a frame says about its block's family. -/
def family (f : Frame) : Option BlockId × List BlockId := (f.parent, f.children)

/-- Two skeletons give every block the same family. -/
structure SameFamilies (s s' : Skeleton) : Prop where
  frame : ∀ b, (s'.frame b).map family = (s.frame b).map family
  top : s'.top = s.top

namespace SameFamilies

variable (h : s.SameFamilies s')
include h

theorem symm : s'.SameFamilies s :=
  ⟨fun b => (h.frame b).symm, h.top.symm⟩

theorem exists_frame (hf : s.frame b = some f) :
    ∃ f', s'.frame b = some f' ∧ f'.parent = f.parent ∧ f'.children = f.children := by
  have hmap := h.frame b
  rw [hf, Option.map_some, Option.map_eq_some_iff] at hmap
  obtain ⟨f', hf', heq⟩ := hmap
  exact ⟨f', hf', congrArg Prod.fst heq, congrArg Prod.snd heq⟩

theorem parentOf (hb : s.ParentOf p b) : s'.ParentOf p b := by
  obtain ⟨f, hf, hp⟩ := hb
  obtain ⟨f', hf', hp', -⟩ := h.exists_frame hf
  exact ⟨f', hf', hp'.trans hp⟩

theorem parentOf_iff : s'.ParentOf p b ↔ s.ParentOf p b :=
  ⟨h.symm.parentOf, h.parentOf⟩

theorem related (hs : s.Related) : s'.Related where
  live hb := by
    obtain ⟨f, hf⟩ := hs.live (h.parentOf_iff.1 hb)
    obtain ⟨f', hf', -⟩ := h.exists_frame hf
    exact ⟨f', hf'⟩
  children_nodup hf := by
    obtain ⟨f, hf', -, hc⟩ := h.symm.exists_frame hf
    rw [← hc]
    exact hs.children_nodup hf'
  mem_children hf := by
    obtain ⟨f, hf', -, hc⟩ := h.symm.exists_frame hf
    rw [← hc, h.parentOf_iff]
    exact hs.mem_children hf'
  top_nodup := by
    rw [h.top]
    exact hs.top_nodup
  mem_top := by
    intro b
    rw [h.top, hs.mem_top]
    constructor
    · rintro ⟨f, hf, hp⟩
      obtain ⟨f', hf', hp', -⟩ := h.exists_frame hf
      exact ⟨f', hf', hp'.trans hp⟩
    · rintro ⟨f, hf, hp⟩
      obtain ⟨f', hf', hp', -⟩ := h.symm.exists_frame hf
      exact ⟨f', hf', hp'.trans hp⟩

end SameFamilies

/-- If families and attachments are the same, a change of the wiring keeps a skeleton formed. -/
theorem Formed.of_wired (hs : s.Formed) (h : s.SameFamilies s') (hw : s'.Wired)
    (hatt : ∀ b p, s'.Attached b p ↔ s.Attached b p) : s'.Formed where
  wired := hw
  related := h.related hs.related
  parent hf := by
    obtain ⟨f, hf', hp, -⟩ := h.symm.exists_frame hf
    rw [← hp, hatt]
    exact hs.parent hf'
  acyclic := hs.acyclic.mono fun _ _ hb => h.parentOf_iff.1 hb

end Skeleton

end BlockGraph
