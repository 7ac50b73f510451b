import BlockGraph.Proofs.Workspace.Formed

/-!
# Joining and parting

Joining two connections, or parting them, changes a skeleton in two steps, and it is not formed
between them: `wire` sets the targets and the registry, `reparent` then brings the families in line
with the new attachment.  `Formed.rewire` says that the two together keep a skeleton formed.
-/

namespace BlockGraph

variable {b child : BlockId} {c inferior superior t : ConnectionId} {joined : Bool} {f : Frame}
  {j plug socket : Joint}

open Relation

/-- The frame of `b` once `child` has left `old` for `new`. -/
def Frame.regroup (f : Frame) (b child : BlockId) (old new : Option BlockId) : Frame :=
  { f with
    parent := if b = child then new else f.parent
    children := (if old = some b then f.children.filter (· != child) else f.children) ++
      if new = some b then [child] else [] }

namespace Skeleton

variable {s s' : Skeleton} {new : Option BlockId}

/-! ## Putting a block under another parent -/

/-- The list of blocks that stand alone once `child` has gone to `new`. -/
def topAfter (top : List BlockId) (child : BlockId) (new : Option BlockId) : List BlockId :=
  if new.isSome then (top.reverse.erase child).reverse
  else if child ∈ top then top else top ++ [child]

/-- Puts a block under a parent, or on top. -/
def reparent (s : Skeleton) (child : BlockId) (new : Option BlockId) : Skeleton :=
  (s.mapFrames fun b f => f.regroup b child ((s.frame child).bind Frame.parent) new).setTop
    (topAfter s.top child new)

theorem frame_reparent_eq_some_iff {f' : Frame} :
    (s.reparent child new).frame b = some f' ↔ ∃ f, s.frame b = some f ∧
      f.regroup b child ((s.frame child).bind Frame.parent) new = f' := by
  simp [reparent, mapFrames, setTop]

theorem parentOf_reparent_iff {p : BlockId} (hchild : s.frame child = some f) :
    (s.reparent child new).ParentOf p b ↔ if b = child then new = some p else s.ParentOf p b := by
  unfold ParentOf
  simp only [frame_reparent_eq_some_iff]
  by_cases hb : b = child
  · subst hb
    simp [hchild, Frame.regroup]
  · simp [hb, Frame.regroup]

theorem mem_erase_reverse {α : Type} [DecidableEq α] {l : List α} (hl : l.Nodup) {a x : α} :
    x ∈ (l.reverse.erase a).reverse ↔ x ≠ a ∧ x ∈ l := by
  rw [List.mem_reverse, (List.nodup_reverse.2 hl).mem_erase_iff, List.mem_reverse]

/-- Parents, children and the list on top stay in agreement. -/
theorem Related.reparent (hs : s.Related) (hchild : s.frame child = some f)
    (hnew : ∀ p, new = some p → ∃ g, s.frame p = some g) : (s.reparent child new).Related where
  live {p b} hb := by
    have hlive : ∃ g, s.frame p = some g := by
      rw [parentOf_reparent_iff hchild] at hb
      split at hb
      · exact hnew p hb
      · exact hs.live hb
    obtain ⟨g, hg⟩ := hlive
    exact ⟨_, frame_reparent_eq_some_iff.2 ⟨g, hg, rfl⟩⟩
  children_nodup {p f'} hf' := by
    obtain ⟨g, hg, rfl⟩ := frame_reparent_eq_some_iff.1 hf'
    have hnodup := hs.children_nodup hg
    simp only [Frame.regroup, hchild, Option.bind_some]
    split
    · -- the list has lost `child`, so it may come back
      refine List.Nodup.append (hnodup.filter _) (by split <;> simp) ?_
      split <;> simp
    · rename_i hold
      refine List.Nodup.append hnodup (by split <;> simp) ?_
      split
      · simp only [List.disjoint_singleton]
        intro hmem
        obtain ⟨f0, hf0, hp⟩ := (hs.mem_children hg).1 hmem
        rw [hchild] at hf0
        cases hf0
        exact hold hp
      · simp
  mem_children {p b f'} hf' := by
    obtain ⟨g, hg, rfl⟩ := frame_reparent_eq_some_iff.1 hf'
    rw [parentOf_reparent_iff hchild]
    have hmem := hs.mem_children hg (b := b)
    have hold : child ∈ g.children ↔ f.parent = some p := by
      rw [hs.mem_children hg]
      simp [ParentOf, hchild]
    simp only [Frame.regroup, hchild, Option.bind_some, List.mem_append]
    by_cases hb : b = child
    · subst hb
      by_cases hp : f.parent = some p <;> by_cases hn : new = some p <;> simp [hp, hn, hold]
    · rw [if_neg hb, ← hmem]
      by_cases hp : f.parent = some p <;> by_cases hn : new = some p <;> simp [hp, hn, hb]
  top_nodup := by
    simp only [Skeleton.reparent, setTop, topAfter]
    split
    · exact List.nodup_reverse.2 ((List.nodup_reverse.2 hs.top_nodup).erase _)
    · split
      · exact hs.top_nodup
      · rename_i hnot
        refine List.Nodup.append hs.top_nodup (by simp) ?_
        simpa using hnot
  mem_top {b} := by
    have hiff : (∃ f', (s.reparent child new).frame b = some f' ∧ f'.parent = none) ↔
        if b = child then new = none else ∃ g, s.frame b = some g ∧ g.parent = none := by
      simp only [frame_reparent_eq_some_iff]
      by_cases hb : b = child
      · subst hb
        simp [hchild, Frame.regroup]
      · simp [hb, Frame.regroup]
    rw [hiff, ← hs.mem_top]
    simp only [Skeleton.reparent, setTop, topAfter]
    cases new with
    | some p =>
      simp only [Option.isSome_some, if_true, mem_erase_reverse hs.top_nodup]
      by_cases hb : b = child <;> simp [hb]
    | none =>
      by_cases hb : b = child
      · subst hb
        by_cases hmem : b ∈ s.top <;> simp [hmem]
      · by_cases hmem : child ∈ s.top <;> simp [hmem, hb]

/-- The wiring does not look at families. -/
theorem Wired.reparent (hw : s.Wired) (child : BlockId) (new : Option BlockId) :
    (s.reparent child new).Wired where
  listed {b c k} := by
    refine Iff.trans ⟨?_, ?_⟩ hw.listed
    · rintro ⟨f', hf', hmem⟩
      obtain ⟨g, hg, rfl⟩ := frame_reparent_eq_some_iff.1 hf'
      exact ⟨g, hg, hmem⟩
    · rintro ⟨g, hg, hmem⟩
      exact ⟨_, frame_reparent_eq_some_iff.2 ⟨g, hg, rfl⟩, hmem⟩
  nodup hf' := by
    obtain ⟨g, hg, rfl⟩ := frame_reparent_eq_some_iff.1 hf'
    exact (hw.nodup hg : (g.places.map Prod.fst).Nodup)
  fitted hf' := by
    obtain ⟨g, hg, rfl⟩ := frame_reparent_eq_some_iff.1 hf'
    exact (hw.fitted hg : ∀ x ∈ g.slots, x.Fitted)
  stem hf' := by
    obtain ⟨g, hg, rfl⟩ := frame_reparent_eq_some_iff.1 hf'
    exact (hw.stem hg : g.output = none ∨ g.previous = none)
  index := hw.index
  free := hw.free
  target := hw.target

/-- Once the wiring attaches `child` to `new` and leaves every other block where it was, putting
`child` under `new` makes the skeleton formed again. -/
theorem Formed.reparent (hs : s.Formed) (hw : s'.Wired) (hframe : s'.frame = s.frame)
    (htop : s'.top = s.top) (hchild : s.frame child = some f)
    (hnew : ∀ p, new = some p → ∃ g, s.frame p = some g)
    (hatt : ∀ b p, s'.Attached b p ↔ if b = child then new = some p else s.Attached b p)
    (hacyclic : Acyclic fun p b => if b = child then new = some p else s.ParentOf p b) :
    (s'.reparent child new).Formed := by
  have hsame : s.SameFamilies s' := ⟨fun b => by rw [hframe], htop⟩
  have hchild' : s'.frame child = some f := by rw [hframe, hchild]
  refine ⟨hw.reparent child new, ?_, ?_, ?_⟩
  · exact (hsame.related hs.related).reparent hchild' (by rwa [hframe])
  · intro b p f' hf'
    obtain ⟨g, hg, rfl⟩ := frame_reparent_eq_some_iff.1 hf'
    rw [hframe] at hg
    refine Iff.trans ?_ (hatt b p).symm
    by_cases hb : b = child
    · simp [hb, Frame.regroup]
    · simp only [Frame.regroup, if_neg hb]
      exact hs.parent hg
  · refine hacyclic.mono fun p b hb => ?_
    rw [parentOf_reparent_iff hchild', hsame.parentOf_iff] at hb
    exact hb

/-! ## Joining and parting two connections -/

/-- Joins two connections, or parts them, in targets and registry. -/
def wire (s : Skeleton) (inferior superior : ConnectionId) (joined : Bool) : Skeleton :=
  { s with
    joint := fun c => (s.joint c).map fun j =>
      { j with target :=
          if c = inferior then if joined then some superior else none
          else if c = superior then if joined then some inferior else none
          else j.target }
    free := fun c => if c = inferior ∨ c = superior then !joined else s.free c }

/-- Setting the two targets and the two entries of the registry one after the other. -/
theorem wire_eq (hsocket : s.joint inferior = some socket) (hplug : s.joint superior = some plug)
    (hne : inferior ≠ superior) (joined : Bool) : (((s.setJoint inferior (some { socket with
        target := if joined then some superior else none })).setJoint superior (some { plug with
        target := if joined then some inferior else none })).setFree inferior (!joined)).setFree
          superior (!joined) = s.wire inferior superior joined := by
  refine Skeleton.ext rfl (funext fun c => ?_) (funext fun c => ?_) rfl rfl
  · simp only [setJoint, setFree, wire, Function.update_apply]
    by_cases ho : c = superior
    · subst ho
      simp [hplug, hne.symm]
    · by_cases hi : c = inferior
      · subst hi
        simp [hsocket, ho]
      · simp [ho, hi]
  · simp only [setJoint, setFree, wire, Function.update_apply]
    by_cases ho : c = superior
    · simp [ho]
    · by_cases hi : c = inferior <;> simp [ho, hi]

/-- Two connections that can be joined or parted: they are of opposite kinds and different blocks,
and neither is joined to a third. -/
structure Pairing (s : Skeleton) (inferior superior : ConnectionId) (socket plug : Joint) :
    Prop where
  socket_eq : s.joint inferior = some socket
  plug_eq : s.joint superior = some plug
  opposite : socket.kind = plug.kind.opposite
  isSuperior : plug.kind.isSuperior = true
  distinct : socket.block ≠ plug.block
  socket_target : socket.target = none ∨ socket.target = some superior
  plug_target : plug.target = none ∨ plug.target = some inferior

theorem joint_wire_eq_some_iff {j' : Joint} :
    (s.wire inferior superior joined).joint c = some j' ↔ ∃ j, s.joint c = some j ∧
      { j with target :=
          if c = inferior then if joined then some superior else none
          else if c = superior then if joined then some inferior else none
          else j.target } = j' := by
  simp [wire]

theorem Pairing.ne (h : s.Pairing inferior superior socket plug) : inferior ≠ superior := by
  rintro rfl
  have heq := h.socket_eq.symm.trans h.plug_eq
  exact h.distinct (congrArg Joint.block (Option.some.inj heq))

theorem Pairing.not_isSuperior
    (h : s.Pairing inferior superior socket plug) : socket.kind.isSuperior = false := by
  rw [h.opposite, ConnectionKind.isSuperior_opposite, h.isSuperior]
  rfl

/-- Nothing else is joined to one of the two. -/
theorem Pairing.target_ne (hs : s.Wired) (h : s.Pairing inferior superior socket plug)
    (hj : s.joint c = some j) (ht : j.target = some t) (hi : c ≠ inferior) (ho : c ≠ superior) :
    t ≠ inferior ∧ t ≠ superior := by
  obtain ⟨j', hj', hback, -⟩ := hs.target hj ht
  constructor
  · rintro rfl
    rw [h.socket_eq] at hj'
    cases hj'
    rcases h.socket_target with h | h <;> rw [h] at hback <;> cases hback
    exact ho rfl
  · rintro rfl
    rw [h.plug_eq] at hj'
    cases hj'
    rcases h.plug_target with h | h <;> rw [h] at hback <;> cases hback
    exact hi rfl

section Wire

variable {inferior superior : ConnectionId} {socket plug : Joint}

theorem Pairing.joint_inferior (h : s.Pairing inferior superior socket plug) (joined : Bool) :
    (s.wire inferior superior joined).joint inferior =
      some { socket with target := if joined then some superior else none } :=
  joint_wire_eq_some_iff.2 ⟨socket, h.socket_eq, by rw [if_pos rfl]⟩

theorem Pairing.joint_superior (h : s.Pairing inferior superior socket plug) (joined : Bool) :
    (s.wire inferior superior joined).joint superior =
      some { plug with target := if joined then some inferior else none } :=
  joint_wire_eq_some_iff.2 ⟨plug, h.plug_eq, by rw [if_neg h.ne.symm, if_pos rfl]⟩

theorem joint_wire_of_ne (hi : c ≠ inferior) (ho : c ≠ superior) :
    (s.wire inferior superior joined).joint c = s.joint c := by
  simp [wire, hi, ho]

/-- What is joined after wiring: the two to each other, or connections that had been joined
before. -/
theorem Pairing.joined_cases (h : s.Pairing inferior superior socket plug)
    (hj : (s.wire inferior superior joined).joint c = some j) (ht : j.target = some t) :
    (joined = true ∧ c = inferior ∧ t = superior ∧ j = { socket with target := some superior }) ∨
      (joined = true ∧ c = superior ∧ t = inferior ∧ j = { plug with target := some inferior }) ∨
      (c ≠ inferior ∧ c ≠ superior ∧ s.joint c = some j) := by
  by_cases hi : c = inferior
  · subst hi
    rw [h.joint_inferior] at hj
    cases hj
    cases joined with
    | false => cases ht
    | true =>
      cases ht
      exact Or.inl ⟨rfl, rfl, rfl, rfl⟩
  · by_cases ho : c = superior
    · subst ho
      rw [h.joint_superior] at hj
      cases hj
      cases joined with
      | false => cases ht
      | true =>
        cases ht
        exact Or.inr (Or.inl ⟨rfl, rfl, rfl, rfl⟩)
    · rw [joint_wire_of_ne hi ho] at hj
      exact Or.inr (Or.inr ⟨hi, ho, hj⟩)

theorem Wired.wire (hs : s.Wired) (h : s.Pairing inferior superior socket plug) (joined : Bool) :
    (s.wire inferior superior joined).Wired where
  listed {b c k} := by
    refine hs.listed.trans ⟨?_, ?_⟩
    · rintro ⟨j, hj, hb, hk⟩
      exact ⟨_, joint_wire_eq_some_iff.2 ⟨j, hj, rfl⟩, hb, hk⟩
    · rintro ⟨j', hj', hb, hk⟩
      obtain ⟨j, hj, rfl⟩ := joint_wire_eq_some_iff.1 hj'
      exact ⟨j, hj, hb, hk⟩
  nodup := hs.nodup
  fitted := hs.fitted
  stem := hs.stem
  index hj' := by
    obtain ⟨j, hj, -⟩ := joint_wire_eq_some_iff.1 hj'
    exact hs.index hj
  free {c} := by
    simp only [joint_wire_eq_some_iff]
    simp only [Skeleton.wire]
    by_cases hi : c = inferior
    · subst hi
      cases joined <;> simp [h.socket_eq]
    · by_cases ho : c = superior
      · subst ho
        cases joined <;> simp [hi, h.plug_eq]
      · simp [hi, ho, hs.free]
  target {c t j} hj ht := by
    rcases h.joined_cases hj ht with ⟨rfl, rfl, rfl, rfl⟩ | ⟨rfl, rfl, rfl, rfl⟩ | ⟨hi, ho, hj⟩
    · refine ⟨_, h.joint_superior true, rfl, ?_, h.distinct.symm⟩
      rw [h.opposite, ConnectionKind.opposite_opposite]
    · exact ⟨_, h.joint_inferior true, rfl, h.opposite, h.distinct⟩
    · obtain ⟨hti, hto⟩ := h.target_ne hs hj ht hi ho
      obtain ⟨j', hj', hback, hkind, hblock⟩ := hs.target hj ht
      exact ⟨j', (joint_wire_of_ne hti hto).trans hj', hback, hkind, hblock⟩

/-- Joining attaches the owner of the superior connection to that of the inferior one, parting
attaches it to nothing, and all other blocks stay where they were. -/
theorem Pairing.attached_wire_iff (hs : s.Wired) (h : s.Pairing inferior superior socket plug)
    (joined : Bool) (b p : BlockId) : (s.wire inferior superior joined).Attached b p ↔
      if b = plug.block then (if joined then some socket.block else none) = some p
      else s.Attached b p := by
  constructor
  · rintro ⟨c, j, t, j', hj, rfl, hk, ht, hj', rfl⟩
    rcases h.joined_cases hj ht with ⟨-, -, -, rfl⟩ | ⟨rfl, -, rfl, rfl⟩ | ⟨hi, ho, hj⟩
    · cases h.not_isSuperior.symm.trans hk
    · cases (h.joint_inferior true).symm.trans hj'
      rw [if_pos rfl]
      rfl
    · -- the owner of the superior connection has no other
      rw [if_neg fun hb => ho (hs.superior_unique hj h.plug_eq hb hk h.isSuperior)]
      obtain ⟨hti, hto⟩ := h.target_ne hs hj ht hi ho
      exact ⟨c, j, t, j', hj, rfl, hk, ht, (joint_wire_of_ne hti hto).symm.trans hj', rfl⟩
  · intro hp
    split at hp
    · rename_i hb
      cases joined with
      | false => cases hp
      | true =>
        cases hp
        exact ⟨superior, _, inferior, _, h.joint_superior true, hb.symm, h.isSuperior, rfl,
          h.joint_inferior true, rfl⟩
    · rename_i hb
      obtain ⟨c, j, t, j', hj, rfl, hk, ht, hj', rfl⟩ := hp
      have hi : c ≠ inferior := by
        rintro rfl
        cases h.socket_eq.symm.trans hj
        cases h.not_isSuperior.symm.trans hk
      have ho : c ≠ superior := by
        rintro rfl
        cases h.plug_eq.symm.trans hj
        exact hb rfl
      obtain ⟨hti, hto⟩ := h.target_ne hs hj ht hi ho
      exact ⟨c, j, t, j', (joint_wire_of_ne hi ho).trans hj, rfl, hk, ht,
        (joint_wire_of_ne hti hto).trans hj', rfl⟩

end Wire

/-- Joins or parts two connections and puts the block that plugs in where it belongs. -/
def rewire (s : Skeleton) (inferior superior : ConnectionId) (parent child : BlockId)
    (joined : Bool) : Skeleton :=
  (s.wire inferior superior joined).reparent child (if joined then some parent else none)

/-- Joining keeps a skeleton formed if the parent does not stand below the child, or the two are
joined already; parting always does. -/
theorem Formed.rewire (hs : s.Formed) (h : s.Pairing inferior superior socket plug)
    (hcycle : joined = true → s.ParentOf socket.block plug.block ∨
      ¬ ReflTransGen s.ParentOf plug.block socket.block) :
    (s.rewire inferior superior socket.block plug.block joined).Formed := by
  obtain ⟨f, hf, -⟩ := hs.wired.frame_of_joint h.plug_eq
  obtain ⟨g, hg, -⟩ := hs.wired.frame_of_joint h.socket_eq
  refine hs.reparent (hs.wired.wire h joined) rfl rfl hf ?_ (h.attached_wire_iff hs.wired joined) ?_
  · intro p hp
    cases joined with
    | false => cases hp
    | true =>
      cases hp
      exact ⟨g, hg⟩
  · cases joined with
    | false =>
      refine hs.acyclic.mono fun p b hb => ?_
      split at hb
      · cases hb
      · exact hb
    | true =>
      rcases hcycle rfl with hparent | hnot
      · refine hs.acyclic.mono fun p b hb => ?_
        split at hb
        · rename_i heq
          cases hb
          rwa [heq]
        · exact hb
      · -- the new edge starts at the parent, so it must not be reached from the child
        refine (hs.acyclic.extend (a := socket.block) (B := fun b => b = plug.block) ?_).mono
          fun p b hb => ?_
        · rintro y rfl
          exact hnot
        · split at hb
          · rename_i heq
            cases hb
            exact Or.inr ⟨rfl, heq⟩
          · exact Or.inl hb

/-- Checks stay passed if those of all other joined connections are, and two connections that are
being joined pass each other's. -/
theorem checked_rewire (h : s.Pairing inferior superior socket plug)
    (hothers : ∀ {c t : ConnectionId} {j j' : Joint}, c ≠ inferior → c ≠ superior →
      s.joint c = some j → j.target = some t → s.joint t = some j' →
      Check.intersects j.check j'.check = true)
    (hpair : joined = true → Check.intersects socket.check plug.check = true) :
    (s.rewire inferior superior socket.block plug.block joined).Checked := by
  intro c t j j' hj ht hj'
  rcases h.joined_cases hj ht with ⟨rfl, rfl, rfl, rfl⟩ | ⟨rfl, rfl, rfl, rfl⟩ | ⟨hi, ho, hj⟩
  · cases (h.joint_superior true).symm.trans hj'
    exact hpair rfl
  · cases (h.joint_inferior true).symm.trans hj'
    exact (Check.intersects_comm ..).trans (hpair rfl)
  · obtain ⟨j0, hj0, rfl⟩ := joint_wire_eq_some_iff.1 hj'
    exact (hothers hi ho hj ht hj0 :)

end Skeleton

end BlockGraph
