import BlockGraph.Proofs.Workspace.Procedures

/-!
# Moving inputs along a block

Moving an input takes it out of the row and puts it in before the input that stood at the target
(`MovedBefore`); the target is an index into the row as it was, so it shifts when the input came
from its left.  By name, the input to move and the target are found first, and where the one stands
before the other already nothing is done: the row is then as it would be after the move
(`moveItem_succ`).
-/

namespace BlockGraph

section Items

variable {α : Type} {l : List α} {source target : Nat} {x : α}

/-- `l'` is `l` with the item at `source` put in before what was at `target`, or at the end: in
front of the item is what was in front of the target, behind it the target, and the others are in
their old order. -/
structure MovedBefore (source target : Nat) (l l' : List α) : Prop where
  perm : l'.Perm l
  split : ∃ x front back, l[source]? = some x ∧ l' = front ++ x :: back ∧
    front = (l.take target).eraseIdx source ∧ back.head? = l[target]? ∧
    front ++ back = l.eraseIdx source

theorem insertIdx_eq_append {k : Nat} (h : k ≤ l.length) :
    l.insertIdx k x = l.take k ++ x :: l.drop k := by
  induction k generalizing l with
  | zero => simp
  | succ k ih =>
    cases l with
    | nil => simp at h
    | cons a l => simpa using ih (Nat.le_of_succ_le_succ h)

namespace Workspace

theorem movedBefore_moveItem (hsource : source < l.length) (htarget : target ≤ l.length)
    (hne : source ≠ target) :
    MovedBefore source target l (moveItem l source target) := by
  refine ⟨perm_moveItem hsource htarget, l[source],
    (l.eraseIdx source).take (if source < target then target - 1 else target),
    (l.eraseIdx source).drop (if source < target then target - 1 else target),
    List.getElem?_eq_getElem hsource, ?_, ?_, ?_, List.take_append_drop ..⟩
  · simp only [moveItem, List.getElem?_eq_getElem hsource]
    refine insertIdx_eq_append ?_
    have hlength := List.length_eraseIdx_of_lt hsource
    split <;> omega
  · refine List.ext_getElem? fun i => ?_
    grind
  · rw [List.head?_drop, List.getElem?_eraseIdx]
    grind

/-- An item that stands before the target stays where it is. -/
theorem moveItem_succ (h : source < l.length) : moveItem l source (source + 1) = l := by
  simp only [moveItem, List.getElem?_eq_getElem h, if_pos (Nat.lt_succ_self source),
    Nat.add_sub_cancel]
  exact List.insertIdx_eraseIdx_getElem h

end Workspace

end Items

namespace Block

variable {block : Block} {name p q : String} {i j : Input}

/-- The named input is the one that the index of the name leads to. -/
theorem exists_index_of_input? (h : block.input? name = some i) :
    i.name = name ∧ ∃ index, block.inputIndex? name = some index ∧
    block.inputs[index]? = some i := by
  obtain ⟨hname, index, hlt, hindex, hbefore⟩ := List.find?_eq_some_iff_getElem.1 h
  refine ⟨by simpa using hname, index,
    List.findIdx?_eq_some_iff_getElem.2 ⟨hlt, hindex ▸ hname, fun k hk => ?_⟩, ?_⟩
  · simpa using hbefore k hk
  · rw [List.getElem?_eq_getElem hlt, hindex]

end Block

namespace Workspace

variable {w : Workspace} {b : BlockId} {block : Block} {name : String} {before : Option String}
  {source target : Nat} {i : Input}

/-- The workspace with other inputs on a block. -/
def setInputs (w : Workspace) (b : BlockId) (block : Block) (inputs : List Input) : Workspace :=
  { w with blocks := w.blocks.insert b { block with inputs } }

section

variable (hblock : w.blocks[b]? = some block)
include hblock

theorem setInputs_self : w.setInputs b block block.inputs = w := by
  have hsame : w.blocks.insert b block = w.blocks := Std.ExtTreeMap.ext_getElem? fun k => by grind
  simp [setInputs, hsame]

theorem moveNumberedInput_eq (hsource : source < block.inputs.length)
    (htarget : target ≤ block.inputs.length) (hne : source ≠ target) :
      w.moveNumberedInput b source target =
        .ok (w.setInputs b block (moveItem block.inputs source target)) := by
  simp only [moveNumberedInput, getBlock_eq_ok.2 hblock, modifyBlock, ok_bind, require,
    decide_eq_true hsource, decide_eq_true htarget, bne_iff_ne.2 hne]
  rfl

theorem inputIndex_eq (hindex : block.inputIndex? name = some source) :
    w.inputIndex b name = .ok source := by
  simp only [inputIndex, getBlock_eq_ok.2 hblock, ok_bind, hindex]
  rfl

/-- By name as by number, whether or not anything has to be done. -/
theorem exists_moved (hindex : block.inputIndex? name = some source)
    (hsource : source < block.inputs.length) (htarget : target ≤ block.inputs.length)
    (hne : source ≠ target) (hbefore : w.targetIndex b before = .ok target) :
      ∃ inputs, w.moveInput b name before = .ok (w.setInputs b block inputs) ∧
      MovedBefore source target block.inputs inputs := by
  refine ⟨_, ?_, movedBefore_moveItem hsource htarget hne⟩
  simp only [moveInput, inputIndex_eq hblock hindex, hbefore, ok_bind]
  by_cases hnext : source + 1 = target
  · subst hnext
    rw [if_pos (.inr rfl), moveItem_succ hsource, setInputs_self hblock]
    rfl
  · rw [if_neg (by omega), moveNumberedInput_eq hblock hsource htarget hne]

end

/-- **Moving inputs reorders them and does nothing else.**  An input of a block moved by index
stands before the one that was at the target, or last, with the others in their old order
(`MovedBefore`), and all else in the workspace is as it was.  Moved by name, it stands right before
the named one, or last, also where nothing had to be done. -/
theorem inputs_reordered (hblock : w.blocks[b]? = some block) :
    (∀ {source target : Nat}, source < block.inputs.length → target ≤ block.inputs.length →
      source ≠ target → ∃ inputs, w.moveNumberedInput b source target =
        .ok (w.setInputs b block inputs) ∧ MovedBefore source target block.inputs inputs) ∧
      ∀ {p : String} {i : Input}, block.input? p = some i → ∃ index, block.inputs[index]? = some i ∧
        (∀ {q : String} {j : Input}, p ≠ q → block.input? q = some j → ∃ front back,
          w.moveInput b p (some q) = .ok (w.setInputs b block (front ++ i :: j :: back)) ∧
          front ++ j :: back = block.inputs.eraseIdx index) ∧
        ∃ front, w.moveInput b p none = .ok (w.setInputs b block (front ++ [i])) ∧
          front = block.inputs.eraseIdx index := by
  refine ⟨fun hsource htarget hne => ⟨_, moveNumberedInput_eq hblock hsource htarget hne,
    movedBefore_moveItem hsource htarget hne⟩, fun {p i} hp => ?_⟩
  obtain ⟨rfl, source, hindex, hi⟩ := Block.exists_index_of_input? hp
  obtain ⟨hsource, -⟩ := List.getElem?_eq_some_iff.1 hi
  refine ⟨source, hi, fun {q j} hpq hq => ?_, ?_⟩
  · obtain ⟨rfl, target, hindex', hj⟩ := Block.exists_index_of_input? hq
    obtain ⟨htarget, -⟩ := List.getElem?_eq_some_iff.1 hj
    have hne : source ≠ target := by
      rintro rfl
      exact hpq (congrArg Input.name (Option.some.inj (hi.symm.trans hj)))
    have hbefore : w.targetIndex b (some j.name) = .ok target := inputIndex_eq hblock hindex'
    obtain ⟨inputs, hmove, -, x, front, back, hx, rfl, -, hback, hrest⟩ :=
      exists_moved hblock hindex hsource (Nat.le_of_lt htarget) hne hbefore
    cases hi.symm.trans hx
    obtain ⟨back, rfl⟩ : ∃ rest, back = j :: rest := List.head?_eq_some_iff.1 (hback.trans hj)
    exact ⟨front, back, hmove, hrest⟩
  · have hbefore : w.targetIndex b none = .ok block.inputs.length := by
      simp only [targetIndex, getBlock_eq_ok.2 hblock, ok_bind, pure_eq_ok]
    obtain ⟨inputs, hmove, -, x, front, back, hx, rfl, -, hback, hrest⟩ :=
      exists_moved hblock hindex hsource (Nat.le_refl _) (Nat.ne_of_lt hsource) hbefore
    cases hi.symm.trans hx
    obtain rfl : back = [] :=
      List.head?_eq_none_iff.1 (hback.trans (List.getElem?_eq_none (Nat.le_refl _)))
    exact ⟨front, hmove, by simpa using hrest⟩

/-- A list block: its last item moved to the front, its first item, which is there already, before
the second, and its first item to the end. -/
theorem inputs_reordered_list :
    ∃ w block, ((Workspace.new {}).newBlock .listCreateWith).map Prod.snd = .ok w ∧
    w.blocks[(⟨1⟩ : BlockId)]? = some block ∧ block.inputs.map Input.name =
      ["HEAD", "ADD0", "ADD1"] ∧
      (∃ inputs, w.moveNumberedInput ⟨1⟩ 2 0 = .ok (w.setInputs ⟨1⟩ block inputs) ∧
        MovedBefore 2 0 block.inputs inputs) ∧
    (∃ front back i j, i.name = "ADD0" ∧ j.name = "ADD1" ∧
      w.moveInput ⟨1⟩ "ADD0" (some "ADD1") =
        .ok (w.setInputs ⟨1⟩ block (front ++ i :: j :: back))) ∧
    ∃ front i, i.name = "ADD0" ∧
    w.moveInput ⟨1⟩ "ADD0" none = .ok (w.setInputs ⟨1⟩ block (front ++ [i])) := by
  obtain ⟨w, hrun, hnames⟩ : ∃ w, ((Workspace.new {}).newBlock .listCreateWith).map
      Prod.snd = .ok w ∧ w.blocks[(⟨1⟩ : BlockId)]?.map (·.inputs.map Input.name) = some ["HEAD",
        "ADD0", "ADD1"] :=
    exists_ok_of_any (by decide +kernel)
  obtain ⟨block, hblock, hnames⟩ := Option.map_eq_some_iff.1 hnames
  have hinput : ∀ {name}, name ∈ block.inputs.map Input.name → ∃ i, block.input? name = some i ∧
      i.name = name := by
    intro name hname
    obtain ⟨i, hi, rfl⟩ := List.mem_map.1 hname
    have hsome : (block.input? i.name).isSome = true :=
      List.find?_isSome.2 ⟨i, hi, beq_self_eq_true i.name⟩
    obtain ⟨j, hj⟩ := Option.isSome_iff_exists.1 hsome
    exact ⟨j, hj, (Block.exists_index_of_input? hj).1⟩
  obtain ⟨i, hi, hname⟩ := hinput (show "ADD0" ∈ _ by simp [hnames])
  obtain ⟨j, hj, hname'⟩ := hinput (show "ADD1" ∈ _ by simp [hnames])
  have hlength : block.inputs.length = 3 := by simpa using congrArg List.length hnames
  obtain ⟨hnumbered, hnamed⟩ := inputs_reordered hblock
  obtain ⟨index, -, hbefore, front, hend, -⟩ := hnamed hi
  obtain ⟨front', back, hmove, -⟩ := hbefore (by decide) hj
  exact ⟨w, block, hrun, hblock, hnames, hnumbered (by omega) (by omega) (by decide),
    ⟨front', back, i, j, hname, hname', hmove⟩, front, i, hname, hend⟩

end Workspace

end BlockGraph
