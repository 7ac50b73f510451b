import BlockGraph.Proofs.Ty.Renaming
import BlockGraph.Proofs.Workspace.Trees

/-!
# What an edit leaves alone

An edit touches a few blocks and what belongs to them.  `AgreeOff view A w w'` says that `w'` is as
`w` for everything that belongs to the blocks outside `A`, as far as `view` looks: the blocks, their
connections and variables, and the order in which they stand alone.

A tree none of whose blocks is in `A` is then in `w'` what it was (`AgreeOff.same`), and a tree of
`w'` that has no block in `A` was a tree of `w` (`AgreeOff.untouched`).  Everything that is said of
one tree can so be carried from the state before an edit to the state after it.
-/

namespace BlockGraph

variable {b : BlockId} {c : ConnectionId} {v : VariableId} {connection : Connection}

open Relation

/-! ## Views -/

/-- A variable is all that counts of the value of a field. -/
def FieldValue.essence : FieldValue → FieldValue
  | .var id => .var id
  | _ => .label ""

def Field.essence (f : Field) : Field := { f with value := f.value.essence }

def Input.essence (i : Input) : Input := { i with fields := i.fields.map Field.essence }

/-- A block without what it only shows. -/
def Block.essence (b : Block) : Block where
  kind := b.kind
  inputs := b.inputs.map Input.essence
  output := b.output
  previous := b.previous
  next := b.next
  parent := b.parent
  children := b.children

/-- The variable of a binder or a use. -/
def Block.own? (b : Block) : Option VariableId :=
  (b.field? Kind.variableField).bind (·.value.heldVariable?)

/-- What is compared of a block, a connection and a variable.  Owners, parents and children always
are. -/
structure View where
  block : Block → Block
  connection : Connection → Connection
  var : Variable → Variable
  parent : ∀ b, (block b).parent = b.parent
  children : ∀ b, (block b).children = b.children
  owner : ∀ c, (connection c).block = c.block
  holder : ∀ v, (var v).block = v.block

namespace View

/-- Everything. -/
def all : View := ⟨id, id, id, fun _ => rfl, fun _ => rfl, fun _ => rfl, fun _ => rfl⟩

/-- Everything but checks and what blocks only show. -/
def sense : View where
  block := Block.essence
  connection c := { c with check := none }
  var := id
  parent _ := rfl
  children _ := rfl
  owner _ := rfl
  holder _ := rfl

/-- Everything but types and type errors; which connections have a type is seen. -/
def shape : View where
  block := id
  connection c := { c with type := c.type.map fun _ => .var 0, error := none }
  var := Variable.untyped
  parent _ := rfl
  children _ := rfl
  owner _ := rfl
  holder := Variable.block_untyped

/-- Neither types nor checks nor what blocks only show. -/
def graph : View where
  block := Block.essence
  connection c := { c with check := none, type := none, error := none }
  var := Variable.untyped
  parent _ := rfl
  children _ := rfl
  owner _ := rfl
  holder := Variable.block_untyped

/-- `coarse` sees nothing that `fine` does not see. -/
structure Coarser (fine coarse : View) : Prop where
  block : ∀ {b b'}, fine.block b' = fine.block b → coarse.block b' = coarse.block b
  connection : ∀ {c c'}, fine.connection c' = fine.connection c →
    coarse.connection c' = coarse.connection c
  var : ∀ {v v'}, fine.var v' = fine.var v → coarse.var v' = coarse.var v

theorem coarser_all (view : View) : all.Coarser view := ⟨congrArg _, congrArg _, congrArg _⟩

theorem sense_graph : sense.Coarser graph := ⟨id, congrArg graph.connection, congrArg graph.var⟩

theorem shape_graph : shape.Coarser graph := ⟨congrArg graph.block, congrArg graph.connection, id⟩

end View

namespace Workspace

variable {view fine coarse : View} {A B : BlockId → Prop} {w w' w'' : Workspace} {r : BlockId}
  {block : Block}

/-! ## Trees -/

/-- The tree of `r` has a block in `A`. -/
def Touched (w : Workspace) (A : BlockId → Prop) (r : BlockId) : Prop := ∃ b, A b ∧ w.Below r b

/-- The tree of `r` is in `w'` as in `w`. -/
structure Same (view : View) (w w' : Workspace) (r : BlockId) : Prop where
  options : w'.options = w.options
  below : ∀ {b : BlockId}, w'.Below r b ↔ w.Below r b
  block : ∀ {b : BlockId}, w.Below r b → w'.blocks[b]?.map view.block = w.blocks[b]?.map view.block
  connection : ∀ {c : ConnectionId} {connection : Connection},
    w.connections[c]? = some connection → w.Below r connection.block →
    w'.connections[c]?.map view.connection = some (view.connection connection)
  var : ∀ {v : VariableId} {found : Variable}, w.vars[v]? = some found → w.Below r found.block →
    w'.vars[v]?.map view.var = some (view.var found)

namespace Same

theorem refl (view : View) (w : Workspace) (r : BlockId) : Same view w w r :=
  ⟨rfl, Iff.rfl, fun _ => rfl, fun h _ => by rw [h]; rfl, fun h _ => by rw [h]; rfl⟩

theorem trans (h : Same view w w' r) (h' : Same view w' w'' r) : Same view w w'' r where
  options := h'.options.trans h.options
  below := h'.below.trans h.below
  block hb := (h'.block (h.below.2 hb)).trans (h.block hb)
  connection {c connection} hc hbelow := by
    obtain ⟨new, hnew, heq⟩ := Option.map_eq_some_iff.1 (h.connection hc hbelow)
    have howner : new.block = connection.block := by
      rw [← view.owner new, heq, view.owner]
    rw [h'.connection hnew (h.below.2 (howner ▸ hbelow)), heq]
  var {v found} hv hbelow := by
    obtain ⟨new, hnew, heq⟩ := Option.map_eq_some_iff.1 (h.var hv hbelow)
    have hholder : new.block = found.block := by
      rw [← view.holder new, heq, view.holder]
    rw [h'.var hnew (h.below.2 (hholder ▸ hbelow)), heq]

theorem coarsen (h : Same fine w w' r) (hc : fine.Coarser coarse) : Same coarse w w' r where
  options := h.options
  below := h.below
  block hb := map_eq_of_map_eq hc.block (h.block hb)
  connection hconn hbelow :=
    map_eq_of_map_eq (o := some _) hc.connection (h.connection hconn hbelow)
  var hv hbelow := map_eq_of_map_eq (o := some _) hc.var (h.var hv hbelow)

theorem exists_block (h : Same view w w' r) (hbelow : w.Below r b)
    (hb : w.blocks[b]? = some block) :
    ∃ new, w'.blocks[b]? = some new ∧ view.block new = view.block block :=
  exists_of_map_eq (h.block hbelow) hb

theorem exists_connection (h : Same view w w' r) (hc : w.connections[c]? = some connection)
    (hbelow : w.Below r connection.block) :
    ∃ new, w'.connections[c]? = some new ∧ view.connection new = view.connection connection :=
  Option.map_eq_some_iff.1 (h.connection hc hbelow)

theorem exists_var (h : Same view w w' r) {found : Variable} (hv : w.vars[v]? = some found)
    (hbelow : w.Below r found.block) : ∃ new, w'.vars[v]? = some new ∧
    view.var new = view.var found :=
  Option.map_eq_some_iff.1 (h.var hv hbelow)

end Same

theorem below_of_blocks (h : ∀ {b : BlockId}, w.Below r b →
      w'.blocks[b]?.map view.block = w.blocks[b]?.map view.block)
    (hb : w.Below r b) : w'.Below r b := by
  induction hb with
  | refl => exact ReflTransGen.refl
  | @tail p b hp hparent ih =>
    obtain ⟨block, hblock, hpar⟩ := hparent
    obtain ⟨new, hnew, hview⟩ := exists_of_map_eq (h (hp.tail ⟨block, hblock, hpar⟩)) hblock
    refine ih.tail ⟨new, hnew, ?_⟩
    rw [← view.parent new, hview, view.parent, hpar]

/-- The other way round the walk goes down: a parent that is as before has the same children. -/
theorem InOrder.below_of_blocks (hw : w.InOrder) (hw' : w'.InOrder)
    (h : ∀ {b : BlockId}, w.Below r b →
      w'.blocks[b]?.map view.block = w.blocks[b]?.map view.block)
    (hb : w'.Below r b) : w.Below r b := by
  induction hb with
  | refl => exact ReflTransGen.refl
  | @tail p b hp hparent ih =>
    obtain ⟨f, hf⟩ := hw'.formed.related.live (parentOf_skeleton.2 hparent)
    obtain ⟨above', habove', -⟩ := frame_eq_some_iff.1 hf
    obtain ⟨above, habove, hview⟩ := exists_of_map_eq (h ih).symm habove'
    have hchildren : above'.children = above.children := by
      rw [← view.children above', ← hview, view.children]
    have hmem : b ∈ above'.children := ((hw'.structured.children habove').2 b).2 hparent
    rw [hchildren] at hmem
    exact ih.tail (((hw.structured.children habove).2 b).1 hmem)

/-! ## Agreement off some blocks -/

/-- `w'` is as `w` for all that belongs to blocks outside `A`. -/
structure AgreeOff (view : View) (A : BlockId → Prop) (w w' : Workspace) : Prop where
  options : w'.options = w.options
  block : ∀ {b : BlockId}, ¬ A b → w'.blocks[b]?.map view.block = w.blocks[b]?.map view.block
  connection : ∀ {c : ConnectionId} {connection : Connection},
    w.connections[c]? = some connection → ¬ A connection.block →
    w'.connections[c]?.map view.connection = some (view.connection connection)
  var : ∀ {v : VariableId} {found : Variable}, w.vars[v]? = some found → ¬ A found.block →
    w'.vars[v]?.map view.var = some (view.var found)
  /-- Blocks outside `A` stand alone in the same order. -/
  top : ∀ l : List BlockId, (∀ b ∈ l, ¬ A b) → (l.Sublist w'.top ↔ l.Sublist w.top)

namespace AgreeOff

theorem refl (view : View) (A : BlockId → Prop) (w : Workspace) : AgreeOff view A w w :=
  ⟨rfl, fun _ => rfl, fun h _ => by rw [h]; rfl, fun h _ => by rw [h]; rfl, fun _ _ => Iff.rfl⟩

theorem trans (h : AgreeOff view A w w') (h' : AgreeOff view A w' w'') : AgreeOff view A w w'' where
  options := h'.options.trans h.options
  block hb := (h'.block hb).trans (h.block hb)
  connection {c connection} hc hA := by
    obtain ⟨new, hnew, heq⟩ := Option.map_eq_some_iff.1 (h.connection hc hA)
    have howner : new.block = connection.block := by
      rw [← view.owner new, heq, view.owner]
    rw [h'.connection hnew (howner ▸ hA), heq]
  var {v found} hv hA := by
    obtain ⟨new, hnew, heq⟩ := Option.map_eq_some_iff.1 (h.var hv hA)
    have hholder : new.block = found.block := by
      rw [← view.holder new, heq, view.holder]
    rw [h'.var hnew (hholder ▸ hA), heq]
  top l hl := (h'.top l hl).trans (h.top l hl)

theorem mono (h : AgreeOff view A w w') (hAB : ∀ b, A b → B b) : AgreeOff view B w w' where
  options := h.options
  block hb := h.block fun hA => hb (hAB _ hA)
  connection hc hB := h.connection hc fun hA => hB (hAB _ hA)
  var hv hB := h.var hv fun hA => hB (hAB _ hA)
  top l hl := h.top l fun b hb hA => hl b hb (hAB b hA)

theorem coarsen (h : AgreeOff fine A w w') (hc : fine.Coarser coarse) : AgreeOff coarse A w w' where
  options := h.options
  block hb := map_eq_of_map_eq hc.block (h.block hb)
  connection hconn hA := map_eq_of_map_eq (o := some _) hc.connection (h.connection hconn hA)
  var hv hA := map_eq_of_map_eq (o := some _) hc.var (h.var hv hA)
  top := h.top

section

variable (h : AgreeOff view A w w')
include h

theorem mem_top (hb : ¬ A b) : b ∈ w'.top ↔ b ∈ w.top := by
  simpa using h.top [b] (by simpa using hb)

/-- A tree without a block in `A` is as it was. -/
theorem same (hw : w.InOrder) (hw' : w'.InOrder) (hr : ¬ w.Touched A r) : Same view w w' r := by
  have hoff : ∀ {b : BlockId}, w.Below r b → ¬ A b := fun hb hA => hr ⟨_, hA, hb⟩
  have hblock : ∀ {b : BlockId}, w.Below r b →
      w'.blocks[b]?.map view.block = w.blocks[b]?.map view.block := fun hb => h.block (hoff hb)
  exact ⟨h.options, ⟨hw.below_of_blocks hw' hblock, below_of_blocks hblock⟩, hblock,
    fun hc hbelow => h.connection hc (hoff hbelow), fun hv hbelow => h.var hv (hoff hbelow)⟩

/-- A tree that has no block in `A` afterwards had none before. -/
theorem untouched (hw : w.InOrder) (hw' : w'.InOrder) (hr : ¬ w'.Touched A r) :
    ¬ w.Touched A r := by
  have hblock : ∀ {b : BlockId}, w'.Below r b →
    w.blocks[b]?.map view.block = w'.blocks[b]?.map view.block :=
    fun hb => (h.block fun hA => hr ⟨_, hA, hb⟩).symm
  rintro ⟨b, hA, hb⟩
  exact hr ⟨b, hA, hw'.below_of_blocks hw hblock hb⟩

theorem mem_top_of_untouched (hr : r ∈ w'.top) (huntouched : ¬ w'.Touched A r) : r ∈ w.top :=
  (h.mem_top fun hA => huntouched ⟨r, hA, ReflTransGen.refl⟩).1 hr

end

/-! ## Single updates -/

/-- The registry, the counters, the type table and the events belong to no block. -/
theorem of_eq (hoptions : w'.options = w.options) (hblocks : w'.blocks = w.blocks)
    (hconnections : w'.connections = w.connections) (hvars : w'.vars = w.vars)
    (htop : w'.top = w.top) : AgreeOff view A w w' := by
  refine ⟨hoptions, fun _ => by rw [hblocks], fun h _ => ?_, fun h _ => ?_, fun _ _ => by rw [htop]⟩
  · rw [hconnections, h]
    rfl
  · rw [hvars, h]
    rfl

theorem insertBlock (hb : A b) :
    AgreeOff view A w { w with blocks := w.blocks.insert b block } := by
  refine ⟨rfl, fun {x} hx => ?_, fun h _ => by rw [h]; rfl, fun h _ => by rw [h]; rfl,
    fun _ _ => Iff.rfl⟩
  rw [getElem?_insert_eq, if_neg]
  rintro rfl
  exact hx hb

theorem eraseBlock (hb : A b) : AgreeOff view A w { w with blocks := w.blocks.erase b } := by
  refine ⟨rfl, fun {x} hx => ?_, fun h _ => by rw [h]; rfl, fun h _ => by rw [h]; rfl,
    fun _ _ => Iff.rfl⟩
  rw [getElem?_erase_eq, if_neg]
  rintro rfl
  exact hx hb

theorem modifyBlock {f : Block → Block} (h : w.modifyBlock b f = .ok w') (hb : A b) :
    AgreeOff view A w w' := by
  obtain ⟨block, -, rfl⟩ := modifyBlock_eq_ok.1 h
  exact insertBlock hb

/-- A connection that is new or belongs to a block in `A`. -/
theorem insertConnection (hc : ∀ old, w.connections[c]? = some old → A old.block) :
    AgreeOff view A w { w with connections := w.connections.insert c connection } := by
  refine ⟨rfl, fun _ => rfl, fun {x found} hx hA => ?_, fun h _ => by rw [h]; rfl,
    fun _ _ => Iff.rfl⟩
  rw [getElem?_insert_eq, if_neg, hx]
  · rfl
  · rintro rfl
    exact hA (hc found hx)

theorem eraseConnection (hc : ∀ old, w.connections[c]? = some old → A old.block) :
    AgreeOff view A w { w with connections := w.connections.erase c } := by
  refine ⟨rfl, fun _ => rfl, fun {x found} hx hA => ?_, fun h _ => by rw [h]; rfl,
    fun _ _ => Iff.rfl⟩
  rw [getElem?_erase_eq, if_neg, hx]
  · rfl
  · rintro rfl
    exact hA (hc found hx)

theorem modifyConnection {f : Connection → Connection} (h : w.modifyConnection c f = .ok w')
    (hc : ∀ old, w.connections[c]? = some old → A old.block) : AgreeOff view A w w' := by
  obtain ⟨connection, -, rfl⟩ := modifyConnection_eq_ok.1 h
  exact insertConnection hc

/-- A variable that is new or belongs to a block in `A`. -/
theorem insertVariable {new : Variable} (hv : ∀ old, w.vars[v]? = some old → A old.block) :
    AgreeOff view A w { w with vars := w.vars.insert v new } := by
  refine ⟨rfl, fun _ => rfl, fun h _ => by rw [h]; rfl, fun {x found} hx hA => ?_,
    fun _ _ => Iff.rfl⟩
  rw [getElem?_insert_eq, if_neg, hx]
  · rfl
  · rintro rfl
    exact hA (hv found hx)

theorem modifyVariable {f : Variable → Variable} (h : w.modifyVariable v f = .ok w')
    (hv : ∀ old, w.vars[v]? = some old → A old.block) :
    AgreeOff view A w w' := by
  obtain ⟨found, -, rfl⟩ := modifyVariable_eq_ok.1 h
  exact insertVariable hv

theorem setTop {top : List BlockId}
    (h : ∀ l : List BlockId, (∀ b ∈ l, ¬ A b) → (l.Sublist top ↔ l.Sublist w.top)) :
    AgreeOff view A w { w with top } :=
  ⟨rfl, fun _ => rfl, fun h _ => by rw [h]; rfl, fun h _ => by rw [h]; rfl, h⟩

theorem appendTop (hb : A b) : AgreeOff view A w { w with top := w.top ++ [b] } := by
  refine setTop fun l hl => ⟨fun h => ?_, fun h => h.trans (List.sublist_append_left _ _)⟩
  obtain ⟨front, back, rfl, hfront, hback⟩ := List.sublist_append_iff.1 h
  have hnil : back = [] := by
    rcases List.sublist_singleton.1 hback with rfl | rfl
    · rfl
    · exact absurd hb (hl b (by simp))
  simpa [hnil] using hfront

theorem addTop (hb : A b) : AgreeOff view A w (w.addTop b) := by
  unfold Workspace.addTop
  split
  · exact .refl view A w
  · exact appendTop hb

theorem removeTop (hb : A b) : AgreeOff view A w (w.removeTop b) := by
  refine setTop fun l hl => ?_
  have hl' : b ∉ l.reverse := fun h => hl b (List.mem_reverse.1 h) hb
  rw [← List.reverse_sublist, List.reverse_reverse]
  constructor
  · exact fun h => List.reverse_sublist.1 (h.trans List.erase_sublist)
  · intro h
    have := (List.reverse_sublist.2 h).erase b
    rwa [List.erase_of_not_mem hl'] at this

end AgreeOff

/-! ## Steps that stay in some blocks -/

/-- Outside `A` nothing differs that the view sees, and the types known before mean what they meant.
Without types the table is left alone. -/
structure Confined (view : View) (A : BlockId → Prop) (w w' : Workspace) : Prop where
  agree : AgreeOff view A w w'
  carries : w.types.Carries w'.types
  untyped : w.isTyped = false → w'.types = w.types

namespace Confined

theorem refl (view : View) (A : BlockId → Prop) (w : Workspace) : Confined view A w w :=
  ⟨.refl view A w, .refl w.types, fun _ => rfl⟩

theorem isTyped_eq (h : Confined view A w w') : w'.isTyped = w.isTyped := by
  rw [isTyped, h.agree.options, isTyped]

theorem trans (h : Confined view A w w') (h' : Confined view A w' w'') : Confined view A w w'' :=
  ⟨h.agree.trans h'.agree, h.carries.trans h'.carries, fun hw =>
    (h'.untyped (h.isTyped_eq.trans hw)).trans (h.untyped hw)⟩

theorem mono (h : Confined view A w w') (hAB : ∀ b, A b → B b) : Confined view B w w' :=
  ⟨h.agree.mono hAB, h.carries, h.untyped⟩

theorem coarsen (h : Confined fine A w w') (hc : fine.Coarser coarse) : Confined coarse A w w' :=
  ⟨h.agree.coarsen hc, h.carries, h.untyped⟩

theorem of_types (h : AgreeOff view A w w') (htypes : w'.types = w.types) : Confined view A w w' :=
  ⟨h, by rw [htypes]; exact .refl w.types, fun _ => htypes⟩

end Confined

end Workspace

end BlockGraph
