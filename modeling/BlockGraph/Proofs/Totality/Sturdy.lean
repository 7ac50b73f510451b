import BlockGraph.Proofs.Totality.Gate
import BlockGraph.Proofs.Totality.Links
import BlockGraph.Proofs.Upkeep.Runs

/-!
# Sturdy blocks

A block is sturdy if its inputs have different names and those that its types are given to are
there.  It need not have all the inputs of its kind, and it may have others.

`Distinct.equipped_iff` says what a block with different names needs in terms of the inputs it has.
-/

namespace BlockGraph

open Workspace

namespace Kind

theorem signature_ne_empty (k : Kind) : ∀ p ∈ k.signature.inputs, p.1 ≠ "" := by
  cases k <;> decide

theorem items_iff {k : Kind} : k.signature.items.isSome = true ↔ k = .listCreateWith := by
  cases k <;> decide

end Kind

namespace Block

variable {block : Block} {name : String}

/-- An input with a name of its own is the one that is found under it. -/
theorem Distinct.takes_iff (h : block.Distinct) (hne : name ≠ "") :
    block.Takes name ↔ ∃ input ∈ block.inputs, input.name = name ∧ input.kind ≠ .dummy := by
  constructor
  · rintro ⟨input, hinput, hkind⟩
    exact ⟨input, List.mem_of_find?_eq_some hinput, by simpa using List.find?_some hinput, hkind⟩
  · rintro ⟨input, hinput, rfl, hkind⟩
    cases hfound : block.input? input.name with
    | none => simpa using List.find?_eq_none.1 hfound input hinput
    | some found =>
      have hname : found.name = input.name := by simpa using List.find?_some hfound
      obtain rfl := h.eq_of_name (List.mem_of_find?_eq_some hfound) hinput hname (hname ▸ hne)
      exact ⟨found, hfound, hkind⟩

/-- What a block needs: the inputs of its signature, a socket for every item, and its output. -/
theorem Distinct.equipped_iff (h : block.Distinct) : block.Equipped ↔
    (∀ p ∈ block.kind.signature.inputs, ∃ input ∈ block.inputs, input.name = p.1 ∧
      input.kind ≠ .dummy) ∧
        (block.kind = .listCreateWith →
          ∀ input ∈ block.inputs, Kind.itemMark.isPrefixOf input.name = true →
          input.kind ≠ .dummy) ∧
      (block.kind.hasOutput = true → block.output.isSome = true) := by
  have hitem : ∀ {input : Input}, Kind.itemMark.isPrefixOf input.name = true → input.name ≠ "" := by
    intro input hmark hempty
    rw [hempty] at hmark
    exact absurd hmark (by decide +kernel)
  constructor
  · rintro ⟨hinputs, hitems, houtput⟩
    refine ⟨fun p hp => (h.takes_iff (Kind.signature_ne_empty _ p hp)).1 (hinputs p hp),
      fun hkind input hinput hmark => ?_, houtput⟩
    obtain ⟨found, hfound, hname, hdummy⟩ :=
      (h.takes_iff (hitem hmark)).1
        (hitems (Kind.items_iff.2 hkind) input.name
          (List.mem_filter.2 ⟨List.mem_map_of_mem hinput, hmark⟩))
    rwa [← h.eq_of_name hfound hinput hname (hname ▸ hitem hmark)]
  · rintro ⟨hinputs, hitems, houtput⟩
    refine ⟨fun p hp => (h.takes_iff (Kind.signature_ne_empty _ p hp)).2 (hinputs p hp),
      fun hkind name hname => ?_, houtput⟩
    obtain ⟨hmem, hmark⟩ := List.mem_filter.1 hname
    obtain ⟨input, hinput, rfl⟩ := List.mem_map.1 hmem
    exact (h.takes_iff (hitem hmark)).2
      ⟨input, hinput, rfl, hitems (Kind.items_iff.1 hkind) input hinput hmark⟩

/-- The inputs have different names, and all that types are given to is there. -/
structure Sturdy (block : Block) : Prop where
  names : block.Distinct
  equipped : block.Equipped

theorem Regular.sturdy (h : block.Regular) : block.Sturdy := ⟨h.plain.names, h.laid.equipped⟩

/-- A list needs nothing but sockets for its items. -/
theorem Sturdy.of_list (h : block.Sturdy) (hkind : block.kind = .listCreateWith)
    {inputs : List Input} (hnames : Distinct { block with inputs })
    (hinputs : ∀ input ∈ inputs, input ∈ block.inputs ∨ input.kind ≠ .dummy) :
    Sturdy { block with inputs } := by
  obtain ⟨-, hitems, houtput⟩ := h.names.equipped_iff.1 h.equipped
  refine ⟨hnames, hnames.equipped_iff.2 ⟨fun p hp => ?_, fun _ input hinput hmark => ?_, houtput⟩⟩
  · have hp : p ∈ block.kind.signature.inputs := hp
    rw [hkind] at hp
    cases hp
  · exact (hinputs input hinput).elim (hitems hkind input · hmark) id

theorem steady_sturdy : Steady Sturdy where
  innards h hb := ⟨steady_distinct.innards h hb.names, hb.equipped.of_innards h⟩
  made h := (steady_regular.made h).sturdy
  grown {block} c hkind hnone hb :=
      hb.of_list hkind (hb.names.append fun _ => hnone) fun input hinput =>
    (List.mem_append.1 hinput).imp_right fun hnew => by simp [List.mem_singleton.1 hnew]
  shrunk {block index _} hkind _ _ _ hb :=
      hb.of_list hkind (hb.names.eraseIdx index) fun input hinput =>
    .inl ((List.eraseIdx_sublist _ _).subset hinput)

end Block

end BlockGraph
