import BlockGraph.Proofs.Json.Text
import BlockGraph.Proofs.Workspace.Runs
import BlockGraph.Record.Reader
import BlockGraph.Workspace.Save

/-!
# The text of a record

What has its default value is left out of the text of a record, and reading puts the default in its
place.  `Record.entries` lists the entries of a record with those that are left out; the reader
finds them by name (`RawJson.entries?_raw`), and each by itself comes back as it was
(`Record.readWith?_raw`).  Depth is spent alike on both sides, two levels for the record in an input
and one for the record below.

So a record that holds only what JSON can hold is read back from its text (`Record.parse?_text`),
and the records of blocks are such (`Workspace.regular_recordWithin`).
-/

namespace BlockGraph

variable {j : Json} {members : List (String × Json)} {d : Nat} {r : Record} {α : Type}
  {block : Block}

/-! ## Objects -/

namespace Json

/-- A value that its text stands for, if at most `d` arrays and objects may nest. -/
structure Legible (d : Nat) (j : Json) : Prop where
  depth : j.depth ≤ d
  floats : ∀ x ∈ j.floats, Restored x

theorem memberDepth_le_iff : memberDepth members ≤ d ↔ ∀ m ∈ members, m.2.depth ≤ d := by
  induction members with
  | nil => simp [memberDepth]
  | cons m ms ih => simp [memberDepth, ih]

theorem memberFloats_eq (members : List (String × Json)) :
    memberFloats members = members.flatMap (·.2.floats) := by
  induction members with
  | nil => rfl
  | cons m ms ih => simp [memberFloats, ih]

theorem legible_obj_iff : (obj members).Legible d ↔ 0 < d ∧ ∀ m ∈ members, m.2.Legible (d - 1) := by
  constructor
  · rintro ⟨hdepth, hfloats⟩
    simp only [Json.depth] at hdepth
    simp only [Json.floats, memberFloats_eq, List.mem_flatMap] at hfloats
    refine ⟨by omega, fun m hm => ⟨?_, fun x hx => hfloats x ⟨m, hm, hx⟩⟩⟩
    exact memberDepth_le_iff.1 (Nat.le_sub_one_of_lt hdepth) m hm
  · rintro ⟨hd, hmembers⟩
    refine ⟨?_, ?_⟩
    · have := memberDepth_le_iff.2 fun m hm => (hmembers m hm).depth
      simp only [Json.depth]
      omega
    · simp only [Json.floats, memberFloats_eq, List.mem_flatMap]
      rintro x ⟨m, hm, hx⟩
      exact (hmembers m hm).floats x hx

theorem regular_natCast {n : Nat} (h : n < 2 ^ 64) : (int n).Regular := by
  have hhigh : n < Nat.pow 2 64 := h
  exact ⟨by omega, Int.ofNat_lt.2 hhigh⟩

end Json

namespace RawJson

open Json

theorem keyed?_rawMembers (members : List (String × Json)) :
    keyed? (rawMembers members) = some (members.map fun m => (m.1, m.2.raw)) := by
  induction members with
  | nil => rfl
  | cons m ms ih => simp [rawMembers, keyed?, ih]

/-- The members of an object with some entries, of which each may be left out. -/
def present (entries : List (String × Option Json)) : List (String × Json) :=
  entries.flatMap fun e => Record.member e.1 e.2

theorem filter_present_of_notMem {entries : List (String × Option Json)} {key : String}
    (h : key ∉ entries.map Prod.fst) : (present entries).filter (fun m => m.1 == key) = [] := by
  refine List.filter_eq_nil_iff.2 fun m hm => ?_
  obtain ⟨e, he, hm⟩ := List.mem_flatMap.1 hm
  have hkey : m.1 = e.1 := by
    cases hvalue : e.2 <;> simp_all [Record.member]
  rw [beq_iff_eq, hkey]
  rintro rfl
  exact h (List.mem_map_of_mem he)

theorem filter_present {entries : List (String × Option Json)}
    (hnodup : (entries.map Prod.fst).Nodup) {e : String × Option Json} (he : e ∈ entries) :
    (present entries).filter (fun m => m.1 == e.1) = Record.member e.1 e.2 := by
  induction entries with
  | nil => cases he
  | cons e' es ih =>
    rw [List.map_cons, List.nodup_cons] at hnodup
    have hsplit : present (e' :: es) = Record.member e'.1 e'.2 ++ present es := List.flatMap_cons
    rw [hsplit, List.filter_append]
    rcases List.mem_cons.1 he with rfl | he
    · rw [filter_present_of_notMem hnodup.1, List.append_nil]
      cases e.2 <;> simp [Record.member]
    · rw [ih hnodup.2 he]
      have hne : e'.1 ≠ e.1 := fun heq => hnodup.1 (heq ▸ List.mem_map_of_mem he)
      cases e'.2 <;> simp [Record.member, hne]

theorem mapM_map_eq_some {β γ : Type} {f : β → Option γ} {g : α → β} {g' : α → γ} {l : List α}
    (h : ∀ a ∈ l, f (g a) = some (g' a)) : (l.map g).mapM f = some (l.map g') := by
  induction l with
  | nil => rfl
  | cons a l ih =>
    simp [h a List.mem_cons_self, ih fun b hb => h b (List.mem_cons_of_mem _ hb)]

/-- The entries of a printed object are found under their names. -/
theorem entries?_raw {entries : List (String × Option Json)} {names : List String}
    (hnames : entries.map Prod.fst = names) (hnodup : names.Nodup) :
    (Json.obj (present entries)).raw.entries? names =
      some (entries.map fun e => e.2.map Json.raw) := by
  subst hnames
  have hselect : ∀ e ∈ entries,
      select? ((present entries).map fun m => (m.1, m.2.raw)) e.1 = some (e.2.map Json.raw) := by
    intro e he
    have hfilter := filter_present hnodup he
    simp only [select?, List.filter_map, Function.comp_def, hfilter]
    cases e.2 <;> rfl
  simp only [Json.raw, entries?, keyed?_rawMembers, Option.bind_eq_bind, Option.bind_some]
  exact mapM_map_eq_some hselect

/-- A printed dictionary is read by reading its values. -/
theorem dict?_raw (hd : 0 < d) {read : RawJson → Option α} {f : α → Json} {entries : Dict α}
    (hsorted : entries.Sorted) (hread : ∀ e ∈ entries, read (f e.2).raw = some e.2) :
    dict? d read (Json.obj (entries.map fun e => (e.1, f e.2))).raw = some entries := by
  have hmap : (entries.map fun e => (e.1, (f e.2).raw)).mapM
      (fun m : String × RawJson => do return (m.1, ← read m.2)) = some (entries.map id) := by
    refine mapM_map_eq_some fun e he => ?_
    simp [hread e he]
  simp only [Json.raw, dict?, if_neg hd.ne', keyed?_rawMembers, List.map_map, Function.comp_def]
  simp only [Option.bind_eq_bind, Option.bind_some] at hmap ⊢
  rw [hmap]
  simp [Dict.ofList_eq_self hsorted]

/-- An entry that may be null and is not is read as it was written. -/
theorem optional?_raw {read : RawJson → Option α} {f : α → Json} {o : Option α}
    (hread : ∀ a ∈ o, read (f a).raw = some a) (hnull : ∀ a ∈ o, f a ≠ .null) :
    optional? read ((o.map f).map Json.raw) = some o := by
  cases o with
  | none => rfl
  | some a =>
    have hraw : ∀ j : Json, j ≠ .null → optional? read (some j.raw) = (read j.raw).map some := by
      intro j hj
      cases j with
      | null => exact absurd rfl hj
      | _ => rfl
    simp only [Option.map_some, hraw _ (hnull a rfl), hread a rfl]

end RawJson

/-- A place in the plane, none of whose coordinates is infinite or not a number. -/
def Coordinate.IsFinite (p : Coordinate) : Prop := p.x.isFinite = true ∧ p.y.isFinite = true

instance : DecidablePred Coordinate.IsFinite := fun p =>
  inferInstanceAs (Decidable (p.x.isFinite = true ∧ p.y.isFinite = true))

namespace Record

open RawJson

/-! ## The entries of a record -/

/-- An object, left out when it is empty. -/
def unlessEmpty : List (String × Json) → Option Json
  | [] => none
  | members => some (.obj members)

/-- A flag, left out when it is off. -/
def whenSet (value : Bool) : Option Json := if value then some (.bool true) else none

mutual

/-- What is saved of the blocks in a record, parents before children. -/
def blocks : Record → List SavedBlock
  | node block inputs next => block :: (inputBlocks inputs ++ nextBlocks next)

def inputBlocks : List (String × Record) → List SavedBlock
  | [] => []
  | (_, child) :: rest => child.blocks ++ inputBlocks rest

def nextBlocks : Option Record → List SavedBlock
  | none => []
  | some below => below.blocks

end

theorem inputBlocks_eq (inputs : List (String × Record)) :
    inputBlocks inputs = inputs.flatMap (·.2.blocks) := by
  induction inputs with
  | nil => rfl
  | cons entry rest ih => simp only [inputBlocks, ih, List.flatMap_cons]

theorem nextBlocks_eq (next : Option Record) : nextBlocks next = next.toList.flatMap blocks := by
  cases next <;> simp [nextBlocks]

/-- The entries of a record under their names, those that are left out included. -/
def entries (b : SavedBlock) (inputs : List (String × Record)) (next : Option Record) :
    List (String × Option Json) :=
  [("type", some (.str b.tag)), ("id", some (.int b.id.index)), ("fields", unlessEmpty b.fields),
   ("extra_state", b.state), ("inputs", unlessEmpty (inputsJson inputs)), ("next", nextJson next),
   ("disabled", whenSet b.disabled), ("collapsed", whenSet b.collapsed),
   ("comment", b.comment.map .str), ("position", b.position.map coordinateJson)]

theorem object_eq (key : String) (members : List (String × Json)) :
    object key members = member key (unlessEmpty members) := by
  cases members <;> rfl

theorem flag_eq (key : String) (value : Bool) : flag key value = member key (whenSet value) := by
  cases value <;> rfl

theorem json_node (b : SavedBlock) (inputs : List (String × Record)) (next : Option Record) :
    (node b inputs next).json = .obj (present (entries b inputs next)) := by
  simp only [json, leading, trailing, object_eq, flag_eq, present, entries, List.flatMap_cons,
    List.flatMap_nil, List.append_assoc, List.append_nil]
  rfl

theorem inputsJson_eq (inputs : List (String × Record)) :
    inputsJson inputs = inputs.map fun e => (e.1, e.2.json) := by
  induction inputs with
  | nil => rfl
  | cons e rest ih => simp [inputsJson, ih]

theorem nextJson_eq (next : Option Record) : nextJson next = next.map json := by
  cases next <;> rfl

/-! ## Reading entries -/

theorem defaulted?_dict {read : RawJson → Option α} {f : α → Json} {dict : Dict α}
    (hsorted : dict.Sorted)
    (hlegible : ∀ j ∈ unlessEmpty (dict.map fun e => (e.1, f e.2)), j.Legible d)
    (hread : ∀ e ∈ dict, (f e.2).Legible (d - 1) → read (f e.2).raw = some e.2) :
    defaulted? [] (dict? d read) ((unlessEmpty (dict.map fun e => (e.1, f e.2))).map Json.raw) =
      some dict := by
  cases dict with
  | nil => rfl
  | cons e rest =>
    obtain ⟨hd, hmembers⟩ := Json.legible_obj_iff.1 (hlegible _ rfl)
    exact dict?_raw hd hsorted fun e' he' => hread e' he' (hmembers _ (List.mem_map_of_mem he'))

theorem readId?_raw {id : BlockId} (h : id.index < 2 ^ 32) :
    readId? (Json.int id.index).raw = some id := by
  have hregular : (Json.int id.index).Regular := Json.regular_natCast (by omega)
  have hvalue : (numeralOf id.index).value? = some (.int id.index) :=
    value?_numeralOf hregular.1 hregular.2
  have hnat : Json.asNat? (.int id.index) = some id.index := rfl
  have hsmall : id.index < Nat.pow 2 32 := h
  simp [readId?, Json.raw, nat?, hvalue, hnat, hsmall]

theorem float?_raw {x : Float} (hx : Json.Restored x) : float? (Json.float x).raw = some x := by
  simp [Json.raw, float?, hx.numeral.2, Json.asFloat?]

theorem readCoordinate?_raw {p : Coordinate} (hfinite : p.IsFinite)
    (hp : (coordinateJson p).Legible d) :
    readCoordinate? d (coordinateJson p).raw = some p := by
  have hjson : coordinateJson p =
      .obj (present [("x", some (.float p.x)), ("y", some (.float p.y))]) := by
    rw [coordinateJson, Json.ofFloat_of_isFinite hfinite.1, Json.ofFloat_of_isFinite hfinite.2]
    rfl
  rw [hjson] at hp ⊢
  have hentries :
      (Json.obj (present [("x", some (.float p.x)), ("y", some (.float p.y))])).raw.entries? ["x",
        "y"] = some [some (Json.float p.x).raw, some (Json.float p.y).raw] :=
    entries?_raw rfl (by decide)
  obtain ⟨hd, hmembers⟩ := Json.legible_obj_iff.1 hp
  have hpx := float?_raw ((hmembers ("x", .float p.x) (by simp [present, member])).floats p.x
    (by simp [Json.floats]))
  have hpy := float?_raw ((hmembers ("y", .float p.y) (by simp [present, member])).floats p.y
    (by simp [Json.floats]))
  simp [readCoordinate?, hd.ne', hentries, required?, hpx, hpy]

theorem defaulted?_whenSet (value : Bool) :
    defaulted? false bool? ((whenSet value).map Json.raw) = some value := by
  cases value <;> rfl

/-! ## Reading records -/

end Record

/-- What every saved block is like: its number has 32 bits, its place is a finite one, and fields
and state are values that JSON can hold. -/
structure SavedBlock.Regular (b : SavedBlock) : Prop where
  id : b.id.index < 2 ^ 32
  sorted : Dict.Sorted b.fields
  fields : ∀ e ∈ b.fields, e.2.Regular
  state : ∀ j ∈ b.state, j.Regular ∧ j ≠ .null
  position : ∀ p ∈ b.position, p.IsFinite

namespace Record

open RawJson

inductive Regular : Record → Prop
  | node {b : SavedBlock} {inputs : List (String × Record)} {next : Option Record} :
    b.Regular → Dict.Sorted inputs → (∀ e ∈ inputs, e.2.Regular) → (∀ below ∈ next, below.Regular) →
      Regular (.node b inputs next)

variable {b : SavedBlock} {inputs : List (String × Record)} {next : Option Record} {d : Nat}

theorem json_ne_null (r : Record) : r.json ≠ .null := by
  cases r
  rw [json]
  exact Json.noConfusion

/-- One level of a record is read if what it holds is. -/
theorem readWith?_raw {child below : RawJson → Option Record} (hb : b.Regular)
    (hinputs : Dict.Sorted inputs) (hlegible : ∀ e ∈ entries b inputs next, ∀ j ∈ e.2, j.Legible d)
    (hchild : ∀ e ∈ inputs, e.2.json.Legible (d - 1) → child e.2.json.raw = some e.2)
    (hbelow : ∀ r ∈ next, r.json.Legible d → below r.json.raw = some r) :
    readWith? d child below (node b inputs next).json.raw = some (.node b inputs next) := by
  have hentries : (node b inputs next).json.raw.entries? entryNames =
      some ((entries b inputs next).map fun e => e.2.map Json.raw) := by
    rw [json_node]
    exact entries?_raw rfl (by decide)
  simp only [entries, List.forall_mem_cons] at hlegible
  obtain ⟨-, -, hfields, hstate, hins, hnext, -, -, -, hposition, -⟩ := hlegible
  have hfields : defaulted? [] (dict? d (value? (d - 1))) ((unlessEmpty b.fields).map Json.raw) =
      some b.fields := by
    have hread := defaulted?_dict (f := id) hb.sorted (by simpa using hfields)
      fun e he hlegible => e.2.value?_raw (hb.fields e he) hlegible.floats hlegible.depth
    simpa using hread
  have hstate : optional? (value? d) (b.state.map Json.raw) = some b.state := by
    have hread := optional?_raw (f := id)
      (fun j hj => j.value?_raw (hb.state j hj).1 (hstate j hj).floats (hstate j hj).depth)
      fun j hj => (hb.state j hj).2
    simpa using hread
  have hins : defaulted? [] (dict? d child) ((unlessEmpty (inputsJson inputs)).map Json.raw) =
      some inputs := by
    rw [inputsJson_eq] at hins ⊢
    exact defaulted?_dict hinputs hins hchild
  have hnext : optional? below ((nextJson next).map Json.raw) = some next := by
    rw [nextJson_eq] at hnext ⊢
    exact optional?_raw (fun r hr => hbelow r hr (hnext _ (Option.mem_map_of_mem _ hr)))
      fun r _ => json_ne_null r
  have hcomment : optional? string? ((b.comment.map .str).map Json.raw) = some b.comment :=
    optional?_raw (fun s _ => text?_piecesOf s) fun s _ => Json.noConfusion
  have hposition : optional? (readCoordinate? d) ((b.position.map coordinateJson).map Json.raw) =
      some b.position :=
    optional?_raw (fun p hp => readCoordinate?_raw (hb.position p hp)
      (hposition _ (Option.mem_map_of_mem _ hp))) fun p _ => Json.noConfusion
  have htag : string? (Json.str b.tag).raw = some b.tag := text?_piecesOf b.tag
  rw [readWith?, hentries]
  simp only [entries, List.map_cons, List.map_nil, Option.bind_eq_bind, Option.bind_some, required?,
    Option.map_some, htag, readId?_raw hb.id, hfields, hstate, hins, hnext, defaulted?_whenSet,
    hcomment, hposition]
  rfl

theorem legible_entries (h : (node b inputs next).json.Legible d) :
    0 < d ∧ ∀ e ∈ entries b inputs next, ∀ j ∈ e.2, j.Legible (d - 1) := by
  rw [json_node] at h
  obtain ⟨hd, hmembers⟩ := Json.legible_obj_iff.1 h
  refine ⟨hd, fun e he j hj => hmembers (e.1, j) (List.mem_flatMap.2 ⟨e, he, ?_⟩)⟩
  rw [hj]
  exact List.mem_singleton.2 rfl

theorem read?_raw (hr : r.Regular) (hlegible : r.json.Legible d) : read? d r.json.raw = some r := by
  -- on the depth, since the reader steps down two levels to an input and one to what is below
  induction d using Nat.strong_induction_on generalizing r with
  | h d ih =>
    obtain ⟨hb, hinputs, hchildren, hnext⟩ := hr
    obtain ⟨hd, hentries⟩ := legible_entries hlegible
    match d with
    | 1 =>
      have hflat : ∀ r : Record, ¬r.json.Legible 0 := by
        rintro ⟨b, inputs, next⟩ h
        exact absurd (legible_entries h).1 (Nat.lt_irrefl 0)
      exact readWith?_raw hb hinputs hentries (fun e _ h => absurd h (hflat e.2))
        fun r _ h => absurd h (hflat r)
    | d + 2 =>
      exact readWith?_raw hb hinputs hentries (fun e he => ih d (by omega) (hchildren e he))
        fun r hr => ih (d + 1) (by omega) (hnext r hr)

theorem parse?_text (hr : r.Regular) (hlegible : r.json.Legible depthLimit) :
    parse? r.text = some r := by
  have hraw : RawJson.parse? r.text = some r.json.raw := RawJson.parse?_text hlegible.floats
  rw [parse?, hraw]
  exact read?_raw hr hlegible

end Record

/-! ## Records of blocks -/

namespace Workspace

/-- Numbers of blocks have 32 bits and counts of inputs 64. -/
def Sized (w : Workspace) : Prop :=
  ∀ {b : BlockId} {block : Block}, w.blocks[b]? = some block → b.index < 2 ^ 32 ∧
    block.inputs.length < 2 ^ 64

variable {w : Workspace} {b : BlockId}

theorem regular_fieldJson {value : FieldValue} (h : w.fieldJson value = .ok j) : j.Regular := by
  cases value with
  | number x =>
    cases h
    unfold Json.ofFloat
    split <;> trivial
  | var v =>
    obtain ⟨variable', -, hj⟩ := bind_eq_ok.1 h
    cases hj
    trivial
  | _ =>
    cases h
    trivial

theorem regular_savedFields {fields : Dict Json} (h : w.savedFields block = .ok fields) :
    fields.Sorted ∧ ∀ e ∈ fields, e.2.Regular := by
  simp only [savedFields, bind_eq_ok, mapM_eq_ok, pure_eq_ok, Except.ok.injEq] at h
  obtain ⟨entries, hentries, rfl⟩ := h
  refine ⟨Dict.sorted_ofList _, fun e he => ?_⟩
  obtain ⟨field, j, hj, rfl⟩ :=
    exists_forall₂_iff.1 ⟨_, hentries.flip⟩ e (Dict.mem_of_mem_ofList he)
  exact regular_fieldJson hj

theorem regular_savedState (hsize : block.inputs.length < 2 ^ 64) (h : savedState block = some j) :
    j.Regular ∧ j ≠ .null := by
  unfold savedState at h
  split at h
  · cases h
    have hcount : block.itemNames.length ≤ block.inputs.length := by
      simpa [Block.itemNames] using List.length_filter_le _ (block.inputs.map Input.name)
    exact ⟨⟨List.pairwise_singleton _ _, Json.regular_natCast (by omega), trivial⟩,
      Json.noConfusion⟩
  · cases h

theorem regular_savedBlock (hw : w.Sized) {saved : SavedBlock} (h : w.savedBlock b = .ok saved)
    (hfinite : ∀ p ∈ saved.position, p.IsFinite) : saved.Regular := by
  simp only [savedBlock, bind_eq_ok, getBlock_eq_ok, pure_eq_ok, Except.ok.injEq] at h
  obtain ⟨block, hblock, fields, hfields, rfl⟩ := h
  obtain ⟨hsorted, hregular⟩ := regular_savedFields hfields
  exact ⟨(hw hblock).1, hsorted, hregular, fun j hj => regular_savedState (hw hblock).2 hj, hfinite⟩

theorem regular_recordWithin (hw : w.Sized) {depth : Nat} (h : w.recordWithin depth b = .ok r)
    (hfinite : ∀ s ∈ r.blocks, ∀ p ∈ s.position, p.IsFinite) : r.Regular := by
  induction depth generalizing b r with
  | zero =>
    simp only [recordWithin, bind_eq_ok, pure_eq_ok, Except.ok.injEq] at h
    obtain ⟨saved, hsaved, rfl⟩ := h
    exact .node (regular_savedBlock hw hsaved (hfinite saved List.mem_cons_self)) List.Pairwise.nil
      (fun e he => absurd he List.not_mem_nil) fun r hr => absurd hr (Option.not_mem_none r)
  | succ depth ih =>
    simp only [recordWithin, bind_eq_ok, mapM_eq_ok, pure_eq_ok, Except.ok.injEq] at h
    obtain ⟨saved, hsaved, block, -, pairs, -, entries, hentries, next, -, below, hbelow, rfl⟩ := h
    simp only [Record.blocks, Record.inputBlocks_eq, Record.nextBlocks_eq, List.mem_cons,
      List.mem_append, List.mem_flatMap] at hfinite
    refine .node (regular_savedBlock hw hsaved (hfinite saved (.inl rfl)))
      (Dict.sorted_ofList _) ?_ ?_
    · intro e he
      have hmem := List.mem_reverse.1 (Dict.mem_of_mem_ofList he)
      obtain ⟨p, r, hr, rfl⟩ := exists_forall₂_iff.1 ⟨_, hentries.flip⟩ e hmem
      exact ih hr fun s hs => hfinite s (.inr (.inl ⟨_, he, hs⟩))
    · intro r hr
      cases hr
      obtain ⟨x, hx⟩ : ∃ x, w.recordWithin depth x = .ok r := by
        cases next with
        | none => cases hbelow
        | some x =>
          obtain ⟨r', hr', heq⟩ := bind_eq_ok.1 hbelow
          cases heq
          exact ⟨x, hr'⟩
      exact ih hx fun s hs => hfinite s (.inr (.inr ⟨r, Option.mem_toList.2 rfl, hs⟩))

/-- The text of a block's record stands for the record.  The numbers in it have to be among those
that their digits lead back to. -/
theorem parse_text_toRecord {r : Record} (hw : w.Sized) (h : w.toRecord b = .ok r)
    (hfinite : ∀ s ∈ r.blocks, ∀ p ∈ s.position, p.IsFinite)
    (hfloats : ∀ x ∈ r.json.floats, Json.Restored x) (hdepth : r.json.depth ≤ RawJson.depthLimit) :
    Record.parse? r.text = some r := by
  obtain ⟨descendants, -, hrecord⟩ := bind_eq_ok.1 h
  exact Record.parse?_text (regular_recordWithin hw hrecord hfinite) ⟨hdepth, hfloats⟩

/-- A stack of two blocks: the upper one has a comment full of escapes, prints a list and has been
moved. -/
def commentedStack : Except Fault Workspace :=
  [.newBlock .printValue, .newBlock .printValue, .newBlock .listCreateWith, .newBlock .floatLiteral,
    .setFieldValue ⟨4⟩ "NUM" (.number 2.5), .setComment ⟨1⟩ (some "say \"\\\n\x01 é"),
    .setDisabled ⟨2⟩ true, .connect ⟨1⟩ ⟨3⟩, .connect ⟨2⟩ ⟨6⟩, .connect ⟨8⟩ ⟨9⟩,
    .moveBy ⟨1⟩ 1.5 (-0.25)].foldlM Call.run
      (Workspace.new Options.untyped)

theorem parse_text_commentedStack :
    ∃ w r, commentedStack = .ok w ∧ w.toRecord ⟨1⟩ = .ok r ∧ r.blocks.map SavedBlock.id =
      [⟨1⟩, ⟨3⟩, ⟨4⟩, ⟨2⟩] ∧ r.json.depth = 6 ∧ r.json.floats = [2.5, 1.5, -0.25] ∧
      Record.parse? r.text = some r := by
  obtain ⟨w, hrun, hlive, r, hrecord, hids, hfinite, hdepth, hfloats⟩ :
      ∃ w, commentedStack = .ok w ∧
      (∀ b ∈ w.liveBlocks, ∀ block ∈ w.blocks[b]?, b.index < 2 ^ 32 ∧
        block.inputs.length < 2 ^ 64) ∧
        ∃ r ∈ (w.toRecord ⟨1⟩).toOption, r.blocks.map SavedBlock.id = [⟨1⟩, ⟨3⟩, ⟨4⟩, ⟨2⟩] ∧
        (∀ s ∈ r.blocks, ∀ p ∈ s.position, p.IsFinite) ∧ r.json.depth = 6 ∧
        r.json.floats = [2.5, 1.5, -0.25] :=
    exists_ok_of_any (by decide +kernel)
  have hsized : w.Sized := fun hblock => hlive _ (mem_liveBlocks.2 ⟨_, hblock⟩) _ hblock
  have hrestored : ∀ x ∈ [2.5, 1.5, -0.25], Json.Restored x := by decide +kernel
  have hrecord := toOption_eq_some_iff.1 hrecord
  exact ⟨w, r, hrun, hrecord, hids, hdepth, hfloats,
    parse_text_toRecord hsized hrecord hfinite (hfloats ▸ hrestored) (by rw [hdepth]; decide)⟩

end Workspace

end BlockGraph
