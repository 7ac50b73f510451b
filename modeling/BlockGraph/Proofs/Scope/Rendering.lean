import BlockGraph.Workspace.Summary
import BlockGraph.Proofs.Ty.Worklist
import BlockGraph.Proofs.Upkeep.Inputs

/-!
# The text of a tree

`Workspace.Tokens` says what the summary of a block amounts to: the tokens of a stack are those of
its first block and, behind a semicolon, those of the rest; the tokens of a block are, input by
input, the texts of its fields and the tokens of what is plugged in.  Each token is marked with the
block that it is written for, so that one can ask what a block contributes.

The summary goes down a tree to a bounded depth.  `Workspace.summaryRound` is the loop without a
bound: of a list of pending parts it takes the first and writes it, or puts the parts that it is
made of in its place.  `InOrder.renders` says that the loop treats a part as `Workspace.writePart`
does, whatever is pending behind it, so that it ends with the summary.

Of a block in a value input only the block itself is written: what hangs from its own next
connection is passed over (`Workspace.PassedOver`).  Every other block below the first contributes
its tokens once.
-/

namespace BlockGraph

open Relation

/-- A token and the block that it is written for; the semicolon in a stack is written for none. -/
abbrev Summary.Mark := Option BlockId × String

/-- Writes some tokens, one after the other. -/
def Summary.write (written : List Char) (tokens : List Summary.Mark) : List Char :=
  tokens.foldl (fun written token => push written token.2) written

/-- The text that some tokens make up. -/
def Summary.text (tokens : List Summary.Mark) : String := String.ofList (write [] tokens).reverse

namespace Workspace

open Summary Loop

/-- A part of a tree that is written in one piece. -/
inductive Spot where
  | stack (b : BlockId)
  | block (b : BlockId)
  /-- Some inputs of a block. -/
  | row (b : BlockId) (inputs : List Input)
  /-- An input behind its fields, with what is plugged into it. -/
  | socket (b : BlockId) (kind : InputKind) (child : Option BlockId)

/-- The tokens of a part of a tree. -/
inductive Tokens (w : Workspace) : Spot → List Mark → Prop
  | last {b : BlockId} {tokens : List Mark} (hnext : w.next? b = .ok none)
    (hblock : Tokens w (.block b) tokens) :
    Tokens w (.stack b) tokens
  | next {b n : BlockId} {tokens rest : List Mark} (hnext : w.next? b = .ok (some n))
    (hblock : Tokens w (.block b) tokens) (hrest : Tokens w (.stack n) rest) :
    Tokens w (.stack b) (tokens ++ (none, ";") :: rest)
  | block {b : BlockId} {found : Block} {tokens : List Mark} (hb : w.blocks[b]? = some found)
    (hrow : Tokens w (.row b found.inputs) tokens) : Tokens w (.block b) tokens
  | nil {b : BlockId} : Tokens w (.row b []) []
  | cons {b : BlockId} {input : Input} {inputs : List Input} {words : List String}
    {child : Option BlockId} {tokens rest : List Mark}
    (hwords : (input.fields.mapM fun field => w.fieldText field.value) = .ok words)
    (hchild : w.occupant? input.connection = .ok child)
    (hsocket : Tokens w (.socket b input.kind child) tokens)
    (hrest : Tokens w (.row b inputs) rest) :
    Tokens w (.row b (input :: inputs)) (words.map (some b, ·) ++ tokens ++ rest)
  | value {b child : BlockId} {found : Block} {tokens : List Mark}
    (hfound : w.blocks[child]? = some found) (hblock : Tokens w (.block child) tokens) :
      Tokens w (.socket b .value (some child))
      (if found.hasSockets then (some b, "(") :: tokens ++ [(some b, ")")] else tokens)
  | hole {b : BlockId} : Tokens w (.socket b .value none) [(some b, "?")]
  | body {b child : BlockId} {tokens : List Mark} (hstack : Tokens w (.stack child) tokens) :
    Tokens w (.socket b .statement (some child)) ((some b, "\x7b") :: tokens ++ [(some b, "\x7d")])
  | empty {b : BlockId} : Tokens w (.socket b .statement none) [(some b, "\x7b"), (some b, "\x7d")]
  | dummy {b : BlockId} {child : Option BlockId} : Tokens w (.socket b .dummy child) []

variable {w : Workspace} {b c x : BlockId} {block : Block} {s : Spot} {tokens tokens' : List Mark}
  {inputs : List Input} {input : Input} {parentheses : Bool} {depth : Nat} {child : Option BlockId}
  {missed : Prop}

/-- What is plugged into the inputs is so by the block that they are inputs of. -/
def Spot.Proper (w : Workspace) : Spot → Prop
  | .row b inputs => ∃ block, w.blocks[b]? = some block ∧ inputs <:+ block.inputs
  | .socket b _ child => ∀ c, child = some c → w.ParentOf b c
  | _ => True

/-- A block other than the one whose inputs they are. -/
def Spot.Apart (x : BlockId) : Spot → Prop
  | .row b _ => x ≠ b
  | .socket b _ _ => x ≠ b
  | _ => True

/-! ## Writing -/

/-- A bound for the depth to which a block is written. -/
noncomputable def writingDepth (w : Workspace) (b : BlockId) : Nat :=
  2 * reachCount w.ParentOf w.liveBlocks b

/-- Written deep enough, a part of a tree adds its tokens. -/
def Writes (w : Workspace) (tokens : List Mark) : Spot → Prop
  | .stack b => ∀ depth written, w.writingDepth b + 3 ≤ depth →
    w.writePart depth written (.stack b) = .ok (write written tokens)
  | .block b => ∀ depth written parentheses, w.writingDepth b + 2 ≤ depth →
    w.writePart depth written (.block b parentheses) = .ok (if parentheses then
      push (write (push written "(") tokens) ")" else write written tokens)
  | .row b inputs => ∃ parts, inputs.mapM w.inputParts = .ok parts ∧
    ∀ depth written, w.writingDepth b + 1 ≤ depth →
    parts.flatten.foldlM (w.writePart depth) written = .ok (write written tokens)
  | .socket b kind child => ∃ parts, w.socketParts kind child = .ok parts ∧
    ∀ depth written, w.writingDepth b + 1 ≤ depth →
      parts.foldlM (w.writePart depth) written = .ok (write written tokens)

@[simp] theorem writePart_word (depth : Nat) (written : List Char) (token : String) :
    w.writePart (depth + 1) written (.word token) = .ok (push written token) := rfl

theorem foldlM_words (words : List String) (depth : Nat) (written : List Char) :
    (words.map Part.word).foldlM (w.writePart (depth + 1)) written =
      .ok (write written (words.map (some b, ·))) := by
  induction words generalizing written with
  | nil => rfl
  | cons word words ih => simpa [write] using ih (push written word)

@[simp] theorem write_append (written : List Char) (l l' : List Mark) :
    write written (l ++ l') = write (write written l) l' := List.foldl_append

/-- A block is in an input of another. -/
def InInput (w : Workspace) (input : Input) (b c : BlockId) : Prop :=
  ∃ block, w.blocks[b]? = some block ∧ input ∈ block.inputs ∧
    w.occupant? input.connection = .ok (some c)

theorem Spot.Proper.inInput (h : Spot.Proper w (.row b inputs)) (hinput : input ∈ inputs)
    (hc : w.occupant? input.connection = .ok (some c)) : w.InInput input b c := by
  obtain ⟨block, hblock, hsuffix⟩ := h
  exact ⟨block, hblock, hsuffix.subset hinput, hc⟩

theorem mem_inferiors_of_input (h : input ∈ block.inputs) :
    ∀ d, input.connection = some d → d ∈ block.inferiors := fun _ hd =>
  List.mem_append_left _ (List.mem_filterMap.2 ⟨input, h, hd⟩)

theorem InInput.parentOf (h : w.InInput input b c) (hw : w.InOrder) : w.ParentOf b c := by
  obtain ⟨block, hblock, hinput, hc⟩ := h
  exact hw.parentOf_of_occupant? hblock (mem_inferiors_of_input hinput) hc

/-- What is plugged into an input of a row hangs from the block. -/
theorem InOrder.proper_socket (hw : w.InOrder) (h : Spot.Proper w (.row b (input :: inputs)))
    (hchild : w.occupant? input.connection = .ok child) :
    Spot.Proper w (.socket b input.kind child) := by
  rintro c rfl
  exact (h.inInput List.mem_cons_self hchild).parentOf hw

theorem Spot.Proper.tail (h : Spot.Proper w (.row b (input :: inputs))) :
    Spot.Proper w (.row b inputs) := by
  obtain ⟨block, hblock, hsuffix⟩ := h
  exact ⟨block, hblock, (List.suffix_cons input inputs).trans hsuffix⟩

theorem InOrder.parentOf_of_next? (hw : w.InOrder) (h : w.next? b = .ok (some c)) :
    w.ParentOf b c := by
  obtain ⟨block, hblock, -⟩ := bind_eq_ok.1 h
  obtain ⟨next, hnext, hparent⟩ := hw.exists_next? (getBlock_eq_ok.1 hblock)
  exact hparent c (Except.ok.inj (hnext.symm.trans h))

theorem InOrder.writingDepth_lt (hw : w.InOrder) (h : w.ParentOf b c) :
    w.writingDepth c + 2 ≤ w.writingDepth b := by
  have := hw.reachCount_lt_of_parentOf h
  unfold writingDepth
  omega

/-- What is written for a part of a tree is its tokens. -/
theorem InOrder.writes (hw : w.InOrder) (h : w.Tokens s tokens) (hs : s.Proper w) :
    w.Writes tokens s := by
  induction h with
  | last hnext _ ih =>
    rintro (_ | depth) written hdepth
    · omega
    · simpa [writePart, hnext] using ih trivial depth written false (by omega)
  | @next b n tokens rest hnext _ _ ih ihrest =>
    rintro (_ | depth) written hdepth
    · omega
    · have hless := hw.writingDepth_lt (hw.parentOf_of_next? hnext)
      have hblock := ih trivial depth written false (by omega)
      have hrest := ihrest trivial depth (push (write written tokens) ";") (by omega)
      simpa [writePart, hnext, hblock, write] using hrest
  | block hb _ ih =>
    obtain ⟨parts, hparts, hfold⟩ := ih ⟨_, hb, List.suffix_rfl⟩
    rintro (_ | _ | depth) written parentheses hdepth
    · omega
    · omega
    · simp only [writePart, blockParts, getBlock_eq_ok.2 hb, ok_bind, hparts, pure_eq_ok]
      cases parentheses with
      | false => simpa using hfold (depth + 1) written (by omega)
      | true => simp [hfold (depth + 1) (push written "(") (by omega)]
  | nil => exact ⟨[], rfl, fun _ _ _ => rfl⟩
  | @cons b input inputs words child tokens rest hwords hchild _ _ ihsocket ihrest =>
    obtain ⟨parts, hparts, hfold⟩ := ihsocket (hw.proper_socket hs hchild)
    obtain ⟨others, hothers, hfold'⟩ := ihrest hs.tail
    have hinput : w.inputParts input = .ok (words.map .word ++ parts) := by
      simp only [inputParts, hwords, hchild, hparts, ok_bind, pure_eq_ok]
    refine ⟨(words.map .word ++ parts) :: others, by simp [List.mapM_cons, hinput, hothers], ?_⟩
    rintro (_ | depth) written hdepth
    · omega
    · rw [List.flatten_cons, List.foldlM_append, List.foldlM_append, foldlM_words (b := b), ok_bind,
        hfold _ _ hdepth, ok_bind, hfold' _ _ hdepth, write_append, write_append]
  | @value b child found tokens hfound _ ih =>
    refine ⟨[.block child found.hasSockets], by simp [socketParts, getBlock_eq_ok.2 hfound], ?_⟩
    intro depth written hdepth
    have hless := hw.writingDepth_lt (hs child rfl)
    simp only [List.foldlM_cons, List.foldlM_nil,
      ih trivial depth written found.hasSockets (by omega), ok_bind, pure_eq_ok]
    split <;> simp [write]
  | hole =>
    refine ⟨[.word "?"], rfl, ?_⟩
    rintro (_ | depth) written hdepth
    · omega
    · simp [write]
  | @body b child tokens _ ih =>
    refine ⟨[.word "\x7b", .stack child, .word "\x7d"], rfl, ?_⟩
    rintro (_ | depth) written hdepth
    · omega
    · have hless := hw.writingDepth_lt (hs child rfl)
      simp [ih trivial (depth + 1) (push written "\x7b") (by omega), write]
  | empty =>
    refine ⟨[.word "\x7b", .word "\x7d"], rfl, ?_⟩
    rintro (_ | depth) written hdepth
    · omega
    · simp [write]
  | dummy => exact ⟨[], rfl, fun _ _ _ => rfl⟩

/-! ## What can be written -/

/-- Two properties, of blocks that are written on their own (`P`) and of blocks that are written
with the stack below them (`Q`), that make them legible and hold of what is written with them. -/
structure Writable (w : Workspace) (P Q : BlockId → Prop) : Prop where
  words : ∀ {b block input}, P b → w.blocks[b]? = some block → input ∈ block.inputs →
    ∃ words, (input.fields.mapM fun field => w.fieldText field.value) = .ok words
  value : ∀ {b input c}, P b → w.InInput input b c → input.kind = .value → P c
  body : ∀ {b input c}, P b → w.InInput input b c → input.kind = .statement → Q c
  first : ∀ {b}, Q b → P b
  next : ∀ {b n}, Q b → w.next? b = .ok (some n) → Q n

theorem InOrder.exists_tokens (hw : w.InOrder) {P Q : BlockId → Prop} (h : w.Writable P Q)
    (n : Nat) :
    ∀ {b : BlockId} {block : Block}, w.blocks[b]? = some block →
      reachCount w.ParentOf w.liveBlocks b < n → (P b → ∃ tokens, w.Tokens (.block b) tokens) ∧
      (Q b → ∃ tokens, w.Tokens (.stack b) tokens) := by
  induction n with
  | zero => exact fun _ hlt => absurd hlt (Nat.not_lt_zero _)
  | succ n ih =>
    intro b block hblock hlt
    have hbelow : ∀ {c}, w.ParentOf b c → (P c → ∃ tokens, w.Tokens (.block c) tokens) ∧
        (Q c → ∃ tokens, w.Tokens (.stack c) tokens) := fun hc => by
      obtain ⟨child, hchild, -⟩ := id hc
      exact ih hchild (by have := hw.reachCount_lt_of_parentOf hc; omega)
    have hsocket : ∀ {input}, P b → input ∈ block.inputs →
        ∃ child, w.occupant? input.connection = .ok child ∧
        ∃ tokens, w.Tokens (.socket b input.kind child) tokens := by
      intro input hb hinput
      obtain ⟨child, hchild, hparent⟩ := hw.exists_occupant? hblock (mem_inferiors_of_input hinput)
      refine ⟨child, hchild, ?_⟩
      cases hkind : input.kind with
      | dummy => exact ⟨_, .dummy⟩
      | value =>
        cases child with
        | none => exact ⟨_, .hole⟩
        | some c =>
          obtain ⟨tokens, htokens⟩ :=
            (hbelow (hparent c rfl)).1 (h.value hb ⟨_, hblock, hinput, hchild⟩ hkind)
          obtain ⟨found, hfound, -⟩ := id (hparent c rfl)
          exact ⟨_, .value hfound htokens⟩
      | statement =>
        cases child with
        | none => exact ⟨_, .empty⟩
        | some c =>
          obtain ⟨tokens, htokens⟩ :=
            (hbelow (hparent c rfl)).2 (h.body hb ⟨_, hblock, hinput, hchild⟩ hkind)
          exact ⟨_, .body htokens⟩
    have hrow : P b → ∀ inputs ⊆ block.inputs, ∃ tokens, w.Tokens (.row b inputs) tokens := by
      intro hb inputs
      induction inputs with
      | nil => exact fun _ => ⟨_, .nil⟩
      | cons input inputs ihinputs =>
        intro hsub
        obtain ⟨words, hwords⟩ := h.words hb hblock (hsub List.mem_cons_self)
        obtain ⟨child, hchild, tokens, htokens⟩ := hsocket hb (hsub List.mem_cons_self)
        obtain ⟨rest, hrest⟩ := ihinputs fun i hi => hsub (List.mem_cons_of_mem _ hi)
        exact ⟨_, .cons hwords hchild htokens hrest⟩
    have halone : P b → ∃ tokens, w.Tokens (.block b) tokens := fun hb => by
      obtain ⟨tokens, htokens⟩ := hrow hb _ (List.Subset.refl _)
      exact ⟨tokens, .block hblock htokens⟩
    refine ⟨halone, fun hb => ?_⟩
    obtain ⟨tokens, htokens⟩ := halone (h.first hb)
    obtain ⟨next, hnext, hparent⟩ := hw.exists_next? hblock
    cases next with
    | none => exact ⟨_, .last hnext htokens⟩
    | some c =>
      obtain ⟨rest, hrest⟩ := (hbelow (hparent c rfl)).2 (h.next hb hnext)
      exact ⟨_, .next hnext htokens hrest⟩

/-- What a block is made of: the parts of its inputs, in parentheses or not. -/
theorem blockParts_eq_ok {parts : List Part} (hblock : w.blocks[b]? = some block) :
    w.blockParts b parentheses = .ok parts ↔ ∃ lists, block.inputs.mapM w.inputParts = .ok lists ∧
      (if parentheses then [.word "("] ++ lists.flatten ++ [.word ")"] else lists.flatten) =
        parts := by
  simp [blockParts, getBlock_eq_ok.2 hblock, bind_eq_ok]

/-- What an input is made of: the texts of its fields and the parts of what is plugged in. -/
theorem inputParts_eq_ok {list : List Part} : w.inputParts input = .ok list ↔ ∃ words child parts,
    (input.fields.mapM fun field => w.fieldText field.value) = .ok words ∧
      w.occupant? input.connection = .ok child ∧ w.socketParts input.kind child = .ok parts ∧
      words.map .word ++ parts = list := by
  simp [inputParts, bind_eq_ok]

/-- Where a block is written, every input has texts and parts, and the parts are written. -/
theorem exists_parts_of_writePart {written out : List Char} (hblock : w.blocks[b]? = some block)
    (hinput : input ∈ block.inputs)
    (h : w.writePart (depth + 1) written (.block b parentheses) = .ok out) : ∃ words child parts,
      (input.fields.mapM fun field => w.fieldText field.value) = .ok words ∧
      w.occupant? input.connection = .ok child ∧ w.socketParts input.kind child = .ok parts ∧
      ∀ part ∈ parts, ∃ before after, w.writePart depth before part = .ok after := by
  obtain ⟨all, hall, hfold⟩ := bind_eq_ok.1 h
  obtain ⟨lists, hlists, rfl⟩ := (blockParts_eq_ok hblock).1 hall
  obtain ⟨list, hlist, hinput⟩ := (exists_mem_of_forall₂ (mapM_eq_ok.1 hlists)).1 input hinput
  obtain ⟨words, child, parts, hwords, hchild, hparts, rfl⟩ := inputParts_eq_ok.1 hinput
  refine ⟨words, child, parts, hwords, hchild, hparts, fun part hpart => ?_⟩
  have hmem : part ∈ lists.flatten := List.mem_flatten.2 ⟨_, hlist, List.mem_append_right _ hpart⟩
  have hall : part ∈ if parentheses then [Part.word "("] ++ lists.flatten ++
      [.word ")"] else lists.flatten := by
    split
    · exact List.mem_append_left _ (List.mem_append_right _ hmem)
    · exact hmem
  obtain ⟨before, after, -, hstep⟩ :=
    exists_step_of_foldlM (P := fun _ => True) (fun _ _ _ _ _ _ => trivial) trivial hfold hall
  exact ⟨before, after, hstep⟩

/-- What is written has tokens. -/
theorem InOrder.writable_written (hw : w.InOrder) : w.Writable
    (fun b => ∃ depth written parentheses out, w.writingDepth b + 2 ≤ depth ∧
      w.writePart depth written (.block b parentheses) = .ok out)
    fun b => ∃ depth written out, w.writingDepth b + 3 ≤ depth ∧
    w.writePart depth written (.stack b) = .ok out where
  words := by
    rintro b block input ⟨_ | depth, written, parentheses, out, hdepth, hout⟩ hblock hinput
    · omega
    obtain ⟨words, -, -, hwords, -⟩ := exists_parts_of_writePart hblock hinput hout
    exact ⟨words, hwords⟩
  value := by
    rintro b input c ⟨_ | depth, written, parentheses, out, hdepth, hout⟩ hin hkind
    · omega
    have hless := hw.writingDepth_lt (hin.parentOf hw)
    obtain ⟨block, hblock, hinput, hc⟩ := hin
    obtain ⟨-, child, parts, -, hchild, hparts, hwritten⟩ :=
      exists_parts_of_writePart hblock hinput hout
    cases hc.symm.trans hchild
    rw [hkind] at hparts
    obtain ⟨found, -, hparts⟩ := bind_eq_ok.1 hparts
    cases hparts
    obtain ⟨before, after, hstep⟩ := hwritten _ List.mem_cons_self
    exact ⟨depth, before, _, after, by omega, hstep⟩
  body := by
    rintro b input c ⟨_ | depth, written, parentheses, out, hdepth, hout⟩ hin hkind
    · omega
    have hless := hw.writingDepth_lt (hin.parentOf hw)
    obtain ⟨block, hblock, hinput, hc⟩ := hin
    obtain ⟨-, child, parts, -, hchild, hparts, hwritten⟩ :=
      exists_parts_of_writePart hblock hinput hout
    cases hc.symm.trans hchild
    rw [hkind] at hparts
    cases hparts
    obtain ⟨before, after, hstep⟩ := hwritten (.stack c) (by simp)
    exact ⟨depth, before, after, by omega, hstep⟩
  first := by
    rintro b ⟨_ | depth, written, out, hdepth, hout⟩
    · omega
    obtain ⟨next, -, hout⟩ := bind_eq_ok.1 hout
    cases next with
    | none => exact ⟨depth, written, false, out, by omega, hout⟩
    | some n =>
      obtain ⟨written', hwritten, -⟩ := bind_eq_ok.1 hout
      exact ⟨depth, written, false, written', by omega, hwritten⟩
  next := by
    rintro b n ⟨_ | depth, written, out, hdepth, hout⟩ hn
    · omega
    have hless := hw.writingDepth_lt (hw.parentOf_of_next? hn)
    rw [writePart, hn, ok_bind] at hout
    obtain ⟨written', -, hwritten⟩ := bind_eq_ok.1 hout
    exact ⟨depth, _, out, by omega, hwritten⟩

/-! ## The loop -/

/-- A round of the loop that writes a summary, on the pending parts, the next one first, and on what
is written. -/
def summaryRound (w : Workspace) :
    List Part × List Char → (List Part × List Char) ⊕ Except Fault (List Char)
  | ([], written) => .inr (.ok written)
  | (.word token :: pending, written) => .inl (pending, push written token)
  | (.stack b :: pending, written) =>
    match w.next? b with
    | .ok (some next) => .inl (.block b false :: .word ";" :: .stack next :: pending, written)
    | .ok none => .inl (.block b false :: pending, written)
    | .error fault => .inr (.error fault)
  | (.block b parentheses :: pending, written) =>
    match w.blockParts b parentheses with
    | .ok parts => .inl (parts ++ pending, written)
    | .error fault => .inr (.error fault)

/-- The loop comes to `r` if it goes on with what is pending after an outcome. -/
def Leads (w : Workspace) (pending : List Part) (r : Except Fault (List Char)) :
    Except Fault (List Char) → Prop
  | .ok written => Ends w.summaryRound (pending, written) r
  | .error fault => r = .error fault

/-- The loop writes the parts, whatever is pending behind them, as the outcome says. -/
def Renders (w : Workspace) (parts : List Part) (written : List Char)
    (out : Except Fault (List Char)) : Prop :=
  ∀ pending r, w.Leads pending r out → Ends w.summaryRound (parts ++ pending, written) r

section Rounds

variable {part : Part} {parts parts' : List Part} {written written' : List Char}
  {out : Except Fault (List Char)}

theorem Renders.ends (h : w.Renders parts written out) :
    Ends w.summaryRound (parts, written) out := by
  have hleads : w.Leads [] out out := by
    cases out with
    | ok written' => exact .stop rfl
    | error fault => rfl
  simpa using h [] out hleads

theorem renders_nil (w : Workspace) (written : List Char) : w.Renders [] written (.ok written) :=
  fun _ _ h => h

/-- Some parts after others. -/
theorem Renders.append {f : List Char → Except Fault (List Char)} (h : w.Renders parts written out)
    (hf : ∀ written', w.Renders parts' written' (f written')) :
    w.Renders (parts ++ parts') written (out >>= f) := by
  intro pending r hr
  rw [List.append_assoc]
  apply h
  cases out with
  | ok written' => exact hf written' pending r hr
  | error fault => exact hr

/-- A round that puts parts in the place of one. -/
theorem Renders.round (h : w.Renders parts written' out)
    (hround : ∀ pending, w.summaryRound (part :: pending, written) = .inl (parts ++ pending,
      written')) :
    w.Renders [part] written out :=
  fun pending r hr => .next (hround pending) (h pending r hr)

theorem renders_word (token : String) :
    w.Renders [.word token] written (.ok (push written token)) :=
  (renders_nil w _).round fun _ => rfl

/-- A round that stops. -/
theorem renders_error {fault : Fault}
    (hround : ∀ pending, w.summaryRound (part :: pending, written) = .inr (.error fault)) :
    w.Renders [part] written (.error fault) := by
  rintro pending r rfl
  exact .stop (hround pending)

theorem renders_foldlM {f : List Char → Part → Except Fault (List Char)}
    (h : ∀ part ∈ parts, ∀ written, w.Renders [part] written (f written part))
    (written : List Char) :
    w.Renders parts written (parts.foldlM f written) := by
  induction parts generalizing written with
  | nil => exact renders_nil w written
  | cons part parts ih =>
    exact (h part List.mem_cons_self written).append
      (ih fun other hother => h other (List.mem_cons_of_mem _ hother))

/-- The depth is enough to write a part. -/
def Fits (w : Workspace) (depth : Nat) : Part → Prop
  | .word _ => 1 ≤ depth
  | .block b _ => w.writingDepth b + 2 ≤ depth
  | .stack b => w.writingDepth b + 3 ≤ depth

theorem fits_word {bound : Nat} (h : bound + 1 ≤ depth) (token : String) :
    w.Fits depth (.word token) :=
  Nat.le_of_add_left_le h

theorem fits_of_socketParts {kind : InputKind} {bound : Nat}
    (h : w.socketParts kind child = .ok parts)
    (hless : ∀ c, child = some c → w.writingDepth c + 2 ≤ bound) (hdepth : bound + 1 ≤ depth) :
    ∀ part ∈ parts, w.Fits depth part := by
  cases kind with
  | dummy =>
    cases h
    exact List.forall_mem_nil _
  | value =>
    cases child with
    | none =>
      cases h
      exact List.forall_mem_singleton.2 (fits_word hdepth "?")
    | some c =>
      obtain ⟨found, -, hparts⟩ := bind_eq_ok.1 h
      cases hparts
      exact List.forall_mem_singleton.2 ((hless c rfl).trans (Nat.le_of_succ_le hdepth))
  | statement =>
    cases h
    have hclose := List.forall_mem_singleton.2 (fits_word (w := w) hdepth "\x7d")
    refine List.forall_mem_cons.2 ⟨fits_word hdepth "\x7b", ?_⟩
    cases child with
    | none => exact hclose
    | some c => exact List.forall_mem_cons.2 ⟨(Nat.succ_le_succ (hless c rfl)).trans hdepth, hclose⟩

/-- What a block is made of fits one level further down. -/
theorem InOrder.fits_of_blockParts (hw : w.InOrder) (h : w.blockParts b parentheses = .ok parts)
    (hdepth : w.writingDepth b + 1 ≤ depth) : ∀ part ∈ parts, w.Fits depth part := by
  obtain ⟨block, hblock, -⟩ := bind_eq_ok.1 h
  rw [getBlock_eq_ok] at hblock
  obtain ⟨lists, hlists, rfl⟩ := (blockParts_eq_ok hblock).1 h
  have hflat : ∀ part ∈ lists.flatten, w.Fits depth part := by
    intro part hpart
    obtain ⟨list, hlist, hpart⟩ := List.mem_flatten.1 hpart
    obtain ⟨input, hinput, hlist⟩ := (exists_mem_of_forall₂ (mapM_eq_ok.1 hlists)).2 list hlist
    obtain ⟨words, child, parts, -, hchild, hparts, rfl⟩ := inputParts_eq_ok.1 hlist
    have hless : ∀ c, child = some c → w.writingDepth c + 2 ≤ w.writingDepth b := by
      rintro c rfl
      exact hw.writingDepth_lt (InInput.parentOf ⟨block, hblock, hinput, hchild⟩ hw)
    rcases List.mem_append.1 hpart with hpart | hpart
    · obtain ⟨token, -, rfl⟩ := List.mem_map.1 hpart
      exact fits_word hdepth token
    · exact fits_of_socketParts hparts hless hdepth part hpart
  intro part hpart
  split at hpart
  · simp only [List.mem_append, List.mem_singleton] at hpart
    rcases hpart with (rfl | hpart) | rfl
    · exact fits_word hdepth "("
    · exact hflat part hpart
    · exact fits_word hdepth ")"
  · exact hflat part hpart

/-- The loop treats a part as writing it to a depth that is enough. -/
theorem InOrder.renders (hw : w.InOrder) (depth : Nat) :
    ∀ {part : Part}, w.Fits depth part → ∀ written, w.Renders
    [part] written (w.writePart depth written part) := by
  induction depth with
  | zero =>
    intro part hfits
    cases part with
    | word token => exact absurd hfits (Nat.not_succ_le_zero 0)
    | block c parentheses | stack c => exact absurd hfits (Nat.not_succ_le_zero _)
  | succ depth ih =>
    intro part hfits written
    cases part with
    | word token => exact renders_word token
    | block c parentheses =>
      cases hparts : w.blockParts c parentheses with
      | error fault =>
        simp only [writePart, hparts, error_bind]
        exact renders_error fun pending => by simp only [summaryRound, hparts]
      | ok parts =>
        simp only [writePart, hparts, ok_bind]
        have hbelow := hw.fits_of_blockParts hparts (Nat.le_of_succ_le_succ hfits)
        exact (renders_foldlM (fun part hpart => ih (hbelow part hpart)) written).round
            fun pending => by
          simp only [summaryRound, hparts]
    | stack c =>
      have hblock : w.Fits depth (.block c false) := Nat.le_of_succ_le_succ hfits
      cases hnext : w.next? c with
      | error fault =>
        simp only [writePart, hnext, error_bind]
        exact renders_error fun pending => by simp only [summaryRound, hnext]
      | ok next =>
        simp only [writePart, hnext, ok_bind]
        cases next with
        | none =>
          exact (ih hblock written).round fun pending => by
            simp only [summaryRound, hnext]
            rfl
        | some n =>
          have hless := hw.writingDepth_lt (hw.parentOf_of_next? hnext)
          have hstack : w.Fits depth (.stack n) :=
            (Nat.succ_le_succ hless).trans (Nat.le_of_succ_le hblock)
          have hrest : ∀ written, w.Renders [.word ";", .stack n] written
              (w.writePart depth (push written ";") (.stack n)) :=
            fun written => (renders_word ";").append (ih hstack)
          exact ((ih hblock written).append hrest).round fun pending => by
            simp only [summaryRound, hnext]
            rfl

/-- The bound of the summary is enough. -/
theorem InOrder.fits_stack (hw : w.InOrder) (hblock : w.blocks[b]? = some block) :
    w.Fits (2 * w.depthBound + 2) (.stack b) := by
  have := hw.reachCount_lt_depthBound hblock
  simp only [Fits, writingDepth]
  omega

/-- The loop ends, and with what the summary is. -/
theorem InOrder.ends_summary (hw : w.InOrder) (hblock : w.blocks[b]? = some block) :
    Ends w.summaryRound ([.stack b], []) (w.writePart (2 * w.depthBound + 2) [] (.stack b)) :=
  (hw.renders _ (hw.fits_stack hblock) []).ends

end Rounds

/-! ## Contributions -/

/-- A block is plugged into a value input. -/
def InValue (w : Workspace) (y : BlockId) : Prop := ∃ (p : BlockId) (block : Block) (input : Input),
  w.blocks[p]? = some block ∧ input ∈ block.inputs ∧ input.kind = .value ∧
  w.occupant? input.connection = .ok (some y)

/-- A block hangs from the next connection of a block in a value input below `b`. -/
def PassedOver (w : Workspace) (b x : BlockId) : Prop :=
  ∃ y n, y ≠ b ∧ w.Below b y ∧ w.InValue y ∧ w.next? y = .ok (some n) ∧ w.Below n x

/-- The tokens that are written for a block. -/
def writtenFor (x : BlockId) (tokens : List Mark) : List Mark := tokens.filter (·.1 == some x)

@[simp] theorem writtenFor_append (x : BlockId) (l l' : List Mark) :
    writtenFor x (l ++ l') = writtenFor x l ++ writtenFor x l' := List.filter_append ..

/-- The tokens have those of a block once, unless it is missed. -/
def Contributes (w : Workspace) (x : BlockId) (missed : Prop) (tokens : List Mark) : Prop :=
  (missed → writtenFor x tokens = []) ∧
    (¬ missed → ∃ own, w.Tokens (.block x) own ∧ writtenFor x tokens = writtenFor x own)

theorem Contributes.congr {missed' : Prop} (h : w.Contributes x missed tokens)
    (hmissed : missed' ↔ missed) (htokens : writtenFor x tokens' = writtenFor x tokens) :
    w.Contributes x missed' tokens' := by
  rw [Contributes, htokens, hmissed]
  exact h

theorem Contributes.nil (hmissed : missed) (htokens : writtenFor x tokens = []) :
    w.Contributes x missed tokens := ⟨fun _ => htokens, fun h => absurd hmissed h⟩

/-- Of two parts at least one misses the block. -/
theorem Contributes.append {missed' : Prop} (h : w.Contributes x missed tokens)
    (h' : w.Contributes x missed' tokens') (hor : missed ∨ missed') :
    w.Contributes x (missed ∧ missed') (tokens ++ tokens') := by
  rw [Contributes, writtenFor_append]
  refine ⟨fun hboth => by rw [h.1 hboth.1, h'.1 hboth.2, List.nil_append], fun hnot => ?_⟩
  rcases hor with hmissed | hmissed
  · rw [h.1 hmissed, List.nil_append]
    exact h'.2 fun hmissed' => hnot ⟨hmissed, hmissed'⟩
  · rw [h'.1 hmissed, List.append_nil]
    exact h.2 fun hmissed' => hnot ⟨hmissed', hmissed⟩

/-! ## The places of the blocks -/

/-- A block that fills an input is plugged into its connection. -/
theorem InOrder.plugs_of_occupant? (hw : w.InOrder) (hblock : w.blocks[b]? = some block)
    {place : Option ConnectionId} (hplace : ∀ d, place = some d → d ∈ block.inferiors)
    (h : w.occupant? place = .ok (some c)) :
    ∃ d, place = some d ∧ w.Plugs c d := by
  cases place with
  | none => cases h
  | some d => exact ⟨d, rfl, (hw.targetBlock?_eq_some_iff hblock (hplace d rfl)).1 h⟩

theorem InInput.plugs (h : w.InInput input b c) (hw : w.InOrder) : ∃ d, input.connection = some d ∧
    w.Plugs c d := by
  obtain ⟨block, hblock, hinput, hc⟩ := h
  exact hw.plugs_of_occupant? hblock (mem_inferiors_of_input hinput) hc

theorem InInput.kind_ne_dummy (h : w.InInput input b c) (hw : w.InOrder) : input.kind ≠ .dummy := by
  intro hkind
  obtain ⟨d, hd, -⟩ := h.plugs hw
  obtain ⟨block, hblock, hinput, -⟩ := h
  have hfit := hw.formed.wired.fitted (frame_of_block hblock) _ (List.mem_map_of_mem hinput)
  exact absurd ((hfit.2 hkind).symm.trans hd) (by simp)

/-- No block fills two inputs of a row. -/
theorem InOrder.row_apart (hw : w.InOrder) {other : Input}
    (hs : Spot.Proper w (.row b (input :: inputs))) (hother : other ∈ inputs)
    (h : w.occupant? input.connection = .ok (some c)) :
    w.occupant? other.connection ≠ .ok (some c) := by
  intro h'
  obtain ⟨d, hd, hplugs⟩ := (hs.inInput List.mem_cons_self h).plugs hw
  obtain ⟨d', hd', hplugs'⟩ := (hs.tail.inInput hother h').plugs hw
  cases hplugs.unique hw.formed hplugs'
  obtain ⟨block, hblock, hsuffix⟩ := hs
  have hnodup : (block.inputs.filterMap Input.connection).Nodup :=
    (hw.nodup_connections hblock).sublist
      ((List.sublist_append_right ..).trans (List.sublist_append_left ..))
  have hrow := hnodup.sublist (hsuffix.sublist.filterMap Input.connection)
  rw [List.filterMap_cons_some hd] at hrow
  exact (List.nodup_cons.1 hrow).1 (List.mem_filterMap.2 ⟨other, hother, hd'⟩)

/-- The block below is in no input. -/
theorem InInput.next?_ne (h : w.InInput input b c) (hw : w.InOrder) : w.next? b ≠ .ok (some c) := by
  intro hnext
  obtain ⟨d, hd, hplugs⟩ := h.plugs hw
  obtain ⟨block, hblock, hinput, -⟩ := h
  rw [next?, getBlock_eq_ok.2 hblock, ok_bind] at hnext
  obtain ⟨d', hd', hplugs'⟩ :=
    hw.plugs_of_occupant? hblock (fun e he => by simp [Block.inferiors, he]) hnext
  cases hplugs.unique hw.formed hplugs'
  exact hw.next_ne_of_mem_sockets hblock (List.mem_filterMap.2 ⟨input, hinput, hd⟩) hd'

/-- A block that hangs from another hangs from the block below it or from what is in one of its
inputs. -/
theorem InOrder.next?_or_input (hw : w.InOrder) (hblock : w.blocks[b]? = some block)
    (h : w.ParentOf b c) :
    w.next? b = .ok (some c) ∨ ∃ input ∈ block.inputs, w.occupant? input.connection =
      .ok (some c) := by
  obtain ⟨child, hchild, hparent⟩ := h
  obtain ⟨t, j, d, jd, hj, hjc, hsup, hback, hjd, hjb⟩ :=
    (hw.formed.parent (frame_of_block hchild)).1 hparent
  have hinferior : d ∈ block.inferiors := by
    refine (hw.mem_inferiors hblock).2 ⟨jd, hjd, hjb, ?_⟩
    rw [hw.formed.wired.isSuperior_target hj hback hjd, hsup]
    rfl
  have htarget := (hw.targetBlock?_eq_some_iff hblock hinferior).2 ⟨t, j, hj, hjc, hsup, hback⟩
  rcases List.mem_append.1 hinferior with hsocket | hnext
  · obtain ⟨input, hinput, hd⟩ := List.mem_filterMap.1 hsocket
    exact .inr ⟨input, hinput, by rw [hd]; exact htarget⟩
  · left
    rw [next?, getBlock_eq_ok.2 hblock, ok_bind, Option.mem_toList.1 hnext]
    exact htarget

/-- What is in a statement input or below in a stack is in no value input. -/
theorem InOrder.not_inValue (hw : w.InOrder) (hblock : w.blocks[b]? = some block) {d : ConnectionId}
    (hplace : (d, .nextStatement) ∈ block.frame.places) (hc : w.Plugs c d) : ¬ w.InValue c := by
  rintro ⟨p, found, input, hfound, hinput, hkind, h⟩
  obtain ⟨e, he, hplugs⟩ := InInput.plugs ⟨found, hfound, hinput, h⟩ hw
  cases hc.unique hw.formed hplugs
  have hvalue : (d, .inputValue) ∈ found.frame.places := Frame.mem_places.2 (.inr (.inr (.inl
    ⟨input.slot, List.mem_map_of_mem hinput, by simp [Slot.place?, Input.slot, hkind, he]⟩)))
  obtain ⟨j, hj, -, hnext⟩ := hw.formed.wired.joint_of_frame (frame_of_block hblock) hplace
  obtain ⟨j', hj', -, hinput⟩ := hw.formed.wired.joint_of_frame (frame_of_block hfound) hvalue
  cases hj.symm.trans hj'
  exact absurd (hnext.symm.trans hinput) (by simp)

theorem InOrder.not_inValue_of_next? (hw : w.InOrder) (h : w.next? b = .ok (some c)) :
    ¬ w.InValue c := by
  obtain ⟨block, hblock, h⟩ := bind_eq_ok.1 h
  rw [getBlock_eq_ok] at hblock
  obtain ⟨d, hd, hplugs⟩ :=
    hw.plugs_of_occupant? hblock (fun e he => by simp [Block.inferiors, he]) h
  exact hw.not_inValue hblock (Frame.mem_places.2 (.inr (.inr (.inr ⟨hd, rfl⟩)))) hplugs

theorem InInput.not_inValue (h : w.InInput input b c) (hw : w.InOrder)
    (hkind : input.kind = .statement) :
    ¬ w.InValue c := by
  obtain ⟨d, hd, hplugs⟩ := h.plugs hw
  obtain ⟨block, hblock, hinput, -⟩ := h
  exact hw.not_inValue hblock (Frame.mem_places.2 (.inr (.inr (.inl
    ⟨input.slot, List.mem_map_of_mem hinput, by simp [Slot.place?, Input.slot, hkind, hd]⟩))))
    hplugs

/-! ## What is passed over -/

/-- Written on its own, `b` has no tokens of `x`. -/
def BlockOmits (w : Workspace) (b x : BlockId) : Prop :=
  w.Below b x → (∃ n, w.next? b = .ok (some n) ∧ w.Below n x) ∨ w.PassedOver b x

/-- Written with the stack below it, `b` has no tokens of `x`. -/
def StackOmits (w : Workspace) (b x : BlockId) : Prop := w.Below b x → w.PassedOver b x

/-- Written in an input, `c` has no tokens of `x`. -/
def InputOmits (w : Workspace) (c x : BlockId) : InputKind → Prop
  | .value => w.BlockOmits c x
  | .statement => w.StackOmits c x
  | .dummy => True

/-- A part of a tree has no tokens of `x`. -/
def Spot.Omits (w : Workspace) (x : BlockId) : Spot → Prop
  | .stack b => w.StackOmits b x
  | .block b => w.BlockOmits b x
  | .row _ inputs => ∀ input ∈ inputs, ∀ c, w.occupant? input.connection = .ok (some c) →
  w.InputOmits c x input.kind
  | .socket _ kind child => ∀ c, child = some c → w.InputOmits c x kind

theorem inputOmits_of_not_below (h : ¬ w.Below c x) (kind : InputKind) : w.InputOmits c x kind := by
  cases kind with
  | value | statement => exact fun hx => absurd hx h
  | dummy => trivial

theorem InOrder.ne_of_below (hw : w.InOrder) (h : w.ParentOf b c) (hx : w.Below c x) : x ≠ b :=
  fun heq => hw.acyclic b (TransGen.head' h (heq ▸ hx))

theorem InOrder.not_passedOver_self (hw : w.InOrder) : ¬ w.PassedOver b b := by
  rintro ⟨y, n, -, hy, -, hn, hnb⟩
  exact hw.ne_of_below (hw.parentOf_of_next? hn) (hnb.trans hy) rfl

/-- What is passed over below a block is passed over below the child that it is under, or is below
that child in its stack. -/
theorem InOrder.passedOver_iff (hw : w.InOrder) (h : w.ParentOf b c) (hx : w.Below c x) :
    w.PassedOver b x ↔ w.InValue c ∧ (∃ n, w.next? c = .ok (some n) ∧ w.Below n x) ∨
    w.PassedOver c x := by
  constructor
  · rintro ⟨y, n, hne, hy, hvalue, hn, hnx⟩
    rcases hy.cases_head with rfl | ⟨c', hc', hy⟩
    · exact absurd rfl hne
    cases hw.disjoint_below h hc' hx (hy.trans (.head (hw.parentOf_of_next? hn) hnx))
    by_cases hyc : y = c
    · cases hyc
      exact .inl ⟨hvalue, n, hn, hnx⟩
    · exact .inr ⟨y, n, hyc, hy, hvalue, hn, hnx⟩
  · rintro (⟨hvalue, n, hn, hnx⟩ | ⟨y, n, -, hy, hvalue, hn, hnx⟩)
    · exact ⟨c, n, hw.ne_of_below h .refl, .single h, hvalue, hn, hnx⟩
    · exact ⟨y, n, hw.ne_of_below h hy, .head h hy, hvalue, hn, hnx⟩

theorem InOrder.stackOmits_iff (hw : w.InOrder) (h : w.ParentOf b c) (hx : w.Below c x)
    (hc : ¬ w.InValue c) :
    w.StackOmits c x ↔ w.PassedOver b x := by
  rw [hw.passedOver_iff h hx, or_iff_right fun hvalue => hc hvalue.1]
  exact forall_prop_of_true hx

theorem InInput.omits_iff (h : w.InInput input b c) (hw : w.InOrder) (hx : w.Below c x) :
    w.InputOmits c x input.kind ↔ w.PassedOver b x := by
  cases hkind : input.kind with
  | dummy => exact absurd hkind (h.kind_ne_dummy hw)
  | statement => exact hw.stackOmits_iff (h.parentOf hw) hx (h.not_inValue hw hkind)
  | value =>
    obtain ⟨block, hblock, hinput, hc⟩ := id h
    rw [hw.passedOver_iff (h.parentOf hw) hx,
      and_iff_right ⟨b, block, input, hblock, hinput, hkind, hc⟩]
    exact forall_prop_of_true hx

/-- A block has no tokens of another if none of its inputs has. -/
theorem InOrder.blockOmits_iff (hw : w.InOrder) (hblock : w.blocks[b]? = some block) (hne : x ≠ b) :
    w.BlockOmits b x ↔ Spot.Omits w x (.row b block.inputs) := by
  constructor
  · intro h input hinput c hc
    have hin : w.InInput input b c := ⟨block, hblock, hinput, hc⟩
    by_cases hcx : w.Below c x
    · rw [hin.omits_iff hw hcx]
      rcases h (.head (hin.parentOf hw) hcx) with ⟨n, hn, hnx⟩ | hpassed
      · cases hw.disjoint_below (hin.parentOf hw) (hw.parentOf_of_next? hn) hcx hnx
        exact absurd hn (hin.next?_ne hw)
      · exact hpassed
    · exact inputOmits_of_not_below hcx _
  · intro h hx
    rcases hx.cases_head with rfl | ⟨c, hc, hcx⟩
    · exact absurd rfl hne
    rcases hw.next?_or_input hblock hc with hnext | ⟨input, hinput, hc⟩
    · exact .inl ⟨c, hnext, hcx⟩
    · exact .inr ((InInput.omits_iff ⟨block, hblock, hinput, hc⟩ hw hcx).1 (h input hinput c hc))

theorem InOrder.stackOmits_next (hw : w.InOrder) (hnext : w.next? b = .ok (some c)) :
    w.StackOmits b x ↔ w.BlockOmits b x ∧ w.StackOmits c x := by
  have hparent := hw.parentOf_of_next? hnext
  have hrest : w.Below c x → (w.StackOmits c x ↔ w.PassedOver b x) := fun hx =>
    hw.stackOmits_iff hparent hx (hw.not_inValue_of_next? hnext)
  constructor
  · exact fun h => ⟨fun hx => .inr (h hx), fun hx => (hrest hx).2 (h (.head hparent hx)) hx⟩
  · rintro ⟨hblock, hstack⟩ hx
    rcases hblock hx with ⟨n, hn, hnx⟩ | hpassed
    · cases hnext.symm.trans hn
      exact (hrest hnx).1 hstack
    · exact hpassed

/-- The tokens of a block or a stack, or of inputs of another block, have those of each block once
that is not omitted. -/
theorem InOrder.contributes (hw : w.InOrder) (h : w.Tokens s tokens) (hs : s.Proper w)
    (hx : s.Apart x) :
    w.Contributes x (s.Omits w x) tokens := by
  induction h with
  | last hnext _ ih =>
    refine (ih trivial trivial).congr (forall_congr' fun _ => (or_iff_right ?_).symm) rfl
    rintro ⟨n, hn, -⟩
    exact absurd (hnext.symm.trans hn) (by simp)
  | @next b n tokens rest hnext _ _ ih ihrest =>
    have hor : w.BlockOmits b x ∨ w.StackOmits n x := by
      by_cases hnx : w.Below n x
      · exact .inl fun _ => .inl ⟨n, hnext, hnx⟩
      · exact .inr fun hnx' => absurd hnx' hnx
    refine ((ih trivial trivial).append (ihrest trivial trivial) hor).congr
      (hw.stackOmits_next hnext) ?_
    rw [writtenFor_append, writtenFor_append]
    rfl
  | @block b found tokens hb hrow ih =>
    by_cases hne : x = b
    · cases hne
      refine ⟨fun hmissed => ?_, fun _ => ⟨tokens, .block hb hrow, rfl⟩⟩
      rcases hmissed .refl with ⟨n, hn, hnx⟩ | hpassed
      · exact absurd rfl (hw.ne_of_below (hw.parentOf_of_next? hn) hnx)
      · exact absurd hpassed hw.not_passedOver_self
    · exact (ih ⟨found, hb, List.suffix_rfl⟩ hne).congr (hw.blockOmits_iff hb hne) rfl
  | nil => exact .nil (by simp [Spot.Omits]) rfl
  | @cons b input inputs words child tokens rest hwords hchild _ _ ihsocket ihrest =>
    have hsocket := ihsocket (hw.proper_socket hs hchild) hx
    have hor : Spot.Omits w x (.socket b input.kind child) ∨ Spot.Omits w x (.row b inputs) := by
      -- the tree of at most one input of the row reaches the block
      by_cases hreach : ∃ c, child = some c ∧ w.Below c x
      · obtain ⟨c, rfl, hcx⟩ := hreach
        refine .inr fun other hother d hd => inputOmits_of_not_below (fun hdx => ?_) _
        have hin := hs.inInput List.mem_cons_self hchild
        cases hw.disjoint_below (hin.parentOf hw) ((hs.tail.inInput hother hd).parentOf hw) hcx hdx
        exact hw.row_apart hs hother hchild hd
      · exact .inl fun c hc => inputOmits_of_not_below (fun hcx => hreach ⟨c, hc, hcx⟩) _
    refine (hsocket.append (ihrest hs.tail hx) hor).congr ?_ ?_
    · simp [Spot.Omits, hchild]
    · have hwords : writtenFor x (words.map (some b, ·)) = [] := by
        simp [writtenFor, List.filter_eq_nil_iff, Ne.symm hx]
      rw [List.append_assoc, writtenFor_append, hwords, List.nil_append]
  | @value b child found tokens _ _ ih =>
    refine (ih trivial trivial).congr (by simp [Spot.Omits, InputOmits]) ?_
    split <;> simp [writtenFor, Ne.symm hx]
  | @body b child tokens _ ih =>
    exact (ih trivial trivial).congr (by simp [Spot.Omits, InputOmits])
      (by simp [writtenFor, Ne.symm hx])
  | hole | empty => exact .nil (by simp [Spot.Omits]) (by simp [writtenFor, Ne.symm hx])
  | dummy => exact .nil (fun _ _ => trivial) rfl

/-! ## The summary -/

theorem InOrder.summary_eq_ok (hw : w.InOrder) (hblock : w.blocks[b]? = some block)
    {text : String} :
    w.summary b = .ok text ↔ ∃ tokens, w.Tokens (.stack b) tokens ∧ Summary.text tokens = text := by
  have hdepth := hw.fits_stack hblock
  have hmeans : ∀ {tokens}, w.Tokens (.stack b) tokens → w.summary b = .ok (Summary.text tokens) :=
      fun h => by
    have hwrites := hw.writes h trivial _ [] hdepth
    rw [summary, hwrites]
    rfl
  constructor
  · intro h
    obtain ⟨out, hout, -⟩ := bind_eq_ok.1 h
    obtain ⟨tokens, htokens⟩ :=
      (hw.exists_tokens hw.writable_written _ hblock (Nat.lt_succ_self _)).2
        ⟨_, [], out, hdepth, hout⟩
    exact ⟨tokens, htokens, Except.ok.inj ((hmeans htokens).symm.trans h)⟩
  · rintro ⟨tokens, htokens, rfl⟩
    exact hmeans htokens

theorem exists_words {fields : List Field}
    (h : ∀ v ∈ fields.filterMap (·.value.heldVariable?), ∃ found, w.vars[v]? = some found) :
    ∃ words, (fields.mapM fun field => w.fieldText field.value) = .ok words := by
  refine exists_mapM_iff.2 fun field hfield => ?_
  cases hvalue : field.value with
  | var v =>
    obtain ⟨found, hfound⟩ := h v (List.mem_filterMap.2 ⟨field, hfield, by rw [hvalue]; rfl⟩)
    exact ⟨found.name, by simp [fieldText, getVariable_eq_ok.2 hfound]⟩
  | _ => exact ⟨_, rfl⟩

/-- A tree whose variables are there can be written. -/
theorem InOrder.writable_below (hw : w.InOrder)
    (h : ∀ x found, w.Below b x → w.blocks[x]? = some found →
      ∀ v ∈ found.vars, ∃ held, w.vars[v]? = some held) : w.Writable (w.Below b) (w.Below b) where
  words hb hblock hinput := exists_words fun v hv => h _ _ hb hblock v <| by
    obtain ⟨field, hfield, hheld⟩ := List.mem_filterMap.1 hv
    exact List.mem_filterMap.2 ⟨field, List.mem_flatMap.2 ⟨_, hinput, hfield⟩, hheld⟩
  value hb hin _ := hb.tail (hin.parentOf hw)
  body hb hin _ := hb.tail (hin.parentOf hw)
  first := id
  next hb hn := hb.tail (hw.parentOf_of_next? hn)

/-- **The summary of a block is the text of its tokens, in every reachable workspace.**  The loop
over the pending parts ends, and the summary is what it has written, or its fault.  There are tokens
whenever the variables in the fields of the tree are there; then the loop writes them one after the
other.  Each block of the tree contributes its own tokens once, except those below the next
connection of a block in a value input, which contribute none. -/
theorem summary_tokens (hw : w.Reachable) (hblock : w.blocks[b]? = some block) :
    (∃ out, Ends w.summaryRound ([.stack b], []) out ∧
      w.summary b = out.map fun written => String.ofList written.reverse) ∧
      (∀ text, w.summary b = .ok text ↔ ∃ tokens, w.Tokens (.stack b) tokens ∧
        Summary.text tokens = text) ∧
      ∃ ids, w.descendants b = .ok ids ∧
        ((∀ x ∈ ids, ∀ found, w.blocks[x]? = some found →
          ∀ v ∈ found.vars, ∃ held, w.vars[v]? = some held) →
          ∃ tokens, w.Tokens (.stack b) tokens) ∧
        ∀ tokens, w.Tokens (.stack b) tokens →
          Ends w.summaryRound ([.stack b], []) (.ok (write [] tokens)) ∧
          ∀ x, w.Contributes x (x ∉ ids ∨ w.PassedOver b x) tokens := by
  have hw := hw.inOrder
  obtain ⟨ids, hids, -, hmem⟩ := hw.exists_descendants hblock
  have hends := hw.ends_summary hblock
  refine ⟨⟨_, hends, rfl⟩, fun text => hw.summary_eq_ok hblock, ids, hids, fun hheld => ?_,
    fun tokens htokens => ?_⟩
  · have hwritable := hw.writable_below fun x found hx => hheld x ((hmem x).2 hx) found
    exact (hw.exists_tokens hwritable _ hblock (Nat.lt_succ_self _)).2 .refl
  · rw [hw.writes htokens trivial _ [] (hw.fits_stack hblock)] at hends
    refine ⟨hends, fun x => (hw.contributes htokens trivial trivial).congr ?_ rfl⟩
    rw [hmem x]
    exact imp_iff_not_or.symm

/-- A loop with an operation for a count and a statement in its body; a statement below the
operation is passed over. -/
theorem summary_tokens_loop : ∃ w : Workspace, w.Reachable ∧ w.descendants ⟨1⟩ = .ok [⟨1⟩, ⟨2⟩, ⟨4⟩,
    ⟨3⟩] ∧ ∃ tokens, w.Tokens (.stack ⟨1⟩) tokens ∧
      Summary.text tokens = "repeat (? + ?) do \x7b print ? \x7d" ∧
      Ends w.summaryRound ([.stack ⟨1⟩], []) (.ok (write [] tokens)) ∧ w.PassedOver ⟨1⟩ ⟨4⟩ ∧
      writtenFor ⟨4⟩ tokens = [] ∧ ∃ own, w.Tokens (.block ⟨2⟩) own ∧
      writtenFor ⟨2⟩ tokens = writtenFor ⟨2⟩ own := by
  let blocks := [Call.newBlock .repeatTimes, .newBlock .intArithmetic, .newBlock .printValue,
    .newBlock .printValue]
  let joins := [Call.connect ⟨2⟩ ⟨4⟩, .connect ⟨3⟩ ⟨7⟩, .connect ⟨13⟩ ⟨10⟩]
  obtain ⟨w1, hrun1, hfree⟩ : ∃ w, blocks.foldlM Call.run (Workspace.new {}) = .ok w ∧
      w.blocks[(⟨2⟩ : BlockId)]?.all (fun block => block.next.isNone) = true :=
      exists_ok_of_any (by decide +kernel)
  obtain ⟨w, hrun, hids, htext, hlive, hvalue, hnext, hunder⟩ : ∃ w,
      (blocks ++ .declareNext ⟨2⟩ none :: joins).foldlM Call.run (Workspace.new {}) = .ok w ∧
      (w.descendants ⟨1⟩).toOption = some [⟨1⟩, ⟨2⟩, ⟨4⟩, ⟨3⟩] ∧
      (w.summary ⟨1⟩).toOption = some "repeat (? + ?) do \x7b print ? \x7d" ∧
      w.blocks[(⟨1⟩ : BlockId)]?.isSome = true ∧
      w.blocks[(⟨1⟩ : BlockId)]?.any (fun block => block.inputs.any fun input =>
        input.kind == .value && (w.occupant? input.connection).toOption == some (some ⟨2⟩)) = true ∧
      (w.next? ⟨2⟩).toOption = some (some ⟨4⟩) ∧
      w.blocks[(⟨2⟩ : BlockId)]?.any (fun block => block.parent == some ⟨1⟩) = true :=
    exists_ok_of_any (by decide +kernel)
  have hreach : w.Reachable := by
    rw [List.foldlM_append, hrun1, ok_bind, List.foldlM_cons] at hrun
    obtain ⟨w2, hdeclare, hjoins⟩ := bind_eq_ok.1 hrun
    have hw1 : w1.Reachable := (Reachable.new {}).foldlM (by simp [blocks, Call.Permitted]) hrun1
    refine (hw1.call (.declareNext ⟨2⟩ none) (fun block hblock => ?_) hdeclare).foldlM
      (by simp [joins, Call.Permitted]) hjoins
    simpa [hblock] using hfree
  have hnext := toOption_eq_some_iff.1 hnext
  obtain ⟨under, hunder, hparent⟩ := (Option.any_eq_true ..).1 hunder
  have hparent : w.ParentOf ⟨1⟩ ⟨2⟩ := ⟨under, hunder, by simpa using hparent⟩
  have hpassed : w.PassedOver ⟨1⟩ ⟨4⟩ := by
    obtain ⟨block, hblock, hvalue⟩ := (Option.any_eq_true ..).1 hvalue
    obtain ⟨input, hinput, hvalue⟩ := List.any_eq_true.1 hvalue
    obtain ⟨hkind, hfilled⟩ := Bool.and_eq_true_iff.1 hvalue
    have hin : w.InValue ⟨2⟩ :=
      ⟨⟨1⟩, block, input, hblock, hinput, eq_of_beq hkind,
        toOption_eq_some_iff.1 (eq_of_beq hfilled)⟩
    exact ⟨⟨2⟩, ⟨4⟩, by decide, .single hparent, hin, hnext, .refl⟩
  obtain ⟨block, hblock⟩ := Option.isSome_iff_exists.1 hlive
  obtain ⟨-, hsummary, ids, hids', -, hwritten⟩ := summary_tokens hreach hblock
  cases (toOption_eq_some_iff.1 hids).symm.trans hids'
  obtain ⟨tokens, htokens, heq⟩ := (hsummary _).1 (toOption_eq_some_iff.1 htext)
  obtain ⟨hends, hcontributes⟩ := hwritten tokens htokens
  refine ⟨w, hreach, hids', tokens, htokens, heq, hends, hpassed,
    (hcontributes ⟨4⟩).1 (.inr hpassed), ?_⟩
  refine (hcontributes ⟨2⟩).2 (not_or.2 ⟨by decide, fun hmissed => ?_⟩)
  rcases (hreach.inOrder.passedOver_iff hparent .refl).1 hmissed with ⟨-, n, hn, hbelow⟩ | hmissed
  · exact hreach.inOrder.ne_of_below (hreach.inOrder.parentOf_of_next? hn) hbelow rfl
  · exact hreach.inOrder.not_passedOver_self hmissed

end Workspace

end BlockGraph
