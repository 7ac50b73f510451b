import BlockGraph.Proofs.Totality.Links

/-!
# What the gate accepts

`Workspace.connect` asks seven questions one after the other: two walks over trees, a trial of
unifying two types, lookups of owners, kinds, targets and checks.  `Workspace.Admits` is the
condition that they come to, without an order: two free connections of opposite kinds and different
blocks, which share a tag, of which the one to be plugged in does not stand above the other, whose
types have a common solution, and where every use of a variable finds a binder.

* `Upheld.exists_checkConnection`: the gate has an answer, and it accepts exactly the pairs that are
  joined or admitted.
* `connect_accepts_iff`: so `connect` accepts these whichever of the two is named first, joins them,
  and changes nothing otherwise.
-/

namespace BlockGraph

open Relation

theorem Check.intersects_iff {a b : Check} : Check.intersects a b = true ↔
    ∀ s t, a = some s → b = some t → ∃ tag, tag ∈ s ∧ tag ∈ t := by
  cases a with
  | none => simp [Check.intersects]
  | some s =>
    cases b with
    | none | some t => simp [Check.intersects]

namespace Workspace

variable {w w' : Workspace} {a b c i o : ConnectionId} {ca cb socket plug connection : Connection}
  {Q : Block → Prop} {tracked : Prop} {r x : BlockId} {name : String}

/-! ## Scope -/

/-- A block stands in the scope of a binder of a name that is in the tree of `r`. -/
def SeenWithin (w : Workspace) (r : BlockId) (name : String) (x : BlockId) : Prop :=
  ∃ binder v, w.Below r binder ∧ w.Captures name binder x v

/-- A block plugged into a connection would stand in the scope of a binder of a name: the owner of
the connection declares the name into it, or stands in the scope of such a binder itself. -/
def SeenAt (w : Workspace) (c : ConnectionId) (name : String) : Prop :=
  ∃ connection, w.connections[c]? = some connection ∧
    ((∃ v, w.DeclaresInto c name v) ∨ ∃ binder v, w.Captures name binder connection.block v)

theorem exists_captures_iff : (∃ binder v, w.Captures name binder x v) ↔
    ∃ v, w.Denotes name x v := by
  constructor
  · rintro ⟨binder, v, h⟩
    exact h.exists_denotes
  · rintro ⟨v, h⟩
    obtain ⟨binder, hbinder, -⟩ := h.exists_nearest
    exact ⟨binder, v, hbinder⟩

/-- Nothing outside a tree captures a name in it. -/
theorem InOrder.seenWithin_iff (hw : w.InOrder) (hr : r ∈ w.top) (hx : w.Below r x) :
    w.SeenWithin r name x ↔ ∃ v, w.Denotes name x v := by
  rw [← exists_captures_iff]
  constructor
  · rintro ⟨binder, v, -, h⟩
    exact ⟨binder, v, h⟩
  · rintro ⟨binder, v, h⟩
    refine ⟨binder, v, ?_, h⟩
    obtain ⟨child, hparent, hbelow, -⟩ := h
    rcases Below.total hx (ReflTransGen.head hparent hbelow) with habove | habove
    · exact habove
    · rw [hw.below_top hr habove]
      exact .refl

theorem seenAt_iff (hc : w.connections[c]? = some connection) :
    w.SeenAt c name ↔ ∃ v, w.DenotesAt name c v := by
  constructor
  · rintro ⟨connection', hc', hseen⟩
    cases hc.symm.trans hc'
    by_cases hdeclared : ∃ v, w.DeclaresInto c name v
    · obtain ⟨v, hv⟩ := hdeclared
      exact ⟨v, connection, hc, .inl hv⟩
    · obtain ⟨v, hv⟩ := exists_captures_iff.1 (hseen.resolve_left hdeclared)
      exact ⟨v, connection, hc, .inr ⟨fun u hu => hdeclared ⟨u, hu⟩, hv⟩⟩
  · rintro ⟨v, connection', hc', hv | ⟨-, hv⟩⟩
    · exact ⟨connection', hc', .inl ⟨v, hv⟩⟩
    · exact ⟨connection', hc', .inr (exists_captures_iff.2 ⟨v, hv⟩)⟩

/-! ## The condition -/

/-- What is asked of the structure: a plug and a socket of different blocks, both free, that share a
tag, and no block would come to stand above itself. -/
structure Joinable (w : Workspace) (socket plug : Connection) : Prop where
  superior : plug.kind.isSuperior = true
  opposite : socket.kind = plug.kind.opposite
  apart : socket.block ≠ plug.block
  socket_free : socket.target = none
  plug_free : plug.target = none
  checks : ∀ s t, socket.check = some s → plug.check = some t → ∃ tag, tag ∈ s ∧ tag ∈ t
  acyclic : ¬ w.Below plug.block socket.block

/-- What is asked of a socket and a plug that are to be joined.  In a typed workspace their types,
where both have one, have a common solution; and, unless the options say otherwise, every use of a
variable in the tree that is plugged in is in the scope of a binder of its name, in the tree or at
the socket. -/
structure Admits (w : Workspace) (i : ConnectionId) (socket plug : Connection) : Prop extends
    w.Joinable socket plug where
  types : w.isTyped = true → ∀ expected found, socket.type = some expected →
    plug.type = some found → ∃ θ, w.types.Solution θ ∧ expected.subst θ = found.subst θ
  scope : w.isTyped = true → w.options.resolveOnConnect = true →
    ∀ (v : VariableId) (use : Variable), w.vars[v]? = some use → use.isReference = true →
    w.Below plug.block use.block → w.SeenWithin plug.block use.name use.block ∨ w.SeenAt i use.name

theorem Joinable.not_symm (h : w.Joinable socket plug) : socket.kind.isSuperior = false := by
  rw [h.opposite, ConnectionKind.isSuperior_opposite, h.superior]
  rfl

section Oriented

variable (hsides : if ca.kind.isSuperior then i = b ∧ o = a ∧ socket = cb ∧ plug = ca
  else i = a ∧ o = b ∧ socket = ca ∧ plug = cb)
include hsides

/-- The condition names the sides, so one order of the two at most fulfils it. -/
theorem admits_iff_of_sides : w.Admits i socket plug ↔ w.Admits a ca cb ∨ w.Admits b cb ca := by
  split at hsides
  · next hsup =>
    obtain ⟨rfl, -, rfl, rfl⟩ := hsides
    exact (or_iff_right fun h => absurd (h.not_symm.symm.trans hsup) (by simp)).symm
  · next hsup =>
    obtain ⟨rfl, -, rfl, rfl⟩ := hsides
    exact (or_iff_left fun h => hsup h.superior).symm

theorem joinable_iff_of_sides :
    (ca.block ≠ cb.block ∧ ca.kind.opposite = cb.kind ∧ ca.target = none ∧ cb.target = none ∧
      Check.intersects ca.check cb.check = true ∧ ¬ w.Below plug.block socket.block) ↔
      w.Joinable socket plug := by
  split at hsides
  · next hsup =>
    obtain ⟨-, -, rfl, rfl⟩ := hsides
    constructor
    · rintro ⟨hblock, hkind, hplug, hsocket, hcheck, hcycle⟩
      rw [Check.intersects_comm] at hcheck
      exact ⟨hsup, hkind.symm, hblock.symm, hsocket, hplug, Check.intersects_iff.1 hcheck, hcycle⟩
    · rintro ⟨-, hkind, hblock, hsocket, hplug, hcheck, hcycle⟩
      refine ⟨hblock.symm, hkind.symm, hplug, hsocket, ?_, hcycle⟩
      rw [Check.intersects_comm]
      exact Check.intersects_iff.2 hcheck
  · next hsup =>
    obtain ⟨-, -, rfl, rfl⟩ := hsides
    constructor
    · rintro ⟨hblock, hkind, hsocket, hplug, hcheck, hcycle⟩
      refine ⟨?_, ?_, hblock, hsocket, hplug, Check.intersects_iff.1 hcheck, hcycle⟩
      · rw [← hkind, ConnectionKind.isSuperior_opposite]
        simpa using hsup
      · rw [← hkind, ConnectionKind.opposite_opposite]
    · rintro ⟨-, hkind, hblock, hsocket, hplug, hcheck, hcycle⟩
      exact ⟨hblock, by rw [hkind, ConnectionKind.opposite_opposite], hsocket, hplug,
        Check.intersects_iff.2 hcheck, hcycle⟩

end Oriented

/-! ## The answer of the gate -/

theorem Upheld.covers (h : Upheld Q tracked w) (htyped : w.isTyped = true)
    (hc : w.connections[c]? = some connection) {ty : Ty} (hty : connection.type = some ty) :
    w.types.Covers ty := by
  have hw := h.standing.inOrder
  obtain ⟨block, hblock⟩ := hw.block_of_connection hc
  obtain ⟨r, -, hr, hbelow⟩ := hw.exists_root hblock
  exact h.covered htyped r hr id c ⟨connection, hc, hbelow⟩ ty (by rw [slotType, hc]; exact hty)

/-- Whether two types clash is found out by a trial. -/
theorem exists_typeClash (hsound : w.types.Sound)
    (hsocket : ∀ ty, socket.type = some ty → w.types.Covers ty)
    (hplug : ∀ ty, plug.type = some ty → w.types.Covers ty) :
    ∃ answer, w.typeClash socket plug = .ok answer ∧ (answer = none ↔
      ∀ expected found, socket.type = some expected → plug.type = some found →
        ∃ θ, w.types.Solution θ ∧ expected.subst θ = found.subst θ) := by
  cases hexpected : socket.type with
  | none => exact ⟨none, by simp [typeClash, hexpected], by simp⟩
  | some expected =>
    cases hfound : plug.type with
    | none => exact ⟨none, by simp [typeClash, hexpected, hfound], by simp⟩
    | some found =>
      obtain ⟨verdict, hverdict, hiff⟩ :=
        exists_unifiable hsound (hsocket expected hexpected) (hplug found hfound)
      cases verdict with
      | true =>
        refine ⟨none, by simp [typeClash, hexpected, hfound, hverdict], iff_of_true rfl ?_⟩
        rintro _ _ ⟨⟩ ⟨⟩
        exact hiff.1 rfl
      | false =>
        refine ⟨some (.typeMismatch (expected.subst w.types.image) (found.subst w.types.image)), ?_,
          iff_of_false (by simp) fun hall => ?_⟩
        · simp [typeClash, hexpected, hfound, hverdict,
            hsound.resolve_eq (hsocket expected hexpected), hsound.resolve_eq (hplug found hfound)]
        · exact absurd (hiff.2 (hall expected found rfl rfl)) (by simp)

/-- What the gate asks of types and scope it finds out, for a plug and a socket that can be
joined. -/
theorem Upheld.exists_checkTyping (h : Upheld Q tracked w) (htyped : w.isTyped = true)
    (horient : w.orient a b = .ok (i, o)) (hi : w.connections[i]? = some socket)
    (ho : w.connections[o]? = some plug) (hjoinable : w.Joinable socket plug) :
    ∃ answer, w.checkTyping a b = .ok answer ∧ (answer = none ↔ w.Admits i socket plug) := by
  have hw := h.standing.inOrder
  have hroot := hw.mem_top_of_free ho hjoinable.superior hjoinable.plug_free
  obtain ⟨clash, hclash, hclash_iff⟩ := exists_typeClash hw.sound
    (fun _ => h.covers htyped hi) (fun _ => h.covers htyped ho)
  obtain ⟨root, hrootBlock⟩ := hw.live_of_top hroot
  have hat : ∀ c, some i = some c → ∃ connection, w.connections[c]? = some connection :=
    fun _ hc => ⟨socket, Option.some.inj hc ▸ hi⟩
  obtain ⟨verdict, hverdict, hverdict_iff⟩ :=
    exists_resolvable hw h.standing.owned.toHoused hrootBlock hat
  simp only [checkTyping, horient, ok_bind, getConnection_eq_ok.2 hi, getConnection_eq_ok.2 ho,
    hclash, hverdict]
  cases clash with
  | some error =>
    exact ⟨some error, rfl, iff_of_false (by simp) fun hadmits =>
      absurd (hclash_iff.2 (hadmits.types htyped)) (by simp)⟩
  | none =>
    have htypes := hclash_iff.1 rfl
    cases hoption : w.options.resolveOnConnect with
    | false =>
      refine ⟨none, rfl, iff_of_true rfl ⟨hjoinable, fun _ => htypes, fun _ hresolve => ?_⟩⟩
      exact absurd (hoption.symm.trans hresolve) (by simp)
    | true =>
      have hscope : verdict = true ↔ ∀ (v : VariableId) (use : Variable), w.vars[v]? = some use →
          use.isReference = true → w.Below plug.block use.block →
          w.SeenWithin plug.block use.name use.block ∨ w.SeenAt i use.name := by
        rw [hverdict_iff]
        refine forall₅_congr fun v use hv hreference hbelow => ?_
        rw [hw.seenWithin_iff hroot hbelow, seenAt_iff hi,
          hw.exists_denotesFrom_iff (not_parentOf_of_mem_top hw hroot) hbelow]
        simp only [DenotesAt?, Option.some.injEq, exists_eq_left']
      cases verdict with
      | true =>
        exact ⟨none, rfl, iff_of_true rfl ⟨hjoinable, fun _ => htypes, fun _ _ => hscope.1 rfl⟩⟩
      | false =>
        exact ⟨_, rfl, iff_of_false (by simp) fun hadmits =>
          absurd (hscope.2 (hadmits.scope htyped hoption)) (by simp)⟩

/-- **The gate has an answer**, and it accepts exactly the pairs that are joined already or
admitted. -/
theorem Upheld.exists_checkConnection (h : Upheld Q tracked w) (ha : w.connections[a]? = some ca)
    (hb : w.connections[b]? = some cb) : ∃ answer, w.checkConnection a b = .ok answer ∧
      (answer = none ↔ ca.target = some b ∨ w.Admits a ca cb ∨ w.Admits b cb ca) := by
  have hw := h.standing.inOrder
  obtain ⟨i, o, socket, plug, horient, hi, ho, hsides⟩ := exists_orient ha hb
  obtain ⟨found, hfound, hfound_iff⟩ := hw.exists_checkStructure ha hb horient hi ho
  rw [← admits_iff_of_sides hsides]
  simp only [checkConnection, hfound, ok_bind, getConnection_eq_ok.2 ha]
  by_cases hjoined : ca.target = some b
  · -- connections that are joined fit together, so the structure is not refused
    obtain ⟨other, hother, hback, hkind, hblock, -, -, hcheck⟩ := hw.structured.target ha hjoined
    cases hb.symm.trans hother
    have hnone : found = none := hfound_iff.2 ⟨hblock.symm, hkind.symm,
      isTaken_eq_false_iff.2 (.inr hjoined), isTaken_eq_false_iff.2 (.inr hback), hcheck,
      .inl hjoined⟩
    subst hnone
    refine ⟨none, ?_, iff_of_true rfl (.inl hjoined)⟩
    simp [hjoined]
  · have htarget : cb.target ≠ some a := fun hback => by
      obtain ⟨other, hother, hforth, -⟩ := hw.structured.target hb hback
      cases ha.symm.trans hother
      exact hjoined hforth
    have hjoinable : found = none ↔ w.Joinable socket plug := by
      rw [hfound_iff, isTaken_eq_false_iff, isTaken_eq_false_iff, or_iff_left hjoined,
        or_iff_left htarget, or_iff_right hjoined]
      exact joinable_iff_of_sides hsides
    cases found with
    | some error =>
      refine ⟨some error, rfl, iff_of_false (by simp) ?_⟩
      rintro (htarget | hadmits)
      · exact hjoined htarget
      · exact absurd (hjoinable.2 hadmits.toJoinable) (by simp)
    | none =>
      have hjoinable := hjoinable.1 rfl
      cases htyped : w.isTyped with
      | false =>
        refine ⟨none, rfl, iff_of_true rfl (.inr ⟨hjoinable, fun h => ?_, fun h => ?_⟩)⟩
        · exact absurd (htyped.symm.trans h) (by simp)
        · exact absurd (htyped.symm.trans h) (by simp)
      | true =>
        obtain ⟨answer, hanswer, hiff⟩ := h.exists_checkTyping htyped horient hi ho hjoinable
        exact ⟨answer, by simp [hjoined, hanswer], hiff.trans (or_iff_right hjoined).symm⟩

/-! ## Connecting -/

/-- Connections that were linked are each other's targets. -/
theorem joined_of_link {socket plug : Joint} (hpair : w.skeleton.Pairing i o socket plug)
    (h : w.link i o = .ok w') : ∃ ci co, w'.connections[i]? = some ci ∧ ci.target = some o ∧
      w'.connections[o]? = some co ∧ co.target = some i := by
  have hskel := (skeleton_link hpair h).1
  have hi : w'.skeleton.joint i = some { socket with target := some o } := by
    rw [hskel]
    refine Skeleton.joint_wire_eq_some_iff.2 ⟨socket, hpair.socket_eq, ?_⟩
    simp
  have ho : w'.skeleton.joint o = some { plug with target := some i } := by
    rw [hskel]
    refine Skeleton.joint_wire_eq_some_iff.2 ⟨plug, hpair.plug_eq, ?_⟩
    simp [hpair.ne.symm]
  obtain ⟨ci, hci, hcit⟩ := joint_eq_some_iff.1 hi
  obtain ⟨co, hco, hcot⟩ := joint_eq_some_iff.1 ho
  exact ⟨ci, co, hci, congrArg Joint.target hcit, hco, congrArg Joint.target hcot⟩

theorem Keeps.target_eq (h : Keeps w w') (hc : w.connections[c]? = some connection) :
    ∃ connection', w'.connections[c]? = some connection' ∧
    connection'.target = connection.target := by
  have hj := joint_of_connection hc
  rw [← h.skeleton_eq] at hj
  obtain ⟨connection', hc', heq⟩ := joint_eq_some_iff.1 hj
  exact ⟨connection', hc', congrArg Joint.target heq⟩

/-- Two connections are each other's targets. -/
def Joined (w : Workspace) (a b : ConnectionId) : Prop :=
  ∃ ca cb, w.connections[a]? = some ca ∧ ca.target = some b ∧ w.connections[b]? = some cb ∧
    cb.target = some a

theorem InOrder.joined_iff (hw : w.InOrder) (ha : w.connections[a]? = some ca) :
    w.Joined a b ↔ ca.target = some b := by
  constructor
  · rintro ⟨ca', cb', ha', htarget, -⟩
    cases ha.symm.trans ha'
    exact htarget
  · intro htarget
    obtain ⟨other, hother, hback, -⟩ := hw.structured.target ha htarget
    exact ⟨ca, other, ha, htarget, hother, hback⟩

theorem Serviceable.exists_connect (hQ : Serviceable Q) (h : Upheld Q tracked w)
    (ha : w.connections[a]? = some ca) (hb : w.connections[b]? = some cb) :
      ∃ answer w', w.connect a b = .ok (answer, w') ∧
      (answer = none ↔ w.Joined a b ∨ w.Admits a ca cb ∨ w.Admits b cb ca) ∧
      (answer = none → w'.Joined a b) ∧ (answer ≠ none ∨ w.Joined a b → w' = w) := by
  have hw := h.standing.inOrder
  obtain ⟨answer, hanswer, hiff⟩ := h.exists_checkConnection ha hb
  rw [← hw.joined_iff ha] at hiff
  simp only [Workspace.connect, hanswer, ok_bind, getConnection_eq_ok.2 ha]
  cases answer with
  | some error => exact ⟨some error, w, rfl, hiff, by simp, fun _ => rfl⟩
  | none =>
    by_cases hjoined : w.Joined a b
    · exact ⟨none, w, by simp [(hw.joined_iff ha).1 hjoined], hiff, fun _ => hjoined, fun _ => rfl⟩
    · have hnot := mt (hw.joined_iff ha).2 hjoined
      have hgate := checkStructure_of_checkConnection hanswer
      obtain ⟨i, o, socket, plug, horient, hpair, -⟩ := hw.linkable hgate
      obtain ⟨w1, hlink⟩ := exists_link hw.formed hpair
      obtain ⟨ci, co, hci, hcit, hco, hcot⟩ := joined_of_link hpair hlink
      obtain ⟨s, p, hs, hp, hblock, hlinked⟩ := exists_linked hw hgate horient hlink
      obtain ⟨w', hrefresh⟩ := h.exists_refresh_touch hQ.equipped
        (hlinked.rewires.standing hQ.toSteady h.standing hlinked.inOrder)
        (hlinked.rewires.confined _) [p.block] (by
          rintro r - (hfalse | ⟨x, rfl | rfl, hbelow⟩)
          · exact hfalse.elim
          · exact ⟨p.block, by simp, hbelow.tail ((hlinked.parentOf _ _).2 (if_pos rfl ▸ rfl))⟩
          · exact ⟨p.block, by simp, hbelow⟩)
      refine ⟨none, w', ?_, hiff, fun _ => ?_, fun hor => ?_⟩
      · simp [hnot, horient, hlink, getConnection_eq_ok.2 hco, hblock co hco, hrefresh]
      · obtain ⟨ci', hci', hcit'⟩ := (keeps_refresh hrefresh).target_eq hci
        obtain ⟨co', hco', hcot'⟩ := (keeps_refresh hrefresh).target_eq hco
        rw [hcit] at hcit'
        rw [hcot] at hcot'
        rw [orient_eq ha] at horient
        split at horient
        · cases horient
          exact ⟨co', ci', hco', hcot', hci', hcit'⟩
        · cases horient
          exact ⟨ci', co', hci', hcit', hco', hcot'⟩
      · exact absurd rfl (hor.resolve_right hjoined)

/-- **The gate accepts exactly the declared connections.**  In every workspace that edits and moves
of inputs have led to, `connect` accepts two connections if and only if they are joined already or
admitted.  Those that it accepts are joined afterwards; if it refuses, or if they were joined
before, nothing has changed.  Which of the two is named first makes no difference. -/
theorem connect_accepts_iff (hw : w.ReachableBy Call.IsReordering)
    (ha : w.connections[a]? = some ca) (hb : w.connections[b]? = some cb) :
      ∃ answer w', w.connect a b = .ok (answer, w') ∧
      (answer = none ↔ w.Joined a b ∨ w.Admits a ca cb ∨ w.Admits b cb ca) ∧
      (answer = none → w'.Joined a b) ∧ (answer ≠ none ∨ w.Joined a b → w' = w) ∧
      ∃ answer' w'', w.connect b a = .ok (answer', w'') ∧ (answer' = none ↔ answer = none) := by
  have hup : Upheld Block.Regular False w :=
    hw.upheld_reordering Block.steady_regular Block.unordered_regular
  obtain ⟨answer, w', hconnect, hiff, hjoins, hsame⟩ := serviceable_regular.exists_connect hup ha hb
  obtain ⟨answer', w'', hconnect', hiff', -⟩ := serviceable_regular.exists_connect hup hb ha
  refine ⟨answer, w', hconnect, hiff, hjoins, hsame, answer', w'', hconnect', ?_⟩
  have hsymm : w.Joined b a ↔ w.Joined a b := by
    constructor
    · rintro ⟨cb, ca, hb, hbt, ha, hat⟩
      exact ⟨ca, cb, ha, hat, hb, hbt⟩
    · rintro ⟨ca, cb, ha, hat, hb, hbt⟩
      exact ⟨cb, ca, hb, hbt, ha, hat⟩
  rw [hiff', hiff, hsymm, or_comm (a := w.Admits b cb ca)]

/-- A function and a use of its parameter, not yet in its body. -/
def functionAndUse : Except Fault Workspace :=
  [Call.newBlock .lambda, .newBlock .variablesGet].foldlM Call.run (Workspace.new {})

theorem connect_accepts_iff_functionAndUse :
    ∃ w w' ca cb, functionAndUse = .ok w ∧ w.isTyped = true ∧
      w.connections[(⟨1⟩ : ConnectionId)]? = some ca ∧
      w.connections[(⟨2⟩ : ConnectionId)]? = some cb ∧ w.connect ⟨1⟩ ⟨2⟩ = .ok (none, w') ∧
      w.Admits ⟨1⟩ ca cb ∧ w'.Joined ⟨1⟩ ⟨2⟩ := by
  obtain ⟨w, hrun, htyped, ⟨ca, hca, hfree, hsocket⟩, ⟨cb, hcb⟩, hconnect⟩ :
      ∃ w, functionAndUse = .ok w ∧ w.isTyped = true ∧
        (∃ ca ∈ w.connections[(⟨1⟩ : ConnectionId)]?, ca.target = none ∧
          ca.kind.isSuperior = false) ∧
        (∃ cb ∈ w.connections[(⟨2⟩ : ConnectionId)]?, True) ∧
        (w.connect ⟨1⟩ ⟨2⟩).toOption.any (fun p => decide (p.1 = none)) = true :=
    exists_ok_of_any (by decide +kernel)
  obtain ⟨⟨answer, w'⟩, hconnect, rfl⟩ := exists_ok_of_any hconnect
  have hw := (ReachableBy.new (P := Call.IsReordering) {}).foldlM
    (by simp [Call.IsReordering, Call.IsEdit]) hrun
  obtain ⟨answer, w'', hconnect', hiff, hjoins, -⟩ := connect_accepts_iff hw hca hcb.1
  cases hconnect.symm.trans hconnect'
  refine ⟨w, w', ca, cb, hrun, htyped, hca, hcb.1, hconnect, ?_, hjoins rfl⟩
  rcases hiff.1 rfl with ⟨ca', -, hca', htarget, -⟩ | hadmits | hadmits
  · cases hca.symm.trans hca'
    exact absurd (htarget.symm.trans hfree) (by simp)
  · exact hadmits
  · exact absurd (hadmits.superior.symm.trans hsocket) (by simp)

end Workspace

end BlockGraph
