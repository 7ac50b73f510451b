import Std.Data.String.ToNat
import BlockGraph.Kind
import BlockGraph.Proofs.Ty.Leftmost

/-!
# The text of a type determines it

The text of a type puts marks around names and numbers, and parentheses only around the argument of
a function.  A type is legible (`Ty.Legible`) if its names are not empty and have no marks in them,
as names of letters and digits have none, and if no constructor is applied to nothing.

Reading from the left, a legible type ends where its text is followed by a comma or a closing mark
(`Ended`), so the texts of two types that are followed so can only be continuations of each other if
the types are equal (`Legible.readable`).
-/

namespace BlockGraph

open Loop

/-! ## Names -/

/-- The characters by which the text of a type tells its parts apart. -/
def isMark (c : Char) : Bool := c ∈ ['?', '(', ')', '<', '>', ',']

/-- Nothing follows, or what can follow a type inside the text of another. -/
def Ended (rest : List Char) : Prop := ∀ c ∈ rest.head?, c ∈ [',', '>', ')']

variable {l l' r r' : List Char} {v : Nat} {ty a : Ty}

/-- What has no marks is as long as it can be before a mark. -/
theorem append_inj_of_marks (hl : ∀ c ∈ l, isMark c = false) (hl' : ∀ c ∈ l', isMark c = false)
    (hr : ∀ c ∈ r.head?, isMark c = true) (hr' : ∀ c ∈ r'.head?, isMark c = true)
    (h : l ++ r = l' ++ r') :
    l = l' ∧ r = r' := by
  have hfront : ∀ {l r : List Char}, (∀ c ∈ l, isMark c = false) →
      (∀ c ∈ r.head?, isMark c = true) → (l ++ r).takeWhile (!isMark ·) = l := by
    intro l r hl hr
    rw [List.takeWhile_append_of_pos (by simpa using hl)]
    cases r with
    | nil => simp
    | cons c r => simp [hr c rfl]
  have heq : l = l' := by rw [← hfront hl hr, h, hfront hl' hr']
  subst heq
  exact ⟨rfl, List.append_cancel_left h⟩

theorem Ended.marks (h : Ended r) : ∀ c ∈ r.head?, isMark c = true := by
  intro c hc
  have := h c hc
  simp only [isMark, List.mem_cons, List.not_mem_nil, or_false] at this ⊢
  grind

namespace Ty

variable {t u ty : Ty} {args : List Ty} {name : String}

/-- A name that is not empty and has no marks in it. -/
def IsName (name : String) : Prop := name ≠ "" ∧ ∀ c ∈ name.toList, isMark c = false

theorem IsName.toList_ne_nil (h : IsName name) : name.toList ≠ [] :=
  fun heq => h.1 (String.toList_eq_nil_iff.1 heq)

/-- Letters and digits make a name. -/
theorem isName_of_alphanum (hne : name ≠ "") (h : name.toList.all Char.isAlphanum = true) :
    IsName name := by
  refine ⟨hne, fun c hc => ?_⟩
  have := List.all_eq_true.mp h c hc
  rw [Bool.eq_false_iff]
  intro hmark
  simp only [isMark, List.mem_cons, List.not_mem_nil, or_false, decide_eq_true_eq] at hmark
  rcases hmark with rfl | rfl | rfl | rfl | rfl | rfl <;> exact absurd this (by decide)

/-- Every constructor has a name, and one that is applied is applied to something. -/
inductive Legible : Ty → Prop
  | var (v : Nat) : Legible (.var v)
  | con {name : String} (h : IsName name) : Legible (.con name)
  | app {name : String} {a : Ty} {args : List Ty} (h : IsName name)
    (hargs : ∀ b ∈ a :: args, Legible b) :
    Legible (.app name (a :: args))
  | fn {arg result : Ty} (harg : Legible arg) (hresult : Legible result) : Legible (.fn arg result)

/-! ## Texts -/

theorem isMark_of_mem_number {c : Char} (h : c ∈ (toString v).toList) : isMark c = false := by
  rw [Nat.toString_eq_repr, Nat.toList_repr] at h
  have hdigit := Nat.isDigit_of_mem_toDigits (by decide) (by decide) h
  rw [Bool.eq_false_iff]
  intro hmark
  simp only [isMark, List.mem_cons, List.not_mem_nil, or_false, decide_eq_true_eq] at hmark
  rcases hmark with rfl | rfl | rfl | rfl | rfl | rfl <;> exact absurd hdigit (by decide)

/-- The name that a text starts with. -/
def label : Ty → List Char
  | con name => name.toList
  | app name _ => name.toList
  | _ => []

/-- The text behind the name that it starts with. -/
def body : Ty → List Char
  | var v => '?' :: (toString v).toList
  | con _ => []
  | app _ [] => []
  | app _ (a :: as) => '<' :: (a.text.toList ++ ((textRest as).toList ++ ['>']))
  | fn arg result =>
    '(' :: (arg.text.toList ++ (')' :: ' ' :: '-' :: '>' :: ' ' :: result.text.toList))

theorem toList_text (ty : Ty) : ty.text.toList = ty.label ++ ty.body := by
  cases ty with
  | var v | con name => simp [text, label, body]
  | app name args => cases args <;> simp [text, label, body]
  | fn arg result => simp [text, label, body]

theorem toList_textRest_cons (a : Ty) (as : List Ty) :
    (textRest (a :: as)).toList = ',' :: ' ' :: (a.text.toList ++ (textRest as).toList) := by
  simp [textRest]

theorem Legible.isMark_label (h : ty.Legible) : ∀ c ∈ ty.label, isMark c = false := by
  cases h with
  | var v => simp [label]
  | con h | app h => exact h.2
  | fn => simp [label]

theorem marks_body (ty : Ty) (hr : Ended r) : ∀ c ∈ (ty.body ++ r).head?, isMark c = true := by
  cases ty with
  | var v => simp [body, isMark]
  | con name => exact hr.marks
  | app name args =>
    cases args with
    | nil => exact hr.marks
    | cons a as => simp [body, isMark]
  | fn arg result => simp [body, isMark]

theorem ended_textRest (args : List Ty) (r : List Char) :
    Ended ((textRest args).toList ++ '>' :: r) := by
  cases args with
  | nil => simp [textRest, Ended]
  | cons a as => simp [toList_textRest_cons, Ended]

/-- A type whose text can be followed by what ends it in one way only. -/
def Readable (t : Ty) : Prop := ∀ {u : Ty} {r r' : List Char}, u.Legible → Ended r → Ended r' →
  t.text.toList ++ r = u.text.toList ++ r' → t = u ∧ r = r'

/-- The arguments after the first end with the closing mark. -/
theorem textRest_append_inj {as bs : List Ty} (has : ∀ a ∈ as, a.Readable)
    (hbs : ∀ b ∈ bs, b.Legible)
    (h : (textRest as).toList ++ '>' :: r = (textRest bs).toList ++ '>' :: r') :
    as = bs ∧ r = r' := by
  induction as generalizing bs with
  | nil =>
    cases bs with
    | nil => simpa [textRest] using h
    | cons b bs => simp [textRest] at h
  | cons a as ih =>
    cases bs with
    | nil => simp [textRest] at h
    | cons b bs =>
      simp only [toList_textRest_cons, List.cons_append, List.append_assoc, List.cons.injEq,
        true_and] at h
      obtain ⟨rfl, hrest⟩ := has a List.mem_cons_self (hbs b List.mem_cons_self)
        (ended_textRest as r) (ended_textRest bs r') h
      obtain ⟨rfl, rfl⟩ := ih (fun x hx => has x (List.mem_cons_of_mem _ hx))
        (fun x hx => hbs x (List.mem_cons_of_mem _ hx)) hrest
      exact ⟨rfl, rfl⟩

theorem Legible.label_body_inj (ht : t.Legible) (hu : u.Legible) (hr : Ended r) (hr' : Ended r')
    (h : t.text.toList ++ r = u.text.toList ++ r') :
    t.label = u.label ∧ t.body ++ r = u.body ++ r' := by
  rw [toList_text, toList_text, List.append_assoc, List.append_assoc] at h
  exact append_inj_of_marks ht.isMark_label hu.isMark_label (marks_body t hr) (marks_body u hr') h

/-- Where the text of a legible type ends is clear from what follows it. -/
theorem Legible.readable (ht : t.Legible) : t.Readable := by
  induction t with
  | var v =>
    intro u r r' hu hr hr' h
    obtain ⟨hlabel, hbody⟩ := ht.label_body_inj hu hr hr' h
    cases hu with
    | var w =>
      obtain ⟨hnumber, rfl⟩ := append_inj_of_marks (fun _ => isMark_of_mem_number)
        (fun _ => isMark_of_mem_number) hr.marks hr'.marks (List.cons.inj hbody).2
      exact ⟨congrArg Ty.var (Nat.repr_inj.1 (String.toList_inj.1 hnumber)), rfl⟩
    | con hname | app hname => exact absurd hlabel.symm hname.toList_ne_nil
    | fn => simp [body] at hbody
  | con name =>
    intro u r r' hu hr hr' h
    obtain ⟨hlabel, hbody⟩ := ht.label_body_inj hu hr hr' h
    cases ht with | con hname =>
    cases hu with
    | var w => exact absurd hlabel hname.toList_ne_nil
    | con => exact ⟨congrArg Ty.con (String.toList_inj.1 hlabel), hbody⟩
    | app => exact absurd hr (by rw [show r = _ from hbody]; simp [Ended, body])
    | fn => exact absurd hlabel hname.toList_ne_nil
  | app name args ih =>
    intro u r r' hu hr hr' h
    obtain ⟨hlabel, hbody⟩ := ht.label_body_inj hu hr hr' h
    cases ht with | app hname hargs =>
    cases hu with
    | var w => exact absurd hlabel hname.toList_ne_nil
    | con => exact absurd hr' (by rw [show r' = _ from hbody.symm]; simp [Ended, body])
    | app hname' hargs' =>
      simp only [body, List.cons_append, List.append_assoc, List.nil_append, List.cons.injEq,
        true_and] at hbody
      obtain ⟨rfl, hrest⟩ := ih _ List.mem_cons_self (hargs _ List.mem_cons_self)
        (hargs' _ List.mem_cons_self) (ended_textRest _ r) (ended_textRest _ r') hbody
      obtain ⟨rfl, rfl⟩ := textRest_append_inj (fun a ha => ih a (List.mem_cons_of_mem _ ha)
        (hargs a (List.mem_cons_of_mem _ ha))) (fun b hb => hargs' b (List.mem_cons_of_mem _ hb))
        hrest
      exact ⟨by rw [String.toList_inj.1 hlabel], rfl⟩
    | fn => exact absurd hlabel hname.toList_ne_nil
  | fn arg result iharg ihresult =>
    intro u r r' hu hr hr' h
    obtain ⟨hlabel, hbody⟩ := ht.label_body_inj hu hr hr' h
    cases ht with | fn harg hresult =>
    cases hu with
    | var w => simp [body] at hbody
    | con hname | app hname => exact absurd hlabel.symm hname.toList_ne_nil
    | fn harg' hresult' =>
      simp only [body, List.cons_append, List.append_assoc, List.cons.injEq, true_and] at hbody
      obtain ⟨rfl, hrest⟩ := iharg harg harg' (by simp [Ended]) (by simp [Ended]) hbody
      simp only [List.cons.injEq, true_and] at hrest
      obtain ⟨rfl, rfl⟩ := ihresult hresult hresult' hr hr' hrest
      exact ⟨rfl, rfl⟩

end Ty

namespace Table

variable {t t' : Table} {a b e f : Ty}

/-! ## Mismatches -/

theorem form_ne_of_mismatch (ha : a.isVar = false) (hb : b.isVar = false) (hne : a.form ≠ b.form)
    (h : t.mismatch a b = .stopped (.clash (.mismatch e f)) t') : e.form ≠ f.form := by
  simp only [mismatch, proceed] at h
  split at h
  · next e' he =>
    split at h
    · next f' hf =>
      cases h
      rwa [Ty.form_of_bindVars ha he, Ty.form_of_bindVars hb hf]
    · cases h
  · cases h

theorem assign_ne_mismatch : t.assign v ty ≠ .stopped (.clash (.mismatch e f)) t' := by
  intro h
  simp only [assign, proceed] at h
  split at h
  · split at h <;> cases h
  · cases h

/-- The loop reports a mismatch only of two types with different outermost forms. -/
theorem form_ne_of_ends {pairs : List (Ty × Ty)}
    (h : Ends unifyRound (t, pairs) (.stopped (.clash (.mismatch e f)) t')) : e.form ≠ f.form := by
  generalize hs : (t, pairs) = s at h
  generalize ho : Outcome.stopped (.clash (.mismatch e f)) t' = o at h
  induction h generalizing t pairs with
  | next hround _ ih => exact ih rfl ho
  | stop hround =>
    subst hs ho
    cases pairs with
    | nil => cases hround
    | cons pair rest =>
      simp only [unifyRound] at hround
      split at hround
      · rcases compareRound_eq_clash hround with ⟨ha, hb, hne, hmismatch⟩ | ⟨v, ty, -, -, hassign⟩
        · exact form_ne_of_mismatch ha hb hne hmismatch
        · exact absurd hassign assign_ne_mismatch
      · cases hround
      · cases hround

end Table

/-! ## The types of blocks -/

namespace Ty

/-- Instantiating a legible type by legible types leaves it legible. -/
theorem Legible.subst {σ : Nat → Ty} (h : ty.Legible) (hσ : ∀ v, (σ v).Legible) :
    (ty.subst σ).Legible := by
  induction h with
  | var v => simpa using hσ v
  | con h => simpa using Legible.con h
  | app h _ ih => simpa using Legible.app h (by simpa using ih)
  | fn _ _ iharg ihresult => simpa using iharg.fn ihresult

theorem legible_list (h : a.Legible) : (list a).Legible :=
  .app (isName_of_alphanum (by decide) (by decide)) (by simpa using h)

theorem legible_pair {b : Ty} (ha : a.Legible) (hb : b.Legible) : (pair a b).Legible :=
  .app (isName_of_alphanum (by decide) (by decide)) (by simpa using ⟨ha, hb⟩)

theorem legible_int : int.Legible := .con (isName_of_alphanum (by decide) (by decide))

theorem legible_float : float.Legible := .con (isName_of_alphanum (by decide) (by decide))

theorem legible_bool : bool.Legible := .con (isName_of_alphanum (by decide) (by decide))

end Ty

/-- The types that a kind gives to sockets and to what its blocks declare. -/
def Kind.types (k : Kind) : List Ty :=
  k.signature.binder.toList ++ k.signature.inputs.map Prod.snd ++ k.signature.items.toList ++
    k.signature.output.toList

theorem Kind.legible_types (k : Kind) : ∀ ty ∈ k.types, ty.Legible := by
  cases k <;> simp [types, signature, Ty.legible_int, Ty.legible_float, Ty.legible_bool,
    Ty.Legible.var, Ty.legible_list, Ty.legible_pair, Ty.Legible.fn]

/-- **The text of a type determines it.**  Legible types with one text are equal, and all types that
kinds give, with legible types for their variables, are legible; so a mismatch of legible types in a
reachable context does not show one text twice. -/
theorem Ty.text_determines :
    (∀ {t u : Ty}, t.Legible → u.Legible → t.text = u.text → t = u) ∧
      (∀ (k : Kind) (σ : Nat → Ty), (∀ v, (σ v).Legible) → ∀ ty ∈ k.types, (ty.subst σ).Legible) ∧
      ∀ {c : Context}, c.Reachable → ∀ {a b expected found : Ty} {origin origin' : Origin},
        (c.unify a b origin).1 = .ok (some ⟨.mismatch expected found, origin'⟩) →
        expected.Legible → found.Legible → expected.text ≠ found.text := by
  have hend : Ended [] := by simp [Ended]
  have hinj : ∀ {t u : Ty}, t.Legible → u.Legible → t.text = u.text → t = u := fun ht hu h =>
    (ht.readable hu hend hend (by rw [h])).1
  refine ⟨hinj, fun k σ hσ ty hty => (k.legible_types ty hty).subst hσ, ?_⟩
  intro c hc a b expected found origin origin' hclash hexpected hfound heq
  have hends := hc.sound.ends_unify a b
  rw [Context.unify] at hclash
  split at hclash
  · cases hclash
  · next hstop =>
    cases hclash
    rw [hstop] at hends
    exact Table.form_ne_of_ends hends (by rw [hinj hexpected hfound heq])
  · cases hclash

/-- A function from lists of integers and one from lists of truth values, each with its result
unknown. -/
theorem Ty.text_determines_lists :
    (Ty.fn (.list .int) (.var 1)).text = "(List<Int>) -> ?1" ∧
      (∀ u : Ty, u.Legible → u.text = "(List<Int>) -> ?1" → u = .fn (.list .int) (.var 1)) ∧
      Ty.int.text ≠ Ty.bool.text := by
  have hlegible : (Ty.fn (.list .int) (.var 1)).Legible := .fn (legible_list legible_int) (.var 1)
  obtain ⟨hinj, -, hmismatch⟩ := text_determines
  refine ⟨by decide +kernel, fun u hu h => hinj hu hlegible (h.trans (by decide +kernel)), ?_⟩
  have hclash : (Context.listContext.unify (.pair (.var 0) (.list .int))
      (.pair (.list (.var 1)) (.list .bool)) .builtin).1 =
      .ok (some ⟨.mismatch .int .bool, .builtin⟩) := rfl
  exact hmismatch ⟨_, rfl⟩ hclash legible_int legible_bool

end BlockGraph
