import Drafting.Proofs.Formula.Lexing
import Drafting.Text.Lowercase

namespace Drafting

/-!
# Texts put together from parts

A text of a formula may be put together from the texts of its parts, as long as no part ends with a
name or numeral that the next one continues.

* `Scalar.ReadsBack` — a number that is read back from its text;
* `Formula.WrittenAs` — characters that write a formula, wherever they stand;
* `Formula.WrittenAs.operation`, `group`, `call` — how parts are put together;
* `Formula.WrittenAs.ofText_eq` — what is written in this way is read as the formula.
-/

namespace Lexer

/-- Nothing that could continue a name or a numeral, or make a call of a name. -/
def Follows (cs : List Char) : Prop := ∀ c ∈ cs.head?, isNameChar c = false ∧ c ≠ '(' ∧ c ≠ '.'

/-- A text may follow a name or numeral if its first character can be part of neither. -/
theorem follows_cons {c : Char} {cs : List Char}
    (h : isNameChar c = false ∧ c ≠ '(' ∧ c ≠ '.') : Follows (c :: cs) := by
  intro d hd
  obtain rfl : c = d := by simpa using hd
  exact h

/-- What follows a name ends a numeral, too. -/
theorem isDigit_of_isNameChar {c : Char} (h : isNameChar c = false) : c.isDigit = false := by
  simp [isNameChar, Char.isAlphanum] at h
  exact h.1.2

theorem Follows.endsName {cs : List Char} (h : Follows cs) :
    ∀ c ∈ cs.head?, isNameChar c = false ∧ c ≠ '(' :=
  fun c hc => ⟨(h c hc).1, (h c hc).2.1⟩

theorem Follows.endsNumeral {cs : List Char} (h : Follows cs) :
    ∀ c ∈ cs.head?, c.isDigit = false ∧ c ≠ '.' :=
  fun c hc => ⟨isDigit_of_isNameChar (h c hc).1, (h c hc).2.2⟩

/-- A blank follows everything. -/
theorem follows_blank {c : Char} {cs : List Char} (h : Text.isBlank c = true) :
    Follows (c :: cs) := by
  have visible (hc : 33 ≤ c.toNat ∧ c.toNat ≤ 126) : False := by
    rw [isBlank_eq_false hc.1 hc.2] at h
    cases h
  refine follows_cons ⟨?_, ?_, ?_⟩
  · rw [Bool.eq_false_iff]
    intro hname
    simp only [isNameChar, Char.isAlphanum, Bool.or_eq_true, beq_iff_eq] at hname
    rcases hname with (hname | hname) | rfl
    · exact visible (by have := isNameStart_iff.mp hname; omega)
    · exact visible (by have := isDigit_iff.mp hname; omega)
    · exact visible (by decide)
  · rintro rfl
    exact visible (by decide)
  · rintro rfl
    exact visible (by decide)

/-- So does an operator. -/
theorem follows_operator (op : Operator) (cs : List Char) : Follows (op.char :: cs) :=
  follows_cons (by cases op <;> decide)

variable {F : Type} [Scalar F] {cs : List Char} {ts : List (Token F)}

/-- Blanks in front of a text change nothing. -/
theorem Writes.blanks {blanks : List Char} (hblanks : ∀ c ∈ blanks, Text.isBlank c = true)
    (h : Writes cs ts) : Writes (blanks ++ cs) ts := by
  induction blanks with
  | nil => exact h
  | cons c rest ih =>
    obtain ⟨hc, hrest⟩ := List.forall_mem_cons.mp hblanks
    exact .blank hc (ih hrest)

theorem Writes.operator (op : Operator) (h : Writes cs ts) :
    Writes (op.char :: cs) (.operator op :: ts) :=
  .single (by simp [singleToken?, op.ofChar?_char]) h

end Lexer

section Numbers

variable {F : Type} [Scalar F]

/-- The text of a number gives the number back when it is read as a numeral. -/
def Scalar.ReadsBack (x : F) : Prop :=
  let numeral := Numeral.ofChars (Scalar.text x).toList
  Scalar.ofDecimal numeral.digits numeral.places = x

instance [DecidableEq F] (x : F) : Decidable (Scalar.ReadsBack x) :=
  inferInstanceAs (Decidable (_ = x))

end Numbers

namespace Formula

open Lexer

variable {F : Type} [Scalar F] {level : Level} {depth : Nat} {cs ds : List Char}
  {e l r : Formula F}

/-- The characters write a formula of a level behind `depth` open parentheses, in front of whatever
    may follow. -/
def WrittenAs (level : Level) (depth : Nat) (cs : List Char) (e : Formula F) : Prop :=
  ∃ us, Spells level us e ∧ NestsWithin maxNesting depth us ∧
    ∀ rest ts, Follows rest → Writes rest ts → Writes (cs ++ rest) (us ++ ts)

namespace WrittenAs

theorem loosen {level' : Level} (h : WrittenAs level' depth cs e)
    (hle : level.precedence ≤ level'.precedence) : WrittenAs level depth cs e := by
  obtain ⟨us, spells, nests, writes⟩ := h
  exact ⟨us, spells.loosen hle, nests, writes⟩

theorem symbol {name : String} (h : IsName name.toList) :
    WrittenAs .atom depth name.toList (.symbol (Text.asciiFold name) : Formula F) := by
  refine ⟨_, .symbol _, .single nofun, fun rest ts hfollows hrest => ?_⟩
  exact .symbol h hfollows.endsName hrest

/-- A decimal is a spelling of its value. -/
theorem number (h : IsDecimal cs) :
    WrittenAs .atom depth cs
      (.number (Scalar.ofDecimal (Numeral.ofChars cs).digits (Numeral.ofChars cs).places) :
        Formula F) := by
  refine ⟨_, .number _, .single nofun, fun rest ts hfollows hrest => ?_⟩
  exact .number h hfollows.endsNumeral hrest

/-- A number that is written as a numeral and read back. -/
theorem printed {x : F} (h : IsDecimal (Scalar.text x).toList) (hreads : Scalar.ReadsBack x) :
    WrittenAs .atom depth (Scalar.text x).toList (.number x : Formula F) := by
  have written : WrittenAs .atom depth _ (_ : Formula F) := .number h
  rwa [show Scalar.ofDecimal _ _ = x from hreads] at written

/-- What stands in parentheses is written in front of a closing one. -/
theorem closed {us : List (Token F)}
    (writes : ∀ rest ts, Follows rest → Writes rest ts → Writes (cs ++ rest) (us ++ ts))
    {rest : List Char} {ts : List (Token F)} (hrest : Writes rest ts) :
    Writes ('(' :: (cs ++ [')']) ++ rest) (.leftParen :: (us ++ [.rightParen]) ++ ts) := by
  have inner := writes (')' :: rest) (.rightParen :: ts) (follows_cons (by decide))
    (.single rfl hrest)
  simpa using Writes.single (c := '(') (t := .leftParen) rfl inner

/-- Parentheses leave no trace. -/
theorem group (h : WrittenAs .sum (depth + 1) cs e) (hdepth : depth < maxNesting) :
    WrittenAs .atom depth ('(' :: (cs ++ [')'])) e := by
  obtain ⟨us, spells, nests, writes⟩ := h
  exact ⟨_, .group spells, nests.paren hdepth spells.balanced, fun rest ts _ => closed writes⟩

/-- The arguments of a call, with a comma and a blank between them. -/
theorem arguments {args : List (List Char × Formula F)}
    (h : ∀ a ∈ args, WrittenAs .sum depth a.1 a.2) :
    ∃ spelled : List (List (Token F) × Formula F),
      spelled.map Prod.snd = args.map Prod.snd ∧ (∀ a ∈ spelled, Spells .sum a.1 a.2) ∧
      NestsWithin maxNesting depth ([.comma].intercalate (spelled.map Prod.fst)) ∧
      ∀ rest ts, Follows rest → Writes rest ts →
        Writes ([',', ' '].intercalate (args.map Prod.fst) ++ rest)
          ([.comma].intercalate (spelled.map Prod.fst) ++ ts) := by
  induction args with
  | nil => exact ⟨[], rfl, nofun, .nil, fun _ _ _ hrest => hrest⟩
  | cons first others ih =>
    obtain ⟨⟨us, spells, nests, writes⟩, hothers⟩ := List.forall_mem_cons.mp h
    obtain ⟨spelled, hsnd, hspells, hnests, hwrites⟩ := ih hothers
    refine ⟨(us, first.2) :: spelled, by simp [hsnd],
      List.forall_mem_cons.mpr ⟨spells, hspells⟩, ?_⟩
    cases others with
    | nil =>
      obtain rfl : spelled = [] := by simpa using hsnd
      exact ⟨by simpa using nests, by simpa using writes⟩
    | cons second others =>
      obtain ⟨next, spelled, rfl⟩ := List.exists_cons_of_ne_nil (l := spelled) (by
        rintro rfl
        cases hsnd)
      rw [List.map_cons, List.map_cons, List.intercalate_cons_cons, ← List.map_cons]
      refine ⟨?_, fun rest ts hfollows hrest => ?_⟩
      · -- the comma leaves the depth as it is
        have comma := nests.append spells.balanced (.single (t := .comma) nofun)
        refine comma.append ?_ hnests
        simp [spells.balanced, Token.opens, Token.closes]
      · -- the comma ends the first argument
        have behind := Writes.blank (c := ' ') (by decide) (hwrites rest ts hfollows hrest)
        have whole := writes _ _ (follows_cons (c := ',') (by decide)) (.single rfl behind)
        simpa using whole

/-- A call. -/
theorem call {name : String} (hname : IsName name.toList) {args : List (List Char × Formula F)}
    (h : ∀ a ∈ args, WrittenAs .sum (depth + 1) a.1 a.2) (hdepth : depth < maxNesting) :
    WrittenAs .atom depth
      (name.toList ++ '(' :: ([',', ' '].intercalate (args.map Prod.fst) ++ [')']))
      (.call (Text.asciiFold name) (args.map Prod.snd)) := by
  obtain ⟨spelled, hsnd, spells, nests, writes⟩ := arguments h
  have balanced := Spells.balanced_intercalate
    (List.forall_mem_map.mpr fun a ha => (spells a ha).balanced)
  have inside := (NestsWithin.single (t := .call (Text.asciiFold name)) nofun).append rfl
    (nests.paren hdepth balanced)
  refine ⟨_, hsnd ▸ .call (Text.asciiFold name) spelled spells, inside, fun rest ts _ hrest => ?_⟩
  simpa [Text.asciiFold] using Writes.call hname (closed writes hrest)

/-- An operation, with blanks around the operator. -/
theorem operationWithBlanks (op : Operator) (before after : List Char)
    (hbefore : ∀ c ∈ before, Text.isBlank c = true) (hafter : ∀ c ∈ after, Text.isBlank c = true)
    (hl : WrittenAs op.level depth cs l) (hr : WrittenAs op.rightLevel depth ds r) :
    WrittenAs op.level depth (cs ++ (before ++ op.char :: (after ++ ds))) (.binary op l r) := by
  obtain ⟨us, spells, nests, writes⟩ := hl
  obtain ⟨us', spells', nests', writes'⟩ := hr
  have operator := (NestsWithin.single (t := .operator op) nofun).append rfl nests'
  refine ⟨_, spells.operation op spells', nests.append spells.balanced operator, ?_⟩
  intro rest ts hfollows hrest
  -- from the right to the left: the second operand, the operator, the first operand
  have right := (writes' rest ts hfollows hrest).blanks hafter
  have middle := (right.operator op).blanks hbefore
  have separated : Follows (before ++ op.char :: (after ++ (ds ++ rest))) := by
    cases before with
    | nil => exact follows_operator op _
    | cons c before => exact follows_blank (hbefore c List.mem_cons_self)
  simpa using writes _ _ separated middle

theorem operation (op : Operator) (hl : WrittenAs op.level depth cs l)
    (hr : WrittenAs op.rightLevel depth ds r) :
    WrittenAs op.level depth (cs ++ op.char :: ds) (.binary op l r) :=
  operationWithBlanks op [] [] nofun nofun hl hr

/-- Blanks around an operator change nothing. -/
theorem spacedOperation (op : Operator) (hl : WrittenAs op.level depth cs l)
    (hr : WrittenAs op.rightLevel depth ds r) :
    WrittenAs op.level depth (cs ++ ' ' :: op.char :: ' ' :: ds) (.binary op l r) :=
  have blank : ∀ c ∈ [' '], Text.isBlank c = true := List.forall_mem_singleton.mpr (by decide)
  operationWithBlanks op [' '] [' '] blank blank hl hr

/-- **What is written is read.** -/
theorem ofText_eq {text : String} (h : WrittenAs .sum 0 text.toList e) : ofText text = .ok e := by
  obtain ⟨us, spells, nests, writes⟩ := h
  have whole := writes [] [] nofun .nil
  rw [List.append_nil, List.append_nil] at whole
  exact ofText_of_writes whole spells nests

end WrittenAs

end Formula

end Drafting
