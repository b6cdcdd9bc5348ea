import Drafting.Proofs.Exact.Printed
import Drafting.Proofs.Formula.Completion
import Drafting.Proofs.Formula.Tokens

namespace Drafting

/-!
# Where a syntax error is reported

A text whose characters are tokens, but which is not a formula, is reported faulty at its first
token that cannot be right; the end of the text counts as a token.  The tokens in front of it are
the first ones of a text that is read, and the tokens up to it are the first ones of no such text.

* `TokenizedText.marks`, `TokenizedText.places` — the tokens and the end, and where they stand;
* `Reader.Steps.exists_writes` — tokens that are read can be written;
* `Formula.Viable`, `Formula.Hopeless` — tokens that a formula can begin with, and that none can;
* `Formula.ofText_error_position` — the place of a syntax error.
-/

variable {F : Type}

namespace TokenizedText

/-- The tokens of a text, and `none` for its end. -/
def marks (text : TokenizedText F) : List (Option (Token F)) :=
  (text.tokens.map (·.token)).map some ++ [none]

/-- Where the tokens of a text stand, and where it ends. -/
def places (text : TokenizedText F) : List Position :=
  text.tokens.map (·.position) ++ [text.finish]

end TokenizedText

/-! ### Texts for tokens -/

namespace Lexer

variable [Scalar F] {cs : List Char} {ts : List (Token F)}

/-- A plain name, with a blank behind it. -/
theorem Writes.plainSymbol {name : String} (hname : IsPlainName name.toList) (h : Writes cs ts) :
    Writes (name.toList ++ ' ' :: cs) (.symbol name :: ts) := by
  have blank : Text.isBlank ' ' = true := by decide
  have written : Writes _ (_ : List (Token F)) :=
    .symbol hname.isName (follows_blank blank).endsName (.blank blank h)
  rwa [show String.ofList _ = name from hname.asciiFold_eq] at written

/-- A plain name, with a parenthesis behind it. -/
theorem Writes.plainCall {name : String} (hname : IsPlainName name.toList)
    (h : Writes ('(' :: cs) ts) : Writes (name.toList ++ '(' :: cs) (.call name :: ts) := by
  have written : Writes _ (_ : List (Token F)) := .call hname.isName h
  rwa [show String.ofList _ = name from hname.asciiFold_eq] at written

/-- The value of a numeral, in positional notation with a blank behind it. -/
theorem Writes.plainNumber (m p : Nat) (h : Writes cs ts) :
    Writes ((⟨m, -p⟩ : Decimal).plainChars ++ ' ' :: cs)
      (.number (Scalar.ofDecimal m p) :: ts) := by
  have blank : Text.isBlank ' ' = true := by decide
  have written : Writes _ (_ : List (Token F)) :=
    .number (Decimal.isDecimal_plainChars ⟨m, -p⟩) (follows_blank blank).endsNumeral
      (.blank blank h)
  obtain ⟨digits, places⟩ := (⟨m, -p⟩ : Decimal).ofChars_plainChars
  rw [digits, places] at written
  simpa using written

end Lexer

namespace Reader

open Lexer

variable [Scalar F] {r r' : Reader F} {ts : List (Token F)}

/-- **Tokens that are read can be written**, unless the last one is a call: the call that a reader
    is in the middle of goes on with the parenthesis that comes first. -/
theorem Steps.exists_writes (h : Steps r ts r') (hplain : ∀ t ∈ ts, t.IsPlain)
    (hend : r'.phase ≠ .opening) :
    ∃ cs, Writes cs ts ∧ (r.phase = .opening → ∃ rest, cs = '(' :: rest) := by
  induction h with
  | nil => exact ⟨[], .nil, fun hphase => absurd hphase hend⟩
  | cons first _ ih =>
    obtain ⟨ht, hrest⟩ := List.forall_mem_cons.mp hplain
    obtain ⟨cs, hcs, opening⟩ := ih hrest hend
    cases first with
    | number x hphase =>
      obtain ⟨m, p, rfl⟩ := ht
      exact ⟨_, .plainNumber m p hcs, by rintro ⟨⟩; cases hphase⟩
    | symbol name hphase => exact ⟨_, .plainSymbol ht hcs, by rintro ⟨⟩; cases hphase⟩
    | startCall name hphase =>
      obtain ⟨rest, rfl⟩ := opening rfl
      exact ⟨_, .plainCall ht hcs, by rintro ⟨⟩; cases hphase⟩
    | openGroup | openCall => exact ⟨'(' :: cs, .single rfl hcs, fun _ => ⟨cs, rfl⟩⟩
    | operator op => exact ⟨_, .operator op hcs, nofun⟩
    | noArguments | closeGroup | closeCall => exact ⟨')' :: cs, .single rfl hcs, nofun⟩
    | comma => exact ⟨',' :: cs, .single rfl hcs, nofun⟩

/-- Tokens that a formula is read from are the tokens of a text. -/
theorem Steps.exists_text {e : Formula F} (h : Steps start ts r) (hfinish : r.finish = .ok e)
    (hplain : ∀ t ∈ ts, t.IsPlain) :
    ∃ (text : String) (tokenized : TokenizedText F), tokenize text = .ok tokenized ∧
      Formula.ofText text = .ok e ∧ tokenized.tokens.map (·.token) = ts := by
  have hend : r.phase ≠ .opening := by
    intro hphase
    rw [finish, hphase] at hfinish
    cases hfinish
  obtain ⟨cs, hcs, -⟩ := h.exists_writes hplain hend
  rw [← String.toList_ofList (l := cs)] at hcs
  obtain ⟨tokenized, htokenized, htokens⟩ := hcs.tokens Lexer.start rfl
  obtain ⟨spells, nests⟩ := Formula.read_eq_ok_iff.mp ⟨r, h, hfinish⟩
  have hread := Formula.ofText_of_writes hcs spells nests
  exact ⟨String.ofList cs, tokenized, htokenized, hread, htokens⟩

/-- The completion holds no numbers, and one name. -/
theorem isPlain_of_mem_completion {t : Token F} (h : t ∈ r.completion) : t.IsPlain := by
  have name : IsPlainName "x".toList := by decide
  rcases List.mem_append.mp h with h | h
  · cases hphase : r.phase with
    | operand | arguments =>
      rw [hphase] at h
      obtain rfl := List.mem_singleton.mp h
      exact name
    | opening =>
      rw [hphase] at h
      obtain rfl | h := List.mem_cons.mp h
      · trivial
      · obtain rfl := List.mem_singleton.mp h
        exact name
    | complete e =>
      rw [hphase] at h
      cases h
  · rw [List.eq_of_mem_replicate h]
    trivial

end Reader

namespace Formula

/-! ### Fronts of formulas -/

/-- Some text that is read begins with these tokens. -/
def Viable [Scalar F] (front : List (Option (Token F))) : Prop :=
  ∃ (text : String) (tokenized : TokenizedText F) (e : Formula F),
    tokenize text = .ok tokenized ∧ ofText text = .ok e ∧ front <+: tokenized.marks

/-- No tokens that are read, whether a text has them or not, begin with these tokens. -/
def Hopeless (front : List (Option (Token F))) : Prop :=
  ∀ (tokenized : TokenizedText F) (e : Formula F),
    ofTokens tokenized = .ok e → ¬ front <+: tokenized.marks

variable {front front' marks : List (Option (Token F))} {m : Option (Token F)}
  {ts : List (Token F)} {r : Reader F}

/-- **What the reader refuses is at fault.** -/
theorem hopeless_of_refuses (h : Reader.Steps Reader.start ts r) (hm : r.Refuses m) :
    Hopeless (ts.map some ++ [m]) := by
  intro tokenized e hread
  obtain ⟨r', hsteps, hfinish⟩ := read_eq_ok_iff.mpr (ofTokens_eq_ok_iff.mp hread)
  exact hm.not_begins h hsteps hfinish

/-- Where tokens are not read, one of them is refused or the end is, and the error shows there. -/
theorem exists_refuses {text : TokenizedText F} {error : SyntaxError F}
    (h : ofTokens text = .error error) :
    ∃ ts m r, Reader.Steps Reader.start ts r ∧ r.Refuses m ∧ ts.map some ++ [m] <+: text.marks ∧
      text.places[ts.length]? = some error.position := by
  rw [ofTokens] at h
  cases hrun : Reader.start.run text.tokens with
  | error fault =>
    rw [hrun] at h
    cases h
    -- a token is refused
    obtain ⟨front, t, back, r, hsplit, hsteps, refused, hplace⟩ := Reader.exists_refuses hrun
    refine ⟨_, _, r, hsteps, refused, ?_, ?_⟩
    · rw [TokenizedText.marks, hsplit]
      simp
    · rw [TokenizedText.places, hsplit, ← hplace]
      simp
  | ok r =>
    rw [hrun] at h
    have ended : (r.finish.mapError fun fault => SyntaxError.mk fault text.finish) =
        .error error := h
    cases hfinish : r.finish with
    | ok e =>
      rw [hfinish] at ended
      cases ended
    | error fault =>
      rw [hfinish] at ended
      cases ended
      -- all tokens are taken, and the end is refused
      exact ⟨_, none, r, Reader.run_eq_ok.mp hrun, ⟨fault, hfinish⟩, List.prefix_rfl,
        by simp [TokenizedText.places]⟩

variable [Scalar F]

theorem Viable.mono (h : Viable front') (hle : front <+: front') : Viable front := by
  obtain ⟨text, tokenized, e, htokens, hread, begins⟩ := h
  exact ⟨text, tokenized, e, htokens, hread, hle.trans begins⟩

theorem Hopeless.not_viable (h : Hopeless front) : ¬ Viable front := by
  rintro ⟨text, tokenized, e, htokens, hread, begins⟩
  refine h tokenized e ?_ begins
  rwa [ofText, htokens] at hread

/-- **What the reader takes is not at fault.** -/
theorem viable_of_steps (h : Reader.Steps Reader.start ts r) (hplain : ∀ t ∈ ts, t.IsPlain) :
    Viable (ts.map some) := by
  obtain ⟨r', e, completion, hfinish⟩ := r.exists_steps_completion
  have plain : ∀ t ∈ ts ++ r.completion, t.IsPlain :=
    List.forall_mem_append.mpr ⟨hplain, fun t ht => Reader.isPlain_of_mem_completion ht⟩
  obtain ⟨text, tokenized, htokenized, hread, htokens⟩ :=
    (h.append completion).exists_text hfinish plain
  refine ⟨text, tokenized, e, htokenized, hread, ?_⟩
  rw [TokenizedText.marks, htokens]
  simp

/-- Between what is viable and what is hopeless there is one token. -/
theorem viable_hopeless_iff (hviable : Viable front) (hhopeless : Hopeless (front ++ [m]))
    (hbegins : front ++ [m] <+: marks) (j : Nat) :
    Viable (marks.take j) ∧ Hopeless (marks.take (j + 1)) ↔ j = front.length := by
  have before : marks.take front.length = front :=
    (List.prefix_iff_eq_take.mp ((List.prefix_append front [m]).trans hbegins)).symm
  have upto : marks.take (front.length + 1) = front ++ [m] := by
    simpa using (List.prefix_iff_eq_take.mp hbegins).symm
  constructor
  · rintro ⟨fronts, fails⟩
    rcases Nat.lt_trichotomy j front.length with hlt | heq | hgt
    · have shorter : marks.take (j + 1) <+: marks.take front.length :=
        List.take_prefix_take_left hlt
      rw [before] at shorter
      exact absurd (hviable.mono shorter) fails.not_viable
    · exact heq
    · have longer : marks.take (front.length + 1) <+: marks.take j :=
        List.take_prefix_take_left hgt
      rw [upto] at longer
      exact absurd (fronts.mono longer) hhopeless.not_viable
  · rintro rfl
    rw [before, upto]
    exact ⟨hviable, hhopeless⟩

/-! ### Texts -/

/-- **A syntax error is reported at the first token that cannot be right.**  If a text has tokens
    but is not read, then the error stands at the one token, or the end of the text, for which the
    tokens in front of it are the first ones of a text that is read, but no tokens that are read
    begin with the tokens up to it. -/
theorem ofText_error_position {text : String} {tokenized : TokenizedText F}
    {error : SyntaxError F} (h : tokenize text = .ok tokenized)
    (herror : ofText text = .error error) :
    ∃ k, (∀ j, Viable (tokenized.marks.take j) ∧ Hopeless (tokenized.marks.take (j + 1)) ↔
      j = k) ∧ tokenized.places[k]? = some error.position := by
  rw [ofText, h] at herror
  obtain ⟨ts, m, r, hsteps, hrefuses, hbegins, hplace⟩ := exists_refuses herror
  have plain : ∀ t ∈ ts, t.IsPlain := by
    intro t ht
    have mark : some t ∈ tokenized.marks :=
      hbegins.subset (List.mem_append_left _ (List.mem_map_of_mem ht))
    refine (Lexer.writes_of_tokenize h).plain t ?_
    simpa [TokenizedText.marks] using mark
  have viable := viable_of_steps hsteps plain
  have hopeless := hopeless_of_refuses hsteps hrefuses
  refine ⟨ts.length, fun j => ?_, hplace⟩
  rw [viable_hopeless_iff viable hopeless hbegins, List.length_map]

/-- The tokens of `2*(x,3)`, with a line feed in front of the parenthesis. -/
def brokenLine : TokenizedText Float where
  tokens := [⟨.number (Scalar.ofDecimal 2 0), ⟨1, 1⟩⟩, ⟨.operator .mul, ⟨1, 2⟩⟩,
    ⟨.leftParen, ⟨2, 1⟩⟩, ⟨.symbol "x", ⟨2, 2⟩⟩, ⟨.comma, ⟨2, 3⟩⟩,
    ⟨.number (Scalar.ofDecimal 3 0), ⟨2, 4⟩⟩, ⟨.rightParen, ⟨2, 5⟩⟩]
  finish := ⟨2, 6⟩

/-- The comma is the fifth token, at the third place of the second line. -/
theorem ofText_error_position_brokenLine :
    tokenize "2*\n(x,3)" = .ok brokenLine ∧
      ofText "2*\n(x,3)" = .error (⟨.missing ')', ⟨2, 3⟩⟩ : SyntaxError Float) ∧
      Viable (brokenLine.marks.take 4) ∧ Hopeless (brokenLine.marks.take 5) := by
  have htokens : tokenize "2*\n(x,3)" = .ok brokenLine := by rfl
  have herror : ofText "2*\n(x,3)" = .error (⟨.missing ')', ⟨2, 3⟩⟩ : SyntaxError Float) := by rfl
  obtain ⟨k, position, hplace⟩ := ofText_error_position htokens herror
  have inside : k < brokenLine.places.length := (List.getElem?_eq_some_iff.mp hplace).1
  have fifth : ∀ k < 8, brokenLine.places[k]? = some ⟨2, 3⟩ → k = 4 := by decide
  obtain rfl := fifth k inside hplace
  exact ⟨htokens, herror, (position 4).mpr rfl⟩

end Formula

end Drafting
