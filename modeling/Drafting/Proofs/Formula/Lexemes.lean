import Mathlib.Data.List.Chain
import Drafting.Proofs.Exact.Printed

namespace Drafting

/-!
# Texts cut into lexemes

A text that the lexer gets through can be cut into blanks and lexemes: numerals, identifiers,
operators, parentheses and commas.  Lexemes may touch, unless the second one starts with a character
that the first one goes on with.  Here such texts are put together from their pieces, and the lexer
is shown to take them apart again, with the place of each token.

* `Lexeme`, `TextPiece`, `Segmentation` — the pieces of a text;
* `Position.behind` — the place behind some characters, counted from the start of the text;
* `Lexer.run_lexeme`, `Lexer.run_pieces` — the lexer on one lexeme, and on many pieces;
* `Segmentation.tokenize_text` — the tokens of a text that was put together.
-/

open Lexer

/-! ### Places -/

/-- The place behind the first characters of a text: lines end with a line feed. -/
def Position.behind (cs : List Char) : Position where
  line := 1 + cs.count '\n'
  column := 1 + (cs.reverse.takeWhile (· ≠ '\n')).length

namespace Position

/-- The position behind a text with one more character is the next one. -/
theorem behind_concat (cs : List Char) (c : Char) : behind (cs ++ [c]) = (behind cs).past c := by
  unfold past
  split
  · next h => simp [behind, h, Nat.add_comm]
  · next h => simp [behind, h, Nat.add_comm]

/-- Places are counted on from one character to the next. -/
theorem pastAll_behind (before cs : List Char) :
    (behind before).pastAll cs = behind (before ++ cs) := by
  induction cs generalizing before with
  | nil => rw [List.append_nil]; rfl
  | cons c rest ih =>
    have next := ih (before ++ [c])
    rw [behind_concat, List.append_assoc] at next
    exact next

end Position

/-! ### Lexemes -/

/-- What a text of tokens consists of, blanks apart. -/
inductive Lexeme where
  | numeral (w : List Char) (hw : IsDecimal w)
  | identifier (w : List Char) (hw : IsName w)
  | operator (op : Operator)
  | leftParen
  | rightParen
  | comma

namespace Lexeme

/-- The characters of a lexeme. -/
def chars : Lexeme → List Char
  | numeral w _ | identifier w _ => w
  | operator op => [op.char]
  | leftParen => ['(']
  | rightParen => [')']
  | comma => [',']

/-- Could `c`, right behind the lexeme, be one more character of it? -/
def goesOn : Lexeme → Char → Bool
  | numeral .., c => c.isDigit || c == '.'
  | identifier .., c => isNameChar c
  | _, _ => false

/-- The digits of a numeral make up a number, and those behind its point are its decimal places. -/
def value {F : Type} [Scalar F] (w : List Char) : F :=
  Scalar.ofDecimal (Nat.ofDigitChars 10 (w.filter (· ≠ '.')) 0)
    (w.dropWhile (· ≠ '.')).tail.length

/-- The token that a lexeme in front of `next` stands for. -/
def token {F : Type} [Scalar F] (next : Option Char) : Lexeme → Token F
  | numeral w _ => .number (value w)
  | identifier w _ =>
    let name := String.ofList (w.map Char.toLower)
    if next = some '(' then .call name else .symbol name
  | operator op => .operator op
  | leftParen => .leftParen
  | rightParen => .rightParen
  | comma => .comma

/-- Every lexeme is written with at least one character. -/
theorem chars_ne_nil (l : Lexeme) : l.chars ≠ [] := by
  cases l with
  | numeral w hw =>
    obtain ⟨c, hc, -⟩ := hw.digit
    exact List.ne_nil_of_mem hc
  | identifier w hw => rintro rfl; exact hw
  | operator | leftParen | rightParen | comma => exact List.cons_ne_nil _ _

theorem ne_point_of_mem {cs : List Char} (h : '.' ∉ cs) : ∀ c ∈ cs, (c ≠ '.' : Bool) = true :=
  fun _ hc => decide_eq_true fun heq => h (heq ▸ hc)

/-- Digits without a point have no decimal places. -/
theorem value_digits {F : Type} [Scalar F] {ds : List Char} (h : '.' ∉ ds) :
    (value ds : F) = Scalar.ofDecimal (Nat.ofDigitChars 10 ds 0) 0 := by
  rw [value, List.filter_eq_self.mpr (ne_point_of_mem h),
    List.dropWhile_eq_nil_iff.mpr (ne_point_of_mem h)]
  rfl

/-- The value of a numeral with a point: its digits, with as many places as there are behind the
    point. -/
theorem value_point {F : Type} [Scalar F] {ds fs : List Char} (hds : '.' ∉ ds) (hfs : '.' ∉ fs) :
    (value (ds ++ '.' :: fs) : F) =
      Scalar.ofDecimal (Nat.ofDigitChars 10 (ds ++ fs) 0) fs.length := by
  rw [value, List.filter_append, List.filter_cons_of_neg (by simp),
    List.filter_eq_self.mpr (ne_point_of_mem hds), List.filter_eq_self.mpr (ne_point_of_mem hfs),
    List.dropWhile_append_of_pos (ne_point_of_mem hds), List.dropWhile_cons_of_neg (by simp),
    List.tail_cons]

/-- The lexer counts the digits of a numeral, and those behind the point. -/
theorem value_eq {F : Type} [Scalar F] {w : List Char} (h : IsDecimal w) :
    (value w : F) = Scalar.ofDecimal (Numeral.ofChars w).digits (Numeral.ofChars w).places := by
  have digits {ds : List Char} (hds : ds ⊆ w) (hpoint : '.' ∉ ds) :
      ∀ d ∈ ds, d.isDigit = true := fun d hd =>
    (h.chars d (hds hd)).resolve_right fun heq => hpoint (heq ▸ hd)
  by_cases hmem : '.' ∈ w
  · obtain ⟨ds, fs, rfl, hds⟩ := List.eq_append_cons_of_mem hmem
    have hfs : '.' ∉ fs := by
      have point := h.point
      rw [List.count_append, List.count_cons_self] at point
      exact List.count_eq_zero.mp (by omega)
    obtain ⟨whole, places⟩ := Numeral.ofChars_point (digits (List.subset_append_left _ _) hds)
      (digits (fun d hd => by simp [hd]) hfs)
    rw [whole, places, value_point hds hfs]
  · obtain ⟨whole, places⟩ := Numeral.ofChars_digits (digits (List.Subset.refl w) hmem)
    rw [whole, places, value_digits hmem]

end Lexeme

/-! ### Pieces of a text -/

/-- A piece of a text. -/
inductive TextPiece where
  | blank (c : Char) (hc : Text.isBlank c = true)
  | lexeme (l : Lexeme)

namespace TextPiece

/-- The characters of a piece. -/
def chars : TextPiece → List Char
  | blank c _ => [c]
  | lexeme l => l.chars

/-- Could `c`, right behind the piece, be one more character of it? -/
def goesOn : TextPiece → Char → Bool
  | blank .., _ => false
  | lexeme l, c => l.goesOn c

/-- Put next to each other, the pieces remain two. -/
def Apart (p q : TextPiece) : Prop := ∀ c ∈ q.chars.head?, p.goesOn c = false

/-- Every piece of a text has at least one character. -/
theorem chars_ne_nil (p : TextPiece) : p.chars ≠ [] := by
  cases p with
  | blank => exact List.cons_ne_nil _ _
  | lexeme l => exact l.chars_ne_nil

/-- The characters of some pieces. -/
def charsOf (ps : List TextPiece) : List Char := ps.flatMap chars

/-- The tokens of some pieces that stand between other characters, with their places. -/
def tokensOf {F : Type} [Scalar F] (before : List Char) :
    List TextPiece → (after : List Char) → List (PlacedToken F)
  | [], _ => []
  | .blank c _ :: rest, after => tokensOf (before ++ [c]) rest after
  | .lexeme l :: rest, after =>
    ⟨l.token (charsOf rest ++ after).head?, Position.behind before⟩ ::
      tokensOf (before ++ l.chars) rest after

/-- The last piece does not go on with what stands behind it. -/
def Stop (ps : List TextPiece) (cs : List Char) : Prop :=
  ∀ p ∈ ps.getLast?, ∀ c ∈ cs.head?, p.goesOn c = false

/-- Only the first character behind the pieces matters. -/
theorem Stop.append {ps : List TextPiece} {cs ds : List Char} (h : Stop ps cs) (hcs : cs ≠ []) :
    Stop ps (cs ++ ds) := by
  rw [Stop, List.head?_append_of_ne_nil _ hcs]
  exact h

theorem head?_charsOf_cons (p : TextPiece) (ps : List TextPiece) (cs : List Char) :
    (charsOf (p :: ps) ++ cs).head? = p.chars.head? := by
  rw [charsOf, List.flatMap_cons, List.append_assoc, List.head?_append_of_ne_nil _ p.chars_ne_nil]

/-- Another piece, in front of the others. -/
theorem isChain_cons_stop {p : TextPiece} {ps : List TextPiece} {cs : List Char}
    (h : (p :: ps).IsChain Apart) (hstop : Stop (p :: ps) cs) :
    (∀ c ∈ (charsOf ps ++ cs).head?, p.goesOn c = false) ∧ ps.IsChain Apart ∧ Stop ps cs := by
  obtain ⟨next, rest⟩ := List.isChain_cons.mp h
  cases ps with
  | nil => exact ⟨hstop p rfl, rest, nofun⟩
  | cons q ps =>
    refine ⟨?_, rest, fun r hr => hstop r (by rwa [List.getLast?_cons_cons])⟩
    rw [head?_charsOf_cons]
    exact next q rfl

end TextPiece

/-- A text cut into pieces. -/
structure Segmentation where
  pieces : List TextPiece
  apart : pieces.IsChain TextPiece.Apart

namespace Segmentation

/-- The characters of all pieces. -/
def chars (s : Segmentation) : List Char := TextPiece.charsOf s.pieces

/-- The text put together. -/
def text (s : Segmentation) : String := String.ofList s.chars

/-- The tokens of the text: one for each lexeme, in their order, with the place where it starts. -/
def tokens {F : Type} [Scalar F] (s : Segmentation) : List (PlacedToken F) :=
  TextPiece.tokensOf [] s.pieces []

end Segmentation

/-! ### The lexer on pieces -/

namespace Lexer

variable {F : Type} [Scalar F] {before cs : List Char}

/-- A character that is a token of its own. -/
theorem run_single {c : Char} {t : Token F} (h : singleToken? c = some t)
    (tokens : List (PlacedToken F)) :
    run ⟨.behind before, .none, tokens⟩ (c :: cs) =
      run ⟨.behind (before ++ [c]), .none, ⟨t, .behind before⟩ :: tokens⟩ cs := by
  have first : step ⟨.behind before, .none, tokens⟩ c =
      .ok ⟨.behind (before ++ [c]), .none, ⟨t, .behind before⟩ :: tokens⟩ := by
    rw [Position.behind_concat]
    exact begin_of_singleToken? h _
  rw [run_cons, first]
  rfl

/-- **One lexeme**, in front of what it does not go on with. -/
theorem run_lexeme (l : Lexeme) (hends : ∀ c ∈ cs.head?, l.goesOn c = false)
    (tokens : List (PlacedToken F)) :
    (run ⟨.behind before, .none, tokens⟩ (l.chars ++ cs) >>= finish) =
      (run ⟨.behind (before ++ l.chars), .none,
        ⟨l.token cs.head?, .behind before⟩ :: tokens⟩ cs >>= finish) := by
  cases l with
  | numeral w hw =>
    have stops : ∀ c ∈ cs.head?, c.isDigit = false ∧ c ≠ '.' := by
      simpa [Lexeme.goesOn] using hends
    have digit : (Numeral.ofChars w).hasDigit = true := hasDigit_foldl.mpr (.inr hw.digit)
    rw [Lexeme.chars, run_append, run_of_isDecimal rfl hw, Position.pastAll_behind]
    refine run_finish_of_complete ?_ rfl stops
    simp [complete, push, digit, Lexeme.token, Lexeme.value_eq hw]
  | identifier w hw =>
    rw [Lexeme.chars, run_append, run_of_isName rfl hw, Position.pastAll_behind]
    refine run_finish_of_complete ?_ rfl hends
    simp [complete, push, Lexeme.token]
  | operator op =>
    have single : singleToken? op.char = some (.operator op : Token F) := by
      simp [singleToken?, op.ofChar?_char]
    exact congrArg (· >>= finish) (run_single single tokens)
  | leftParen | rightParen | comma => exact congrArg (· >>= finish) (run_single rfl tokens)

/-- **All pieces**, in front of what the last one does not go on with. -/
theorem run_pieces {ps : List TextPiece} (h : ps.IsChain TextPiece.Apart)
    (hstop : TextPiece.Stop ps cs) (tokens : List (PlacedToken F)) :
    (run ⟨.behind before, .none, tokens⟩ (TextPiece.charsOf ps ++ cs) >>= finish) =
      (run ⟨.behind (before ++ TextPiece.charsOf ps), .none,
        (TextPiece.tokensOf before ps cs).reverse ++ tokens⟩ cs >>= finish) := by
  induction ps generalizing before tokens with
  | nil => simp [TextPiece.charsOf, TextPiece.tokensOf]
  | cons p ps ih =>
    obtain ⟨hends, hchain, hrest⟩ := TextPiece.isChain_cons_stop h hstop
    rw [TextPiece.charsOf, List.flatMap_cons, List.append_assoc, ← List.append_assoc before]
    cases p with
    | blank c hc =>
      have first : step ⟨.behind before, .none, tokens⟩ c =
          .ok ⟨.behind (before ++ [c]), .none, tokens⟩ := by
        rw [Position.behind_concat]
        exact if_pos hc
      rw [TextPiece.chars, List.singleton_append, run_cons, first]
      exact ih hchain hrest tokens
    | lexeme l =>
      refine (run_lexeme l hends tokens).trans ((ih hchain hrest _).trans ?_)
      simp [TextPiece.tokensOf, TextPiece.chars, TextPiece.charsOf]

end Lexer

/-- **The lexer takes apart what was put together.** -/
theorem Segmentation.tokenize_text {F : Type} [Scalar F] (s : Segmentation) :
    tokenize s.text = .ok (⟨s.tokens, .behind s.chars⟩ : TokenizedText F) := by
  have stop : TextPiece.Stop s.pieces [] := fun _ _ => nofun
  have pieces : (run ⟨.behind [], .none, []⟩ (TextPiece.charsOf s.pieces ++ []) >>= finish) = _ :=
    run_pieces s.apart stop ([] : List (PlacedToken F))
  rw [List.append_nil, List.append_nil, List.nil_append] at pieces
  have ended : finish ⟨.behind s.chars, .none, s.tokens.reverse⟩ =
      .ok (⟨s.tokens.reverse.reverse, .behind s.chars⟩ : TokenizedText F) := rfl
  rw [List.reverse_reverse] at ended
  rw [tokenize, text, String.toList_ofList]
  exact pieces.trans ended

end Drafting
