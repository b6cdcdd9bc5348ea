import Drafting.Formula.Token
import Drafting.Text.Blank

namespace Drafting

/-!
# From text to tokens

The lexer reads a text character by character.  Its state is the place it has reached, the name or
numeral it is in the middle of, and the tokens it has completed.  A name or numeral ends where the
next character cannot continue it, and a name that a parenthesis ends is a call.
-/

/-- The digits of a numeral as far as they are read. -/
structure Numeral where
  /-- The number the digits spell without the point. -/
  digits : Nat
  /-- How many digits stand behind the point. -/
  places : Nat
  hasDigit : Bool
  hasPoint : Bool
  deriving DecidableEq, Repr

namespace Numeral

/-- A numeral of which nothing is read. -/
def empty : Numeral := ⟨0, 0, false, false⟩

/-- One more digit. -/
def addDigit (n : Numeral) (d : Char) : Numeral :=
  { n with
    digits := 10 * n.digits + (d.toNat - '0'.toNat)
    places := if n.hasPoint then n.places + 1 else n.places
    hasDigit := true }

/-- The point. -/
def addPoint (n : Numeral) : Numeral := { n with hasPoint := true }

end Numeral

/-- What the lexer is in the middle of. -/
inductive PartialToken where
  | none
  /-- The letters of a name in lower case, last one first. -/
  | name (start : Position) (letters : List Char)
  | numeral (start : Position) (digits : Numeral)
  deriving DecidableEq, Repr

/-- The lexer's state; the completed tokens are listed last one first. -/
structure Lexer (F : Type) where
  position : Position
  pending : PartialToken
  tokens : List (PlacedToken F)

namespace Lexer

variable {F : Type} [Scalar F]

/-- Names start with an ASCII letter. -/
def isNameStart (c : Char) : Bool := c.isAlpha

/-- Names go on with ASCII letters, digits and underscores. -/
def isNameChar (c : Char) : Bool := c.isAlphanum || c == '_'

/-- The tokens that are a single character. -/
def singleToken? (c : Char) : Option (Token F) :=
  match Operator.ofChar? c with
  | some op => some (.operator op)
  | none =>
    if c = '(' then some .leftParen
    else if c = ')' then some .rightParen
    else if c = ',' then some .comma
    else none

/-- The lexer before the first character. -/
def start : Lexer F := ⟨Position.first, .none, []⟩

/-- One character further. -/
def advance (s : Lexer F) (c : Char) : Lexer F := { s with position := s.position.past c }

/-- A completed token that starts at `p`. -/
def push (s : Lexer F) (t : Token F) (p : Position) : Lexer F :=
  { s with tokens := ⟨t, p⟩ :: s.tokens }

/-- Ends the name or numeral the lexer is in; `next` is the character that ends it. -/
def complete (s : Lexer F) (next : Option Char) : Except (SyntaxError F) (Lexer F) :=
  match s.pending with
  | .none => .ok s
  | .name p letters =>
    let name := String.ofList letters.reverse
    .ok ({ s with pending := .none }.push
      (if next = some '(' then .call name else .symbol name) p)
  | .numeral p n =>
    if n.hasDigit then
      .ok ({ s with pending := .none }.push (.number (Scalar.ofDecimal n.digits n.places)) p)
    else .error ⟨.lonePoint, p⟩

/-- Reads a character that starts a token, or is blank. -/
def begin (s : Lexer F) (c : Char) : Except (SyntaxError F) (Lexer F) :=
  if Text.isBlank c then .ok (s.advance c)
  else if isNameStart c then
    .ok { s.advance c with pending := .name s.position [c.toLower] }
  else if c.isDigit then
    .ok { s.advance c with pending := .numeral s.position (Numeral.empty.addDigit c) }
  else if c = '.' then
    .ok { s.advance c with pending := .numeral s.position Numeral.empty.addPoint }
  else match singleToken? c with
    | some t => .ok ((s.push t s.position).advance c)
    | none => .error ⟨.strayCharacter c, s.position⟩

/-- Reads one character. -/
def step (s : Lexer F) (c : Char) : Except (SyntaxError F) (Lexer F) :=
  match s.pending with
  | .none => s.begin c
  | .name p letters =>
    if isNameChar c then .ok { s.advance c with pending := .name p (c.toLower :: letters) }
    else do (← s.complete (some c)).begin c
  | .numeral p n =>
    if c.isDigit then .ok { s.advance c with pending := .numeral p (n.addDigit c) }
    else if c = '.' then
      if n.hasPoint then .error ⟨.secondPoint, s.position⟩
      else .ok { s.advance c with pending := .numeral p n.addPoint }
    else do (← s.complete (some c)).begin c

/-- Reads a list of characters, starting in the state `s`. -/
def run (s : Lexer F) (cs : List Char) : Except (SyntaxError F) (Lexer F) := cs.foldlM step s

/-- The end of the text. -/
def finish (s : Lexer F) : Except (SyntaxError F) (TokenizedText F) := do
  let s ← s.complete none
  return ⟨s.tokens.reverse, s.position⟩

theorem run_cons (s : Lexer F) (c : Char) (cs : List Char) :
    s.run (c :: cs) = (s.step c).bind fun s' => s'.run cs := rfl

/-- A text may be read in two parts. -/
theorem run_append (s : Lexer F) (cs ds : List Char) :
    s.run (cs ++ ds) = (s.run cs).bind fun s' => s'.run ds := by
  simp [run, List.foldlM_append, bind]

end Lexer

/-- The tokens of a text. -/
def tokenize {F : Type} [Scalar F] (text : String) : Except (SyntaxError F) (TokenizedText F) := do
  (← Lexer.start.run text.toList).finish

end Drafting
