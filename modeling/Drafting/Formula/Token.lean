import Drafting.Formula.Basic

namespace Drafting

/-!
# Tokens of formula text

Positions in a text, the tokens a formula is written with, and what can be wrong with a text that
is meant to be a formula.
-/

/-- A place in a text: line and column, both counted from one. -/
structure Position where
  line : Nat
  column : Nat
  deriving DecidableEq, Repr

namespace Position

/-- The first character of a text. -/
def first : Position := ⟨1, 1⟩

/-- The place behind the character `c`; only a line feed starts a line. -/
def past (p : Position) (c : Char) : Position :=
  if c = '\n' then ⟨p.line + 1, 1⟩ else ⟨p.line, p.column + 1⟩

end Position

/-- The tokens of formulas.  A name directly followed by a parenthesis is a `call`. -/
inductive Token (F : Type) where
  | number (value : F)
  | symbol (name : String)
  | call (name : String)
  | operator (op : Operator)
  | leftParen
  | rightParen
  | comma
  deriving Repr, BEq

/-- A token and the place of its first character. -/
structure PlacedToken (F : Type) where
  token : Token F
  position : Position
  deriving Repr, BEq

/-- The tokens of a text, and the place where it ends. -/
structure TokenizedText (F : Type) where
  tokens : List (PlacedToken F)
  finish : Position
  deriving Repr, BEq

/-- What can be wrong with a formula text. -/
inductive SyntaxFault (F : Type) where
  /-- No token starts with this character. -/
  | strayCharacter (c : Char)
  /-- A numeral has a second point. -/
  | secondPoint
  /-- A numeral is nothing but a point. -/
  | lonePoint
  /-- This token, or the end of the text, cannot stand here. -/
  | unexpected (found : Option (Token F))
  /-- A parenthesis had to stand here. -/
  | missing (parenthesis : Char)
  /-- A parenthesis opens inside too many others. -/
  | tooDeep
  deriving Repr, BEq

/-- A fault and the place where it shows. -/
structure SyntaxError (F : Type) where
  fault : SyntaxFault F
  position : Position
  deriving Repr, BEq

/-- How many parentheses may be open at once. -/
def maxNesting : Nat := 256

variable {F : Type} [Scalar F]

/-- A token as a message names it. -/
def Token.describe : Token F → String
  | .number x => "number " ++ Scalar.text x
  | .symbol name => "symbol \"" ++ name ++ "\""
  | .call name => "call \"" ++ name ++ "\""
  | .operator op => "operator \"" ++ op.char.toString ++ "\""
  | .leftParen => "\"(\""
  | .rightParen => "\")\""
  | .comma => "\",\""

/-- The sentence for a fault. -/
def SyntaxFault.message : SyntaxFault F → String
  | .strayCharacter c => "Can't handle character: " ++ c.toString
  | .secondPoint => "Multiple decimals in number."
  | .lonePoint => "Invalid number: \".\""
  | .unexpected none => "Unexpected token: end of input"
  | .unexpected (some (.operator .sub)) =>
    "Unexpected token: operator \"-\" (unary minus is not supported, use neg(...))"
  | .unexpected (some t) => "Unexpected token: " ++ t.describe
  | .missing p => "Expecting punctuation: \"" ++ p.toString ++ "\""
  | .tooDeep => "Expression nested deeper than " ++ toString maxNesting ++ " levels"

/-- The sentence for a fault, with its place. -/
def SyntaxError.message (e : SyntaxError F) : String :=
  e.fault.message ++ " (" ++ toString e.position.line ++ ":" ++ toString e.position.column ++ ")"

end Drafting
