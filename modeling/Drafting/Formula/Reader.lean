import Drafting.Formula.Lexer

namespace Drafting

/-!
# From tokens to formulas

The reader takes one token at a time.  It keeps a stack of what is still open: parentheses, calls
with the arguments they have, and operators that wait for their right operand.  An operator first
closes the waiting operators that bind at least as tightly, which makes all operators group to the
left; a closing parenthesis or a comma closes all of them up to the parenthesis.

A token the reader cannot take makes the text faulty at that token: the tokens before it could
have been completed, with it nothing can.
-/

/-- Something open, on the reader's stack. -/
inductive Frame (F : Type) where
  | group
  /-- A call with its arguments so far, last one first. -/
  | call (name : String) (args : List (Formula F))
  /-- An operator that waits for its right operand. -/
  | operand (left : Formula F) (op : Operator)

/-- What may come next. -/
inductive Phase (F : Type) where
  /-- An operand. -/
  | operand
  /-- The parenthesis of a call. -/
  | opening
  /-- An operand, or the parenthesis that ends an empty argument list. -/
  | arguments
  /-- Anything that can follow the formula read last. -/
  | complete (e : Formula F)

/-- The reader: what may come next, and what is open, innermost first. -/
structure Reader (F : Type) where
  phase : Phase F
  frames : List (Frame F)

namespace Frame

variable {F : Type}

/-- Does the frame stand for an open parenthesis? -/
def isParenthesis : Frame F → Bool
  | .operand _ _ => false
  | _ => true

/-- Gives `e` to the innermost waiting operators as their right operand, as long as their
    precedence is at least `least`. -/
def collapse (least : Nat) (e : Formula F) : List (Frame F) → Formula F × List (Frame F)
  | .operand left op :: rest =>
    if least ≤ op.precedence then collapse least (.binary op left e) rest
    else (e, .operand left op :: rest)
  | frames => (e, frames)

end Frame

namespace Reader

variable {F : Type}

/-- The reader before the first token. -/
def start : Reader F := ⟨.operand, []⟩

/-- How many parentheses are open. -/
def nesting (r : Reader F) : Nat := r.frames.countP Frame.isParenthesis

/-- Opens a parenthesis, unless too many are open. -/
def enter (r : Reader F) (phase : Phase F) (frame : Frame F) :
    Except (SyntaxFault F) (Reader F) :=
  if maxNesting ≤ r.nesting then .error .tooDeep else .ok ⟨phase, frame :: r.frames⟩

/-- Reads a token where an operand has to start. -/
def readOperand (r : Reader F) : Token F → Except (SyntaxFault F) (Reader F)
  | .number x => .ok { r with phase := .complete (.number x) }
  | .symbol name => .ok { r with phase := .complete (.symbol name) }
  | .call name => r.enter .opening (.call name [])
  | .leftParen => r.enter .operand .group
  | t => .error (.unexpected (some t))

/-- Reads a token behind the formula `e`. -/
def readAfter (r : Reader F) (e : Formula F) : Token F → Except (SyntaxFault F) (Reader F)
  | .operator op =>
    let (left, frames) := Frame.collapse op.precedence e r.frames
    .ok ⟨.operand, .operand left op :: frames⟩
  | t =>
    match Frame.collapse 0 e r.frames, t with
    | (e, .group :: rest), .rightParen => .ok ⟨.complete e, rest⟩
    | (e, .call name args :: rest), .rightParen =>
      .ok ⟨.complete (.call name (e :: args).reverse), rest⟩
    | (e, .call name args :: rest), .comma => .ok ⟨.operand, .call name (e :: args) :: rest⟩
    | (_, []), t => .error (.unexpected (some t))
    | _, _ => .error (.missing ')')

/-- Reads one token. -/
def step (r : Reader F) (t : Token F) : Except (SyntaxFault F) (Reader F) :=
  match r.phase, t with
  | .operand, t => r.readOperand t
  | .opening, .leftParen => .ok { r with phase := .arguments }
  | .opening, _ => .error (.missing '(')
  | .arguments, .rightParen =>
    match r.frames with
    | .call name args :: rest => .ok ⟨.complete (.call name args.reverse), rest⟩
    | _ => .error (.unexpected (some .rightParen))
  | .arguments, t => r.readOperand t
  | .complete e, t => r.readAfter e t

/-- The end of the text. -/
def finish (r : Reader F) : Except (SyntaxFault F) (Formula F) :=
  match r.phase with
  | .operand | .arguments => .error (.unexpected none)
  | .opening => .error (.missing '(')
  | .complete e =>
    match Frame.collapse 0 e r.frames with
    | (e, []) => .ok e
    | _ => .error (.missing ')')

/-- Reads a token at its place; a fault shows at that place. -/
def stepPlaced (r : Reader F) (t : PlacedToken F) : Except (SyntaxError F) (Reader F) :=
  (r.step t.token).mapError fun fault => ⟨fault, t.position⟩

/-- Reads a list of tokens, starting in the state `r`. -/
def run (r : Reader F) (ts : List (PlacedToken F)) : Except (SyntaxError F) (Reader F) :=
  ts.foldlM stepPlaced r

theorem run_nil (r : Reader F) : r.run [] = .ok r := rfl

theorem run_cons (r : Reader F) (t : PlacedToken F) (ts : List (PlacedToken F)) :
    r.run (t :: ts) = (r.stepPlaced t).bind fun r' => r'.run ts := rfl

end Reader

namespace Formula

variable {F : Type}

/-- The formula that a token list spells. -/
def ofTokens (text : TokenizedText F) : Except (SyntaxError F) (Formula F) := do
  let r ← Reader.start.run text.tokens
  r.finish.mapError fun fault => ⟨fault, text.finish⟩

/-- The formula that a text spells.  A fault in the characters comes before any fault in the
    order of the tokens. -/
def ofText [Scalar F] (text : String) : Except (SyntaxError F) (Formula F) := do
  ofTokens (← tokenize text)

end Formula

end Drafting
