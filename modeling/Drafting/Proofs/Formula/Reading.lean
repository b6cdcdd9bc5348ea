import Drafting.Formula.Reader
import Drafting.Proofs.Formula.Grammar

namespace Drafting

/-!
# What the reader does with a token

The rules by which the reader goes from one state to the next, and what closing the waiting
operators does to the stack.

* `Reader.step_eq_ok` — the reader takes a token iff one of the rules applies;
* `Reader.Counted.steps` — the parentheses that a reader has seen, and those that are open.
-/

variable {F : Type}

/-! ### Waiting operators -/

namespace Frame

/-- No operator waits on top of the stack that binds at least as tightly as `least`. -/
def Free (least : Nat) (frames : List (Frame F)) : Prop :=
  ∀ left op rest, frames = .operand left op :: rest → op.precedence < least

variable {least : Nat} {frames : List (Frame F)} {e left : Formula F} {op : Operator}

theorem collapse_operand (h : least ≤ op.precedence) :
    collapse least e (.operand left op :: frames) = collapse least (.binary op left e) frames := by
  rw [collapse, if_pos h]

/-- Where the operator on top binds less tightly, nothing is completed. -/
theorem collapse_free (h : Free least frames) : collapse least e frames = (e, frames) := by
  cases frames with
  | nil => rfl
  | cons frame rest =>
    cases frame with
    | group | call => rfl
    | operand left op => rw [collapse, if_neg (Nat.not_le.mpr (h left op rest rfl))]

/-- Once operations of at least some level have been completed, the operator left on top binds less
    tightly. -/
theorem free_collapse (least : Nat) (e : Formula F) (frames : List (Frame F)) :
    Free least (collapse least e frames).2 := by
  induction frames generalizing e with
  | nil => exact nofun
  | cons frame rest ih =>
    cases frame with
    | group | call => exact nofun
    | operand left op =>
      by_cases h : least ≤ op.precedence
      · rw [collapse_operand h]
        exact ih _
      · rw [collapse, if_neg h]
        intro left' op' rest' heq
        cases heq
        exact Nat.not_le.mp h

theorem countP_cons (frame : Frame F) (frames : List (Frame F)) :
    (frame :: frames).countP isParenthesis =
      frames.countP isParenthesis + frame.isParenthesis.toNat := by
  cases frame <;> simp [List.countP_cons, isParenthesis]

@[simp] theorem countP_group (frames : List (Frame F)) :
    (.group :: frames).countP isParenthesis = frames.countP isParenthesis + 1 := countP_cons ..

@[simp] theorem countP_call (name : String) (args : List (Formula F)) (frames : List (Frame F)) :
    (.call name args :: frames).countP isParenthesis = frames.countP isParenthesis + 1 :=
  countP_cons ..

@[simp] theorem countP_operand (left : Formula F) (op : Operator) (frames : List (Frame F)) :
    (.operand left op :: frames).countP isParenthesis = frames.countP isParenthesis :=
  countP_cons ..

/-- Waiting operators are no parentheses. -/
theorem countP_collapse (least : Nat) (e : Formula F) (frames : List (Frame F)) :
    (collapse least e frames).2.countP isParenthesis = frames.countP isParenthesis := by
  induction frames generalizing e with
  | nil => rfl
  | cons frame rest ih =>
    cases frame with
    | group | call => rfl
    | operand left op =>
      by_cases h : least ≤ op.precedence
      · rw [collapse_operand h, ih, countP_cons]
        rfl
      · rw [collapse, if_neg h]

end Frame

/-! ### The rules -/

/-- The phases in which an operand may start. -/
inductive Phase.AwaitsOperand : Phase F → Prop where
  | operand : AwaitsOperand .operand
  | arguments : AwaitsOperand .arguments

/-- How many parentheses are counted as open although their tokens are still to come. -/
def Phase.owed : Phase F → Nat
  | .opening => 1
  | _ => 0

theorem Phase.AwaitsOperand.owed {phase : Phase F} (h : phase.AwaitsOperand) : phase.owed = 0 := by
  cases h <;> rfl

namespace Reader

/-- What the reader may do with a token. -/
inductive Step : Reader F → Token F → Reader F → Prop where
  | number {phase frames} (x) : phase.AwaitsOperand →
    Step ⟨phase, frames⟩ (.number x) ⟨.complete (.number x), frames⟩
  | symbol {phase frames} (name) : phase.AwaitsOperand →
    Step ⟨phase, frames⟩ (.symbol name) ⟨.complete (.symbol name), frames⟩
  | openGroup {phase frames} : phase.AwaitsOperand →
    frames.countP Frame.isParenthesis < maxNesting →
    Step ⟨phase, frames⟩ .leftParen ⟨.operand, .group :: frames⟩
  | startCall {phase frames} (name) : phase.AwaitsOperand →
    frames.countP Frame.isParenthesis < maxNesting →
    Step ⟨phase, frames⟩ (.call name) ⟨.opening, .call name [] :: frames⟩
  | openCall {frames} : Step ⟨.opening, frames⟩ .leftParen ⟨.arguments, frames⟩
  | noArguments {name args frames} :
    Step ⟨.arguments, .call name args :: frames⟩ .rightParen
      ⟨.complete (.call name args.reverse), frames⟩
  | operator {e frames left rest} (op) : Frame.collapse op.precedence e frames = (left, rest) →
    Step ⟨.complete e, frames⟩ (.operator op) ⟨.operand, .operand left op :: rest⟩
  | closeGroup {e frames e' rest} : Frame.collapse 0 e frames = (e', .group :: rest) →
    Step ⟨.complete e, frames⟩ .rightParen ⟨.complete e', rest⟩
  | closeCall {e frames e' name args rest} :
    Frame.collapse 0 e frames = (e', .call name args :: rest) →
    Step ⟨.complete e, frames⟩ .rightParen ⟨.complete (.call name (e' :: args).reverse), rest⟩
  | comma {e frames e' name args rest} :
    Frame.collapse 0 e frames = (e', .call name args :: rest) →
    Step ⟨.complete e, frames⟩ .comma ⟨.operand, .call name (e' :: args) :: rest⟩

variable {r r' : Reader F} {t : Token F}

/-- A parenthesis can be opened iff not too many are open, and it leads to one frame more. -/
theorem enter_eq_ok {phase : Phase F} {frame : Frame F} : r.enter phase frame = .ok r' ↔
    r.frames.countP Frame.isParenthesis < maxNesting ∧ r' = ⟨phase, frame :: r.frames⟩ := by
  rw [enter, nesting]
  split
  case isTrue h => simp [Nat.not_lt.mpr h]
  case isFalse h => simp [Nat.not_le.mp h, eq_comm]

/-- What the reader does where an operand is due is one of its steps. -/
theorem Step.of_readOperand (hphase : r.phase.AwaitsOperand) (h : r.readOperand t = .ok r') :
    Step r t r' := by
  obtain ⟨phase, frames⟩ := r
  cases t with
  | number x =>
    obtain rfl := Except.ok.inj h
    exact .number x hphase
  | symbol name =>
    obtain rfl := Except.ok.inj h
    exact .symbol name hphase
  | call name =>
    obtain ⟨hdepth, rfl⟩ := enter_eq_ok.mp h
    exact .startCall name hphase hdepth
  | leftParen =>
    obtain ⟨hdepth, rfl⟩ := enter_eq_ok.mp h
    exact .openGroup hphase hdepth
  | operator | rightParen | comma => cases h

/-- What the reader does behind a complete operand is one of its steps. -/
theorem Step.of_readAfter {e : Formula F} {frames : List (Frame F)}
    (h : readAfter ⟨.complete e, frames⟩ e t = .ok r') : Step ⟨.complete e, frames⟩ t r' := by
  cases t with
  | operator op =>
    rcases hc : Frame.collapse op.precedence e frames with ⟨left, rest⟩
    simp only [readAfter, hc] at h
    exact Except.ok.inj h ▸ .operator op hc
  | rightParen =>
    rcases hc : Frame.collapse 0 e frames with ⟨e', _ | ⟨_ | ⟨name, args⟩ | ⟨left, op⟩, rest⟩⟩ <;>
      simp only [readAfter, hc] at h
    case nil | operand => cases h
    case group => exact Except.ok.inj h ▸ .closeGroup hc
    case call => exact Except.ok.inj h ▸ .closeCall hc
  | comma =>
    rcases hc : Frame.collapse 0 e frames with ⟨e', _ | ⟨_ | ⟨name, args⟩ | ⟨left, op⟩, rest⟩⟩ <;>
      simp only [readAfter, hc] at h
    case nil | group | operand => cases h
    case call => exact Except.ok.inj h ▸ .comma hc
  | number | symbol | call | leftParen =>
    -- nothing but an operator, a comma or the end of a parenthesis can follow a formula
    rcases hc : Frame.collapse 0 e frames with ⟨e', _ | ⟨_ | ⟨name, args⟩ | ⟨left, op⟩, rest⟩⟩ <;>
      simp only [readAfter, hc] at h <;> cases h

/-- A step by the rules is what the reader does. -/
theorem Step.step_eq (h : Step r t r') : r.step t = .ok r' := by
  cases h with
  | number x hphase | symbol name hphase => cases hphase <;> rfl
  | openGroup hphase hdepth | startCall name hphase hdepth =>
    cases hphase <;> exact enter_eq_ok.mpr ⟨hdepth, rfl⟩
  | openCall | noArguments => rfl
  | operator op hc | closeGroup hc | closeCall hc | comma hc => simp only [step, readAfter, hc]

/-- The reader takes a token iff a rule applies, and does what the rule says. -/
theorem step_eq_ok : r.step t = .ok r' ↔ Step r t r' := by
  refine ⟨fun h => ?_, Step.step_eq⟩
  obtain ⟨phase, frames⟩ := r
  cases phase with
  | operand => exact .of_readOperand .operand h
  | complete e => exact .of_readAfter h
  | opening =>
    cases t with
    | leftParen => exact Except.ok.inj h ▸ .openCall
    | number | symbol | call | operator | rightParen | comma => cases h
  | arguments =>
    cases t with
    | rightParen =>
      rcases frames with _ | ⟨_ | ⟨name, args⟩ | ⟨left, op⟩, rest⟩
      case nil | group | operand => cases h
      case call => exact Except.ok.inj h ▸ .noArguments
    | number | symbol | call | operator | leftParen | comma => exact .of_readOperand .arguments h

/-! ### Lists of tokens -/

/-- The reader takes a list of tokens. -/
inductive Steps : Reader F → List (Token F) → Reader F → Prop where
  | nil (r : Reader F) : Steps r [] r
  | cons {r t r' ts r''} : Step r t r' → Steps r' ts r'' → Steps r (t :: ts) r''

variable {r'' : Reader F} {ts us : List (Token F)}

theorem Step.single (h : Step r t r') : Steps r [t] r' := .cons h (.nil r')

theorem Steps.append (h : Steps r ts r') (h' : Steps r' us r'') : Steps r (ts ++ us) r'' := by
  induction h with
  | nil => exact h'
  | cons first _ ih => exact .cons first (ih h')

/-- Where the tokens stand does not matter to what they come to. -/
theorem run_eq_ok {placed : List (PlacedToken F)} :
    r.run placed = .ok r' ↔ Steps r (placed.map (·.token)) r' := by
  induction placed generalizing r with
  | nil =>
    rw [run_nil]
    constructor
    · intro h
      exact Except.ok.inj h ▸ .nil r
    · rintro ⟨⟩
      rfl
  | cons t rest ih =>
    rw [run_cons, stepPlaced]
    constructor
    · intro h
      cases hstep : r.step t.token with
      | error fault => rw [hstep] at h; cases h
      | ok next =>
        rw [hstep] at h
        exact .cons (step_eq_ok.mp hstep) (ih.mp h)
    · rintro (_ | ⟨hstep, hrest⟩)
      rw [hstep.step_eq]
      exact ih.mpr hrest

/-! ### Parentheses -/

/-- The reader has kept count of the parentheses in the tokens it has read. -/
structure Counted (r : Reader F) (done : List (Token F)) : Prop where
  balance : r.nesting + done.countP Token.closes = done.countP Token.opens + r.phase.owed
  bounded : r.nesting ≤ maxNesting
  within : NestsWithin maxNesting 0 done

/-- The parentheses that a rule opens and closes. -/
theorem Step.nesting_eq (h : Step r t r') :
    r'.nesting + t.closes.toNat + r.phase.owed = r.nesting + t.opens.toNat + r'.phase.owed := by
  cases h with
  | number x hphase | symbol name hphase =>
    rw [hphase.owed]
    rfl
  | openGroup hphase | startCall name hphase =>
    rw [hphase.owed]
    simp [nesting, Phase.owed, Token.opens, Token.closes]
  | openCall => rfl
  | noArguments => simp [nesting, Phase.owed, Token.opens, Token.closes]
  | @operator e frames _ _ op hc =>
    have kept := Frame.countP_collapse op.precedence e frames
    rw [hc] at kept
    simp [nesting, Phase.owed, Token.opens, Token.closes, kept]
  | @closeGroup e frames _ _ hc | @closeCall e frames _ _ _ _ hc | @comma e frames _ _ _ _ hc =>
    have kept := Frame.countP_collapse 0 e frames
    rw [hc] at kept
    simp [nesting, Phase.owed, Token.opens, Token.closes, ← kept]

/-- No rule opens a parenthesis that is nested too deep. -/
theorem Step.nesting_le (h : Step r t r') (bounded : r.nesting ≤ maxNesting) :
    r'.nesting ≤ maxNesting ∧ (t = .leftParen → r.nesting < maxNesting + r.phase.owed) := by
  have change := h.nesting_eq
  cases h with
  | openGroup hphase hdepth =>
    rw [hphase.owed] at change ⊢
    simp only [nesting, Frame.countP_group] at hdepth ⊢
    exact ⟨hdepth, fun _ => hdepth⟩
  | startCall name hphase hdepth =>
    simp only [nesting, Frame.countP_call] at hdepth ⊢
    exact ⟨hdepth, by rintro ⟨⟩⟩
  | openCall => exact ⟨bounded, fun _ => Nat.lt_succ_of_le bounded⟩
  | number x hphase | symbol name hphase => exact ⟨bounded, by rintro ⟨⟩⟩
  | noArguments | operator | closeGroup | closeCall | comma =>
    simp only [Phase.owed, Token.opens, Token.closes, Bool.toNat_true, Bool.toNat_false] at change
    exact ⟨by omega, by rintro ⟨⟩⟩

variable {done : List (Token F)}

theorem Counted.start : Counted (start : Reader F) [] :=
  ⟨rfl, Nat.zero_le _, .nil⟩

/-- A step keeps count of the parentheses that are open. -/
theorem Counted.step (h : Counted r done) (hs : Step r t r') : Counted r' (done ++ [t]) := by
  have change := hs.nesting_eq
  obtain ⟨bounded, opening⟩ := hs.nesting_le h.bounded
  have balance := h.balance
  refine ⟨?_, bounded, h.within.concat fun ht => ?_⟩
  · have behind : (done ++ [t]).countP Token.opens = done.countP Token.opens + t.opens.toNat ∧
        (done ++ [t]).countP Token.closes = done.countP Token.closes + t.closes.toNat := by
      cases t <;> simp [Token.opens, Token.closes]
    omega
  · have free := opening ht
    omega

theorem Counted.steps (h : Counted r done) (hs : Steps r ts r') : Counted r' (done ++ ts) := by
  induction hs generalizing done with
  | nil => simpa using h
  | cons first _ ih => simpa using ih (h.step first)

end Reader

end Drafting
