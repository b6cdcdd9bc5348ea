import Mathlib.Order.Bounds.Basic
import Drafting.Proofs.Formula.Printing

namespace Drafting

/-!
# How high formulas are that are read

No more than 256 parentheses may be open at once, but this does not bound the height of the formula
that is read: each operator of a row `x + x + x` takes all that is in front of it as its left
operand.  It bounds the height apart from left operands.  On the way down to a right operand
precedence rises, which it does three times at most, and everything else takes a parenthesis.

* `Formula.turns` — the height apart from left operands, and `Formula.chain` — operators in a row;
* `Formula.height_le` — the height by these two;
* `Spells.turns_le` — what parentheses bound;
* `Formula.rowOfSums`, `Formula.deepest` — formulas that reach every height, and the bound;
* `Formula.ofText_turns` — formulas that are read from texts.
-/

variable {F : Type}

namespace Formula

/-! ### Left operands and other steps down -/

mutual

/-- The most steps on a way down from the formula, those to left operands not counted. -/
def turns : Formula F → Nat
  | .number _ | .symbol _ => 0
  | .binary _ l r => max l.turns (r.turns + 1)
  | .call _ args => argumentsTurns args + 1

/-- The most that one of the formulas has. -/
def argumentsTurns : List (Formula F) → Nat
  | [] => 0
  | e :: rest => max e.turns (argumentsTurns rest)

end

/-- How many operators follow each other, the formula being the last, each as the left operand of
    the next. -/
def chain : Formula F → Nat
  | .binary _ l _ => l.chain + 1
  | .number _ | .symbol _ | .call _ _ => 0

/-- Arguments have at most so many turns iff each of them has. -/
theorem argumentsTurns_le_iff {args : List (Formula F)} {n : Nat} :
    argumentsTurns args ≤ n ↔ ∀ a ∈ args, a.turns ≤ n := by
  induction args with
  | nil => simp [argumentsTurns]
  | cons e rest ih => simp [argumentsTurns, ih]

/-- Arguments are at most so high iff each of them is. -/
theorem argumentsHeight_le_iff {args : List (Formula F)} {n : Nat} :
    argumentsHeight args ≤ n ↔ ∀ a ∈ args, a.height ≤ n := by
  induction args with
  | nil => simp [argumentsHeight]
  | cons e rest ih => simp [argumentsHeight, ih]

/-- A step that is counted, to a formula with `k` operators in a row at most. -/
theorem step_le {e : Formula F} {k t : Nat} (h : e.height ≤ e.turns * (k + 1) + e.chain)
    (hchain : e.chain ≤ k) (ht : e.turns + 1 ≤ t) : e.height + 1 ≤ t * (k + 1) := by
  calc e.height + 1 ≤ e.turns * (k + 1) + (k + 1) := by omega
    _ = (e.turns + 1) * (k + 1) := (Nat.succ_mul _ _).symm
    _ ≤ t * (k + 1) := Nat.mul_le_mul_right _ ht

/-- **The height of a formula.**  Between two steps that are counted there are at most as many steps
    to left operands as there are operators in a row. -/
theorem height_le {e : Formula F} {k : Nat} (h : ∀ s, Part s e → s.chain ≤ k) :
    e.height ≤ e.turns * (k + 1) + e.chain := by
  induction e using induction with
  | number | symbol => exact Nat.zero_le _
  | binary op l r ihl ihr =>
    have left := ihl fun s hs => h s (.left hs)
    have right := step_le (ihr fun s hs => h s (.right hs)) (h r (.right .refl))
      (le_max_right l.turns (r.turns + 1))
    have wider : l.turns * (k + 1) ≤ max l.turns (r.turns + 1) * (k + 1) :=
      Nat.mul_le_mul_right _ (le_max_left _ _)
    rw [height, turns, chain]
    omega
  | call name args ih =>
    have each : ∀ a ∈ args, a.height + 1 ≤ (argumentsTurns args + 1) * (k + 1) := by
      intro a ha
      have below : a.turns + 1 ≤ argumentsTurns args + 1 :=
        Nat.succ_le_succ (argumentsTurns_le_iff.mp le_rfl a ha)
      exact step_le (ih a ha fun s hs => h s (.argument ha hs)) (h a (.argument ha .refl)) below
    rw [height, turns, chain]
    have positive : 1 ≤ (argumentsTurns args + 1) * (k + 1) := Nat.mul_pos (by omega) (by omega)
    have arguments : argumentsHeight args ≤ (argumentsTurns args + 1) * (k + 1) - 1 :=
      argumentsHeight_le_iff.mpr fun a ha => Nat.le_sub_of_add_le (each a ha)
    omega

end Formula

/-! ### What parentheses bound -/

/-- **Parentheses bound the steps that are counted.**  Behind `depth` parentheses each one that may
    still be opened allows for four more steps: one to an argument, and one to a right operand of
    each precedence. -/
theorem Spells.turns_le {level : Level} {ts : List (Token F)} {e : Formula F} {limit depth : Nat}
    (h : Spells level ts e) (hnest : NestsWithin limit depth ts) :
    e.turns + level.precedence ≤ 4 * (limit - depth) + 4 := by
  induction h generalizing depth with
  | sum _ ih | product _ ih | power _ ih =>
    have inner := ih hnest
    simp only [Level.precedence] at inner ⊢
    omega
  | number | symbol => simp [Formula.turns, Level.precedence]
  | addition _ hl _ ihl ihr | multiplication _ hl _ ihl ihr | exponentiation hl _ ihl ihr =>
    obtain ⟨hts, hus⟩ := hnest.operands hl
    -- the right operand has a higher level, which pays for the step to it
    have left := ihl hts
    have right := ihr hus
    simp only [Formula.turns, Level.precedence] at left right ⊢
    omega
  | group _ ih =>
    obtain ⟨hdepth, hinside⟩ := hnest.open_paren
    have inner := ih hinside.of_append
    simp only [Level.precedence] at inner ⊢
    omega
  | @call name args hargs ih =>
    have behind := NestsWithin.append_right [.call name] hnest rfl
    obtain ⟨hdepth, hinside⟩ := behind.open_paren
    -- the parenthesis pays for the step to an argument, at whatever level the call stands
    have each : Formula.argumentsTurns (args.map Prod.snd) ≤ 4 * (limit - depth) - 1 := by
      refine Formula.argumentsTurns_le_iff.mpr (List.forall_mem_map.mpr fun a ha => ?_)
      have inner := ih a ha (NestsWithin.of_intercalate hargs hinside.of_append a ha)
      simp only [Level.precedence] at inner
      omega
    simp only [Formula.turns, Level.precedence]
    omega

namespace Formula

/-! ### Formulas that are as high as can be -/

/-- The sum `x+x+...+x` with `n` operators. -/
def rowOfSums : Nat → Formula F
  | 0 => .symbol "x"
  | n + 1 => .binary .add (rowOfSums n) (.symbol "x")

/-- Its text. -/
def rowOfSumsChars : Nat → List Char
  | 0 => ['x']
  | n + 1 => rowOfSumsChars n ++ ['+', 'x']

theorem height_rowOfSums (n : Nat) : (rowOfSums n : Formula F).height = n := by
  induction n with
  | zero => rfl
  | succ n ih => simp [rowOfSums, height, ih]

theorem turns_rowOfSums_le (n : Nat) : (rowOfSums n : Formula F).turns ≤ 1 := by
  induction n with
  | zero => exact Nat.zero_le 1
  | succ n ih => exact max_le ih le_rfl

/-- In `x+x*x^x` each operator is in the right operand of the one before, and in `x+x*x^f(...)` all
    of that once more is an argument. -/
def deepest : Nat → Formula F
  | 0 => .binary .add (.symbol "x") (.binary .mul (.symbol "x")
      (.binary .pow (.symbol "x") (.symbol "x")))
  | n + 1 => .binary .add (.symbol "x") (.binary .mul (.symbol "x")
      (.binary .pow (.symbol "x") (.call "f" [deepest n])))

/-- Its text. -/
def deepestChars : Nat → List Char
  | 0 => "x+x*x^x".toList
  | n + 1 => "x+x*x^".toList ++ ("f(".toList ++ (deepestChars n ++ [')']))

/-- The deepest formula has three turns, and four more for each call. -/
theorem turns_deepest (n : Nat) : (deepest n : Formula F).turns = 4 * n + 3 := by
  induction n with
  | zero => rfl
  | succ n ih =>
    simp [deepest, turns, argumentsTurns, ih]
    omega

variable [Scalar F]

/-- A single letter is a spelling of a symbol at every level. -/
theorem writtenAs_x (level : Level) (depth : Nat) :
    WrittenAs level depth ['x'] (.symbol "x" : Formula F) := by
  have plain : Lexer.IsPlainName "x".toList := by decide
  have written : WrittenAs .atom depth "x".toList (_ : Formula F) := .symbol plain.isName
  rw [plain.asciiFold_eq] at written
  exact written.loosen (by cases level <;> decide)

/-- A row of sums is spelled without parentheses. -/
theorem writtenAs_rowOfSums (n depth : Nat) :
    WrittenAs .sum depth (rowOfSumsChars n) (rowOfSums n : Formula F) := by
  induction n with
  | zero => exact writtenAs_x .sum depth
  | succ n ih => exact .operation .add ih (writtenAs_x .product depth)

/-- One round of `deepest`, around what is written in the place of the last `x`. -/
theorem writtenAs_operators {depth : Nat} {cs : List Char} {e : Formula F}
    (h : WrittenAs .atom depth cs e) :
    WrittenAs .sum depth ("x+x*x^".toList ++ cs) (.binary .add (.symbol "x")
      (.binary .mul (.symbol "x") (.binary .pow (.symbol "x") e))) := by
  have power : WrittenAs .power depth _ _ :=
    .operation .pow (writtenAs_x .power depth) h
  have product : WrittenAs .product depth _ _ := .operation .mul (writtenAs_x .product depth) power
  exact .operation .add (writtenAs_x .sum depth) product

/-- Its text is one of its spellings, where it nests no deeper than allowed. -/
theorem writtenAs_deepest {n depth : Nat} (h : n + depth ≤ maxNesting) :
    WrittenAs .sum depth (deepestChars n) (deepest n : Formula F) := by
  induction n generalizing depth with
  | zero => exact writtenAs_operators (writtenAs_x .atom depth)
  | succ n ih =>
    have plain : Lexer.IsPlainName "f".toList := by decide
    have argument : ∀ a ∈ [(deepestChars n, (deepest n : Formula F))],
        WrittenAs .sum (depth + 1) a.1 a.2 := List.forall_mem_singleton.mpr (ih (by omega))
    have call := WrittenAs.call plain.isName argument (by omega)
    rw [plain.asciiFold_eq] at call
    exact writtenAs_operators (by simpa using call)

/-- A formula that is written behind no parenthesis is read from some text. -/
theorem WrittenAs.exists_text {cs : List Char} {e : Formula F} (h : WrittenAs .sum 0 cs e) :
    ∃ text, ofText text = .ok e :=
  ⟨String.ofList cs, ofText_eq (by rwa [String.toList_ofList])⟩

/-! ### Formulas that are read from texts -/

/-- **The height apart from left operands is at most four times the number of parentheses that may
    be open, and three more**, and some text gets there.  So a formula with at most `k` operators in
    a row has a bounded height.  Without `k` there is no bound: rows of sums have every height. -/
theorem ofText_turns :
    IsGreatest {n | ∃ (text : String) (e : Formula F), ofText text = .ok e ∧ e.turns = n}
      (4 * maxNesting + 3) ∧
    (∀ n, ∃ (text : String) (e : Formula F), ofText text = .ok e ∧ e.height = n ∧ e.turns ≤ 1) ∧
    ∀ (text : String) (e : Formula F) (k : Nat), ofText text = .ok e →
      (∀ s, Part s e → s.chain ≤ k) → e.height ≤ (4 * maxNesting + 3) * (k + 1) + k := by
  have bounded {text : String} {e : Formula F} (h : ofText text = .ok e) :
      e.turns ≤ 4 * maxNesting + 3 := by
    obtain ⟨tokenized, -, hread⟩ := bind_eq_ok.mp h
    obtain ⟨spelled, nests⟩ := ofTokens_eq_ok_iff.mp hread
    have counted := spelled.turns_le nests
    simp only [Level.precedence] at counted
    omega
  refine ⟨⟨?_, ?_⟩, fun n => ?_, fun text e k hread hchain => ?_⟩
  · obtain ⟨text, hread⟩ := (writtenAs_deepest (F := F) (le_refl maxNesting)).exists_text
    exact ⟨text, _, hread, turns_deepest maxNesting⟩
  · rintro _ ⟨text, e, hread, rfl⟩
    exact bounded hread
  · obtain ⟨text, hread⟩ := (writtenAs_rowOfSums (F := F) n 0).exists_text
    exact ⟨text, _, hread, height_rowOfSums n, turns_rowOfSums_le n⟩
  · calc e.height ≤ e.turns * (k + 1) + e.chain := height_le hchain
      _ ≤ (4 * maxNesting + 3) * (k + 1) + k :=
        Nat.add_le_add (Nat.mul_le_mul_right _ (bounded hread)) (hchain e .refl)

/-- Two operators in a row, and a call in the right operand of the last. -/
theorem ofText_turns_twoInRow :
    ∃ e : Formula Float, ofText "x - 1 + sin(x)" = .ok e ∧ (∀ s, Part s e → s.chain ≤ 2) ∧
      e.height ≤ (4 * maxNesting + 3) * (2 + 1) + 2 := by
  obtain ⟨e, hread, hchain⟩ : ∃ e : Formula Float, ofText "x - 1 + sin(x)" = .ok e ∧
      ∀ s, Part s e → s.chain ≤ 2 := by
    refine ⟨.binary .add (.binary .sub (.symbol "x") (.number (Scalar.ofDecimal 1 0)))
      (.call "sin" [.symbol "x"]), rfl, fun s hs => ?_⟩
    simp at hs
    rcases hs with rfl | (rfl | rfl | rfl) | rfl | rfl <;> decide
  exact ⟨e, hread, hchain, ofText_turns.2.2 _ e 2 hread hchain⟩

/-- **The heights of the formulas that are read are not bounded.** -/
theorem not_height_bounded :
    ¬ ∃ bound, ∀ (text : String) (e : Formula Float), ofText text = .ok e → e.height ≤ bound := by
  rintro ⟨bound, h⟩
  obtain ⟨text, hread⟩ := (writtenAs_rowOfSums (F := Float) (bound + 1) 0).exists_text
  have higher := h text _ hread
  rw [height_rowOfSums] at higher
  omega

end Formula

end Drafting
