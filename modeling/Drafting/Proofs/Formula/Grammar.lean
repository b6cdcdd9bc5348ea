import Drafting.Formula.Token

namespace Drafting

/-!
# The grammar of formulas

Which lists of tokens spell which formulas, level by level:

    sum     := sum (+|-) product | product
    product := product (*|/) power | power
    power   := power ^ atom | atom
    atom    := number | symbol | call ( [sum {, sum}] ) | ( sum )

The left operand of an operator is of the operator's own level, which makes all operators group to
the left, and parentheses leave no trace in the formula.
-/

variable {F : Type}

/-- The levels of the grammar, from the loosest to the tightest. -/
inductive Level where
  | sum
  | product
  | power
  | atom
  deriving DecidableEq, Repr

/-- The least precedence that operators outside all parentheses have in a list of the level. -/
def Level.precedence : Level → Nat
  | sum => 1
  | product => 2
  | power => 3
  | atom => 4

/-- The tokens of a list spell a formula of a level. -/
inductive Spells : Level → List (Token F) → Formula F → Prop where
  | sum {ts e} : Spells .product ts e → Spells .sum ts e
  | product {ts e} : Spells .power ts e → Spells .product ts e
  | power {ts e} : Spells .atom ts e → Spells .power ts e
  | addition {op ts us l r} (h : op = .add ∨ op = .sub) :
    Spells .sum ts l → Spells .product us r →
    Spells .sum (ts ++ .operator op :: us) (.binary op l r)
  | multiplication {op ts us l r} (h : op = .mul ∨ op = .div) :
    Spells .product ts l → Spells .power us r →
    Spells .product (ts ++ .operator op :: us) (.binary op l r)
  | exponentiation {ts us l r} :
    Spells .power ts l → Spells .atom us r →
    Spells .power (ts ++ .operator .pow :: us) (.binary .pow l r)
  | number (x) : Spells .atom [.number x] (.number x)
  | symbol (name) : Spells .atom [.symbol name] (.symbol name)
  | group {ts e} : Spells .sum ts e → Spells .atom (.leftParen :: (ts ++ [.rightParen])) e
  /-- The arguments are given with the tokens that spell them. -/
  | call (name) (args : List (List (Token F) × Formula F)) : (∀ a ∈ args, Spells .sum a.1 a.2) →
    Spells .atom
      (.call name :: .leftParen :: ([.comma].intercalate (args.map Prod.fst) ++ [.rightParen]))
      (.call name (args.map Prod.snd))

/-! ### Levels of operators -/

namespace Operator

/-- The level of the operations with an operator. -/
def level : Operator → Level
  | add | sub => .sum
  | mul | div => .product
  | pow => .power

/-- The level of the right operands of an operator. -/
def rightLevel : Operator → Level
  | add | sub => .product
  | mul | div => .power
  | pow => .atom

@[simp] theorem precedence_level (op : Operator) : op.level.precedence = op.precedence := by
  cases op <;> rfl

@[simp] theorem precedence_rightLevel (op : Operator) :
    op.rightLevel.precedence = op.precedence + 1 := by cases op <;> rfl

theorem precedence_lt_atom (op : Operator) : op.precedence < Level.atom.precedence := by
  cases op <;> decide

end Operator

namespace Spells

variable {ts us : List (Token F)} {e l r : Formula F}

/-- The rule for operations, for all operators at once. -/
theorem operation (op : Operator) (hl : Spells op.level ts l) (hr : Spells op.rightLevel us r) :
    Spells op.level (ts ++ .operator op :: us) (.binary op l r) := by
  cases op with
  | add => exact .addition (.inl rfl) hl hr
  | sub => exact .addition (.inr rfl) hl hr
  | mul => exact .multiplication (.inl rfl) hl hr
  | div => exact .multiplication (.inr rfl) hl hr
  | pow => exact .exponentiation hl hr

/-- What is of a tight level is of every looser one. -/
theorem loosen {a b : Level} (h : Spells b ts e) (hab : a.precedence ≤ b.precedence) :
    Spells a ts e := by
  cases a with
  | sum =>
    cases b with
    | sum => exact h
    | product => exact .sum h
    | power => exact .sum (.product h)
    | atom => exact .sum (.product (.power h))
  | product =>
    cases b with
    | sum => exact absurd hab (by decide)
    | product => exact h
    | power => exact .product h
    | atom => exact .product (.power h)
  | power =>
    cases b with
    | power => exact h
    | atom => exact .power h
    | sum | product => exact absurd hab (by decide)
  | atom =>
    cases b with
    | atom => exact h
    | sum | product | power => exact absurd hab (by decide)

theorem toSum {level : Level} (h : Spells level ts e) : Spells .sum ts e :=
  h.loosen (by cases level <;> decide)

end Spells

/-! ### Parentheses -/

namespace Token

/-- Does the token open a parenthesis? -/
def opens : Token F → Bool
  | .leftParen => true
  | _ => false

/-- Does the token close a parenthesis? -/
def closes : Token F → Bool
  | .rightParen => true
  | _ => false

end Token

/-- Behind `depth` open parentheses, no parenthesis of the list is nested deeper than `limit`.  The
    depth of an opening parenthesis is the number of parentheses that are open behind it. -/
def NestsWithin (limit depth : Nat) (ts : List (Token F)) : Prop :=
  ∀ before after, ts = before ++ .leftParen :: after →
    depth + before.countP Token.opens + 1 ≤ limit + before.countP Token.closes

namespace NestsWithin

variable {limit depth : Nat} {ts us : List (Token F)} {t : Token F}

theorem nil : NestsWithin limit depth ([] : List (Token F)) := by
  intro before after h
  simp at h

theorem of_append (h : NestsWithin limit depth (ts ++ us)) : NestsWithin limit depth ts := by
  rintro before after rfl
  exact h before (after ++ us) (by simp)

/-- What is open in front of a later part of the list. -/
theorem append_right (ts : List (Token F)) (h : NestsWithin limit depth (ts ++ us)) {depth' : Nat}
    (open_behind : depth' + ts.countP Token.closes = depth + ts.countP Token.opens) :
    NestsWithin limit depth' us := by
  rintro before after rfl
  have bound := h (ts ++ before) after (by simp)
  simp only [List.countP_append] at bound
  omega

/-- A parenthesis that opens, and what stands behind it. -/
theorem open_paren (h : NestsWithin limit depth (.leftParen :: ts)) :
    depth < limit ∧ NestsWithin limit (depth + 1) ts := by
  constructor
  · simpa [Nat.succ_le_iff] using h [] ts rfl
  · exact append_right [.leftParen] h (by simp [Token.opens, Token.closes])

/-- One more token at the end. -/
theorem concat (h : NestsWithin limit depth ts)
    (ht : t = .leftParen → depth + ts.countP Token.opens + 1 ≤ limit + ts.countP Token.closes) :
    NestsWithin limit depth (ts ++ [t]) := by
  intro before after heq
  rcases List.eq_nil_or_concat after with rfl | ⟨front, last, rfl⟩
  · obtain ⟨rfl, rfl⟩ := List.append_inj' heq rfl |>.imp id List.singleton_inj.mp
    exact ht rfl
  · have same : ts ++ [t] = before ++ .leftParen :: front ++ [last] := by simpa using heq
    exact h before front (List.append_inj' same rfl).1

/-- A token that opens nothing. -/
theorem single (ht : t ≠ .leftParen) : NestsWithin limit depth [t] := by
  intro before after h
  rcases before with _ | ⟨first, rest⟩
  · exact absurd (List.cons.inj h).1 ht
  · simp at h

/-- Two lists one after the other, the first of which closes what it opens. -/
theorem append (hts : NestsWithin limit depth ts)
    (balanced : ts.countP Token.opens = ts.countP Token.closes) (hus : NestsWithin limit depth us) :
    NestsWithin limit depth (ts ++ us) := by
  intro before after heq
  rcases List.append_eq_append_iff.mp heq with ⟨front, rfl, rfl⟩ | ⟨back, rfl, hback⟩
  · have bound := hus front after rfl
    simp only [List.countP_append]
    omega
  · rcases back with _ | ⟨first, rest⟩
    · have bound := hus [] after (by simpa using hback.symm)
      simp at balanced bound
      omega
    · obtain ⟨rfl, -⟩ := List.cons.inj hback
      exact hts before rest rfl

/-- A list in parentheses. -/
theorem paren (hdepth : depth < limit) (hts : NestsWithin limit (depth + 1) ts)
    (balanced : ts.countP Token.opens = ts.countP Token.closes) :
    NestsWithin limit depth (.leftParen :: (ts ++ [.rightParen])) := by
  intro before after heq
  rcases before with _ | ⟨first, before⟩
  · simpa [Nat.succ_le_iff] using hdepth
  · obtain ⟨rfl, hrest⟩ := List.cons.inj heq
    have bound := hts.append balanced (.single (t := .rightParen) nofun) before after hrest
    simp only [List.countP_cons, Token.opens, Token.closes, if_true]
    simp only [Bool.false_eq_true, if_false]
    omega

end NestsWithin

namespace Spells

variable {level : Level} {ts : List (Token F)} {e : Formula F}

/-- Commas keep parentheses balanced. -/
theorem balanced_intercalate {lists : List (List (Token F))}
    (h : ∀ ts ∈ lists, ts.countP Token.opens = ts.countP Token.closes) :
    ([.comma].intercalate lists).countP Token.opens =
      ([.comma].intercalate lists).countP Token.closes := by
  induction lists with
  | nil => rfl
  | cons first rest ih =>
    obtain ⟨hfirst, hrest⟩ := List.forall_mem_cons.mp h
    cases rest with
    | nil => simpa using hfirst
    | cons second rest =>
      rw [List.intercalate_cons_cons, List.countP_append, List.countP_append, List.countP_append,
        List.countP_append, hfirst, ih hrest]
      rfl

/-- What spells a formula closes the parentheses that it opens. -/
theorem balanced (h : Spells level ts e) : ts.countP Token.opens = ts.countP Token.closes := by
  induction h with
  | sum _ ih | product _ ih | power _ ih => exact ih
  | addition _ _ _ ihl ihr | multiplication _ _ _ ihl ihr | exponentiation _ _ ihl ihr =>
    simp [ihl, ihr, Token.opens, Token.closes]
  | number | symbol => rfl
  | group _ ih => simp [List.countP_cons, ih, Token.opens, Token.closes]
  | @call name args _ ih =>
    have inner := balanced_intercalate (List.forall_mem_map.mpr ih)
    simp [List.countP_cons, inner, Token.opens, Token.closes]

end Spells

end Drafting
