import Drafting.Binary64
import Drafting.Proofs.Formula.Reading

namespace Drafting

/-!
# The reader accepts what the grammar derives

The stack of the reader stands for the tokens it has read: an open parenthesis for itself, a call
for the arguments it has, a waiting operator for itself and its left operand.  Waiting operators
bind more tightly the further up they are, so that closing them makes formulas of looser and looser
levels.  The other way round, the reader follows every derivation: behind the tokens of a formula,
closing the waiting operators comes to the same as if the formula had been read in one piece.

* `Reader.Holds.steps` — what a reader holds has been spelled by the tokens it has read;
* `Reader.Reads.of_spells` — the reader follows derivations;
* `Formula.ofText_eq_ok_iff` — which texts are read, and as which formulas.
-/

variable {F : Type}

open Reader

/-! ### What the stack stands for -/

/-- The frames of a stack are what is open behind a list of tokens. -/
inductive Pending : List (Frame F) → List (Token F) → Prop where
  | nil : Pending [] []
  | group {frames ts} : Pending frames ts → Pending (.group :: frames) (ts ++ [.leftParen])
  | call {frames ts} (name) (args : List (List (Token F) × Formula F)) : Pending frames ts →
    (∀ a ∈ args, Spells .sum a.1 a.2) →
    Pending (.call name (args.map Prod.snd).reverse :: frames)
      (ts ++ .call name :: .leftParen :: args.flatMap fun a => a.1 ++ [.comma])
  | operand {frames ts us left op} : Pending frames ts → Spells op.level us left →
    Frame.Free op.precedence frames →
    Pending (.operand left op :: frames) (ts ++ us ++ [.operator op])

/-- The reader is where a list of tokens leads. -/
inductive Reader.Holds : Reader F → List (Token F) → Prop where
  | operand {frames ts} : Pending frames ts → Holds ⟨.operand, frames⟩ ts
  | opening {frames ts} (name) : Pending frames ts →
    Holds ⟨.opening, .call name [] :: frames⟩ (ts ++ [.call name])
  | arguments {frames ts} (name) : Pending frames ts →
    Holds ⟨.arguments, .call name [] :: frames⟩ (ts ++ [.call name, .leftParen])
  | complete {frames ts us e} : Pending frames ts → Spells .atom us e →
    Holds ⟨.complete e, frames⟩ (ts ++ us)

namespace Pending

variable {frames : List (Frame F)} {ts us : List (Token F)} {e : Formula F}

/-- Closing waiting operators joins their operands. -/
theorem collapse (h : Pending frames ts) {least : Nat} {level : Level} (he : Spells level us e)
    (hfree : Frame.Free level.precedence frames) (hleast : least ≤ level.precedence) :
    ∃ ts' us' level', ts ++ us = ts' ++ us' ∧ Pending (Frame.collapse least e frames).2 ts' ∧
      Spells level' us' (Frame.collapse least e frames).1 ∧ least ≤ level'.precedence := by
  induction h generalizing us e level with
  | nil => exact ⟨[], us, level, rfl, .nil, he, hleast⟩
  | group h => exact ⟨_, us, level, rfl, .group h, he, hleast⟩
  | call name args h hargs => exact ⟨_, us, level, rfl, .call name args h hargs, he, hleast⟩
  | @operand rest ts₀ us₀ left op h hleft hop ih =>
    by_cases hclose : least ≤ op.precedence
    · -- the formula read last is the right operand
      have tight : op.rightLevel.precedence ≤ level.precedence := by
        rw [op.precedence_rightLevel]
        exact hfree left op rest rfl
      have joined := hleft.operation op (he.loosen tight)
      rw [← op.precedence_level] at hop
      obtain ⟨ts', us', level', heq, rest⟩ := ih joined hop (by rwa [op.precedence_level])
      rw [Frame.collapse_operand hclose]
      exact ⟨ts', us', level', by simpa using heq, rest⟩
    · -- the operator binds less tightly, and keeps waiting
      have free : Frame.Free least (.operand left op :: rest) := by
        intro _ _ _ heq
        cases heq
        exact Nat.not_le.mp hclose
      rw [Frame.collapse_free free]
      exact ⟨_, us, level, rfl, .operand h hleft hop, he, hleast⟩

end Pending

/-! ### What has been read is spelled -/

/-- Lists that end in a comma each, and one more list. -/
theorem intercalate_concat (lists : List (List (Token F))) (last : List (Token F)) :
    [.comma].intercalate (lists ++ [last]) = lists.flatMap (· ++ [.comma]) ++ last := by
  induction lists with
  | nil => simp
  | cons first rest ih =>
    obtain ⟨second, others, heq⟩ := List.exists_cons_of_ne_nil (l := rest ++ [last]) (by simp)
    rw [heq] at ih
    rw [List.cons_append, heq, List.intercalate_cons_cons, ih]
    simp

/-- Arguments that are spelled stay so when one more is added behind them. -/
theorem forall_mem_concat {args : List (List (Token F) × Formula F)} {us : List (Token F)}
    {e : Formula F} (h : ∀ a ∈ args, Spells .sum a.1 a.2) (he : Spells .sum us e) :
    ∀ a ∈ args ++ [(us, e)], Spells .sum a.1 a.2 := by
  intro a ha
  rcases List.mem_append.mp ha with ha | ha
  · exact h a ha
  · obtain rfl := List.mem_singleton.mp ha
    exact he

namespace Reader

variable {r r' : Reader F} {t : Token F} {ts done : List (Token F)}

/-- Where an operand may start, the stack stands for all that has been read. -/
theorem Holds.pending (h : Holds r done) (hphase : r.phase.AwaitsOperand) :
    Pending r.frames done := by
  cases h with
  | operand h => exact h
  | arguments name h => simpa using Pending.call name [] h nofun
  | opening | complete => cases hphase

/-- What is open behind a formula, once the operators that bind at least as tightly as `least` have
    been closed. -/
theorem Holds.collapse {e : Formula F} {frames : List (Frame F)}
    (h : Holds ⟨.complete e, frames⟩ done) (least : Nat) (hleast : least < Level.atom.precedence) :
    ∃ ts us level, done = ts ++ us ∧ Pending (Frame.collapse least e frames).2 ts ∧
      Spells level us (Frame.collapse least e frames).1 ∧ least ≤ level.precedence := by
  cases h with
  | complete h he =>
    exact h.collapse he (fun _ op _ _ => op.precedence_lt_atom) (Nat.le_of_lt hleast)

/-- What is open behind a formula, once all operators up to the next parenthesis have been
    closed. -/
theorem Holds.close {e e' : Formula F} {frames rest : List (Frame F)}
    (h : Holds ⟨.complete e, frames⟩ done) (hc : Frame.collapse 0 e frames = (e', rest)) :
    ∃ ts us, done = ts ++ us ∧ Pending rest ts ∧ Spells .sum us e' := by
  obtain ⟨ts, us, level, heq, hts, hus, -⟩ := h.collapse 0 (by decide)
  rw [hc] at hts hus
  exact ⟨ts, us, heq, hts, hus.toSum⟩

/-- **One step.**  What the frames hold spells the tokens that have been read, one more of them
    after each step. -/
theorem Holds.step (h : Holds r done) (hs : Step r t r') : Holds r' (done ++ [t]) := by
  cases hs with
  | number x hphase => exact .complete (h.pending hphase) (.number x)
  | symbol name hphase => exact .complete (h.pending hphase) (.symbol name)
  | openGroup hphase => exact .operand (.group (h.pending hphase))
  | startCall name hphase => exact .opening name (h.pending hphase)
  | openCall =>
    cases h with
    | opening name h => simpa using Holds.arguments name h
  | @noArguments name =>
    cases h with
    | arguments _ h => simpa using Holds.complete h (.call name [] nofun)
  | @operator e frames _ _ op hc =>
    obtain ⟨ts, us, level, rfl, hts, hus, hle⟩ := h.collapse op.precedence op.precedence_lt_atom
    rw [hc] at hts hus
    -- the operators that are still open bind less tightly
    have free := Frame.free_collapse op.precedence e frames
    rw [hc] at free
    exact .operand (.operand hts (hus.loosen (by rwa [op.precedence_level])) free)
  | closeGroup hc =>
    obtain ⟨ts, us, rfl, hts, hus⟩ := h.close hc
    cases hts with
    | group hts => simpa using Holds.complete hts (.group hus)
  | @closeCall _ _ _ name _ _ hc =>
    obtain ⟨ts, us, rfl, hts, hus⟩ := h.close hc
    cases hts with
    | @call _ ts _ args hts hargs =>
      have all := forall_mem_concat hargs hus
      simpa [intercalate_concat, List.flatMap_map] using Holds.complete hts (.call name _ all)
  | @comma _ _ _ name _ _ hc =>
    obtain ⟨ts, us, rfl, hts, hus⟩ := h.close hc
    cases hts with
    | @call _ ts _ args hts hargs =>
      have all := forall_mem_concat hargs hus
      simpa using Holds.operand (.call name _ hts all)

/-- What the reader holds is spelled by what it has read. -/
theorem Holds.steps (h : Holds r done) (hs : Steps r ts r') : Holds r' (done ++ ts) := by
  induction hs generalizing done with
  | nil => simpa using h
  | cons first _ ih => simpa using ih (h.step first)

/-- The formula at the end of a text is spelled by its tokens. -/
theorem Holds.finish {e : Formula F} (h : Holds r done) (hf : r.finish = .ok e) :
    Spells .sum done e := by
  obtain ⟨phase, frames⟩ := r
  cases phase with
  | operand | opening | arguments => cases hf
  | complete e₀ =>
    rcases hc : Frame.collapse 0 e₀ frames with ⟨e', _ | ⟨frame, rest⟩⟩ <;>
      simp only [Reader.finish, hc] at hf
    case cons => cases hf
    case nil =>
      obtain ⟨ts, us, rfl, hts, hus⟩ := h.close hc
      cases hf
      cases hts
      exact hus

end Reader

/-! ### What is spelled can be read -/

theorem Frame.Free.mono {frames : List (Frame F)} {least least' : Nat} (h : Free least frames)
    (hle : least ≤ least') : Free least' frames :=
  fun left op rest heq => Nat.lt_of_lt_of_le (h left op rest heq) hle

theorem Frame.free_operand {left : Formula F} {op : Operator} {frames : List (Frame F)} :
    Free (op.precedence + 1) (.operand left op :: frames) := by
  rintro _ _ _ ⟨⟩
  exact Nat.lt_succ_self _

/-- Both operands stand behind as many open parentheses as the operation. -/
theorem NestsWithin.operands {limit depth : Nat} {ts us : List (Token F)} {level : Level}
    {op : Operator} {l : Formula F} (h : NestsWithin limit depth (ts ++ .operator op :: us))
    (hl : Spells level ts l) : NestsWithin limit depth ts ∧ NestsWithin limit depth us := by
  refine ⟨h.of_append, append_right (ts ++ [.operator op]) (by simpa using h) ?_⟩
  simp [Token.opens, Token.closes, hl.balanced]

/-- The formulas between the commas of a list stand behind as many open parentheses as the list. -/
theorem NestsWithin.of_intercalate {limit depth : Nat} {args : List (List (Token F) × Formula F)}
    (hargs : ∀ a ∈ args, Spells .sum a.1 a.2)
    (h : NestsWithin limit depth ([.comma].intercalate (args.map Prod.fst))) :
    ∀ a ∈ args, NestsWithin limit depth a.1 := by
  induction args with
  | nil => exact nofun
  | cons first rest ih =>
    obtain ⟨hfirst, hrest⟩ := List.forall_mem_cons.mp hargs
    cases rest with
    | nil => simpa using h
    | cons second rest =>
      rw [List.map_cons, List.map_cons, List.intercalate_cons_cons, ← List.map_cons] at h
      have balanced : (first.1 ++ [Token.comma]).countP Token.opens =
          (first.1 ++ [Token.comma]).countP Token.closes := by
        simp [Token.opens, Token.closes, hfirst.balanced]
      refine List.forall_mem_cons.mpr ⟨h.of_append.of_append, ih hrest ?_⟩
      exact append_right _ h (by rw [balanced])

namespace Reader

variable {frames : List (Frame F)} {ts us : List (Token F)} {e l r : Formula F}

/-- On top of the stack, the tokens can be read where an operand may start, and behind them closing
    the waiting operators comes to the same as if the formula had been read in one piece. -/
def Reads (frames : List (Frame F)) (level : Level) (ts : List (Token F)) (e : Formula F) : Prop :=
  ∀ phase : Phase F, phase.AwaitsOperand → ∃ last frames',
    Steps ⟨phase, frames⟩ ts ⟨.complete last, frames'⟩ ∧
    ∀ least ≤ level.precedence, Frame.collapse least last frames' = Frame.collapse least e frames

/-- What is read as a formula of some level is read as one of any looser level. -/
theorem Reads.loosen {level level' : Level} (h : Reads frames level' ts e)
    (hle : level.precedence ≤ level'.precedence) : Reads frames level ts e := by
  intro phase hphase
  obtain ⟨last, frames', hsteps, hclose⟩ := h phase hphase
  exact ⟨last, frames', hsteps, fun least h => hclose least (Nat.le_trans h hle)⟩

/-- A formula of one token. -/
theorem Reads.leaf {t : Token F}
    (h : ∀ phase, phase.AwaitsOperand → Step ⟨phase, frames⟩ t ⟨.complete e, frames⟩) :
    Reads frames .atom [t] e :=
  fun phase hphase => ⟨e, frames, (h phase hphase).single, fun _ _ => rfl⟩

/-- To read an operation is to read its left operand, the operator, and its right operand on a frame
    of its own. -/
theorem Reads.operation (op : Operator) (hfree : Frame.Free op.precedence frames)
    (hl : Reads frames op.level ts l)
    (hr : Reads (.operand l op :: frames) op.rightLevel us r) :
    Reads frames op.level (ts ++ .operator op :: us) (.binary op l r) := by
  intro phase hphase
  obtain ⟨last, frames', left_steps, hclose⟩ := hl phase hphase
  -- the operator closes all that is in its own left operand
  have closed : Frame.collapse op.precedence last frames' = (l, frames) := by
    rw [hclose _ (Nat.le_of_eq op.precedence_level.symm), Frame.collapse_free hfree]
  obtain ⟨last', frames'', right_steps, hclose'⟩ := hr .operand .operand
  refine ⟨last', frames'', left_steps.append (.cons (.operator op closed) right_steps), ?_⟩
  intro least hle
  rw [op.precedence_level] at hle
  rw [hclose' least (by rw [op.precedence_rightLevel]; omega), Frame.collapse_operand hle]

/-- To read a group is to read a sum between parentheses, one level deeper. -/
theorem Reads.group (hdepth : frames.countP Frame.isParenthesis < maxNesting)
    (h : Reads (.group :: frames) .sum ts e) :
    Reads frames .atom (.leftParen :: (ts ++ [.rightParen])) e := by
  intro phase hphase
  obtain ⟨last, frames', hsteps, hclose⟩ := h .operand .operand
  have closed : Frame.collapse 0 last frames' = (e, .group :: frames) := hclose 0 (Nat.zero_le _)
  have inside := hsteps.append (Step.closeGroup closed).single
  exact ⟨e, frames, .cons (.openGroup hphase hdepth) inside, fun _ _ => rfl⟩

/-- The arguments of a call that has some already, and its end. -/
theorem Steps.arguments (name : String) {args : List (List (Token F) × Formula F)} (hne : args ≠ [])
    (h : ∀ a ∈ args, ∀ given, Reads (.call name given :: frames) .sum a.1 a.2)
    {phase : Phase F} (hphase : phase.AwaitsOperand) (given : List (Formula F)) :
    Steps ⟨phase, .call name given :: frames⟩
      ([.comma].intercalate (args.map Prod.fst) ++ [.rightParen])
      ⟨.complete (.call name (given.reverse ++ args.map Prod.snd)), frames⟩ := by
  induction args generalizing phase given with
  | nil => exact absurd rfl hne
  | cons first rest ih =>
    obtain ⟨hfirst, hrest⟩ := List.forall_mem_cons.mp h
    obtain ⟨last, frames', hsteps, hclose⟩ := hfirst given phase hphase
    have closed : Frame.collapse 0 last frames' = (first.2, .call name given :: frames) :=
      hclose 0 (Nat.zero_le _)
    cases rest with
    | nil => simpa using hsteps.append (Step.closeCall closed).single
    | cons second rest =>
      have others := ih (List.cons_ne_nil _ _) hrest .operand (first.2 :: given)
      simpa using hsteps.append (.cons (.comma closed) others)

/-- To read a call is to read its arguments one after the other, whatever has been given before. -/
theorem Reads.call (name : String) {args : List (List (Token F) × Formula F)}
    (hdepth : frames.countP Frame.isParenthesis < maxNesting)
    (h : ∀ a ∈ args, ∀ given, Reads (.call name given :: frames) .sum a.1 a.2) :
    Reads frames .atom
      (.call name :: .leftParen :: ([.comma].intercalate (args.map Prod.fst) ++ [.rightParen]))
      (.call name (args.map Prod.snd)) := by
  intro phase hphase
  have inside : Steps ⟨.arguments, .call name [] :: frames⟩
      ([.comma].intercalate (args.map Prod.fst) ++ [.rightParen])
      ⟨.complete (.call name (args.map Prod.snd)), frames⟩ := by
    cases args with
    | nil => exact Step.noArguments.single
    | cons first rest => exact .arguments name (List.cons_ne_nil _ _) h .arguments []
  exact ⟨_, frames, .cons (.startCall name hphase hdepth) (.cons .openCall inside), fun _ _ => rfl⟩

/-- The reader follows derivations. -/
theorem Reads.of_spells {level : Level} (h : Spells level ts e)
    (hfree : Frame.Free level.precedence frames)
    (hnest : NestsWithin maxNesting (frames.countP Frame.isParenthesis) ts) :
    Reads frames level ts e := by
  induction h generalizing frames with
  | sum _ ih | product _ ih | power _ ih =>
    exact (ih (hfree.mono (by decide)) hnest).loosen (by decide)
  | number x => exact .leaf fun _ hphase => .number x hphase
  | symbol name => exact .leaf fun _ hphase => .symbol name hphase
  | group _ ih =>
    obtain ⟨hdepth, hnest⟩ := hnest.open_paren
    exact .group hdepth (ih nofun (by simpa using hnest.of_append))
  | @call name args hargs ih =>
    have behind := NestsWithin.append_right [.call name] hnest rfl
    obtain ⟨hdepth, hinside⟩ := behind.open_paren
    refine .call name hdepth fun a ha given => ih a ha nofun ?_
    -- each argument is read behind the open call
    have each := NestsWithin.of_intercalate hargs hinside.of_append a ha
    simpa using each
  | addition hop hl _ ihl ihr | multiplication hop hl _ ihl ihr =>
    obtain ⟨hts, hus⟩ := hnest.operands hl
    rcases hop with rfl | rfl <;>
      exact .operation _ hfree (ihl hfree hts) (ihr Frame.free_operand (by simpa using hus))
  | exponentiation hl _ ihl ihr =>
    obtain ⟨hts, hus⟩ := hnest.operands hl
    exact .operation .pow hfree (ihl hfree hts) (ihr Frame.free_operand (by simpa using hus))

end Reader

/-! ### Texts -/

namespace Formula

variable {ts : List (Token F)} {e : Formula F}

/-- The reader takes a list of tokens to a formula iff they spell it and do not nest too deep. -/
theorem read_eq_ok_iff : (∃ r, Reader.Steps Reader.start ts r ∧ r.finish = .ok e) ↔
    Spells .sum ts e ∧ NestsWithin maxNesting 0 ts := by
  constructor
  · rintro ⟨r, hsteps, hfinish⟩
    have held := Reader.Holds.steps (.operand .nil) hsteps
    exact ⟨held.finish hfinish, (Reader.Counted.start.steps hsteps).within⟩
  · rintro ⟨hspells, hnest⟩
    have reads : Reads [] .sum ts e := .of_spells hspells nofun hnest
    obtain ⟨last, frames, hsteps, hclose⟩ := reads .operand .operand
    have closed : Frame.collapse 0 last frames = (e, []) := hclose 0 (Nat.zero_le _)
    exact ⟨_, hsteps, by simp only [Reader.finish, closed]⟩

/-- Tokens are read as a formula iff they spell it and nest no deeper than allowed. -/
theorem ofTokens_eq_ok_iff {text : TokenizedText F} : ofTokens text = .ok e ↔
    Spells .sum (text.tokens.map (·.token)) e ∧
      NestsWithin maxNesting 0 (text.tokens.map (·.token)) := by
  rw [← read_eq_ok_iff, ofTokens]
  cases hrun : Reader.start.run text.tokens with
  | error fault =>
    refine ⟨nofun, fun ⟨r, hsteps, _⟩ => ?_⟩
    cases hrun.symm.trans (Reader.run_eq_ok.mpr hsteps)
  | ok r =>
    have only : ∀ r', Reader.Steps Reader.start (text.tokens.map (·.token)) r' ↔ r = r' := by
      intro r'
      rw [← Reader.run_eq_ok, hrun, Except.ok.injEq]
    simp only [only, exists_eq_left']
    show (r.finish.mapError fun fault => SyntaxError.mk fault text.finish) = .ok e ↔
      r.finish = .ok e
    cases r.finish with
    | error fault => exact ⟨nofun, nofun⟩
    | ok e' =>
      exact ⟨fun h => congrArg Except.ok (Except.ok.inj h),
        fun h => congrArg Except.ok (Except.ok.inj h)⟩

/-- A text is read as a formula iff its tokens spell the formula and no parenthesis is nested deeper
    than 256; the tokens of a text that is read spell no other formula. -/
theorem ofText_eq_ok_iff [Scalar F] {text : String} {tokenized : TokenizedText F}
    (h : tokenize text = .ok tokenized) :
    (∀ e, ofText text = .ok e ↔
      Spells .sum (tokenized.tokens.map (·.token)) e ∧
        NestsWithin 256 0 (tokenized.tokens.map (·.token))) ∧
    ∀ e e' : Formula F, ofText text = .ok e →
      Spells .sum (tokenized.tokens.map (·.token)) e' → e' = e := by
  have reads : ofText text = ofTokens tokenized := by
    rw [ofText, h]
    rfl
  rw [reads]
  refine ⟨fun e => ofTokens_eq_ok_iff, fun e e' he he' => ?_⟩
  have nests := (ofTokens_eq_ok_iff.mp he).2
  exact Except.ok.inj ((ofTokens_eq_ok_iff.mpr ⟨he', nests⟩).symm.trans he)

/-- The tokens of `X-y-f(2,(x))^x`. -/
def mixedTokens : List (Token Float) :=
  [.symbol "x", .operator .sub, .symbol "y", .operator .sub, .call "f", .leftParen,
    .number (Scalar.ofDecimal 2 0), .comma, .leftParen, .symbol "x", .rightParen, .rightParen,
    .operator .pow, .symbol "x"]

/-- The differences group to the left, and the parentheses around an argument leave no trace. -/
def mixedFormula : Formula Float :=
  .binary .sub (.binary .sub (.symbol "x") (.symbol "y"))
    (.binary .pow (.call "f" [.number (Scalar.ofDecimal 2 0), .symbol "x"]) (.symbol "x"))

/-- Subtraction to the left, a power, and a call with two arguments, one of them in parentheses. -/
theorem ofText_eq_ok_iff_mixed :
    ∃ tokenized, tokenize "X-y-f(2,(x))^x" = .ok tokenized ∧
      tokenized.tokens.map (·.token) = mixedTokens ∧
      Spells .sum mixedTokens mixedFormula ∧ NestsWithin 256 0 mixedTokens ∧
      ∀ e, Spells .sum mixedTokens e → e = mixedFormula := by
  have htokens : tokenize "X-y-f(2,(x))^x" =
      .ok ⟨mixedTokens.zipWith (fun t i => ⟨t, ⟨1, i⟩⟩) (List.range' 1 14), ⟨1, 15⟩⟩ := by rfl
  have hread : ofText "X-y-f(2,(x))^x" = .ok mixedFormula := by rfl
  obtain ⟨accepts, unique⟩ := ofText_eq_ok_iff htokens
  obtain ⟨spells, nests⟩ := (accepts mixedFormula).mp hread
  exact ⟨_, htokens, rfl, spells, nests, fun e he => unique _ e hread he⟩

end Formula

end Drafting
