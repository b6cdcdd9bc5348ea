import Drafting.Proofs.Formula.Spelling

namespace Drafting

/-!
# Completing what the reader has read

Wherever the reader is, a formula can be completed: the operand or call that it is in the middle of
takes a name, and every open parenthesis is closed.  So the tokens that were read are never at
fault, and the first token that the reader refuses is one that nothing can follow: there is one
state only that the tokens before it lead to.

* `Reader.completion` — tokens that complete what was read;
* `Reader.exists_steps_completion` — they lead to a formula from every state;
* `Reader.Refuses` — the reader cannot take a token, or cannot end;
* `Reader.exists_refuses` — where a list of tokens is given up, one of them is refused;
* `Reader.Refuses.not_begins` — no list that is read goes on with what is refused.
-/

variable {F : Type}

/-! ### Closing all that is open -/

/-- When all waiting operators are closed, a parenthesis is on top of the stack, if anything. -/
theorem Frame.collapse_zero_cases (e : Formula F) (frames : List (Frame F)) :
    ∃ e', Frame.collapse 0 e frames = (e', []) ∨
      (∃ rest, Frame.collapse 0 e frames = (e', .group :: rest)) ∨
      ∃ name args rest, Frame.collapse 0 e frames = (e', .call name args :: rest) := by
  have free := Frame.free_collapse 0 e frames
  rcases hc : Frame.collapse 0 e frames with ⟨e', _ | ⟨frame, rest⟩⟩
  · exact ⟨e', .inl rfl⟩
  rw [hc] at free
  cases frame with
  | group => exact ⟨e', .inr (.inl ⟨rest, rfl⟩)⟩
  | call name args => exact ⟨e', .inr (.inr ⟨name, args, rest, rfl⟩)⟩
  | operand left op => exact absurd (free left op rest rfl) (Nat.not_lt_zero _)

/-- The tokens that complete what the reader is in the middle of. -/
def Phase.completion : Phase F → List (Token F)
  | .operand | .arguments => [.symbol "x"]
  | .opening => [.leftParen, .symbol "x"]
  | .complete _ => []

namespace Reader

variable {r r' r₁ r₂ : Reader F} {t : Token F} {ts us : List (Token F)}

/-- The tokens that complete what was read: an operand, and the ends of all open parentheses. -/
def completion (r : Reader F) : List (Token F) :=
  r.phase.completion ++ List.replicate r.nesting .rightParen

/-- Behind a formula, as many parentheses as are open complete the text. -/
theorem exists_steps_closing (e : Formula F) (frames : List (Frame F)) :
    ∃ r' e', Steps ⟨.complete e, frames⟩
      (List.replicate (frames.countP Frame.isParenthesis) .rightParen) r' ∧
      r'.finish = .ok e' := by
  -- each parenthesis takes a frame away, with the operators that wait above it
  induction hn : frames.countP Frame.isParenthesis using Nat.strongRecOn generalizing e frames with
  | _ n ih =>
  subst hn
  have kept := Frame.countP_collapse 0 e frames
  obtain ⟨e', hc | ⟨rest, hc⟩ | ⟨name, args, rest, hc⟩⟩ := Frame.collapse_zero_cases e frames
  · rw [hc, List.countP_nil] at kept
    rw [← kept]
    exact ⟨_, e', .nil _, by simp only [finish, hc]⟩
  · rw [hc, Frame.countP_group] at kept
    rw [← kept, List.replicate_succ]
    obtain ⟨r', e'', hsteps, hfinish⟩ := ih _ (by omega) e' rest rfl
    exact ⟨r', e'', .cons (.closeGroup hc) hsteps, hfinish⟩
  · rw [hc, Frame.countP_call] at kept
    rw [← kept, List.replicate_succ]
    obtain ⟨r', e'', hsteps, hfinish⟩ := ih _ (by omega) (.call name (e' :: args).reverse) rest rfl
    exact ⟨r', e'', .cons (.closeCall hc) hsteps, hfinish⟩

/-- The first tokens of the completion lead behind a formula, with the same parentheses open. -/
theorem exists_steps_phase (r : Reader F) :
    ∃ e, Steps r r.phase.completion ⟨.complete e, r.frames⟩ := by
  obtain ⟨phase, frames⟩ := r
  cases phase with
  | operand => exact ⟨_, (Step.symbol "x" .operand).single⟩
  | arguments => exact ⟨_, (Step.symbol "x" .arguments).single⟩
  | opening => exact ⟨_, .cons .openCall (Step.symbol "x" .arguments).single⟩
  | complete e => exact ⟨e, .nil _⟩

/-- **What was read can be completed.** -/
theorem exists_steps_completion (r : Reader F) :
    ∃ r' e, Steps r r.completion r' ∧ r'.finish = .ok e := by
  obtain ⟨e, operand_steps⟩ := r.exists_steps_phase
  obtain ⟨r', e', closing_steps, hfinish⟩ := exists_steps_closing e r.frames
  exact ⟨r', e', operand_steps.append closing_steps, hfinish⟩

/-! ### The one state that tokens lead to -/

theorem Step.unique (h₁ : Step r t r₁) (h₂ : Step r t r₂) : r₁ = r₂ :=
  Except.ok.inj (h₁.step_eq.symm.trans h₂.step_eq)

/-- The reader has one way to go through a list of tokens. -/
theorem Steps.unique (h₁ : Steps r ts r₁) (h₂ : Steps r ts r₂) : r₁ = r₂ := by
  induction h₁ with
  | nil =>
    cases h₂
    rfl
  | cons first _ ih =>
    obtain _ | ⟨first', others⟩ := h₂
    obtain rfl := first.unique first'
    exact ih others

/-- A list is read front first. -/
theorem Steps.of_append (h : Steps r (ts ++ us) r') : ∃ r₁, Steps r ts r₁ ∧ Steps r₁ us r' := by
  induction ts generalizing r with
  | nil => exact ⟨r, .nil r, h⟩
  | cons t ts ih =>
    obtain _ | ⟨first, others⟩ := h
    obtain ⟨r₁, front, back⟩ := ih others
    exact ⟨r₁, .cons first front, back⟩

/-! ### What is refused -/

/-- The reader cannot take a token; the end of the text is the token `none`. -/
def Refuses (r : Reader F) : Option (Token F) → Prop
  | some t => ∃ fault, r.step t = .error fault
  | none => ∃ fault, r.finish = .error fault

/-- A reader that gives up refuses a token, and the fault shows there. -/
theorem exists_refuses {placed : List (PlacedToken F)} {error : SyntaxError F}
    (h : r.run placed = .error error) :
    ∃ front t back r', placed = front ++ t :: back ∧ Steps r (front.map (·.token)) r' ∧
      r'.Refuses (some t.token) ∧ t.position = error.position := by
  induction placed generalizing r with
  | nil => cases h
  | cons t rest ih =>
    rw [run_cons, stepPlaced] at h
    cases hstep : r.step t.token with
    | error fault =>
      rw [hstep] at h
      cases h
      exact ⟨[], t, rest, r, rfl, .nil r, ⟨fault, hstep⟩, rfl⟩
    | ok next =>
      rw [hstep] at h
      obtain ⟨front, t', back, r', rfl, hsteps, refused⟩ := ih h
      exact ⟨t :: front, t', back, r', rfl, .cons (step_eq_ok.mp hstep) hsteps, refused⟩

/-- **Nothing that is read goes on with what is refused**, neither by that token nor by the end. -/
theorem Refuses.not_begins {m : Option (Token F)} (hm : r₁.Refuses m) (hfront : Steps r ts r₁)
    (hread : Steps r us r') {e : Formula F} (hfinish : r'.finish = .ok e) :
    ¬ ts.map some ++ [m] <+: us.map some ++ [none] := by
  intro hbegins
  cases m with
  | some t =>
    -- the token is one of the list, and not its end
    obtain ⟨fault, refused⟩ := hm
    have within : (ts ++ [t]).map some <+: us.map some := by
      rcases List.prefix_concat_iff.mp hbegins with heq | hwithin
      · cases List.append_inj_right' heq rfl
      · simpa using hwithin
    obtain ⟨back, rfl⟩ := (List.prefix_map_iff_of_injective fun _ _ => Option.some.inj).mp within
    obtain ⟨r₂, front, -⟩ := hread.of_append
    obtain ⟨r₃, front, last⟩ := front.of_append
    obtain rfl := hfront.unique front
    obtain _ | ⟨last, -⟩ := last
    cases last.step_eq.symm.trans refused
  | none =>
    obtain ⟨fault, refused⟩ := hm
    have whole : ts = us := by
      rcases List.prefix_concat_iff.mp hbegins with heq | hwithin
      · exact (List.map_inj_right fun _ _ => Option.some.inj).mp (List.append_inj_left' heq rfl)
      · have : none ∈ us.map some := hwithin.subset (by simp)
        simp at this
    subst whole
    obtain rfl := hfront.unique hread
    cases hfinish.symm.trans refused

end Reader

end Drafting
