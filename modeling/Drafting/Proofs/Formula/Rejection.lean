import Drafting.Proofs.Formula.Lexemes
import Drafting.Proofs.Result

namespace Drafting

/-!
# Texts that are no lexemes

A text that cannot be cut into pieces is refused by the lexer.  Behind the characters that the lexer
has read it is between two pieces, or in the middle of a name or a numeral; wherever it is, a text
in pieces could go on, unless the next character is refused.  So the character at which the lexer
gives up is the first one that no such text goes on with.  There is one exception: behind a point
without a digit the lexer gives up where the point is, and not where a digit is missing.

* `Segmentation.Begins`, `Segmentation.EndsInPoint` — fronts of texts in pieces;
* `Lexer.Reached` — where the lexer is behind some characters;
* `Lexer.Reached.step`, `Lexer.Reached.of_step_eq_error` — one more character, taken or refused;
* `tokenize_pieces` — the tokens of texts in pieces, and the place where others are refused.
-/

open Lexer TextPiece

/-! ### Fronts of texts -/

namespace Segmentation

/-- A text in pieces can begin with these characters. -/
def Begins (front : List Char) : Prop := ∃ s : Segmentation, front <+: s.chars

/-- The last piece is a numeral of which only a point is there. -/
def EndsInPoint (front : List Char) : Prop :=
  ∃ s : Segmentation, Stop s.pieces ['.'] ∧ front = s.chars ++ ['.']

/-- Nothing. -/
def empty : Segmentation := ⟨[], .nil⟩

/-- One more piece. -/
def concat (s : Segmentation) (p : TextPiece) (h : Stop s.pieces p.chars) : Segmentation where
  pieces := s.pieces ++ [p]
  apart := by
    refine List.isChain_append.mpr ⟨s.apart, .singleton p, fun q hq r hr => ?_⟩
    obtain rfl : p = r := by simpa using hr
    exact h q hq

variable {s : Segmentation} {p : TextPiece} {c : Char} {cs : List Char}

@[simp] theorem chars_concat (h : Stop s.pieces p.chars) :
    (s.concat p h).chars = s.chars ++ p.chars := by
  simp [chars, concat, charsOf]

theorem stop_concat (h : Stop s.pieces p.chars) :
    Stop (s.concat p h).pieces cs ↔ ∀ c ∈ cs.head?, p.goesOn c = false := by
  simp [Stop, concat]

theorem begins_chars (s : Segmentation) : Begins s.chars := ⟨s, List.prefix_rfl⟩

theorem Begins.mono {front front' : List Char} (h : Begins front') (hle : front <+: front') :
    Begins front :=
  h.imp fun _ h => hle.trans h

/-- Behind a point a digit may stand. -/
theorem EndsInPoint.begins_concat {front : List Char} (h : EndsInPoint front)
    (hc : c.isDigit = true) : Begins (front ++ [c]) := by
  obtain ⟨s, hlast, rfl⟩ := h
  have decimal : IsDecimal ['.', c] := by
    refine ⟨by simp [hc], ⟨c, by simp, hc⟩, ?_⟩
    simp [ne_point_of_isDigit hc]
  have stop : Stop s.pieces (TextPiece.lexeme (.numeral _ decimal)).chars := by
    intro q hq d hd
    obtain rfl : '.' = d := by simpa [TextPiece.chars, Lexeme.chars] using hd
    exact hlast q hq _ rfl
  refine ⟨s.concat _ stop, ?_⟩
  simp [TextPiece.chars, Lexeme.chars]

end Segmentation

namespace Lexer

open Segmentation

variable {F : Type} {front w cs : List Char} {c : Char} {l l' : Lexer F} {e : SyntaxError F}

/-! ### Where the lexer is -/

theorem IsName.ne_nil (h : IsName w) : w ≠ [] := by
  rintro rfl
  exact h

/-- Digits and at most one point: a numeral, but perhaps without a digit. -/
structure IsPartialDecimal (w : List Char) : Prop where
  nonempty : w ≠ []
  chars : ∀ c ∈ w, c.isDigit = true ∨ c = '.'
  point : w.count '.' ≤ 1

/-- A numeral has a point once one was read. -/
theorem hasPoint_foldl {n : Numeral} (h : ∀ c ∈ cs, c.isDigit = true ∨ c = '.') :
    (cs.foldl Numeral.add n).hasPoint = true ↔ n.hasPoint = true ∨ '.' ∈ cs := by
  induction cs generalizing n with
  | nil => simp
  | cons c rest ih =>
    obtain ⟨hc, hrest⟩ := List.forall_mem_cons.mp h
    rw [List.foldl_cons, ih hrest]
    rcases hc with hdigit | rfl
    · simp [Numeral.add, hdigit, Numeral.addDigit, (ne_point_of_isDigit hdigit).symm]
    · simp [Numeral.add, Numeral.addPoint]

/-- Where the lexer is behind some characters: between two pieces, or in the middle of one. -/
inductive Reached : List Char → Lexer F → Prop where
  | between (s : Segmentation) (closed : ∀ cs, Stop s.pieces cs) (tokens) :
    Reached s.chars ⟨.behind s.chars, .none, tokens⟩
  | name (s : Segmentation) {w} (hw : IsName w) (hstop : Stop s.pieces w) (letters tokens) :
    Reached (s.chars ++ w)
      ⟨.behind (s.chars ++ w), .name (.behind s.chars) letters, tokens⟩
  | numeral (s : Segmentation) {w} (hw : IsPartialDecimal w) (hstop : Stop s.pieces w) (tokens) :
    Reached (s.chars ++ w)
      ⟨.behind (s.chars ++ w), .numeral (.behind s.chars) (.ofChars w), tokens⟩

/-! ### Starting a piece -/

/-- A character that is a token of its own is a lexeme of its own. -/
theorem exists_lexeme {t : Token F} (h : singleToken? c = some t) :
    ∃ x : Lexeme, x.chars = [c] ∧ ∀ d, x.goesOn d = false := by
  unfold singleToken? at h
  split at h
  · next op hop =>
    have char : op.char = c := by simpa using List.find?_some hop
    exact ⟨.operator op, by rw [Lexeme.chars, char], fun _ => rfl⟩
  split at h
  · next heq => exact ⟨.leftParen, by rw [heq]; rfl, fun _ => rfl⟩
  split at h
  · next heq => exact ⟨.rightParen, by rw [heq]; rfl, fun _ => rfl⟩
  split at h
  · next heq => exact ⟨.comma, by rw [heq]; rfl, fun _ => rfl⟩
  · cases h

/-- A piece of one character that nothing goes on with. -/
theorem Reached.between_concat {s : Segmentation} {p : TextPiece} (hp : p.chars = [c])
    (closed : ∀ d, p.goesOn d = false) (hstop : Stop s.pieces [c]) (tokens) :
    Reached (s.chars ++ [c]) (⟨.behind (s.chars ++ [c]), .none, tokens⟩ : Lexer F) := by
  rw [← hp] at hstop ⊢
  rw [← chars_concat hstop]
  exact .between _ (fun cs => (stop_concat hstop).mpr fun d _ => closed d) tokens

variable [Scalar F]

/-- A character that starts a piece. -/
theorem Reached.of_begin {s : Segmentation} (hstop : Stop s.pieces [c])
    {tokens : List (PlacedToken F)} (h : begin ⟨.behind s.chars, .none, tokens⟩ c = .ok l) :
    Reached (s.chars ++ [c]) l := by
  by_cases hnumeral : c.isDigit = true ∨ c = '.'
  · have partialDecimal : IsPartialDecimal [c] := by
      refine ⟨List.cons_ne_nil _ _, List.forall_mem_singleton.mpr hnumeral, ?_⟩
      exact List.count_le_length
    have numeral : begin ⟨.behind s.chars, .none, tokens⟩ c = .ok _ :=
      step_of_isNumeralStart (s := ⟨.behind s.chars, .none, tokens⟩) rfl hnumeral
    obtain rfl := Except.ok.inj (h.symm.trans numeral)
    rw [← Position.behind_concat]
    exact .numeral s partialDecimal hstop tokens
  · rw [not_or] at hnumeral
    unfold begin at h
    rw [if_neg hnumeral.1, if_neg hnumeral.2] at h
    split at h
    · next hblank =>
      obtain rfl := Except.ok.inj h
      rw [advance, ← Position.behind_concat]
      exact .between_concat (p := .blank c hblank) rfl (fun _ => rfl) hstop tokens
    split at h
    · next hname =>
      obtain rfl := Except.ok.inj h
      rw [advance, ← Position.behind_concat]
      exact .name s (w := [c]) ⟨hname, fun _ hmem => absurd hmem List.not_mem_nil⟩ hstop _ tokens
    split at h
    · next t ht =>
      obtain rfl := Except.ok.inj h
      obtain ⟨x, hx, closed⟩ := exists_lexeme ht
      rw [advance, push, ← Position.behind_concat]
      exact .between_concat (p := .lexeme x) hx closed hstop _
    · cases h

omit [Scalar F] in
/-- A character that starts no piece. -/
theorem of_begin_eq_error (h : l.begin c = .error e) :
    c ≠ '.' ∧ e = ⟨.strayCharacter c, l.position⟩ := by
  unfold begin at h
  split at h
  · cases h
  split at h
  · cases h
  split at h
  · cases h
  split at h
  · cases h
  next hpoint =>
  split at h
  · cases h
  · exact ⟨hpoint, (Except.error.inj h).symm⟩

/-! ### One more character -/

theorem IsPartialDecimal.isDecimal (h : IsPartialDecimal w)
    (hdigit : (Numeral.ofChars w).hasDigit = true) : IsDecimal w :=
  ⟨h.chars, (hasDigit_foldl.mp hdigit).resolve_left nofun, h.point⟩

/-- Without a digit there is a point, and nothing else. -/
theorem IsPartialDecimal.eq_point (h : IsPartialDecimal w)
    (hdigit : (Numeral.ofChars w).hasDigit = false) : w = ['.'] := by
  have points : ∀ c ∈ w, c = '.' := fun c hc =>
    (h.chars c hc).resolve_left fun digit =>
      Bool.eq_false_iff.mp hdigit (hasDigit_foldl.mpr (.inr ⟨c, hc, digit⟩))
  have length := List.count_eq_length.mpr fun c hc => (points c hc).symm
  have one : w.length = 1 :=
    le_antisymm (length ▸ h.point) (List.length_pos_iff.mpr h.nonempty)
  obtain ⟨c, rfl⟩ := List.length_eq_one_iff.mp one
  rw [points c (List.mem_singleton_self c)]

/-- The front of a decimal goes on with any digit, and with a point if it has none yet. -/
theorem IsPartialDecimal.concat (h : IsPartialDecimal w) (hc : c.isDigit = true ∨ c = '.')
    (hpoint : ¬ (c = '.' ∧ (Numeral.ofChars w).hasPoint = true)) : IsPartialDecimal (w ++ [c]) := by
  refine ⟨by simp, List.forall_mem_append.mpr ⟨h.chars, List.forall_mem_singleton.mpr hc⟩, ?_⟩
  rw [List.count_append]
  rcases hc with hdigit | rfl
  · rw [List.count_singleton, if_neg (by simpa using ne_point_of_isDigit hdigit)]
    exact h.point
  · have none : '.' ∉ w := fun hmem => hpoint ⟨rfl, (hasPoint_foldl h.chars).mpr (.inr hmem)⟩
    rw [List.count_eq_zero.mpr none, List.count_singleton_self]

/-- At its end a numeral becomes a number if it has a digit, and is refused as a lone point
    otherwise. -/
theorem complete_numeral {p q : Position} {n : Numeral} {tokens : List (PlacedToken F)}
    {next : Option Char} :
    Lexer.complete ⟨q, .numeral p n, tokens⟩ next =
      if n.hasDigit = true then
        .ok ⟨q, .none, ⟨.number (Scalar.ofDecimal n.digits n.places), p⟩ :: tokens⟩
      else .error ⟨.lonePoint, p⟩ :=
  rfl

/-- A name or numeral that may end ends as a piece. -/
theorem Reached.complete (h : Reached front l) {next : Option Char}
    (hl : l.complete next = .ok l') :
    ∃ (s : Segmentation) (tokens : _), front = s.chars ∧ l' = ⟨.behind s.chars, .none, tokens⟩ ∧
      ∀ c, Stops c l.pending → Stop s.pieces [c] := by
  cases h with
  | between s closed tokens =>
    obtain rfl := Except.ok.inj hl
    exact ⟨s, tokens, rfl, rfl, fun c _ => closed [c]⟩
  | @name s w hw hstop letters tokens =>
    obtain rfl := Except.ok.inj hl
    -- the name becomes one more piece, which letters and digits go on with
    let piece : TextPiece := .lexeme (.identifier w hw)
    have chars : (s.concat piece hstop).chars = s.chars ++ w := chars_concat hstop
    refine ⟨s.concat piece hstop, _, chars.symm, by rw [chars]; rfl, fun c hc => ?_⟩
    exact (stop_concat hstop).mpr
      (by simpa [piece, TextPiece.goesOn, Lexeme.goesOn, Stops] using hc)
  | @numeral s w hw hstop tokens =>
    cases hdigit : (Numeral.ofChars w).hasDigit with
    | false =>
      rw [complete_numeral, if_neg (Bool.eq_false_iff.mp hdigit)] at hl
      cases hl
    | true =>
      rw [complete_numeral, if_pos hdigit] at hl
      obtain rfl := Except.ok.inj hl
      let piece : TextPiece := .lexeme (.numeral w (hw.isDecimal hdigit))
      have chars : (s.concat piece hstop).chars = s.chars ++ w := chars_concat hstop
      refine ⟨s.concat piece hstop, _, chars.symm, by rw [chars], fun c hc => ?_⟩
      exact (stop_concat hstop).mpr
        (by simpa [piece, TextPiece.goesOn, Lexeme.goesOn, Stops] using hc)

/-- Only a point without a digit may not end. -/
theorem Reached.of_complete_eq_error (h : Reached front l) {next : Option Char}
    (hl : l.complete next = .error e) :
    EndsInPoint front ∧ ∀ c, Stops c l.pending → c ≠ '.' := by
  cases h with
  | between s closed tokens => cases hl
  | name s hw hstop letters tokens => cases hl
  | @numeral s w hw hstop tokens =>
    cases hdigit : (Numeral.ofChars w).hasDigit with
    | false =>
      obtain rfl := hw.eq_point hdigit
      exact ⟨⟨s, hstop, rfl⟩, fun c hc => hc.2⟩
    | true =>
      rw [complete_numeral, if_pos hdigit] at hl
      cases hl

/-- A character that ends what the lexer is in the middle of starts a piece. -/
theorem step_of_stops (hc : Stops c l.pending) :
    l.step c = l.complete (some c) >>= fun l' => l'.begin c := by
  obtain ⟨q, pending, tokens⟩ := l
  cases pending with
  | none => rfl
  | name p letters => exact if_neg (Bool.eq_false_iff.mp hc)
  | numeral p n => exact (if_neg (Bool.eq_false_iff.mp hc.1)).trans (if_neg hc.2)

/-- A name goes on. -/
theorem step_name {p q : Position} {letters : List Char} {tokens : List (PlacedToken F)}
    (hc : ¬ Stops c (.name p letters)) :
    Lexer.step ⟨q, .name p letters, tokens⟩ c =
      .ok ⟨q.past c, .name p (c.toLower :: letters), tokens⟩ :=
  if_pos (by simpa [Stops] using hc)

/-- What does not end a numeral is a digit or a point. -/
theorem isDigit_or_eq_point {p : Position} {n : Numeral} (hc : ¬ Stops c (.numeral p n)) :
    c.isDigit = true ∨ c = '.' := by
  by_contra h
  rw [not_or] at h
  exact hc ⟨Bool.eq_false_iff.mpr h.1, h.2⟩

/-- **One more character**, taken. -/
theorem Reached.step (h : Reached front l) (hstep : l.step c = .ok l') :
    Reached (front ++ [c]) l' := by
  by_cases hc : Stops c l.pending
  · rw [step_of_stops hc] at hstep
    obtain ⟨l'', completed, hbegin⟩ := bind_eq_ok.mp hstep
    obtain ⟨s, tokens, rfl, rfl, stop⟩ := h.complete completed
    exact .of_begin (stop c hc) hbegin
  cases h with
  -- between two pieces every character may come
  | between s closed tokens => exact absurd trivial hc
  | @name s w hw hstop letters tokens =>
    rw [step_name hc] at hstep
    obtain rfl := Except.ok.inj hstep
    have hw' : IsName (w ++ [c]) := hw.append (by simpa [Stops] using hc)
    rw [← Position.behind_concat, List.append_assoc]
    exact .name s hw' (hstop.append hw.ne_nil) _ tokens
  | @numeral s w hw hstop tokens =>
    have goesOn := isDigit_or_eq_point hc
    rw [step_numeral goesOn] at hstep
    split at hstep
    · cases hstep
    next hpoint =>
    obtain rfl := Except.ok.inj hstep
    have digits : (Numeral.ofChars w).add c = .ofChars (w ++ [c]) := by
      rw [Numeral.ofChars, Numeral.ofChars, List.foldl_concat]
    rw [← Position.behind_concat, List.append_assoc, digits]
    exact .numeral s (hw.concat goesOn hpoint) (hstop.append hw.nonempty) tokens

/-- **One more character**, refused: no piece goes on with it, unless a digit is missing. -/
theorem Reached.of_step_eq_error (h : Reached front l) (hstep : l.step c = .error e) :
    EndsInPoint front ∧ c ≠ '.' ∨
      e = ⟨if c = '.' then .secondPoint else .strayCharacter c, .behind front⟩ := by
  by_cases hc : Stops c l.pending
  · rw [step_of_stops hc] at hstep
    rcases bind_eq_error.mp hstep with completed | ⟨l'', completed, hbegin⟩
    · exact .inl ((h.of_complete_eq_error completed).imp_right fun stops => stops c hc)
    · obtain ⟨s, tokens, rfl, rfl, -⟩ := h.complete completed
      obtain ⟨hpoint, rfl⟩ := of_begin_eq_error hbegin
      exact .inr (by rw [if_neg hpoint])
  cases h with
  | between s closed tokens => exact absurd trivial hc
  | name s hw hstop letters tokens =>
    rw [step_name hc] at hstep
    cases hstep
  | numeral s hw hstop tokens =>
    rw [step_numeral (isDigit_or_eq_point hc)] at hstep
    split at hstep
    · next hpoint =>
      obtain rfl := Except.error.inj hstep
      exact .inr (by rw [if_pos hpoint.1])
    · cases hstep

/-- **Many characters**, taken. -/
theorem Reached.run {l : Lexer F} (h : start.run cs = .ok l) : Reached cs l := by
  induction cs using List.reverseRecOn generalizing l with
  | nil =>
    obtain rfl := Except.ok.inj h
    exact .between .empty (fun _ => nofun) []
  | append_singleton cs c ih =>
    rw [run_append] at h
    obtain ⟨l', hcs, h⟩ := bind_eq_ok.mp h
    rw [run_cons] at h
    obtain ⟨l'', hc, h⟩ := bind_eq_ok.mp h
    obtain rfl := Except.ok.inj h
    exact (ih hcs).step hc

/-! ### What a refused text says -/

/-- Everything that the lexer took could have become a text in pieces. -/
theorem Reached.begins (h : Reached front l) : Begins front := by
  rcases isOk_or_error (l.complete none) with ⟨l', hl⟩ | ⟨e, hl⟩
  · obtain ⟨s, -, rfl, -⟩ := h.complete hl
    exact begins_chars s
  · have begins := (h.of_complete_eq_error hl).1.begins_concat (c := '0') rfl
    exact begins.mono (List.prefix_append ..)

/-- At the end of the text, only a digit can be missing. -/
theorem Reached.of_finish_eq_error (h : Reached front l) (hl : l.finish = .error e) :
    EndsInPoint front := by
  rcases bind_eq_error.mp hl with hl | ⟨l', -, hl⟩
  · exact (h.of_complete_eq_error hl).1
  · cases hl

/-- Where the lexer comes to the end, the text is one in pieces. -/
theorem Reached.exists_segmentation (h : Reached front l) {r : TokenizedText F}
    (hl : l.finish = .ok r) : ∃ s : Segmentation, s.chars = front := by
  obtain ⟨l', hl, -⟩ := bind_eq_ok.mp hl
  obtain ⟨s, -, rfl, -⟩ := h.complete hl
  exact ⟨s, rfl⟩

/-- A text is refused at a character or at its end. -/
theorem exists_of_run_finish_eq_error {l : Lexer F} (h : (l.run cs >>= finish) = .error e) :
    ∃ front rest l', cs = front ++ rest ∧ l.run front = .ok l' ∧
      (rest = [] ∧ l'.finish = .error e ∨
        ∃ c after, rest = c :: after ∧ l'.step c = .error e) := by
  rcases bind_eq_error.mp h with h | ⟨l', hl, h⟩
  · obtain ⟨front, c, after, l', rfl, hfront, hc⟩ := foldlM_eq_error.mp h
    exact ⟨front, c :: after, l', rfl, hfront, .inr ⟨c, after, rfl, hc⟩⟩
  · exact ⟨cs, [], l', (List.append_nil cs).symm, hl, .inl ⟨rfl, h⟩⟩

/-- A point that neither a digit nor another point follows. -/
theorem run_finish_point {q : Position} {tokens : List (PlacedToken F)}
    (hends : ∀ c ∈ cs.head?, ¬ (c.isDigit = true ∨ c = '.')) :
    (Lexer.run ⟨q, .none, tokens⟩ ('.' :: cs) >>= finish) = .error ⟨.lonePoint, q⟩ := by
  have point : Lexer.step ⟨q, .none, tokens⟩ '.' =
      .ok ⟨q.past '.', .numeral q (Numeral.empty.add '.'), tokens⟩ := rfl
  rw [run_cons, point, Except.bind]
  cases cs with
  | nil => rfl
  | cons c after =>
    obtain ⟨hdigit, hpoint⟩ := not_or.mp (hends c rfl)
    have stops : Stops c (.numeral q (Numeral.empty.add '.')) :=
      ⟨Bool.eq_false_iff.mpr hdigit, hpoint⟩
    rw [run_cons, step_of_stops stops]
    rfl

/-- **A point without a digit** behind pieces that it is apart from. -/
theorem run_chars_point {s : Segmentation} (hstop : Stop s.pieces ['.'])
    (hends : ∀ c ∈ cs.head?, ¬ (c.isDigit = true ∨ c = '.')) :
    ((start : Lexer F).run (s.chars ++ '.' :: cs) >>= finish) =
      .error ⟨.lonePoint, .behind s.chars⟩ := by
  have stop : Stop s.pieces ('.' :: cs) := hstop
  have pieces :
      (Lexer.run ⟨.behind [], .none, []⟩ (charsOf s.pieces ++ '.' :: cs) >>= finish) = _ :=
    run_pieces s.apart stop ([] : List (PlacedToken F))
  exact pieces.trans (run_finish_point hends)

/-- No text in pieces goes on with a character that the lexer refuses. -/
theorem not_begins_of_step (hfront : (start : Lexer F).run front = .ok l)
    (hstep : l.step c = .error e) : ¬ Begins (front ++ [c]) := by
  rintro ⟨s, rest, hs⟩
  have refused : (start : Lexer F).run s.chars = .error e := by
    rw [← hs, List.append_assoc, run_append, hfront]
    show l.run (c :: rest) = _
    rw [run_cons, hstep]
    rfl
  have taken := s.tokenize_text (F := F)
  rw [tokenize, Segmentation.text, String.toList_ofList, refused] at taken
  cases taken

end Lexer

/-- **Texts in pieces, and all others.**  A text that is put together from pieces is read as its
    lexemes, each with its place.  Any other text is refused where the longest front ends that such
    a text can begin with; but behind a point that no digit is next to, and no other point follows,
    it is refused where this point is. -/
theorem tokenize_pieces {F : Type} [Scalar F] :
    (∀ s : Segmentation, tokenize s.text = .ok (⟨s.tokens, .behind s.chars⟩ : TokenizedText F)) ∧
    ∀ text : String, (∀ s : Segmentation, s.text ≠ text) →
      ∃ front rest e, text.toList = front ++ rest ∧
        Segmentation.Begins front ∧ (∀ c ∈ rest.head?, ¬ Segmentation.Begins (front ++ [c])) ∧
        tokenize text = (.error e : Except (SyntaxError F) (TokenizedText F)) ∧
        (Segmentation.EndsInPoint front ∧ rest.head? ≠ some '.' →
          e = ⟨.lonePoint, .behind front.dropLast⟩) ∧
        (¬ (Segmentation.EndsInPoint front ∧ rest.head? ≠ some '.') → ∃ c after, rest = c :: after ∧
          e = ⟨if c = '.' then .secondPoint else .strayCharacter c, .behind front⟩) := by
  refine ⟨fun s => s.tokenize_text, fun text hnone => ?_⟩
  rcases isOk_or_error (tokenize text : Except (SyntaxError F) _) with ⟨r, hr⟩ | ⟨e, he⟩
  · -- what is read without an error has been put together from pieces
    obtain ⟨l, hl, hfinish⟩ := bind_eq_ok.mp hr
    obtain ⟨s, hs⟩ := (Reached.run hl).exists_segmentation hfinish
    exact absurd (by rw [Segmentation.text, hs, String.ofList_toList]) (hnone s)
  obtain ⟨front, rest, l, htext, hfront, hrest⟩ := exists_of_run_finish_eq_error he
  have reached := Reached.run hfront
  -- no text in pieces goes on with the next character
  have stuck : ∀ c ∈ rest.head?, ¬ Segmentation.Begins (front ++ [c]) := by
    rcases hrest with ⟨rfl, -⟩ | ⟨c, after, rfl, hc⟩
    · simp
    · rintro d ⟨rfl⟩
      exact not_begins_of_step hfront hc
  refine ⟨front, rest, e, htext, reached.begins, stuck, he, ?_, fun hother => ?_⟩
  · -- behind a lone point it is the point that is refused
    rintro ⟨hpoint, hsecond⟩
    have ends : ∀ c ∈ rest.head?, ¬ (c.isDigit = true ∨ c = '.') := by
      rintro c hc (hdigit | rfl)
      · exact stuck c hc (hpoint.begins_concat hdigit)
      · exact hsecond hc
    obtain ⟨s, hstop, rfl⟩ := hpoint
    have refused := run_chars_point (F := F) hstop ends
    rw [tokenize, htext, List.append_assoc] at he
    rw [List.dropLast_concat]
    exact Except.error.inj (he.symm.trans refused)
  · -- anywhere else there is a next character, and it is the one that is refused
    rcases hrest with ⟨rfl, hfinish⟩ | ⟨c, after, rfl, hc⟩
    · exact absurd ⟨reached.of_finish_eq_error hfinish, (Option.some_ne_none _).symm⟩ hother
    · rcases reached.of_step_eq_error hc with ⟨hpoint, hne⟩ | rfl
      · exact absurd ⟨hpoint, by simpa using hne⟩ hother
      · exact ⟨c, after, rfl, rfl⟩

/-- A name on the first line, and on the second one a point with a letter behind it. -/
theorem tokenize_pieces_lonePoint :
    (∀ s : Segmentation, s.text ≠ "a\n.b") ∧
      tokenize "a\n.b" =
        (.error ⟨.lonePoint, ⟨2, 1⟩⟩ : Except (SyntaxError Float) (TokenizedText Float)) ∧
      Segmentation.Begins ['a', '\n', '.'] ∧ ¬ Segmentation.Begins ['a', '\n', '.', 'b'] := by
  have refused : tokenize "a\n.b" =
      (.error ⟨.lonePoint, ⟨2, 1⟩⟩ : Except (SyntaxError Float) (TokenizedText Float)) := by rfl
  have none : ∀ s : Segmentation, s.text ≠ "a\n.b" := by
    intro s hs
    have taken := (tokenize_pieces (F := Float)).1 s
    rw [hs, refused] at taken
    cases taken
  obtain ⟨front, rest, e, htext, begins, stuck, he, -, hother⟩ :=
    (tokenize_pieces (F := Float)).2 _ none
  obtain rfl := Except.error.inj (he.symm.trans refused)
  have ends : Segmentation.EndsInPoint front := by
    by_contra h
    obtain ⟨c, after, -, heq⟩ := hother fun hpoint => h hpoint.1
    split at heq <;> cases heq
  obtain ⟨s, -, rfl⟩ := ends
  -- there is one point in the text, so this is the front that ends in it
  have cut : ['a', '\n'] ++ '.' :: ['b'] = s.chars ++ '.' :: rest := by
    rw [List.append_assoc] at htext
    exact htext
  obtain ⟨hs, -, rfl⟩ := (List.append_cons_inj_of_notMem (by decide) (by decide)).mp cut
  rw [← hs] at begins stuck
  exact ⟨none, refused, begins, stuck 'b' rfl⟩

end Drafting
