import Drafting.Proofs.Formula.Derivative
import Drafting.Proofs.Formula.Tokens

namespace Drafting

/-!
# Names and numbers in formulas that are read

Each node of a formula shows in the tokens that spell it: a number, a name or an operator as itself,
a call as its name.  So what is known about the tokens of a text is known about the formula that the
text is read as: its names are plain, and its numbers are values of numerals.

* `Spells.token_mem` — the nodes of a formula are among the tokens that spell it;
* `Formula.isPlain_of_ofText` — names and numbers in formulas that are read.
-/

variable {F : Type}

/-- What is in one of some lists is in the list that joins them with separators. -/
theorem mem_intercalate {α : Type} {separator l : List α} {lists : List (List α)} {x : α}
    (hl : l ∈ lists) (hx : x ∈ l) : x ∈ separator.intercalate lists := by
  induction lists with
  | nil => cases hl
  | cons first rest ih =>
    cases rest with
    | nil =>
      obtain rfl := List.mem_singleton.mp hl
      simpa using hx
    | cons second rest =>
      rw [List.intercalate_cons_cons]
      rcases List.mem_cons.mp hl with rfl | hl
      · exact List.mem_append_left _ (List.mem_append_left _ hx)
      · exact List.mem_append_right _ (ih hl)

/-- The token by which a node shows in a text. -/
def Formula.token : Formula F → Token F
  | .number x => .number x
  | .symbol name => .symbol name
  | .binary op _ _ => .operator op
  | .call name _ => .call name

/-- **The nodes of a formula are among its tokens.** -/
theorem Spells.token_mem {level : Level} {ts : List (Token F)} {e e' : Formula F}
    (h : Spells level ts e) (hpart : Formula.Part e' e) : e'.token ∈ ts := by
  induction h with
  | sum _ ih | product _ ih | power _ ih => exact ih hpart
  | addition _ _ _ ihl ihr | multiplication _ _ _ ihl ihr | exponentiation _ _ ihl ihr =>
    rcases hpart with _ | hl | hr
    · exact List.mem_append_right _ List.mem_cons_self
    · exact List.mem_append_left _ (ihl hl)
    · exact List.mem_append_right _ (List.mem_cons_of_mem _ (ihr hr))
  | number | symbol =>
    cases hpart
    exact List.mem_singleton_self _
  | group _ ih => exact List.mem_cons_of_mem _ (List.mem_append_left _ (ih hpart))
  | call f args _ ih =>
    obtain _ | _ | _ | ⟨hmem, hpart⟩ := hpart
    · exact List.mem_cons_self
    · obtain ⟨a, ha, rfl⟩ := List.mem_map.mp hmem
      have inside : e'.token ∈ [.comma].intercalate (args.map Prod.fst) :=
        mem_intercalate (List.mem_map_of_mem ha) (ih a ha hpart)
      simp [inside]

namespace Formula

variable [Scalar F] {text : String} {e e' : Formula F}

/-- **The names in a formula that is read are plain**, and its numbers are values of numerals. -/
theorem isPlain_of_ofText (h : ofText text = .ok e) (hpart : Part e' e) : e'.token.IsPlain := by
  obtain ⟨tokenized, htokens, hread⟩ := bind_eq_ok.mp h
  have spelled := (ofTokens_eq_ok_iff.mp hread).1
  exact (Lexer.writes_of_tokenize htokens).plain _ (spelled.token_mem hpart)

/-- They stay as they are when the letters of names are folded. -/
theorem asciiFold_of_ofText (h : ofText text = .ok e) {name : String}
    (hname : Part (.symbol name) e) : Text.asciiFold name = name :=
  Lexer.IsPlainName.asciiFold_eq (isPlain_of_ofText h hname)

end Formula

end Drafting
