import Drafting.Formula.Basic
import Drafting.Keyed
import Drafting.Text.Lowercase

namespace Drafting

/-!
# Forward substitution

Before a system is solved, names can be replaced by numbers or by other names; afterwards each
replaced name is given the value of what it was replaced by.  Replacements are chained: where a
name stands for another one that is itself replaced, the end of the chain counts.  Names are
compared without regard to the case of ASCII letters, and the first entry that fits is the one
that counts.
-/

/-- What a name is replaced by. -/
inductive Substitution (F : Type) where
  | value (x : F)
  | variable (name : String)
  deriving Repr, BEq

/-- The replacements, in order. -/
abbrev Substitutions (F : Type) := Keyed (Substitution F)

namespace Keyed

variable {α : Type}

/-- The first entry whose name is `name` up to the case of ASCII letters. -/
def findNamed? (m : Keyed α) (name : String) : Option (String × α) :=
  m.find? (Text.sameName · name)

end Keyed

namespace Substitutions

variable {F : Type}

/-- The entry for a name. -/
def lookup? (subs : Substitutions F) (name : String) : Option (Substitution F) :=
  (subs.findNamed? name).map Prod.snd

/-- Goes on from `s` for at most `steps` entries. -/
def follow (subs : Substitutions F) : (steps : Nat) → Substitution F → Substitution F
  | steps + 1, .variable name =>
    match subs.lookup? name with
    | some s => follow subs steps s
    | none => .variable name
  | _, s => s

/-- The end of the chain that starts at a name.  A chain without a cycle visits each entry at most
    once, so the number of entries bounds its length. -/
def resolve? (subs : Substitutions F) (name : String) : Option (Substitution F) :=
  (subs.lookup? name).map (subs.follow subs.size)

/-- What a replaced name becomes in a formula. -/
def formula : Substitution F → Formula F
  | .value x => .number x
  | .variable name => .symbol (Text.lowercase name)

/-- The formula with its names replaced. -/
def substitute (subs : Substitutions F) (e : Formula F) : Formula F :=
  e.replace fun name => (subs.resolve? name).map formula

/-- The value a name gets back, once the variables are solved. -/
def solvedValue? (subs : Substitutions F) (a : Keyed F) (name : String) : Option F :=
  match subs.resolve? name with
  | some (.value x) => some x
  | some (.variable target) => (a.findNamed? target).map Prod.snd
  | none => none

/-- Gives `name` a value: to the first variable of that name, or as a new variable. -/
def assign (a : Keyed F) (name : String) (x : F) : Keyed F :=
  a.insert (((a.findNamed? name).map Prod.fst).getD name) x

/-- Gives a replaced name its value back, if there is one. -/
def writeBackOne (subs : Substitutions F) (a : Keyed F) (name : String) : Keyed F :=
  match subs.solvedValue? a name with
  | some x => assign a name x
  | none => a

/-- Gives each replaced name its value back, in the order of the replacements. -/
def writeBack (subs : Substitutions F) (a : Keyed F) : Keyed F :=
  subs.keys.foldl subs.writeBackOne a

end Substitutions

end Drafting
