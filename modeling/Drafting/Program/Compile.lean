import Drafting.Program.Instruction
import Drafting.Text.Lowercase

namespace Drafting

/-!
# From formulas to programs

Names in formulas are in lower case, so a scope holds the lower case of the variables' names.  The
first variable with a name is the one the name stands for.  Instructions come out in the order in
which operands are complete; faults are found in the order in which the nodes are written, a call
before its arguments.
-/

/-- Why a formula cannot be compiled. -/
inductive CompileError where
  | unknownVariable (name : String)
  | unknownFunction (name : String)
  | arity (name : String) (expected found : Nat)
  deriving DecidableEq, Repr

/-- The sentence for a fault of a formula. -/
def CompileError.message : CompileError → String
  | .unknownVariable name => "Unknown variable: " ++ name
  | .unknownFunction name => "Unknown function: " ++ name
  | .arity name expected found =>
    "Function " ++ name ++ " expects " ++ toString expected ++ " argument(s), got "
      ++ toString found

/-- The names that formulas may use; variable `i` has the name at place `i`. -/
structure Scope where
  keys : List String
  deriving DecidableEq, Repr

namespace Scope

/-- The scope of variables with the given names. -/
def ofNames (names : List String) : Scope := ⟨names.map Text.lowercase⟩

/-- The number of variables. -/
def size (s : Scope) : Nat := s.keys.length

/-- The first variable with this name. -/
def index? (s : Scope) (name : String) : Option Nat := s.keys.idxOf? name

/-- Each name with its variable, in the order of the variables. -/
def bindings (s : Scope) : List (String × Nat) :=
  s.keys.zipIdx.filter fun (name, i) => s.index? name == some i

variable {F : Type}

mutual

/-- The instructions that compute a formula. -/
def instructions (s : Scope) : Formula F → Except CompileError (List (Instruction F))
  | .number x => .ok [.constant x]
  | .symbol name =>
    match s.index? name with
    | some i => .ok [.load i]
    | none => .error (.unknownVariable name)
  | .binary op l r => do
    let left ← s.instructions l
    let right ← s.instructions r
    return left ++ right ++ [.binary op]
  | .call name args =>
    match Function.ofName? name with
    | none => .error (.unknownFunction name)
    | some f =>
      if args.length = f.arity then do
        let code ← s.argumentInstructions args
        return code ++ [.call f]
      else .error (.arity name f.arity args.length)

/-- The instructions that compute formulas one after the other. -/
def argumentInstructions (s : Scope) :
    List (Formula F) → Except CompileError (List (Instruction F))
  | [] => .ok []
  | e :: rest => do
    let first ← s.instructions e
    let others ← s.argumentInstructions rest
    return first ++ others

end

/-- Compiles a formula. -/
def compile (s : Scope) (e : Formula F) : Except CompileError (Program F) := do
  return ⟨← s.instructions e, s.size⟩

end Scope

end Drafting
