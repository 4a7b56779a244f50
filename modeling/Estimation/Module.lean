import Estimation.Digest
import Estimation.Syntax.Grammar

/-!
Modules and their imports. A module is its code; which name it has, and which other modules go on
in it, belongs to the project.
-/

namespace Estimation

/-- Some code, with its digest at hand. -/
structure Module where
  code : String
  hash : String
  hash_eq : hash = Digest.ofText code

/-- How an import takes values over: all exports as one dictionary, or each binding by itself. -/
inductive ImportForm where
  | named (name : String)
  | continued
  deriving DecidableEq, Repr

namespace ImportForm

def name? : ImportForm → Option String
  | .named name => some name
  | .continued => none

end ImportForm

structure Import where
  specifier : String
  form : ImportForm
  /-- The hash that the imported module has to have. -/
  pin : Option String
  span : Option Span
  deriving DecidableEq, Repr

namespace Import

/-- An import that the code does not mention. -/
def continues (specifier : String) : Import := ⟨specifier, .continued, none, none⟩

def text (i : Import) : String :=
  match i.form with
  | .named name => s!"import \"{i.specifier}\" as {name}"
  | .continued => s!"continues \"{i.specifier}\""

/-- The same import with a pin of its own, or none. -/
def pinned (i : Import) (pin : Option String) : Import := { i with pin }

end Import

namespace Module

def ofCode (code : String) : Module := ⟨code, Digest.ofText code, rfl⟩

@[simp] theorem code_ofCode (code : String) : (ofCode code).code = code := rfl

@[ext] theorem ext {a b : Module} (h : a.code = b.code) : a = b := by
  obtain ⟨code, hash, rfl⟩ := a
  obtain ⟨_, _, rfl⟩ := b
  cases h
  rfl

instance : DecidableEq Module := fun a b => decidable_of_iff (a.code = b.code) ⟨ext, fun h => h ▸ rfl⟩

def program (m : Module) : Except Syntax.Error Syntax.Program := Syntax.parse m.code

/-- The imports that the code names. -/
def namedImports (m : Module) : Except Syntax.Error (List Import) :=
  m.program.map fun p => p.imports.map fun i => ⟨i.path, .named i.name, none, some i.span⟩

end Module

end Estimation
