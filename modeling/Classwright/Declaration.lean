import Classwright.Text.Basic

/-!
# Kinds and types of declarations
-/

namespace Classwright

/-- The type of a value, or what a procedure returns. -/
inductive ValueType where
  | void | int
  deriving Repr, DecidableEq, Inhabited

namespace ValueType

/-- The word for a type in a source text. -/
def word : ValueType → String
  | void => "void"
  | int => "int"

/-- The letter for a type in a class file. -/
def descriptor : ValueType → String
  | void => "V"
  | int => "I"

/-- The type with a given number. -/
def ofNumber (n : Int) : ValueType :=
  if n = 1 then int else void

end ValueType

/-- What a declaration declares. -/
inductive DeclKind where
  | constant | var | parameter | procedure
  deriving Repr, DecidableEq, Inhabited

namespace DeclKind

/-- The word for a kind in messages and graphs. -/
def word : DeclKind → String
  | constant => "constant"
  | var => "variable"
  | parameter => "parameter"
  | procedure => "procedure"

/-- The kind with a given number; numbers other than 0, 1 and 2 stand for a procedure. -/
def ofNumber (n : Int) : DeclKind :=
  if n = 0 then constant else if n = 1 then var else if n = 2 then parameter else procedure

end DeclKind

/-- The number of a declaration in its class, counted from 0. -/
abbrev DeclId := Nat

/-- The number of a symbol table in its class, counted from 0. -/
abbrev TableId := Nat

/-- The class-file descriptor of a procedure that takes `arity` numbers. -/
def procedureDescriptor (arity : Nat) (result : ValueType) : Text :=
  Text.ofString "(" ++ List.replicate arity 0x49 ++ Text.ofString ")" ++
    Text.ofString result.descriptor

end Classwright
