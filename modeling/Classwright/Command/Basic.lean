import Classwright.Command.Flag

/-!
# Commands

What a run of a command leaves to its caller: an exit code and what is written to the two outputs.
-/

namespace Classwright

/-- What a run of a command yields besides files. -/
structure Outcome where
  /-- The exit code: 0 for success, 1 for a failure, 2 for a wrong command line. -/
  exit : UInt8 := 0
  /-- What is written to the standard output. -/
  output : String := ""
  /-- What is written to the error output. -/
  errors : String := ""
  deriving Repr, DecidableEq, Inhabited

namespace Outcome

/-- The outcome of a command line whose flags are refused: what is wrong and how the command is
used.  To ask for that is no failure. -/
def ofFlagError (usage : String) (e : FlagError) : Outcome :=
  { exit := if e == .help then 0 else 2, errors := e.message ++ usage }

end Outcome

/-- How a command is used: a first line and its flags. -/
def usageText {σ : Type} (firstLine : String) (flags : List (Flag σ)) : String :=
  firstLine ++ "\n" ++ String.join (flags.map Flag.describe)

end Classwright
