import Classwright.Text.Number
import Classwright.Text.Quoted

/-!
# Flags of a command line

A command is followed by flags and then by arguments.  A flag is a name behind one or two hyphens;
its value stands behind an equals sign or is the next word.  A switch without an equals sign is
turned on.  The first word that is no flag, or the word `--`, ends the flags.
-/

namespace Classwright

/-- What a flag sets in options of type `σ`, with the value it has if it is not given. -/
inductive FlagKind (σ : Type) where
  /-- On or off. -/
  | switch (usual : Bool) (set : Bool → σ → σ)
  /-- Any text. -/
  | word (usual : String) (set : String → σ → σ)
  /-- A number. -/
  | number (usual : Int) (set : Int → σ → σ)

/-- A flag. -/
structure Flag (σ : Type) where
  /-- Its name. -/
  name : String
  /-- What it is for. -/
  purpose : String
  /-- What it sets. -/
  kind : FlagKind σ

/-- Why the flags of a command line are refused. -/
inductive FlagError where
  /-- A word is no flag though it starts like one. -/
  | malformed (word : String)
  /-- There is no flag of a name. -/
  | unknown (name : String)
  /-- A flag has no value. -/
  | noValue (name : String)
  /-- The value of a switch is neither on nor off. -/
  | badSwitch (name value : String)
  /-- The value of a flag is no number. -/
  | badNumber (name value : String) (fault : NumberFault)
  /-- The list of the flags is asked for. -/
  | help
  deriving Repr, DecidableEq, Inhabited

/-- The line that tells what is wrong; asking for help is not wrong. -/
def FlagError.message : FlagError → String
  | malformed word => s!"bad flag syntax: {word}\n"
  | unknown name => s!"flag provided but not defined: -{name}\n"
  | noValue name => s!"flag needs an argument: -{name}\n"
  | badSwitch name value =>
    s!"invalid boolean value {(Text.ofString value).quoted} for -{name}: parse error\n"
  | badNumber name value fault =>
    let reason :=
      match fault with
      | .malformed => "parse error"
      | .outOfRange => "value out of range"
    s!"invalid value {(Text.ofString value).quoted} for flag -{name}: {reason}\n"
  | help => ""

namespace Flag

/-! ### The list of the flags -/

/-- The name of the kind of value that a flag takes. -/
def valueWord {σ : Type} : FlagKind σ → String
  | .switch _ _ => ""
  | .word _ _ => " string"
  | .number _ _ => " int"

/-- What is told about the value of a flag that is not given. -/
def usualText {σ : Type} : FlagKind σ → String
  | .switch usual _ => if usual then " (default true)" else ""
  | .word usual _ =>
    if usual.isEmpty then "" else s!" (default {(Text.ofString usual).quoted})"
  | .number usual _ => if usual == 0 then "" else s!" (default {usual})"

/-- The description of a flag.  The purpose stands behind a short flag and else below it. -/
def describe {σ : Type} (f : Flag σ) : String :=
  let head := "  -" ++ f.name ++ valueWord f.kind
  let gap := if head.utf8ByteSize ≤ 4 then "\t" else "\n    \t"
  head ++ gap ++ f.purpose ++ usualText f.kind ++ "\n"

/-! ### Reading flags -/

/-- The words for on and off. -/
def readSwitch? (s : String) : Option Bool :=
  if ["1", "t", "T", "true", "TRUE", "True"].contains s then some true
  else if ["0", "f", "F", "false", "FALSE", "False"].contains s then some false
  else none

/-- A word of the command line. -/
inductive Word where
  /-- It is an argument. -/
  | argument
  /-- It ends the flags. -/
  | stop
  /-- It starts like a flag and is none. -/
  | bad
  /-- It is a flag, perhaps with a value. -/
  | flag (name : String) (value : Option String)
  deriving Repr, DecidableEq, Inhabited

/-- A name, and the value behind an equals sign. -/
def splitValue (cs : List Char) : String × Option String :=
  let name := cs.takeWhile (· != '=')
  match cs.dropWhile (· != '=') with
  | [] => (String.ofList name, none)
  | _ :: value => (String.ofList name, some (String.ofList value))

/-- What a word of the command line is. -/
def classify (s : String) : Word :=
  let named (cs : List Char) : Word :=
    match cs with
    | [] | '-' :: _ | '=' :: _ => .bad
    | cs => .flag (splitValue cs).1 (splitValue cs).2
  match s.toList with
  | ['-', '-'] => .stop
  | '-' :: '-' :: cs => named cs
  | '-' :: c :: cs => named (c :: cs)
  | _ => .argument

/-- Sets a flag to the value written for it. -/
def set {σ : Type} (f : Flag σ) (value : String) (options : σ) : Except FlagError σ :=
  match f.kind with
  | .switch _ set =>
    match readSwitch? value with
    | some b => .ok (set b options)
    | none => .error (.badSwitch f.name value)
  | .word _ set => .ok (set value options)
  | .number _ set =>
    match readNumber value with
    | .ok n => .ok (set n options)
    | .error fault => .error (.badNumber f.name value fault)

/-- Whether a flag can stand without a value. -/
def isSwitch {σ : Type} (f : Flag σ) : Bool :=
  match f.kind with
  | .switch _ _ => true
  | _ => false

/-- The error for a name that no flag has. -/
def missing (name : String) : FlagError :=
  if name == "help" || name == "h" then .help else .unknown name

/-- The options that the flags at the start of a command line set, and the arguments behind them. -/
def read {σ : Type} (flags : List (Flag σ)) (options : σ) :
    List String → Except FlagError (σ × List String)
  | [] => .ok (options, [])
  | s :: rest =>
    match classify s with
    | .argument => .ok (options, s :: rest)
    | .stop => .ok (options, rest)
    | .bad => .error (.malformed s)
    | .flag name value =>
      match flags.find? (·.name == name), value with
      | none, _ => .error (missing name)
      | some f, some v => do
        let options ← f.set v options
        read flags options rest
      | some f, none =>
        if f.isSwitch then do
          let options ← f.set "true" options
          read flags options rest
        else
          match rest with
          | [] => .error (.noValue name)
          | v :: rest => do
            let options ← f.set v options
            read flags options rest

end Flag

end Classwright
