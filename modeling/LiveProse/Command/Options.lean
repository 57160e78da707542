import LiveProse.Command.Error

/-!
The options of a command and the arguments between them. Options may stand anywhere, and the last
one of a kind counts.
-/

namespace LiveProse

structure Options where
  config : SessionConfig := {}
  /-- The arguments that are no options, in order. -/
  positional : List Text := []
deriving DecidableEq, Repr

namespace Options

/-- The highlight codes of a level. -/
def level (name : Text) : Except CommandError HighlightSupport :=
  if name = "all".toList then .ok .all
  else if name = "basic".toList then .ok .basic
  else .error (.unknownLevel name)

/-- Takes in one more argument. -/
def take (options : Options) (argument : Text) : Except CommandError Options :=
  match "--highlights=".toList.isPrefixOf? argument with
  | some name => do
    let support ← level name
    return { options with config := { options.config with support } }
  | none =>
    if argument = "--stats".toList then
      .ok { options with config := { options.config with stats := true } }
    else if "--".toList.isPrefixOf argument then .error (.unknownOption argument)
    else .ok { options with positional := options.positional ++ [argument] }

/-- The options among some arguments. The first one that is wrong decides the error. -/
def parse (arguments : List Text) : Except CommandError Options :=
  arguments.foldlM take {}

/-- The argument at an index, which the caller calls by a name. -/
def get (options : Options) (index : Nat) (name : Text) : Except CommandError Text :=
  match options.positional[index]? with
  | some argument => .ok argument
  | none => .error (.missing name)

end Options

end LiveProse
