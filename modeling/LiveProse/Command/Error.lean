import LiveProse.Script.ScriptEdit
import LiveProse.Session

/-!
What can stop a command.
-/

namespace LiveProse

/-- Why a file cannot be read. -/
inductive ReadFault where
  | notFound
  | permissionDenied
  | notDirectory
  | isDirectory
  /-- The path, or a name in it, has more bytes than the system takes. -/
  | nameTooLong
  /-- The bytes of the file are not UTF-8. -/
  | notText
  | other (description : String)
deriving DecidableEq, Repr

def ReadFault.message : ReadFault → String
  | notFound => "No such file or directory (os error 2)"
  | permissionDenied => "Permission denied (os error 13)"
  | notDirectory => "Not a directory (os error 20)"
  | isDirectory => "Is a directory (os error 21)"
  | nameTooLong => "File name too long (os error 36)"
  | notText => "stream did not contain valid UTF-8"
  | other description => description

inductive CommandError where
  | read (path : Text) (fault : ReadFault)
  /-- The level of highlight codes is none that there is. -/
  | unknownLevel (level : Text)
  | unknownOption (option : Text)
  | unknownCommand (name : Text)
  /-- An argument that the command needs is not there. -/
  | missing (argument : Text)
  | script (error : ScriptError)
  | session (error : SessionError)
  | grammar (error : GrammarError)
deriving DecidableEq, Repr

namespace CommandError

def message : CommandError → String
  | read path fault => "cannot read '" ++ String.ofList path ++ "': " ++ fault.message
  | unknownLevel level =>
    "unknown highlight level '" ++ String.ofList level ++ "' (expected all or basic)"
  | unknownOption option => "unknown option '" ++ String.ofList option ++ "'"
  | unknownCommand name => "unknown command: " ++ String.ofList name
  | missing argument => "missing " ++ String.ofList argument
  | script error => error.message
  | session error => error.message
  | grammar error => error.message

/-- Whether the mistake is in how the command was called, so that the caller is shown the help. -/
def isMiscall : CommandError → Bool
  | unknownLevel _ | unknownOption _ | unknownCommand _ | missing _ => true
  | read .. | script _ | session _ | grammar _ => false

end CommandError

end LiveProse
