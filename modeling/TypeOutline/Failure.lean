import TypeOutline.Files.Pattern
import TypeOutline.Files.Tree
import TypeOutline.Json.Cursor

/-!
# Failures

What can keep inputs and configurations from being loaded. What is wrong with a value itself is no
failure: it is shown as a defect of a node.
-/

namespace TypeOutline

inductive Failure where
  /-- A file cannot be read. -/
  | unreadable (path : String) (cause : FileFault)
  /-- A document is not well formed. -/
  | malformed (origin : String) (cause : Json.ReadError)
  | config (path : String) (cause : Json.ReadError)
  | pattern (cause : PatternError)
  | noMatch (pattern : String)
  /-- A pointer leads nowhere in a document. -/
  | pointer (path pointer : String)
  /-- A filter is not well formed, or fails, for the reason that is told. -/
  | filter (reason : String)
deriving Repr, DecidableEq

namespace Failure

def message : Failure → String
  | unreadable path cause => "failed to read " ++ path ++ ": " ++ cause.message
  | malformed origin cause =>
    "invalid JSON in " ++ origin ++ " at " ++ Json.Step.pathText cause.path ++ ": " ++ cause.message
  | config path cause =>
    "invalid config " ++ path ++ ": at " ++ Json.Step.pathText cause.path ++ ": " ++ cause.message
  | pattern cause => "invalid glob pattern: " ++ cause.message
  | noMatch text => "glob pattern matched no files: " ++ text
  | pointer path text => "JSON pointer " ++ text ++ " matches nothing in " ++ path
  | filter reason => "jq filter failed: " ++ reason

/-- The message of what lies behind a failure, if that is told once more. -/
def causeMessage? : Failure → Option String
  | unreadable _ cause => some cause.message
  | pattern cause => some cause.message
  | _ => none

/-- The message and, after it, that of the cause. -/
def fullMessage (f : Failure) : String := f.message ++ (f.causeMessage?.elim "" (": " ++ ·))

end Failure

end TypeOutline
