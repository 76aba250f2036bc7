import TypeOutline.Command.Line
import TypeOutline.Config
import TypeOutline.Document
import TypeOutline.Json.Printer
import TypeOutline.Render.Lines
import TypeOutline.Schema.Dump

/-!
# Carrying out commands

A command reads a tree of files and gives a text: on the output, or in a file of the tree that it
leaves. Nothing is written before all documents are there. Each document is shown on its own, under
a header with its origin if there are several.
-/

namespace TypeOutline.Command

/-- What a command was doing when it failed. -/
inductive Trouble where
  | refused (r : Refusal)
  | loadingConfig (f : Failure)
  | loadingInputs (f : Failure)
  /-- No text is as wide as the indent. -/
  | indentTooWide
  | creating (directory : String) (f : FileFault)
  | writing (file : String) (f : FileFault)
deriving Repr, DecidableEq

namespace Trouble

/-- What to say about a failed run; a refused command line has no message, and neither has an indent
that is too wide. -/
def message : Trouble → String
  | refused _ | indentTooWide => ""
  | loadingConfig f => "failed to load config: " ++ f.fullMessage
  | loadingInputs f => "failed to load inputs: " ++ f.fullMessage
  | creating directory f => "failed to create " ++ directory ++ ": " ++ f.message
  | writing file f => "failed to write " ++ file ++ ": " ++ f.message

end Trouble

/-- What a command leaves behind. -/
structure Result where
  output : String
  files : FileTree

namespace RenderTask

/-- The configuration of a run: that of the file, under what the command line gives. -/
def configFor (r : RenderTask) (t : FileTree) : Except Failure Config := do
  let base ← r.config.elim (.ok {}) (Config.load t)
  return base.override r.dialect r.dereference r.urlPath

/-- The lines for a document. -/
def linesOf (r : RenderTask) (g : Config) (d : Document) : List String :=
  let s := deriveDocument d.value
  if r.tree then (Text.lines s.dump.prettyText.toList).map String.ofList
  else s.lines g.dialect g.render g.urlPath

/-- The lines for a document cannot be made. -/
def linesFault (r : RenderTask) (g : Config) (d : Document) : Bool :=
  !r.tree && (deriveDocument d.value).linesFault g.dialect g.render g.urlPath

/-- Lines as a text, each with a line feed. -/
def textOf (lines : List String) : String := String.join (lines.map (· ++ "\n"))

/-- The line above the lines for a document. -/
def header (d : Document) : String := "==> " ++ d.origin ++ " <=="

/-- The text for all documents. -/
def textFor (r : RenderTask) (g : Config) (ds : List Document) : String :=
  String.join (ds.map fun d =>
    textOf ((if ds.length > 1 then [header d] else []) ++ r.linesOf g d))

/-- Write a text to a file, with the directories above it. -/
def writeOut (t : FileTree) (path text : String) : Except Trouble FileTree := do
  let t ← match Path.parent? path with
    | none => .ok t
    | some above => (t.makeDirectories above).mapError (.creating above)
  (t.write path text).mapError (.writing path)

def run (r : RenderTask) (t : FileTree) : Except Trouble Result := do
  if r.idle then return { output := "", files := t }
  let g ← (r.configFor t).mapError .loadingConfig
  let ds ← (r.inputs.load t).mapError .loadingInputs
  if ds.any (r.linesFault g) then throw .indentTooWide
  let text := r.textFor g ds
  match r.out with
  | none => return { output := text, files := t }
  | some path => return { output := "", files := ← writeOut t path text }

end RenderTask

/-- Carry out a task on a tree of files. -/
def Task.run (t : FileTree) : Task → Except Trouble Result
  | .greet urlPath => .ok { output := RenderTask.textOf (Greeting.lines urlPath), files := t }
  | .render r => r.run t

/-- Carry out a command line on a tree of files. -/
def run (args : List String) (t : FileTree) : Except Trouble Result := do
  (← (parse args).mapError .refused).run t

end TypeOutline.Command
