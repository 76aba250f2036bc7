import TypeOutline.Inputs
import TypeOutline.Proofs.Inputs.Outcomes

/-!
# Languages of filters

What is done with a filter does not depend on the language that filters are
written in. A language says which texts are filters, what is wrong with the
others, and what outputs a filter gives for a document: a list of texts and
failures. One output that fails or is no document is enough for the filter
to fail, and it fails for the reason of the first (`reports_refineBy`). The
filters of this library are one such language (`refine_eq_refineBy`).
-/

namespace TypeOutline

namespace Filter

/-- What is wrong with an output. -/
def outputFaults (output : Except String String) : List Failure :=
  match readOutput output with
  | .ok _ => []
  | .error reason => [.filter reason]

/-- What is wrong with a filter and with its outputs for a document. -/
def Language.faults (lang : Language) (filter : Option String) (j : Json) : List Failure :=
  match filter with
  | none => []
  | some text => match lang text with
    | .error fault => [.filter (fault.message text)]
    | .ok outputs => (outputs j).flatMap outputFaults

end Filter

namespace InputSettings

open TypeOutline.Filter

/-- The documents that a filter of some language makes of one. -/
def refineBy (lang : Language) (filter : Option String) (j : Json) : Except Failure (List Json) :=
  (lang.documents filter j).mapError .filter

theorem refine_eq_refineBy (filter : Option String) : refine filter = refineBy builtIn filter := rfl

theorem reports_readOutput (output : Except String String) :
    Reports ((readOutput output).mapError .filter) (outputFaults output) := by
  rw [outputFaults]
  cases readOutput output with
  | error reason => exact .error _
  | ok j => exact .ok _

theorem reports_refineBy (lang : Language) (filter : Option String) (j : Json) :
    Reports (refineBy lang filter j) (lang.faults filter j) := by
  unfold refineBy Language.documents Language.faults
  cases filter with
  | none => exact .ok _
  | some text =>
    dsimp only
    cases lang text with
    | error fault => exact .error _
    | ok outputs =>
      show Reports (((outputs j).mapM readOutput).mapError Failure.filter) _
      rw [mapError_mapM]
      exact .mapM fun output _ => reports_readOutput output

end InputSettings

end TypeOutline
