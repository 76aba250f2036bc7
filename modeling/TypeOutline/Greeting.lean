import TypeOutline.Derive.Engine
import TypeOutline.Render.Lines

/-!
# The built-in example

A small record, shown as an OpenAPI document for a URL path.
-/

namespace TypeOutline.Greeting

/-- The record: a text and a number. -/
def value : Value :=
  .ofShape (.record [
    { name := "Hello", value := .ofShape (.scalar .string) },
    { name := "World", value := .ofShape (.scalar .f64) }])

/-- The path if none is given. -/
def defaultPath : String := "/hello/world"

def lines (urlPath : String) : List String :=
  ((derive? {} (value.named "HelloStruct")).getD .empty).lines .openApi {} (some urlPath)

end TypeOutline.Greeting
