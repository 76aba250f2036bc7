import TypeOutline.Failure
import TypeOutline.Json.Record
import TypeOutline.Render.Options

/-!
# Rendering configuration

A configuration is a JSON record in which every field may be left out. What is given on the command
line takes precedence over it.
-/

namespace TypeOutline

structure Config where
  dialect : Dialect := .simple
  urlPath : Option String := none
  render : RenderOptions := {}
deriving Repr, DecidableEq

/-- How the rendering options are written. -/
def RenderOptions.fields : List (Json.RecordField RenderOptions) := [
  { name := "dereference"
    read := fun o c => (Json.readBool c).map fun (b, c) => ({ o with dereference := b }, c) },
  { name := "prefix"
    read := fun o c => (Json.readText c).map fun (s, c) => ({ o with unit := s }, c) },
  { name := "indent"
    read := fun o c => (Json.readCount c).map fun (n, c) => ({ o with indent := n.toUInt64 }, c) }]

def RenderOptions.read : Json.Reader RenderOptions :=
  Json.readRecord "struct RenderOptions" fields {}

def Dialect.read : Json.Reader Dialect :=
  Json.readChoice (Dialect.all.map fun d => (d.name, d))

def RenderOptions.toJson (o : RenderOptions) : Json :=
  .object [("dereference", .bool o.dereference), ("prefix", .string o.unit),
    ("indent", .nat o.indent.toNat)]

namespace Config

/-- How a configuration is written. -/
def fields : List (Json.RecordField Config) := [
  { name := "dialect"
    read := fun g c => (Dialect.read c).map fun (d, c) => ({ g with dialect := d }, c) },
  { name := "url_path"
    read := fun g c =>
      (Json.readOptional Json.readText c).map fun (u, c) => ({ g with urlPath := u }, c) },
  { name := "render"
    read := fun g c => (RenderOptions.read c).map fun (o, c) => ({ g with render := o }, c) }]

def read : Json.Reader Config := Json.readRecord "struct Config" fields {}

/-- The configuration that a text starts with. -/
def parse (text : String) : Except Json.ReadError Config :=
  (read (.ofString text)).map (·.1)

/-- The configuration in a file. -/
def load (t : FileTree) (path : String) : Except Failure Config := do
  let text ← (t.read path).mapError (.unreadable path)
  (parse text).mapError (.config path)

/-- The configuration under what is given elsewhere. -/
def override (g : Config) (dialect : Option Dialect) (dereference : Bool)
    (urlPath : Option String) : Config :=
  { dialect := dialect.getD g.dialect
    urlPath := urlPath <|> g.urlPath
    render := { g.render with dereference := g.render.dereference || dereference } }

def toJson (g : Config) : Json :=
  .object [("dialect", .string g.dialect.name), ("url_path", g.urlPath.elim .null .string),
    ("render", g.render.toJson)]

end Config

end TypeOutline
