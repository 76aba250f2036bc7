/-!
# Kinds of values and language-neutral types

A `Kind` is what a value is made of in its own language. A `Generic` is what is said about it in
every dialect; it belongs to a `Category`, which decides how a value is expanded. Kinds that no
dialect can describe fold into `Generic.invalid`.
-/

namespace TypeOutline

/-- The closed set of structural kinds. -/
inductive Kind where
  | bool | i8 | i16 | i32 | i64 | i128 | isize
  | u8 | u16 | u32 | u64 | u128 | usize
  | f32 | f64 | char | string
  | array | vec | map | struct | option | dyn
  | datetime | fn | channel | complex | rawPointer | nil
deriving Repr, DecidableEq, Inhabited

namespace Kind

/-- The canonical name of a kind. -/
def name : Kind → String
  | bool => "bool" | i8 => "i8" | i16 => "i16" | i32 => "i32" | i64 => "i64" | i128 => "i128"
  | isize => "isize" | u8 => "u8" | u16 => "u16" | u32 => "u32" | u64 => "u64" | u128 => "u128"
  | usize => "usize" | f32 => "f32" | f64 => "f64" | char => "char" | string => "string"
  | array => "array" | vec => "vec" | map => "map" | struct => "struct" | option => "option"
  | dyn => "dyn" | datetime => "datetime" | fn => "fn" | channel => "channel"
  | complex => "complex" | rawPointer => "raw_pointer" | nil => "nil"

/-- All kinds, in declaration order. -/
def all : List Kind :=
  [bool, i8, i16, i32, i64, i128, isize, u8, u16, u32, u64, u128, usize, f32, f64, char, string,
    array, vec, map, struct, option, dyn, datetime, fn, channel, complex, rawPointer, nil]

/-- The kind with a given name. -/
def ofName? (s : String) : Option Kind := all.find? (·.name == s)

theorem ofName?_name (k : Kind) : ofName? k.name = some k := by cases k <;> decide

end Kind

/-- Groups of generic types. -/
inductive Category where
  | invalid
  | basic
  | compound
  | known
  /-- Wrappers around other types: they have no node of their own. -/
  | reference
  /-- The tops of trees. -/
  | internal
deriving Repr, DecidableEq, Inhabited

namespace Category

def name : Category → String
  | invalid => "invalid" | basic => "basic" | compound => "compound" | known => "known"
  | reference => "reference" | internal => "internal"

/-- All categories, in declaration order. -/
def all : List Category := [invalid, basic, compound, known, reference, internal]

end Category

/-- The language-neutral type of a node. -/
inductive Generic where
  | invalid | boolean | integer | float | string | list | struct | dateTime | interface | pointer
  | root
deriving Repr, DecidableEq, Inhabited

namespace Generic

/-- All generic types, in declaration order. -/
def all : List Generic :=
  [invalid, boolean, integer, float, string, list, struct, dateTime, interface, pointer, root]

/-- The generic type of a kind. -/
def ofKind : Kind → Generic
  | .bool => boolean
  | .i8 | .i16 | .i32 | .i64 | .i128 | .isize | .u8 | .u16 | .u32 | .u64 | .u128 | .usize => integer
  | .f32 | .f64 => float
  | .char | .string => string
  | .array | .vec => list
  | .map | .struct => struct
  | .datetime => dateTime
  | .dyn => interface
  | .option => pointer
  | .fn | .channel | .complex | .rawPointer | .nil => invalid

/-- The name used for a generic type everywhere but in paths. -/
def slug : Generic → String
  | invalid => "invalid" | boolean => "boolean" | integer => "integer" | float => "float"
  | string => "string" | list => "list" | struct => "struct" | dateTime => "date-time"
  | interface => "interface" | pointer => "pointer" | root => "root"

def ofSlug? (s : String) : Option Generic := all.find? (·.slug == s)

def category : Generic → Category
  | invalid => .invalid
  | boolean | integer | float | string => .basic
  | list | struct => .compound
  | dateTime => .known
  | interface | pointer => .reference
  | root => .internal

/-- The name used for a generic type in a path. -/
def token : Generic → String
  | struct => "\x7b\x7d"
  | list => "[]"
  | dateTime => "datetime"
  | other => other.slug

def isBasic (g : Generic) : Bool := g.category == .basic

/-- The path token of a slug; a slug that names no generic type gets that of `invalid`. -/
def tokenOfSlug (s : String) : String := ((ofSlug? s).getD invalid).token

theorem ofSlug?_slug (g : Generic) : ofSlug? g.slug = some g := by cases g <;> decide

end Generic

end TypeOutline
