import TypeOutline.Filter.Parser
import TypeOutline.Filter.Builtin

/-!
# Defined filters

The filters that every filter may use, defined in the filter language itself. A definition may use
the built-in filters and the definitions before it.
-/

namespace TypeOutline.Filter

/-- The definitions, one on each line. -/
def definitions : List String := [
  "def null: [][0];",
  "def true: 0 == 0;",
  "def false: 0 != 0;",
  "def not: if . then false else true end;",
  "def nan: 0 / 0;",
  "def infinite: 1 / 0;",
  "def error(f): reduce f as $x (.; $x | error);",
  "def map(f): [.[] | f];",
  "def select(f): if f then . else empty end;",
  "def recurse(f): def rec: ., (f | rec); rec;",
  "def recurse: recurse(.[]?);",
  "def recurse(f; cond): recurse(f | select(cond));",
  "def range($from; $to): range($from; $to; 1);",
  "def range($to): range(0; $to; 1);",
  "def repeat(f): def rec: ., (f | rec); rec;",
  "def while(cond; update): def rec: if cond then ., (update | rec) else empty end; rec;",
  "def until(cond; update): def rec: if cond then . else update | rec end; rec;",
  "def add(f): reduce f as $x (null; . + $x);",
  "def add: add(.[]);",
  "def isempty(f): first((f | false), true);",
  "def any(g; f): isempty(g | f | select(.)) | not;",
  "def any(f): any(.[]; f);",
  "def any: any(.[]; .);",
  "def all(g; f): isempty(g | f | select(. | not));",
  "def all(f): all(.[]; f);",
  "def all: all(.[]; .);",
  "def values: select(. != null);",
  "def nulls: select(type == \"null\");",
  "def booleans: select(type == \"boolean\");",
  "def numbers: select(type == \"number\");",
  "def strings: select(type == \"string\");",
  "def arrays: select(type == \"array\");",
  "def objects: select(type == \"object\");",
  "def iterables: select(type == \"array\" or type == \"object\");",
  "def scalars: select(type != \"array\" and type != \"object\");",
  "def first: .[0];",
  "def last: .[-1];",
  "def last(f): reduce f as $x ([]; [$x]) | .[];",
  "def nth($n): .[$n];",
  "def nth($n; f): first(skip($n; f));",
  "def in(xs): . as $x | xs | has($x);",
  "def map_values(f): .[] |= f;",
  "def del(f): f |= empty;",
  "def to_entries: [keys_unsorted[] as $k | \x7bkey: $k, value: .[$k]\x7d];",
  "def from_entries: map(\x7b(.key): .value\x7d) | add + \x7b\x7d;",
  "def with_entries(f): to_entries | map(f) | from_entries;",
  "def getpath($path): reduce $path[] as $k (.; if . == null then null else .[$k] end);",
  "def paths: skip(1; path(..));",
  "def paths(f): path(.. | select(f)) | select(length > 0);",
  "def walk(f): def rec: (.[]? |= rec) | f; rec;",
  "def tostring: \"\\(.)\";",
  "def reverse: [range(length - 1; -1; -1) as $i | .[$i]];"]

/-- The built-in filters, and the names that a filter may use with an environment. -/
def scopeOf (env : Env) : Scope := .ofEnv (Builtin.all.map Builtin.callee) env

/-- The environment of all definitions. -/
def prelude : Env :=
  definitions.foldl (fun env line =>
    (parse? (scopeOf env) (line ++ " .")).elim env env.withDefinitions) .empty

end TypeOutline.Filter
