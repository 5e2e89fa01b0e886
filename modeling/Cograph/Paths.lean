import Mathlib.Data.List.Sort
import Mathlib.Data.String.Basic

/-!
# Paths of a checkout

A path relative to the checkout root, as `pathlib` splits it, with what
`graph/languages.py` and `graph/ingest.py` read off it: the graph language of
its suffix, the JS/TS noise test and the Go package it belongs to.
-/

namespace Cograph

/-- The parent parts and the last part of a relative path. -/
structure Path where
  dir : List String
  name : String
  deriving DecidableEq, Repr

inductive GraphLanguage where
  | python
  | go
  | typescript
  | javascript
  deriving DecidableEq, Repr

def GraphLanguage.text : GraphLanguage → String
  | .python => "python"
  | .go => "go"
  | .typescript => "typescript"
  | .javascript => "javascript"

namespace Path

def parts (p : Path) : List String := p.dir ++ [p.name]

def posix (p : Path) : String := "/".intercalate p.parts

/-- `PurePath.suffix`: from the last dot, unless that is the first or the last
character. -/
def suffix (p : Path) : String :=
  let name := p.name.toList
  let ext := (name.reverse.takeWhile (· ≠ '.')).reverse
  if ext = [] ∨ name.length ≤ ext.length + 1 then "" else String.ofList ('.' :: ext)

def lower (s : String) : String := String.ofList (s.toList.map Char.toLower)

def languageOfExtension : List (String × GraphLanguage) :=
  [(".py", .python), (".pyi", .python), (".go", .go), (".ts", .typescript), (".tsx", .typescript),
    (".mts", .typescript), (".cts", .typescript), (".js", .javascript), (".jsx", .javascript),
    (".mjs", .javascript), (".cjs", .javascript)]

def detectGraphLanguage (p : Path) : Option GraphLanguage := languageOfExtension.lookup (lower p.suffix)

def jsTsSkipDirNames : List String :=
  ["node_modules", "dist", "build", ".next", ".nuxt", ".output", ".turbo", "coverage"]

def jsTsMinSuffixes : List String := [".min.js", ".min.mjs", ".min.cjs"]

def isJsTs : GraphLanguage → Bool
  | .typescript | .javascript => true
  | _ => false

def isJsTsNoise (p : Path) : Bool :=
  p.dir.any (jsTsSkipDirNames.contains ·) ||
    jsTsMinSuffixes.any fun s => s.toList.isSuffixOf (lower p.name).toList

/-- `_package_key`, the directory. -/
abbrev PackageKey := List String

def packageKey (p : Path) : PackageKey := p.dir

def PackageKey.text (k : PackageKey) : String := if k = [] then "." else "/".intercalate k

/-- The order `sorted` gives paths. -/
def le (p q : Path) : Bool := decide (p.parts ≤ q.parts)

example : detectGraphLanguage ⟨["pkg"], "Main.GO"⟩ = some .go := by decide
example : isJsTsNoise ⟨["dist"], "a.py"⟩ = true := by decide
example : detectGraphLanguage ⟨[], ".go"⟩ = none := by decide

end Path

end Cograph
