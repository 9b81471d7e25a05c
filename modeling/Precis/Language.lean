import Precis.Text.Cut

/-!
# Languages

The languages that source files are told apart by, and how a file name determines one of them. The
languages are ordered as in `Language.all`.
-/

namespace Precis

/-- A source language; `unknown` stands for every other kind of file. -/
inductive Language where
  | rust
  | python
  | java
  | typescript
  | javascript
  | go
  | c
  | cpp
  | csharp
  | kotlin
  | swift
  | php
  | ruby
  | unknown
deriving DecidableEq

namespace Language

/-- Every language, in order. -/
def all : List Language :=
  [rust, python, java, typescript, javascript, go, c, cpp, csharp, kotlin, swift, php, ruby,
   unknown]

/-- The name under which a language is stored. -/
def id : Language → String
  | rust => "rust"
  | python => "python"
  | java => "java"
  | typescript => "typescript"
  | javascript => "javascript"
  | go => "go"
  | c => "c"
  | cpp => "cpp"
  | csharp => "csharp"
  | kotlin => "kotlin"
  | swift => "swift"
  | php => "php"
  | ruby => "ruby"
  | unknown => "unknown"

/-- The name of a language for a reader. -/
def title : Language → String
  | rust => "Rust"
  | python => "Python"
  | java => "Java"
  | typescript => "TypeScript"
  | javascript => "JavaScript"
  | go => "Go"
  | c => "C"
  | cpp => "C++"
  | csharp => "C#"
  | kotlin => "Kotlin"
  | swift => "Swift"
  | php => "PHP"
  | ruby => "Ruby"
  | unknown => "Unknown"

/-- The name of a language in messages, which holds letters only. -/
def label : Language → String
  | cpp => "Cpp"
  | csharp => "CSharp"
  | php => "Php"
  | other => other.title

/-- The extension that files of a language usually have. -/
def extension : Language → String
  | rust => "rs"
  | python => "py"
  | java => "java"
  | typescript => "ts"
  | javascript => "js"
  | go => "go"
  | c => "c"
  | cpp => "cpp"
  | csharp => "cs"
  | kotlin => "kt"
  | swift => "swift"
  | php => "php"
  | ruby => "rb"
  | unknown => ""

/-- All extensions that a language goes by, in small letters. -/
def extensions : Language → List String
  | rust => ["rs"]
  | python => ["py", "pyw", "pyi"]
  | java => ["java"]
  | typescript => ["ts", "tsx", "mts", "cts"]
  | javascript => ["js", "jsx", "mjs", "cjs"]
  | go => ["go"]
  | c => ["c", "h"]
  | cpp => ["cpp", "cc", "cxx", "hpp", "hxx", "hh"]
  | csharp => ["cs"]
  | kotlin => ["kt", "kts"]
  | swift => ["swift"]
  | php => ["php", "phtml"]
  | ruby => ["rb", "rake", "gemspec"]
  | unknown => []

/-- The small form of a letter, as far as it is an ASCII letter: besides the capitals of ASCII that
is the Kelvin sign alone. Extensions are ASCII, so no other letter can become part of one. -/
def smallLetter (ch : Char) : Char :=
  if 'A' ≤ ch ∧ ch ≤ 'Z' then Char.ofNat (ch.toNat + 32)
  else if ch = '\u212A' then 'k'
  else ch

/-- The language that goes by an extension, whatever the size of its letters. -/
def ofExtension (ext : List Char) : Language :=
  let small := String.ofList (ext.map smallLetter)
  (all.find? fun language => language.extensions.contains small).getD unknown

/-- The file name of a path: its last component, where empty components and `.` do not count. A
path that ends in `..` has none. -/
def fileName? (path : List Char) : Option (List Char) :=
  match ((path.splitOnP (· == '/')).reverse.dropWhile fun part => part == [] || part == ['.']) with
  | [] => none
  | name :: _ => if name = ['.', '.'] then none else some name

/-- The extension of a file name: what follows its last dot, unless nothing stands before it. -/
def extension? (name : List Char) : Option (List Char) :=
  match Text.splitLast? ['.'] name with
  | some (stem, ext) => if stem = [] then none else some ext
  | none => none

/-- The language of a file, by its path. -/
def ofPath (path : String) : Language :=
  match (fileName? path.toList).bind extension? with
  | some ext => ofExtension ext
  | none => unknown

end Language

end Precis
