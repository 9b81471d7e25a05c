import Precis.Faults
import Precis.Frontend.Java
import Precis.Frontend.Python
import Precis.Frontend.Rust
import Precis.Source

/-!
# Frontends

A frontend makes outlines from sources of one language. Most of them follow a grammar: the nodes
come from the parse tree, and whatever is wrong with the source is reported behind them, first that
its bytes are not UTF-8 and then the faults of the tree.

A registry holds at most one frontend for each language. The language of a file, and with it the
frontend, is determined by its path.
-/

namespace Precis

/-- Why there is no outline of a source. -/
inductive OutlineError where
  /-- No frontend is known for the language of the file. -/
  | unsupported (path : String) (language : Language)
  /-- There is no parse tree; something may have been salvaged nevertheless. -/
  | unparsed (reason : String) (salvaged : Option Outline)
  /-- The grammar itself cannot be used. -/
  | badGrammar (reason : String)

namespace OutlineError

/-- The wording of an error. -/
def message : OutlineError → String
  | unsupported path language =>
    "Unsupported language " ++ language.label ++ " for '" ++ path ++ "'"
  | unparsed reason _ => "Parse error: " ++ reason
  | badGrammar reason => "Tree-sitter error: " ++ reason

/-- What was salvaged in spite of an error. -/
def salvaged? : OutlineError → Option Outline
  | unparsed _ salvaged => salvaged
  | unsupported _ _ | badGrammar _ => none

end OutlineError

/-! ## Grammars -/

/-- The languages with a grammar. -/
inductive Grammar where
  | rust
  | python
  | java
deriving DecidableEq

namespace Grammar

/-- The language that a grammar describes. -/
def language : Grammar → Language
  | rust => .rust
  | python => .python
  | java => .java

/-- The nodes that a parse tree of a text declares. -/
def nodes (g : Grammar) (text : List Char) (tree : ParseTree) : List Node :=
  match g with
  | rust => Rust.outline text tree
  | python => Python.outline text tree
  | java => Java.outline text tree

end Grammar

/-- The warning that the bytes of a source are not UTF-8. -/
def encodingWarning (location : Location) : Problem where
  message := "Source is not valid UTF-8; invalid bytes were replaced"
  severity := .warning
  code := some "encoding"
  location := location

/-- All that is wrong with the bytes of a source and their parse tree. -/
def sourceProblems (bytes : List UInt8) (tree : ParseTree) : List Problem :=
  let text := Text.decodeLossy bytes
  (if Text.isUtf8 bytes then [] else [encodingWarning (tree.location text)]) ++
  (if tree.hasFault then tree.reports text else [])

/-- The outline of a source that has been parsed. -/
def Grammar.outline (g : Grammar) (path : String) (bytes : List UInt8) (tree : ParseTree) :
    Outline :=
  let text := Text.decodeLossy bytes
  { head := { path := path, language := g.language, location := tree.location text }
    children := g.nodes text tree ++
      (sourceProblems bytes tree).map fun problem => .leaf (.problem problem) }

/-! ## Frontends -/

/-- What makes outlines from the sources of a language. -/
inductive Frontend where
  /-- Outlines follow a grammar. -/
  | parsing (grammar : Grammar)
  /-- Outlines would follow a grammar, but no parser takes it. -/
  | unusable (grammar : Grammar) (reason : String)
  /-- Outlines are empty. -/
  | stub (language : Language)
deriving DecidableEq

namespace Frontend

/-- The language that a frontend is for. -/
def language : Frontend → Language
  | parsing grammar | unusable grammar _ => grammar.language
  | stub language => language

/-- The outline of a source. -/
def outline (f : Frontend) (path : String) (source : Source) : Except OutlineError Outline :=
  match f with
  | stub language => .ok { head := { path := path, language := language } }
  | unusable _ reason => .error (.badGrammar reason)
  | parsing grammar =>
    match source.tree with
    | some tree => .ok (grammar.outline path source.bytes tree)
    | none =>
      .error (.unparsed ("parser returned no tree for '" ++ path ++ "'")
        (some { head := { path := path, language := grammar.language } }))

end Frontend

/-! ## Registries -/

/-- The frontends in use, at most one for each language. -/
structure Registry where
  frontend? : Language → Option Frontend

namespace Registry

/-- No frontend. -/
def empty : Registry where
  frontend? _ := none

/-- The registry with a frontend, which replaces any other one for its language. -/
def register (r : Registry) (f : Frontend) : Registry where
  frontend? language := if language = f.language then some f else r.frontend? language

/-- The registry of all grammars. -/
def standard : Registry :=
  ((empty.register (.parsing .rust)).register (.parsing .python)).register (.parsing .java)

/-- Whether there is a frontend for a language. -/
def supports (r : Registry) (language : Language) : Bool :=
  (r.frontend? language).isSome

/-- The languages with a frontend, in order. -/
def languages (r : Registry) : List Language :=
  Language.all.filter r.supports

/-- The frontend for a file. -/
def frontendFor? (r : Registry) (path : String) : Option Frontend :=
  r.frontend? (Language.ofPath path)

/-- The outline of a source, by the frontend for its path. -/
def outline (r : Registry) (path : String) (source : Source) : Except OutlineError Outline :=
  match r.frontendFor? path with
  | some frontend => frontend.outline path source
  | none => .error (.unsupported path (Language.ofPath path))

end Registry

end Precis
