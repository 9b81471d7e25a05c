import Precis.Frontend
import Precis.Json.Decode
import Precis.Prune

/-!
# Failures

Why a file, or a whole run, comes to nothing. A failure may be wrapped into the context in which it
happened, and some failures wrap the cause that they come from. The full report of a failure is its
wording followed by that of every cause below it, so that wordings which quote their cause repeat
it.
-/

namespace Precis

/-- Why something came to nothing. -/
inductive Failure where
  /-- A file could not be read. -/
  | unreadable (reason : String)
  /-- A text is not the JSON that was wanted. -/
  | json (fault : Json.Fault)
  /-- There is no outline of a source. -/
  | outline (error : OutlineError)
  /-- There is no file at a path. -/
  | notFound (path : String)
  /-- The settings make no sense. -/
  | badSettings (reason : String)
  /-- An outline breaks the rule for enum members. -/
  | breach (b : EnumBreach)
  /-- A failure that happened in some context. -/
  | within (context : String) (cause : Failure)

namespace Failure

/-- What is said about a text that is no JSON of the wanted form. -/
def faultText (fault : Json.Fault) : String :=
  fault.message?.getD "malformed text"

/-- The wording of a failure. -/
def message : Failure → String
  | unreadable reason => "IO error: " ++ reason
  | json fault => "JSON error: " ++ faultText fault
  | outline error => error.message
  | notFound path => "File not found: " ++ path
  | badSettings reason => "Invalid configuration: " ++ reason
  | breach b => b.message
  | within context cause => context ++ ": " ++ cause.message

/-- The wordings of a failure and of the causes below it, in turn. -/
def chain : Failure → List String
  | unreadable reason => [message (unreadable reason), reason]
  | json fault => [message (json fault), faultText fault]
  | outline error => [message (outline error), error.message]
  | notFound path => [message (notFound path)]
  | badSettings reason => [message (badSettings reason)]
  | breach b => [message (breach b)]
  | within context cause => message (within context cause) :: cause.chain

/-- The full report of a failure. -/
def report (f : Failure) : String :=
  ": ".intercalate f.chain

end Failure

end Precis
