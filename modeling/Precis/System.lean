import Precis.Failure
import Precis.Folder

/-!
# Systems

What a run finds around it: a file system, the pool of workers for its batches, and a standard
output. Each of them may refuse its part. A file may be there and not be readable, no pool may be
had for a number of workers, and the output may not take the whole of a text.
-/

namespace Precis

/-! ## Reading -/

/-- The content of the file that a path leads to, for reading. -/
def Folder.content (f : Folder) (path : String) : Except Failure Source :=
  match f.resolve path with
  | .error _ => .error (.notFound path)
  | .ok place =>
    match f.fileAt? place, f.sealAt? place with
    | none, _ => .error (.notFound path)
    | some _, some reason => .error (.unreadable reason)
    | some source, none => .ok source

/-! ## Pools of workers -/

/-- What runs the attempts of a batch, with a number of workers of its own or, if the number is zero,
with those that all batches share. -/
structure Pool where
  /-- Why there cannot be so many workers. -/
  refusal? : Nat → Option String
  /-- What comes of an attempt at each path of a list. -/
  run : Nat → (String → Except Failure Outline) → List String → List (Except Failure Outline)

namespace Pool

/-- The pool without any worker, which makes one attempt after the other. -/
def inline : Pool where
  refusal? _ := none
  run _ attempt paths := paths.map attempt

/-- Why a batch cannot have a number of workers. The workers that all batches share are there. -/
def refuses? (p : Pool) (workers : Nat) : Option String :=
  if workers = 0 then none else p.refusal? workers

/-- The pool makes one attempt at each path, and gives the results in the order of the paths. -/
def KeepsOrder (p : Pool) : Prop :=
  ∀ workers attempt paths, p.run workers attempt paths = paths.map attempt

/-- There can be so many workers. -/
def Offers (p : Pool) (workers : Nat) : Prop :=
  p.refuses? workers = none

end Pool

/-! ## Systems -/

/-- What a run finds around it. -/
structure System where
  folder : Folder
  pool : Pool := .inline
  /-- The standard output. -/
  output : Outlet := .free
  /-- Why the path of the working directory cannot be told. -/
  lost : Option String := none

/-- A file system of which nothing else is known. -/
instance : Coe Folder System where
  coe folder := { folder := folder }

end Precis
