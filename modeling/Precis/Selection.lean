import Precis.Node

/-!
# Selections

A selection says what an outline keeps: ten independent switches. Selections are ordered by what
they keep, and the order has meets.
-/

namespace Precis

/-- What an outline keeps. -/
structure Selection where
  /-- Function bodies and field values. -/
  bodies : Bool := false
  privateItems : Bool := false
  protectedItems : Bool := false
  /-- Internal and package-private declarations. -/
  internalItems : Bool := false
  /-- Line and block comments. -/
  comments : Bool := false
  /-- Doc comments. -/
  docs : Bool := true
  imports : Bool := true
  fields : Bool := true
  functions : Bool := true
  /-- Decorators, annotations and attributes. -/
  decorators : Bool := true
deriving DecidableEq

namespace Selection

/-- Keeps everything. -/
def full : Selection where
  bodies := true
  privateItems := true
  protectedItems := true
  internalItems := true
  comments := true

/-- Public signatures with their documentation: the usual selection. -/
def signatures : Selection := {}

/-- The switches, in order. -/
def switches (s : Selection) : List Bool :=
  [s.bodies, s.privateItems, s.protectedItems, s.internalItems, s.comments, s.docs, s.imports,
   s.fields, s.functions, s.decorators]

/-- Whether a selection keeps everything that another one keeps. -/
def includes (s other : Selection) : Bool :=
  (s.switches.zip other.switches).all fun pair => pair.1 || !pair.2

/-- What two selections both keep. -/
def meet (s other : Selection) : Selection where
  bodies := s.bodies && other.bodies
  privateItems := s.privateItems && other.privateItems
  protectedItems := s.protectedItems && other.protectedItems
  internalItems := s.internalItems && other.internalItems
  comments := s.comments && other.comments
  docs := s.docs && other.docs
  imports := s.imports && other.imports
  fields := s.fields && other.fields
  functions := s.functions && other.functions
  decorators := s.decorators && other.decorators

/-! ## What is kept -/

/-- Whether declarations of a visibility are kept. -/
def admits (s : Selection) : Visibility → Bool
  | .pub => true
  | .priv => s.privateItems
  | .prot => s.protectedItems
  | .internal | .package => s.internalItems

/-- Whether comments of a format are kept. -/
def keepsFormat (s : Selection) : CommentFormat → Bool
  | .doc => s.docs
  | .line | .block => s.comments

/-- Whether a branch with this head is kept. -/
def keepsHead (s : Selection) : Head → Bool
  | .file _ | .package _ => true
  | .type head => s.admits head.visibility

/-- Whether a leaf is kept. -/
def keepsLeaf (s : Selection) : Leaf → Bool
  | .imported _ => s.imports
  | .function item => s.functions && s.admits item.visibility
  | .field item => s.fields && s.admits item.visibility
  | .typeAlias item => s.admits item.visibility
  | .comment item => s.keepsFormat item.format
  | .problem _ => true

/-- Whether a node is kept, whatever becomes of its children. -/
def keeps (s : Selection) : Node → Bool
  | .branch head _ => s.keepsHead head
  | .leaf item => s.keepsLeaf item

/-! ## What is left of a kept node -/

/-- Keeps an attached doc comment if comments of its format are kept. -/
def trimDoc (s : Selection) (doc : Option Comment) : Option Comment :=
  doc.filter fun comment => s.keepsFormat comment.format

/-- Keeps decorators if they are to be kept. -/
def trimDecorators (s : Selection) (decorators : List String) : List String :=
  if s.decorators then decorators else []

/-- Keeps the text of a body or value if it is to be kept. -/
def trimBody (s : Selection) (body : Option String) : Option String :=
  if s.bodies then body else none

/-- What is left of the head of a kept branch. -/
def trimHead (s : Selection) : Head → Head
  | .type head =>
    .type { head with decorators := s.trimDecorators head.decorators, doc := s.trimDoc head.doc }
  | other => other

/-- What is left of a kept leaf. -/
def trimLeaf (s : Selection) : Leaf → Leaf
  | .function item =>
    .function { item with
      body := s.trimBody item.body
      decorators := s.trimDecorators item.decorators
      doc := s.trimDoc item.doc }
  | .field item =>
    .field { item with
      value := s.trimBody item.value
      decorators := s.trimDecorators item.decorators
      doc := s.trimDoc item.doc }
  | .typeAlias item => .typeAlias { item with doc := s.trimDoc item.doc }
  | other => other

end Selection

end Precis
