import Precis.Selection

/-!
# Pruning

Pruning an outline under a selection drops every node that the selection does not keep, with all
that is below it, and clears from the rest what the selection leaves out. A branch that loses all
its children stays.

The members of an enum are promised to be public, static and constant. Pruning a kept enum that
breaks the promise is refused, and the enum is named in the refusal.
-/

namespace Precis

/-- An enum has a member that is not public, static and constant. -/
structure EnumBreach where
  enumName : String
deriving DecidableEq

/-- The wording of a breach. -/
def EnumBreach.message (b : EnumBreach) : String :=
  "enum '" ++ b.enumName ++ "' has a member that is not public static const"

/-- Whether a node is an enum member that is not public, static and constant. -/
def Node.isBadMember : Node → Bool
  | .leaf (.field item) => item.enumMember && !item.isPublicConstant
  | _ => false

/-- The breach of an enum with this head and these children, if there is one. -/
def breach? (head : Head) (children : List Node) : Option EnumBreach :=
  match head with
  | .type head =>
    if head.kind = .enumType ∧ children.any Node.isBadMember then some ⟨head.name⟩ else none
  | .file _ | .package _ => none

namespace Selection

mutual

/-- What is left of a node: `none` if it is dropped. -/
def pruneNode (s : Selection) : Node → Except EnumBreach (Option Node)
  | .leaf item => .ok (if s.keepsLeaf item then some (.leaf (s.trimLeaf item)) else none)
  | .branch head children =>
    if s.keepsHead head then
      match breach? head children with
      | some breach => .error breach
      | none => (s.pruneNodes children).map fun kept => some (.branch (s.trimHead head) kept)
    else .ok none

/-- What is left of a row of nodes. -/
def pruneNodes (s : Selection) : List Node → Except EnumBreach (List Node)
  | [] => .ok []
  | node :: rest => do
    let kept ← s.pruneNode node
    let others ← s.pruneNodes rest
    return kept.toList ++ others

end

/-- What is left of an outline. -/
def prune (s : Selection) (o : Outline) : Except EnumBreach Outline :=
  (s.pruneNodes o.children).map fun kept => { o with children := kept }

end Selection

end Precis
