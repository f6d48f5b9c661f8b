import ClassStyle.Synthesis.Warning
import ClassStyle.Target.Attribute

/-!
# Syntheses

What is worked out for an element: attributes of its own, and nodes that go with it.
-/

namespace ClassStyle

inductive NodeKind where
  | cornerRadius
  | aspectRatioConstraint
  | padding
  | stroke
  | sizeConstraint
  | listLayout
  deriving DecidableEq, Inhabited

/-- Where a node goes. -/
inductive Attachment where
  | element
  /-- Into the parent of the element, or into a wrapper if it has none. -/
  | parentOrWrapper
  deriving DecidableEq, Inhabited

namespace NodeKind

/-- The element of the target that a node becomes. -/
def elementName : NodeKind → String
  | cornerRadius => "uicorner"
  | aspectRatioConstraint => "uiaspectratioconstraint"
  | padding => "uipadding"
  | stroke => "uistroke"
  | sizeConstraint => "uisizeconstraint"
  | listLayout => "uilistlayout"

def attachment : NodeKind → Attachment
  | listLayout => .parentOrWrapper
  | _ => .element

end NodeKind

structure Node where
  kind : NodeKind
  attributes : Attributes
  deriving DecidableEq, Inhabited

namespace Node

def ofList (kind : NodeKind) (attributes : List (String × AttributeValue)) : Node :=
  ⟨kind, .ofList attributes⟩

def attachment (node : Node) : Attachment := node.kind.attachment

end Node

structure Synthesis where
  attributes : Attributes
  nodes : List Node
  warnings : List Warning
  deriving DecidableEq, Inhabited

namespace Synthesis

/-- Nothing was worked out. Warnings do not count. -/
def isEmpty (s : Synthesis) : Bool := s.attributes.isEmpty && s.nodes.isEmpty

def nodesOf (s : Synthesis) (kind : NodeKind) : List Node :=
  s.nodes.filter fun node => node.kind = kind

end Synthesis

end ClassStyle
