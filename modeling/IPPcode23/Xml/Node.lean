/-!
# Document trees

Elements with attributes and content. Elements are known by their local names in any namespace, attributes only where
they have no namespace.
-/

namespace IPPcode23.Xml

/-- A namespace: the one that the mark `xml` always stands for, or one that a document names. -/
inductive Namespace where
  | reserved
  | named (name : String)
  deriving DecidableEq, Repr

/-- An attribute: its namespace if it has one, its local name and its value. -/
structure Attribute where
  space : Option Namespace
  name : String
  value : String
  deriving DecidableEq, Repr

/-- A node of a document tree. -/
inductive Node where
  | element (name : String) (attributes : List Attribute) (content : List Node)
  | text (value : String)
  | comment (value : String)
  | instruction (target value : String)
  deriving Repr

/-- An element: its local name, its attributes and its content. -/
structure Element where
  name : String
  attributes : List Attribute
  content : List Node
  deriving Repr

namespace Node

/-- The element that a node is. -/
def element? : Node → Option Element
  | element name attributes content => some ⟨name, attributes, content⟩
  | _ => none

/-- The text that a node is. -/
def text? : Node → Option String
  | text value => some value
  | _ => none

end Node

namespace Element

/-- The element as a node. -/
def toNode (e : Element) : Node :=
  .element e.name e.attributes e.content

/-- The elements in the content, in document order. -/
def children (e : Element) : List Element :=
  e.content.filterMap Node.element?

/-- The texts in the content, joined. Comments and processing instructions between them do not count. -/
def text (e : Element) : String :=
  String.join (e.content.filterMap Node.text?)

/-- The value of an attribute without a namespace. -/
def attribute? (e : Element) (name : String) : Option String :=
  (e.attributes.find? fun a => a.space.isNone && a.name == name).map Attribute.value

end Element

end IPPcode23.Xml
