import IPPcode23.Xml.Markup
import IPPcode23.Xml.Node
import IPPcode23.Xml.Reference

/-!
# Well-formed documents

A document is well formed if its tags match, it has one root, nothing but white space, comments and processing
instructions stand outside that root, and every namespace mark is bound. Then it has a tree.
-/

namespace IPPcode23.Xml

/-! ### Namespaces -/

/-- The namespaces bound to marks, the innermost binding first. -/
abbrev Scope := List (String × String)

/-- The name of the namespace that the mark `xml` stands for. -/
def xmlName : String :=
  "http://www.w3.org/XML/1998/namespace"

/-- The name of the namespace that declarations belong to. Nothing can be bound to it. -/
def xmlnsName : String :=
  "http://www.w3.org/2000/xmlns/"

/-- Whether a declaration may give a mark a namespace of this name: `xml` goes with its own namespace and no other mark
does. The mark of a default namespace is empty. -/
def mayBind (mark name : String) : Bool :=
  name != xmlnsName && (mark == "xml") == (name == xmlName)

/-- The attributes of a tag, told apart: the bindings that it declares and the rest. -/
structure Declared where
  bindings : Scope
  attributes : List (QName × String)

/-- Adds an attribute of a tag. A mark is bound at most once in a tag. The mark `xml` is bound from the start, so that
declaring it adds nothing, however often. -/
def Declared.add? (d : Declared) (name : QName) (value : String) : Option Declared :=
  if name.space = "xmlns" then
    if !mayBind name.name value || (d.bindings.lookup name.name).isSome then none
    else if name.name = "xml" then some d
    else some { d with bindings := (name.name, value) :: d.bindings }
  else if name.name = "xmlns" then (if mayBind "" value then some d else none)
  else some { d with attributes := d.attributes ++ [(name, value)] }

/-- Tells the attributes of a tag apart. -/
def declared? (d : Declared) : List RawAttribute → Option Declared
  | [] => some d
  | (name, raw) :: rest => do
    let value ← attributeValue? raw
    declared? (← d.add? name value) rest

/-- The namespace of an attribute. Without a mark it has none. -/
def attributeSpace? (scope : Scope) (mark : String) : Option (Option Namespace) :=
  if mark = "" then some none
  else if mark = "xml" then some (some .reserved)
  else (scope.lookup mark).map fun name => some (.named name)

/-- Resolves the marks of attributes. No two attributes may have the same namespace and local name. -/
def resolve? (scope : Scope) (seen : List Attribute) : List (QName × String) → Option (List Attribute)
  | [] => some seen
  | (name, value) :: rest => do
    let space ← attributeSpace? scope name.space
    if seen.any fun a => a.space == space && a.name == name.name then none
    resolve? scope (seen ++ [⟨space, name.name, value⟩]) rest

/-- Whether the mark of an element's name is bound. -/
def isBound (scope : Scope) (name : QName) : Bool :=
  name.space != "xmlns" && (name.space == "" || (scope.lookup name.space).isSome)

/-! ### Trees -/

/-- An element whose end tag is still to come. -/
structure Pending where
  name : QName
  attributes : List Attribute
  scope : Scope
  /-- The content so far, the last node first. -/
  content : List Node

/-- The elements that are open, the innermost first, and the root once it is complete. -/
structure Builder where
  pending : List Pending
  root : Option Element

namespace Builder

/-- The namespaces bound where the next part stands. -/
def scope (b : Builder) : Scope :=
  match b.pending with
  | [] => []
  | p :: _ => p.scope

/-- Opens an element. -/
def openElement? (b : Builder) (name : QName) (raw : List RawAttribute) : Option Pending := do
  let d ← declared? ⟨[], []⟩ raw
  let scope := d.bindings ++ b.scope
  let attributes ← resolve? scope [] d.attributes
  if isBound scope name then some ⟨name, attributes, scope, []⟩ else none

/-- Adds a node to the innermost open element. There has to be one. -/
def addNode? (b : Builder) (n : Node) : Option Builder :=
  match b.pending with
  | [] => none
  | p :: ps => some { b with pending := { p with content := n :: p.content } :: ps }

/-- Adds a complete element: to the innermost open one, or as the root if that is missing. -/
def close? (b : Builder) (p : Pending) : Option Builder :=
  let e : Element := ⟨p.name.name, p.attributes, p.content.reverse⟩
  match b.pending, b.root with
  | [], none => some { b with root := some e }
  | [], some _ => none
  | _ :: _, _ => b.addNode? e.toNode

/-- Adds a node inside the root and drops it outside. -/
def addOrDrop (b : Builder) (n : Node) : Builder :=
  (b.addNode? n).getD b

/-- Adds a part of the document. -/
def add? (b : Builder) : Markup → Option Builder
  | .startTag name raw => do
    let p ← b.openElement? name raw
    if b.pending.isEmpty && b.root.isSome then none
    return { b with pending := p :: b.pending }
  | .emptyTag name raw => do
    b.close? (← b.openElement? name raw)
  | .endTag name =>
    match b.pending with
    | [] => none
    | p :: ps => if p.name = name then close? { b with pending := ps } p else none
  | .text raw =>
    if b.pending.isEmpty then (if raw.all isSpace then some b else none)
    else (textOf? raw).bind fun t => b.addNode? (.text t)
  | .cdata raw => b.addNode? (.text (cdataText raw))
  | .comment raw => some (b.addOrDrop (.comment (String.ofList raw)))
  | .instruction target content =>
    some (b.addOrDrop (.instruction (String.ofList target) (String.ofList content)))

/-- Adds the parts of a document one by one. -/
def addAll? (b : Builder) : List Markup → Option Builder
  | [] => some b
  | x :: xs => do (← b.add? x).addAll? xs

end Builder

/-- The root of a well-formed document. -/
def parse? (text : String) : Option Element := do
  let body ← prologue? text.toList
  let parts ← markups? body
  let b ← Builder.addAll? ⟨[], none⟩ parts
  if b.pending.isEmpty then b.root else none

end IPPcode23.Xml
