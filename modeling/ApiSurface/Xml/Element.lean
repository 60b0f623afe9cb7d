/-!
# XML elements as text

An element is either empty, and then one tag, or it has content, and then an opening and a closing
tag around its children. Every tag stands on a line of its own, two blanks deeper for each element
around it. In attribute values the five marks with a meaning in XML are written as entities, and
every other character stands for itself.
-/

namespace ApiSurface.Xml

/-- An element: empty, or with content that may have no elements. -/
inductive Element where
  | leaf (tag : String) (attributes : List (String × String))
  | node (tag : String) (attributes : List (String × String)) (children : List Element)

/-- A character as it is written in an attribute value. -/
def escape (c : Char) : List Char :=
  if c = '<' then ['&', 'l', 't', ';']
  else if c = '>' then ['&', 'g', 't', ';']
  else if c = '&' then ['&', 'a', 'm', 'p', ';']
  else if c = '\'' then ['&', 'a', 'p', 'o', 's', ';']
  else if c = '"' then ['&', 'q', 'u', 'o', 't', ';']
  else [c]

/-- An attribute with the blank in front of it. -/
def attributeText (a : String × String) : String :=
  " " ++ a.1 ++ "=\"" ++ String.ofList (a.2.toList.flatMap escape) ++ "\""

/-- The name and the attributes of a tag. -/
def tagText (tag : String) (attributes : List (String × String)) : String :=
  tag ++ String.join (attributes.map attributeText)

/-- The blanks at the start of a line. -/
def indent (depth : Nat) : String := String.ofList (List.replicate (2 * depth) ' ')

namespace Element

mutual

/-- The lines of an element that stands at the given depth. -/
def render (depth : Nat) : Element → String
  | leaf tag attributes => indent depth ++ "<" ++ tagText tag attributes ++ "/>\n"
  | node tag attributes children =>
    indent depth ++ "<" ++ tagText tag attributes ++ ">\n" ++ renderAll (depth + 1) children ++
      indent depth ++ "</" ++ tag ++ ">\n"

/-- The lines of several elements. -/
def renderAll (depth : Nat) : List Element → String
  | [] => ""
  | e :: more => render depth e ++ renderAll depth more

end

/-- An element with the given children, which is empty if there are none. -/
def ofChildren (tag : String) (attributes : List (String × String)) (children : List Element) :
    Element :=
  if children.isEmpty then leaf tag attributes else node tag attributes children

end Element

/-- The document with the given root element. -/
def document (root : Element) : String :=
  "<?xml version=\"1.0\" encoding=\"UTF-8\"?>\n" ++ root.render 0

end ApiSurface.Xml
