import ApiSurface.Grammar.Header

/-!
# Members, types and compile units

The rules for declarations, and what each of them declares. A class without a superclass extends the
root class, an enumeration the class of enumerations; the constants of an enumeration are public
constants of its own type. What an interface extends it is said to implement.
-/

namespace ApiSurface

/-! ## What a declaration declares -/

/-- The name, parameters and exceptions of a method or constructor. -/
structure Signature where
  name : String
  parameters : List Parameter
  exceptions : List Thrown
deriving DecidableEq, Repr

/-- A constant of an enumeration. -/
structure EnumConstant where
  annotations : List String
  name : String
deriving DecidableEq, Repr

/-- The field that a constant of the enumeration `enumName` declares. -/
def EnumConstant.field (enumName : String) (c : EnumConstant) : Field where
  name := c.name
  type := enumName
  isStatic := true
  isFinal := true
  visibility := some .publicAccess
  deprecated := deprecation c.annotations

namespace Header

/-- The callable with this header. -/
def callable (h : Header) (s : Signature) : Callable where
  name := s.name
  visibility := h.visibility
  isStatic := h.hasKeyword .staticKw
  isFinal := h.hasKeyword .finalKw
  parameters := s.parameters
  exceptions := s.exceptions
  typeParameters := h.typeParameters
  deprecated := h.deprecated

/-- The method with this header. -/
def method (h : Header) (returnType : String) (s : Signature) : Method where
  toCallable := h.callable s
  returnType := returnType
  isAbstract := h.hasKeyword .abstractKw
  isNative := h.hasKeyword .nativeKw
  isSynchronized := h.hasKeyword .synchronizedKw

/-- The constructor with this header. -/
def constructor (h : Header) (s : Signature) : Constructor where
  toCallable := h.callable s
  enclosingType := s.name

/-- The field with this header. -/
def field (h : Header) (type name : String) (value : Option String) : Field where
  name := name
  type := type
  value := value
  isStatic := h.hasKeyword .staticKw
  isFinal := h.hasKeyword .finalKw
  isVolatile := h.hasKeyword .volatileKw
  isTransient := h.hasKeyword .transientKw
  visibility := h.visibility
  deprecated := h.deprecated

/-- The type with this header. Parameters from the header come before its own. -/
def type (h : Header) (kind : TypeKind) (name : String) (parameters implements : List String)
    (members : List Member) : TypeDecl where
  kind := kind
  name := name
  visibility := h.visibility
  isAbstract := h.hasKeyword .abstractKw
  isStatic := h.hasKeyword .staticKw
  isFinal := h.hasKeyword .finalKw
  deprecated := h.deprecated
  typeParameters := h.typeParameters ++ parameters.map TypeParameter.ofDeclaration
  implements := implements
  members := members

end Header

namespace Grammar

open Rule

/-! ## Methods, constructors and fields -/

/-- A parameter; its annotations are passed over. -/
def parameter : Rule Parameter := do
  discard (many (discard annotationName <|> keyword .finalKw))
  let type ← typeRef
  let name ← identifier
  return { name, type }

/-- The parameters of a method or constructor. -/
def parameters : Rule (List Parameter) :=
  between (symbol .leftParen) (symbol .rightParen) (sepBy parameter (symbol .comma))

/-- A name, parameters and exceptions, through the end of the method or constructor. -/
def signature : Rule Signature := do
  let name ← identifier
  let parameters ← parameters
  let exceptions ← clause .throwsKw
  callableEnd
  return { name, parameters, exceptions := exceptions.map Thrown.mk }

/-- The value of a field: the initialiser, if that is a single literal. -/
def fieldValue : Rule (Option String) :=
  (do let value ← literal; symbol .semicolon; return some value) <|>
  (do someNoiseUntil isSemicolon; symbol .semicolon; return none)

/-- What follows the name of a field. -/
def fieldEnd : Rule (Option String) :=
  (do symbol .semicolon; return none) <|> (do symbol .assign; fieldValue)

/-! ## Types -/

/-- The three words that introduce a type with a list of members. -/
inductive TypeWord where
  | classWord
  | interfaceWord
  | annotationWord
deriving DecidableEq, Repr

/-- A word that introduces a type with a list of members. -/
def typeWord : Rule TypeWord :=
  (do keyword .classKw; return .classWord) <|>
  (do keyword .interfaceKw; return .interfaceWord) <|>
  (do symbol .atInterface; return .annotationWord)

/-- The members between the braces of a type. -/
def typeBody (member : Rule (Option Member)) : Rule (List Member) := do
  let members ← between (symbol .leftBrace) (symbol .rightBrace) (many member)
  return members.filterMap id

/-- A class, interface or annotation type behind its header. -/
def plainType (member : Rule (Option Member)) (h : Header) : Rule TypeDecl := do
  let word ← typeWord
  let name ← identifier
  let parameters ← optional genericList
  let extended ← clause .extendsKw
  let implemented ← clause .implementsKw
  let members ← typeBody member
  return match word with
    | .classWord =>
      h.type (.classKind (extended.head?.getD defaultSuperclass)) name (parameters.getD [])
        implemented members
    | .interfaceWord | .annotationWord =>
      h.type .interfaceKind name (parameters.getD []) (extended ++ implemented) members

/-- A constant of an enumeration; its arguments and its body are passed over. -/
def enumConstant : Rule EnumConstant := do
  let annotations ← annotations
  let name ← identifier
  constantTail
  return { annotations, name }

/-- The members of an enumeration behind its constants. -/
def enumMembers (member : Rule (Option Member)) : Rule (List Member) := do
  let members ← optional (do symbol .semicolon; many member)
  return (members.getD []).filterMap id

/-- The constants and members of an enumeration. -/
def enumBody (member : Rule (Option Member)) : Rule (List EnumConstant × List Member) := do
  let constants ← sepByTrailing enumConstant (symbol .comma)
  let members ← enumMembers member
  return (constants, members)

/-- An enumeration behind its header. -/
def enumeration (member : Rule (Option Member)) (h : Header) : Rule TypeDecl := do
  keyword .enumKw
  let name ← identifier
  let implemented ← clause .implementsKw
  let (constants, members) ←
    between (symbol .leftBrace) (symbol .rightBrace) (enumBody member)
  return h.type (.classKind enumSuperclass) name [] implemented
    (constants.map (fun c => .field (c.field name)) ++ members)

/-- A type behind its header. -/
def typeRest (member : Rule (Option Member)) (h : Header) : Rule TypeDecl :=
  plainType member h <|> enumeration member h

/-! ## Members -/

/-- A constructor behind its header. -/
def constructorRest (h : Header) : Rule Member := do
  return .constructor (h.constructor (← signature))

/-- A method behind its header. -/
def methodRest (h : Header) : Rule Member := do
  let returnType ← typeRef
  return .method (h.method returnType (← signature))

/-- A field behind its header. -/
def fieldRest (h : Header) : Rule Member := do
  let type ← typeRef
  let name ← identifier
  let value ← fieldEnd
  return .field (h.field type name value)

/-- One entry of a body, by means of the entries inside. Initialiser blocks and stray semicolons
declare nothing. -/
def memberBody (member : Rule (Option Member)) : Rule (Option Member) :=
  (do symbol .semicolon; return none) <|>
  (do
    let h ← header
    (do return some (.ofType (← typeRest member h))) <|>
    (do return some (← constructorRest h)) <|>
    (do return some (← methodRest h)) <|>
    (do return some (← fieldRest h)) <|>
    (do block; return none))

/-- One entry of a body. -/
def member : Rule (Option Member) := recursive memberBody

/-- A type with its header. -/
def typeDeclaration : Rule TypeDecl := do
  let h ← header
  typeRest member h

/-! ## Compile units -/

/-- The declaration of the package of a file. -/
def packageDeclaration : Rule String := do
  discard annotations
  keyword .packageKw
  let name ← dottedName
  symbol .semicolon
  return name

/-- An import. -/
def importDeclaration : Rule String := do
  keyword .importKw
  discard (optional (keyword .staticKw))
  let target ← importTarget
  symbol .semicolon
  return target

/-- A type of a file, and the semicolons behind it. -/
def topLevelType : Rule TypeDecl := do
  let type ← typeDeclaration
  discard (many (symbol .semicolon))
  return type

/-- A whole file, through the end of the input. -/
def compileUnit : Rule CompileUnit := do
  let package ← optional packageDeclaration
  let imports ← many importDeclaration
  let types ← many topLevelType
  endOfInput
  return { package := { name := package.getD "", types }, imports }

end Grammar

end ApiSurface
