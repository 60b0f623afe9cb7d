import ApiSurface.Grammar.Declaration
import ApiSurface.Proofs.Grammar.Phrase

/-!
# The grammar of stub files, as productions

Each inductive predicate below is one nonterminal: its constructors are the productions, and each of
them says what value a word has that is read by it. No production looks at what follows a word,
none is preferred to another, and a repetition may end anywhere.

Two places of the grammar can be read in two ways, and `Reading` names them.

* The value of an annotation element is noise, and `name =` is noise too. Taken freely, an element
  may therefore be a name and an assignment mark with nothing behind them. Taken `committed`, a name
  with an assignment mark behind it names the element, and a value must follow.
* A comma may stand behind the constants of an enumeration. Taken freely it may stand there even if
  there are no constants; taken `committed` it needs a constant before it.

Everything else is the same in both readings.
-/

namespace ApiSurface.Derives

open Phrase Grammar

/-- How annotation elements and lists of constants are taken. -/
inductive Reading where
  | free
  | committed
deriving DecidableEq, Repr

/-! ## Names and types -/

/-- An identifier. -/
inductive Name : List Token → String → Prop
  | mk {t : Token} {x : String} : t.kind = .identifier x → Name [t] x

/-- `a.b.c` -/
inductive DottedName : List Token → String → Prop
  | mk {w : List Token} {xs : List String} :
      Separated .dot Name w xs → DottedName w (".".intercalate xs)

/-- `[]` or `...` -/
inductive Suffix : List Token → String → Prop
  | brackets {t u : Token} :
      t.kind = .symbol .leftBracket → u.kind = .symbol .rightBracket → Suffix [t, u] "[]"
  | dots {t : Token} : t.kind = .symbol .ellipsis → Suffix [t] "..."

/-- `extends A & B` or `super A`, for types `T` -/
inductive Bound (T : Phrase String) : List Token → String → Prop
  | upper {t : Token} {w : List Token} {xs : List String} :
      t.kind = .keyword .extendsKw → Separated .ampersand T w xs →
      Bound T (t :: w) (" extends " ++ " & ".intercalate xs)
  | lower {t : Token} {w : List Token} {x : String} :
      t.kind = .keyword .superKw → T w x → Bound T (t :: w) (" super " ++ x)

/-- A wildcard or a type, with an optional bound -/
inductive Argument (T : Phrase String) : List Token → String → Prop
  | wildcard {t : Token} {w : List Token} {b : Option String} :
      t.kind = .symbol .question → Optional (Bound T) w b → Argument T (t :: w) ("?" ++ b.getD "")
  | type {w v : List Token} {x : String} {b : Option String} :
      T w x → Optional (Bound T) v b → Argument T (w ++ v) (x ++ b.getD "")

/-- `<A, B>` -/
inductive Generics (T : Phrase String) : List Token → List String → Prop
  | mk {t u : Token} {w : List Token} {xs : List String} :
      t.kind = .symbol .less → Separated .comma (Argument T) w xs → u.kind = .symbol .greater →
      Generics T (t :: (w ++ [u])) xs

/-- A reference to a type, as its text -/
inductive TypeText : List Token → String → Prop
  | mk {n g s : List Token} {x : String} {args : Option (List String)} {ss : List String} :
      DottedName n x → Optional (Generics TypeText) g args → Repeated Suffix s ss →
      TypeText (n ++ (g ++ s)) (x ++ argumentsText args ++ String.join ss)

/-- The keyword `k` and a list of types, or nothing -/
inductive Clause (k : Keyword) : List Token → List String → Prop
  | absent : Clause k [] []
  | present {t : Token} {w : List Token} {xs : List String} :
      t.kind = .keyword k → Separated .comma TypeText w xs → Clause k (t :: w) xs

/-! ## Noise and bodies -/

/-- The three kinds of brackets. -/
inductive Bracket where
  | round
  | curly
  | square
deriving DecidableEq, Repr

/-- The symbol that opens a bracket. -/
def Bracket.opening : Bracket → Symbol
  | round => .leftParen
  | curly => .leftBrace
  | square => .leftBracket

/-- The symbol that closes a bracket. -/
def Bracket.closing : Bracket → Symbol
  | round => .rightParen
  | curly => .rightBrace
  | square => .rightBracket

/-- Tokens in which every bracket is closed by its own kind, and the input does not end -/
inductive Balanced : List Token → Prop
  | nil : Balanced []
  | plain {t : Token} {w : List Token} : t.isDelimiter = false → Balanced w → Balanced (t :: w)
  | group {b : Bracket} {t u : Token} {w v : List Token} :
      t.kind = .symbol b.opening → Balanced w → u.kind = .symbol b.closing → Balanced v →
      Balanced (t :: (w ++ u :: v))

/-- A bracket of the kind `b`, through the one that closes it -/
inductive Enclosed (b : Bracket) : List Token → Unit → Prop
  | mk {t u : Token} {w : List Token} :
      t.kind = .symbol b.opening → Balanced w → u.kind = .symbol b.closing →
      Enclosed b (t :: (w ++ [u])) ()

/-- A bracket of any kind, through the one that closes it -/
inductive Grouped : List Token → Unit → Prop
  | mk {b : Bracket} {w : List Token} : Enclosed b w () → Grouped w ()

/-- A token that is no bracket and does not satisfy `stop`, or anything in brackets -/
inductive NoiseItem (stop : TokenKind → Bool) : List Token → Unit → Prop
  | plain {t : Token} : t.isDelimiter = false → stop t.kind = false → NoiseItem stop [t] ()
  | group {w : List Token} : Grouped w () → NoiseItem stop w ()

/-- Any number of noise items -/
inductive Noise (stop : TokenKind → Bool) : List Token → Unit → Prop
  | mk {w : List Token} {us : List Unit} : Repeated (NoiseItem stop) w us → Noise stop w ()

/-- At least one noise item -/
inductive SomeNoise (stop : TokenKind → Bool) : List Token → Unit → Prop
  | mk {w v : List Token} {us : List Unit} :
      NoiseItem stop w () → Repeated (NoiseItem stop) v us → SomeNoise stop (w ++ v) ()

/-- A token or a group in round or square brackets, inside a statement that braces end -/
inductive InnerItem : List Token → Unit → Prop
  | plain {t : Token} : t.isDelimiter = false → isSemicolon t.kind = false → InnerItem [t] ()
  | round {w : List Token} : Enclosed .round w () → InnerItem w ()
  | square {w : List Token} : Enclosed .square w () → InnerItem w ()

/-- Inner items and a group in braces -/
inductive BracedPart : List Token → Unit → Prop
  | mk {w v : List Token} {us : List Unit} :
      Repeated InnerItem w us → Enclosed .curly v () → BracedPart (w ++ v) ()

/-- A statement, for blocks `B` -/
inductive Statement (B : Phrase Unit) : List Token → Unit → Prop
  | superCall {t u : Token} {w : List Token} :
      t.kind = .keyword .superKw → Grouped w () → u.kind = .symbol .semicolon →
      Statement B (t :: (w ++ [u])) ()
  | stubThrow {t n e o m c u : Token} :
      t.kind = .keyword .throwKw → n.kind = .keyword .newKw →
      e.kind = .identifier "RuntimeException" → o.kind = .symbol .leftParen →
      m.kind = .string "Stub!" → c.kind = .symbol .rightParen → u.kind = .symbol .semicolon →
      Statement B [t, n, e, o, m, c, u] ()
  | block {w : List Token} : B w () → Statement B w ()
  | plain {u : Token} {w : List Token} :
      Noise isSemicolon w () → u.kind = .symbol .semicolon → Statement B (w ++ [u]) ()
  | braced {w v : List Token} {us : List Unit} :
      BracedPart w () → Repeated BracedPart v us → Statement B (w ++ v) ()

/-- `{ statement* }` -/
inductive Block : List Token → Unit → Prop
  | mk {t u : Token} {w : List Token} {us : List Unit} :
      t.kind = .symbol .leftBrace → Repeated (Statement Block) w us →
      u.kind = .symbol .rightBrace → Block (t :: (w ++ [u])) ()

/-- What ends a method or constructor: `;`, a default value, or a body -/
inductive Ending : List Token → Unit → Prop
  | semicolon {t : Token} : t.kind = .symbol .semicolon → Ending [t] ()
  | default {t u : Token} {w : List Token} :
      t.kind = .keyword .defaultKw → SomeNoise isSemicolon w () → u.kind = .symbol .semicolon →
      Ending (t :: (w ++ [u])) ()
  | body {w : List Token} : Block w () → Ending w ()

/-! ## Annotations and what stands in front of a declaration -/

/-- A name and an assignment mark, with nothing behind them -/
inductive BareKey : List Token → Prop
  | mk {n e : Token} {x : String} :
      n.kind = .identifier x → e.kind = .symbol .assign → BareKey [n, e]

/-- An element of an annotation: `value` or `name = value` -/
inductive Element (r : Reading) : List Token → Unit → Prop
  | named {n e : Token} {x : String} {w : List Token} :
      n.kind = .identifier x → e.kind = .symbol .assign → SomeNoise isComma w () →
      Element r (n :: e :: w) ()
  | value {w : List Token} :
      SomeNoise isComma w () → (r = .committed → ¬ BareKey w) → Element r w ()

/-- Any number of words with commas between them, and perhaps one more comma -/
inductive Trailing {α : Type} (P : Phrase α) : List Token → List α → Prop
  | empty : Trailing P [] []
  | items {w : List Token} {as : List α} : Separated .comma P w as → Trailing P w as
  | comma {w : List Token} {as : List α} {t : Token} :
      Separated .comma P w as → t.kind = .symbol .comma → Trailing P (w ++ [t]) as

/-- `(element, element)` -/
inductive Elements (r : Reading) : List Token → Unit → Prop
  | mk {t u : Token} {w : List Token} {us : List Unit} :
      t.kind = .symbol .leftParen → Trailing (Element r) w us → u.kind = .symbol .rightParen →
      Elements r (t :: (w ++ [u])) ()

/-- An annotation, as its name -/
inductive Annotated (r : Reading) : List Token → String → Prop
  | mk {t : Token} {w v : List Token} {x : String} {e : Option Unit} :
      t.kind = .symbol .atSign → DottedName w x → Optional (Elements r) v e →
      Annotated r (t :: (w ++ v)) x

/-- An annotation, a modifier, or a list of type parameters -/
inductive FrontItem (r : Reading) : List Token → HeaderItem → Prop
  | annotated {w : List Token} {x : String} :
      Annotated r w x → FrontItem r w (.annotated x)
  | modifier {t : Token} : t.isModifier = true → FrontItem r [t] (.modifiers [t.lexeme])
  | generics {w : List Token} {xs : List String} :
      Generics TypeText w xs → FrontItem r w (.modifiers xs)

/-- All that stands in front of a declaration -/
inductive Front (r : Reading) : List Token → Header → Prop
  | mk {w : List Token} {items : List HeaderItem} :
      Repeated (FrontItem r) w items → Front r w (Header.ofItems items)

/-! ## Methods, constructors and fields -/

/-- An annotation or `final`, in front of a parameter -/
inductive ParameterMark (r : Reading) : List Token → Unit → Prop
  | annotated {w : List Token} {x : String} : Annotated r w x → ParameterMark r w ()
  | final {t : Token} : t.kind = .keyword .finalKw → ParameterMark r [t] ()

/-- A type and a name, with marks in front -/
inductive FormalParameter (r : Reading) : List Token → Parameter → Prop
  | mk {m w : List Token} {us : List Unit} {ty x : String} {n : Token} :
      Repeated (ParameterMark r) m us → TypeText w ty → n.kind = .identifier x →
      FormalParameter r (m ++ (w ++ [n])) { name := x, type := ty }

/-- `(parameter, parameter)` -/
inductive Parameters (r : Reading) : List Token → List Parameter → Prop
  | mk {t u : Token} {w : List Token} {ps : Option (List Parameter)} :
      t.kind = .symbol .leftParen → Optional (Separated .comma (FormalParameter r)) w ps →
      u.kind = .symbol .rightParen → Parameters r (t :: (w ++ [u])) (ps.getD [])

/-- A name, parameters, exceptions and an ending -/
inductive CallableTail (r : Reading) : List Token → Signature → Prop
  | mk {n : Token} {x : String} {p e z : List Token} {ps : List Parameter} {es : List String} :
      n.kind = .identifier x → Parameters r p ps → Clause .throwsKw e es → Ending z () →
      CallableTail r (n :: (p ++ (e ++ z)))
        { name := x, parameters := ps, exceptions := es.map Thrown.mk }

/-- What follows the name of a field. The value is a literal that stands alone -/
inductive FieldTail : List Token → Option String → Prop
  | plain {t : Token} : t.kind = .symbol .semicolon → FieldTail [t] none
  | literal {t v u : Token} {x : String} :
      t.kind = .symbol .assign → v.literal? = some x → u.kind = .symbol .semicolon →
      FieldTail [t, v, u] (some x)
  | expression {t u : Token} {w : List Token} :
      t.kind = .symbol .assign → SomeNoise isSemicolon w () →
      (∀ v x, v.literal? = some x → w ≠ [v]) → u.kind = .symbol .semicolon →
      FieldTail (t :: (w ++ [u])) none

/-! ## Types and members -/

/-- A constant of an enumeration -/
inductive Constant (r : Reading) : List Token → EnumConstant → Prop
  | mk {w v : List Token} {xs : List String} {n : Token} {x : String} {us : List Unit} :
      Repeated (Annotated r) w xs → n.kind = .identifier x →
      Repeated Grouped v us →
      Constant r (w ++ n :: v) { annotations := xs, name := x }

/-- The constants of an enumeration -/
inductive Constants (r : Reading) : List Token → List EnumConstant → Prop
  | list {w : List Token} {cs : List EnumConstant} : Trailing (Constant r) w cs → Constants r w cs
  | loneComma {t : Token} : r = .free → t.kind = .symbol .comma → Constants r [t] []

/-- The semicolon behind the constants and the members behind that, for members `M` -/
inductive MoreMembers (M : Phrase (Option Member)) : List Token → List (Option Member) → Prop
  | absent : MoreMembers M [] []
  | present {t : Token} {w : List Token} {ms : List (Option Member)} :
      t.kind = .symbol .semicolon → Repeated M w ms → MoreMembers M (t :: w) ms

/-- A type behind its header, for members `M`. The value is the type with a given header -/
inductive TypeTail (r : Reading) (M : Phrase (Option Member)) :
    List Token → (Header → TypeDecl) → Prop
  | classType {k n t u : Token} {x : String} {g e i w : List Token} {gs : Option (List String)}
      {es is : List String} {ms : List (Option Member)} :
      k.kind = .keyword .classKw → n.kind = .identifier x → Optional (Generics TypeText) g gs →
      Clause .extendsKw e es → Clause .implementsKw i is → t.kind = .symbol .leftBrace →
      Repeated M w ms → u.kind = .symbol .rightBrace →
      TypeTail r M (k :: n :: (g ++ (e ++ (i ++ t :: (w ++ [u])))))
        fun h => h.type (.classKind (es.head?.getD defaultSuperclass)) x (gs.getD []) is
          (ms.filterMap id)
  | interfaceType {k n t u : Token} {x : String} {g e i w : List Token} {gs : Option (List String)}
      {es is : List String} {ms : List (Option Member)} :
      k.kind = .keyword .interfaceKw ∨ k.kind = .symbol .atInterface → n.kind = .identifier x →
      Optional (Generics TypeText) g gs → Clause .extendsKw e es → Clause .implementsKw i is →
      t.kind = .symbol .leftBrace → Repeated M w ms → u.kind = .symbol .rightBrace →
      TypeTail r M (k :: n :: (g ++ (e ++ (i ++ t :: (w ++ [u])))))
        fun h => h.type .interfaceKind x (gs.getD []) (es ++ is) (ms.filterMap id)
  | enumType {k n t u : Token} {x : String} {i c w : List Token} {is : List String}
      {cs : List EnumConstant} {ms : List (Option Member)} :
      k.kind = .keyword .enumKw → n.kind = .identifier x → Clause .implementsKw i is →
      t.kind = .symbol .leftBrace → Constants r c cs → MoreMembers M w ms →
      u.kind = .symbol .rightBrace →
      TypeTail r M (k :: n :: (i ++ t :: (c ++ (w ++ [u]))))
        fun h => h.type (.classKind enumSuperclass) x [] is
          (cs.map (fun c => .field (c.field x)) ++ ms.filterMap id)

/-- One entry of a body -/
inductive MemberEntry (r : Reading) : List Token → Option Member → Prop
  | empty {t : Token} : t.kind = .symbol .semicolon → MemberEntry r [t] none
  | type {f w : List Token} {h : Header} {d : Header → TypeDecl} :
      Front r f h → TypeTail r (MemberEntry r) w d → MemberEntry r (f ++ w) (some (.ofType (d h)))
  | constructor {f w : List Token} {h : Header} {s : Signature} :
      Front r f h → CallableTail r w s →
      MemberEntry r (f ++ w) (some (.constructor (h.constructor s)))
  | method {f t w : List Token} {h : Header} {ty : String} {s : Signature} :
      Front r f h → TypeText t ty → CallableTail r w s →
      MemberEntry r (f ++ (t ++ w)) (some (.method (h.method ty s)))
  | field {f t w : List Token} {h : Header} {ty x : String} {n : Token} {v : Option String} :
      Front r f h → TypeText t ty → n.kind = .identifier x → FieldTail w v →
      MemberEntry r (f ++ (t ++ n :: w)) (some (.field (h.field ty x v)))
  | block {f w : List Token} {h : Header} : Front r f h → Block w () → MemberEntry r (f ++ w) none

/-! ## Files -/

/-- The package declaration -/
inductive PackageLine (r : Reading) : List Token → String → Prop
  | mk {w v : List Token} {xs : List String} {t u : Token} {x : String} :
      Repeated (Annotated r) w xs → t.kind = .keyword .packageKw → DottedName v x →
      u.kind = .symbol .semicolon → PackageLine r (w ++ t :: (v ++ [u])) x

/-- A point, and an identifier or a star -/
inductive ImportStep : List Token → String → Prop
  | name {d t : Token} {x : String} :
      d.kind = .symbol .dot → t.kind = .identifier x → ImportStep [d, t] x
  | star {d t : Token} :
      d.kind = .symbol .dot → t.kind = .symbol .star → ImportStep [d, t] "*"

/-- `a.b.*` -/
inductive ImportTarget : List Token → String → Prop
  | mk {t : Token} {x : String} {w : List Token} {xs : List String} :
      t.kind = .identifier x → Repeated ImportStep w xs →
      ImportTarget (t :: w) (".".intercalate (x :: xs))

/-- The keyword `static` -/
inductive StaticMark : List Token → Unit → Prop
  | mk {t : Token} : t.kind = .keyword .staticKw → StaticMark [t] ()

/-- An import -/
inductive ImportLine : List Token → String → Prop
  | mk {t u : Token} {s w : List Token} {o : Option Unit} {x : String} :
      t.kind = .keyword .importKw → Optional StaticMark s o → ImportTarget w x →
      u.kind = .symbol .semicolon → ImportLine (t :: (s ++ (w ++ [u]))) x

/-- A semicolon -/
inductive Semicolon : List Token → Unit → Prop
  | mk {t : Token} : t.kind = .symbol .semicolon → Semicolon [t] ()

/-- A type of a file, and the semicolons behind it -/
inductive TopLevel (r : Reading) : List Token → TypeDecl → Prop
  | mk {f w v : List Token} {h : Header} {d : Header → TypeDecl} {us : List Unit} :
      Front r f h → TypeTail r (MemberEntry r) w d → Repeated Semicolon v us →
      TopLevel r (f ++ (w ++ v)) (d h)

/-- A whole file, through the end of the input -/
inductive File (r : Reading) : List Token → CompileUnit → Prop
  | mk {p i t : List Token} {e : Token} {x : Option String} {imports : List String}
      {types : List TypeDecl} :
      Optional (PackageLine r) p x → Repeated ImportLine i imports →
      Repeated (TopLevel r) t types → e.kind = .eof →
      File r (p ++ (i ++ (t ++ [e])))
        { package := { name := x.getD "", types }, imports }

end ApiSurface.Derives
