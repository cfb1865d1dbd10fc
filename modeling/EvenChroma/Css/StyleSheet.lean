/-
  EvenChroma/Css/StyleSheet.lean
  ==============================
  **Declarations of a style sheet.**  Only the values of some properties are searched for
  calls.  A whole style sheet is split by a light scan for `property: value`, which
  passes over everything that does not look like one.
-/
import EvenChroma.Css.Expansion

namespace EvenChroma.Css

/-! ### One declaration -/

/-- The value of a declaration with its calls replaced, if the property is one that is
    searched.  `between` stands between property and value; places are counted from the
    beginning of the property. -/
def expandDeclaration (reader : CallReader) (o : HostOptions) (property between value : Text) :
    ColorM (Option Expanded) :=
  if o.wants property then do
    let e ← expand reader o value
    let distance := property.length + between.length
    pure (some ⟨e.text, e.diagnostics.map (·.shift distance)⟩)
  else pure none

/-! ### Finding declarations -/

def isPropertyChar (c : Char) : Bool := c.isAlphanum || c = '-'

def isCustomChar (c : Char) : Bool := isPropertyChar c || c = '_'

/-- The property that a text begins with, and the text after it. -/
def splitProperty : Text → Option (Text × Text)
  | '-' :: '-' :: t =>
    let name := t.takeWhile isCustomChar
    if name.isEmpty then none else some ('-' :: '-' :: name, t.dropWhile isCustomChar)
  | '-' :: c :: t =>
    if c.isAlpha then some ('-' :: c :: t.takeWhile isPropertyChar, t.dropWhile isPropertyChar)
    else none
  | c :: t =>
    if c.isAlpha then some (c :: t.takeWhile isPropertyChar, t.dropWhile isPropertyChar) else none
  | [] => none

/-- A colon with blanks around it, and the text after it. -/
def splitColon (t : Text) : Option (Text × Text) :=
  match t.dropWhile Text.isBlank with
  | ':' :: r =>
    some (t.takeWhile Text.isBlank ++ ':' :: r.takeWhile Text.isBlank, r.dropWhile Text.isBlank)
  | _ => none

/-- A declaration and the text passed over before it. -/
structure Declaration where
  gap : Text
  property : Text
  between : Text
  value : Text
deriving DecidableEq, Repr

/-- The first declaration of a text up to its value, which `rest` begins with. -/
structure DeclarationStart where
  gap : Text
  property : Text
  between : Text
  rest : Text

/-- The declaration that begins right here, up to its value. -/
def declarationHere? (t : Text) : Option DeclarationStart := do
  let (property, t) ← splitProperty t
  let (between, rest) ← splitColon t
  some ⟨[], property, between, rest⟩

/-- The first declaration of a text up to its value. -/
def declarationStart? : Text → Option DeclarationStart
  | [] => none
  | c :: t =>
    match declarationHere? (c :: t) with
    | some d => some d
    | none => (declarationStart? t).map fun d => { d with gap := c :: d.gap }

/-- The declarations of a text, `fuel` of them at most, and the text after them. -/
def declarationsFrom : (fuel : Nat) → Text → List Declaration × Text
  | 0, t => ([], t)
  | fuel + 1, t =>
    match declarationStart? t with
    | none => ([], t)
    | some d =>
      let (value, rest) := splitValue .outside 0 d.rest
      let (later, rest) := declarationsFrom fuel rest
      (⟨d.gap, d.property, d.between, value⟩ :: later, rest)

/-- The declarations of a text and the text after them; each takes some text. -/
def declarations (t : Text) : List Declaration × Text := declarationsFrom t.length t

/-! ### Whole style sheets -/

/-- The declarations written out with their calls replaced.  The first of them, with the
    text passed over before it, begins at character `start`. -/
def expandDeclarations (reader : CallReader) (o : HostOptions) :
    (start : Nat) → List Declaration → ColorM Expanded
  | _, [] => pure ⟨[], []⟩
  | start, d :: ds => do
    let result ← expandDeclaration reader o d.property d.between d.value
    let e : Expanded := result.getD ⟨d.value, []⟩
    let begins := start + d.gap.length
    let stop := begins + d.property.length + d.between.length + d.value.length
    let later ← expandDeclarations reader o stop ds
    pure ⟨d.gap ++ d.property ++ d.between ++ e.text ++ later.text,
      e.diagnostics.map (·.shift begins) ++ later.diagnostics⟩

/-- A style sheet with the calls of searched declarations replaced by colours. -/
def expandStyleSheet (reader : CallReader) (o : HostOptions) (css : Text) : ColorM Expanded := do
  let (ds, rest) := declarations css
  let e ← expandDeclarations reader o 0 ds
  pure ⟨e.text ++ rest, e.diagnostics⟩

end EvenChroma.Css
