/-
  EvenChroma/Css/Call.lean
  ========================
  **The arguments of a call.**  The grammar is

      egal( L sep C sep H [ / A ] [ sep GAMUT ] [ sep JSON ] )

  where `sep` is blanks with at most one comma among them; lightness, chroma and alpha
  are numbers, percentages or `none`, the hue is a number, an angle or `none`, the gamut
  is a keyword, and the options are a JSON object in single quotes, or nothing in single
  quotes.  Each part of the grammar is a function from the tokens to what it read and the
  tokens that are left.
-/
import EvenChroma.Css.CallSite
import EvenChroma.Css.Problem
import EvenChroma.Css.Token
import EvenChroma.Double.Elementary
import EvenChroma.Log
import EvenChroma.Logged
import EvenChroma.Options.OfJson

namespace EvenChroma.Css

/-! ### Arguments -/

/-- What a call asks for. -/
structure CallArguments where
  lightness : Float
  chroma : Float
  hue : Float
  alpha : Option Float
  gamut : Option Gamut
  json : Option (Layer Float)

/-- A call with three arguments only. -/
def CallArguments.plain (lightness chroma hue : Float) : CallArguments :=
  ⟨lightness, chroma, hue, none, none, none⟩

/-- The options of the call on top of those of the host: what is written as an argument
    beats the JSON options, and these beat the host. -/
def CallArguments.layer (c : CallArguments) (host : Layer Float) : Layer Float :=
  let direct : Layer Float := { Layer.empty with opacity := c.alpha, gamut := c.gamut }
  match c.json with
  | some json => direct.above (json.above host)
  | none => direct.above host

/-! ### Separators and values -/

/-- The tokens after leading blanks. -/
def skipBlanks : List Token → List Token
  | [] => []
  | t :: ts => if t.kind = .blank then skipBlanks ts else t :: ts

def Token.isSeparator (t : Token) : Bool := t.kind = .blank || t.kind = .comma

/-- The tokens after blanks and one comma, or after blanks only if `comma` was seen. -/
def afterSeparator (comma : Bool) : List Token → List Token
  | [] => []
  | t :: ts =>
    if t.kind = .blank then afterSeparator comma ts
    else if t.kind = .comma && !comma then afterSeparator true ts
    else t :: ts

/-- The tokens after a separator, which is one token at least. -/
def separator? : List Token → Option (List Token)
  | [] => none
  | t :: ts => if t.isSeparator then some (afterSeparator false (t :: ts)) else none

/-- Degrees in an angle unit. -/
def degreesPer? (unit : Text) : Option Float :=
  let u := String.ofList (Text.toLower unit)
  if u = "deg" then some 1.0
  else if u = "grad" then some (360.0 / 400.0)
  else if u = "rad" then some (180.0 / Double.pi)
  else if u = "turn" then some 360.0
  else none

def noneWord : Text := ['n', 'o', 'n', 'e']

/-- The value of a lightness, a chroma or an alpha. -/
def TokenKind.amount? : TokenKind → Option Float
  | .number n => some n
  | .percentage n => some (n / 100.0)
  | .ident name => if Text.sameIgnoringCase name noneWord then some 0.0 else none
  | _ => none

/-- The value of a hue in degrees. -/
def TokenKind.angle? : TokenKind → Option Float
  | .number n => some n
  | .dimension n unit => (degreesPer? unit).map (n * ·)
  | .ident name => if Text.sameIgnoringCase name noneWord then some 0.0 else none
  | _ => none

/-- The value of the first token, and the tokens after it. -/
def value? (read : TokenKind → Option Float) : List Token → Option (Float × List Token)
  | [] => none
  | t :: ts => (read t.kind).map fun v => (v, ts)

/-! ### Parts of a call -/

/-- Lightness, chroma and hue. -/
def required? (ts : List Token) : Option (CallArguments × List Token) := do
  let (lightness, ts) ← value? TokenKind.amount? (skipBlanks ts)
  let ts ← separator? ts
  let (chroma, ts) ← value? TokenKind.amount? ts
  let ts ← separator? ts
  let (hue, ts) ← value? TokenKind.angle? ts
  some (.plain lightness chroma hue, ts)

/-- The alpha after a slash.  Without a slash there is none; a slash without an alpha is
    no call. -/
def alpha? (ts : List Token) : Option (Option Float × List Token) :=
  match skipBlanks ts with
  | t :: after =>
    if t.kind = .slash then
      (value? TokenKind.amount? (skipBlanks after)).map fun (v, rest) => (some v, rest)
    else some (none, ts)
  | [] => some (none, ts)

/-- The gamut keyword after a separator, if there is one. -/
def gamut (ts : List Token) : Option Gamut × List Token :=
  match separator? ts with
  | some (⟨.ident name, _⟩ :: rest) =>
    match Gamut.ofKeyword? name with
    | some g => (some g, rest)
    | none => (none, ts)
  | _ => (none, ts)

/-- The text in single quotes after a separator, if there is one, and its bytes. -/
def jsonSegment (ts : List Token) : Option (Text × Span) × List Token :=
  match separator? ts with
  | some (⟨.quoted quote value true, span⟩ :: rest) =>
    if quote = '\x27' then (some (value, span), rest) else (none, ts)
  | _ => (none, ts)

/-- Whether only the closing parenthesis is left. -/
def closes (ts : List Token) : Bool :=
  match skipBlanks ts with
  | [t] => t.kind = .closeParen
  | _ => false

/-! ### Calls -/

/-- Why the tokens are not a call. -/
inductive Failure where
  /-- They do not follow the grammar. -/
  | grammar
  /-- The options in these quotes are unusable, and that matters. -/
  | json (span : Span)
deriving DecidableEq, Repr

/-- The target of the records about calls. -/
def logTarget : String := "egal::css"

/-- Whether a text is braced like an object. -/
def isBraced (t : Text) : Bool := t.head? = some '\x7b' && t.getLast? = some '\x7d'

/-- The options between single quotes.  Unusable ones are ignored with a warning, or
    refused in strict mode. -/
def readOptions (strict : Bool) (value : Text) (span : Span) :
    Logged Log.Record (Except Failure (Option (Layer Float))) :=
  let trimmed := Text.trim value
  if trimmed.isEmpty then pure (.ok none)
  else if !isBraced trimmed then pure (.error .grammar)
  else
    match Layer.ofJson trimmed with
    | .ok layer => pure (.ok (some layer))
    | .error e =>
      let invalid := Mistake.invalidJson.message
      if strict then
        .noting ⟨.debug, logTarget, s!"{invalid}: {e.message}"⟩ (.error (.json span))
      else
        .noting ⟨.warn, logTarget, s!"{invalid}, ignoring them: {e.message}"⟩ (.ok none)

/-- The options of the JSON segment, if there is one. -/
def segmentOptions (strict : Bool) :
    Option (Text × Span) → Logged Log.Record (Except Failure (Option (Layer Float)))
  | some (value, span) => readOptions strict value span
  | none => pure (.ok none)

/-- The call that the tokens after the opening parenthesis make. -/
def readCall (strict : Bool) (ts : List Token) : Logged Log.Record (Except Failure CallArguments) :=
  match required? ts with
  | none => pure (.error .grammar)
  | some (c, ts) =>
    match alpha? ts with
    | none => pure (.error .grammar)
    | some (alpha, ts) =>
      let (gamut, ts) := gamut ts
      let (segment, ts) := jsonSegment ts
      do
        let options ← segmentOptions strict segment
        match options with
        | .error failure => pure (.error failure)
        | .ok json =>
          if closes ts then pure (.ok { c with alpha := alpha, gamut := gamut, json := json })
          else pure (.error .grammar)

end EvenChroma.Css
