/-
  EvenChroma/Css/Mistakes.lean
  ============================
  **Common mistakes.**  Tokens that are no call are searched for what people often get
  wrong; the first mistake of the list that is found explains the failure.
-/
import EvenChroma.Css.Call

namespace EvenChroma.Css

/-! ### Which argument a token belongs to -/

/-- What has been seen of the arguments so far. -/
structure Position where
  /-- Number of the argument, from zero. -/
  slot : Nat
  afterSlash : Bool
  /-- A separator came after an argument. -/
  pending : Bool
  started : Bool

def Position.next (p : Position) (t : Token) : Position :=
  match t.kind with
  | .blank | .comma => { p with pending := p.started }
  | .slash => { p with afterSlash := true }
  | .percent => p
  | _ =>
    { p with
      slot := if p.pending && !p.afterSlash then p.slot + 1 else p.slot
      pending := false
      started := true }

/-- The argument that a position is in. -/
def Position.component (p : Position) : Component :=
  if p.afterSlash then .alpha
  else
    match p.slot with
    | 0 => .lightness
    | 1 => .chroma
    | 2 => .hue
    | _ => .surplus

/-! ### The mistakes -/

def isNone (t : Token) : Bool :=
  match t.kind with
  | .ident name => Text.sameIgnoringCase name noneWord
  | _ => false

/-- A `none` with a percent sign; `p` is the position before these tokens. -/
def nonePercentFrom? (p : Position) : List Token → Option Problem
  | [] => none
  | t :: ts =>
    let p := p.next t
    match ts with
    | [] => none
    | u :: _ =>
      if isNone t && u.kind = .percent then
        some ⟨.nonePercent p.component, t.span.start, u.span.stop⟩
      else nonePercentFrom? p ts

def nonePercent? (ts : List Token) : Option Problem := nonePercentFrom? ⟨0, false, false, false⟩ ts

/-- Blanks between a number and a percent sign. -/
def detachedPercent? : List Token → Option Problem
  | ⟨.number _, n⟩ :: ⟨.blank, _⟩ :: ⟨.percent, p⟩ :: _ =>
    some ⟨.detachedPercent, n.start, p.stop⟩
  | _ :: ts => detachedPercent? ts
  | [] => none

/-- A gamut keyword in quotes. -/
def quotedGamut? (ts : List Token) : Option Problem :=
  ts.findSome? fun t =>
    match t.kind with
    | .quoted _ value _ =>
      if (Gamut.ofKeyword? (Text.trim value)).isSome then some ⟨.quotedGamut, t.span⟩ else none
    | _ => none

def isDoubleQuoted (t : Token) : Bool :=
  match t.kind with
  | .quoted quote _ _ => quote = '"'
  | _ => false

def opensObject (t : Token) : Bool :=
  match t.kind with
  | .quoted quote value _ => quote = '"' && (Text.trimStart value).head? = some '\x7b'
  | _ => false

/-- JSON options in double quotes.  The double quotes inside split them into several
    tokens, of which the last one ends the mistake. -/
def doubleQuotedJson? (ts : List Token) : Option Problem := do
  let first ← ts.find? opensObject
  let last ← ts.reverse.find? isDoubleQuoted
  some ⟨.doubleQuotedJson, first.span.start, last.span.stop⟩

/-- The problem of tokens that are no call. -/
def explain (call : Text) (ts : List Token) : Problem :=
  (nonePercent? ts <|> detachedPercent? ts <|> quotedGamut? ts <|> doubleQuotedJson? ts).getD
    (.unparsable call)

/-! ### Reading a call -/

/-- The tokens of a call after its opening parenthesis, with their places in the call. -/
def callTokens (call : Text) : List Token :=
  (tokens (call.drop callStart.length)).map fun t =>
    { t with span := t.span.shift callStart.length }

/-- The arguments of a call, or what is wrong with it. -/
def parseCall (strict : Bool) (call : Text) : Logged Log.Record (Except Problem CallArguments) :=
  if startsCall call then do
    let ts := callTokens call
    let result ← readCall strict ts
    match result with
    | .ok c => pure (.ok c)
    | .error (.json span) => pure (.error ⟨.invalidJson, span⟩)
    | .error .grammar => pure (.error (explain call ts))
  else pure (.error (.unparsable call))

end EvenChroma.Css
