/-
  EvenChroma/Css/CallSite.lean
  ============================
  **Calls in a text.**  A call begins with `egal(` in any case, unless the name goes on to
  the left, and extends to the parenthesis that closes its argument list, or to the end
  of the text.  Calls inside other calls and inside quotes are found as well.
-/
import EvenChroma.Css.Quoting
import EvenChroma.Text.Alphanumeric

namespace EvenChroma.Css

/-- A call and where it stands, in bytes. -/
structure CallSite where
  /-- From the name through the closing parenthesis. -/
  span : Span
  /-- Between the parentheses. -/
  arguments : Span
  /-- Whether the closing parenthesis was found. -/
  terminated : Bool
deriving DecidableEq, Repr

/-- The name of a call with its opening parenthesis. -/
def callStart : Text := ['e', 'g', 'a', 'l', '(']

/-- Whether a call begins here. -/
def startsCall (t : Text) : Bool := Text.sameIgnoringCase (t.take callStart.length) callStart

/-- Whether a name to the right of the character would go on from it. -/
def joinsName (c : Char) : Bool := Text.isAlphanumeric c || c = '_' || c = '-' || c = '\\'

/-- The call that begins at byte `start` with the text `t`. -/
def CallSite.at (start : Nat) (t : Text) : CallSite :=
  let first := start + callStart.length
  match closingParen? .outside 0 (t.drop callStart.length) with
  | some n => ⟨⟨start, first + n + 1⟩, ⟨first, first + n⟩, true⟩
  | none =>
    let stop := start + Text.byteSize t
    ⟨⟨start, stop⟩, ⟨first, stop⟩, false⟩

/-- The calls of a text that begins at byte `start` after the character `before`. -/
def callSitesFrom : (before : Option Char) → (start : Nat) → Text → List CallSite
  | _, _, [] => []
  | before, start, c :: t =>
    let later := callSitesFrom (some c) (start + c.utf8Size) t
    if startsCall (c :: t) && !before.any joinsName then .at start (c :: t) :: later else later

/-- The calls of a text, in order of their first characters. -/
def callSites (t : Text) : List CallSite := callSitesFrom none 0 t

/-- The text of a call. -/
def CallSite.text (site : CallSite) (t : Text) : Text := Text.slice t site.span

end EvenChroma.Css
