/-
  EvenChroma/Css/Expansion.lean
  =============================
  **Replacing calls by colours.**  The calls of a text are ruled on from left to right: a
  call that can be read is replaced together with all calls inside it, a call that cannot
  stays and is diagnosed, and the calls inside it are ruled on in turn.  The rulings depend
  on the text alone; colours are computed for them afterwards, and the text is put
  together from the pieces between the replaced calls.
-/
import EvenChroma.Css.HostOptions
import EvenChroma.Css.Mistakes
import EvenChroma.Engine

namespace EvenChroma.Css

/-! ### Rulings -/

/-- Reads the arguments of a call, or says what is wrong with it. -/
abbrev CallReader := HostOptions → Text → Logged Log.Record (Except Problem CallArguments)

/-- The grammar of this library. -/
def standardReader : CallReader := fun o call => parseCall o.strictJson call

/-- What becomes of a call. -/
inductive Verdict where
  | replaced (arguments : CallArguments)
  /-- It is part of a call that is replaced. -/
  | covered
  | rejected (problem : Problem)

/-- A call, what becomes of it, and the records of reading it. -/
structure Ruling where
  site : CallSite
  verdict : Verdict
  log : List Log.Record

/-- Rulings on calls, all text before byte `done` being dealt with. -/
def rulingsFrom (read : Text → Logged Log.Record (Except Problem CallArguments)) (t : Text) :
    (done : Nat) → List CallSite → List Ruling
  | _, [] => []
  | done, site :: sites =>
    if site.span.start < done then ⟨site, .covered, []⟩ :: rulingsFrom read t done sites
    else
      let result := read (site.text t)
      match result.value with
      | .ok c => ⟨site, .replaced c, result.log⟩ :: rulingsFrom read t site.span.stop sites
      | .error p => ⟨site, .rejected p, result.log⟩ :: rulingsFrom read t done sites

/-- Rulings on all calls of a text. -/
def rulings (read : Text → Logged Log.Record (Except Problem CallArguments)) (t : Text) :
    List Ruling :=
  rulingsFrom read t 0 (callSites t)

/-- The diagnostics of rejected calls. -/
def diagnostics (t : Text) (rs : List Ruling) : List Diagnostic :=
  rs.filterMap fun r =>
    match r.verdict with
    | .rejected p => some (.ofProblem t r.site.span p)
    | _ => none

/-! ### Edits -/

/-- A stretch of text and what replaces it. -/
structure Edit where
  span : Span
  replacement : Text
deriving DecidableEq, Repr

/-- The edits that the rulings ask for.  `render` computes the text of a call, and `note`
    takes the records of reading one. -/
def edits {m : Type → Type} [Monad m] (render : CallArguments → m Text)
    (note : List Log.Record → m Unit) : List Ruling → m (List Edit)
  | [] => pure []
  | r :: rs => do
    note r.log
    match r.verdict with
    | .replaced c =>
      let colour ← render c
      let later ← edits render note rs
      pure (⟨r.site.span, colour⟩ :: later)
    | _ => edits render note rs

/-- The text from byte `start` on with edits made, which are in order and apart. -/
def applyEdits (t : Text) : (start : Nat) → List Edit → Text
  | start, [] => Text.dropBytes start t
  | start, e :: es =>
    Text.slice t ⟨start, e.span.start⟩ ++ e.replacement ++ applyEdits t e.span.stop es

/-! ### Expansion -/

/-- A text with its calls replaced, and what is wrong with those that stay. -/
structure Expanded where
  text : Text
  diagnostics : List Diagnostic
deriving DecidableEq, Repr

/-- A text with its calls replaced by what `render` gives for them. -/
def expandWith {m : Type → Type} [Monad m] (render : CallArguments → m Text)
    (note : List Log.Record → m Unit)
    (read : Text → Logged Log.Record (Except Problem CallArguments)) (t : Text) : m Expanded := do
  let rs := rulings read t
  let es ← edits render note rs
  pure ⟨applyEdits t 0 es, diagnostics t rs⟩

/-- The request that a call makes of a host. -/
def CallArguments.request (c : CallArguments) (o : HostOptions) : Request Float :=
  ⟨c.lightness, c.chroma, c.hue, (c.layer o.base).resolve⟩

/-- Pass records on. -/
def noteAll (log : List Log.Record) : ColorM Unit := fun cache => ⟨(⟨⟩, cache), log⟩

/-- A text with its calls replaced by colours. -/
def expand (reader : CallReader) (o : HostOptions) (t : Text) : ColorM Expanded :=
  expandWith (fun c => ColorM.css (c.request o)) noteAll (reader o) t

end EvenChroma.Css
