/-
  EvenChroma/Engine.lean
  ======================
  **Computing colours.**  The chroma of a request is a fraction of the chroma floor, so
  colours of one lightness and one fraction look equally colourful whatever their hue.
  Floors are expensive and asked for again and again, hence they are kept in a table by
  the text of their parameters (`FloorCache`).

  A computation (`ColorM`) reads and updates the table and may log warnings.
-/
import EvenChroma.Color.Css
import EvenChroma.Color.GamutMap
import EvenChroma.RecencyCache
import EvenChroma.Request

namespace EvenChroma

/-! ### Searching for the floor -/

namespace SearchParameters

/-- More tests than any search takes: halving the chroma range some two thousand times
    leaves no double between the ends of the bracket. -/
def maxTests : Nat := 2200

/-- Whether a chroma of some hue fits the gamut. -/
def fits (p : SearchParameters Float) (hue chroma : Float) : Bool :=
  (Color.ofSpace p.space p.lightness chroma hue).fits p.gamut Color.fitTolerance

/-- The largest chroma of a hue that fits the gamut. -/
def largestChroma (p : SearchParameters Float) (hue : Float) : Float :=
  match Bracket.search? (p.fits hue) p.precision maxTests 0 (.ofDomain p.space.chromaDomain) with
  | some found => found.chroma
  | none => p.space.chromaDomain.low

/-- The chroma floor. -/
def floor (p : SearchParameters Float) : Float :=
  (chromaFloor? p.fits p.space.chromaDomain p.precision maxTests p.hues.hues).getD
    p.space.chromaDomain.low

end SearchParameters

/-! ### The table of floors -/

/-- Chroma floors by the text of their parameters. -/
abbrev FloorCache := RecencyCache String Float

/-- One floor for every whole degree of hue step and every percent of lightness. -/
def FloorCache.defaultCapacity : Nat := 360 * 100

def FloorCache.new : FloorCache := .empty FloorCache.defaultCapacity

/-- A computation that uses a table of floors and may log. -/
abbrev ColorM := StateT FloorCache (Logged Log.Record)

namespace ColorM

/-- Pass the notices on as warnings. -/
def ofNoticed {β : Type} (m : Logged (Notice Float) β) : ColorM β :=
  fun cache => (m.mapLog Notice.record) >>= fun b => pure (b, cache)

/-- The chroma floor, from the table if it is there. -/
def chromaFloor (p : SearchParameters Float) : ColorM Float :=
  fun cache => pure (cache.getOrInsert p.key fun _ => p.floor)

/-- The colour of a prepared request with the given chroma floor.  Without chroma it has
    no hue. -/
def render (output : OutputFormat) (p : Prepared Float) (floor : Float) : Color :=
  let chroma := floor * p.chroma
  let hue := if chroma == 0.0 then Double.nan else p.hue
  let inSpace := Color.ofSpace p.parameters.space p.parameters.lightness chroma hue
  ({ inSpace with alpha := p.opacity }.convert output.model).toGamut p.parameters.gamut

/-- The colour asked for.  Any input gives a colour. -/
def compute (r : Request Float) : ColorM Color := do
  let p ← ofNoticed r.prepare
  let floor ← chromaFloor p.parameters
  pure (render r.options.output p floor)

/-- The colour asked for, in CSS notation. -/
def css (r : Request Float) : ColorM Text := do
  let c ← compute r
  pure c.css

end ColorM

end EvenChroma
