/-
  EvenChroma/Css/ColorProperty.lean
  =================================
  **Properties that accept colours.**
-/
import EvenChroma.Text.Basic

namespace EvenChroma.Css

/-- The properties whose values are searched for calls, unless the host names others. -/
def colorProperties : List String := [
  "accent-color",
  "background",
  "background-color",
  "background-image",
  "border",
  "border-block",
  "border-block-color",
  "border-block-end",
  "border-block-end-color",
  "border-block-start",
  "border-block-start-color",
  "border-bottom",
  "border-bottom-color",
  "border-color",
  "border-image",
  "border-image-source",
  "border-inline",
  "border-inline-color",
  "border-inline-end",
  "border-inline-end-color",
  "border-inline-start",
  "border-inline-start-color",
  "border-left",
  "border-left-color",
  "border-right",
  "border-right-color",
  "border-top",
  "border-top-color",
  "box-shadow",
  "caret-color",
  "color",
  "column-rule",
  "column-rule-color",
  "fill",
  "flood-color",
  "lighting-color",
  "list-style-image",
  "mask",
  "mask-image",
  "outline",
  "outline-color",
  "scrollbar-color",
  "stop-color",
  "stroke",
  "text-decoration",
  "text-decoration-color",
  "text-emphasis",
  "text-emphasis-color",
  "text-shadow",
  "-webkit-tap-highlight-color",
  "-webkit-text-fill-color",
  "-webkit-text-stroke",
  "-webkit-text-stroke-color"]

/-- Whether a property is a custom property such as `--brand`. -/
def isCustomProperty (property : Text) : Bool := property.take 2 == ['-', '-']

end EvenChroma.Css
