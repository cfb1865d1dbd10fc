/-
  EvenChroma/Proofs/LayerStacks.lean
  ==================================
  **Of several layers, the topmost one that sets an option decides.**  It does not matter in
  which order neighbouring layers are merged, or whether layers that set nothing lie between
  them (`merged_get`).  Defaults come last and only where no layer decides; the default of the
  precision is that of the space in force (`resolve_get`).

  An option is a `Layer.Field`, so that all of this is said once for all options.
-/
import EvenChroma.Css.Call

namespace EvenChroma

/-! ### Options by name -/

/-- An option, with the type of its values. -/
inductive Layer.Field (α : Type) : Type → Type where
  | hues : Field α (HueSpec α)
  | opacity : Field α α
  | output : Field α OutputFormat
  | toe : Field α (Toe α)
  | guardrails : Field α Bool
  | space : Field α Space
  | gamut : Field α Gamut
  | precision : Field α α

/-- What a layer sets an option to. -/
def Layer.get {α β : Type} (l : Layer α) : Field α β → Option β
  | .hues => l.hues
  | .opacity => l.opacity
  | .output => l.output
  | .toe => l.toe
  | .guardrails => l.guardrails
  | .space => l.space
  | .gamut => l.gamut
  | .precision => l.precision

/-- The value of an option.  There need not be a toe function. -/
def Options.get {α β : Type} (o : Options α) : Layer.Field α β → Option β
  | .hues => some o.hues
  | .opacity => some o.opacity
  | .output => some o.output
  | .toe => o.toe
  | .guardrails => some o.guardrails
  | .space => some o.space
  | .gamut => some o.gamut
  | .precision => some o.precision

namespace Layer

variable {α β : Type}

/-- The value of an option that no layer sets, while `space` is in force. -/
def Field.default? [Scalar α] (space : Space) : Field α β → Option β
  | .hues => some default
  | .opacity => some 1
  | .output => some .oklch
  | .toe => none
  | .guardrails => some true
  | .space => some .oklch
  | .gamut => some .srgb
  | .precision => some space.defaultPrecision

theorem ext_get {l l' : Layer α} (h : ∀ {β : Type} (f : Field α β), l.get f = l'.get f) :
    l = l' := by
  obtain ⟨hues, opacity, output, toe, guardrails, space, gamut, precision⟩ := l
  rw [mk.injEq]
  exact ⟨h .hues, h .opacity, h .output, h .toe, h .guardrails, h .space, h .gamut, h .precision⟩

@[simp]
theorem get_empty (f : Field α β) : (empty : Layer α).get f = none := by
  cases f <;> rfl

@[simp]
theorem get_above (upper lower : Layer α) (f : Field α β) :
    (upper.above lower).get f = (upper.get f).or (lower.get f) := by
  have horElse : ∀ {γ : Type} (x y : Option γ), (x <|> y) = x.or y := by
    intro γ x y
    cases x <;> rfl
  cases f <;> exact horElse _ _

/-- **A default stands where the layer sets nothing.** -/
theorem resolve_get [Scalar α] (l : Layer α) (f : Field α β) :
    l.resolve.get f = (l.get f).or (f.default? l.resolve.space) := by
  have hgetD : ∀ {γ : Type} (x : Option γ) (d : γ), some (x.getD d) = x.or (some d) := by
    intro γ x d
    cases x <;> rfl
  cases f with
  | toe => exact (Option.or_none).symm
  | hues => exact hgetD _ _
  | opacity => exact hgetD _ _
  | output => exact hgetD _ _
  | guardrails => exact hgetD _ _
  | space => exact hgetD _ _
  | gamut => exact hgetD _ _
  | precision => exact hgetD _ _

/-! ### Stacks -/

/-- Layers on top of each other.  The shape says in which order they are merged. -/
inductive Stack (α : Type) where
  /-- A layer that sets nothing. -/
  | nothing
  | single (l : Layer α)
  | onTop (upper lower : Stack α)

namespace Stack

/-- The layers from top to bottom. -/
def layers : Stack α → List (Layer α)
  | nothing => []
  | single l => [l]
  | onTop upper lower => upper.layers ++ lower.layers

/-- All layers merged into one. -/
def merged : Stack α → Layer α
  | nothing => empty
  | single l => l
  | onTop upper lower => upper.merged.above lower.merged

/-- An option of the merged layer is found by going through the layers from the top. -/
theorem merged_get (s : Stack α) (f : Field α β) :
    s.merged.get f = s.layers.findSome? fun l => l.get f := by
  induction s with
  | nothing => exact get_empty f
  | single l =>
    rw [merged, layers, List.findSome?_singleton]
  | onTop upper lower ihupper ihlower =>
    rw [merged, get_above, ihupper, ihlower, layers, List.findSome?_append]

/-- Only the layers and their order matter, not how they were merged. -/
theorem merged_eq_foldr (s : Stack α) : s.merged = s.layers.foldr above empty := by
  apply ext_get
  intro β f
  rw [merged_get]
  induction s.layers with
  | nil => exact (get_empty f).symm
  | cons l lower ih =>
    rw [List.foldr_cons, get_above, ← ih, List.findSome?_cons]
    cases l.get f <;> rfl

end Stack

/-- The topmost of the layers that set an option sets it to `v`. -/
def TopmostSets (layers : List (Layer α)) (f : Field α β) (v : β) : Prop :=
  ∃ upper l lower, layers = upper ++ l :: lower ∧ l.get f = some v ∧ ∀ l' ∈ upper, l'.get f = none

end Layer

/-! ### Calls -/

namespace Css.CallArguments

open Layer (Field Stack)

/-- What a call says outside of its quotes. -/
def direct (c : CallArguments) : Layer Float :=
  { Layer.empty with opacity := c.alpha, gamut := c.gamut }

/-- The sources of the options of a call: its arguments, then its quotes, then the host. -/
def sources (c : CallArguments) (host : Layer Float) : Stack Float :=
  .onTop (.single c.direct) (.onTop (c.json.elim .nothing .single) (.single host))

theorem layer_eq_merged (c : CallArguments) (host : Layer Float) :
    c.layer host = (c.sources host).merged := by
  obtain ⟨lightness, chroma, hue, alpha, gamut, json⟩ := c
  cases json with
  | none =>
    apply Layer.ext_get
    intro β f
    simp [layer, sources, direct, Stack.merged]
  | some json => rfl

end Css.CallArguments

/-! ### The topmost layer decides -/

open Layer (Field Stack TopmostSets)

/-- **Every option is that of the topmost layer that sets it**, however a stack of layers is
    merged, and a default if no layer sets it; a missing precision is that of the space in force.
    A call is the stack of its arguments, the options in its quotes and those of the host. -/
theorem Layer.topmost_decides {α : Type} [Scalar α] (s : Stack α) :
    s.merged = s.layers.foldr above empty ∧
      (∀ {β : Type} (f : Field α β) (v : β),
        (s.merged.get f = some v ↔ TopmostSets s.layers f v) ∧
        (s.merged.resolve.get f = some v ↔ TopmostSets s.layers f v ∨
          (∀ l ∈ s.layers, l.get f = none) ∧ f.default? s.merged.resolve.space = some v)) ∧
      ∀ (c : Css.CallArguments) (host : Layer Float),
        c.layer host = (c.sources host).merged ∧
        (∀ {β : Type} (f : Field Float β), (c.layer host).get f =
          ((c.direct.get f).or (c.json.bind fun json => json.get f)).or (host.get f)) := by
  refine ⟨s.merged_eq_foldr, fun {β} f v => ?_, fun c host => ⟨c.layer_eq_merged host, ?_⟩⟩
  · have htopmost : s.layers.findSome? (fun l => l.get f) = some v ↔ TopmostSets s.layers f v :=
      List.findSome?_eq_some_iff
    constructor
    · rw [Stack.merged_get, htopmost]
    · rw [resolve_get, Stack.merged_get, Option.or_eq_some_iff, htopmost,
        List.findSome?_eq_none_iff]
  · intro β f
    rw [c.layer_eq_merged host, Css.CallArguments.sources]
    cases c.json <;> simp [Stack.merged, Option.or_assoc]

end EvenChroma
