/-
  EvenChroma/Proofs/CanonicalRequest.lean
  =======================================
  **Every request has a canonical form.**  A replacement settles at once: what it makes of
  a value, it takes as it is the next time.  The replacements of a request are chained,
  a hue step goes through two of them, and still the request made of the values in use
  is prepared without a notice, for the same search and the same colour.
-/
import EvenChroma.Proofs.DoubleOrder
import EvenChroma.Proofs.SharedFloors

namespace EvenChroma

/-! ### Settling -/

namespace Logged

variable {ι β : Type} {f : β → Logged ι β}

/-- The value is taken as it is, and nothing is noted. -/
def Accepts (f : β → Logged ι β) (b : β) : Prop := f b = pure b

/-- Whatever the function makes of a value, it accepts. -/
def Settles (f : β → Logged ι β) : Prop := ∀ b, Accepts f (f b).value

theorem Accepts.value_eq {b : β} (h : Accepts f b) : (f b).value = b := congrArg Logged.value h

/-- A function settles that accepts all that it does not replace, and all its replacements. -/
theorem settles_of_replacements (replacements : List β)
    (haccepts : ∀ b ∈ replacements, Accepts f b)
    (hcases : ∀ b, Accepts f b ∨ (f b).value ∈ replacements) : Settles f := by
  intro b
  rcases hcases b with h | h
  · rw [h.value_eq]
    exact h
  · exact haccepts _ h

theorem accepts_mapList {bs : List β} (h : ∀ b ∈ bs, Accepts f b) : Accepts (mapList f) bs := by
  induction bs with
  | nil => rfl
  | cons b bs ih =>
    obtain ⟨hb, hbs⟩ := List.forall_mem_cons.mp h
    have hlater : mapList f bs = pure bs := ih hbs
    rw [Accepts, mapList, hlater, hb]
    rfl

end Logged

open Logged (Accepts Settles)

/-! ### Numbers -/

theorem settles_usableChroma : Settles (usableChroma : Float → _) := by
  refine Logged.settles_of_replacements [0, maxChromaFactor] ?_ fun c => ?_
  · simp only [List.forall_mem_cons]
    exact ⟨rfl, rfl, nofun⟩
  · unfold Accepts usableChroma
    split_ifs <;> simp [Logged.noting]

theorem settles_usableLightness (space : Space) :
    Settles (usableLightness space none : Float → _) := by
  refine Logged.settles_of_replacements [0, space.lightnessDomain.high] ?_
    fun l => ?_
  · simp only [List.forall_mem_cons]
    exact ⟨by cases space <;> rfl, by cases space <;> rfl, nofun⟩
  · unfold Accepts usableLightness
    dsimp only
    split_ifs <;> simp [Logged.noting]

theorem settles_usablePrecision (space : Space) :
    Settles (usablePrecision space : Float → _) := by
  refine Logged.settles_of_replacements [space.defaultPrecision,
    space.precisionLimits.low, space.precisionLimits.high] ?_ fun p => ?_
  · simp only [List.forall_mem_cons]
    exact ⟨by cases space <;> rfl, by cases space <;> rfl, by cases space <;> rfl, nofun⟩
  · unfold Accepts usablePrecision
    dsimp only
    split_ifs <;> simp [Logged.noting]

theorem usableHueStep_cases (s : Float) :
    Accepts usableHueStep s ∨ (usableHueStep s).value = HueSpec.defaultStep := by
  unfold Accepts usableHueStep
  split_ifs <;> simp [Logged.noting]

theorem settles_usableHueStep : Settles (usableHueStep : Float → _) := by
  intro s
  rcases usableHueStep_cases s with h | h
  · rw [h.value_eq]
    exact h
  · rw [h]
    rfl

theorem usableOpacity_cases (x : Float) :
    usableOpacity x = x ∨ usableOpacity x = 0 ∨ usableOpacity x = 1 := by
  unfold usableOpacity Scalar.clamp
  split_ifs <;> simp

theorem usableOpacity_usableOpacity (x : Float) :
    usableOpacity (usableOpacity x) = usableOpacity x := by
  rcases usableOpacity_cases x with h | h | h
  · rw [h, h]
  · rw [h]
    rfl
  · rw [h]
    rfl

/-! ### Hues -/

/-- The hue lies in `[0, 360)`. -/
def InTurn (h : Float) : Prop := h = 0 ∨ 0 < h ∧ h < 360

theorem inTurn_usableHue (h : Float) : InTurn (usableHue h).value := by
  unfold usableHue wrapHue
  dsimp only
  split_ifs with hfinite hwrapped
  · rw [Bool.and_eq_true, decide_eq_true_iff, decide_eq_true_iff] at hwrapped
    exact .inr hwrapped
  · exact .inl rfl
  · exact .inl rfl

namespace InTurn

variable {h : Float}

theorem isFinite (hturn : InTurn h) : h.isFinite = true := by
  rcases hturn with rfl | ⟨hlow, hhigh⟩
  · rfl
  · exact Double.isFinite_of_le_of_le (Double.le_of_lt hlow) (Double.le_of_lt hhigh) rfl rfl

theorem isNaN (hturn : InTurn h) : h.isNaN = false :=
  (Double.isFinite_iff.mp hturn.isFinite).1

theorem wrapHue_eq (hturn : InTurn h) : wrapHue h = h := by
  rcases hturn with rfl | ⟨hlow, hhigh⟩
  · rfl
  · have hinside : (0 < h && h < 360) = true := by
      rw [Bool.and_eq_true, decide_eq_true_iff, decide_eq_true_iff]
      exact ⟨hlow, hhigh⟩
    have hrange : (0.0 ≤ h && h < 360) = true := by
      rw [Bool.and_eq_true, decide_eq_true_iff, decide_eq_true_iff]
      exact ⟨Double.le_of_lt hlow, hhigh⟩
    have hmodulo : Scalar.modulo h 360 = h := if_pos hrange
    rw [wrapHue, hmodulo]
    exact if_pos hinside

theorem accepts (hturn : InTurn h) : Accepts usableHue h := by
  have hfinite : Scalar.isFinite h = true := hturn.isFinite
  rw [Accepts, usableHue, if_pos hfinite, hturn.wrapHue_eq]

end InTurn

theorem settles_usableHue : Settles (usableHue : Float → _) :=
  fun h => (inTurn_usableHue h).accepts

namespace HueSpec

theorem accepts_usable_list {hs : List Float} (hne : hs ≠ []) (hturn : ∀ h ∈ hs, InTurn h)
    (hsorted : (hs.mergeSort fun x y => x ≤ y) = hs) : Accepts usable (.list hs) := by
  have hwrapped : Logged.mapList usableHue hs = pure hs :=
    Logged.accepts_mapList fun h hh => (hturn h hh).accepts
  cases hs with
  | nil => exact (hne rfl).elim
  | cons h hs =>
    rw [Accepts, usable, hwrapped]
    · exact congrArg (fun hs => (pure (.list hs) : Logged (Notice Float) (HueSpec Float))) hsorted
    · nofun

theorem accepts_usable_step {s : Float} (h : Accepts usableHue s) : Accepts usable (.step s) := by
  rw [Accepts, usable, h]
  rfl

theorem settles_usable : Settles (usable : HueSpec Float → _) := by
  intro hues
  cases hues with
  | step size => exact accepts_usable_step (settles_usableHue size)
  | list hs =>
    cases hs with
    | nil => rfl
    | cons h hs =>
      let wrapped := (h :: hs).map fun h => (usableHue h).value
      have hvalue : (usable (.list (h :: hs))).value
          = .list (wrapped.mergeSort fun x y => x ≤ y) := by
        rw [usable]
        · simp only [Logged.value_bind, Logged.value_pure, Logged.value_mapList, wrapped]
        · nofun
      have hturn : ∀ h ∈ wrapped, InTurn h := by
        intro h hh
        obtain ⟨given, -, rfl⟩ := List.mem_map.mp hh
        exact inTurn_usableHue given
      rw [hvalue]
      refine accepts_usable_list ?_ (fun h hh => hturn h (List.mem_mergeSort.mp hh))
        (Double.mergeSort_mergeSort fun h hh => (hturn h hh).isNaN)
      rw [← List.length_pos_iff, List.length_mergeSort]
      exact Nat.succ_pos _

end HueSpec

namespace Request

theorem settles_guardHues : Settles (guardHues : HueSpec Float → _) := by
  intro hues
  cases hues with
  | step size =>
    have hstep : Accepts usableHueStep (usableHueStep size).value := settles_usableHueStep size
    change guardHues (.step (usableHueStep size).value) = _
    rw [guardHues, hstep]
    rfl
  | list hs => rfl

/-- Guarding hues that are usable leaves them usable. -/
theorem accepts_usable_guardHues {hues : HueSpec Float} (h : Accepts HueSpec.usable hues) :
    Accepts HueSpec.usable (guardHues hues).value := by
  cases hues with
  | list hs => exact h
  | step size =>
    change Accepts HueSpec.usable (.step (usableHueStep size).value)
    rcases usableHueStep_cases size with hstep | hstep
    · rw [hstep.value_eq]
      exact h
    · rw [hstep]
      rfl

end Request

/-! ### Canonical form -/

namespace Options

/-- The hues that are searched. -/
def usableHues (o : Options Float) : HueSpec Float :=
  if o.guardrails then (Request.guardHues o.hues.usable.value).value else o.hues.usable.value

/-- The precision that is searched with; without guardrails it is any. -/
def searchPrecision (o : Options Float) : Float :=
  if o.guardrails then (usablePrecision o.space o.precision).value else o.precision

def canonical (o : Options Float) : Options Float :=
  { o with
    hues := o.usableHues
    opacity := usableOpacity o.opacity
    precision := o.searchPrecision }

theorem accepts_usableHues (o : Options Float) : Accepts HueSpec.usable o.usableHues := by
  have husable : Accepts HueSpec.usable o.hues.usable.value := HueSpec.settles_usable o.hues
  unfold usableHues
  split
  · exact Request.accepts_usable_guardHues husable
  · exact husable

theorem accepts_guardHues {o : Options Float} (hg : o.guardrails = true) :
    Accepts Request.guardHues o.usableHues := by
  rw [usableHues, if_pos hg]
  exact Request.settles_guardHues _

theorem accepts_searchPrecision {o : Options Float} (hg : o.guardrails = true) :
    Accepts (usablePrecision o.space) o.searchPrecision := by
  rw [searchPrecision, if_pos hg]
  exact settles_usablePrecision o.space o.precision

theorem usableHues_canonical (o : Options Float) : o.canonical.usableHues = o.usableHues := by
  have husable : o.usableHues.usable.value = o.usableHues := o.accepts_usableHues.value_eq
  rw [usableHues]
  change (if o.guardrails then (Request.guardHues o.usableHues.usable.value).value
    else o.usableHues.usable.value) = o.usableHues
  rw [husable]
  split
  · next hg => exact (accepts_guardHues hg).value_eq
  · rfl

theorem searchPrecision_canonical (o : Options Float) :
    o.canonical.searchPrecision = o.searchPrecision := by
  change (if o.guardrails then (usablePrecision o.space o.searchPrecision).value
    else o.searchPrecision) = o.searchPrecision
  split
  · next hg => exact (accepts_searchPrecision hg).value_eq
  · rfl

end Options

/-- The layer with the hues, the opacity and, under guardrails, the precision that are used. -/
def Layer.canonical (layer : Layer Float) : Layer Float :=
  let o := layer.resolve
  { layer with
    hues := some o.usableHues
    opacity := some (usableOpacity o.opacity)
    precision := if o.guardrails then some o.searchPrecision else layer.precision }

namespace Layer

variable (layer : Layer Float)

theorem resolve_canonical : layer.canonical.resolve = layer.resolve.canonical := by
  obtain ⟨hues, opacity, output, toe, guardrails, space, gamut, precision⟩ := layer
  cases guardrails with
  | none => rfl
  | some g =>
    cases g with
    | false => rfl
    | true => rfl

theorem canonical_canonical : layer.canonical.canonical = layer.canonical := by
  have hhues : layer.canonical.resolve.usableHues = layer.resolve.usableHues := by
    rw [resolve_canonical, Options.usableHues_canonical]
  have hopacity : usableOpacity layer.canonical.resolve.opacity
      = usableOpacity layer.resolve.opacity := usableOpacity_usableOpacity _
  have hprecision : (if layer.canonical.resolve.guardrails
        then some layer.canonical.resolve.searchPrecision else layer.canonical.precision)
      = if layer.resolve.guardrails then some layer.resolve.searchPrecision
        else layer.precision := by
    rw [resolve_canonical, Options.searchPrecision_canonical]
    change (if layer.resolve.guardrails then _
      else if layer.resolve.guardrails then _ else _) = _
    split
    · rfl
    · rfl
  rw [canonical, hhues, hopacity, hprecision]
  rfl

end Layer

/-! ### Requests -/

theorem Request.value_prepare (r : Request Float) :
    r.prepare.value =
      { chroma := (usableChroma r.chroma).value
        hue := (usableHue r.hue).value
        opacity := usableOpacity r.options.opacity
        parameters :=
          { lightness := r.usableLightness.value
            hues := r.options.usableHues
            space := r.options.space
            gamut := r.options.gamut
            precision := r.options.searchPrecision } } := by
  rw [value_prepare_eq_ite]
  rfl

/-- A request is prepared without a notice if all replacements accept its values. -/
theorem Request.log_prepare {r : Request Float} (hhue : Accepts usableHue r.hue)
    (hchroma : Accepts usableChroma r.chroma) (hlightness : r.usableLightness.log = [])
    (hhues : Accepts HueSpec.usable r.options.hues)
    (hguard : r.options.guardrails = true → Accepts guardHues r.options.hues)
    (hprecision : r.options.guardrails = true →
      Accepts (usablePrecision r.options.space) r.options.precision) : r.prepare.log = [] := by
  rw [Accepts] at hhue hchroma hhues
  cases hg : r.options.guardrails with
  | false => simp [prepare, hhue, hchroma, hlightness, hhues, hg]
  | true =>
    have hguard : guardHues r.options.hues = pure r.options.hues := hguard hg
    have hprecision : usablePrecision r.options.space r.options.precision
        = pure r.options.precision := hprecision hg
    simp [prepare, hhue, hchroma, hlightness, hhues, hguard, hprecision, hg]

theorem ColorM.value_compute (r : Request Float) (table : FloorCache) :
    (compute r table).value =
      let p := r.prepare.value
      let found := table.getOrInsert p.parameters.key fun _ => p.parameters.floor
      (render r.options.output p found.1, found.2) := rfl

/-- What a colour is asked for with, before the options are complete. -/
structure LayeredRequest where
  lightness : Float
  chroma : Float
  hue : Float
  layer : Layer Float

namespace LayeredRequest

def resolve (r : LayeredRequest) : Request Float :=
  ⟨r.lightness, r.chroma, r.hue, r.layer.resolve⟩

/-- The request made of the values that are used for `r`. -/
def canonical (r : LayeredRequest) : LayeredRequest where
  lightness := (usableLightness r.layer.resolve.space none r.lightness).value
  chroma := (usableChroma r.chroma).value
  hue := (usableHue r.hue).value
  layer := r.layer.canonical

theorem canonical_canonical (r : LayeredRequest) : r.canonical.canonical = r.canonical := by
  have hlightness : (usableLightness r.canonical.layer.resolve.space none
      r.canonical.lightness).value = r.canonical.lightness :=
    (settles_usableLightness r.layer.resolve.space r.lightness).value_eq
  have hchroma : (usableChroma r.canonical.chroma).value = r.canonical.chroma :=
    (settles_usableChroma r.chroma).value_eq
  have hhue : (usableHue r.canonical.hue).value = r.canonical.hue :=
    (settles_usableHue r.hue).value_eq
  have hlayer : r.canonical.layer.canonical = r.canonical.layer := r.layer.canonical_canonical
  rw [canonical, hlightness, hchroma, hhue, hlayer]

variable {r : LayeredRequest}

theorem usableLightness_resolve (htoe : r.layer.toe = none) : r.resolve.usableLightness
    = usableLightness r.layer.resolve.space none r.lightness := by
  have htoe : r.resolve.options.toe = none := htoe
  rw [Request.usableLightness, htoe]
  rfl

/-- The canonical request is prepared to the same, with nothing to note. -/
theorem prepare_canonical (htoe : r.layer.toe = none) :
    r.canonical.resolve.prepare = pure r.resolve.prepare.value := by
  have hoptions : r.canonical.resolve.options = r.resolve.options.canonical :=
    r.layer.resolve_canonical
  have hhue : Accepts usableHue r.canonical.hue := settles_usableHue r.hue
  have hchroma : Accepts usableChroma r.canonical.chroma := settles_usableChroma r.chroma
  have hlightness : r.canonical.resolve.usableLightness = pure r.canonical.lightness := by
    rw [usableLightness_resolve (r := r.canonical) htoe]
    exact settles_usableLightness _ r.lightness
  have hlog : r.canonical.resolve.prepare.log = [] := by
    refine Request.log_prepare hhue hchroma (congrArg Logged.log hlightness) ?_ ?_ ?_
    · rw [hoptions]
      exact Options.accepts_usableHues _
    · rw [hoptions]
      exact fun hg => Options.accepts_guardHues (o := r.resolve.options) hg
    · rw [hoptions]
      exact fun hg => Options.accepts_searchPrecision (o := r.resolve.options) hg
  have hvalue : r.canonical.resolve.prepare.value = r.resolve.prepare.value := by
    rw [Request.value_prepare, Request.value_prepare, hoptions, hlightness,
      Options.usableHues_canonical, Options.searchPrecision_canonical,
      usableLightness_resolve htoe]
    rw [Prepared.mk.injEq, SearchParameters.mk.injEq]
    exact ⟨hchroma.value_eq, hhue.value_eq, usableOpacity_usableOpacity _, rfl, rfl, rfl, rfl, rfl⟩
  calc r.canonical.resolve.prepare
      = ⟨r.canonical.resolve.prepare.value, r.canonical.resolve.prepare.log⟩ := rfl
    _ = pure r.resolve.prepare.value := by rw [hvalue, hlog]; rfl

/-- **Asking for the values in use gives the same colour, by the same search, and no record is
    logged.** -/
theorem compute_canonical (htoe : r.layer.toe = none) :
    r.canonical.resolve.prepare = pure r.resolve.prepare.value ∧
      (∀ table, ColorM.compute r.canonical.resolve table
        = pure (ColorM.compute r.resolve table).value) ∧
      (∀ table,
        (ColorM.compute r.canonical.resolve (ColorM.compute r.resolve table).value.2).value.1
          = (ColorM.compute r.resolve table).value.1) ∧
      r.canonical.canonical = r.canonical := by
  have hprepare := prepare_canonical htoe
  have hvalue : ∀ table, (ColorM.compute r.canonical.resolve table).value
      = (ColorM.compute r.resolve table).value := by
    intro table
    rw [ColorM.value_compute, ColorM.value_compute, hprepare, Logged.value_pure]
    rfl
  refine ⟨hprepare, fun table => ?_, fun table => ?_, canonical_canonical r⟩
  · have hlog : (ColorM.compute r.canonical.resolve table).log = [] := by
      rw [ColorM.log_compute, hprepare]
      rfl
    calc ColorM.compute r.canonical.resolve table
        = ⟨(ColorM.compute r.canonical.resolve table).value,
            (ColorM.compute r.canonical.resolve table).log⟩ := rfl
      _ = pure (ColorM.compute r.resolve table).value := by rw [hvalue, hlog]; rfl
  · -- the floor that the first computation used is found under the same key
    rw [hvalue, ColorM.value_compute, ColorM.value_compute]
    dsimp only
    rw [RecencyCache.getOrInsert_value, RecencyCache.find?_getOrInsert, Option.getD_some]

/-- The step wraps around to a full turn, which makes it useless. -/
theorem compute_canonical_wrapped :
    let r : LayeredRequest := ⟨Double.nan, Double.infinity, 540,
      { Layer.empty with
        hues := some (.step (-0.00000000000000000001)), opacity := some 7, precision := some 0 }⟩
    r.layer.toe = none ∧ r.canonical.layer.hues = some (.step 1) ∧
      r.canonical.resolve.prepare = pure r.resolve.prepare.value ∧
      (∀ table, ColorM.compute r.canonical.resolve table
        = pure (ColorM.compute r.resolve table).value) ∧
      (∀ table,
        (ColorM.compute r.canonical.resolve (ColorM.compute r.resolve table).value.2).value.1
          = (ColorM.compute r.resolve table).value.1) ∧
      r.canonical.canonical = r.canonical := by
  intro r
  have hhues : r.canonical.layer.hues = some (.step 1) := by decide +kernel
  exact ⟨rfl, hhues, compute_canonical rfl⟩

end LayeredRequest

end EvenChroma
