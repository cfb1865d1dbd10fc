/-
  EvenChroma/Proofs/HueDirections.lean
  ====================================
  **A list of hues is a set of directions.**  Its entries are wrapped before they are sorted,
  and no direction can be written in two ways once it is wrapped (`InTurn.eq_of_rank_eq`), so
  lists of the same directions are prepared to one list.  Everything else about a request
  reads that list only: the search parameters, their name in the table, the colour and what
  is left in the table.

  A toe function sees the list as it was given, so the lightness is all that it can change.
-/
import EvenChroma.Proofs.CanonicalRequest
import EvenChroma.Proofs.ExtendedNumbers

namespace EvenChroma

/-! ### Requests that differ in their hues -/

namespace Request

variable {α : Type} [Scalar α]

/-- The request for another hue, with the hues of a list. -/
def withHues (r : Request α) (hue : α) (hs : List α) : Request α :=
  { r with hue := hue, options := { r.options with hues := .list hs } }

/-- The toe function, if any, makes the same of the lightness whichever list is used. -/
def ToeAgrees (r : Request α) (hs hs' : List α) : Prop :=
  ∀ toe, r.options.toe = some toe →
    toe r.lightness { r.options.toSettings with hues := .list hs } =
      toe r.lightness { r.options.toSettings with hues := .list hs' }

variable {r : Request α} {hue hue' : α} {hs hs' : List α}

theorem usableLightness_withHues (htoe : r.ToeAgrees hs hs') :
    (r.withHues hue hs).usableLightness = (r.withHues hue' hs').usableLightness := by
  obtain ⟨lightness, chroma, given, settings, toe⟩ := r
  cases toe with
  | none => rfl
  | some toe =>
    have hagree : toe lightness { settings with hues := .list hs } =
        toe lightness { settings with hues := .list hs' } := htoe toe rfl
    rw [usableLightness, usableLightness, withHues, withHues]
    dsimp only
    rw [hagree]

theorem lightness_withHues (htoe : r.ToeAgrees hs hs') :
    (r.withHues hue hs).prepare.value.parameters.lightness =
      (r.withHues hue' hs').prepare.value.parameters.lightness := by
  rw [value_prepare_eq_ite, value_prepare_eq_ite]
  exact congrArg Logged.value (usableLightness_withHues htoe)

/-- But for the lightness, only the directions that the hues are wrapped to matter. -/
theorem value_prepare_withHues (hhue : (usableHue hue).value = (usableHue hue').value)
    (hhues : (HueSpec.list hs).usable.value = (HueSpec.list hs').usable.value) :
    let p := (r.withHues hue hs).prepare.value
    let p' := (r.withHues hue' hs').prepare.value
    p = { p' with parameters := { p'.parameters with lightness := p.parameters.lightness } } := by
  dsimp only
  rw [value_prepare_eq_ite, value_prepare_eq_ite]
  simp only [withHues, hhue, hhues]
  rfl

end Request

/-! ### Doubles -/

open Float.Model

namespace InTurn

variable {x y : Float}

/-- The negative zero is not a wrapped hue. -/
theorem eq_zero_of_unpack {s : UnpackedFloat.Sign} (hx : InTurn x)
    (hzero : x.toModel.unpack = .zero s) : x = 0 := by
  rcases hx with rfl | ⟨hpos, -⟩
  · rfl
  · have hlt : UnpackedFloat.lt (.zero .positive) x.toModel.unpack = true :=
      decide_eq_true_iff.mp hpos
    rw [hzero] at hlt
    cases hlt

/-- Wrapped hues are told apart by their ranks. -/
theorem eq_of_rank_eq (hx : InTurn x) (hy : InTurn y) (h : Double.rank x = Double.rank y) :
    x = y := by
  rcases Double.eq_or_zeros_of_unpackedRank hx.isNaN hy.isNaN h with heq | ⟨s, s', hs, hs'⟩
  · exact Double.eq_of_unpack_eq heq
  · rw [hx.eq_zero_of_unpack hs, hy.eq_zero_of_unpack hs']

end InTurn

/-- Wrapped hues are sorted to one list in whatever order they are given. -/
theorem mergeSort_eq_of_perm {hs hs' : List Float} (hturn : ∀ h ∈ hs, InTurn h)
    (hperm : hs.Perm hs') :
    (hs.mergeSort fun x y => x ≤ y) = hs'.mergeSort fun x y => x ≤ y := by
  have hturn' : ∀ h ∈ hs', InTurn h := fun h hh => hturn h (hperm.mem_iff.mpr hh)
  rw [Double.mergeSort_eq fun h hh => (hturn h hh).isNaN,
    Double.mergeSort_eq fun h hh => (hturn' h hh).isNaN]
  refine List.Perm.eq_of_pairwise ?_ (Double.pairwise_mergeSort_rank hs)
    (Double.pairwise_mergeSort_rank hs') ?_
  · intro x y hx hy hxy hyx
    rw [decide_eq_true_iff] at hxy hyx
    exact (hturn x (List.mem_mergeSort.mp hx)).eq_of_rank_eq
      (hturn' y (List.mem_mergeSort.mp hy)) (le_antisymm hxy hyx)
  · exact (List.mergeSort_perm hs _).trans (hperm.trans (List.mergeSort_perm hs' _).symm)

namespace HueSpec

theorem value_usable_list {hs : List Float} (hne : hs ≠ []) :
    (list hs).usable.value =
      .list ((hs.map fun h => (usableHue h).value).mergeSort fun x y => x ≤ y) := by
  cases hs with
  | nil => exact (hne rfl).elim
  | cons h hs =>
    rw [usable]
    · rw [Logged.value_bind, Logged.value_pure, Logged.value_mapList]
    · exact List.cons_ne_nil _ _

theorem value_usable_list_of_perm {hs hs' : List Float} (hperm : hs.Perm hs') :
    (list hs).usable.value = (list hs').usable.value := by
  by_cases hne : hs = []
  · subst hne
    rw [hperm.nil_eq]
  · have hne' : hs' ≠ [] := by
      rintro rfl
      exact hne hperm.eq_nil
    have hturn : ∀ h ∈ hs.map fun h => (usableHue h).value, InTurn h := by
      intro h hh
      obtain ⟨given, -, rfl⟩ := List.mem_map.mp hh
      exact inTurn_usableHue given
    rw [value_usable_list hne, value_usable_list hne',
      mergeSort_eq_of_perm hturn (hperm.map _)]

end HueSpec

/-! ### Whole turns -/

namespace Extended

/-- The same number, or a finite one that is a whole number of turns away. -/
inductive Turned : Extended → Extended → Prop
  | same (h : Extended) : Turned h h
  | turns (x : ℝ) (k : ℤ) : Turned (finite x) (finite (x + 360 * k))

theorem Turned.direction_eq {h h' : Extended} (hturned : Turned h h') :
    h.direction = h'.direction := by
  cases hturned with
  | same => rfl
  | turns x k => exact (direction_add_turns x k).symm

theorem map_direction_eq {hs turned : List Extended} (h : List.Forall₂ Turned hs turned) :
    hs.map direction = turned.map direction := by
  induction h with
  | nil => rfl
  | cons hturned _ ih => rw [List.map_cons, List.map_cons, hturned.direction_eq, ih]

/-- The second list has the entries of the first in some order, with whole turns added. -/
def TurnedLists (hs hs' : List Extended) : Prop :=
  ∃ turned, List.Forall₂ Turned hs turned ∧ turned.Perm hs'

theorem TurnedLists.perm {hs hs' : List Extended} (hturned : TurnedLists hs hs') :
    (hs.map direction).Perm (hs'.map direction) := by
  obtain ⟨turned, hforall, hperm⟩ := hturned
  rw [map_direction_eq hforall]
  exact hperm.map direction

theorem value_usable_list_of_turned {hs hs' : List Extended} (hturned : TurnedLists hs hs') :
    (HueSpec.list hs).usable.value = (HueSpec.list hs').usable.value := by
  have hperm := hturned.perm
  by_cases hne : hs = []
  · subst hne
    rw [List.map_eq_nil_iff.mp hperm.nil_eq.symm]
  · have hne' : hs' ≠ [] := by
      rintro rfl
      exact hne (List.map_eq_nil_iff.mp hperm.eq_nil)
    have hsorted : ((hs.map direction).mergeSort fun a b => a ≤ b) =
        (hs'.map direction).mergeSort fun a b => a ≤ b := by
      apply List.Perm.eq_of_pairwise' (r := (· ≤ ·))
      · exact List.pairwise_mergeSort' _ _
      · exact List.pairwise_mergeSort' _ _
      · exact (List.mergeSort_perm _ _).trans (hperm.trans (List.mergeSort_perm _ _).symm)
    rw [value_usable_list hne, value_usable_list hne', hsorted]

end Extended

/-! ### Colours -/

/-- What is done with a prepared request, apart from arithmetic: the name of its floor in the
    table, the floor and the colour. -/
structure Rendering (α κ γ : Type) where
  key : SearchParameters α → κ
  floor : SearchParameters α → α
  render : OutputFormat → Prepared α → α → γ

/-- The colour asked for and the table that is left. -/
def Rendering.compute {α κ γ : Type} [Scalar α] [DecidableEq κ] (e : Rendering α κ γ)
    (r : Request α) (table : RecencyCache κ α) : γ × RecencyCache κ α :=
  let p := r.prepare.value
  let found := table.getOrInsert (e.key p.parameters) fun _ => e.floor p.parameters
  (e.render r.options.output p found.1, found.2)

/-- On doubles this is how colours are computed. -/
theorem ColorM.value_compute_eq (r : Request Float) (table : FloorCache) :
    (ColorM.compute r table).value =
      Rendering.compute ⟨SearchParameters.key, SearchParameters.floor, ColorM.render⟩ r table :=
  rfl

/-- Where hues are wrapped to the same directions, the lightness decides whether requests come to
    the same. -/
theorem Rendering.compute_withHues {α κ γ : Type} [Scalar α] [DecidableEq κ]
    (e : Rendering α κ γ) {r : Request α} {hue hue' : α} {hs hs' : List α}
    (hhue : (usableHue hue).value = (usableHue hue').value)
    (hhues : (HueSpec.list hs).usable.value = (HueSpec.list hs').usable.value) :
    let p := (r.withHues hue hs).prepare.value.parameters
    let p' := (r.withHues hue' hs').prepare.value.parameters
    p = { p' with lightness := p.lightness } ∧
      (r.ToeAgrees hs hs' → p.lightness = p'.lightness) ∧
      (p.lightness = p'.lightness → p = p' ∧ e.key p = e.key p' ∧ ∀ table,
        e.compute (r.withHues hue hs) table = e.compute (r.withHues hue' hs') table) := by
  intro p p'
  have hprepare : (r.withHues hue hs).prepare.value =
      { (r.withHues hue' hs').prepare.value with
        parameters := { p' with lightness := p.lightness } } :=
    Request.value_prepare_withHues hhue hhues
  have hparameters : p = { p' with lightness := p.lightness } :=
    congrArg Prepared.parameters hprepare
  refine ⟨hparameters, Request.lightness_withHues, fun hlightness => ?_⟩
  rw [hlightness] at hprepare hparameters
  refine ⟨hparameters, congrArg e.key hparameters, fun table => ?_⟩
  rw [compute, compute, hprepare]
  rfl

/-- **The order of the hues makes no difference, and over exact numbers neither do whole
    turns**, but for what a toe function makes of them: the search parameters are the same except
    for the lightness.  If that is the same too, as it is if the toe function does not tell the
    lists apart, so are the name of the parameters in the table, the colour and the table that is
    left. -/
theorem value_compute_withHues :
    (∀ (r : Request Float) (hs hs' : List Float), hs.Perm hs' →
      let p := (r.withHues r.hue hs).prepare.value.parameters
      let p' := (r.withHues r.hue hs').prepare.value.parameters
      p = { p' with lightness := p.lightness } ∧
        (r.ToeAgrees hs hs' → p.lightness = p'.lightness) ∧
        (p.lightness = p'.lightness → p = p' ∧ p.key = p'.key ∧ ∀ table,
          (ColorM.compute (r.withHues r.hue hs) table).value =
            (ColorM.compute (r.withHues r.hue hs') table).value)) ∧
    ∀ {κ γ : Type} [DecidableEq κ] (e : Rendering Extended κ γ) (r : Request Extended)
      (hue : Extended) (hs hs' : List Extended), Extended.Turned r.hue hue →
      Extended.TurnedLists hs hs' →
      let p := (r.withHues r.hue hs).prepare.value.parameters
      let p' := (r.withHues hue hs').prepare.value.parameters
      p = { p' with lightness := p.lightness } ∧
        (r.ToeAgrees hs hs' → p.lightness = p'.lightness) ∧
        (p.lightness = p'.lightness → p = p' ∧ e.key p = e.key p' ∧ ∀ table,
          e.compute (r.withHues r.hue hs) table = e.compute (r.withHues hue hs') table) := by
  constructor
  · intro r hs hs' hperm
    simp only [ColorM.value_compute_eq]
    exact Rendering.compute_withHues ⟨SearchParameters.key, SearchParameters.floor, ColorM.render⟩
      rfl (HueSpec.value_usable_list_of_perm hperm)
  · intro κ γ _ e r hue hs hs' hhue hhues
    have hdirection : (usableHue r.hue).value = (usableHue hue).value := by
      rw [Extended.value_usableHue, Extended.value_usableHue, hhue.direction_eq]
    exact Rendering.compute_withHues e hdirection (Extended.value_usable_list_of_turned hhues)

/-- A toe function that looks at the opacity, NaN among the hues, and turns in both
    directions. -/
theorem value_compute_withHues_nan :
    let options : Options Float :=
      { Layer.empty.resolve with toe := some fun lightness s => lightness * s.opacity }
    let r : Request Float := ⟨0.5, 1, 30, options⟩
    let exact : Request Extended := ⟨.finite 1, .finite 1, .finite 30, Layer.empty.resolve⟩
    let e : Rendering Extended Space Extended :=
      ⟨SearchParameters.space, SearchParameters.precision, fun _ p floor => floor * p.chroma⟩
    (∀ table, (ColorM.compute (r.withHues 30 [400, Double.nan, -30]) table).value =
      (ColorM.compute (r.withHues 30 [-30, 400, Double.nan]) table).value) ∧
    ∀ table, e.compute (exact.withHues (.finite 30) [.nan, .finite 40]) table =
      e.compute (exact.withHues (.finite (30 + 360 * (-2 : ℤ)))
        [.finite (40 + 360 * (1 : ℤ)), .nan]) table := by
  intro options r exact e
  have hperm : ([400, Double.nan, -30] : List Float).Perm [-30, 400, Double.nan] :=
    (List.perm_append_comm : ([400, Double.nan] ++ [-30] : List Float).Perm _)
  have htoe : r.ToeAgrees [400, Double.nan, -30] [-30, 400, Double.nan] := by
    rintro toe ⟨rfl⟩
    rfl
  have hturned : Extended.TurnedLists [.nan, .finite 40] [.finite (40 + 360 * (1 : ℤ)), .nan] :=
    ⟨[.nan, .finite (40 + 360 * (1 : ℤ))], .cons (.same _) (.cons (.turns _ _) .nil), .swap _ _ _⟩
  have hnone : exact.ToeAgrees [.nan, .finite 40] [.finite (40 + 360 * (1 : ℤ)), .nan] := nofun
  obtain ⟨-, hlightness, hsame⟩ := value_compute_withHues.1 r _ _ hperm
  obtain ⟨-, hlightness', hsame'⟩ :=
    value_compute_withHues.2 e exact _ _ _ (.turns 30 (-2)) hturned
  exact ⟨(hsame (hlightness htoe)).2.2, (hsame' (hlightness' hnone)).2.2⟩

/-- A toe function that makes a lightness of the first hue, and so looks at the order. -/
def firstHueToe : Toe Float := fun lightness s =>
  match s.hues with
  | .list (h :: _) => h / 360.0
  | _ => lightness

/-- **A toe function can tell the orders of a list apart**, for it sees the list unsorted. -/
theorem value_compute_withHues_ne :
    let options : Options Float := { Layer.empty.resolve with toe := some firstHueToe }
    let r : Request Float := ⟨0.7, 0.5, 40, options⟩
    let p := (r.withHues 40 [180, 90]).prepare.value.parameters
    let p' := (r.withHues 40 [90, 180]).prepare.value.parameters
    ([180, 90] : List Float).Perm [90, 180] ∧ p ≠ p' ∧ p.key ≠ p'.key :=
  ⟨.swap _ _ _, by decide +kernel, by decide +kernel⟩

end EvenChroma
