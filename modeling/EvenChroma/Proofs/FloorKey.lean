/-
  EvenChroma/Proofs/FloorKey.lean
  ===============================
  **What the name of a chroma floor tells.**  The name gives all parameters away but one
  thing: a step and the list of that hue alone are written alike (`key_eq_iff`).
-/
import EvenChroma.ChromaFloor
import EvenChroma.Proofs.PlainText

namespace EvenChroma

/-! ### Joined names -/

/-- Joining with a separator that is in none of the parts loses nothing. -/
theorem intercalate_injective {c : Char} {s t : List String} (hs : ∀ x ∈ s, c ∉ x.toList)
    (ht : ∀ x ∈ t, c ∉ x.toList) (hs' : s ≠ []) (ht' : t ≠ [])
    (h : (String.singleton c).intercalate s = (String.singleton c).intercalate t) : s = t := by
  have hsplit := String.toList_split_intercalate hs
  rw [h, String.toList_split_intercalate ht, if_neg hs', if_neg ht'] at hsplit
  exact hsplit.symm

/-! ### Hues -/

namespace HueSpec

/-- Different choices of hues with one text: a step, and the list of that hue alone. -/
def Twins : HueSpec Float → HueSpec Float → Prop
  | step x, list [y] => x = y
  | list [x], step y => x = y
  | _, _ => False

theorem twins_iff {h h' : HueSpec Float} :
    h.Twins h' ↔ ∃ x, h = .step x ∧ h' = .list [x] ∨ h = .list [x] ∧ h' = .step x := by
  constructor
  · intro ht
    unfold Twins at ht
    split at ht
    · subst ht
      exact ⟨_, .inl ⟨rfl, rfl⟩⟩
    · subst ht
      exact ⟨_, .inr ⟨rfl, rfl⟩⟩
    · exact ht.elim
  · rintro ⟨x, ⟨rfl, rfl⟩ | ⟨rfl, rfl⟩⟩
    · rfl
    · rfl

theorem toList_text_list (hs : List Float) :
    (HueSpec.list hs).text.toList = [','].intercalate (hs.map Double.plain) := by
  simp only [HueSpec.text, String.toList_intercalate, List.map_map]
  congr 1
  exact List.map_congr_left fun x _ => Double.toList_text x

theorem comma_notMem_text (x : Float) : ',' ∉ (Double.text x).toList := by
  rw [Double.toList_text]
  exact Double.not_mem_plain (by decide) (by decide) x

/-- Lists of hues are told apart by their texts. -/
theorem text_list_injective {hs hs' : List Float}
    (h : (HueSpec.list hs).text = (HueSpec.list hs').text) : hs = hs' := by
  have hmap : Function.Injective (List.map Double.text) :=
    List.map_injective_iff.mpr fun _ _ => Double.text_injective
  have no_comma : ∀ l : List Float, ∀ t ∈ l.map Double.text, ',' ∉ t.toList := by
    intro l t ht
    obtain ⟨x, -, rfl⟩ := List.mem_map.mp ht
    exact comma_notMem_text x
  have nonempty : ∀ x l, (HueSpec.list (x :: l)).text ≠ "" := by
    intro x l hempty
    have hnil := congrArg String.toList hempty
    rw [toList_text_list] at hnil
    cases l with
    | nil => exact Double.plain_ne_nil x (by simpa using hnil)
    | cons y l => simp [List.intercalate_cons_cons] at hnil
  cases hs with
  | nil =>
    cases hs' with
    | nil => rfl
    | cons y hs' => exact (nonempty y hs' h.symm).elim
  | cons x hs =>
    cases hs' with
    | nil => exact (nonempty x hs h).elim
    | cons y hs' =>
      exact hmap (intercalate_injective (no_comma _) (no_comma _) (by simp) (by simp) h)

theorem text_step_eq (x : Float) : (HueSpec.step x).text = (HueSpec.list [x]).text := by
  simp [HueSpec.text]

/-- A step is written as a list only if it is the only hue of the list. -/
theorem text_step_eq_list_iff {x : Float} {hs : List Float} :
    (HueSpec.step x).text = (HueSpec.list hs).text ↔ hs = [x] := by
  rw [text_step_eq]
  exact ⟨fun h => (text_list_injective h).symm, fun h => by rw [h]⟩

theorem text_eq_iff {h h' : HueSpec Float} : h.text = h'.text ↔ h = h' ∨ h.Twins h' := by
  cases h with
  | step x =>
    cases h' with
    | step y =>
      have hstep : (HueSpec.step x).text = (HueSpec.step y).text ↔ x = y :=
        ⟨Double.text_injective, fun h => by rw [h]⟩
      simp [hstep, Twins]
    | list hs =>
      rw [text_step_eq_list_iff]
      match hs with
      | [] => simp [Twins]
      | [y] => simp [Twins, eq_comm]
      | y :: z :: hs => simp [Twins]
  | list hs =>
    cases h' with
    | step y =>
      rw [eq_comm, text_step_eq_list_iff]
      match hs with
      | [] => simp [Twins]
      | [x] => simp [Twins]
      | x :: z :: hs => simp [Twins]
    | list hs' =>
      have hlist : (HueSpec.list hs).text = (HueSpec.list hs').text ↔ hs = hs' :=
        ⟨text_list_injective, fun h => by rw [h]⟩
      rw [hlist]
      simp [Twins]

theorem underscore_notMem_text (h : HueSpec Float) : '_' ∉ h.text.toList := by
  have single : ∀ x, '_' ∉ Double.plain x := Double.not_mem_plain (by decide) (by decide)
  cases h with
  | step x =>
    simp only [HueSpec.text, Double.toList_text]
    exact single x
  | list hs =>
    rw [toList_text_list]
    induction hs with
    | nil => simp
    | cons x hs ih =>
      cases hs with
      | nil => simpa using single x
      | cons y hs =>
        rw [List.map_cons, List.map_cons, List.intercalate_cons_cons]
        simp only [List.mem_append, not_or]
        exact ⟨⟨single x, by decide⟩, ih⟩

end HueSpec

/-! ### Parameters -/

theorem Space.name_injective {s s' : Space} (h : s.name = s'.name) : s = s' := by
  revert h
  cases s <;> cases s' <;> decide

theorem Gamut.name_injective {g g' : Gamut} (h : g.name = g'.name) : g = g' := by
  revert h
  cases g <;> cases g' <;> decide

namespace SearchParameters

/-- Different parameters with one name: they differ in how a single hue is given. -/
structure Twins (p q : SearchParameters Float) : Prop where
  hues : p.hues.Twins q.hues
  lightness : p.lightness = q.lightness
  space : p.space = q.space
  gamut : p.gamut = q.gamut
  precision : p.precision = q.precision

/-- The five parts that a name joins. -/
def keyParts (p : SearchParameters Float) : List String :=
  [Double.text p.lightness, p.hues.text, p.space.name, p.gamut.name, Double.text p.precision]

theorem key_eq (p : SearchParameters Float) :
    p.key = (String.singleton '_').intercalate p.keyParts := rfl

theorem underscore_notMem_keyParts (p : SearchParameters Float) :
    ∀ s ∈ p.keyParts, '_' ∉ s.toList := by
  have number : ∀ x, '_' ∉ (Double.text x).toList := by
    intro x
    rw [Double.toList_text]
    exact Double.not_mem_plain (by decide) (by decide) x
  intro s hs
  simp only [keyParts, List.mem_cons, List.not_mem_nil, or_false] at hs
  rcases hs with rfl | rfl | rfl | rfl | rfl
  · exact number _
  · exact p.hues.underscore_notMem_text
  · cases p.space <;> decide
  · cases p.gamut <;> decide
  · exact number _

/-- A name gives its parts away. -/
theorem key_eq_iff_keyParts {p q : SearchParameters Float} :
    p.key = q.key ↔ p.keyParts = q.keyParts := by
  rw [key_eq, key_eq]
  refine ⟨fun h => ?_, fun h => by rw [h]⟩
  exact intercalate_injective p.underscore_notMem_keyParts q.underscore_notMem_keyParts
    (by simp [keyParts]) (by simp [keyParts]) h

/-- Of the parts only that of the hues is ambiguous. -/
theorem keyParts_eq_iff {p q : SearchParameters Float} :
    p.keyParts = q.keyParts ↔ p.lightness = q.lightness ∧ (p.hues = q.hues ∨ p.hues.Twins q.hues) ∧
      p.space = q.space ∧ p.gamut = q.gamut ∧ p.precision = q.precision := by
  simp only [keyParts, List.cons.injEq, and_true, HueSpec.text_eq_iff]
  constructor
  · rintro ⟨hlightness, hhues, hspace, hgamut, hprecision⟩
    exact ⟨Double.text_injective hlightness, hhues, Space.name_injective hspace,
      Gamut.name_injective hgamut, Double.text_injective hprecision⟩
  · rintro ⟨hlightness, hhues, hspace, hgamut, hprecision⟩
    rw [hlightness, hspace, hgamut, hprecision]
    exact ⟨rfl, hhues, rfl, rfl, rfl⟩

/-- A name belongs to one choice of parameters, or to twins. -/
theorem key_eq_iff {p q : SearchParameters Float} : p.key = q.key ↔ p = q ∨ p.Twins q := by
  rw [key_eq_iff_keyParts, keyParts_eq_iff]
  constructor
  · rintro ⟨hlightness, hhues | htwins, hspace, hgamut, hprecision⟩
    · left
      cases p
      cases q
      simp_all
    · exact .inr ⟨htwins, hlightness, hspace, hgamut, hprecision⟩
  · rintro (rfl | h)
    · exact ⟨rfl, .inl rfl, rfl, rfl, rfl⟩
    · exact ⟨h.lightness, .inr h.hues, h.space, h.gamut, h.precision⟩

/-- **Two names are equal exactly if lightness, precision, space and gamut are the same, signs of
    zero included, and the hues are the same or are a step and the list of that hue alone.** -/
theorem key_mk_eq_iff (lightness lightness' : Float) (hues hues' : HueSpec Float)
    (space space' : Space) (gamut gamut' : Gamut) (precision precision' : Float) :
    (SearchParameters.mk lightness hues space gamut precision).key
        = (SearchParameters.mk lightness' hues' space' gamut' precision').key ↔
      lightness = lightness' ∧ precision = precision' ∧ space = space' ∧ gamut = gamut' ∧
        (hues = hues' ∨
          ∃ x, hues = .step x ∧ hues' = .list [x] ∨ hues = .list [x] ∧ hues' = .step x) := by
  rw [key_eq_iff_keyParts, keyParts_eq_iff, HueSpec.twins_iff]
  constructor
  · rintro ⟨hlightness, hhues, hspace, hgamut, hprecision⟩
    exact ⟨hlightness, hprecision, hspace, hgamut, hhues⟩
  · rintro ⟨hlightness, hprecision, hspace, hgamut, hhues⟩
    exact ⟨hlightness, hhues, hspace, hgamut, hprecision⟩

end SearchParameters

end EvenChroma
