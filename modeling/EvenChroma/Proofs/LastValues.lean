/-
  EvenChroma/Proofs/LastValues.lean
  =================================
  **Only the last value of each option counts.**  The options that a JSON text gives, and the
  error if it gives none, depend on nothing else: not on the order of the members, on blanks, on
  values that are overwritten, or on members of other names (`ofJson_eq_of_last_values`).

  Values are compared as what they are read into, so the same holds of an object inside of a
  value (`Same`).
-/
import EvenChroma.Options.OfJson
import Mathlib.Data.List.Nodup
import Mathlib.Data.Option.Basic

namespace EvenChroma

namespace Json

/-! ### The same value, written differently -/

/-- Two values that differ in the order of members and in overwritten members only. -/
inductive Same : Json → Json → Prop where
  | refl (j : Json) : Same j j
  | array {items items' : List Json} (h : List.Forall₂ Same items items') :
    Same (.array items) (.array items')
  | object {ms ms' : List (Text × Json)}
    (h : ∀ key, Option.Rel Same (last? key ms) (last? key ms')) : Same (.object ms) (.object ms')

/-! ### Members that count -/

theorem last?_cons (key : Text) (m : Text × Json) (ms : List (Text × Json)) :
    last? key (m :: ms) = (last? key ms).or (if m.1 = key then some m.2 else none) := by
  rw [last?, last?, List.reverse_cons, List.find?_append]
  cases ms.reverse.find? fun m => m.1 = key with
  | some m' => rfl
  | none =>
    rw [Option.none_or, Option.map_none, Option.none_or, List.find?_singleton]
    by_cases h : m.1 = key <;> simp [h]

theorem last?_eq_none_iff {key : Text} {ms : List (Text × Json)} :
    last? key ms = none ↔ ∀ m ∈ ms, m.1 ≠ key := by
  rw [last?, Option.map_eq_none_iff, List.find?_eq_none]
  simp

/-- The members that count are those with the last value of their key. -/
theorem mem_effective_iff {key : Text} {j : Json} {ms : List (Text × Json)} :
    (key, j) ∈ effective ms ↔ last? key ms = some j := by
  induction ms with
  | nil => exact iff_of_false List.not_mem_nil nofun
  | cons m ms ih =>
    rw [effective, last?_cons]
    by_cases hlater : ms.any (·.1 = m.1) = true
    · -- an overwritten member, so a later one has its key
      rw [if_pos hlater, ih]
      obtain ⟨m', hm', hkey⟩ := List.any_eq_true.mp hlater
      cases hlast : last? key ms with
      | some j' => rw [Option.some_or]
      | none =>
        have hne : m.1 ≠ key := by
          rintro rfl
          exact last?_eq_none_iff.mp hlast m' hm' (of_decide_eq_true hkey)
        rw [Option.none_or, if_neg hne]
    · rw [if_neg hlater, List.mem_cons, ih]
      have hnone : last? m.1 ms = none := by
        rw [last?_eq_none_iff]
        intro m' hm' hkey
        exact hlater (List.any_eq_true.mpr ⟨m', hm', decide_eq_true hkey⟩)
      by_cases hkey : m.1 = key
      · subst hkey
        rw [hnone, Option.none_or, if_pos rfl, Option.some_inj, Prod.ext_iff]
        simp [eq_comm]
      · rw [if_neg hkey, Option.or_none, or_iff_right]
        rintro rfl
        exact hkey rfl

theorem nodup_effective (ms : List (Text × Json)) : ((effective ms).map Prod.fst).Nodup := by
  induction ms with
  | nil => exact List.nodup_nil
  | cons m ms ih =>
    rw [effective]
    split
    · exact ih
    · next hlater =>
      rw [List.map_cons, List.nodup_cons]
      refine ⟨fun hmem => ?_, ih⟩
      obtain ⟨⟨key, j⟩, hm', hkey⟩ := List.mem_map.mp hmem
      have hsome := mem_effective_iff.mp hm'
      have hmem' : ∃ m' ∈ ms, m'.1 = key := by
        by_contra hnot
        rw [last?_eq_none_iff.mpr fun m' hm' hkey' => hnot ⟨m', hm', hkey'⟩] at hsome
        cases hsome
      obtain ⟨m', hm', hkey'⟩ := hmem'
      exact hlater (List.any_eq_true.mpr ⟨m', hm', decide_eq_true (hkey'.trans hkey)⟩)

/-- One member counts if all keys but one are missing. -/
theorem effective_eq_singleton_iff {key : Text} {j : Json} {ms : List (Text × Json)} :
    effective ms = [(key, j)] ↔
      last? key ms = some j ∧ ∀ key', key' ≠ key → last? key' ms = none := by
  constructor
  · intro h
    refine ⟨mem_effective_iff.mp (h ▸ List.mem_singleton_self _), fun key' hne => ?_⟩
    rw [Option.eq_none_iff_forall_ne_some]
    intro j' hlast
    have hmem := mem_effective_iff.mpr hlast
    rw [h, List.mem_singleton, Prod.mk.injEq] at hmem
    exact hne hmem.1
  · rintro ⟨hlast, hothers⟩
    have hall : ∀ m ∈ effective ms, m = (key, j) := by
      rintro ⟨key', j'⟩ hm
      have hlast' := mem_effective_iff.mp hm
      have hkey : key' = key := by
        by_contra hne
        rw [hothers key' hne] at hlast'
        cases hlast'
      subst hkey
      rw [hlast, Option.some_inj] at hlast'
      rw [hlast']
    have hmem := mem_effective_iff.mpr hlast
    have hnodup := nodup_effective ms
    match heffective : effective ms with
    | [] =>
      rw [heffective] at hmem
      cases hmem
    | [m] =>
      rw [hall m (heffective ▸ List.mem_singleton_self m)]
    | m :: m' :: _ =>
      rw [heffective] at hnodup hall
      have hm := hall m List.mem_cons_self
      have hm' := hall m' (List.mem_cons_of_mem _ List.mem_cons_self)
      simp [hm, hm'] at hnodup

/-- The one member that counts, if there is just one. -/
def single? (ms : List (Text × Json)) : Option (Text × Json) :=
  match effective ms with
  | [m] => some m
  | _ => none

theorem single?_eq_some_iff {key : Text} {j : Json} {ms : List (Text × Json)} :
    single? ms = some (key, j) ↔
      last? key ms = some j ∧ ∀ key', key' ≠ key → last? key' ms = none := by
  rw [← effective_eq_singleton_iff, single?]
  split
  · next m h => rw [h, Option.some_inj, List.singleton_inj]
  · next h => exact iff_of_false nofun fun hsingle => h _ hsingle

theorem rel_flip {rel : Json → Json → Prop} {x x' : Option Json} (h : Option.Rel rel x x') :
    Option.Rel (flip rel) x' x := by
  cases h with
  | some h => exact .some h
  | none => exact .none

theorem exists_single? {rel : Json → Json → Prop} {ms ms' : List (Text × Json)} {key : Text}
    {j : Json} (h : ∀ key, Option.Rel rel (last? key ms) (last? key ms'))
    (hsingle : single? ms = some (key, j)) : ∃ j', single? ms' = some (key, j') ∧ rel j j' := by
  rw [single?_eq_some_iff] at hsingle
  obtain ⟨hlast, hothers⟩ := hsingle
  have hkey := h key
  rw [hlast] at hkey
  generalize hlast' : last? key ms' = x at hkey
  cases hkey with
  | some hrel =>
    refine ⟨_, single?_eq_some_iff.mpr ⟨hlast', fun key' hne => ?_⟩, hrel⟩
    have hkey' := h key'
    rw [hothers key' hne] at hkey'
    generalize last? key' ms' = x' at hkey' ⊢
    cases hkey'
    rfl

/-! ### Readers of values -/

/-- A reader that gives the same value, or the same message, for what is the same. -/
def Respects {β : Type} (read : Json → Except ShapeFault β) : Prop :=
  ∀ {j j' : Json}, Same j j' →
    (read j).mapError ShapeFault.message = (read j').mapError ShapeFault.message

end Json

theorem Except.mapError_bind {ε ε' β γ : Type} (message : ε → ε') (x : Except ε β)
    (next : β → Except ε γ) : (x >>= next).mapError message =
      x.mapError message >>= fun b => (next b).mapError message := by
  cases x <;> rfl

theorem Except.mapError_map {ε ε' β γ : Type} (message : ε → ε') (x : Except ε β) (f : β → γ) :
    (x.map f).mapError message = (x.mapError message).map f := by
  cases x <;> rfl

namespace Json

theorem respects_toNumber : Respects toNumber := by
  intro j j' h
  cases h <;> rfl

theorem respects_toTruth : Respects toTruth := by
  intro j j' h
  cases h <;> rfl

theorem toVariant_object {β : Type} (lenient : Bool) (all : List β) (nameOf : β → String)
    (ms : List (Text × Json)) : toVariant lenient all nameOf (.object ms) =
      match single? ms with
      | some (name, beside) => do
        let b ← named all nameOf name
        checkUnit lenient beside
        .ok b
      | none => .error .notSingleKey := by
  rw [toVariant, single?]
  split
  · next h => rw [h]
  · next h =>
    split
    · next m heq =>
      split at heq
      · next m hsingle => exact absurd hsingle (h m.1 m.2)
      · cases heq
    · rfl

theorem respects_checkUnit : Respects (checkUnit false) := by
  intro j j' h
  cases h with
  | refl => rfl
  | array => rfl
  | @object ms ms' =>
    have hmap : ∀ ms : List (Text × Json), (checkUnit false (.object ms)).mapError
        ShapeFault.message = .error (ShapeFault.unexpected (.object ms) .unit).message := by
      intro ms
      cases ms <;> rfl
    rw [hmap, hmap]
    rfl

theorem respects_toVariant {β : Type} (all : List β) (nameOf : β → String) :
    Respects (toVariant false all nameOf) := by
  intro j j' h
  cases h with
  | refl => rfl
  | array => rfl
  | @object ms ms' h =>
    rw [toVariant_object, toVariant_object]
    cases hsingle : single? ms with
    | some m =>
      obtain ⟨j', hsingle', hsame⟩ := exists_single? h hsingle
      rw [hsingle']
      dsimp only
      rw [Except.mapError_bind, Except.mapError_bind]
      congr 1
      funext b
      rw [Except.mapError_bind, Except.mapError_bind, respects_checkUnit hsame]
    | none =>
      cases hsingle' : single? ms' with
      | none => rfl
      | some m' =>
        -- read the other way round, the relation leads back to a single member
        obtain ⟨j, hback, -⟩ := exists_single? (fun key => rel_flip (h key)) hsingle'
        rw [hsingle] at hback
        cases hback

theorem mapM_toNumber_cases {items items' : List Json} (h : List.Forall₂ Same items items') :
    (∃ xs, items.mapM toNumber = .ok xs ∧ items'.mapM toNumber = .ok xs) ∨
      (∃ e e', items.mapM toNumber = .error e ∧ items'.mapM toNumber = .error e') := by
  induction h with
  | nil => exact .inl ⟨[], rfl, rfl⟩
  | @cons j j' items items' hsame _ ih =>
    have hrespects := respects_toNumber hsame
    rw [List.mapM_cons, List.mapM_cons]
    cases hread : toNumber j with
    | error e =>
      cases hread' : toNumber j' with
      | error e' => exact .inr ⟨e, e', rfl, rfl⟩
      | ok x' =>
        rw [hread, hread'] at hrespects
        cases hrespects
    | ok x =>
      cases hread' : toNumber j' with
      | error e' =>
        rw [hread, hread'] at hrespects
        cases hrespects
      | ok x' =>
        rw [hread, hread'] at hrespects
        cases hrespects
        rcases ih with ⟨xs, hxs, hxs'⟩ | ⟨e, e', he, he'⟩
        · rw [hxs, hxs']
          exact .inl ⟨x :: xs, rfl, rfl⟩
        · rw [he, he']
          exact .inr ⟨e, e', rfl, rfl⟩

theorem respects_readHues : Respects Layer.readHues := by
  intro j j' h
  cases h with
  | refl => rfl
  | object => rfl
  | array h =>
    rcases mapM_toNumber_cases h with ⟨xs, hxs, hxs'⟩ | ⟨e, e', he, he'⟩
    · rw [Layer.readHues, Layer.readHues, hxs, hxs']
    · rw [Layer.readHues, Layer.readHues, he, he']

/-- The last value of a key; `null` is none. -/
def given? (key : Text) (ms : List (Text × Json)) : Option Json :=
  match last? key ms with
  | some .null => none
  | j => j

end Json

/-! ### Options -/

namespace Layer

open Json (Respects Same given?)

theorem option_eq {β : Type} (read : Json → Except Json.ShapeFault β) (key : String)
    (ms : List (Text × Json)) : option read key ms =
      match given? key.toList ms with
      | none => .ok none
      | some j => (read j).map some := by
  rw [option, given?]
  rcases Json.last? key.toList ms with _ | _ | _ <;> rfl

theorem option_eq_of_given {β : Type} {read : Json → Except Json.ShapeFault β}
    (hread : Respects read) {key : String} {ms ms' : List (Text × Json)}
    (h : Option.Rel Same (given? key.toList ms) (given? key.toList ms')) :
    (option read key ms).mapError Json.ShapeFault.message =
      (option read key ms').mapError Json.ShapeFault.message := by
  rw [option_eq, option_eq]
  generalize given? key.toList ms = x at h ⊢
  generalize given? key.toList ms' = x' at h ⊢
  cases h with
  | none => rfl
  | some hsame =>
    dsimp only
    rw [Except.mapError_map, Except.mapError_map, hread hsame]

/-- The names of the options that can be written. -/
def keys : List String :=
  ["gamut", "guardrails", "hues", "opacity", "output", "precision", "space"]

/-- Objects with the same last value of every option give the same options. -/
theorem ofMembers_eq_of_given {ms ms' : List (Text × Json)}
    (h : ∀ key ∈ keys, Option.Rel Same (given? key.toList ms) (given? key.toList ms')) :
    (ofMembers false ms).mapError Json.ShapeFault.message =
      (ofMembers false ms').mapError Json.ShapeFault.message := by
  have hgamut := option_eq_of_given (Json.respects_toVariant Gamut.all Gamut.name)
    (h "gamut" (by decide))
  have hguardrails := option_eq_of_given Json.respects_toTruth (h "guardrails" (by decide))
  have hhues := option_eq_of_given Json.respects_readHues (h "hues" (by decide))
  have hopacity := option_eq_of_given Json.respects_toNumber (h "opacity" (by decide))
  have houtput := option_eq_of_given
    (Json.respects_toVariant OutputFormat.all OutputFormat.name) (h "output" (by decide))
  have hprecision := option_eq_of_given Json.respects_toNumber (h "precision" (by decide))
  have hspace := option_eq_of_given (Json.respects_toVariant Space.all Space.name)
    (h "space" (by decide))
  simp only [ofMembers, Except.mapError_bind, hgamut, hguardrails, hhues, hopacity, houtput,
    hprecision, hspace]

/-- **The options of a JSON text depend on the last value of each option only**, and so does the
    message if there are none.  A missing value and `null` count alike. -/
theorem ofJson_eq_of_last_values {t t' : Text} {ms ms' : List (Text × Json)}
    (ht : Json.ofText t = .ok (.object ms)) (ht' : Json.ofText t' = .ok (.object ms'))
    (h : ∀ key ∈ keys, Option.Rel Same (given? key.toList ms) (given? key.toList ms')) :
    (ofJson t).mapError OptionsError.message = (ofJson t').mapError OptionsError.message := by
  have hmessage : ∀ {t : Text} {ms : List (Text × Json)}, Json.ofText t = .ok (.object ms) →
      (ofJson t).mapError OptionsError.message =
        ((ofMembers false ms).mapError Json.ShapeFault.message).mapError
          fun fault => s!"Invalid JSON options: {fault}" := by
    intro t ms ht
    have hmembers : OptionsError.members t = .ok ms := by
      rw [OptionsError.members, ht]
    rw [ofJson, hmembers]
    change ((ofMembers false ms).mapError OptionsError.wrongShape).mapError _ = _
    cases ofMembers false ms <;> rfl
  rw [hmessage ht, hmessage ht', ofMembers_eq_of_given h]

/-- The same fault of one option, though the texts agree on little else. -/
theorem ofJson_eq_of_last_values_overwritten :
    let t : Text := "\x7b\"space\":\"hct\",\"precision\":\"fine\",".toList ++
      "\"gamut\":\x7b\"p3\":1,\"p3\":null\x7d\x7d".toList
    let t' : Text := " \x7b\"gamut\": 3, \"toeFunction\": [], \"precision\": \"fine\", ".toList ++
      "\"hues\": null, \"gamut\": \x7b\"p3\": null\x7d, \"space\": \"hct\"\x7d".toList
    let ms : List (Text × Json) := [("space".toList, .string "hct".toList),
      ("precision".toList, .string "fine".toList),
      ("gamut".toList, .object [("p3".toList, .integer 1), ("p3".toList, .null)])]
    let ms' : List (Text × Json) := [("gamut".toList, .integer 3),
      ("toeFunction".toList, .array []), ("precision".toList, .string "fine".toList),
      ("hues".toList, .null), ("gamut".toList, .object [("p3".toList, .null)]),
      ("space".toList, .string "hct".toList)]
    Json.ofText t = .ok (.object ms) ∧ Json.ofText t' = .ok (.object ms') ∧
      (∀ key ∈ keys, Option.Rel Same (given? key.toList ms) (given? key.toList ms')) ∧
      (ofJson t).mapError OptionsError.message = (ofJson t').mapError OptionsError.message := by
  intro t t' ms ms'
  have ht : Json.ofText t = .ok (.object ms) := by with_unfolding_all rfl
  have ht' : Json.ofText t' = .ok (.object ms') := by with_unfolding_all rfl
  have hgamut : Same (.object [("p3".toList, .integer 1), ("p3".toList, .null)])
      (.object [("p3".toList, .null)]) := by
    refine .object fun key => ?_
    by_cases hkey : "p3".toList = key
    · subst hkey
      exact .some (.refl .null)
    · simp only [Json.last?_cons, if_neg hkey]
      exact .none
  have h : ∀ key ∈ keys, Option.Rel Same (given? key.toList ms) (given? key.toList ms') := by
    intro key hkey
    simp only [keys, List.mem_cons, List.not_mem_nil, or_false] at hkey
    rcases hkey with rfl | rfl | rfl | rfl | rfl | rfl | rfl
    · exact .some hgamut
    · exact .none
    · exact .none
    · exact .none
    · exact .none
    · exact .some (.refl _)
    · exact .some (.refl _)
  exact ⟨ht, ht', h, ofJson_eq_of_last_values ht ht' h⟩

end Layer

end EvenChroma
