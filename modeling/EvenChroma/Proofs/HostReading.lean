/-
  EvenChroma/Proofs/HostReading.lean
  ==================================
  **A host writes options as a call does.**  The text of the host is read as the options of a
  call, with three members of the host besides (`HostOptions.reads_as_inline`).  Where the value
  of an option is a name, written as the only key of an object, the host may write an empty
  object beside the name; in a call only `null` may stand there.
-/
import EvenChroma.Css.HostOptions
import EvenChroma.Proofs.JsonLexemes
import EvenChroma.Proofs.LastValues

namespace EvenChroma

namespace Json

/-! ### Names written as keys -/

/-- A name written as the only key of an object, with an empty object beside it. -/
inductive EmptyBeside : Json → Prop where
  | intro {ms : List (Text × Json)} {name : Text} (h : single? ms = some (name, .object [])) :
    EmptyBeside (.object ms)

/-- The value with `null` in place of an empty object beside a name. -/
def nullBeside : Json → Json
  | .object ms =>
    match single? ms with
    | some (name, .object []) => .object [(name, .null)]
    | _ => .object ms
  | j => j

theorem nullBeside_eq_self {j : Json} (h : ¬ EmptyBeside j) : nullBeside j = j := by
  unfold nullBeside
  split
  · next ms =>
    split
    · next name hsingle => exact (h ⟨hsingle⟩).elim
    · rfl
  · rfl

theorem nullBeside_eq_null_iff {j : Json} : nullBeside j = .null ↔ j = .null := by
  constructor
  · intro h
    unfold nullBeside at h
    split at h
    · split at h
      · cases h
      · cases h
    · exact h
  · rintro rfl
    rfl

section

variable {β : Type} (all : List β) (nameOf : β → String)

theorem checkUnit_lenient {j : Json} (h : j ≠ .object []) :
    checkUnit true j = checkUnit false j := by
  unfold checkUnit
  split
  · rfl
  · exact (h rfl).elim
  · rfl

/-- **The lenient reader of names reads what the strict one does without the empty object.** -/
theorem toVariant_lenient (j : Json) :
    toVariant true all nameOf j = toVariant false all nameOf (nullBeside j) := by
  cases j with
  | object ms =>
    by_cases hempty : EmptyBeside (.object ms)
    · obtain ⟨hsingle⟩ := hempty
      rw [nullBeside, hsingle, toVariant_object, hsingle]
      rfl
    · rw [nullBeside_eq_self hempty, toVariant_object, toVariant_object]
      cases hsingle : single? ms with
      | none => rfl
      | some m =>
        obtain ⟨name, beside⟩ := m
        have hbeside : beside ≠ .object [] := by
          rintro rfl
          exact hempty ⟨hsingle⟩
        simp only [checkUnit_lenient hbeside]
  | _ => rfl

/-- The strict reader refuses a name with an empty object beside it. -/
theorem toVariant_of_emptyBeside {j : Json} (h : EmptyBeside j) (b : β) :
    toVariant false all nameOf j ≠ .ok b := by
  obtain ⟨hsingle⟩ := h
  rw [toVariant_object, hsingle]
  intro hok
  dsimp only at hok
  cases hnamed : named all nameOf _ with
  | error fault =>
    rw [hnamed] at hok
    cases hok
  | ok b' =>
    rw [hnamed] at hok
    cases hok

end

theorem toTruth_eq_ok_iff {j : Json} {b : Bool} : toTruth j = .ok b ↔ j = .bool b := by
  cases j <;> simp [toTruth]

theorem toTextValue_eq_ok_iff {j : Json} {s : Text} : toTextValue j = .ok s ↔ j = .string s := by
  cases j <;> simp [toTextValue]

/-- The array of the texts. -/
def ofTexts (ss : List Text) : Json := .array (ss.map .string)

theorem mapM_toTextValue {items : List Json} {ss : List Text} :
    items.mapM toTextValue = .ok ss ↔ items = ss.map .string := by
  induction items generalizing ss with
  | nil => cases ss <;> simp [pure, Except.pure]
  | cons j items ih =>
    rw [List.mapM_cons]
    constructor
    · intro h
      cases hj : toTextValue j with
      | error fault =>
        rw [hj] at h
        cases h
      | ok s =>
        cases hitems : items.mapM toTextValue with
        | error fault =>
          rw [hj, hitems] at h
          cases h
        | ok ss' =>
          rw [hj, hitems] at h
          cases h
          rw [toTextValue_eq_ok_iff.mp hj, ih.mp hitems, List.map_cons]
    · intro h
      cases ss with
      | nil => cases h
      | cons s ss =>
        rw [List.map_cons, List.cons.injEq] at h
        rw [toTextValue_eq_ok_iff.mpr h.1, ih.mpr h.2]
        rfl

theorem toTexts_eq_ok_iff {j : Json} {ss : List Text} : toTexts j = .ok ss ↔ j = ofTexts ss := by
  cases j <;> simp [toTexts, ofTexts, mapM_toTextValue]

end Json

/-! ### Options -/

namespace Layer

open Json (EmptyBeside given? last? toVariant nullBeside)

/-- The options whose values are names. -/
def namedKeys : List String := ["gamut", "output", "space"]

/-- The members, without empty objects beside the names that are values of options. -/
def nullBesideNames (ms : List (Text × Json)) : List (Text × Json) :=
  ms.map fun m => (m.1, if m.1 ∈ namedKeys.map String.toList then nullBeside m.2 else m.2)

/-- No option has a name with an empty object beside it as its value. -/
def Plain (ms : List (Text × Json)) : Prop :=
  ∀ key ∈ namedKeys, ∀ j ∈ last? key.toList ms, ¬ EmptyBeside j

section

variable {β : Type} {ms ms' : List (Text × Json)}

theorem last?_nullBesideNames (key : Text) (ms : List (Text × Json)) :
    last? key (nullBesideNames ms) = (last? key ms).map fun j =>
      if key ∈ namedKeys.map String.toList then nullBeside j else j := by
  induction ms with
  | nil => rfl
  | cons m ms ih =>
    rw [nullBesideNames] at ih ⊢
    rw [List.map_cons, Json.last?_cons, Json.last?_cons, ih]
    cases last? key ms with
    | some j => rfl
    | none =>
      by_cases hkey : m.1 = key
      · subst hkey
        simp
      · simp [hkey]

theorem given?_eq_some {key : Text} {j : Json} (h : last? key ms = some j) (hj : j ≠ .null) :
    given? key ms = some j := by
  rw [given?, h]
  split
  · next heq => exact (hj (Option.some.inj heq)).elim
  · rfl

theorem given?_nullBesideNames (key : Text) (ms : List (Text × Json)) :
    given? key (nullBesideNames ms) = (given? key ms).map fun j =>
      if key ∈ namedKeys.map String.toList then nullBeside j else j := by
  have hlast' := last?_nullBesideNames key ms
  cases hlast : last? key ms with
  | none =>
    rw [hlast] at hlast'
    rw [given?, given?, hlast', hlast]
    rfl
  | some j =>
    rw [hlast, Option.map_some] at hlast'
    by_cases hnull : j = .null
    · subst hnull
      rw [given?, given?, hlast', hlast]
      simp [nullBeside]
    · have hkept : (if key ∈ namedKeys.map String.toList then nullBeside j else j) ≠ .null := by
        split
        · exact fun h => hnull (Json.nullBeside_eq_null_iff.mp h)
        · exact hnull
      rw [given?_eq_some hlast' hkept, given?_eq_some hlast hnull, Option.map_some]

theorem option_unnamed (read : Json → Except Json.ShapeFault β) (key : String)
    (hkey : key.toList ∉ namedKeys.map String.toList) :
    option read key (nullBesideNames ms) = option read key ms := by
  simp only [option_eq, given?_nullBesideNames, if_neg hkey, Option.map_id']

theorem option_lenient (all : List β) (nameOf : β → String) (key : String)
    (hkey : key.toList ∈ namedKeys.map String.toList) :
    option (toVariant true all nameOf) key ms =
      option (toVariant false all nameOf) key (nullBesideNames ms) := by
  simp only [option_eq, given?_nullBesideNames, if_pos hkey]
  cases given? key.toList ms with
  | none => rfl
  | some j =>
    rw [Option.map_some]
    dsimp only
    rw [Json.toVariant_lenient]

/-- **The lenient reader of options reads what the strict one does without the empty objects.** -/
theorem ofMembers_lenient (ms : List (Text × Json)) :
    ofMembers true ms = ofMembers false (nullBesideNames ms) := by
  rw [ofMembers, ofMembers, option_lenient Gamut.all Gamut.name "gamut" (by decide),
    option_lenient OutputFormat.all OutputFormat.name "output" (by decide),
    option_lenient Space.all Space.name "space" (by decide),
    option_unnamed _ "guardrails" (by decide), option_unnamed _ "hues" (by decide),
    option_unnamed _ "opacity" (by decide), option_unnamed _ "precision" (by decide)]

/-- Options depend on the values that count only. -/
theorem ofMembers_congr (lenient : Bool) (h : ∀ key, last? key ms = last? key ms') :
    ofMembers lenient ms = ofMembers lenient ms' := by
  simp only [ofMembers, option, h]

theorem ofMembers_of_plain (h : Plain ms) :
    ofMembers false (nullBesideNames ms) = ofMembers false ms := by
  apply ofMembers_congr
  intro key
  rw [last?_nullBesideNames]
  split
  · next hkey =>
    obtain ⟨name, hname, rfl⟩ := List.mem_map.mp hkey
    cases hlast : last? name.toList ms with
    | none => rfl
    | some j => rw [Option.map_some, Json.nullBeside_eq_self (h name hname j hlast)]
  · rw [Option.map_id']

theorem option_of_emptyBeside (all : List β) (nameOf : β → String) {key : String} {j : Json}
    (hlast : last? key.toList ms = some j) (hempty : EmptyBeside j) (x : Option β) :
    option (toVariant false all nameOf) key ms ≠ .ok x := by
  have hnull : j ≠ .null := by
    rintro rfl
    cases hempty
  rw [option_eq, given?_eq_some hlast hnull]
  dsimp only
  cases hread : toVariant false all nameOf j with
  | error fault => nofun
  | ok b => exact (Json.toVariant_of_emptyBeside all nameOf hempty b hread).elim

/-- The strict reader refuses options with an empty object beside a name. -/
theorem ofMembers_of_not_plain (h : ¬ Plain ms) (l : Layer Float) : ofMembers false ms ≠ .ok l := by
  simp only [Plain, not_forall, not_not] at h
  obtain ⟨key, hkey, j, hlast, hempty⟩ := h
  intro hok
  simp only [ofMembers, Json.bind_eq_ok] at hok
  obtain ⟨_, hgamut, _, -, _, -, _, -, _, houtput, _, -, _, hspace, -⟩ := hok
  simp only [namedKeys, List.mem_cons, List.not_mem_nil, or_false] at hkey
  rcases hkey with rfl | rfl | rfl
  · exact option_of_emptyBeside _ _ hlast hempty _ hgamut
  · exact option_of_emptyBeside _ _ hlast hempty _ houtput
  · exact option_of_emptyBeside _ _ hlast hempty _ hspace

end

end Layer

/-! ### Members of an object text -/

namespace OptionsError

section

variable {β : Type} {read : List (Text × Json) → Except Json.ShapeFault β} {t : Text}

theorem members_eq_ok_iff {ms : List (Text × Json)} :
    members t = .ok ms ↔ Json.ofText t = .ok (.object ms) := by
  unfold members
  split
  · next heq => simp [heq]
  · next j hobject heq =>
    simp only [heq, reduceCtorEq, Except.ok.injEq, false_iff]
    rintro rfl
    exact hobject ms rfl
  · next heq => simp [heq]

/-- A text is read if it is an object whose members are. -/
theorem read_eq_ok_iff {b : β} :
    (members t >>= fun ms => (read ms).mapError wrongShape) = .ok b ↔
      ∃ ms, Json.ofText t = .ok (.object ms) ∧ read ms = .ok b := by
  have hread : ∀ ms, (read ms).mapError wrongShape = .ok b ↔ read ms = .ok b := by
    intro ms
    cases read ms <;> simp [Except.mapError]
  simp only [Json.bind_eq_ok, members_eq_ok_iff, hread]

/-- No object is said to be none, whatever its members are. -/
theorem read_eq_notAnObject_iff :
    (members t >>= fun ms => (read ms).mapError wrongShape) = .error notAnObject ↔
      members t = .error notAnObject := by
  cases members t with
  | error e => simp [bind, Except.bind]
  | ok ms =>
    simp only [bind, Except.bind, reduceCtorEq, iff_false]
    cases read ms <;> simp [Except.mapError]

end

end OptionsError

/-! ### The host -/

namespace Css.HostOptions

open Layer (Plain nullBesideNames)

/-- The member under a key is as it is written, or missing and then the one that stands for a
    missing one. -/
inductive Written {β : Type} (write : β → Json) (ms : List (Text × Json)) (key : String)
    (absent : β) : β → Prop where
  | absent (h : Json.last? key.toList ms = none) : Written write ms key absent absent
  | given {b : β} (h : Json.last? key.toList ms = some (write b)) : Written write ms key absent b

/-- The members of the host are truth values and texts, or missing. -/
structure OwnMembers (ms : List (Text × Json)) (o : HostOptions) : Prop where
  checkVariables : Written Json.bool ms "checkVariables" true o.checkVariables
  properties : Written Json.ofTexts ms "properties" (colorProperties.map String.toList) o.properties
  strictJson : Written Json.bool ms "strictJson" false o.strictJson

section

variable {ms : List (Text × Json)} {o : HostOptions}

theorem member_eq_ok_iff {β : Type} {read : Json → Except Json.ShapeFault β} {write : β → Json}
    (hread : ∀ {j b}, read j = .ok b ↔ j = write b) {key : String} {absent b : β} :
    member read key absent ms = .ok b ↔ Written write ms key absent b := by
  rw [member]
  constructor
  · intro h
    split at h
    · next hlast =>
      obtain rfl := Except.ok.inj h
      exact .absent hlast
    · next j hlast =>
      obtain rfl := hread.mp h
      exact .given hlast
  · intro h
    cases h with
    | absent hlast => rw [hlast]
    | given hlast =>
      rw [hlast]
      exact hread.mpr rfl

theorem ofMembers_eq_ok_iff : ofMembers ms = .ok o ↔
    Layer.ofMembers false (nullBesideNames ms) = .ok o.base ∧ OwnMembers ms o := by
  simp only [ofMembers, Json.bind_eq_ok, Layer.ofMembers_lenient,
    member_eq_ok_iff Json.toTruth_eq_ok_iff, member_eq_ok_iff Json.toTexts_eq_ok_iff]
  constructor
  · rintro ⟨checkVariables, hcheck, properties, hproperties, strictJson, hstrict, base, hbase, hok⟩
    obtain rfl := Except.ok.inj hok
    exact ⟨hbase, hcheck, hproperties, hstrict⟩
  · rintro ⟨hbase, hcheck, hproperties, hstrict⟩
    exact ⟨_, hcheck, _, hproperties, _, hstrict, _, hbase, rfl⟩

end

/-- **A host writes its options as a call does, and its own members beside them.**  The text of
    the host is read if and only if its object is read as the options of a call, with `null` for
    an empty object beside a name, and its own members are truth values and texts or missing; then
    the options are those of the call.  Without such an empty object the same text is read in a
    call; with one it is refused there.  The two readers miss an object in the same texts. -/
theorem reads_as_inline (t : Text) :
    (∀ o, ofJson t = .ok o ↔ ∃ ms, Json.ofText t = .ok (.object ms) ∧
      Layer.ofMembers false (nullBesideNames ms) = .ok o.base ∧ OwnMembers ms o) ∧
    (∀ ms, Json.ofText t = .ok (.object ms) →
      (Plain ms → ∀ o, ofJson t = .ok o ↔ Layer.ofJson t = .ok o.base ∧ OwnMembers ms o) ∧
      (¬ Plain ms → ∀ l, Layer.ofJson t ≠ .ok l)) ∧
    (ofJson t = .error .notAnObject ↔ Layer.ofJson t = .error .notAnObject) := by
  have hhost : ∀ o, ofJson t = .ok o ↔ ∃ ms, Json.ofText t = .ok (.object ms) ∧
      Layer.ofMembers false (nullBesideNames ms) = .ok o.base ∧ OwnMembers ms o := by
    intro o
    simp only [ofJson, OptionsError.read_eq_ok_iff, ofMembers_eq_ok_iff]
  have hinline : ∀ {ms}, Json.ofText t = .ok (.object ms) → ∀ l,
      Layer.ofJson t = .ok l ↔ Layer.ofMembers false ms = .ok l := by
    intro ms ht l
    rw [Layer.ofJson, OptionsError.read_eq_ok_iff]
    simp [ht]
  refine ⟨hhost, fun ms ht => ⟨fun hplain o => ?_, fun hplain l => ?_⟩, ?_⟩
  · rw [hhost, hinline ht, ← Layer.ofMembers_of_plain hplain]
    simp [ht]
  · rw [Ne, hinline ht]
    exact Layer.ofMembers_of_not_plain hplain l
  · rw [ofJson, Layer.ofJson, OptionsError.read_eq_notAnObject_iff,
      OptionsError.read_eq_notAnObject_iff]

/-- An empty object beside the name of a gamut. -/
theorem reads_as_inline_ne :
    let t : Text := "\x7b\"gamut\":\x7b\"p3\":\x7b\x7d\x7d\x7d".toList
    (∃ o, ofJson t = .ok o ∧ o.base.gamut = some .p3) ∧
      Layer.ofJson t = .error (.wrongShape (.unexpected (.object []) .unit)) := by
  with_unfolding_all exact ⟨⟨_, rfl, rfl⟩, rfl⟩

end Css.HostOptions

end EvenChroma
