/-
  EvenChroma/Proofs/Literals.lean
  ===============================
  **A literal before a blank is one token.**  A number ends where neither a digit nor a
  point comes next, a unit and `none` end where no name goes on; so the arguments of a call
  that are written one blank apart are read as they were written, each with its value.
-/
import EvenChroma.Proofs.DeclarationValues
import EvenChroma.Proofs.TokenNesting

namespace EvenChroma.Css

/-! ### How values are written -/

/-- Digits, with a point before, among or behind them, or with none. -/
inductive UnsignedText : Text → Prop where
  | whole {digits : Text} (hdigits : ∀ c ∈ digits, c.isDigit = true) (hne : digits ≠ []) :
    UnsignedText digits
  | point {digits fraction : Text} (hdigits : ∀ c ∈ digits, c.isDigit = true)
    (hfraction : ∀ c ∈ fraction, c.isDigit = true) (hne : digits ++ fraction ≠ []) :
    UnsignedText (digits ++ '.' :: fraction)

/-- A number, perhaps with a sign. -/
inductive NumberText : Text → Prop where
  | unsigned {w : Text} (hw : UnsignedText w) : NumberText w
  | signed {sign : Char} {w : Text} (hsign : isSign sign = true) (hw : UnsignedText w) :
    NumberText (sign :: w)

/-- A lightness or a chroma as it is written, and the value of it. -/
inductive AmountText : Text → Float → Prop where
  | number {w : Text} (hw : NumberText w) : AmountText w (numberValue w)
  | percentage {w : Text} (hw : NumberText w) : AmountText (w ++ ['%']) (numberValue w / 100.0)
  | none {w : Text} (hw : Text.toLower w = "none".toList) : AmountText w 0.0

/-- A hue as it is written, and the degrees of it. -/
inductive HueText : Text → Float → Prop where
  | number {w : Text} (hw : NumberText w) : HueText w (numberValue w)
  | angle {w unit : Text} {k : Float} (hw : NumberText w) (hunit : AngleUnit unit k) :
    HueText (w ++ unit) (numberValue w * k)
  | none {w : Text} (hw : Text.toLower w = "none".toList) : HueText w 0.0

/-! ### Kinds of characters -/

theorem ne_of_kind {p : Char → Bool} {c d : Char} (hc : p c = true) (hd : p d = false) :
    c ≠ d := by
  rintro rfl
  rw [hd] at hc
  cases hc

theorem not_isBlank_of_kind {p : Char → Bool}
    (hp : ∀ n ∈ blankCodes, p (Char.ofNat n) = false) {c : Char} (hc : p c = true) :
    ¬ Text.isBlank c = true := by
  intro hblank
  rw [eq_false_of_isBlank hp hblank] at hc
  cases hc

theorem isNumeric_of_isAlpha {c : Char} (hc : c.isAlpha = true) : isNumeric c = false := by
  have hdigit : c.isDigit = false := by
    rw [← Bool.not_eq_true]
    intro hdigit
    have hle : c.val ≤ '9'.val := of_decide_eq_true (Bool.and_eq_true_iff.mp hdigit).2
    rcases Bool.or_eq_true_iff.mp hc with hupper | hlower
    · have hge : 'A'.val ≤ c.val := (of_decide_eq_true hupper).1
      exact absurd (UInt32.le_trans hge hle) (by decide)
    · have hge : 'a'.val ≤ c.val := of_decide_eq_true (Bool.and_eq_true_iff.mp hlower).1
      exact absurd (UInt32.le_trans hge hle) (by decide)
  have hother : ∀ d : Char, d.isAlpha = false → c ≠ d := fun _ => ne_of_kind hc
  simp [isNumeric, isSign, hdigit, hother '.' (by decide), hother '+' (by decide),
    hother '-' (by decide)]

theorem isAlpha_of_toLower {c : Char} (h : c.toLower.isAlpha = true) : c.isAlpha = true := by
  unfold Char.toLower at h
  split at h
  · next hupper =>
    have hisUpper : c.isUpper = true := decide_eq_true hupper
    exact Bool.or_eq_true_iff.mpr (.inl hisUpper)
  · exact h

/-! ### Numbers -/

/-- Neither a digit nor a point comes next. -/
def EndsNumber (t : Text) : Prop := ∀ c ∈ t.head?, c.isDigit = false ∧ c ≠ '.'

/-- The digits do not go on: no digit comes next, and a point only if they have one already. -/
def EndsDigits (w t : Text) : Prop := ∀ c ∈ t.head?, c.isDigit = false ∧ (c = '.' → '.' ∈ w)

theorem EndsNumber.endsDigits {t : Text} (h : EndsNumber t) (w : Text) : EndsDigits w t :=
  fun c hc => ⟨(h c hc).1, fun hpoint => ((h c hc).2 hpoint).elim⟩

theorem takeWhile_isDigit_append {digits r : Text} (hdigits : ∀ c ∈ digits, c.isDigit = true)
    (hr : ∀ c ∈ r.head?, c.isDigit = false) :
    (digits ++ r).takeWhile Char.isDigit = digits ∧ (digits ++ r).dropWhile Char.isDigit = r := by
  rw [List.takeWhile_append_of_pos hdigits, List.dropWhile_append_of_pos hdigits]
  cases r with
  | nil => simp
  | cons c r => simp [hr c rfl]

theorem UnsignedText.splitUnsigned_append {w r : Text} (h : UnsignedText w) (hr : EndsDigits w r) :
    splitUnsigned (w ++ r) = (w, r) := by
  cases h with
  | whole hdigits hne =>
    obtain ⟨htake, hdrop⟩ := takeWhile_isDigit_append hdigits fun c hc => (hr c hc).1
    rw [splitUnsigned, htake, hdrop]
    split
    · next r =>
      cases hdigits '.' ((hr '.' rfl).2 rfl)
    · rfl
  | @point digits fraction hdigits hfraction hne =>
    obtain ⟨htake, hdrop⟩ := takeWhile_isDigit_append (r := '.' :: (fraction ++ r)) hdigits
      (by simp)
    obtain ⟨htake', hdrop'⟩ := takeWhile_isDigit_append hfraction fun c hc => (hr c hc).1
    rw [List.append_assoc, List.cons_append, splitUnsigned, htake, hdrop]
    change (digits ++ '.' :: (fraction ++ r).takeWhile Char.isDigit,
      (fraction ++ r).dropWhile Char.isDigit) = _
    rw [htake', hdrop']

theorem UnsignedText.startsUnsigned_append {w : Text} (h : UnsignedText w) (r : Text) :
    startsUnsigned (w ++ r) = true := by
  have hdigit : ∀ {digits r : Text}, (∀ c ∈ digits, c.isDigit = true) → digits ≠ [] →
      startsUnsigned (digits ++ r) = true := by
    intro digits r hdigits hne
    cases digits with
    | nil => exact (hne rfl).elim
    | cons c digits =>
      have hc := hdigits c List.mem_cons_self
      have hpoint : c ≠ '.' := ne_of_kind hc rfl
      simpa [startsUnsigned, hpoint, begins] using hc
  cases h with
  | whole hdigits hne => exact hdigit hdigits hne
  | @point digits fraction hdigits hfraction hne =>
    rw [List.append_assoc]
    cases digits with
    | nil =>
      cases fraction with
      | nil => exact (hne rfl).elim
      | cons c fraction => exact hfraction c List.mem_cons_self
    | cons c digits => exact hdigit hdigits (by simp)

theorem startsNumber_of_startsUnsigned {t : Text} (h : startsUnsigned t = true) :
    startsNumber t = true ∧ splitNumber t = splitUnsigned t := by
  cases t with
  | nil => cases h
  | cons c t =>
    have hsign : isSign c = false := by
      rw [← Bool.not_eq_true]
      intro hsign
      simp only [isSign, Bool.or_eq_true, decide_eq_true_eq] at hsign
      rcases hsign with rfl | rfl
      · cases h
      · cases h
    constructor
    · rwa [startsNumber, hsign]
    · rw [splitNumber, hsign, if_neg Bool.false_ne_true]

theorem NumberText.split_append {w r : Text} (h : NumberText w) (hr : EndsDigits w r) :
    startsNumber (w ++ r) = true ∧ splitNumber (w ++ r) = (w, r) := by
  cases h with
  | unsigned hw =>
    obtain ⟨hstarts, hsplit⟩ := startsNumber_of_startsUnsigned (hw.startsUnsigned_append r)
    exact ⟨hstarts, hsplit.trans (hw.splitUnsigned_append hr)⟩
  | @signed sign w hsign hw =>
    have hends : EndsDigits w r := by
      refine fun c hc => ⟨(hr c hc).1, fun hpoint => ?_⟩
      refine List.mem_of_ne_of_mem ?_ ((hr c hc).2 hpoint)
      rintro rfl
      cases hsign
    rw [List.cons_append, startsNumber, splitNumber, if_pos hsign, if_pos hsign,
      hw.splitUnsigned_append hends]
    exact ⟨hw.startsUnsigned_append r, rfl⟩

/-! ### Reading tokens off a text -/

/-- A token that is no parenthesis and no quoted text without an end. -/
structure TokenKind.Level (kind : TokenKind) : Prop where
  ne_openParen : kind ≠ .openParen
  ne_closeParen : kind ≠ .closeParen
  ne_unterminated : ∀ quote value, kind ≠ .quoted quote value false

/-- The text begins with tokens of these kinds, and `rest` is what is left behind them. -/
inductive LexesTo : Text → List TokenKind → (rest : Text) → Prop where
  | nil (t : Text) : LexesTo t [] t
  | cons {c : Char} {t later rest : Text} {kind : TokenKind} {kinds : List TokenKind}
    (hfirst : firstToken c t = (kind, later)) (hlater : LexesTo later kinds rest) :
    LexesTo (c :: t) (kind :: kinds) rest

namespace LexesTo

variable {t later rest : Text} {kind : TokenKind} {kinds kinds' : List TokenKind}

theorem append (h : LexesTo t kinds later) (hlater : LexesTo later kinds' rest) :
    LexesTo t (kinds ++ kinds') rest := by
  induction h with
  | nil t => exact hlater
  | cons hfirst _ ih => exact cons hfirst (ih hlater)

theorem kind_tokensFrom {fuel start : Nat} (h : LexesTo t kinds []) (hfuel : t.length ≤ fuel) :
    (tokensFrom fuel start t).map Token.kind = kinds := by
  generalize hend : ([] : Text) = rest at h
  induction h generalizing fuel start with
  | nil t =>
    subst hend
    cases fuel with
    | zero => rfl
    | succ fuel => rfl
  | @cons c t later rest kind kinds hfirst hlater ih =>
    cases fuel with
    | zero => cases Nat.not_succ_le_zero _ hfuel
    | succ fuel =>
      obtain ⟨w, hw, htext, -, -⟩ := takes_firstToken c t
      rw [hfirst] at htext
      -- the token takes a character at least, so the fuel lasts
      have hlength : later.length ≤ fuel := by
        have hsplit := congrArg List.length htext
        have hpos := List.length_pos_iff.mpr hw
        rw [List.length_append] at hsplit
        simp only [List.length_cons] at hsplit hfuel
        omega
      rw [tokensFrom, hfirst, List.map_cons, ih hlength hend]

/-- The search for a closing parenthesis passes over level tokens. -/
theorem exists_scan (h : LexesTo t kinds rest) (hkinds : ∀ kind ∈ kinds, kind.Level) :
    ∃ w, t = w ++ rest ∧ ∀ depth, scan .outside depth w = some (.outside, depth) := by
  induction h with
  | nil t => exact ⟨[], rfl, fun _ => rfl⟩
  | @cons c t later rest kind kinds hfirst hlater ih =>
    obtain ⟨⟨hopen, hclose, hquoted⟩, hkinds⟩ := List.forall_mem_cons.mp hkinds
    obtain ⟨w', rfl, hscan'⟩ := ih hkinds
    obtain ⟨w, -, htext, hscans, -⟩ := takes_firstToken c t
    rw [hfirst] at htext hscans
    refine ⟨w ++ w', by rw [htext, List.append_assoc], fun depth => ?_⟩
    have hscan : scan .outside depth w = some (.outside, depth) := by
      cases hscans with
      | openParen => exact (hopen rfl).elim
      | closeParen => exact (hclose rfl).elim
      | level _ _ _ hscan => exact hscan depth
      | unterminated hq hscan => exact (hquoted _ _ rfl).elim
    rw [scan_append, hscan]
    exact hscan' depth

/-- A blank before a token that is none. -/
theorem blank (h : LexesTo t (kind :: kinds) rest) (hkind : kind ≠ .blank) :
    LexesTo (' ' :: t) (.blank :: kind :: kinds) rest := by
  refine cons ?_ h
  have hfirst : firstToken ' ' t = (.blank, t.dropWhile Text.isBlank) := rfl
  cases h with
  | @cons c t later _ _ _ hread hlater =>
    have hc : ¬ Text.isBlank c = true := by
      intro hblank
      rw [firstToken, if_pos hblank] at hread
      exact hkind (congrArg Prod.fst hread).symm
    rw [hfirst, List.dropWhile_cons_of_neg hc]

theorem closeParen : LexesTo [')'] [.closeParen] [] := cons rfl (nil [])

end LexesTo

/-! ### Literals -/

theorem Amount.level {kind : TokenKind} {x : Float} (h : Amount kind x) : kind.Level := by
  cases h with
  | number => exact ⟨nofun, nofun, nofun⟩
  | percentage => exact ⟨nofun, nofun, nofun⟩
  | none => exact ⟨nofun, nofun, nofun⟩

theorem Angle.level {kind : TokenKind} {x : Float} (h : Angle kind x) : kind.Level := by
  cases h with
  | number => exact ⟨nofun, nofun, nofun⟩
  | dimension => exact ⟨nofun, nofun, nofun⟩
  | none => exact ⟨nofun, nofun, nofun⟩

theorem isNumeric_of_startsNumber {c : Char} {t : Text} (h : startsNumber (c :: t) = true) :
    isNumeric c = true := by
  have hne := splitNumber_ne_nil h
  have happend := splitNumber_append (c :: t)
  apply mem_splitNumber (t := c :: t)
  cases hdigits : (splitNumber (c :: t)).1 with
  | nil => exact (hne hdigits).elim
  | cons d digits =>
    rw [hdigits, List.cons_append] at happend
    rw [(List.cons.inj happend).1]
    exact List.mem_cons_self

/-- The token of a number with what follows it directly. -/
def numberToken (x : Float) : Text → TokenKind × Text
  | '%' :: r => (.percentage x, r)
  | r => if startsName r then (.dimension x (splitName r).1, (splitName r).2) else (.number x, r)

theorem NumberText.firstToken_eq {w r t : Text} {c : Char} (h : NumberText w)
    (hr : EndsDigits w r) (ht : w ++ r = c :: t) :
    firstToken c t = numberToken (numberValue w) r := by
  obtain ⟨hstarts, hsplit⟩ := h.split_append hr
  rw [ht] at hstarts hsplit
  have hblank := not_isBlank_of_kind (by decide +kernel) (isNumeric_of_startsNumber hstarts)
  rw [firstToken, if_neg hblank, if_pos hstarts, hsplit]
  rfl

theorem NumberText.ne_nil {w : Text} (h : NumberText w) : w ≠ [] := by
  rintro rfl
  cases (h.split_append (r := []) nofun).1

theorem NumberText.lexesTo {w r rest : Text} {kind : TokenKind} (h : NumberText w)
    (hr : EndsDigits w r) (hkind : numberToken (numberValue w) r = (kind, rest)) :
    LexesTo (w ++ r) [kind] rest := by
  obtain ⟨c, v, rfl⟩ := List.exists_cons_of_ne_nil h.ne_nil
  exact .cons ((h.firstToken_eq hr rfl).trans hkind) (.nil rest)

/-- The text is not empty and has letters only. -/
def Letters (w : Text) : Prop := w ≠ [] ∧ ∀ c ∈ w, c.isAlpha = true

instance (w : Text) : Decidable (Letters w) :=
  @instDecidableAnd _ _ inferInstance (List.decidableBAll (p := (·.isAlpha = true)) w)

theorem letters_of_toLower {w s : Text} (h : Text.toLower w = s) (hs : Letters s) : Letters w := by
  obtain ⟨hne, hletters⟩ := hs
  subst h
  refine ⟨by simpa [Text.toLower] using hne, fun c hc => ?_⟩
  exact isAlpha_of_toLower (hletters _ (List.mem_map_of_mem hc))

theorem AngleUnit.letters {unit : Text} {k : Float} (h : AngleUnit unit k) : Letters unit := by
  cases h with
  | deg hunit => exact letters_of_toLower hunit (by decide)
  | grad hunit => exact letters_of_toLower hunit (by decide)
  | rad hunit => exact letters_of_toLower hunit (by decide)
  | turn hunit => exact letters_of_toLower hunit (by decide)

/-- No name goes on here. -/
def EndsName (t : Text) : Prop := ∀ c ∈ t.head?, isNameChar c = false ∧ c ≠ '.'

theorem Letters.splitName_append {w r : Text} (h : Letters w) (hr : EndsName r) :
    splitName (w ++ r) = (w, r) := by
  obtain ⟨-, hletters⟩ := h
  induction w with
  | nil =>
    cases r with
    | nil => rfl
    | cons c r =>
      obtain ⟨hc, hpoint⟩ := hr c rfl
      simp [splitName, hc, hpoint]
  | cons c w ih =>
    obtain ⟨hc, hletters⟩ := List.forall_mem_cons.mp hletters
    have hname : isNameChar c = true := by simp [isNameChar, Char.isAlphanum, hc]
    rw [List.cons_append, splitName, hname, Bool.true_or, if_pos rfl, ih hletters]

theorem startsName_of_isAlpha {c : Char} (hc : c.isAlpha = true) (t : Text) :
    startsName (c :: t) = true := by
  have hminus : c ≠ '-' := ne_of_kind hc rfl
  simp [startsName, hminus, begins, isNameStart, hc]

theorem Letters.lexesTo {w r : Text} (h : Letters w) (hr : EndsName r) :
    LexesTo (w ++ r) [.ident w] r := by
  have hsplit := h.splitName_append hr
  obtain ⟨hne, hletters⟩ := h
  cases w with
  | nil => exact (hne rfl).elim
  | cons c w =>
    have hc := hletters c List.mem_cons_self
    have hblank := not_isBlank_of_kind (p := Char.isAlpha) (by decide +kernel) hc
    have hnumber : ¬ startsNumber (c :: (w ++ r)) = true := by
      intro hnumber
      have hnumeric := isNumeric_of_startsNumber hnumber
      rw [isNumeric_of_isAlpha hc] at hnumeric
      cases hnumeric
    rw [List.cons_append] at hsplit ⊢
    refine .cons ?_ (.nil r)
    rw [firstToken, if_neg hblank, if_neg hnumber, if_pos (startsName_of_isAlpha hc _), hsplit]

theorem endsName_blank (r : Text) : EndsName (' ' :: r) := by
  rintro c ⟨⟩
  decide

theorem endsNumber_of_isNumeric {c : Char} (hc : isNumeric c = false) (r : Text) :
    EndsNumber (c :: r) := by
  rintro d ⟨⟩
  simp only [isNumeric, Bool.or_eq_false_iff, decide_eq_false_iff_not] at hc
  exact hc.1

theorem Letters.numberToken_append {unit : Text} (h : Letters unit) (x : Float) (r : Text) :
    EndsNumber (unit ++ ' ' :: r) ∧
      numberToken x (unit ++ ' ' :: r) = (.dimension x unit, ' ' :: r) := by
  have hsplit := h.splitName_append (endsName_blank r)
  obtain ⟨hne, hletters⟩ := h
  cases unit with
  | nil => exact (hne rfl).elim
  | cons c unit =>
    have hc := hletters c List.mem_cons_self
    have hpercent : c ≠ '%' := ne_of_kind hc rfl
    rw [List.cons_append] at hsplit ⊢
    refine ⟨endsNumber_of_isNumeric (isNumeric_of_isAlpha hc) _, ?_⟩
    rw [numberToken, if_pos (startsName_of_isAlpha hc _), hsplit]
    rintro t ⟨⟩
    exact hpercent rfl

/-- A lightness or a chroma before a blank. -/
theorem AmountText.exists_lexesTo {w : Text} {x : Float} (h : AmountText w x) (r : Text) :
    ∃ kind, Amount kind x ∧ LexesTo (w ++ ' ' :: r) [kind] (' ' :: r) := by
  cases h with
  | number hw =>
    exact ⟨_, .number _, hw.lexesTo ((endsNumber_of_isNumeric (by decide) r).endsDigits _) rfl⟩
  | percentage hw =>
    have hends := endsNumber_of_isNumeric (c := '%') (by decide) (' ' :: r)
    rw [List.append_assoc]
    exact ⟨_, .percentage _, hw.lexesTo (hends.endsDigits _) rfl⟩
  | none hw =>
    exact ⟨_, .none hw, (letters_of_toLower hw (by decide)).lexesTo (endsName_blank r)⟩

/-- A hue before a blank. -/
theorem HueText.exists_lexesTo {w : Text} {x : Float} (h : HueText w x) (r : Text) :
    ∃ kind, Angle kind x ∧ LexesTo (w ++ ' ' :: r) [kind] (' ' :: r) := by
  cases h with
  | number hw =>
    exact ⟨_, .number _, hw.lexesTo ((endsNumber_of_isNumeric (by decide) r).endsDigits _) rfl⟩
  | angle hw hunit =>
    obtain ⟨hends, htoken⟩ := hunit.letters.numberToken_append _ r
    rw [List.append_assoc]
    exact ⟨_, .dimension _ hunit, hw.lexesTo (hends.endsDigits _) htoken⟩
  | none hw =>
    exact ⟨_, .none hw, (letters_of_toLower hw (by decide)).lexesTo (endsName_blank r)⟩

end EvenChroma.Css
