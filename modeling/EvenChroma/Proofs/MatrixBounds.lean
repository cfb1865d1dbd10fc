/-
  EvenChroma/Proofs/MatrixBounds.lean
  ===================================
  **Linear maps neither grow nor shrink a vector much**, if another one nearly undoes them
  (`Matrix.NearlyInverse`).  A row times a column is close to the exact product, and what the
  exact products of two matrices leave of a vector can be told from the exact numbers behind
  their entries.
-/
import EvenChroma.Color.Vector
import EvenChroma.Proofs.DoubleQuotients

namespace EvenChroma

open Double (value)

/-! ### Triples -/

namespace Triple

/-- Every coordinate is finite and at most `b` in size. -/
structure Bounded (b : ℚ) (t : Triple) : Prop where
  x : Double.Bounded b t.x
  y : Double.Bounded b t.y
  z : Double.Bounded b t.z

theorem Bounded.mono {b c : ℚ} {t : Triple} (h : t.Bounded b) (hbc : b ≤ c) : t.Bounded c :=
  ⟨h.x.mono hbc, h.y.mono hbc, h.z.mono hbc⟩

/-- Bounds carry over from the results of a function to its arguments. -/
theorem Bounded.of_map {f : Float → Float} {b c : ℚ} {t : Triple} (h : (t.map f).Bounded b)
    (hf : ∀ v, Double.Bounded b (f v) → Double.Bounded c v) : t.Bounded c :=
  ⟨hf _ h.x, hf _ h.y, hf _ h.z⟩

theorem Bounded.map {f : Float → Float} {b c : ℚ} {t : Triple} (h : t.Bounded b)
    (hf : ∀ v, Double.Bounded b v → Double.Bounded c (f v)) : (t.map f).Bounded c :=
  ⟨hf _ h.x, hf _ h.y, hf _ h.z⟩

/-- Every coordinate is finite. -/
structure Finite (t : Triple) : Prop where
  x : t.x.isFinite = true
  y : t.y.isFinite = true
  z : t.z.isFinite = true

theorem Finite.of_map {f : Float → Float} {t : Triple} (h : (t.map f).Finite)
    (hf : ∀ v, (f v).isFinite = true → v.isFinite = true) : t.Finite :=
  ⟨hf _ h.x, hf _ h.y, hf _ h.z⟩

/-- The exact product of a row and a column. -/
def dot (r c : Triple) : ℚ := value r.x * value c.x + value r.y * value c.y + value r.z * value c.z

/-- The entries of a row are finite and sum up to at most `s` in size. -/
structure SumsWithin (s : ℚ) (r : Triple) : Prop where
  x : r.x.isFinite = true
  y : r.y.isFinite = true
  z : r.z.isFinite = true
  sum : |value r.x| + |value r.y| + |value r.z| ≤ s

instance (s : ℚ) (r : Triple) : Decidable (r.SumsWithin s) :=
  decidable_of_iff (r.x.isFinite = true ∧ r.y.isFinite = true ∧ r.z.isFinite = true ∧
      |value r.x| + |value r.y| + |value r.z| ≤ s)
    ⟨fun h => ⟨h.1, h.2.1, h.2.2.1, h.2.2.2⟩, fun h => ⟨h.x, h.y, h.z, h.sum⟩⟩

theorem SumsWithin.mono {s t : ℚ} {r : Triple} (h : r.SumsWithin s) (hst : s ≤ t) :
    r.SumsWithin t :=
  ⟨h.x, h.y, h.z, h.sum.trans hst⟩

end Triple

/-! ### Linear maps -/

open Double (Bounded)

theorem abs_sum_le {a b c x y z s t : ℚ} (hs : |a| + |b| + |c| ≤ s) (hx : |x| ≤ t) (hy : |y| ≤ t)
    (hz : |z| ≤ t) : |a * x + b * y + c * z| ≤ s * t := by
  have ht : 0 ≤ t := (abs_nonneg _).trans hx
  calc |a * x + b * y + c * z| ≤ |a * x| + |b * y| + |c * z| := abs_add_three _ _ _
    _ = |a| * |x| + |b| * |y| + |c| * |z| := by rw [abs_mul, abs_mul, abs_mul]
    _ ≤ |a| * t + |b| * t + |c| * t := by gcongr
    _ = (|a| + |b| + |c|) * t := by ring
    _ ≤ s * t := mul_le_mul_of_nonneg_right hs ht

theorem finite_of_dot {r c : Triple} (h : (r.x * c.x + r.y * c.y + r.z * c.z).isFinite = true) :
    c.Finite := by
  obtain ⟨hsum, hthird⟩ := Double.isFinite_of_add h
  obtain ⟨hfirst, hsecond⟩ := Double.isFinite_of_add hsum
  exact ⟨(Double.isFinite_of_mul hfirst).2, (Double.isFinite_of_mul hsecond).2,
    (Double.isFinite_of_mul hthird).2⟩

/-- **A row times a column is close to the exact product**, if it is finite at all. -/
theorem close_dot {r c : Triple} {t : ℚ} (hr : r.SumsWithin 8)
    (h : (r.x * c.x + r.y * c.y + r.z * c.z).isFinite = true) (hx : |value c.x| ≤ t)
    (hy : |value c.y| ≤ t) (hz : |value c.z| ≤ t) :
    |value (r.x * c.x + r.y * c.y + r.z * c.z) - r.dot c| ≤ t / 2 ^ 40 + 1 / 2 ^ 20 := by
  obtain ⟨hsum, hthird⟩ := Double.isFinite_of_add h
  obtain ⟨hfirst, hsecond⟩ := Double.isFinite_of_add hsum
  have ht : 0 ≤ t := (abs_nonneg _).trans hx
  have hentries := hr.sum
  have hproduct : ∀ {a v : Float}, a.isFinite = true → |value a| ≤ 8 → |value v| ≤ t →
      (a * v).isFinite = true → |value (a * v)| ≤ 9 * t + 1 / 2 ^ 30 ∧
        |value (a * v) - value a * value v| ≤ 8 * t / 2 ^ 52 + 1 / 2 ^ 30 := by
    intro a v ha hentry hv hfinite
    have hsize : |value a * value v| ≤ 8 * t := by
      rw [abs_mul]
      exact mul_le_mul hentry hv (abs_nonneg _) (by norm_num)
    have hclose := (Double.approximates_mul ha (Double.isFinite_of_mul hfinite).2).close_of_abs_le
      hfinite hsize
    have htriangle := abs_sub_abs_le_abs_sub (value (a * v)) (value a * value v)
    refine ⟨?_, hclose⟩
    generalize |value (a * v) - value a * value v| = error at *
    norm_num at hclose ⊢
    linarith
  have hnonneg := abs_nonneg (value r.x)
  have hnonneg' := abs_nonneg (value r.y)
  have hnonneg'' := abs_nonneg (value r.z)
  obtain ⟨hsize₁, hclose₁⟩ := hproduct hr.x (by linarith) hx hfirst
  obtain ⟨hsize₂, hclose₂⟩ := hproduct hr.y (by linarith) hy hsecond
  obtain ⟨hsize₃, hclose₃⟩ := hproduct hr.z (by linarith) hz hthird
  have hclose₄ := (Double.approximates_add hfirst hsecond).close_of_abs_le hsum
    ((abs_add_le _ _).trans (add_le_add hsize₁ hsize₂))
  have hsize₄ : |value (r.x * c.x + r.y * c.y)| ≤ 19 * t + 1 / 2 ^ 28 := by
    have hsize := (abs_add_le _ _).trans (add_le_add hsize₁ hsize₂)
    have htriangle := abs_sub_abs_le_abs_sub (value (r.x * c.x + r.y * c.y))
      (value (r.x * c.x) + value (r.y * c.y))
    norm_num at hclose₄ hsize ⊢
    linarith
  have hclose₅ := (Double.approximates_add hsum hthird).close_of_abs_le h
    ((abs_add_le _ _).trans (add_le_add hsize₄ hsize₃))
  rw [Triple.dot]
  rw [abs_le] at hclose₁ hclose₂ hclose₃ hclose₄ hclose₅ ⊢
  norm_num at hclose₁ hclose₂ hclose₃ hclose₄ hclose₅ ⊢
  constructor <;> linarith

theorem bounded_dot {r c : Triple} {s b : ℚ} (hr : r.SumsWithin s) (hs : s ≤ 8) (hc : c.Bounded b)
    (hb : 1 ≤ b) (htop : b ≤ 2 ^ 100) :
    Bounded ((s + 1) * b) (r.x * c.x + r.y * c.y + r.z * c.z) := by
  have hentries := hr.sum
  have hnonneg := abs_nonneg (value r.x)
  have hnonneg' := abs_nonneg (value r.y)
  have hnonneg'' := abs_nonneg (value r.z)
  have hproduct : ∀ {a v : Float}, a.isFinite = true → |value a| ≤ 8 → Bounded b v →
      Bounded (9 * b) (a * v) := by
    intro a v ha hentry hv
    have hentry' : Bounded 8 a := ⟨ha, hentry⟩
    exact hentry'.mul hv (by norm_num at htop ⊢; linarith) (by norm_num; linarith)
  have hfirst := hproduct hr.x (by linarith) hc.x
  have hsecond := hproduct hr.y (by linarith) hc.y
  have hthird := hproduct hr.z (by linarith) hc.z
  have hfinite := ((hfirst.add hsecond (c := 19 * b) (by norm_num at htop ⊢; linarith)
    (by norm_num; linarith)).add hthird (c := 29 * b) (by norm_num at htop ⊢; linarith)
    (by norm_num; linarith)).1
  have hclose := close_dot (hr.mono hs) hfinite hc.x.2 hc.y.2 hc.z.2
  have hexact : |r.dot c| ≤ s * b := abs_sum_le hentries hc.x.2 hc.y.2 hc.z.2
  have htriangle := abs_sub_abs_le_abs_sub (value (r.x * c.x + r.y * c.y + r.z * c.z)) (r.dot c)
  refine ⟨hfinite, ?_⟩
  rw [add_mul, one_mul]
  norm_num at hclose
  linarith

namespace Matrix

/-- The entries of every row sum up to at most `s` in size. -/
structure RowsWithin (s : ℚ) (m : Matrix) : Prop where
  row₁ : m.row₁.SumsWithin s
  row₂ : m.row₂.SumsWithin s
  row₃ : m.row₃.SumsWithin s

instance (s : ℚ) (m : Matrix) : Decidable (m.RowsWithin s) :=
  decidable_of_iff (m.row₁.SumsWithin s ∧ m.row₂.SumsWithin s ∧ m.row₃.SumsWithin s)
    ⟨fun h => ⟨h.1, h.2.1, h.2.2⟩, fun h => ⟨h.row₁, h.row₂, h.row₃⟩⟩

theorem bounded_apply {m : Matrix} {v : Triple} {s b : ℚ} (hm : m.RowsWithin s) (hs : s ≤ 8)
    (hv : v.Bounded b) (hb : 1 ≤ b) (htop : b ≤ 2 ^ 100) : (m.apply v).Bounded ((s + 1) * b) :=
  ⟨bounded_dot hm.row₁ hs hv hb htop, bounded_dot hm.row₂ hs hv hb htop,
    bounded_dot hm.row₃ hs hv hb htop⟩

theorem RowsWithin.mono {m : Matrix} {s t : ℚ} (h : m.RowsWithin s) (hst : s ≤ t) :
    m.RowsWithin t :=
  ⟨h.row₁.mono hst, h.row₂.mono hst, h.row₃.mono hst⟩

def column₁ (m : Matrix) : Triple := ⟨m.row₁.x, m.row₂.x, m.row₃.x⟩

def column₂ (m : Matrix) : Triple := ⟨m.row₁.y, m.row₂.y, m.row₃.y⟩

def column₃ (m : Matrix) : Triple := ⟨m.row₁.z, m.row₂.z, m.row₃.z⟩

/-- The exact product of the matrices is close to the identity. -/
structure Undoes (n m : Matrix) : Prop where
  row₁ : |n.row₁.dot m.column₁ - 1| + |n.row₁.dot m.column₂| + |n.row₁.dot m.column₃| ≤ 1 / 4
  row₂ : |n.row₂.dot m.column₁| + |n.row₂.dot m.column₂ - 1| + |n.row₂.dot m.column₃| ≤ 1 / 4
  row₃ : |n.row₃.dot m.column₁| + |n.row₃.dot m.column₂| + |n.row₃.dot m.column₃ - 1| ≤ 1 / 4

instance (n m : Matrix) : Decidable (n.Undoes m) :=
  decidable_of_iff (
      |n.row₁.dot m.column₁ - 1| + |n.row₁.dot m.column₂| + |n.row₁.dot m.column₃| ≤ 1 / 4 ∧
      |n.row₂.dot m.column₁| + |n.row₂.dot m.column₂ - 1| + |n.row₂.dot m.column₃| ≤ 1 / 4 ∧
      |n.row₃.dot m.column₁| + |n.row₃.dot m.column₂| + |n.row₃.dot m.column₃ - 1| ≤ 1 / 4)
    ⟨fun h => ⟨h.1, h.2.1, h.2.2⟩, fun h => ⟨h.row₁, h.row₂, h.row₃⟩⟩

/-- The matrix has a nearly inverse one, and both have entries of moderate size. -/
structure NearlyInverse (s t : ℚ) (m n : Matrix) : Prop where
  forth : m.RowsWithin s
  back : n.RowsWithin t
  undoes : n.Undoes m

instance (s t : ℚ) (m n : Matrix) : Decidable (NearlyInverse s t m n) :=
  decidable_of_iff (m.RowsWithin s ∧ n.RowsWithin t ∧ n.Undoes m)
    ⟨fun h => ⟨h.1, h.2.1, h.2.2⟩, fun h => ⟨h.forth, h.back, h.undoes⟩⟩

/-- **A vector is bounded if its image is**, by a nearly inverse matrix. -/
theorem NearlyInverse.bounded {m n : Matrix} {v : Triple} {s t b : ℚ} (h : NearlyInverse s t m n)
    (hs : s ≤ 8) (hpos : 0 < t) (ht : t ≤ 8) (hb : 1 ≤ b) (hw : (m.apply v).Bounded b) :
    v.Bounded (2 * t * b) := by
  have hforth := h.forth.mono hs
  obtain ⟨size, hlargest⟩ : ∃ size, size = max |value v.x| (max |value v.y| |value v.z|) :=
    ⟨_, rfl⟩
  have hx : |value v.x| ≤ size := hlargest ▸ le_max_left _ _
  have hy : |value v.y| ≤ size := hlargest ▸ (le_max_left _ _).trans (le_max_right _ _)
  have hz : |value v.z| ≤ size := hlargest ▸ (le_max_right _ _).trans (le_max_right _ _)
  have hnonneg : 0 ≤ size := (abs_nonneg _).trans hx
  -- the exact image is bounded
  have himage : ∀ {r : Triple}, r.SumsWithin 8 → Bounded b (r.x * v.x + r.y * v.y + r.z * v.z) →
      |r.dot v| ≤ b + (size / 2 ^ 40 + 1 / 2 ^ 20) := by
    intro r hr hbound
    have hclose := close_dot hr hbound.1 hx hy hz
    have htriangle := abs_sub_abs_le_abs_sub (r.dot v)
      (value (r.x * v.x + r.y * v.y + r.z * v.z))
    rw [abs_sub_comm] at htriangle
    linarith [hbound.2]
  have himage₁ := himage hforth.row₁ hw.x
  have himage₂ := himage hforth.row₂ hw.y
  have himage₃ := himage hforth.row₃ hw.z
  -- a coordinate is what a row of the inverse makes of the image, but for the errors
  have hback : ∀ {r : Triple} {e₁ e₂ e₃ q : ℚ}, r.SumsWithin t → |e₁| + |e₂| + |e₃| ≤ 1 / 4 →
      q = value r.x * m.row₁.dot v + value r.y * m.row₂.dot v + value r.z * m.row₃.dot v -
        (e₁ * value v.x + e₂ * value v.y + e₃ * value v.z) →
      |q| ≤ 5 / 4 * (t * b) + 3 / 8 * size := by
    intro r e₁ e₂ e₃ q hr he hq
    have hrow := abs_sum_le hr.sum himage₁ himage₂ himage₃
    have herror := abs_sum_le he hx hy hz
    have htriangle := (abs_sub _ _).trans (add_le_add hrow herror)
    rw [← hq, mul_add, mul_add] at htriangle
    have hproduct : t * (size / 2 ^ 40) ≤ 8 * (size / 2 ^ 40) :=
      mul_le_mul_of_nonneg_right ht (div_nonneg hnonneg (by positivity))
    have hone : t ≤ t * b := le_mul_of_one_le_right hpos.le hb
    norm_num at htriangle hproduct
    linarith
  have hback₁ : |value v.x| ≤ 5 / 4 * (t * b) + 3 / 8 * size := by
    refine hback h.back.row₁ h.undoes.row₁ ?_
    simp only [Triple.dot, column₁, column₂, column₃]
    ring
  have hback₂ : |value v.y| ≤ 5 / 4 * (t * b) + 3 / 8 * size := by
    refine hback h.back.row₂ h.undoes.row₂ ?_
    simp only [Triple.dot, column₁, column₂, column₃]
    ring
  have hback₃ : |value v.z| ≤ 5 / 4 * (t * b) + 3 / 8 * size := by
    refine hback h.back.row₃ h.undoes.row₃ ?_
    simp only [Triple.dot, column₁, column₂, column₃]
    ring
  have hsize : size ≤ 2 * t * b := by
    have hle : size ≤ 5 / 4 * (t * b) + 3 / 8 * size :=
      hlargest.trans_le (max_le hback₁ (max_le hback₂ hback₃))
    linarith
  have hfinite := finite_of_dot hw.x.1
  exact ⟨⟨hfinite.x, hx.trans hsize⟩, ⟨hfinite.y, hy.trans hsize⟩, ⟨hfinite.z, hz.trans hsize⟩⟩

end Matrix

end EvenChroma
