import Mathlib
import JvmLift.Proofs.Values
import JvmLift.Source.Simplify

/-!
# Simplified expressions

Simplification keeps the value of an expression: a folded literal is what the operator gives on its operands, and an
operand that is dropped did not matter. It also keeps the type of an integer expression. An expression without a value
may get one, since an operand that is dropped may be the one that divides by zero.
-/

namespace JvmLift.Source

/-! ### Operators on words -/

namespace BinOp

variable {w : Nat}

lemma toInt_eq_zero_iff {b : BitVec w} : b.toInt = 0 ↔ b = 0 := by
  constructor
  · intro h
    exact BitVec.toInt_inj.mp (h.trans BitVec.toInt_zero.symm)
  · rintro rfl
    exact BitVec.toInt_zero

lemma onWords?_eq (op : BinOp) (a b : BitVec w) : op.onWords? a b =
    match op with
    | add => some (a + b)
    | sub => some (a - b)
    | mul => some (a * b)
    | div => if b = 0 then none else some (a.sdiv b)
    | rem => if b = 0 then none else some (a.srem b)
    | bitAnd => some (a &&& b)
    | bitOr => some (a ||| b)
    | bitXor => some (a ^^^ b)
    | _ => none := by
  cases op with
  | add => simp [onWords?, BitVec.ofInt_add]
  | sub => simp [onWords?, Int.sub_eq_add_neg, BitVec.ofInt_add, BitVec.ofInt_neg, BitVec.sub_eq_add_neg]
  | mul => simp [onWords?, BitVec.ofInt_mul]
  | div =>
    have hquotient : BitVec.ofInt w (a.toInt.tdiv b.toInt) = a.sdiv b := by
      rw [← BitVec.toInt_inj, BitVec.toInt_ofInt, BitVec.toInt_sdiv]
    simp [onWords?, toInt_eq_zero_iff, hquotient]
  | rem =>
    have hrest : BitVec.ofInt w (a.toInt.tmod b.toInt) = a.srem b := by
      rw [← BitVec.toInt_srem, BitVec.ofInt_toInt]
    simp [onWords?, toInt_eq_zero_iff, hrest]
  | _ => rfl

lemma ofInt_two_pow (k : Nat) : BitVec.ofInt w (2 ^ k) = BitVec.twoPow w k := by
  apply BitVec.eq_of_toNat_eq
  rw [BitVec.toNat_twoPow, BitVec.toNat_ofInt]
  norm_cast

lemma shift?_eq (op : BinOp) (a : BitVec w) (distance : BitVec 32) : op.shift? a distance =
    match op with
    | shl => some (a <<< (distance.toNat % w))
    | shr => some (a.sshiftRight (distance.toNat % w))
    | ushr => some (a >>> (distance.toNat % w))
    | _ => none := by
  cases op with
  | shl =>
    simp only [shift?, Option.some.injEq]
    rw [BitVec.ofInt_mul, BitVec.ofInt_toInt, ofInt_two_pow, BitVec.shiftLeft_eq_mul_twoPow]
  | shr =>
    have hquotient : (a.sshiftRight (distance.toNat % w)).toInt = a.toInt / 2 ^ (distance.toNat % w) := by
      rw [BitVec.toInt_sshiftRight, Int.shiftRight_eq_div_pow]
      norm_cast
    simp only [shift?, Option.some.injEq]
    rw [← hquotient, BitVec.ofInt_toInt]
  | ushr =>
    simp only [shift?, Option.some.injEq]
    apply BitVec.eq_of_toNat_eq
    rw [BitVec.toNat_ushiftRight, Nat.shiftRight_eq_div_pow, BitVec.toNat_ofNat]
    exact Nat.mod_eq_of_lt ((Nat.div_le_self _ _).trans_lt a.isLt)
  | _ => rfl

/-! ### Folded literals -/

/-- The remainder of an integer by a divisor of the modulus is that of its word. -/
lemma toNat_smod_of_dvd {v : Nat} (x y : BitVec v) (hdvd : y.toNat ∣ 2 ^ v) (hpos : 0 < y.toNat)
    (hlt : 2 * y.toNat < 2 ^ v) : (x.smod y).toNat = x.toNat % y.toNat := by
  have hy : y.toInt = y.toNat := BitVec.toInt_eq_toNat_of_lt hlt
  have hx : x.toInt % y.toNat = (x.toNat % y.toNat : Nat) := by
    have hdvd' : (y.toNat : Int) ∣ ((2 ^ v : Nat) : Int) := Int.natCast_dvd_natCast.mpr hdvd
    rw [BitVec.toInt_eq_toNat_bmod, ← Int.emod_emod_of_dvd _ hdvd', Int.bmod_emod, Int.emod_emod_of_dvd _ hdvd']
    rfl
  have hr : (x.smod y).toInt = (x.toNat % y.toNat : Nat) := by
    rw [BitVec.toInt_smod, hy, Int.fmod_eq_emod_of_nonneg _ (by omega), hx]
  have hsmall := Nat.mod_lt x.toNat hpos
  have hbound := (x.smod y).isLt
  rw [BitVec.toInt_eq_toNat_cond] at hr
  split at hr <;> omega

lemma toBitVec_foldInt? (op : BinOp) (a b : Int32) : (op.foldInt? a b).map Int32.toBitVec =
    (op.onWords? a.toBitVec b.toBitVec).or (op.shift? a.toBitVec b.toBitVec) := by
  have hzero : b.toBitVec = 0 ↔ b = 0 := Int32.toBitVec_inj (b := 0)
  have hplaces : (b.toBitVec.smod 32#32).toNat = b.toBitVec.toNat % 32 :=
    toNat_smod_of_dvd _ _ (by decide) (by decide) (by decide)
  rw [onWords?_eq, shift?_eq]
  cases op with
  | div | rem =>
    simp only [foldInt?, hzero]
    split <;> simp [*]
  | shl => simp [foldInt?, hplaces]
  | shr => simp [foldInt?, hplaces, BitVec.sshiftRight']
  | _ => simp [foldInt?]

lemma toBitVec_foldLong? (op : BinOp) (a b : Int64) :
    (op.foldLong? a b).map Int64.toBitVec = op.onWords? a.toBitVec b.toBitVec := by
  have hzero : b.toBitVec = 0 ↔ b = 0 := Int64.toBitVec_inj (b := 0)
  rw [onWords?_eq]
  cases op with
  | div | rem =>
    simp only [foldLong?, hzero]
    split <;> simp [*]
  | _ => simp [foldLong?]

lemma toBitVec_foldLongShift? (op : BinOp) (a : Int64) (distance : Int32) :
    (op.foldLongShift? a distance).map Int64.toBitVec = op.shift? a.toBitVec distance.toBitVec := by
  have hextended : (distance.toBitVec.signExtend 64).toNat % 64 = distance.toBitVec.toNat % 64 := by
    have hlt := distance.toBitVec.isLt
    rw [BitVec.toNat_signExtend]
    split
    · simp
      omega
    · simp
  have hplaces : ((distance.toBitVec.signExtend 64).smod 64#64).toNat = distance.toBitVec.toNat % 64 := by
    rw [toNat_smod_of_dvd _ _ (by decide) (by decide) (by decide)]
    exact hextended
  rw [shift?_eq]
  cases op with
  | shl => simp [foldLongShift?, hplaces]
  | shr => simp [foldLongShift?, hplaces, BitVec.sshiftRight']
  | ushr => simp [foldLongShift?, hextended]
  | _ => simp [foldLongShift?]

end BinOp

namespace Value

variable {op : BinOp} {x z v : Value}

lemma binary?_of_foldInt? {a b c : Int32} (h : op.foldInt? a b = some c) :
    binary? op (int a) (int b) = some (int c) := by
  have hwords := op.toBitVec_foldInt? a b
  rw [h] at hwords
  simp [binary?, ← hwords]

lemma binary?_of_foldLong? {a b c : Int64} (h : op.foldLong? a b = some c) :
    binary? op (long a) (long b) = some (long c) := by
  have hwords := op.toBitVec_foldLong? a b
  rw [h] at hwords
  simp [binary?, ← hwords]

lemma binary?_of_foldLongShift? {a c : Int64} {distance : Int32} (h : op.foldLongShift? a distance = some c) :
    binary? op (long a) (int distance) = some (long c) := by
  have hwords := op.toBitVec_foldLongShift? a distance
  rw [h] at hwords
  simp [binary?, ← hwords]

/-! ### Dropped operands -/

/-- The number zero, as an `int` or a `long`. -/
def IsZero (v : Value) : Prop := v = int 0 ∨ v = long 0

/-- The number one, as an `int` or a `long`. -/
def IsOne (v : Value) : Prop := v = int 1 ∨ v = long 1

lemma of_zero_right (hz : z.IsZero) (h : binary? op x z = some v) :
    match op with
    | .add | .sub | .bitOr | .bitXor | .shl | .shr | .ushr => v = x
    | .mul | .bitAnd => v = z
    | _ => True := by
  rcases hz with rfl | rfl
  all_goals
    cases x <;> cases op <;> simp [binary?, BinOp.onWords?_eq, BinOp.shift?_eq, BinOp.relates?] at h ⊢
    all_goals exact h.symm

lemma of_zero_left (hz : z.IsZero) (h : binary? op z x = some v) :
    match op with
    | .add | .bitOr | .bitXor => v = x
    | .mul => v = z
    | _ => True := by
  rcases hz with rfl | rfl
  all_goals
    cases x <;> cases op <;> simp [binary?, BinOp.onWords?_eq, BinOp.shift?_eq, BinOp.relates?] at h ⊢
    all_goals exact h.symm

lemma of_one_right (hz : z.IsOne) (h : binary? op x z = some v) :
    match op with
    | .mul | .div => v = x
    | _ => True := by
  rcases hz with rfl | rfl
  all_goals
    cases x <;> cases op <;> simp [binary?, BinOp.onWords?_eq, BinOp.shift?_eq, BinOp.relates?] at h ⊢
    all_goals exact h.symm

lemma of_one_left (hz : z.IsOne) (h : binary? .mul z x = some v) : v = x := by
  rcases hz with rfl | rfl
  all_goals
    cases x <;> simp [binary?, BinOp.onWords?_eq, BinOp.shift?_eq, BinOp.relates?] at h
    exact h.symm

@[simp] lemma negative?_int (n : Int32) : (int n).negative? = some (int (-n)) := by
  have hword : BitVec.ofInt 32 (-n.toInt) = -n.toBitVec := by
    rw [BitVec.ofInt_neg, ← Int32.toInt_toBitVec, BitVec.ofInt_toInt]
  rw [negative?, hword]
  rfl

@[simp] lemma negative?_long (n : Int64) : (long n).negative? = some (long (-n)) := by
  have hword : BitVec.ofInt 64 (-n.toInt) = -n.toBitVec := by
    rw [BitVec.ofInt_neg, ← Int64.toInt_toBitVec, BitVec.ofInt_toInt]
  rw [negative?, hword]
  rfl

lemma negative?_negative? (h : x.negative? = some z) : z.negative? = some x := by
  cases x with
  | int n =>
    obtain rfl : int (-n) = z := by simpa using h
    simp
  | long n =>
    obtain rfl : long (-n) = z := by simpa using h
    simp
  | bool | ref => cases h

end Value

/-! ### Values of simplified expressions -/

namespace Expr

variable {σ : String → Value} {op : BinOp} {a a' b b' e : Expr} {v : Value}

lemma isZero_of_value? (h : e.isZero = true) (hv : e.value? σ = some v) : v.IsZero := by
  cases e <;> simp only [isZero, beq_iff_eq, Bool.false_eq_true] at h <;> cases hv
  · exact .inl (h ▸ rfl)
  · exact .inr (h ▸ rfl)

lemma isOne_of_value? (h : e.isOne = true) (hv : e.value? σ = some v) : v.IsOne := by
  cases e <;> simp only [isOne, beq_iff_eq, Bool.false_eq_true] at h <;> cases hv
  · exact .inl (h ▸ rfl)
  · exact .inr (h ▸ rfl)

/-- A literal that an operator yields on two literals is their value. -/
lemma value?_of_foldLiterals? (h : foldLiterals? op a b = some e) (hv : (binary op a b).value? σ = some v) :
    e.value? σ = some v := by
  have hop : op ≠ .and ∧ op ≠ .or := by
    constructor <;> rintro rfl <;> cases a <;> cases b <;> cases h
  obtain ⟨x, y, hx, hy, hv⟩ := (value?_binary hop.1 hop.2).mp hv
  unfold foldLiterals? at h
  split at h
  · cases hx
    cases hy
    obtain ⟨c, hc, rfl⟩ := Option.map_eq_some_iff.mp h
    exact (Value.binary?_of_foldInt? hc).symm.trans hv
  · cases hx
    cases hy
    obtain ⟨c, hc, rfl⟩ := Option.map_eq_some_iff.mp h
    exact (Value.binary?_of_foldLong? hc).symm.trans hv
  · cases hx
    cases hy
    obtain ⟨c, hc, rfl⟩ := Option.map_eq_some_iff.mp h
    exact (Value.binary?_of_foldLongShift? hc).symm.trans hv
  · -- strings have no value
    cases hx
  · cases h

/-- What dropping an operand can do: the other one is left where the dropped one is neutral, or a zero that absorbs. -/
lemma dropOperand?_cases (h : dropOperand? op a b = some e) :
    (b.isZero = true ∧ op ∈ [.add, .sub, .bitOr, .bitXor, .shl, .shr, .ushr] ∧ e = a) ∨
      (b.isZero = true ∧ op ∈ [.mul, .bitAnd] ∧ a.hasSideEffects = false ∧ e = b) ∨
      (b.isOne = true ∧ op ∈ [.mul, .div] ∧ e = a) ∨ (a.isZero = true ∧ op ∈ [.add, .bitOr, .bitXor] ∧ e = b) ∨
      (a.isZero = true ∧ op = .mul ∧ b.hasSideEffects = false ∧ e = a) ∨ (a.isOne = true ∧ op = .mul ∧ e = b) := by
  simp only [dropOperand?, Option.or_eq_some_iff, Option.ite_none_right_eq_some] at h
  cases op <;> simp [rightZero?, rightOne?, leftZero?, leftOne?] at h ⊢ <;> grind

lemma ne_lazy_of_dropOperand? (h : dropOperand? op a b = some e) : op ≠ .and ∧ op ≠ .or := by
  constructor <;> rintro rfl <;> simp [dropOperand?, rightZero?, rightOne?, leftZero?, leftOne?] at h

lemma value?_of_dropOperand? (h : dropOperand? op a b = some e) (hv : (binary op a b).value? σ = some v) :
    e.value? σ = some v := by
  obtain ⟨hand, hor⟩ := ne_lazy_of_dropOperand? h
  obtain ⟨x, y, hx, hy, hxy⟩ := (value?_binary hand hor).mp hv
  obtain ⟨hb, hop, rfl⟩ | ⟨hb, hop, -, rfl⟩ | ⟨hb, hop, rfl⟩ | ⟨ha, hop, rfl⟩ | ⟨ha, rfl, -, rfl⟩ | ⟨ha, rfl, rfl⟩ :=
    dropOperand?_cases h
  · have hdrop := Value.of_zero_right (isZero_of_value? hb hy) hxy
    fin_cases hop <;> exact hdrop ▸ hx
  · have hdrop := Value.of_zero_right (isZero_of_value? hb hy) hxy
    fin_cases hop <;> exact hdrop ▸ hy
  · have hdrop := Value.of_one_right (isOne_of_value? hb hy) hxy
    fin_cases hop <;> exact hdrop ▸ hx
  · have hdrop := Value.of_zero_left (isZero_of_value? ha hx) hxy
    fin_cases hop <;> exact hdrop ▸ hy
  · have hdrop := Value.of_zero_left (isZero_of_value? ha hx) hxy
    exact hdrop ▸ hx
  · exact Value.of_one_left (isOne_of_value? ha hx) hxy ▸ hy

lemma value?_foldBinary (hv : (binary op a b).value? σ = some v) : (foldBinary op a b).value? σ = some v := by
  unfold foldBinary
  split
  · exact value?_of_foldLiterals? ‹_› hv
  · split
    · exact hv
    · cases hdrop : dropOperand? op a b with
      | none => exact hv
      | some e => exact value?_of_dropOperand? hdrop hv

lemma value?_foldUnary {op : UnOp} (hv : (unary op a).value? σ = some v) : (foldUnary op a).value? σ = some v := by
  unfold foldUnary
  split
  · simpa [value?] using hv
  · simpa [value?] using hv
  · exact hv
  · exact hv
  · split_ifs with heq
    · subst heq
      cases op with
      | neg =>
        obtain ⟨y, hy, hv⟩ := value?_neg.mp hv
        obtain ⟨x, hx, hy⟩ := value?_neg.mp hy
        obtain rfl := Option.some.inj (hv.symm.trans (Value.negative?_negative? hy))
        exact hx
      | not =>
        obtain ⟨t, ht, rfl⟩ := value?_not.mp hv
        obtain ⟨u, hu, heq⟩ := value?_not.mp ht
        cases heq
        simpa using hu
    · exact hv
  · exact hv

/-! ### The whole tree -/

/-- An expression that has every value of another one. -/
def Extends (σ : String → Value) (e e' : Expr) : Prop :=
  ∀ v, e.value? σ = some v → e'.value? σ = some v

lemma extends_binary (ha : Extends σ a a') (hb : Extends σ b b') : Extends σ (binary op a b) (binary op a' b') := by
  intro v hv
  by_cases hand : op = .and
  · subst hand
    obtain ⟨hfirst, rfl⟩ | ⟨t, hfirst, hsecond, rfl⟩ := value?_and.mp hv
    · exact value?_and.mpr (.inl ⟨ha _ hfirst, rfl⟩)
    · exact value?_and.mpr (.inr ⟨t, ha _ hfirst, hb _ hsecond, rfl⟩)
  by_cases hor : op = .or
  · subst hor
    obtain ⟨hfirst, rfl⟩ | ⟨t, hfirst, hsecond, rfl⟩ := value?_or.mp hv
    · exact value?_or.mpr (.inl ⟨ha _ hfirst, rfl⟩)
    · exact value?_or.mpr (.inr ⟨t, ha _ hfirst, hb _ hsecond, rfl⟩)
  obtain ⟨x, y, hx, hy, hv⟩ := (value?_binary hand hor).mp hv
  exact (value?_binary hand hor).mpr ⟨x, y, ha x hx, hb y hy, hv⟩

lemma extends_unary {op : UnOp} (ha : Extends σ a a') : Extends σ (unary op a) (unary op a') := by
  intro v hv
  cases op with
  | neg =>
    obtain ⟨x, hx, hv⟩ := value?_neg.mp hv
    exact value?_neg.mpr ⟨x, ha x hx, hv⟩
  | not =>
    obtain ⟨t, ht, rfl⟩ := value?_not.mp hv
    exact value?_not.mpr ⟨t, ha _ ht, rfl⟩

lemma extends_ternary {c c' : Expr} (hc : Extends σ c c') (ha : Extends σ a a') (hb : Extends σ b b') :
    Extends σ (ternary c a b) (ternary c' a' b') := by
  intro v hv
  obtain ⟨t, ht, hv⟩ := value?_ternary.mp hv
  refine value?_ternary.mpr ⟨t, hc _ ht, ?_⟩
  cases t
  · exact hb v hv
  · exact ha v hv

/-- **Values.** The simplified form of an expression has the value of the expression. -/
lemma value?_simplify : ∀ (e : Expr), Extends σ e e.simplify
  | binary op a b => fun v hv => by
    rw [simplify]
    exact value?_foldBinary (extends_binary (value?_simplify a) (value?_simplify b) v hv)
  | unary op a => fun v hv => by
    rw [simplify]
    exact value?_foldUnary (extends_unary (value?_simplify a) v hv)
  | ternary c a b => by
    rw [simplify]
    exact extends_ternary (value?_simplify c) (value?_simplify a) (value?_simplify b)
  | int _ | long _ | bool _ | null | var _ => fun v hv => by simpa [simplify] using hv
  | float _ | double _ | string _ | classLit _ | uninit _ | field .. | index .. | length _ | cast .. | instanceOf ..
  | new .. | newArray .. | call .. | staticCall .. => fun v hv => by cases hv

end Expr

/-! ### Types -/

/-- The types of integer expressions. -/
inductive IntType
  | int
  | long
  deriving DecidableEq

def Value.HasType : Value → IntType → Prop
  | int _, .int | long _, .long => True
  | _, _ => False

def BinOp.isArithmetic (op : BinOp) : Bool :=
  op ∈ [add, sub, mul, div, rem, bitAnd, bitOr, bitXor]

def BinOp.isShift (op : BinOp) : Bool :=
  op ∈ [shl, shr, ushr]

/-- An operator on values of the types that it is for yields a value of the type of its left operand. -/
lemma Value.hasType_binary? {op : BinOp} {τ : IntType} {x y v : Value} (hx : x.HasType τ)
    (hy : op.isArithmetic = true ∧ y.HasType τ ∨ op.isShift = true ∧ y.HasType .int)
    (h : binary? op x y = some v) : v.HasType τ := by
  have hop : (∀ m n, op.relates? m n = none) ∧ op ≠ .cmp := by
    rcases hy with ⟨hop, -⟩ | ⟨hop, -⟩ <;> cases op <;> cases hop <;> exact ⟨fun _ _ => rfl, nofun⟩
  cases x with
  | int a =>
    cases τ <;> cases hx
    cases y with
    | int b =>
      simp only [binary?, hop.1, Option.map_none, Option.or_none, Option.map_eq_some_iff] at h
      obtain ⟨_, -, rfl⟩ := h
      trivial
    | _ => cases h
  | long a =>
    cases τ <;> cases hx
    cases y with
    | int b =>
      obtain ⟨_, -, rfl⟩ := Option.map_eq_some_iff.mp h
      trivial
    | long b =>
      simp only [binary?, hop.1, hop.2, if_false, Option.map_none, Option.or_none, Option.map_eq_some_iff] at h
      obtain ⟨_, -, rfl⟩ := h
      trivial
    | _ => cases h
  | bool | ref => cases τ <;> cases hx

/-- Well-typed expressions over variables of given types. Both operands of an operator have one type, except that the
distance of a shift is always an `int`. -/
inductive Expr.HasType (Γ : String → IntType) : Expr → IntType → Prop
  | int (n : Int32) : HasType Γ (.int n) .int
  | long (n : Int64) : HasType Γ (.long n) .long
  | var (name : String) : HasType Γ (.var name) (Γ name)
  | arithmetic {op : BinOp} {a b : Expr} {τ : IntType} (hop : op.isArithmetic = true) (ha : HasType Γ a τ)
      (hb : HasType Γ b τ) : HasType Γ (.binary op a b) τ
  | shift {op : BinOp} {a b : Expr} {τ : IntType} (hop : op.isShift = true) (ha : HasType Γ a τ)
      (hb : HasType Γ b .int) : HasType Γ (.binary op a b) τ
  | neg {a : Expr} {τ : IntType} (ha : HasType Γ a τ) : HasType Γ (.unary .neg a) τ

namespace Expr

variable {Γ : String → IntType} {τ : IntType} {op : BinOp} {a b e : Expr}

lemma HasType.binary_cases (h : HasType Γ (binary op a b) τ) :
    HasType Γ a τ ∧ (op.isArithmetic = true ∧ HasType Γ b τ ∨ op.isShift = true ∧ HasType Γ b .int) := by
  cases h with
  | arithmetic hop ha hb => exact ⟨ha, .inl ⟨hop, hb⟩⟩
  | shift hop ha hb => exact ⟨ha, .inr ⟨hop, hb⟩⟩

lemma hasType_of_foldLiterals? (h : foldLiterals? op a b = some e) (ht : HasType Γ (binary op a b) τ) :
    HasType Γ e τ := by
  obtain ⟨ha, -⟩ := ht.binary_cases
  unfold foldLiterals? at h
  split at h
  · cases ha
    obtain ⟨c, -, rfl⟩ := Option.map_eq_some_iff.mp h
    exact .int c
  · cases ha
    obtain ⟨c, -, rfl⟩ := Option.map_eq_some_iff.mp h
    exact .long c
  · cases ha
    obtain ⟨c, -, rfl⟩ := Option.map_eq_some_iff.mp h
    exact .long c
  · cases ha
  · cases h

/-- An operand that is left has the type of the operation: it is the left one, or the operator is no shift. -/
lemma hasType_of_dropOperand? (h : dropOperand? op a b = some e) (ht : HasType Γ (binary op a b) τ) :
    HasType Γ e τ := by
  obtain ⟨ha, hb⟩ := ht.binary_cases
  have hright (hop : op.isShift = false) : HasType Γ b τ := by
    rcases hb with ⟨-, hb⟩ | ⟨hshift, -⟩
    · exact hb
    · cases hop.symm.trans hshift
  obtain ⟨-, -, rfl⟩ | ⟨-, hop, -, rfl⟩ | ⟨-, -, rfl⟩ | ⟨-, hop, rfl⟩ | ⟨-, -, -, rfl⟩ | ⟨-, rfl, rfl⟩ :=
    dropOperand?_cases h
  · exact ha
  · exact hright (by fin_cases hop <;> rfl)
  · exact ha
  · exact hright (by fin_cases hop <;> rfl)
  · exact ha
  · exact hright rfl

lemma hasType_foldBinary (ht : HasType Γ (binary op a b) τ) : HasType Γ (foldBinary op a b) τ := by
  unfold foldBinary
  split
  · exact hasType_of_foldLiterals? ‹_› ht
  · split
    · exact ht
    · cases hdrop : dropOperand? op a b with
      | none => exact ht
      | some e => exact hasType_of_dropOperand? hdrop ht

lemma hasType_foldNeg (ha : HasType Γ a τ) : HasType Γ (foldUnary .neg a) τ := by
  cases ha with
  | int n => exact .int _
  | long n => exact .long _
  | neg ha => exact ha
  | var name => exact .neg (.var name)
  | arithmetic hop ha hb => exact .neg (.arithmetic hop ha hb)
  | shift hop ha hb => exact .neg (.shift hop ha hb)

/-- **Types.** The simplified form of a well-typed expression has its type. -/
lemma hasType_simplify (h : HasType Γ e τ) : HasType Γ e.simplify τ := by
  induction h with
  | int n => exact .int n
  | long n => exact .long n
  | var name => exact .var name
  | arithmetic hop _ _ iha ihb =>
    rw [simplify]
    exact hasType_foldBinary (.arithmetic hop iha ihb)
  | shift hop _ _ iha ihb =>
    rw [simplify]
    exact hasType_foldBinary (.shift hop iha ihb)
  | neg _ ih =>
    rw [simplify]
    exact hasType_foldNeg ih

/-- The value of a well-typed expression has its type, if the variables have theirs. -/
lemma hasType_of_value? {σ : String → Value} (hσ : ∀ name, (σ name).HasType (Γ name)) (h : HasType Γ e τ) :
    ∀ v, e.value? σ = some v → v.HasType τ := by
  induction h with
  | int n | long n =>
    rintro _ ⟨⟩
    trivial
  | var name =>
    rintro _ ⟨⟩
    exact hσ name
  | arithmetic hop _ _ iha ihb =>
    intro v hv
    obtain ⟨x, y, hx, hy, hv⟩ := (value?_binary (by rintro rfl; cases hop) (by rintro rfl; cases hop)).mp hv
    exact Value.hasType_binary? (iha x hx) (.inl ⟨hop, ihb y hy⟩) hv
  | shift hop _ _ iha ihb =>
    intro v hv
    obtain ⟨x, y, hx, hy, hv⟩ := (value?_binary (by rintro rfl; cases hop) (by rintro rfl; cases hop)).mp hv
    exact Value.hasType_binary? (iha x hx) (.inr ⟨hop, ihb y hy⟩) hv
  | @neg a τ _ ih =>
    intro v hv
    obtain ⟨x, hx, hv⟩ := value?_neg.mp hv
    have htype := ih x hx
    cases x <;> cases τ <;> cases htype <;> cases hv <;> trivial

/-- **Simplification.** The simplified form of a well-typed integer expression has its type and its value, for all
values of the variables. -/
theorem simplify_sound {σ : String → Value} (hσ : ∀ name, (σ name).HasType (Γ name)) (h : HasType Γ e τ) {v : Value}
    (hv : e.value? σ = some v) : HasType Γ e.simplify τ ∧ v.HasType τ ∧ e.simplify.value? σ = some v :=
  ⟨hasType_simplify h, hasType_of_value? hσ h v hv, value?_simplify e v hv⟩

/-- `(-(-x) * 1L + (1L << 65)) % (MIN / -1L)` over a `long`. -/
def wrappedShift : Expr :=
  binary .rem
    (binary .add (binary .mul (unary .neg (unary .neg (var "x"))) (long 1)) (binary .shl (long 1) (int 65)))
    (binary .div (long (-9223372036854775808)) (long (-1)))

/-- The theorem where a distance goes past the width and a quotient past the greatest `long`. -/
theorem wrappedShift_sound : HasType (fun _ => .long) wrappedShift .long ∧
    wrappedShift.value? (fun _ => .long 40) = some (.long 42) ∧
    wrappedShift.simplify.value? (fun _ => .long 40) = some (.long 42) := by
  have htype : HasType (fun _ => .long) wrappedShift .long :=
    .arithmetic rfl
      (.arithmetic rfl (.arithmetic rfl (.neg (.neg (.var "x"))) (.long 1)) (.shift rfl (.long 1) (.int 65)))
      (.arithmetic rfl (.long _) (.long _))
  have hvalue : wrappedShift.value? (fun _ => .long 40) = some (.long 42) := by decide +kernel
  have htyped (name : String) : ((fun _ => .long 40 : String → Value) name).HasType .long := trivial
  exact ⟨htype, hvalue, (simplify_sound htyped htype hvalue).2.2⟩

end Expr

end JvmLift.Source
