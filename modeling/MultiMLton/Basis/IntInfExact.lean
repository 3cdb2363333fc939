import MultiMLton.Basis.IntInfDivision

/-!
# Calls of the operations

* `Call`: the operations with their arguments; `Call.run` computes, `Call.exact` is the result on
  integers, and `Agrees` compares them;
* `agrees_iff_of_wide`: a call returns the exact result unless it is for a greatest common divisor
  that is no small integer;
* `operations_exact_iff`: where object pointers are wider than limbs, other calls go wrong.
-/

namespace MultiMLton.Basis

open MultiMLton.Lib MultiMLton.Lib.Limbs List Option BitVec

variable {c : Config}

namespace BigInt

/-- `IntInf.log2` of `integer/int-inf.sml`, with a result that has no bounds. -/
def log2 (g : GnuMP c) (fuel : ℕ) (arg : BigInt c) : Option (Except Exn ℕ) :=
  mkBigLog2 g id (fun numLimbsMinusOne mostSigLimbLog2 => c.limb * numLimbsMinusOne + mostSigLimbLog2)
    fuel arg

/-! ### Greatest common divisors -/

/-- The greatest common divisor is the negation of the least small integer, and both arguments are
small. -/
def GcdTooLarge (n : ℕ) (i j : ℤ) : Prop :=
  (i = -2 ^ (n - 2) ∧ (j = -2 ^ (n - 2) ∨ j = 0)) ∨ (i = 0 ∧ j = -2 ^ (n - 2))

instance (n : ℕ) (i j : ℤ) : Decidable (GcdTooLarge n i j) := inferInstanceAs (Decidable (_ ∨ _))

theorem gcd_eq_iff {n : ℕ} {i j : ℤ} (hi : Fits n i) (hj : Fits n j) :
    i.gcd j = 2 ^ (n - 2) ↔ GcdTooLarge n i j := by
  have hpos : 0 < 2 ^ (n - 2) := by positivity
  have hcast : ((2 ^ (n - 2) : ℕ) : ℤ) = 2 ^ (n - 2) := by push_cast; rfl
  have habs {k : ℤ} (hk : Fits n k) : k.natAbs ≤ 2 ^ (n - 2) := by
    obtain ⟨hlo, hhi⟩ := hk
    omega
  have hself {k : ℤ} (hk : Fits n k) (hdvd : 2 ^ (n - 2) ∣ k.natAbs) :
      k = -2 ^ (n - 2) ∨ k = 0 := by
    obtain ⟨hlo, hhi⟩ := hk
    rcases Nat.eq_zero_or_pos k.natAbs with hzero | hkpos
    · exact .inr (Int.natAbs_eq_zero.1 hzero)
    · have := Nat.le_of_dvd hkpos hdvd
      omega
  rw [Int.gcd]
  constructor
  · intro hgcd
    have hi' := hself hi (hgcd ▸ Nat.gcd_dvd_left i.natAbs j.natAbs)
    have hj' := hself hj (hgcd ▸ Nat.gcd_dvd_right i.natAbs j.natAbs)
    rcases hi' with rfl | rfl
    · exact .inl ⟨rfl, hj'⟩
    · rcases hj' with rfl | rfl
      · exact .inr ⟨rfl, rfl⟩
      · simp at hgcd
        omega
  · rintro (⟨rfl, rfl | rfl⟩ | ⟨rfl, rfl⟩) <;> simp [Int.natAbs_pow]

theorem I.abs_eq {n : ℕ} (hn : 2 ≤ n) {w : BitVec n} (h : Fits n w.toInt) :
    ∃ a, I.abs w = .ok a ∧ a.toNat = w.toInt.natAbs := by
  obtain ⟨hlo, hhi⟩ := h
  have hcast : ((2 ^ (n - 2) : ℕ) : ℤ) = 2 ^ (n - 2) := by push_cast; rfl
  have hle : w.toInt.natAbs ≤ 2 ^ (n - 2) := by omega
  rw [I.abs]
  split_ifs with hneg
  · rw [slt_iff_toInt_lt, ofNat_eq_ofNat, toInt_zero] at hneg
    have habs : -w.toInt = w.toInt.natAbs := by omega
    refine ⟨.ofNat n w.toInt.natAbs, ?_, toNat_ofNat_of_le hn hle⟩
    rw [I.neg, habs]
    exact I.check_natCast hn hle
  · rw [slt_iff_toInt_lt, ofNat_eq_ofNat, toInt_zero] at hneg
    refine ⟨w, rfl, ?_⟩
    have hmsb : w.msb = false := by
      rw [msb_eq_toInt]
      exact decide_eq_false hneg
    rw [toInt_eq_toNat_of_msb hmsb, Int.natAbs_natCast]

section

variable {g : GnuMP c} (hg : g.Exact) (hwide : c.objptr ≤ c.limb) {x y : BigInt c}
  (hx : x.Normal) (hy : y.Normal)

include hg hwide hx hy

theorem bigGcd_isRep_iff {fuel : ℕ} (hfuel : 2 * c.objptr ≤ fuel) :
    ∃ z, bigGcd g fuel x y = some (.ok z) ∧
      (IsRep z (x.toInt.gcd y.toInt) ↔ ¬GcdTooLarge c.objptr x.toInt y.toInt) := by
  have hn := c.two_le
  rw [bigGcd, areSmall_eq]
  by_cases hareSmall : (isSmall x && isSmall y) = true
  · have hand := Bool.and_eq_true_iff.1 hareSmall
    have hfx := fits_of_isSmall hand.1
    have hfy := fits_of_isSmall hand.2
    have hcast : ((2 ^ (c.objptr - 2) : ℕ) : ℤ) = 2 ^ (c.objptr - 2) := by push_cast; rfl
    obtain ⟨a, ha, hanat⟩ := I.abs_eq hn (dropTagCoerce_toInt hand.1 ▸ hfx)
    obtain ⟨b, hb, hbnat⟩ := I.abs_eq hn (dropTagCoerce_toInt hand.2 ▸ hfy)
    rw [dropTagCoerce_toInt hand.1] at hanat
    rw [dropTagCoerce_toInt hand.2] at hbnat
    have hale : a.toNat ≤ 2 ^ (c.objptr - 2) := by
      obtain ⟨hlo, hhi⟩ := hfx
      omega
    have hble : b.toNat ≤ 2 ^ (c.objptr - 2) := by
      obtain ⟨hlo, hhi⟩ := hfy
      omega
    have hone : (1 : BitVec c.objptr).toNat = 1 := (eq_one_iff hn _).1 rfl
    have hpos : 0 < 2 ^ (c.objptr - 2) := by positivity
    have hbound : GcdBound a b 1 := by
      constructor <;> rw [hone] <;> omega
    obtain ⟨f, rfl⟩ := Nat.exists_eq_add_of_le' (show 1 ≤ fuel by omega)
    have hprod : a.toNat * b.toNat < 2 ^ f := by
      refine (Nat.mul_le_mul hale hble).trans_lt ?_
      rw [← pow_add]
      exact Nat.pow_lt_pow_right one_lt_two (by omega)
    have hgcd : Nat.gcd a.toNat b.toNat = x.toInt.gcd y.toInt := by rw [hanat, hbnat]; rfl
    have hgcdle : x.toInt.gcd y.toInt ≤ 2 ^ (c.objptr - 2) := by
      rw [← hgcd]
      rcases Nat.eq_zero_or_pos a.toNat with hzero | hapos
      · rwa [hzero, Nat.gcd_zero_left]
      · exact (Nat.gcd_le_left _ hapos).trans hale
    rw [if_pos hareSmall, ha, hb]
    dsimp only
    rw [smallGcd_eq hn hbound hprod, hone, one_mul, hgcd]
    refine ⟨_, rfl, ?_⟩
    rw [← gcd_eq_iff hfx hfy]
    constructor
    · -- a word stands for a small integer
      intro hrep heq
      have hfits : Fits c.objptr _ := hrep.toInt ▸ fits_word _
      obtain ⟨-, hhi⟩ := hfits
      omega
    · intro hne
      have htoInt := toInt_of_toNat_le hn ((toNat_ofNat_of_le hn hgcdle).trans_le hgcdle)
      rw [toNat_ofNat_of_le hn hgcdle] at htoInt
      exact addTagCoerce_isRep ⟨by omega, by omega⟩ htoInt
  · rw [if_neg hareSmall]
    refine ⟨_, rfl, iff_of_true (binary_isRep hwide hx hy fun a b ha hb => ?_) fun hlarge => ?_⟩
    · rw [← ha.value, ← hb.value]
      exact hg.mpz_gcd a b ha.sound hb.sound
    · -- such arguments are small
      have hpos : (0 : ℤ) < 2 ^ (c.objptr - 2) := by positivity
      have hsmall {z : BigInt c} (hz : z.Normal)
          (hvalue : z.toInt = -2 ^ (c.objptr - 2) ∨ z.toInt = 0) : isSmall z = true := by
        by_contra hnot
        refine not_fits_of_not_isSmall hz (by simpa using hnot) ?_
        rcases hvalue with h | h <;> rw [h] <;> exact ⟨by omega, by omega⟩
      refine hareSmall (Bool.and_eq_true_iff.2 ⟨hsmall hx ?_, hsmall hy ?_⟩) <;>
        rcases hlarge with ⟨hi, hj | hj⟩ | ⟨hi, hj⟩ <;> simp [hi, hj]

omit hy

/-! ### Logarithms -/

theorem log2_eq {fuel : ℕ} (hfuel : 7 ≤ fuel) :
    log2 g fuel x =
      some (if x.toInt ≤ 0 then .error .domain else .ok (Nat.log 2 x.toInt.toNat)) := by
  rw [log2, mkBigLog2, bigLE_eq hg hwide hx zero_isRep.normal, zero_isRep.toInt]
  simp only [decide_eq_true_eq]
  by_cases hpos : x.toInt ≤ 0
  · rw [if_pos hpos, if_pos hpos]
  · have hlog {n : ℕ} (hn : n ≤ 64) (w : BitVec n) (hw : w ≠ 0) :
        (BitVec.ofNat 32 (Nat.log 2 w.toNat)).toNat = Nat.log 2 w.toNat := by
      have hlt := Nat.log_lt_of_lt_pow (fun hzero => hw ((eq_zero_iff w).2 hzero)) w.isLt
      exact Nat.mod_eq_of_lt (by omega)
    rw [if_neg hpos, if_neg hpos]
    cases x with
    | word w =>
      have hw : dropTag w ≠ 0 := fun hzero => hpos (by rw [toInt, hzero]; simp)
      have htoNat : (dropTag w).toNat = (toInt (word w)).toNat := by
        have hmsb : (dropTag w).msb = false := by
          rw [msb_eq_toInt]
          exact decide_eq_false fun hlt => hpos hlt.le
        rw [toInt, toInt_eq_toNat_of_msb hmsb, Int.toNat_natCast]
      rw [if_pos (isSmall_word hx), dropTagCoerce, show Prim.toWord (word w) = w from rfl,
        W.log2_eq c.objptr_eq hfuel hw]
      have hresult := hlog objptr_le _ hw
      rw [htoNat] at hresult
      simp only [map_some, Except.map, id, htoNat, hresult]
    | vector v =>
      obtain ⟨sign, limbs, rfl, -⟩ := hx.head
      have htrim : Trimmed limbs := hx.trimmed
      have hneg : isneg (sign :: limbs) = false := by
        rw [← Bool.not_eq_true, ← hx.toInt_neg_iff]
        omega
      obtain ⟨ls, l, heq⟩ := (eq_nil_or_concat limbs).resolve_left hx.tail_ne_nil
      rw [concat_eq_append] at heq
      subst heq
      have hl : l ≠ 0 := htrim l (by simp)
      have hlast : (sign :: (ls ++ [l])).getD ((sign :: (ls ++ [l])).length - 1) 0 = l := by
        simp [List.getD]
      have htoNat : (toInt (vector (sign :: (ls ++ [l])))).toNat = magnitude (ls ++ [l]) := by
        rw [toInt, hneg]
        simp
      have hlen : (sign :: (ls ++ [l])).length - 2 = ls.length := by simp
      rw [if_neg (by simp)]
      simp only [Prim.toVector]
      rw [hlast, hlen, W.log2_eq c.limb_eq hfuel hl, htoNat, log_magnitude c.limb_pos hl]
      simp only [map_some, Except.map, hlog limb_le _ hl]

end

end BigInt

/-! ### Calls -/

inductive UnaryOp
  | abs
  | log2
  | neg
  | notb
  deriving DecidableEq

inductive BinaryOp
  | add
  | andb
  | compare
  | div
  | equal
  | gcd
  | ge
  | gt
  | le
  | lt
  | mod
  | mul
  | orb
  | quot
  | rem
  | sub
  | xorb
  deriving DecidableEq

variable (c) in
/-- An operation with its arguments. -/
inductive Call
  | unary (op : UnaryOp) (arg : BigInt c)
  | binary (op : BinaryOp) (lhs rhs : BigInt c)

/-- What operations return; `α` are the integers. -/
inductive Answer (α : Type)
  | bool (b : Bool)
  | int (i : α)
  | nat (n : ℕ)
  | order (o : Ordering)
  deriving DecidableEq

namespace Call

open BigInt

def Normal : Call c → Prop
  | unary _ arg => arg.Normal
  | binary _ lhs rhs => lhs.Normal ∧ rhs.Normal

/-- The call is for a greatest common divisor that is no small integer, of small integers. -/
def GcdTooLarge : Call c → Prop
  | unary _ _ => False
  | binary op lhs rhs => op = .gcd ∧ BigInt.GcdTooLarge c.objptr lhs.toInt rhs.toInt

instance (call : Call c) : Decidable call.GcdTooLarge :=
  match call with
  | unary _ _ => inferInstanceAs (Decidable False)
  | binary _ _ _ => inferInstanceAs (Decidable (_ ∧ _))

/-- The call, with so many turns for its loops. -/
def run (g : GnuMP c) (fuel : ℕ) : Call c → Option (Except Exn (Answer (BigInt c)))
  | unary op x =>
    match op with
    | .abs => some (.ok (.int (bigAbs g x)))
    | .log2 => (log2 g fuel x).map fun r => r.map .nat
    | .neg => some (.ok (.int (bigNeg g x)))
    | .notb => some (.ok (.int (bigNotb g x)))
  | binary op x y =>
    match op with
    | .add => some (.ok (.int (bigAdd g x y)))
    | .andb => some (.ok (.int (bigAndb g x y)))
    | .compare => some (.ok (.order (bigCompare g x y)))
    | .div => some ((bigDiv g x y).map .int)
    | .equal => some (.ok (.bool (Prim.equal g x y)))
    | .gcd => (bigGcd g fuel x y).map fun r => r.map .int
    | .ge => some (.ok (.bool (bigGE g x y)))
    | .gt => some (.ok (.bool (bigGT g x y)))
    | .le => some (.ok (.bool (bigLE g x y)))
    | .lt => some (.ok (.bool (bigLT g x y)))
    | .mod => some ((bigMod g x y).map .int)
    | .mul => some (.ok (.int (bigMul g x y)))
    | .orb => some (.ok (.int (bigOrb g x y)))
    | .quot => some ((bigQuot g x y).map .int)
    | .rem => some ((bigRem g x y).map .int)
    | .sub => some (.ok (.int (bigSub g x y)))
    | .xorb => some (.ok (.int (bigXorb g x y)))

/-- The result on integers. -/
def exact : Call c → Except Exn (Answer ℤ)
  | unary op x =>
    match op with
    | .abs => .ok (.int |x.toInt|)
    | .log2 => if x.toInt ≤ 0 then .error .domain else .ok (.nat (Nat.log 2 x.toInt.toNat))
    | .neg => .ok (.int (-x.toInt))
    | .notb => .ok (.int (-x.toInt - 1))
  | binary op x y =>
    match op with
    | .add => .ok (.int (x.toInt + y.toInt))
    | .andb => .ok (.int (x.toInt.land y.toInt))
    | .compare => .ok (.order (Ord.compare x.toInt y.toInt))
    | .div => (partialOp Int.fdiv x.toInt y.toInt).map .int
    | .equal => .ok (.bool (decide (x.toInt = y.toInt)))
    | .gcd => .ok (.int (x.toInt.gcd y.toInt))
    | .ge => .ok (.bool (decide (x.toInt ≥ y.toInt)))
    | .gt => .ok (.bool (decide (x.toInt > y.toInt)))
    | .le => .ok (.bool (decide (x.toInt ≤ y.toInt)))
    | .lt => .ok (.bool (decide (x.toInt < y.toInt)))
    | .mod => (partialOp Int.fmod x.toInt y.toInt).map .int
    | .mul => .ok (.int (x.toInt * y.toInt))
    | .orb => .ok (.int (x.toInt.lor y.toInt))
    | .quot => (partialOp Int.tdiv x.toInt y.toInt).map .int
    | .rem => (partialOp Int.tmod x.toInt y.toInt).map .int
    | .sub => .ok (.int (x.toInt - y.toInt))
    | .xorb => .ok (.int (x.toInt.xor y.toInt))

end Call

/-- The representation of an exact answer; no answer after all turns is none. -/
def Agrees : Option (Except Exn (Answer (BigInt c))) → Except Exn (Answer ℤ) → Prop
  | some (.ok (.bool b)), .ok (.bool b') => b = b'
  | some (.ok (.int x)), .ok (.int i) => BigInt.IsRep x i
  | some (.ok (.nat n)), .ok (.nat n') => n = n'
  | some (.ok (.order o)), .ok (.order o') => o = o'
  | some (.error e), .error e' => e = e'
  | _, _ => False

open BigInt

theorem Agrees.of_returns {r : Except Exn (BigInt c)} {e : Except Exn ℤ} (h : Returns r e) :
    Agrees (some (r.map .int)) (e.map .int) := by
  cases r <;> cases e <;> exact h

section

variable {g : GnuMP c} (hg : g.Exact) {fuel : ℕ} (hfuel : 2 * c.objptr ≤ fuel)

include hg hfuel

/-- Where object pointers are no wider than limbs, one kind of call goes wrong. -/
theorem agrees_iff_of_wide (hwide : c.objptr ≤ c.limb) {call : Call c} (h : call.Normal) :
    Agrees (call.run g fuel) call.exact ↔ ¬call.GcdTooLarge := by
  have hlog : 7 ≤ fuel := by rcases c.objptr_eq with h | h <;> omega
  cases call with
  | unary op x =>
    refine iff_of_true ?_ id
    cases op with
    | abs => exact bigAbs_isRep hwide hg h
    | log2 =>
      rw [Call.run, Call.exact, log2_eq hg hwide h hlog]
      split_ifs <;> rfl
    | neg => exact bigNeg_isRep hwide hg h
    | notb => exact bigNotb_isRep hg hwide h
  | binary op x y =>
    obtain ⟨hx, hy⟩ := h
    cases op with
    | gcd =>
      obtain ⟨z, hz, hiff⟩ := bigGcd_isRep_iff hg hwide hx hy hfuel
      rw [Call.run, hz, Call.GcdTooLarge, and_iff_right rfl]
      exact hiff
    | add => exact iff_of_true (bigAdd_isRep hwide hg hx hy) (by simp [Call.GcdTooLarge])
    | andb => exact iff_of_true (bigAndb_isRep hg hwide hx hy) (by simp [Call.GcdTooLarge])
    | compare => exact iff_of_true (bigCompare_eq hg hwide hx hy) (by simp [Call.GcdTooLarge])
    | div =>
      exact iff_of_true (.of_returns (bigDiv_returns hg hwide hx hy)) (by simp [Call.GcdTooLarge])
    | equal =>
      refine iff_of_true ?_ (by simp [Call.GcdTooLarge])
      show Prim.equal g x y = decide (x.toInt = y.toInt)
      rw [Bool.eq_iff_iff, equal_iff hg hwide hx hy, decide_eq_true_iff]
    | ge => exact iff_of_true (bigGE_eq hg hwide hx hy) (by simp [Call.GcdTooLarge])
    | gt => exact iff_of_true (bigGT_eq hg hwide hx hy) (by simp [Call.GcdTooLarge])
    | le => exact iff_of_true (bigLE_eq hg hwide hx hy) (by simp [Call.GcdTooLarge])
    | lt => exact iff_of_true (bigLT_eq hg hwide hx hy) (by simp [Call.GcdTooLarge])
    | mod =>
      exact iff_of_true (.of_returns (bigMod_returns hg hwide hx hy)) (by simp [Call.GcdTooLarge])
    | mul => exact iff_of_true (bigMul_isRep hwide hg hx hy) (by simp [Call.GcdTooLarge])
    | orb => exact iff_of_true (bigOrb_isRep hg hwide hx hy) (by simp [Call.GcdTooLarge])
    | quot =>
      exact iff_of_true (.of_returns (bigQuot_returns hg hwide hx hy)) (by simp [Call.GcdTooLarge])
    | rem =>
      exact iff_of_true (.of_returns (bigRem_returns hg hwide hx hy)) (by simp [Call.GcdTooLarge])
    | sub => exact iff_of_true (bigSub_isRep hwide hg hx hy) (by simp [Call.GcdTooLarge])
    | xorb => exact iff_of_true (bigXorb_isRep hg hwide hx hy) (by simp [Call.GcdTooLarge])

end

/-! ### Object pointers wider than limbs -/

section Narrow

variable (hnarrow : ¬c.objptr ≤ c.limb)

include hnarrow

theorem widths_of_narrow : c.objptr = 64 ∧ c.limb = 32 := by
  rcases c.objptr_eq with h | h <;> rcases c.limb_eq with h' | h' <;> omega

omit hnarrow in
/-- The negation of the least small integer of 64 bits, in limbs of 32 bits. -/
theorem narrow_vector {v : List (BitVec c.limb)} (hobjptr : c.objptr = 64) (hlimb : c.limb = 32)
    (hv : v = [0, 0, .ofNat c.limb (2 ^ 30)]) :
    (vector v : BigInt c).Normal ∧ toInt (vector v : BigInt c) = 2 ^ 62 := by
  have htoNat : (BitVec.ofNat c.limb (2 ^ 30)).toNat = 2 ^ 30 := by
    rw [toNat_ofNat, hlimb]
    rfl
  have hvalue : toInt (vector v : BigInt c) = 2 ^ 62 := by
    rw [hv, toInt, isneg_cons, tail_cons, magnitude_cons, magnitude_singleton, htoNat, hlimb]
    simp
  refine ⟨⟨⟨0, _, hv, .inl rfl⟩, ?_, ?_⟩, hvalue⟩
  · intro l hl hzero
    rw [hv] at hl
    simp only [tail_cons, getLast?_cons_cons, getLast?_singleton,
      mem_some_iff] at hl
    rw [hl, hzero] at htoNat
    simp at htoNat
  · rw [hvalue, Fits, hobjptr]
    norm_num

/-- The quotient of a word and a vector with the same magnitude is taken for zero: the limbs of the
word are counted as one. -/
theorem narrow_quot (g : GnuMP c) (fuel : ℕ) :
    ∃ call : Call c, call.Normal ∧ ¬call.GcdTooLarge ∧ ¬Agrees (call.run g fuel) call.exact := by
  obtain ⟨hobjptr, hlimb⟩ := widths_of_narrow hnarrow
  have hn := c.two_le
  have hnum : IsRep (word (addTag badObjptrInt) : BigInt c) (-2 ^ 62) := by
    have hpow : (2 : ℤ) ^ (c.objptr - 2) = 2 ^ 62 := by rw [hobjptr]
    rw [← hpow]
    exact addTagCoerce_isRep ⟨le_rfl, by rw [hpow]; norm_num⟩ badObjptrInt_toInt
  obtain ⟨hden, hvalue⟩ := narrow_vector hobjptr hlimb rfl
  refine ⟨.binary .quot _ _, ⟨hnum.normal, hden⟩, by simp [Call.GcdTooLarge], ?_⟩
  have hquot : bigQuot g (word (addTag badObjptrInt) : BigInt c)
      (vector [0, 0, .ofNat c.limb (2 ^ 30)]) = .ok zero := by
    rw [bigQuot, areSmall_eq, isSmall_vector, Bool.and_false, numLimbs_word hnum.normal,
      numLimbs_vector]
    rfl
  rw [Call.run, Call.exact, hquot, hvalue, hnum.toInt]
  intro hagrees
  have hzero : (0 : ℤ) = -1 := (zero_isRep (c := c)).toInt.symm.trans hagrees.toInt
  omega

end Narrow

/-- The operations return exact results, but for greatest common divisors that are no small
integers, if and only if object pointers are no wider than limbs. -/
theorem operations_exact_iff {g : GnuMP c} (hg : g.Exact) {fuel : ℕ}
    (hfuel : 2 * c.objptr ≤ fuel) :
    (∀ call : Call c, call.Normal →
      (Agrees (call.run g fuel) call.exact ↔ ¬call.GcdTooLarge)) ↔ c.objptr ≤ c.limb := by
  constructor
  · intro hall
    by_contra hnarrow
    obtain ⟨call, hnormal, hsmall, hwrong⟩ := narrow_quot hnarrow g fuel
    exact hwrong ((hall call hnormal).2 hsmall)
  · exact fun hwide call h => agrees_iff_of_wide hg hfuel hwide h

/-! ### Routines for examples -/

/-- A number as GnuMP stores it. -/
def Mpz.ofInt (i : ℤ) : Mpz c :=
  let d := ofNat c.limb i.natAbs
  { size := if i < 0 then -(d.length : ℤ) else d.length, d := d }

theorem Mpz.ofInt_computes (i : ℤ) : (Mpz.ofInt i : Mpz c).Computes i := by
  have hlimbs : (Mpz.ofInt i : Mpz c).limbs = ofNat c.limb i.natAbs := by
    rw [Mpz.limbs, Mpz.ofInt]
    dsimp only
    split_ifs <;> simp
  refine ⟨⟨?_, hlimbs ▸ trimmed_ofNat c.limb_pos _⟩, ?_⟩
  · rw [Mpz.ofInt]
    dsimp only
    split_ifs <;> simp
  · rw [Mpz.value, hlimbs, magnitude_ofNat c.limb_pos]
    have hsize : (Mpz.ofInt i : Mpz c).size < 0 ↔ i < 0 := by
      rw [Mpz.ofInt]
      dsimp only
      split_ifs with hneg
      · have hne : ofNat c.limb i.natAbs ≠ [] := fun hnil => by
          have hmag := magnitude_ofNat c.limb_pos i.natAbs
          rw [hnil, magnitude_nil] at hmag
          omega
        have := length_pos_iff.2 hne
        simp only [hneg, iff_true]
        omega
      · simp only [hneg, iff_false]
        omega
    simp only [hsize]
    split_ifs <;> omega

variable (c) in
/-- Routines that compute with integers. -/
def GnuMP.ofInt : GnuMP c where
  mpz_add a b := .ofInt (a.value + b.value)
  mpz_and a b := .ofInt (a.value.land b.value)
  mpz_cmp a b := a.value - b.value
  mpz_com a := .ofInt (-a.value - 1)
  mpz_gcd a b := .ofInt (a.value.gcd b.value)
  mpz_ior a b := .ofInt (a.value.lor b.value)
  mpz_mul a b := .ofInt (a.value * b.value)
  mpz_neg a := .ofInt (-a.value)
  mpz_sub a b := .ofInt (a.value - b.value)
  mpz_tdiv_q a b := .ofInt (a.value.tdiv b.value)
  mpz_tdiv_r a b := .ofInt (a.value.tmod b.value)
  mpz_xor a b := .ofInt (a.value.xor b.value)

theorem GnuMP.ofInt_exact : (GnuMP.ofInt c).Exact where
  mpz_add _ _ _ _ := Mpz.ofInt_computes _
  mpz_and _ _ _ _ := Mpz.ofInt_computes _
  mpz_cmp _ _ _ _ := rfl
  mpz_com _ _ := Mpz.ofInt_computes _
  mpz_gcd _ _ _ _ := Mpz.ofInt_computes _
  mpz_ior _ _ _ _ := Mpz.ofInt_computes _
  mpz_mul _ _ _ _ := Mpz.ofInt_computes _
  mpz_neg _ _ := Mpz.ofInt_computes _
  mpz_sub _ _ _ _ := Mpz.ofInt_computes _
  mpz_tdiv_q _ _ _ _ _ := Mpz.ofInt_computes _
  mpz_tdiv_r _ _ _ _ _ := Mpz.ofInt_computes _
  mpz_xor _ _ _ _ := Mpz.ofInt_computes _

/-- Object pointers and limbs of 64 bits. -/
def native64 : Config := ⟨64, 64, .inr rfl, .inr rfl⟩

/-- The least small integer. -/
def least : BigInt native64 := word (addTag badObjptrInt)

theorem least_normal : least.Normal := isTagged_addTag native64.two_le _

/-- The square of the least small integer is no small integer. -/
theorem operations_exact_square :
    Agrees (Call.run (GnuMP.ofInt native64) 128 (.binary .mul least least)) (.ok (.int (2 ^ 124))) :=
  ((operations_exact_iff GnuMP.ofInt_exact (by decide)).2 (by decide)
    (.binary .mul least least) ⟨least_normal, least_normal⟩).2 (by decide)

/-- The greatest common divisor of the least small integer and zero comes out negative. -/
theorem gcd_least_zero :
    least.Normal ∧ (zero : BigInt native64).Normal ∧
    Call.run (GnuMP.ofInt native64) 128 (.binary .gcd least zero) = some (.ok (.int least)) ∧
    Call.exact (.binary .gcd least (zero : BigInt native64)) = .ok (.int (2 ^ 62)) ∧
    least.toInt = -2 ^ 62 ∧
    ¬Agrees (Call.run (GnuMP.ofInt native64) 128 (.binary .gcd least zero))
      (Call.exact (.binary .gcd least zero)) := by
  have hrun : Call.run (GnuMP.ofInt native64) 128 (.binary .gcd least zero) =
      some (.ok (.int least)) := by decide
  have hexact : Call.exact (.binary .gcd least (zero : BigInt native64)) = .ok (.int (2 ^ 62)) := by
    decide
  refine ⟨least_normal, zero_isRep.normal, hrun, hexact, by decide, ?_⟩
  rw [hrun, hexact]
  intro hrep
  exact absurd hrep.toInt (by decide)

end MultiMLton.Basis
