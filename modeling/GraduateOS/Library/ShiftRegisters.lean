import Mathlib.Logic.Function.Iterate

namespace GraduateOS.Library.ShiftRegisters

variable {t : Nat}

def XorLinear (f : BitVec t → BitVec t) : Prop := ∀ a b, f (a ^^^ b) = f a ^^^ f b

def shiftDown (poly r : BitVec t) : BitVec t := (r >>> 1) ^^^ if r.getLsbD 0 then poly else 0#t

/-- A register of width `w` that shifts the other way. The bits above `w` are of no account. -/
def shiftUp (w : Nat) (poly r : BitVec t) : BitVec t :=
  (r <<< 1) ^^^ if r.getLsbD (w - 1) then poly else 0#t

def Small (w : Nat) (a : BitVec t) : Prop := ∀ i, w ≤ i → a.getLsbD i = false

def Agree (w : Nat) (a b : BitVec t) : Prop := ∀ i, i < w → a.getLsbD i = b.getLsbD i

variable {f : BitVec t → BitVec t} {a b r poly : BitVec t} {w n i : Nat}

theorem Agree.refl (w : Nat) (a : BitVec t) : Agree w a a := fun _ _ => rfl

theorem Agree.symm (h : Agree w a b) : Agree w b a := fun i hi => (h i hi).symm

theorem Agree.trans {c : BitVec t} (h : Agree w a b) (h' : Agree w b c) : Agree w a c :=
  fun i hi => (h i hi).trans (h' i hi)

theorem Agree.xor {a' b' : BitVec t} (h : Agree w a b) (h' : Agree w a' b') :
    Agree w (a ^^^ a') (b ^^^ b') := by
  intro i hi
  rw [BitVec.getLsbD_xor, BitVec.getLsbD_xor, h i hi, h' i hi]

theorem Agree.shiftLeft (h : Agree w a b) (n : Nat) : Agree w (a <<< n) (b <<< n) := by
  intro i hi
  rw [BitVec.getLsbD_shiftLeft, BitVec.getLsbD_shiftLeft, h (i - n) (by omega)]

theorem Agree.eq_of_small (h : Agree w a b) (ha : Small w a) (hb : Small w b) : a = b := by
  apply BitVec.eq_of_getLsbD_eq
  intro i _
  by_cases hi : i < w
  · exact h i hi
  · rw [ha i (by omega), hb i (by omega)]

theorem XorLinear.iterate (hf : XorLinear f) (n : Nat) : XorLinear f^[n] := by
  intro a b
  induction n with
  | zero => rfl
  | succ n ih => rw [Function.iterate_succ_apply', Function.iterate_succ_apply', Function.iterate_succ_apply', ih, hf]

theorem select_linear (poly : BitVec t) (i : Nat) :
    XorLinear (fun r : BitVec t => if r.getLsbD i then poly else 0#t) := by
  intro a b
  simp only [BitVec.getLsbD_xor]
  cases a.getLsbD i <;> cases b.getLsbD i <;> simp

theorem XorLinear.xor {g : BitVec t → BitVec t} (hf : XorLinear f) (hg : XorLinear g) :
    XorLinear (fun r => f r ^^^ g r) := by
  intro a b
  simp only [hf a b, hg a b]
  ac_rfl

theorem shiftDown_linear (poly : BitVec t) : XorLinear (shiftDown poly) :=
  XorLinear.xor (fun a b => BitVec.ushiftRight_xor_distrib a b 1) (select_linear poly 0)

theorem shiftUp_linear (w : Nat) (poly : BitVec t) : XorLinear (shiftUp w poly) :=
  XorLinear.xor (fun a b => BitVec.shiftLeft_xor_distrib a b 1) (select_linear poly (w - 1))

/-- As long as only zeros come out nothing is fed back. -/
theorem shiftDown_iterate_clear (h : ∀ i, i < n → r.getLsbD i = false) : (shiftDown poly)^[n] r = r >>> n := by
  induction n with
  | zero => simp
  | succ n ih =>
      have hbit : (r >>> n).getLsbD 0 = false := by simpa using h n (by omega)
      rw [Function.iterate_succ_apply', ih (fun i hi => h i (by omega)), shiftDown, hbit, BitVec.shiftRight_add]
      simp

theorem shiftUp_iterate_clear (hn : n ≤ w) (h : ∀ i, w - n ≤ i → i < w → r.getLsbD i = false) :
    (shiftUp w poly)^[n] r = r <<< n := by
  induction n with
  | zero => simp
  | succ n ih =>
      have hbit : (r <<< n).getLsbD (w - 1) = false := by
        have hr := h (w - 1 - n) (by omega) (by omega)
        simp [hr]
      rw [Function.iterate_succ_apply', ih (by omega) (fun i hi => h i (by omega)), shiftUp, hbit,
        BitVec.shiftLeft_add]
      simp

theorem shiftDown_iterate_above (hpoly : Small w poly) (hi : w ≤ i) :
    ((shiftDown poly)^[n] r).getLsbD i = r.getLsbD (i + n) := by
  induction n generalizing i with
  | zero => rfl
  | succ n ih =>
      have hzero : (if ((shiftDown poly)^[n] r).getLsbD 0 then poly else 0#t).getLsbD i = false := by
        split
        · exact hpoly i hi
        · simp
      rw [Function.iterate_succ_apply', shiftDown, BitVec.getLsbD_xor, hzero, Bool.xor_false,
        BitVec.getLsbD_ushiftRight, ih (by omega)]
      congr 1
      omega

/-- The zeros that come in stay where the polynomial has no bits. -/
theorem shiftUp_iterate_below {s : Nat} (hpoly : ∀ i, i < s → poly.getLsbD i = false) (hi : i < s) (hn : i < n) :
    ((shiftUp w poly)^[n] r).getLsbD i = false := by
  induction n generalizing i with
  | zero => omega
  | succ n ih =>
      have hzero : (if ((shiftUp w poly)^[n] r).getLsbD (w - 1) then poly else 0#t).getLsbD i = false := by
        split
        · exact hpoly i hi
        · simp
      rw [Function.iterate_succ_apply', shiftUp, BitVec.getLsbD_xor, hzero, Bool.xor_false,
        BitVec.getLsbD_shiftLeft]
      cases i with
      | zero => simp
      | succ i => simp [ih (by omega : i < s) (by omega)]

theorem shiftUp_iterate_agree (hw : 0 < w) (h : Agree w a b) (n : Nat) :
    Agree w ((shiftUp w poly)^[n] a) ((shiftUp w poly)^[n] b) := by
  induction n with
  | zero => exact h
  | succ n ih =>
      rw [Function.iterate_succ_apply', Function.iterate_succ_apply', shiftUp, shiftUp, ih (w - 1) (by omega)]
      exact (ih.shiftLeft 1).xor (Agree.refl w _)

/-- With its highest bit in the polynomial the register loses nothing. -/
theorem shiftDown_injective (hpoly : poly.getLsbD (t - 1) = true) : Function.Injective (shiftDown poly) := by
  intro a b hab
  have htop : ∀ r : BitVec t, (shiftDown poly r).getLsbD (t - 1) = r.getLsbD 0 := by
    intro r
    have hpos : 0 < t := by
      by_contra hzero
      simp [BitVec.getLsbD_of_ge poly (t - 1) (by omega)] at hpoly
    rw [shiftDown, BitVec.getLsbD_xor, BitVec.getLsbD_ushiftRight, BitVec.getLsbD_of_ge r _ (by omega),
      Bool.false_xor]
    cases r.getLsbD 0 <;> simp [hpoly]
  have hlow : a.getLsbD 0 = b.getLsbD 0 := by rw [← htop a, ← htop b, hab]
  rw [shiftDown, shiftDown, hlow, BitVec.xor_left_inj] at hab
  apply BitVec.eq_of_getLsbD_eq
  intro i hi
  cases i with
  | zero => exact hlow
  | succ i =>
      have hbit := congrArg (·.getLsbD i) hab
      simp only [BitVec.getLsbD_ushiftRight] at hbit
      rwa [Nat.add_comm] at hbit

end GraduateOS.Library.ShiftRegisters
