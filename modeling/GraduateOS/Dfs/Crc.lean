import GraduateOS.Dfs.Directory
import GraduateOS.Library.ShiftRegisters
import Mathlib.Algebra.Group.Nat.Defs
import Mathlib.Data.List.Induction

namespace GraduateOS.Dfs.Crc

open Directory Library.ShiftRegisters

/-- `CRC::Parameters<CRCType, CRCWidth>`, for an integer type of `t` bits and a CRC of `w` bits. -/
structure Parameters (t w : Nat) where
  polynomial : BitVec t
  initialValue : BitVec t
  finalXOR : BitVec t
  reflectInput : Bool
  reflectOutput : Bool

variable {t w : Nat}

def bitMask (t w : Nat) : BitVec t := (1#t <<< (w - 1)) ||| ((1#t <<< (w - 1)) - 1#t)

/-- The cast of an `unsigned char` to the type of the CRC, and the one back. -/
def ofByte (t : Nat) (byte : UInt8) : BitVec t := byte.toBitVec.setWidth t

def toByte (r : BitVec t) : UInt8 := UInt8.ofBitVec (r.setWidth 8)

def reflectStep (p : BitVec t × BitVec t) : BitVec t × BitVec t :=
  ((p.1 <<< 1) ||| (p.2 &&& 1#t), p.2 >>> 1)

/-- The loop of `Reflect`, with `reversedValue` and what is left of `value`. -/
def reflect (value : BitVec t) (numBits : Nat) : BitVec t := (reflectStep^[numBits] (0#t, value)).1

def bitDown (polynomial remainder : BitVec t) : BitVec t :=
  if remainder &&& 1#t ≠ 0#t then (remainder >>> 1) ^^^ polynomial else remainder >>> 1

def bitUp (highest : Nat) (polynomial remainder : BitVec t) : BitVec t :=
  if remainder &&& (1#t <<< highest) ≠ 0#t then (remainder <<< 1) ^^^ polynomial else remainder <<< 1

/-- `CalculateRemainder` bit by bit. A CRC narrower than a byte is shifted to the top of a byte. -/
def calculateRemainder (p : Parameters t w) (data : Content) (remainder : BitVec t) : BitVec t :=
  if p.reflectInput then
    data.foldl (fun r byte => (bitDown (reflect p.polynomial w))^[8] (r ^^^ ofByte t byte)) remainder
  else if 8 ≤ w then
    data.foldl (fun r byte => (bitUp (w - 1) p.polynomial)^[8] (r ^^^ (ofByte t byte <<< (w - 8)))) remainder
  else
    data.foldl (fun r byte => (bitUp 7 (p.polynomial <<< (8 - w)))^[8] (r ^^^ ofByte t byte))
      (remainder <<< (8 - w)) >>> (8 - w)

/-- The entry of a byte that `InitTable` computes. -/
def table (p : Parameters t w) (byte : UInt8) : BitVec t :=
  let crc := calculateRemainder p [byte] 0#t &&& bitMask t w
  if ¬ p.reflectInput ∧ w < 8 then crc <<< (8 - w) else crc

/-- `CalculateRemainder` with the lookup table. -/
def calculateRemainderTable (p : Parameters t w) (data : Content) (remainder : BitVec t) : BitVec t :=
  if p.reflectInput then
    data.foldl (fun r byte => (r >>> 8) ^^^ table p (toByte (r ^^^ ofByte t byte))) remainder
  else if 8 ≤ w then
    data.foldl (fun r byte => (r <<< 8) ^^^ table p (toByte ((r >>> (w - 8)) ^^^ ofByte t byte))) remainder
  else
    data.foldl (fun r byte => table p (toByte (r ^^^ ofByte t byte))) (remainder <<< (8 - w)) >>> (8 - w)

def finalize (p : Parameters t w) (remainder : BitVec t) : BitVec t :=
  let remainder := if p.reflectInput ≠ p.reflectOutput then reflect remainder w else remainder
  (remainder ^^^ p.finalXOR) &&& bitMask t w

def undoFinalize (p : Parameters t w) (crc : BitVec t) : BitVec t :=
  let crc := (crc &&& bitMask t w) ^^^ p.finalXOR
  if p.reflectInput ≠ p.reflectOutput then reflect crc w else crc

def calculate (p : Parameters t w) (data : Content) : BitVec t :=
  finalize p (calculateRemainder p data p.initialValue)

/-- `Calculate` of more data, after a previous calculation. -/
def calculateMore (p : Parameters t w) (data : Content) (crc : BitVec t) : BitVec t :=
  finalize p (calculateRemainder p data (undoFinalize p crc))

def calculateTable (p : Parameters t w) (data : Content) : BitVec t :=
  finalize p (calculateRemainderTable p data p.initialValue)

def calculateMoreTable (p : Parameters t w) (data : Content) (crc : BitVec t) : BitVec t :=
  finalize p (calculateRemainderTable p data (undoFinalize p crc))

/-- `CRC_32()` -/
def crc_32 : Parameters 32 32 := ⟨0x04C11DB7#32, 0xFFFFFFFF#32, 0xFFFFFFFF#32, true, true⟩

/-- `CRC_5_EPC()` -/
def crc_5_epc : Parameters 8 5 := ⟨0x09#8, 0x09#8, 0x00#8, false, false⟩

def checkData : Content := [0x31, 0x32, 0x33, 0x34, 0x35, 0x36, 0x37, 0x38, 0x39]

/-- The check values that the header gives for the two. -/
example : calculateTable crc_32 checkData = 0xCBF43926#32 ∧ calculateTable crc_5_epc checkData = 0x00#8 := by
  decide +kernel

variable {p : Parameters t w} {a b r : BitVec t} {n i : Nat} {data data' : Content}

theorem bit_ne_zero {k : Nat} (hk : k < t) : r &&& (1#t <<< k) ≠ 0#t ↔ r.getLsbD k = true := by
  constructor
  · intro hne
    by_contra hbit
    refine hne (BitVec.eq_of_getLsbD_eq fun i _ => ?_)
    by_cases hi : i = k
    · subst i
      simp [Bool.eq_false_iff.mpr hbit]
    · simp only [BitVec.getLsbD_and, BitVec.getLsbD_shiftLeft, BitVec.getLsbD_one, BitVec.getLsbD_zero]
      have hsub : i < k ∨ i - k ≠ 0 := by omega
      rcases hsub with hlt | hsub
      · simp [hlt]
      · simp [hsub]
  · intro hbit hzero
    have hand := congrArg (·.getLsbD k) hzero
    simp only [BitVec.getLsbD_and, BitVec.getLsbD_shiftLeft, BitVec.getLsbD_one, BitVec.getLsbD_zero,
      hbit] at hand
    simp [hk] at hand
    omega

theorem bitMask_getLsbD (hw : 0 < w) (hwt : w ≤ t) (i : Nat) :
    (bitMask t w).getLsbD i = decide (i < w) := by
  have hlt : 1 <<< (w - 1) < 2 ^ t := by
    rw [Nat.one_shiftLeft]
    exact Nat.pow_lt_pow_right (by decide) (by omega)
  have hpos : 0 < 2 ^ (w - 1) := Nat.two_pow_pos _
  have hone : (1#t).toNat = 1 := BitVec.toNat_one (by omega)
  have htop : (1#t <<< (w - 1)).toNat = 2 ^ (w - 1) := by
    rw [BitVec.toNat_shiftLeft, hone, Nat.mod_eq_of_lt hlt, Nat.one_shiftLeft]
  have hrest : (1#t <<< (w - 1) - 1#t).toNat = 2 ^ (w - 1) - 1 := by
    rw [BitVec.toNat_sub_of_le (by rw [BitVec.le_def, hone, htop]; exact hpos), hone, htop]
  rw [BitVec.getLsbD, bitMask, BitVec.toNat_or, htop, hrest, Nat.testBit_or, Nat.testBit_two_pow_sub_one,
    Nat.testBit_two_pow]
  by_cases hi : i < w - 1 <;> simp [hi] <;> omega

theorem bitDown_eq (ht : 0 < t) (polynomial : BitVec t) : bitDown polynomial = shiftDown polynomial := by
  funext r
  have hbit := bit_ne_zero (r := r) ht
  rw [BitVec.shiftLeft_zero] at hbit
  rw [bitDown, shiftDown]
  by_cases hr : r.getLsbD 0
  · rw [if_pos (hbit.mpr hr), if_pos hr]
  · rw [if_neg (fun h => hr (hbit.mp h)), if_neg hr, BitVec.xor_zero]

theorem bitUp_eq (hw : 0 < w) (hwt : w ≤ t) (polynomial : BitVec t) :
    bitUp (w - 1) polynomial = shiftUp w polynomial := by
  funext r
  have hbit := bit_ne_zero (r := r) (show w - 1 < t by omega)
  rw [bitUp, shiftUp]
  by_cases hr : r.getLsbD (w - 1)
  · rw [if_pos (hbit.mpr hr), if_pos hr]
  · rw [if_neg (fun h => hr (hbit.mp h)), if_neg hr, BitVec.xor_zero]

theorem reflectStep_iterate (hn : n ≤ t) (i : Nat) :
    ((reflectStep^[n] (0#t, a)).1.getLsbD i = (decide (i < n) && a.getLsbD (n - 1 - i))) ∧
      (reflectStep^[n] (0#t, a)).2 = a >>> n := by
  induction n generalizing i with
  | zero => simp
  | succ n ih =>
      obtain ⟨_, hvalue⟩ := ih (by omega) i
      rw [Function.iterate_succ_apply', reflectStep]
      refine ⟨?_, ?_⟩
      · simp only [BitVec.getLsbD_or, BitVec.getLsbD_shiftLeft, BitVec.getLsbD_and, hvalue,
          BitVec.getLsbD_one, BitVec.getLsbD_ushiftRight, (ih (by omega) (i - 1)).1]
        cases i with
        | zero =>
            simp
            omega
        | succ i =>
            have hsub : n + 1 - 1 - (i + 1) = n - 1 - i := by omega
            rw [hsub]
            by_cases hi : i < n
            · simp [hi]
              omega
            · simp [hi]
      · rw [hvalue, BitVec.shiftRight_add]

theorem reflect_getLsbD (hn : n ≤ t) : (reflect a n).getLsbD i = (decide (i < n) && a.getLsbD (n - 1 - i)) :=
  (reflectStep_iterate hn i).1

theorem reflect_small (hwt : w ≤ t) (a : BitVec t) : Small w (reflect a w) := by
  intro i hi
  rw [reflect_getLsbD hwt]
  simp [Nat.not_lt.mpr hi]

theorem reflect_agree (hwt : w ≤ t) (h : Agree w a b) : reflect a w = reflect b w := by
  apply BitVec.eq_of_getLsbD_eq
  intro i _
  rw [reflect_getLsbD hwt, reflect_getLsbD hwt]
  by_cases hi : i < w
  · rw [h _ (by omega)]
  · simp [hi]

theorem mask_agree (hw : 0 < w) (hwt : w ≤ t) (a : BitVec t) : Agree w (a &&& bitMask t w) a := by
  intro i hi
  rw [BitVec.getLsbD_and, bitMask_getLsbD hw hwt]
  simp [hi]

theorem mask_small (hw : 0 < w) (hwt : w ≤ t) (a : BitVec t) : Small w (a &&& bitMask t w) := by
  intro i hi
  rw [BitVec.getLsbD_and, bitMask_getLsbD hw hwt]
  simp [Nat.not_lt.mpr hi]

theorem mask_of_small (hw : 0 < w) (hwt : w ≤ t) (h : Small w a) : a &&& bitMask t w = a :=
  (mask_agree hw hwt a).eq_of_small (mask_small hw hwt a) h

theorem ofByte_getLsbD (byte : UInt8) (i : Nat) :
    (ofByte t byte).getLsbD i = (decide (i < t) && byte.toBitVec.getLsbD i) := by
  rw [ofByte, BitVec.getLsbD_setWidth]

theorem ofByte_small (byte : UInt8) : Small 8 (ofByte t byte) := by
  intro i hi
  rw [ofByte_getLsbD, BitVec.getLsbD_of_ge _ _ hi, Bool.and_false]

theorem toByte_getLsbD (a : BitVec t) (i : Nat) :
    (toByte a).toBitVec.getLsbD i = (decide (i < 8) && a.getLsbD i) := by
  rw [toByte]
  simp [BitVec.getLsbD_setWidth]

theorem toByte_agree (h : Agree 8 a b) : toByte a = toByte b := by
  apply UInt8.toBitVec_inj.mp
  apply BitVec.eq_of_getLsbD_eq
  intro i hi
  rw [toByte_getLsbD, toByte_getLsbD, h i hi]

/-- A value is its low byte and the rest. -/
theorem byte_split (ht : 8 ≤ t) (a : BitVec t) (i : Nat) :
    (a ^^^ ofByte t (toByte a)).getLsbD i = (!decide (i < 8) && a.getLsbD i) := by
  rw [BitVec.getLsbD_xor, ofByte_getLsbD, toByte_getLsbD]
  by_cases hi : i < 8
  · simp [hi, show i < t by omega]
  · simp [hi]

theorem xor_cancel (a b : BitVec t) : b ^^^ (a ^^^ b) = a := by
  rw [BitVec.xor_comm a b, ← BitVec.xor_assoc, BitVec.xor_self, BitVec.zero_xor]

/-- Eight steps are a look-up for the byte that comes out, and a shift of the rest. -/
theorem shiftDown_byte (ht : 8 ≤ t) (poly a : BitVec t) :
    (shiftDown poly)^[8] a = (a >>> 8) ^^^ (shiftDown poly)^[8] (ofByte t (toByte a)) := by
  have hrest : (shiftDown poly)^[8] (a ^^^ ofByte t (toByte a)) = a >>> 8 := by
    rw [shiftDown_iterate_clear]
    · apply BitVec.eq_of_getLsbD_eq
      intro i _
      rw [BitVec.getLsbD_ushiftRight, BitVec.getLsbD_ushiftRight, byte_split ht]
      simp
    · intro i hi
      rw [byte_split ht]
      simp [hi]
  calc (shiftDown poly)^[8] a
    _ = (shiftDown poly)^[8] (ofByte t (toByte a) ^^^ (a ^^^ ofByte t (toByte a))) := by rw [xor_cancel]
    _ = (shiftDown poly)^[8] (ofByte t (toByte a)) ^^^ (a >>> 8) := by
        rw [(shiftDown_linear poly).iterate 8, hrest]
    _ = (a >>> 8) ^^^ (shiftDown poly)^[8] (ofByte t (toByte a)) := BitVec.xor_comm _ _

theorem ofByte_shiftRight (byte : UInt8) : ofByte t byte >>> 8 = 0#t := by
  apply BitVec.eq_of_getLsbD_eq
  intro i _
  rw [BitVec.getLsbD_ushiftRight, ofByte_small byte _ (by omega), BitVec.getLsbD_zero]

theorem table_reflected (hw : 0 < w) (hwt : w ≤ t) (ht : 8 ≤ t) (hreflect : p.reflectInput = true)
    (byte : UInt8) : table p byte = (shiftDown (reflect p.polynomial w))^[8] (ofByte t byte) := by
  have hsmall : Small w ((shiftDown (reflect p.polynomial w))^[8] (ofByte t byte)) := by
    intro i hi
    rw [shiftDown_iterate_above (reflect_small hwt _) hi]
    exact ofByte_small byte _ (by omega)
  rw [table]
  simp only [calculateRemainder, hreflect, if_true, List.foldl_cons, List.foldl_nil, BitVec.zero_xor,
    bitDown_eq (show 0 < t by omega), mask_of_small hw hwt hsmall]
  simp

theorem remainder_reflected (hw : 0 < w) (hwt : w ≤ t) (ht : 8 ≤ t) (hreflect : p.reflectInput = true)
    (data : Content) (r : BitVec t) : calculateRemainderTable p data r = calculateRemainder p data r := by
  rw [calculateRemainderTable, calculateRemainder, if_pos hreflect, if_pos hreflect,
    bitDown_eq (show 0 < t by omega)]
  congr 1
  funext r byte
  rw [table_reflected hw hwt ht hreflect, shiftDown_byte ht _ (r ^^^ ofByte t byte),
    BitVec.ushiftRight_xor_distrib, ofByte_shiftRight, BitVec.xor_zero]

def topByte (w : Nat) (a : BitVec t) : UInt8 := toByte (a >>> (w - 8))

theorem topByte_getLsbD (hwt : w ≤ t) (hw : 8 ≤ w) (a : BitVec t) (i : Nat) :
    (ofByte t (topByte w a) <<< (w - 8)).getLsbD i = (decide (w - 8 ≤ i ∧ i < w) && a.getLsbD i) := by
  rw [BitVec.getLsbD_shiftLeft, ofByte_getLsbD, topByte, toByte_getLsbD, BitVec.getLsbD_ushiftRight]
  by_cases hi : w - 8 ≤ i ∧ i < w
  · have hsum : w - 8 + (i - (w - 8)) = i := by omega
    simp [hi, hsum, show i < t by omega, show i - (w - 8) < t by omega, show i - (w - 8) < 8 by omega]
  · have hout : i < w - 8 ∨ ¬ i - (w - 8) < 8 := by omega
    rw [decide_eq_false hi]
    rcases hout with hout | hout <;> simp [hout]

theorem shiftUp_byte (hwt : w ≤ t) (hw : 8 ≤ w) (poly a : BitVec t) :
    Agree w ((shiftUp w poly)^[8] a)
      ((a <<< 8) ^^^ (shiftUp w poly)^[8] (ofByte t (topByte w a) <<< (w - 8))) := by
  have hrest : (shiftUp w poly)^[8] (a ^^^ ofByte t (topByte w a) <<< (w - 8)) =
      (a ^^^ ofByte t (topByte w a) <<< (w - 8)) <<< 8 := by
    refine shiftUp_iterate_clear hw fun i hlower hupper => ?_
    rw [BitVec.getLsbD_xor, topByte_getLsbD hwt hw]
    simp [hlower, hupper]
  have hsum : (shiftUp w poly)^[8] a = (a ^^^ ofByte t (topByte w a) <<< (w - 8)) <<< 8 ^^^
      (shiftUp w poly)^[8] (ofByte t (topByte w a) <<< (w - 8)) := by
    rw [← hrest, ← (shiftUp_linear w poly).iterate 8, BitVec.xor_assoc, BitVec.xor_self, BitVec.xor_zero]
  rw [hsum]
  refine Agree.xor (fun i hi => ?_) (Agree.refl w _)
  rw [BitVec.getLsbD_shiftLeft, BitVec.getLsbD_shiftLeft, BitVec.getLsbD_xor, topByte_getLsbD hwt hw]
  by_cases hlow : i < 8
  · simp [hlow]
  · simp [show ¬ (w ≤ i - 8 + 8) by omega]

theorem table_forward (hwt : w ≤ t) (hw : 8 ≤ w) (hreflect : p.reflectInput = false) (byte : UInt8) :
    table p byte = (shiftUp w p.polynomial)^[8] (ofByte t byte <<< (w - 8)) &&& bitMask t w := by
  rw [table]
  simp [calculateRemainder, hreflect, if_pos hw, bitUp_eq (show 0 < w by omega) hwt, Nat.not_lt.mpr hw]

theorem step_forward (hwt : w ≤ t) (hw : 8 ≤ w) (hreflect : p.reflectInput = false) (h : Agree w a b)
    (byte : UInt8) :
    Agree w ((a <<< 8) ^^^ table p (toByte ((a >>> (w - 8)) ^^^ ofByte t byte)))
      ((shiftUp w p.polynomial)^[8] (b ^^^ ofByte t byte <<< (w - 8))) := by
  have hshift : ∀ i, (ofByte t byte <<< (w - 8)).getLsbD (w - 8 + i) = (ofByte t byte).getLsbD i ∨ t ≤ w - 8 + i := by
    intro i
    rw [BitVec.getLsbD_shiftLeft, Nat.add_sub_cancel_left]
    by_cases hi : w - 8 + i < t
    · exact .inl (by simp [hi])
    · exact .inr (Nat.not_lt.mp hi)
  have hbyte : toByte ((a >>> (w - 8)) ^^^ ofByte t byte) = topByte w (b ^^^ ofByte t byte <<< (w - 8)) := by
    refine toByte_agree fun i hi => ?_
    rw [BitVec.getLsbD_xor, BitVec.getLsbD_ushiftRight, BitVec.getLsbD_ushiftRight, BitVec.getLsbD_xor,
      h _ (by omega), (hshift i).resolve_right (by omega)]
  refine Agree.trans ?_ (shiftUp_byte hwt hw p.polynomial (b ^^^ ofByte t byte <<< (w - 8))).symm
  rw [hbyte, table_forward hwt hw hreflect]
  refine Agree.xor (fun i hi => ?_) (mask_agree (by omega) hwt _)
  rw [BitVec.getLsbD_shiftLeft, BitVec.getLsbD_shiftLeft, BitVec.getLsbD_xor, h _ (by omega),
    BitVec.getLsbD_shiftLeft]
  by_cases hlow : i < 8
  · simp [hlow]
  · simp [show i - 8 < w - 8 by omega]

theorem table_narrow (hw : 0 < w) (hwt : w ≤ t) (hnarrow : w < 8) (ht : 8 ≤ t)
    (hreflect : p.reflectInput = false) (byte : UInt8) :
    Agree 8 (table p byte) ((shiftUp 8 (p.polynomial <<< (8 - w)))^[8] (ofByte t byte)) := by
  have hup : bitUp 7 (p.polynomial <<< (8 - w)) = shiftUp 8 (p.polynomial <<< (8 - w)) :=
    bitUp_eq (w := 8) (by decide) ht _
  intro i hi
  simp only [table, calculateRemainder, hreflect, Bool.false_eq_true, if_false, Nat.not_le.mpr hnarrow,
    List.foldl_cons, List.foldl_nil, hup, not_false_iff, hnarrow, and_self, if_true,
    BitVec.zero_shiftLeft, BitVec.zero_xor]
  rw [BitVec.getLsbD_shiftLeft, BitVec.getLsbD_and, bitMask_getLsbD hw hwt, BitVec.getLsbD_ushiftRight]
  by_cases hlow : i < 8 - w
  · rw [shiftUp_iterate_below (s := 8 - w) (fun j hj => by simp [hj]) hlow hi]
    simp [hlow]
  · have hsum : 8 - w + (i - (8 - w)) = i := by omega
    simp [hlow, hsum, show i < t by omega, show i - (8 - w) < w by omega]

theorem step_narrow (hw : 0 < w) (hwt : w ≤ t) (hnarrow : w < 8) (ht : 8 ≤ t)
    (hreflect : p.reflectInput = false) (h : Agree 8 a b) (byte : UInt8) :
    Agree 8 (table p (toByte (a ^^^ ofByte t byte)))
      ((shiftUp 8 (p.polynomial <<< (8 - w)))^[8] (b ^^^ ofByte t byte)) := by
  refine (table_narrow hw hwt hnarrow ht hreflect _).trans (shiftUp_iterate_agree (by decide) ?_ 8)
  intro i hi
  rw [ofByte_getLsbD, toByte_getLsbD, h.xor (Agree.refl 8 (ofByte t byte)) i hi]
  simp [hi, show i < t by omega]

theorem foldl_agree {step step' : BitVec t → UInt8 → BitVec t} {n : Nat}
    (hstep : ∀ a b byte, Agree n a b → Agree n (step a byte) (step' b byte)) (h : Agree n a b)
    (data : Content) : Agree n (data.foldl step a) (data.foldl step' b) := by
  induction data generalizing a b with
  | nil => exact h
  | cons byte data ih => exact ih (hstep _ _ byte h)

theorem shiftRight_agree (hnarrow : w < 8) (h : Agree 8 a b) : Agree w (a >>> (8 - w)) (b >>> (8 - w)) := by
  intro i hi
  rw [BitVec.getLsbD_ushiftRight, BitVec.getLsbD_ushiftRight, h _ (by omega)]

structure Sizes (t w : Nat) : Prop where
  positive : 0 < w
  fits : w ≤ t
  byte : 8 ≤ t

theorem remainder_agree (hs : Sizes t w) (p : Parameters t w) (data : Content) (r : BitVec t) :
    Agree w (calculateRemainderTable p data r) (calculateRemainder p data r) := by
  obtain ⟨hw, hwt, ht⟩ := hs
  cases hreflect : p.reflectInput with
  | true => rw [remainder_reflected hw hwt ht hreflect]; exact Agree.refl w _
  | false =>
      rw [calculateRemainderTable, calculateRemainder]
      simp only [hreflect, Bool.false_eq_true, if_false]
      by_cases hwide : 8 ≤ w
      · rw [if_pos hwide, if_pos hwide, bitUp_eq hw hwt]
        exact foldl_agree (fun a b byte h => step_forward hwt hwide hreflect h byte) (Agree.refl w r) data
      · have hup : bitUp 7 (p.polynomial <<< (8 - w)) = shiftUp 8 (p.polynomial <<< (8 - w)) :=
          bitUp_eq (w := 8) (by decide) ht _
        rw [if_neg hwide, if_neg hwide, hup]
        refine shiftRight_agree (Nat.not_le.mp hwide) (foldl_agree ?_ (Agree.refl 8 _) data)
        exact fun a b byte h => step_narrow hw hwt (Nat.not_le.mp hwide) ht hreflect h byte

theorem finalize_agree (hs : Sizes t w) (h : Agree w a b) : finalize p a = finalize p b := by
  obtain ⟨hw, hwt, _⟩ := hs
  have hmasked : ∀ {a b : BitVec t}, Agree w a b → (a ^^^ p.finalXOR) &&& bitMask t w =
      (b ^^^ p.finalXOR) &&& bitMask t w := by
    intro a b h
    refine Agree.eq_of_small ?_ (mask_small hw hwt _) (mask_small hw hwt _)
    exact ((mask_agree hw hwt _).trans (h.xor (Agree.refl w _))).trans (mask_agree hw hwt _).symm
  simp only [finalize]
  split
  · rw [reflect_agree hwt h]
  · exact hmasked h

/-- The look-up table makes no difference, for any parameters and any previous value. -/
theorem table_exact (hs : Sizes t w) (p : Parameters t w) (data : Content) (crc : BitVec t) :
    calculateTable p data = calculate p data ∧ calculateMoreTable p data crc = calculateMore p data crc :=
  ⟨finalize_agree hs (remainder_agree hs p data _), finalize_agree hs (remainder_agree hs p data _)⟩

theorem crc_5_epc_exact :
    calculateTable crc_5_epc checkData = calculate crc_5_epc checkData ∧
      calculateMoreTable crc_5_epc checkData 0x15#8 = calculateMore crc_5_epc checkData 0x15#8 :=
  table_exact ⟨by decide, by decide, by decide⟩ crc_5_epc checkData 0x15#8

structure WellFormed (p : Parameters t w) : Prop where
  initialValue : Small w p.initialValue
  finalXOR : Small w p.finalXOR

theorem undoFinalize_agree (hs : Sizes t w) (p : Parameters t w) (r : BitVec t) :
    Agree w (undoFinalize p (finalize p r)) r := by
  obtain ⟨hw, hwt, _⟩ := hs
  have hundo : ∀ y : BitVec t, Agree w ((((y ^^^ p.finalXOR) &&& bitMask t w) &&& bitMask t w) ^^^ p.finalXOR) y := by
    intro y i hi
    rw [BitVec.getLsbD_xor, mask_agree hw hwt _ i hi, mask_agree hw hwt _ i hi, BitVec.getLsbD_xor,
      Bool.xor_assoc, Bool.xor_self, Bool.xor_false]
  simp only [finalize, undoFinalize]
  split
  · rw [reflect_agree hwt (hundo _)]
    intro i hi
    rw [reflect_getLsbD hwt, reflect_getLsbD hwt]
    have hback : w - 1 - (w - 1 - i) = i := by omega
    simp [hi, hback, show w - 1 - i < w by omega]
  · exact hundo r

theorem undoFinalize_small (hs : Sizes t w) (hp : WellFormed p) (crc : BitVec t) :
    Small w (undoFinalize p crc) := by
  obtain ⟨hw, hwt, _⟩ := hs
  simp only [undoFinalize]
  split
  · exact reflect_small hwt _
  · intro i hi
    rw [BitVec.getLsbD_xor, mask_small hw hwt _ i hi, hp.finalXOR i hi, Bool.xor_false]

theorem remainder_small (hs : Sizes t w) (hreflect : p.reflectInput = true) (hr : Small w r) (data : Content) :
    Small w (calculateRemainder p data r) := by
  obtain ⟨_, hwt, ht⟩ := hs
  rw [calculateRemainder, if_pos hreflect, bitDown_eq (show 0 < t by omega)]
  induction data generalizing r with
  | nil => exact hr
  | cons byte data ih =>
      refine ih (fun i hi => ?_)
      rw [shiftDown_iterate_above (reflect_small hwt _) hi, BitVec.getLsbD_xor, hr _ (by omega),
        ofByte_small byte _ (by omega), Bool.xor_false]

/-- The remainder of more data does not depend on the bits above the width. -/
theorem remainder_congr (hs : Sizes t w) (hreflect : p.reflectInput = false) (h : Agree w a b) (data : Content) :
    Agree w (calculateRemainder p data a) (calculateRemainder p data b) := by
  obtain ⟨hw, hwt, ht⟩ := hs
  simp only [calculateRemainder, hreflect, Bool.false_eq_true, if_false]
  by_cases hwide : 8 ≤ w
  · rw [if_pos hwide, if_pos hwide, bitUp_eq hw hwt]
    refine foldl_agree (fun a b byte h => ?_) h data
    exact shiftUp_iterate_agree hw (h.xor (Agree.refl w _)) 8
  · have hup : bitUp 7 (p.polynomial <<< (8 - w)) = shiftUp 8 (p.polynomial <<< (8 - w)) :=
      bitUp_eq (w := 8) (by decide) ht _
    rw [if_neg hwide, if_neg hwide, hup]
    refine shiftRight_agree (Nat.not_le.mp hwide) (foldl_agree (fun a b byte h => ?_) (fun i hi => ?_) data)
    · exact shiftUp_iterate_agree (by decide) (h.xor (Agree.refl 8 _)) 8
    · rw [BitVec.getLsbD_shiftLeft, BitVec.getLsbD_shiftLeft]
      by_cases hlow : i < 8 - w
      · simp [hlow]
      · rw [h _ (by omega)]

theorem remainder_append (hs : Sizes t w) (p : Parameters t w) (data data' : Content) (r : BitVec t) :
    Agree w (calculateRemainder p data' (calculateRemainder p data r))
      (calculateRemainder p (data ++ data') r) := by
  obtain ⟨hw, hwt, ht⟩ := hs
  simp only [calculateRemainder, List.foldl_append]
  split
  · exact Agree.refl w _
  · split
    · exact Agree.refl w _
    next hwide =>
      have hup : bitUp 7 (p.polynomial <<< (8 - w)) = shiftUp 8 (p.polynomial <<< (8 - w)) :=
        bitUp_eq (w := 8) (by decide) ht _
      have hzeros : ∀ data : Content, ∀ i, i < 8 - w →
          (data.foldl (fun r byte => (shiftUp 8 (p.polynomial <<< (8 - w)))^[8] (r ^^^ ofByte t byte))
            (r <<< (8 - w))).getLsbD i = false := by
        intro data i hi
        induction data using List.reverseRecOn with
        | nil => simp [hi]
        | append_singleton data byte _ =>
            rw [List.foldl_append, List.foldl_cons, List.foldl_nil]
            exact shiftUp_iterate_below (s := 8 - w) (fun j hj => by simp [hj]) hi (by omega)
      rw [hup]
      refine shiftRight_agree (Nat.not_le.mp hwide) (foldl_agree (fun a b byte h => ?_) (fun i hi => ?_) data')
      · exact shiftUp_iterate_agree (by decide) (h.xor (Agree.refl 8 _)) 8
      · rw [BitVec.getLsbD_shiftLeft, BitVec.getLsbD_ushiftRight]
        by_cases hlow : i < 8 - w
        · rw [hzeros data i hlow]
          simp [hlow]
        · have hsum : 8 - w + (i - (8 - w)) = i := by omega
          simp [hlow, hsum, show i < t by omega]

/-- A CRC that is calculated in parts is the CRC of the whole. -/
theorem parts_exact (hs : Sizes t w) (hp : WellFormed p) (data data' : Content) :
    calculateMore p data' (calculate p data) = calculate p (data ++ data') := by
  refine finalize_agree hs (Agree.trans ?_ (remainder_append hs p data data' _))
  have hback := undoFinalize_agree hs p (calculateRemainder p data p.initialValue)
  cases hreflect : p.reflectInput with
  | true =>
      have hsmall := remainder_small hs hreflect hp.initialValue data
      rw [calculate, hback.eq_of_small (undoFinalize_small hs hp _) hsmall]
      exact Agree.refl w _
  | false => exact remainder_congr hs hreflect hback data'

theorem crc_32_parts : calculateMore crc_32 [0x35, 0x36, 0x37, 0x38, 0x39]
    (calculate crc_32 [0x31, 0x32, 0x33, 0x34]) = calculate crc_32 checkData :=
  parts_exact ⟨by decide, by decide, by decide⟩
    ⟨fun i hi => BitVec.getLsbD_of_ge _ i hi, fun i hi => BitVec.getLsbD_of_ge _ i hi⟩ _ _

end GraduateOS.Dfs.Crc
