import GraduateOS.Dfs.Crc
import GraduateOS.Dfs.FedBytes
import GraduateOS.Dfs.Transfers

namespace GraduateOS.Dfs.Bursts

open Directory Crc ServerNode ClientNode Transfers Library.ShiftRegisters

variable {t : Nat} {p : Parameters t t} {poly r : BitVec t} {burst burst' before after data : Content}

/-- The bytes of a burst as one value, the first byte lowest. -/
def pack (t : Nat) : Content → BitVec t
  | [] => 0#t
  | byte :: burst => ofByte t byte ^^^ (pack t burst <<< 8)

theorem pack_small (burst : Content) : Small (8 * burst.length) (pack t burst) := by
  induction burst with
  | nil => intro i _; simp [pack]
  | cons byte burst ih =>
      intro i hi
      rw [List.length_cons] at hi
      rw [pack, BitVec.getLsbD_xor, ofByte_small byte i (by omega), BitVec.getLsbD_shiftLeft,
        ih (i - 8) (by omega)]
      simp

theorem pack_shift (hfit : 8 * burst.length + 8 ≤ t) : pack t burst <<< 8 >>> 8 = pack t burst := by
  apply BitVec.eq_of_getLsbD_eq
  intro i hi
  rw [BitVec.getLsbD_ushiftRight, BitVec.getLsbD_shiftLeft]
  by_cases hlow : i < 8 * burst.length
  · simp [show 8 + i < t by omega, show ¬ 8 + i < 8 by omega]
  · rw [pack_small burst i (by omega), Nat.add_sub_cancel_left, pack_small burst i (by omega), Bool.and_false]

theorem pack_injective (hlength : burst.length = burst'.length) (hfit : 8 * burst.length ≤ t)
    (hpack : pack t burst = pack t burst') : burst = burst' := by
  induction burst generalizing burst' with
  | nil => exact (List.eq_nil_of_length_eq_zero hlength.symm).symm
  | cons byte burst ih =>
      cases burst' with
      | nil => simp at hlength
      | cons byte' burst' =>
          simp only [List.length_cons] at hlength hfit
          have hlow : ∀ (byte : UInt8) (burst : Content) (i : Nat), i < 8 →
              (pack t (byte :: burst)).getLsbD i = byte.toBitVec.getLsbD i := by
            intro byte burst i hi
            rw [pack, BitVec.getLsbD_xor, ofByte_getLsbD, BitVec.getLsbD_shiftLeft]
            simp [hi, show i < t by omega]
          have hbyte : byte = byte' := by
            apply UInt8.toBitVec_inj.mp
            apply BitVec.eq_of_getLsbD_eq
            intro i hi
            rw [← hlow byte burst i hi, ← hlow byte' burst' i hi, hpack]
          subst hbyte
          rw [pack, pack, BitVec.xor_right_inj] at hpack
          have hrest : pack t burst <<< 8 >>> 8 = pack t burst' <<< 8 >>> 8 := by rw [hpack]
          rw [pack_shift (by omega), pack_shift (by omega)] at hrest
          rw [ih (by omega) (by omega) hrest]

/-- Bytes that fit into the register can be fed all at once. -/
theorem feed_burst (burst : Content) (hfit : 8 * burst.length ≤ t) (r : BitVec t) :
    burst.foldl (fun r byte => (shiftDown poly)^[8] (r ^^^ ofByte t byte)) r =
      (shiftDown poly)^[8 * burst.length] (r ^^^ pack t burst) := by
  induction burst generalizing r with
  | nil => simp [pack]
  | cons byte burst ih =>
      rw [List.length_cons] at hfit
      have hclear : (shiftDown poly)^[8] (pack t burst <<< 8) = pack t burst := by
        rw [shiftDown_iterate_clear (fun i hi => by simp [hi]), pack_shift (by omega)]
      rw [List.foldl_cons, ih (by omega), List.length_cons, Nat.mul_succ, Function.iterate_add_apply, pack,
        ← BitVec.xor_assoc, (shiftDown_linear poly).iterate 8 _ (pack t burst <<< 8), hclear]

theorem feed_injective (hpoly : poly.getLsbD (t - 1) = true) (data : Content) :
    Function.Injective fun r => data.foldl (fun r byte => (shiftDown poly)^[8] (r ^^^ ofByte t byte)) r := by
  induction data with
  | nil => exact fun _ _ h => h
  | cons byte data ih =>
      intro a b hab
      have hstep := ih hab
      exact (BitVec.xor_left_inj _).mp ((shiftDown_injective hpoly).iterate 8 hstep)

/-- A reflected CRC of full width with an odd polynomial tells every two data
apart that differ in no more bytes in a row than it has itself. -/
theorem burst_detected (ht : 8 ≤ t) (hreflect : p.reflectInput = true)
    (hodd : p.polynomial.getLsbD 0 = true) (hlength : burst.length = burst'.length)
    (hfit : 8 * burst.length ≤ t) (hne : burst ≠ burst') :
    calculate p (before ++ burst ++ after) ≠ calculate p (before ++ burst' ++ after) := by
  intro hsame
  have hs : Sizes t t := ⟨by omega, Nat.le_refl t, ht⟩
  have hpoly : (reflect p.polynomial t).getLsbD (t - 1) = true := by
    rw [reflect_getLsbD (Nat.le_refl t)]
    simp [hodd]
    omega
  have hremainder : ∀ data, calculateRemainder p data p.initialValue = data.foldl
      (fun r byte => (shiftDown (reflect p.polynomial t))^[8] (r ^^^ ofByte t byte)) p.initialValue := by
    intro data
    rw [calculateRemainder, if_pos hreflect, bitDown_eq (by omega)]
  have hback : ∀ data, undoFinalize p (calculate p data) = calculateRemainder p data p.initialValue := by
    intro data
    have hagree := undoFinalize_agree hs p (calculateRemainder p data p.initialValue)
    exact hagree.eq_of_small (fun i hi => BitVec.getLsbD_of_ge _ i hi) (fun i hi => BitVec.getLsbD_of_ge _ i hi)
  have hremainders := congrArg (undoFinalize p) hsame
  rw [hback, hback, hremainder, hremainder, List.foldl_append, List.foldl_append, List.foldl_append,
    List.foldl_append] at hremainders
  have hbursts := feed_injective hpoly after hremainders
  rw [feed_burst burst hfit, feed_burst burst' (by omega), hlength] at hbursts
  have hpacked := (shiftDown_injective hpoly).iterate _ hbursts
  exact hne (pack_injective hlength hfit ((BitVec.xor_right_inj _).mp hpacked))

theorem remainderBit_toBitVec (r : UInt32) :
    (Checksum.remainderBit r).toBitVec = bitDown (reflect crc_32.polynomial 32) r.toBitVec := by
  have hpolynomial : reflect crc_32.polynomial 32 = Checksum.polynomial.toBitVec := by decide
  have hbit : r &&& 1 = 1 ↔ r.toBitVec &&& 1#32 ≠ 0#32 := by
    rw [← UInt32.toBitVec_inj, UInt32.toBitVec_and]
    show r.toBitVec &&& 1#32 = 1#32 ↔ _
    rw [BitVec.and_one_eq_setWidth_ofBool_getLsbD]
    cases r.toBitVec.getLsbD 0 <;> decide
  rw [bitDown, hpolynomial, Checksum.remainderBit]
  by_cases hr : r &&& 1 = 1
  · rw [if_pos hr, if_pos (hbit.mp hr)]
    rfl
  · rw [if_neg hr, if_neg (fun h => hr (hbit.mpr h))]
    rfl

theorem tableEntry_toBitVec (byte : UInt8) : (Checksum.tableEntry byte).toBitVec = table crc_32 byte := by
  have hiterate : ∀ n (r : UInt32), (Checksum.remainderBit^[n] r).toBitVec =
      (bitDown (reflect crc_32.polynomial 32))^[n] r.toBitVec := by
    intro n r
    induction n with
    | zero => rfl
    | succ n ih => rw [Function.iterate_succ_apply', Function.iterate_succ_apply', remainderBit_toBitVec, ih]
  rw [table_reflected (by decide) (by decide) (by decide) rfl, ← bitDown_eq (by decide), Checksum.tableEntry,
    hiterate]
  rfl

theorem remainder_toBitVec (data : Content) (r : UInt32) :
    (Checksum.calculateRemainder data r).toBitVec = calculateRemainderTable crc_32 data r.toBitVec := by
  rw [Checksum.calculateRemainder, calculateRemainderTable, if_pos (show crc_32.reflectInput = true from rfl)]
  induction data generalizing r with
  | nil => rfl
  | cons byte data ih =>
      have hbyte : toByte (r.toBitVec ^^^ ofByte 32 byte) = r.toUInt8 ^^^ byte := by
        apply UInt8.toBitVec_inj.mp
        apply BitVec.eq_of_getLsbD_eq
        intro i hi
        rw [toByte_getLsbD, BitVec.getLsbD_xor, ofByte_getLsbD, UInt8.toBitVec_xor, BitVec.getLsbD_xor]
        simp [hi, show i < 32 by omega]
      rw [List.foldl_cons, List.foldl_cons, ih, hbyte, UInt32.toBitVec_xor, tableEntry_toBitVec]
      rfl

/-- What the file checksum feeds on is run through the plain CRC-32. -/
theorem crc32_toBitVec (data : Content) : (FedBytes.crc32 data).toBitVec = calculate crc_32 data := by
  have hs : Sizes 32 32 := ⟨by decide, by decide, by decide⟩
  have htable : calculateTable crc_32 data = calculate crc_32 data := finalize_agree hs (remainder_agree hs crc_32 data _)
  rw [← htable, FedBytes.crc32, calculateTable, finalize, UInt32.toBitVec_xor, remainder_toBitVec,
    if_neg (by decide)]
  exact (mask_of_small (by decide) (by decide) (fun i hi => BitVec.getLsbD_of_ge _ i hi)).symm

theorem wholeChunks_checksum (hwhole : FedBytes.WholeChunks data.length) :
    (Checksum.dfsFileChecksum (some data)).toBitVec = calculate crc_32 data := by
  have hexact := (FedBytes.coversExactly_iff (Vector.replicate _ 0)).mpr hwhole
  rw [← crc32_toBitVec, ← hexact.2]
  rfl

def SmallEdit (data data' : Content) : Prop :=
  ∃ before burst burst' after, data = before ++ burst ++ after ∧
    data' = before ++ burst' ++ after ∧ burst.length = burst'.length ∧ burst.length ≤ 4 ∧ burst ≠ burst'

theorem smallEdit_symm {data' : Content} (h : SmallEdit data data') : SmallEdit data' data := by
  obtain ⟨before, burst, burst', after, rfl, rfl, hlength, hfour, hne⟩ := h
  exact ⟨before, burst', burst, after, rfl, rfl, hlength.symm, hlength ▸ hfour, hne.symm⟩

theorem smallEdit_length {data' : Content} (h : SmallEdit data data') : data.length = data'.length := by
  obtain ⟨before, burst, burst', after, rfl, rfl, hlength, _⟩ := h
  simp [hlength]

theorem smallEdit_nonempty {data' : Content} (h : SmallEdit data data') : data ≠ [] := by
  obtain ⟨before, burst, burst', after, rfl, rfl, hlength, _, hne⟩ := h
  intro hempty
  simp only [List.append_eq_nil_iff] at hempty
  rw [hempty.1.2] at hlength hne
  exact hne (List.eq_nil_of_length_eq_zero hlength.symm).symm

theorem smallEdit_checksum {data' : Content} (hwhole : FedBytes.WholeChunks data.length)
    (h : SmallEdit data data') :
    Checksum.dfsFileChecksum (some data) ≠ Checksum.dfsFileChecksum (some data') := by
  intro hsame
  have hwhole' : FedBytes.WholeChunks data'.length := smallEdit_length h ▸ hwhole
  have hcrc := congrArg UInt32.toBitVec hsame
  rw [wholeChunks_checksum hwhole, wholeChunks_checksum hwhole'] at hcrc
  obtain ⟨before, burst, burst', after, rfl, rfl, hlength, hfour, hne⟩ := h
  exact burst_detected (by decide) rfl (by decide) hlength (by omega) hne hcrc

/-- A small edit is never taken for an unchanged file: `Store` and `Fetch` bring
it over, in either direction. -/
theorem smallEdit_transferred {s : Server} {m : Mount} {f : String} {data' : Content} (clientId : String)
    (now : Int) (hs : Unlocked s) (hmine : m.dir.content f = some data) (htheirs : s.dir.content f = some data')
    (hwhole : FedBytes.WholeChunks data.length) (hedit : SmallEdit data data') :
    (store clientId m f s now).2 = .ok ∧ (store clientId m f s now).1.dir.content f = some data ∧
      (fetch m f s now).2 = .ok ∧ (fetch m f s now).1.dir.content f = some data' := by
  have hcrc := smallEdit_checksum hwhole hedit
  have hsends : Sends m f s := ⟨data, hmine, smallEdit_nonempty hedit, by rwa [htheirs]⟩
  have hreceives : Receives m f s := ⟨data', htheirs, smallEdit_nonempty (smallEdit_symm hedit), by rwa [hmine]⟩
  obtain ⟨hstored, hthere, _⟩ := store_sends clientId now hs hsends
  obtain ⟨hfetched, hhere, _⟩ := fetch_receives now hreceives
  exact ⟨hstored, hthere.trans hmine, hfetched, hhere.trans htheirs⟩

def oneFile (data : Content) : Dir := empty.put "f.txt" ⟨data, 0⟩

theorem lastByte_transferred :
    let s : Server := ⟨oneFile [1, 2, 3, 5], ∅⟩
    let m : Mount := ⟨oneFile [1, 2, 3, 4], []⟩
    (store "A" m "f.txt" s 1).2 = .ok ∧ (store "A" m "f.txt" s 1).1.dir.content "f.txt" = some [1, 2, 3, 4] ∧
      (fetch m "f.txt" s 1).2 = .ok ∧ (fetch m "f.txt" s 1).1.dir.content "f.txt" = some [1, 2, 3, 5] := by
  refine smallEdit_transferred "A" 1 (fun f => rfl) rfl rfl ?_ ?_
  · exact (FedBytes.wholeChunks_iff 4).mp rfl
  · exact ⟨[1, 2, 3], [4], [5], [], rfl, rfl, rfl, by decide, by decide⟩

end GraduateOS.Dfs.Bursts
