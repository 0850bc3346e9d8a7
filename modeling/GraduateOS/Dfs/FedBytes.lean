import GraduateOS.Dfs.Checksum

namespace GraduateOS.Dfs.FedBytes

open Directory Checksum

/-- `CRC::Calculate` without a previous value: the CRC-32 of the data. -/
def crc32 (data : Content) : UInt32 := calculateRemainder data 0xFFFFFFFF ^^^ 0xFFFFFFFF

/-- The bytes that the reading loop hands to `CRC::Calculate`, chunk after chunk. -/
def fedLoop (content : Content) (size : Nat) : Nat → Content → Nat → Content
  | 0, _, _ => []
  | n + 1, buffer, position =>
      let readSize := if content.length - position < size then content.length - position else size
      if (content.drop position).length < readSize then []
      else
        let buffer := (content.drop position).take readSize ++ buffer.drop readSize
        buffer ++ fedLoop content size n buffer (position + readSize)

def fedBytes (garbage content : Content) : Content :=
  fedLoop content (bufferSize content.length) (chunkCount content.length) garbage 0

/-- The array `buffer` as the function finds it, for a file of this content. -/
abbrev Garbage (content : Content) := Vector UInt8 (bufferSize content.length)

def CoversExactly (content : Content) (garbage : Garbage content) : Prop :=
  fedBytes garbage.toList content = content ∧ fileChecksum garbage.toList content = crc32 content

def WholeChunks (n : Nat) : Prop := n ≤ 3 ∨ n < 4096 ∧ n % 2 = 0 ∨ n % 4096 = 0 ∧ n < 2 ^ 44

variable {content : Content} {size n position : Nat} {buffer : Content} {crc : UInt32}

theorem xor_twice (crc mask : UInt32) : crc ^^^ mask ^^^ mask = crc := by
  rw [UInt32.xor_assoc, UInt32.xor_self, UInt32.xor_zero]

theorem calculate_nil (crc : UInt32) : calculate [] crc = crc := xor_twice crc 0xFFFFFFFF

theorem calculate_append (data data' : Content) (crc : UInt32) :
    calculate (data ++ data') crc = calculate data' (calculate data crc) := by
  simp only [calculate, calculateRemainder, List.foldl_append, xor_twice]

theorem calculate_crc32 (data : Content) : calculate data 0 = crc32 data := by
  simp [calculate, crc32]

theorem checksumLoop_fed :
    checksumLoop content size n buffer position crc =
      calculate (fedLoop content size n buffer position) crc := by
  induction n generalizing buffer position crc with
  | zero => exact (calculate_nil crc).symm
  | succ n ih =>
      simp only [checksumLoop, fedLoop]
      generalize (if content.length - position < size then content.length - position else size) = r
      split
      · exact (calculate_nil crc).symm
      · simp only [calculate_append, ih]

theorem fileChecksum_fed (garbage content : Content) :
    fileChecksum garbage content = crc32 (fedBytes garbage content) := by
  rw [fileChecksum, checksumLoop_fed, calculate_crc32, fedBytes]

/-- Every chunk is as long as the buffer, however little was read. -/
theorem fedLoop_length (hbuffer : buffer.length = size) :
    (fedLoop content size n buffer position).length = n * size := by
  induction n generalizing buffer position with
  | zero => simp [fedLoop]
  | succ n ih =>
      have hread : ¬ (content.drop position).length <
          if content.length - position < size then content.length - position else size := by
        rw [List.length_drop]
        split <;> omega
      simp only [fedLoop, hread, if_false, List.length_append]
      rw [ih, Nat.succ_mul]
      · simp only [List.length_take, List.length_drop]
        split <;> omega
      · simp only [List.length_append, List.length_take, List.length_drop]
        split <;> omega

/-- Whole chunks leave nothing of the old buffer. -/
theorem fedLoop_exact (hbuffer : buffer.length = size) (h : position + n * size ≤ content.length) :
    fedLoop content size n buffer position = (content.drop position).take (n * size) := by
  induction n generalizing buffer position with
  | zero => simp [fedLoop]
  | succ n ih =>
      rw [Nat.succ_mul] at h
      have hsize : ¬ content.length - position < size := by omega
      have hread : ¬ (content.drop position).length < size := by
        rw [List.length_drop]
        exact hsize
      have hdrop : buffer.drop size = [] := List.drop_eq_nil_of_le (by omega)
      simp only [fedLoop, hsize, if_false, hread, hdrop, List.append_nil]
      rw [ih (by simp; omega) (by omega), Nat.succ_mul, Nat.add_comm (n * size), List.take_add,
        List.drop_drop]

theorem fedBytes_exact_iff (garbage : Garbage content) :
    fedBytes garbage.toList content = content ↔
      chunkCount content.length * bufferSize content.length = content.length := by
  constructor
  · intro h
    have hlength := congrArg List.length h
    rwa [fedBytes, fedLoop_length (by simp)] at hlength
  · intro h
    rw [fedBytes, fedLoop_exact (by simp) (by omega), h, List.drop_zero, List.take_length]

/-- Below 4096 bytes the file is cut in halves, and an odd byte starts a third chunk. -/
theorem halves_whole (hlarge : 4 ≤ n) (hsmall : n < 4096) :
    chunkCount n * bufferSize n = n ↔ n % 2 = 0 := by
  have hsize : bufferSize n = n / 2 := by
    rw [bufferSize, dfsBufferSize, if_pos hsmall, if_neg (by omega)]
  have hquot : n / (n / 2) = 2 := Nat.div_eq_of_lt_le (by omega) (by omega)
  have hrest : n % (n / 2) = n % 2 := by
    have hdiv := Nat.div_add_mod n (n / 2)
    rw [hquot] at hdiv
    omega
  rw [chunkCount, hsize, hquot, hrest]
  by_cases heven : n % 2 = 0
  · have htwo : (2 % 2 ^ 32 + if n % 2 = 0 then 0 else 1) % 2 ^ 32 = 2 := by simp [heven]
    rw [htwo]
    omega
  · have hthree : (2 % 2 ^ 32 + if n % 2 = 0 then 0 else 1) % 2 ^ 32 = 3 := by simp [heven]
    rw [hthree]
    omega

theorem wholeChunks_iff (n : Nat) : chunkCount n * bufferSize n = n ↔ WholeChunks n := by
  by_cases hsmall : n < 4096
  · by_cases htiny : n ≤ 3
    · refine iff_of_true ?_ (.inl htiny)
      rcases (by omega : n = 0 ∨ n = 1 ∨ n = 2 ∨ n = 3) with rfl | rfl | rfl | rfl <;> rfl
    · rw [halves_whole (by omega) hsmall, WholeChunks]
      omega
  · have hsize : bufferSize n = 4096 := by rw [bufferSize, dfsBufferSize, if_neg hsmall]
    rw [chunkCount, hsize, WholeChunks]
    split <;> omega

theorem coversExactly_iff (garbage : Garbage content) :
    CoversExactly content garbage ↔ WholeChunks content.length := by
  rw [← wholeChunks_iff, ← fedBytes_exact_iff garbage]
  constructor
  · exact And.left
  · intro h
    exact ⟨h, by rw [fileChecksum_fed, h]⟩

/-- For which files the CRC gets exactly their bytes, and so tells them apart. -/
theorem fedBytes_coverExactly_iff (content content' : Content) (garbage : Garbage content)
    (garbage' : Garbage content') :
    (CoversExactly content garbage ∧ CoversExactly content' garbage' ∧
      (content ≠ content' → fedBytes garbage.toList content ≠ fedBytes garbage'.toList content')) ↔
    WholeChunks content.length ∧ WholeChunks content'.length := by
  rw [← coversExactly_iff garbage, ← coversExactly_iff garbage']
  constructor
  · exact fun h => ⟨h.1, h.2.1⟩
  · rintro ⟨h, h'⟩
    refine ⟨h, h', ?_⟩
    rw [h.1, h'.1]
    exact id

/-- Five bytes are fed as six, and a file of these six bytes is fed the same. -/
theorem odd_file_fedTwice : ¬ ∀ (content content' : Content) (garbage : Garbage content)
    (garbage' : Garbage content'), CoversExactly content garbage ∧ CoversExactly content' garbage' ∧
      (content ≠ content' → fedBytes garbage.toList content ≠ fedBytes garbage'.toList content') := by
  intro h
  have hfed := (h [1, 2, 3, 4, 5] [1, 2, 3, 4, 5, 4] (Vector.replicate _ 0) (Vector.replicate _ 0)).2.2
    (by decide)
  exact hfed (by decide)

end GraduateOS.Dfs.FedBytes
