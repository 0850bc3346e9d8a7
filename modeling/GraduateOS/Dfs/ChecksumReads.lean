import GraduateOS.Dfs.FedBytes

namespace GraduateOS.Dfs.ChecksumReads

open Directory Checksum FedBytes

/-- A call of `stream.read`: where in the file it starts and how many bytes it asks for. -/
structure Read where
  position : Nat
  size : Nat

def Read.bytes (content : Content) (r : Read) : Content := (content.drop r.position).take r.size

/-- The calls that `checksumLoop` makes. It ends with the first one that the file cannot serve. -/
def reads (content : Content) (size : Nat) : Nat → Nat → List Read
  | 0, _ => []
  | n + 1, position =>
      let readSize := if content.length - position < size then content.length - position else size
      ⟨position, readSize⟩ ::
        if (content.drop position).length < readSize then []
        else reads content size n (position + readSize)

def fileReads (content : Content) : List Read :=
  reads content (bufferSize content.length) (chunkCount content.length) 0

/-- One iteration: the bytes are read into the front of `buffer`, and the CRC is taken of all of it. -/
def pass (content : Content) (s : Content × UInt32) (r : Read) : Content × UInt32 :=
  let buffer := r.bytes content ++ s.1.drop r.size
  (buffer, calculate buffer s.2)

structure ReadsWhole (content : Content) (size position n : Nat) (rs : List Read) : Prop where
  count : rs.length = n
  sizes : ∀ r ∈ rs, 1 ≤ r.size ∧ r.size ≤ size
  served : ∀ r ∈ rs, r.position + r.size ≤ content.length
  whole : rs.flatMap (Read.bytes content) = content.drop position

variable {content : Content} {size n position : Nat} {buffer : Content} {crc : UInt32}

theorem read_served (content : Content) (size position : Nat) :
    ¬ (content.drop position).length <
      if content.length - position < size then content.length - position else size := by
  rw [List.length_drop]
  split <;> omega

theorem checksumLoop_reads : checksumLoop content size n buffer position crc =
    ((reads content size n position).foldl (pass content) (buffer, crc)).2 := by
  induction n generalizing buffer position crc with
  | zero => rfl
  | succ n ih =>
      simp only [checksumLoop, reads, read_served, if_false, List.foldl_cons, ih]
      rfl

theorem fileChecksum_reads (garbage content : Content) :
    fileChecksum garbage content = ((fileReads content).foldl (pass content) (garbage, 0)).2 :=
  checksumLoop_reads

/-- With the chunks that the rest of the file takes, no read is empty and none is left over. -/
theorem reads_whole (hsize : 0 < size) (hlow : n = 0 ∨ (n - 1) * size < content.length - position)
    (hhigh : content.length - position ≤ n * size) :
    ReadsWhole content size position n (reads content size n position) := by
  induction n generalizing position with
  | zero =>
      have hend : content.length ≤ position := by omega
      refine ⟨rfl, fun r hr => ?_, fun r hr => ?_, (List.drop_eq_nil_of_le hend).symm⟩ <;> cases hr
  | succ n ih =>
      have hless : n * size < content.length - position := by simpa using hlow
      rw [Nat.succ_mul] at hhigh
      have hread : ∃ r, r = (if content.length - position < size then content.length - position else size) ∧
          1 ≤ r ∧ r ≤ size ∧ position + r ≤ content.length ∧
          (n = 0 ∨ (n - 1) * size < content.length - (position + r)) ∧
          content.length - (position + r) ≤ n * size := by
        refine ⟨_, rfl, ?_⟩
        cases n with
        | zero => split <;> omega
        | succ n =>
            rw [Nat.succ_mul] at hless hhigh ⊢
            simp only [Nat.add_sub_cancel]
            split <;> omega
      obtain ⟨r, hr, hpos, hle, hserved, hlow', hhigh'⟩ := hread
      have hrest := ih hlow' hhigh'
      have hnext : reads content size (n + 1) position = ⟨position, r⟩ :: reads content size n (position + r) := by
        simp only [reads, read_served, if_false, hr]
      rw [hnext]
      constructor
      · rw [List.length_cons, hrest.count]
      · rintro r' (_ | ⟨_, hmem⟩)
        · exact ⟨hpos, hle⟩
        · exact hrest.sizes r' hmem
      · rintro r' (_ | ⟨_, hmem⟩)
        · exact hserved
        · exact hrest.served r' hmem
      · rw [List.flatMap_cons, hrest.whole, Read.bytes, ← List.drop_drop, List.take_append_drop]

theorem bufferSize_pos (n : Nat) : 0 < bufferSize n := by
  unfold bufferSize dfsBufferSize
  split
  · split <;> omega
  · omega

theorem chunkCount_bounds (h : n < 2 ^ 43) :
    (chunkCount n = 0 ∨ (chunkCount n - 1) * bufferSize n < n) ∧ n ≤ chunkCount n * bufferSize n := by
  have hpos := bufferSize_pos n
  have hfits : n / bufferSize n < 2 ^ 31 := by
    unfold bufferSize dfsBufferSize
    split
    · exact lt_of_le_of_lt (Nat.div_le_self _ _) (by omega)
    · omega
  have hcount : chunkCount n = n / bufferSize n + if n % bufferSize n = 0 then 0 else 1 := by
    rw [chunkCount, Nat.mod_eq_of_lt (a := n / bufferSize n) (by omega), Nat.mod_eq_of_lt]
    split <;> omega
  generalize bufferSize n = size at hpos hcount
  have hdiv := Nat.div_add_mod n size
  have hmod := Nat.mod_lt n hpos
  rw [Nat.mul_comm] at hdiv
  rw [hcount]
  split
  next hexact =>
    rw [hexact] at hdiv
    refine ⟨?_, by rw [Nat.add_zero]; omega⟩
    cases hq : n / size with
    | zero => exact .inl rfl
    | succ q =>
        rw [hq, Nat.succ_mul] at hdiv
        exact .inr (by simp only [Nat.add_zero, Nat.add_sub_cancel]; omega)
  next hrest =>
    refine ⟨.inr ?_, ?_⟩
    · rw [Nat.add_sub_cancel]
      omega
    · rw [Nat.succ_mul]
      omega

/-- The first read fills the buffer, so the value is one of the content alone; and the
loop, one pass for each read, reads the file to its end. -/
theorem checksum_determined (content : Content) (h : content.length < 2 ^ 43) :
    (∀ garbage garbage' : Garbage content,
      fileChecksum garbage.toList content = fileChecksum garbage'.toList content) ∧
    (∀ garbage : Garbage content, fileChecksum garbage.toList content =
      ((fileReads content).foldl (pass content) (garbage.toList, 0)).2) ∧
    ReadsWhole content (bufferSize content.length) 0 (chunkCount content.length) (fileReads content) := by
  obtain ⟨hlow, hhigh⟩ := chunkCount_bounds h
  refine ⟨?_, fun garbage => fileChecksum_reads _ _, ?_⟩
  · intro garbage garbage'
    exact fileChecksum_garbage _ _ _ garbage.length_toList garbage'.length_toList
  · exact reads_whole (bufferSize_pos _) (by rwa [Nat.sub_zero]) (by rwa [Nat.sub_zero])

theorem fiveBytes_determined : fileChecksum [7, 7] [1, 2, 3, 4, 5] =
      ((fileReads [1, 2, 3, 4, 5]).foldl (pass [1, 2, 3, 4, 5]) ([7, 7], 0)).2 ∧
    ReadsWhole [1, 2, 3, 4, 5] 2 0 3 (fileReads [1, 2, 3, 4, 5]) := by
  obtain ⟨-, hpasses, hreads⟩ := checksum_determined [1, 2, 3, 4, 5] (by decide)
  exact ⟨hpasses ⟨#[7, 7], rfl⟩, hreads⟩

end GraduateOS.Dfs.ChecksumReads
