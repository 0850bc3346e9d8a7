import GraduateOS.Curl.Handler

namespace GraduateOS.Curl.BodySlices

open Library.MachineInts Handler

def accepted (s : Loop) : List UInt8 := s.sent.flatten

structure SendsBody (mem : Memory) (send : GfsSend) : Prop where
  inside : ∀ k s, after mem send k = some s → s.bytesTransferred < mem.size →
    ∃ sl, slice mem (s.i + 1) = some sl ∧ sl.start + sl.length ≤ mem.size ∧ sl.start = (accepted s).length
  onlyBody : ∀ k s, after mem send k = some s → accepted s <+: mem.body
  ended : ∀ k s, after mem send k = some s → mem.size ≤ s.bytesTransferred →
    accepted s = mem.body ∨ toInt64 s.bytesTransferred < 0

def sliceLength (mem : Memory) (k : Nat) : Nat := min bufsize (mem.size - k * bufsize)

structure InStep (mem : Memory) (k : Nat) (s : Loop) : Prop where
  i : s.i + 1 = k
  count : s.bytesTransferred = min (k * bufsize) mem.size
  taken : accepted s = mem.body.take (k * bufsize)

variable {mem : Memory} {send : GfsSend} {s : Loop} {k n : Nat}

theorem slice_inside (hk : k * bufsize < mem.size) :
    slice mem k = if k * bufsize < 2 ^ 31 then some ⟨k * bufsize, sliceLength mem k⟩ else none := by
  have hfits := mem.fits
  have hleft : toUInt64 (mem.size - k * bufsize) = mem.size - k * bufsize := by
    rw [toUInt64_eq (by omega) (by omega)]
    omega
  rw [slice, hleft, sliceLength]
  by_cases hint : k * bufsize < 2 ^ 31
  · rw [if_pos hint, if_pos (by omega)]
    rfl
  · rw [if_neg hint, if_neg (by omega)]

theorem slice_start {sl : Slice} (h : slice mem k = some sl) : sl.start = k * bufsize := by
  rw [slice] at h
  split at h
  · cases h
    rfl
  · cases h

theorem gfsSend_inside (hk : k * bufsize < mem.size) (hn : n ≤ sliceLength mem k) :
    gfsSend mem ⟨k * bufsize, sliceLength mem k⟩ n = some ((mem.body.drop (k * bufsize)).take n) := by
  rw [sliceLength] at hn ⊢
  have hin : k * bufsize + min bufsize (mem.size - k * bufsize) ≤ mem.response.length := by
    rw [mem.room]
    omega
  rw [gfsSend, if_pos hin, Int.toNat_natCast, Memory.body, List.drop_take, List.take_take, List.take_take,
    Nat.min_eq_left hn, Nat.min_eq_left (Nat.le_trans hn (Nat.min_le_right _ _))]

theorem step_taken {reply : Nat → Int} (hi : s.i + 1 = k) (hk : k * bufsize < mem.size) (hint : k * bufsize < 2 ^ 31)
    (hcount : s.bytesTransferred ≤ k * bufsize) (hn : n ≤ sliceLength mem k) (hreply : reply (sliceLength mem k) = n) :
    step mem reply s = some ⟨k, s.bytesTransferred + n, s.sent ++ [(mem.body.drop (k * bufsize)).take n]⟩ := by
  have hfits := mem.fits
  have hsum : toUInt64 (s.bytesTransferred + n) = s.bytesTransferred + n := by
    rw [sliceLength] at hn
    rw [toUInt64_eq (by omega) (by omega)]
    omega
  rw [step, hi, slice_inside hk, if_pos hint]
  simp only [Option.bind_eq_bind, Option.bind_some, hreply, gfsSend_inside hk hn, hsum]
  rw [if_neg (by omega)]

theorem step_failed {reply : Nat → Int} (hi : s.i + 1 = k) (hk : k * bufsize < mem.size) (hint : k * bufsize < 2 ^ 31)
    (hreply : reply (sliceLength mem k) = -1) : step mem reply s = some ⟨k, s.bytesTransferred, s.sent⟩ := by
  have hnone : gfsSend mem ⟨k * bufsize, sliceLength mem k⟩ (-1) = some [] := gfsSend_inside hk (Nat.zero_le _)
  rw [step, hi, slice_inside hk, if_pos hint]
  simp only [Option.bind_eq_bind, Option.bind_some, hreply, hnone]
  rfl

theorem inStep_start (mem : Memory) : InStep mem 0 .start := by
  refine ⟨rfl, ?_, ?_⟩
  · rw [Nat.zero_mul, Nat.zero_min]
    rfl
  · rw [Nat.zero_mul, List.take_zero]
    rfl

theorem InStep.next {reply : Nat → Int} (h : InStep mem k s) (hk : k * bufsize < mem.size)
    (hint : k * bufsize < 2 ^ 31) (hreply : reply (sliceLength mem k) = sliceLength mem k) :
    ∃ s', step mem reply s = some s' ∧ InStep mem (k + 1) s' := by
  have hcount : s.bytesTransferred = k * bufsize := by rw [h.count]; omega
  refine ⟨_, step_taken h.i hk hint (Nat.le_of_eq hcount) (Nat.le_refl _) hreply, ?_⟩
  constructor
  · rfl
  · change s.bytesTransferred + sliceLength mem k = _
    rw [hcount, sliceLength, Nat.succ_mul]
    omega
  · have hrest : (mem.body.drop (k * bufsize)).take (sliceLength mem k) =
        (mem.body.drop (k * bufsize)).take bufsize := by
      rw [sliceLength, List.take_eq_take_iff, List.length_drop, body_length]
      omega
    have htaken := h.taken
    rw [accepted] at htaken ⊢
    rw [List.flatten_append, List.flatten_singleton, htaken, hrest, Nat.succ_mul, List.take_add]

theorem InStep.going (h : InStep mem k s) (hk : k * bufsize < mem.size) :
    s.bytesTransferred = k * bufsize ∧ s.bytesTransferred < mem.size := by
  rw [h.count]
  omega

theorem after_going (hafter : after mem send k = some s) (hmore : s.bytesTransferred < mem.size) :
    after mem send (k + 1) = step mem (send.reply k) s := by
  rw [after, hafter, Option.bind_some, if_pos hmore]

def TakesWhole (mem : Memory) (send : GfsSend) : Prop :=
  ∀ k, k * bufsize < mem.size → send.reply k (sliceLength mem k) = sliceLength mem k

theorem after_inStep (hsize : mem.size ≤ 2 ^ 31) (hwhole : TakesWhole mem send) (n : Nat) :
    ∃ k s, after mem send n = some s ∧ InStep mem k s ∧ (k * bufsize < mem.size → k = n) ∧ k ≤ n := by
  induction n with
  | zero => exact ⟨0, .start, rfl, inStep_start mem, fun _ => rfl, Nat.le_refl 0⟩
  | succ n ih =>
      obtain ⟨k, s, hafter, hin, hgoing, hle⟩ := ih
      by_cases hk : k * bufsize < mem.size
      · obtain rfl := hgoing hk
        obtain ⟨s', hstep, hin'⟩ := hin.next hk (by omega) (hwhole k hk)
        rw [after_going hafter (hin.going hk).2]
        exact ⟨k + 1, s', hstep, hin', fun _ => rfl, Nat.le_refl _⟩
      · have hdone : ¬ s.bytesTransferred < mem.size := by rw [hin.count]; omega
        rw [after, hafter, Option.bind_some, if_neg hdone]
        exact ⟨k, s, rfl, hin, fun h => absurd h hk, by omega⟩

theorem InStep.complete (h : InStep mem k s) (hdone : mem.size ≤ s.bytesTransferred) : accepted s = mem.body := by
  rw [h.count] at hdone
  rw [h.taken]
  apply List.take_of_length_le
  rw [body_length]
  omega

theorem inStep_of_after (hsize : mem.size ≤ 2 ^ 31) (hwhole : TakesWhole mem send) (hafter : after mem send n = some s) :
    ∃ k, InStep mem k s := by
  obtain ⟨k, s', hafter', hin, -, -⟩ := after_inStep hsize hwhole n
  cases Option.some.inj (hafter.symm.trans hafter')
  exact ⟨k, hin⟩

theorem sendsBody_of_whole (hsize : mem.size ≤ 2 ^ 31) (hwhole : TakesWhole mem send) : SendsBody mem send := by
  constructor
  · intro n s hafter hmore
    obtain ⟨k, hin⟩ := inStep_of_after hsize hwhole hafter
    rw [hin.count] at hmore
    have hk : k * bufsize < mem.size := by omega
    refine ⟨_, by rw [hin.i, slice_inside hk, if_pos (by omega)], ?_, ?_⟩
    · change k * bufsize + min bufsize (mem.size - k * bufsize) ≤ mem.size
      omega
    · change k * bufsize = _
      rw [hin.taken, List.length_take, body_length]
      omega
  · intro n s hafter
    obtain ⟨k, hin⟩ := inStep_of_after hsize hwhole hafter
    rw [hin.taken]
    exact List.take_prefix _ _
  · intro n s hafter hdone
    obtain ⟨k, hin⟩ := inStep_of_after hsize hwhole hafter
    exact .inl (hin.complete hdone)

/-- The slice of an iteration starts at its place in the body, taken or not. -/
theorem SendsBody.start (h : SendsBody mem send) (hafter : after mem send n = some s)
    (hmore : s.bytesTransferred < mem.size) (hi : s.i + 1 = k) : (accepted s).length = k * bufsize := by
  obtain ⟨sl, hsl, -, hstart⟩ := h.inside n s hafter hmore
  rw [hi] at hsl
  rw [← hstart, slice_start hsl]

theorem SendsBody.offset (h : SendsBody mem send) (hafter : after mem send k = some s) (hin : InStep mem k s)
    (hk : k * bufsize < mem.size) : k * bufsize < 2 ^ 31 := by
  obtain ⟨sl, hsl, -⟩ := h.inside k s hafter (hin.going hk).2
  rw [hin.i, slice_inside hk] at hsl
  by_contra hover
  rw [if_neg hover] at hsl
  cases hsl

/-- A call that is not whole leaves bytes out before the next slice. -/
theorem SendsBody.whole (h : SendsBody mem send) (hafter : after mem send k = some s) (hin : InStep mem k s)
    (hk : k * bufsize < mem.size) : send.reply k (sliceLength mem k) = sliceLength mem k := by
  obtain ⟨hcount, hmore⟩ := hin.going hk
  have hint := h.offset hafter hin hk
  have hnext := after_going hafter hmore
  have haccepted := h.start hafter hmore hin.i
  have hb : 0 < bufsize := by decide
  rcases send.valid k (sliceLength mem k) with hfail | ⟨hlow, hhigh⟩
  · rw [step_failed hin.i hk hint hfail] at hnext
    have hstart := h.start (k := k + 1) hnext hmore rfl
    change (accepted s).length = _ at hstart
    rw [Nat.succ_mul] at hstart
    omega
  · obtain ⟨n, hn⟩ := Int.eq_ofNat_of_zero_le (Int.le_trans (Int.natCast_nonneg _) hlow)
    rw [hn] at hhigh ⊢
    have hle : n ≤ sliceLength mem k := Int.ofNat_le.mp hhigh
    by_contra hshort
    have hless : n < sliceLength mem k := by omega
    rw [step_taken hin.i hk hint (Nat.le_of_eq hcount) hle hn] at hnext
    rw [sliceLength] at hless
    have hmore' : s.bytesTransferred + n < mem.size := by omega
    have hstart := h.start (k := k + 1) hnext hmore' rfl
    rw [accepted, List.flatten_append, List.flatten_singleton, List.length_append, ← accepted, haccepted,
      List.length_take, List.length_drop, body_length, Nat.succ_mul] at hstart
    omega

theorem SendsBody.inStep (h : SendsBody mem send) (k : Nat) (hk : k * bufsize < mem.size) :
    ∃ s, after mem send k = some s ∧ InStep mem k s := by
  induction k with
  | zero => exact ⟨.start, rfl, inStep_start mem⟩
  | succ k ih =>
      rw [Nat.succ_mul] at hk
      have hk' : k * bufsize < mem.size := by omega
      obtain ⟨s, hafter, hin⟩ := ih hk'
      obtain ⟨s', hstep, hin'⟩ := hin.next hk' (h.offset hafter hin hk') (h.whole hafter hin hk')
      exact ⟨s', (after_going hafter (hin.going hk').2).trans hstep, hin'⟩

/-- The loop sends the body as it should exactly if its offsets fit an `int`
and no call of `gfs_send` fails or is short. -/
theorem body_sent_iff (mem : Memory) (send : GfsSend) :
    SendsBody mem send ↔ mem.size ≤ 2 ^ 31 ∧ TakesWhole mem send := by
  constructor
  · intro h
    constructor
    · by_contra hlarge
      have hlimit : 2 ^ 24 * bufsize = 2 ^ 31 := rfl
      have hk : 2 ^ 24 * bufsize < mem.size := by omega
      obtain ⟨s, hafter, hin⟩ := h.inStep (2 ^ 24) hk
      have hint := h.offset hafter hin hk
      omega
    · intro k hk
      obtain ⟨s, hafter, hin⟩ := h.inStep k hk
      exact h.whole hafter hin hk
  · rintro ⟨hsize, hwhole⟩
    exact sendsBody_of_whole hsize hwhole

/-- One call that takes one byte of two: the next slice lies behind the body. -/
theorem oneByte_not_sent : ¬ ∀ (mem : Memory) (send : GfsSend), SendsBody mem send := by
  intro hall
  let send : GfsSend := ⟨fun _ len => (min 1 len : Nat), fun _ len => .inr ⟨Int.le_refl _, by omega⟩⟩
  let mem : Memory := ⟨[104, 105, 0], 2, rfl, by decide⟩
  obtain ⟨sl, hsl, hin, hstart⟩ := (hall mem send).inside 1 ⟨0, 1, [[104]]⟩ rfl (by decide)
  cases hsl
  cases hstart

end GraduateOS.Curl.BodySlices
