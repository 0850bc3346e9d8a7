import GraduateOS.Gflib.Responses
import Mathlib.Data.List.Induction

namespace GraduateOS.Gflib.BodyLoops

open Library.MachineInts Messages Responses

/-- The fields after these results of `recv`, as the loop leaves them. -/
def bodyState : List Received → Gfr → Gfr
  | [], gfr => gfr
  | r :: rs, gfr =>
      if gfr.bytesRecieved < gfr.fileLen then
        let recvBytes := toUInt64 r.count
        let gfr := { gfr with bytesRecieved := toUInt64 (gfr.bytesRecieved + recvBytes) }
        if recvBytes = 0 ∧ gfr.bytesRecieved < gfr.fileLen then { gfr with status := .error }
        else bodyState rs { gfr with written := gfr.written ++ [⟨r.data, recvBytes⟩] }
      else gfr

def received (rs : List Received) : List UInt8 := rs.flatMap Received.data

def callOf : Received → Option Call
  | .bytes data => some ⟨data, data.length⟩
  | _ => none

structure Accounts (rs : List Received) (gfr : Gfr) : Prop where
  count : (bodyState rs gfr).bytesRecieved = gfr.bytesRecieved + (received rs).length
  calls : (bodyState rs gfr).written = gfr.written ++ rs.filterMap callOf
  complete : gfr.fileLen ≤ gfr.bytesRecieved + (received rs).length →
    ∃ gfr', bodyLoop rs gfr = .returned (some 0) gfr' ∧ gfr'.status = .ok
  broken : gfr.bytesRecieved + (received rs).length < gfr.fileLen → (∃ r ∈ rs, r.count ≤ 0) →
    ∃ v gfr', bodyLoop rs gfr = .returned (some v) gfr' ∧ v < 0 ∧ gfr'.status ≠ .ok

def Taken (rs : List Received) (gfr : Gfr) : Prop :=
  ∀ before rest, rs = before ++ rest → rest ≠ [] → bodyLoop before gfr = .waiting

def Accounted (rs : List Received) (gfr : Gfr) : Prop :=
  ∀ before rest, rs = before ++ rest → Taken before gfr → Accounts before gfr

/-- The results bring bytes every time, and all of them fewer than are to come. -/
def Short (rs : List Received) (gfr : Gfr) : Prop :=
  (∀ r ∈ rs, 0 < r.count) ∧ gfr.bytesRecieved + (received rs).length < gfr.fileLen

variable {rs before rest : List Received} {gfr gfr' : Gfr} {v : Int} {r : Received}

/-- The only value that the loop returns is 0, with `GF_ERROR`. -/
theorem bodyLoop_value (h : bodyLoop rs gfr = .returned (some v) gfr') : v = 0 ∧ gfr'.status = .error := by
  induction rs generalizing gfr with
  | nil =>
      rw [bodyLoop] at h
      split at h <;> cases h
  | cons r rs ih =>
      rw [bodyLoop] at h
      split at h
      next =>
        dsimp only at h
        split at h
        next => cases h; exact ⟨rfl, rfl⟩
        next => exact ih h
      next => cases h

theorem bodyLoop_state {value : Option Int} (h : bodyLoop rs gfr = .returned value gfr') :
    gfr' = bodyState rs gfr := by
  induction rs generalizing gfr with
  | nil =>
      rw [bodyLoop] at h
      split at h <;> cases h
      rfl
  | cons r rs ih =>
      rw [bodyLoop] at h
      rw [bodyState]
      split at h
      next hmore =>
        rw [if_pos hmore]
        dsimp only at h ⊢
        split at h
        next hend => rw [if_pos hend]; cases h; rfl
        next hend => rw [if_neg hend]; exact ih h
      next hdone => rw [if_neg hdone]; cases h; rfl

theorem received_cons (r : Received) (rs : List Received) :
    (received (r :: rs)).length = r.data.length + (received rs).length := by
  simp [received]

theorem received_append (rs rest : List Received) : received (rs ++ rest) = received rs ++ received rest :=
  List.flatMap_append

theorem bytes_of_count (h : 0 < r.count) : ∃ data, r = .bytes data ∧ 0 < data.length := by
  cases r with
  | bytes data => exact ⟨data, rfl, Int.natCast_pos.mp h⟩
  | closed => exact absurd h (Int.lt_irrefl 0)
  | failed => exact absurd h (by decide)

/-- As long as bytes are missing and arrive, the loop passes them on and waits for more. -/
theorem short_going (hlen : gfr.fileLen < 2 ^ 64) (hp : Short rs gfr) :
    bodyLoop rs gfr = .waiting ∧ (bodyState rs gfr).bytesRecieved = gfr.bytesRecieved + (received rs).length ∧
      (bodyState rs gfr).written = gfr.written ++ rs.filterMap callOf := by
  obtain ⟨hpos, hless⟩ := hp
  induction rs generalizing gfr with
  | nil =>
      have hmore : gfr.bytesRecieved < gfr.fileLen := hless
      exact ⟨by rw [bodyLoop, if_pos hmore], rfl, by simp [bodyState]⟩
  | cons r rs ih =>
      obtain ⟨data, rfl, hdata⟩ := bytes_of_count (hpos r List.mem_cons_self)
      rw [received_cons, Received.data] at hless
      have hcount : toUInt64 (Received.bytes data).count = data.length :=
        toUInt64_eq (Int.natCast_nonneg _) (by rw [Received.count]; omega)
      have hsum : toUInt64 (gfr.bytesRecieved + (data.length : Int)) = gfr.bytesRecieved + data.length := by
        rw [toUInt64_eq (by omega) (by omega)]
        omega
      let g : Gfr := ⟨gfr.status, gfr.fileLen, gfr.bytesRecieved + data.length, gfr.written ++ [⟨data, data.length⟩]⟩
      have hrest : Short rs g := ⟨fun r hr => hpos r (List.mem_cons_of_mem _ hr), by simp only [g]; omega⟩
      have hnext := @ih g hlen hrest.1 hrest.2
      have hmore : gfr.bytesRecieved < gfr.fileLen := by omega
      simp only [bodyLoop, bodyState, if_pos hmore, hcount, hsum, Received.data]
      rw [if_neg (fun h => by omega), if_neg (fun h => by omega)]
      obtain ⟨hwait, hbytes, hcalls⟩ := hnext
      refine ⟨hwait, ?_, ?_⟩
      · rw [hbytes, received_cons, Received.data, Nat.add_assoc]
      · rw [hcalls, List.append_assoc]
        rfl

theorem Short.start (hp : Short (before ++ rest) gfr) : Short before gfr := by
  obtain ⟨hpos, hless⟩ := hp
  rw [received_append, List.length_append] at hless
  exact ⟨fun r hr => hpos r (List.mem_append_left _ hr), by omega⟩

theorem short_accounts (hlen : gfr.fileLen < 2 ^ 64) (hp : Short rs gfr) : Accounts rs gfr := by
  obtain ⟨-, hbytes, hcalls⟩ := short_going hlen hp
  obtain ⟨hpos, hless⟩ := hp
  refine ⟨hbytes, hcalls, fun h => by omega, ?_⟩
  rintro - ⟨r, hr, hcount⟩
  exact absurd (hpos r hr) (Int.not_lt.mpr hcount)

theorem accounts_short (h : Accounts rs gfr) : Short rs gfr := by
  have hless : gfr.bytesRecieved + (received rs).length < gfr.fileLen := by
    by_contra hdone
    obtain ⟨gfr', hreturn, hok⟩ := h.complete (Nat.not_lt.mp hdone)
    rw [(bodyLoop_value hreturn).2] at hok
    cases hok
  refine ⟨fun r hr => ?_, hless⟩
  by_contra hcount
  obtain ⟨v, gfr', hreturn, hneg, -⟩ := h.broken hless ⟨r, hr, Int.not_lt.mp hcount⟩
  rw [(bodyLoop_value hreturn).1] at hneg
  exact Int.lt_irrefl 0 hneg

theorem accounted_short (hlen : gfr.fileLen < 2 ^ 64) (h : Accounted rs gfr) :
    ∀ before rest, rs = before ++ rest → Short before gfr := by
  intro before
  induction before using List.reverseRecOn with
  | nil =>
      intro rest he
      apply accounts_short
      apply h [] rest he
      intro a b hab hb
      exact absurd (List.append_eq_nil_iff.mp hab.symm).2 hb
  | append_singleton before r ih =>
      intro rest he
      have hbefore := ih (r :: rest) (by rw [he, List.append_assoc]; rfl)
      apply accounts_short
      apply h (before ++ [r]) rest he
      intro a b hab hb
      have hprefix : a <+: before := by
        refine (List.prefix_concat_iff.mp ⟨b, hab.symm⟩).resolve_left ?_
        rintro rfl
        exact hb (List.self_eq_append_right.mp hab)
      obtain ⟨more, rfl⟩ := hprefix
      exact (short_going hlen hbefore.start).1

/-- The loop does what it should as long as it has not ended. The fields that it
returns are those after the results that it has taken. -/
theorem body_accounted_iff (rs : List Received) (gfr : Gfr) (hlen : gfr.fileLen < 2 ^ 64) :
    (Accounted rs gfr ↔ Short rs gfr) ∧
      ∀ value gfr', bodyLoop rs gfr = .returned value gfr' → gfr' = bodyState rs gfr := by
  refine ⟨⟨?_, ?_⟩, fun value gfr' => bodyLoop_state⟩
  · exact fun h => accounted_short hlen h rs [] (List.append_nil rs).symm
  · rintro hp before rest rfl -
    exact short_accounts hlen hp.start

theorem twoBytes_accounted :
    (Accounted [.bytes [104, 105]] ⟨.ok, 5, 0, []⟩ ↔ Short [.bytes [104, 105]] ⟨.ok, 5, 0, []⟩) ∧
      ∀ value gfr', bodyLoop [.bytes [104, 105]] ⟨.ok, 5, 0, []⟩ = .returned value gfr' →
        gfr' = bodyState [.bytes [104, 105]] ⟨.ok, 5, 0, []⟩ :=
  body_accounted_iff _ _ (by decide)

/-- After three bytes of five the connection is closed, and the function returns 0. -/
theorem closed_not_accounted : bodyLoop [.closed] ⟨.ok, 5, 3, []⟩ = .returned (some 0) ⟨.error, 5, 3, []⟩ ∧
    ¬ ∀ (rs : List Received) (gfr : Gfr), gfr.fileLen < 2 ^ 64 → Accounted rs gfr := by
  refine ⟨rfl, fun hall => ?_⟩
  have hshort := accounted_short (by decide) (hall [.closed] ⟨.ok, 5, 3, []⟩ (by decide)) [.closed] [] rfl
  exact absurd (hshort.1 .closed List.mem_cons_self) (Int.lt_irrefl 0)

end GraduateOS.Gflib.BodyLoops
