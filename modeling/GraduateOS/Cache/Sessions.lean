import GraduateOS.Cache.ListEntries
import GraduateOS.Cache.Lookups

namespace GraduateOS.Cache.Sessions

open Library.CStrings Library.Sorting Items ListFiles ListEntries
open Lookups hiding Outcome

/-- `simplecache_destroy` and `content_destroy`: the descriptors that are closed. -/
def destroy (items : List Item) : List Int := items.map Item.fildes

def descriptors (opens : Opens) (rows : List Row) : List Int := rows.mapIdx fun k r => opens k r.path

structure Served (rewinds : Bool) (opens : Opens) (rows : List Row) (items : List Item) : Prop where
  listed : ∀ key, (∃ r ∈ rows, r.key = key) → ∃ k r reads, rows[k]? = some r ∧ r.key = key ∧
    get rewinds items key = .returned (opens k r.path) ⟨reads, if rewinds then [opens k r.path] else []⟩
  unlisted : ∀ key, (∀ r ∈ rows, r.key ≠ key) → ∃ reads, get rewinds items key = .returned (-1) ⟨reads, []⟩
  closed : (destroy items).Perm (descriptors opens rows)

variable {items : List Item} {key : CString} {rewinds : Bool} {value : Int} {done done' : Effects}
  {opens : Opens} {rows : List Row} {item : Item} {maxKeylen : Nat}

theorem itemAt_mem {i : Int} (h : itemAt items i = some item) : item ∈ items := by
  rw [itemAt] at h
  split at h
  · exact List.mem_of_getElem? h
  · cases h

/-- A search ends with nothing found, or at an item with the key. -/
theorem getLoop_ends (fuel : Nat) (lo hi : Int)
    (h : getLoop rewinds items key fuel lo hi done = .returned value done') :
    value = -1 ∧ done'.lseeks = done.lseeks ∨
      ∃ item ∈ items, item.key = key ∧ value = item.fildes ∧
        done'.lseeks = if rewinds then [item.fildes] else [] := by
  induction fuel generalizing lo hi done with
  | zero => cases h
  | succ fuel ih =>
      rw [getLoop] at h
      split at h
      next =>
        simp only at h
        split at h
        next => cases h
        next item hitem =>
          split at h
          next =>
            have hends := ih _ _ h
            exact hends
          next hless =>
            split at h
            next =>
              have hends := ih _ _ h
              exact hends
            next hmore =>
              have hkey : item.key = key := ((Library.Strcmp.strcmp_eq_zero key item.key).mp (by omega)).symm
              cases h
              exact .inr ⟨item, itemAt_mem hitem, hkey, rfl, rfl⟩
      next =>
        cases h
        exact .inl ⟨rfl, rfl⟩

theorem mem_entries (hitems : items.Perm (rows.mapIdx fun k r => ⟨opens k r.path, r.key⟩)) :
    item ∈ items ↔ ∃ k r, rows[k]? = some r ∧ item = ⟨opens k r.path, r.key⟩ := by
  rw [hitems.mem_iff, List.mem_iff_getElem?]
  apply exists_congr
  intro k
  rw [List.getElem?_mapIdx, Option.map_eq_some_iff]
  constructor
  · rintro ⟨r, hr, rfl⟩
    exact ⟨r, hr, rfl⟩
  · rintro ⟨r, hr, rfl⟩
    exact ⟨r, hr, rfl⟩

/-- The binary search over the sorted rows. -/
theorem served_of_perm (rewinds : Bool) (hopen : ∀ k, ∀ r ∈ rows, 0 ≤ opens k r.path)
    (hsorted : Sorted itemcmp items) (hitems : items.Perm (rows.mapIdx fun k r => ⟨opens k r.path, r.key⟩)) :
    Served rewinds opens rows items := by
  constructor
  · intro key hlisted
    obtain ⟨value, done, hget, hfinds⟩ := get_finds rewinds key hsorted
    have hentry : ∃ item ∈ items, item.key = key := by
      obtain ⟨r, hr, rfl⟩ := hlisted
      obtain ⟨k, hk⟩ := List.mem_iff_getElem?.mp hr
      exact ⟨_, (mem_entries hitems).mpr ⟨k, r, hk, rfl⟩, rfl⟩
    rcases getLoop_ends _ _ _ hget with ⟨hmissing, -⟩ | ⟨item, hitem, hkey, hvalue, hlseeks⟩
    · obtain ⟨item, hitem, -, hfound⟩ := hfinds.found hentry
      obtain ⟨k, r, hr, rfl⟩ := (mem_entries hitems).mp hitem
      have hle := hopen k r (List.mem_of_getElem? hr)
      rw [hmissing] at hfound
      simp only at hfound
      omega
    · obtain ⟨k, r, hr, rfl⟩ := (mem_entries hitems).mp hitem
      refine ⟨k, r, done.reads, hr, hkey, ?_⟩
      rw [hget, hvalue, ← hlseeks]
  · intro key hunlisted
    obtain ⟨value, done, hget, hfinds⟩ := get_finds rewinds key hsorted
    rcases getLoop_ends _ _ _ hget with ⟨hmissing, hlseeks⟩ | ⟨item, hitem, hkey, -, -⟩
    · obtain ⟨reads, lseeks⟩ := done
      cases hlseeks
      exact ⟨reads, by rw [hget, hmissing]⟩
    · obtain ⟨k, r, hr, rfl⟩ := (mem_entries hitems).mp hitem
      exact absurd hkey (hunlisted r (List.mem_of_getElem? hr))
  · have hclosed := hitems.map Item.fildes
    have hfildes : (rows.mapIdx fun k r => (⟨opens k r.path, r.key⟩ : Item)).map Item.fildes =
        descriptors opens rows := by
      apply List.ext_getElem?
      intro k
      rw [descriptors, List.getElem?_map, List.getElem?_mapIdx, List.getElem?_mapIdx, Option.map_map]
      rfl
    rwa [hfildes] at hclosed

/-- From the text of a list file to the descriptors that are closed at the end:
every key that is listed is served from a file listed for it, no other key is,
and every file is closed once. -/
theorem session_served (rewinds : Bool) (qsort : Qsort Item) (opens : Opens) (f : ListFile maxKeylen)
    (hopen : ∀ k, ∀ r ∈ f.rows, 0 ≤ opens k r.path) (hcomplete : Complete f) :
    ∃ t, init maxKeylen qsort opens (some f.content) = .finished t ∧ Served rewinds opens f.rows t.items := by
  obtain ⟨t, hinit, hkeeps⟩ := complete_kept qsort hopen hcomplete
  refine ⟨t, hinit, served_of_perm rewinds hopen ?_ hkeeps.items⟩
  rw [init] at hinit
  split at hinit
  next =>
    cases hinit
    exact qsort.sorted itemcmp _ itemcmp_threeWay
  next hother => exact absurd hinit (hother t)

theorem repeatedKey_served : ∃ t,
    init 1024 (Qsort.merge Item) opensNext (some repeatedKey.content) = .finished t ∧
      Served true opensNext repeatedKey.rows t.items :=
  session_served true (Qsort.merge Item) opensNext repeatedKey
    (fun k _ _ => by simp only [opensNext]; omega) ⟨by decide, .inl rfl⟩

end GraduateOS.Cache.Sessions
