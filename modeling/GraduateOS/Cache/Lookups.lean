import GraduateOS.Cache.Items
import GraduateOS.Library.Bisections

namespace GraduateOS.Cache.Lookups

open Library.CStrings Library.Sorting Library.Strcmp Library.Bisections Items

structure Effects where
  reads : List Int
  lseeks : List Int

inductive Outcome
  | running
  | undefined
  | returned (value : Int) (done : Effects)

/-- `items[i]`, inside the array. -/
def itemAt (items : List Item) (i : Int) : Option Item := if 0 ≤ i then items[i.toNat]? else none

/-- The loop of both functions. Only `simplecache_get` calls `lseek`. -/
def getLoop (rewinds : Bool) (items : List Item) (key : CString) : Nat → Int → Int → Effects → Outcome
  | 0, _, _, _ => .running
  | fuel + 1, lo, hi, done =>
      if lo ≤ hi then
        let mid := lo + (hi - lo).tdiv 2
        match itemAt items mid with
        | none => .undefined
        | some item =>
            let done := { done with reads := done.reads ++ [mid] }
            let cmp := strcmp key item.key
            if cmp < 0 then getLoop rewinds items key fuel lo (mid - 1) done
            else if cmp > 0 then getLoop rewinds items key fuel (mid + 1) hi done
            else .returned item.fildes { done with lseeks := if rewinds then [item.fildes] else [] }
      else .returned (-1) done

/-- Every iteration makes the interval smaller, so one for each item and the test at the end are enough. -/
def get (rewinds : Bool) (items : List Item) (key : CString) : Outcome :=
  getLoop rewinds items key (items.length + 1) 0 (items.length - 1) ⟨[], []⟩

def simplecacheGet (items : List Item) (key : CString) : Outcome := get true items key

def contentGet (items : List Item) (key : CString) : Outcome := get false items key

structure Finds (items : List Item) (key : CString) (value : Int) (done : Effects) : Prop where
  reads : ∀ mid ∈ done.reads, 0 ≤ mid ∧ mid < items.length
  found : (∃ item ∈ items, item.key = key) → ∃ item ∈ items, item.key = key ∧ value = item.fildes
  absent : (∀ item ∈ items, item.key ≠ key) → value = -1

variable {items loaded : List Item} {key : CString} {lo hi : Int} {rewinds : Bool} {done : Effects}

theorem itemAt_some {m : Nat} {item : Item} (h : items[m]? = some item) : itemAt items m = some item := by
  rw [itemAt, if_pos (Int.natCast_nonneg m), Int.toNat_natCast, h]

theorem getLoop_finds (hgraded : Graded (fun item : Item => strcmp key item.key) items) (fuel : Nat)
    (w : Window (fun item : Item => strcmp key item.key) items lo hi) (hfuel : hi - lo + 1 < fuel)
    (hreads : ∀ mid ∈ done.reads, 0 ≤ mid ∧ mid < items.length) :
    ∃ value done', getLoop rewinds items key fuel lo hi done = .returned value done' ∧
      Finds items key value done' := by
  have hfirst := w.first
  have hlast := w.last
  have hordered := w.ordered
  induction fuel generalizing lo hi done with
  | zero => omega
  | succ fuel ih =>
      rw [getLoop]
      split
      next hle =>
        obtain ⟨m, hm⟩ : ∃ m : Nat, lo + (hi - lo).tdiv 2 = m :=
          ⟨(lo + (hi - lo).tdiv 2).toNat, by rw [Int.tdiv_eq_ediv_of_nonneg (by omega)]; omega⟩
        rw [Int.tdiv_eq_ediv_of_nonneg (by omega)] at hm
        have hlo : lo ≤ m := by omega
        have hhi : (m : Int) ≤ hi := by omega
        obtain ⟨item, hitem⟩ : ∃ item, items[m]? = some item := ⟨_, List.getElem?_eq_getElem (by omega)⟩
        have hmem : item ∈ items := List.mem_of_getElem? hitem
        have hreads' : ∀ mid ∈ done.reads ++ [(m : Int)], 0 ≤ mid ∧ mid < items.length := by
          intro mid hmid
          rcases List.mem_append.mp hmid with h | h
          · exact hreads mid h
          · cases List.mem_singleton.mp h
            omega
        simp only [Int.tdiv_eq_ediv_of_nonneg (show 0 ≤ hi - lo by omega), hm, itemAt_some hitem]
        split
        next hless =>
          have w' := w.lower hgraded hitem hless hlo
          exact ih w' (by omega) hreads' w'.first w'.last w'.ordered
        next hless =>
          split
          next hmore =>
            have w' := w.upper hgraded hitem hmore hhi
            exact ih w' (by omega) hreads' w'.first w'.last w'.ordered
          next hmore =>
            have hkey : item.key = key := ((strcmp_eq_zero key item.key).mp (by omega)).symm
            refine ⟨_, _, rfl, hreads', fun _ => ⟨item, hmem, hkey, rfl⟩, fun hall => ?_⟩
            exact absurd hkey (hall item hmem)
      next hgt =>
        refine ⟨_, _, rfl, hreads, ?_, fun _ => rfl⟩
        rintro ⟨item, hitem, rfl⟩
        exact absurd ((strcmp_eq_zero _ _).mpr rfl) (w.empty (Int.not_le.mp hgt) item hitem)

/-- The order of the items and the order of the search are one. -/
theorem get_finds (rewinds : Bool) (key : CString) (hsorted : Sorted itemcmp items) :
    ∃ value done, get rewinds items key = .returned value done ∧ Finds items key value done := by
  apply getLoop_finds (graded_of_sorted strcmp_threeWay Item.key key hsorted) _ (window_all _ items)
  · omega
  · intro mid hmid
    cases hmid

theorem Finds.perm {items' : List Item} {value : Int} (h : Finds items key value done) (hp : items.Perm items') :
    Finds items' key value done := by
  constructor
  · intro mid hmid
    rw [← hp.length_eq]
    exact h.reads mid hmid
  · rintro ⟨item, hitem, hkey⟩
    obtain ⟨item', hitem', hfound⟩ := h.found ⟨item, hp.mem_iff.mpr hitem, hkey⟩
    exact ⟨item', hp.mem_iff.mp hitem', hfound⟩
  · exact fun hall => h.absent fun item hitem => hall item (hp.mem_iff.mp hitem)

theorem loaded_finds (rewinds : Bool) (qsort : Qsort Item) (loaded : List Item) (key : CString) :
    ∃ value done, get rewinds (qsort.sort itemcmp loaded) key = .returned value done ∧
      Finds loaded key value done := by
  obtain ⟨value, done, hget, hfinds⟩ := get_finds rewinds key (qsort.sorted itemcmp loaded itemcmp_threeWay)
  exact ⟨value, done, hget, hfinds.perm (qsort.perm itemcmp loaded)⟩

/-- After the `qsort` of `simplecache_init`, with any items and for any key. -/
theorem simplecacheGet_finds (qsort : Qsort Item) (loaded : List Item) (key : CString) :
    ∃ value done, simplecacheGet (qsort.sort itemcmp loaded) key = .returned value done ∧
      Finds loaded key value done :=
  loaded_finds true qsort loaded key

theorem contentGet_finds (qsort : Qsort Item) (loaded : List Item) (key : CString) :
    ∃ value done, contentGet (qsort.sort itemcmp loaded) key = .returned value done ∧
      Finds loaded key value done :=
  loaded_finds false qsort loaded key

end GraduateOS.Cache.Lookups
