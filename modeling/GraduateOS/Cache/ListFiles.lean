import GraduateOS.Cache.Items
import GraduateOS.Library.Strtok
import GraduateOS.Transfer.Records
import Mathlib.Algebra.Group.Int.Defs
import Mathlib.Algebra.Group.Nat.Defs

namespace GraduateOS.Cache.ListFiles

open Library.CStrings Library.Sorting Library.Strtok Items
open Transfer.Records (Content newline line)

/-- The delimiters of both calls of `strsep`. -/
def blanks : List UInt8 := ascii " \t"

/-- What `open` returns for its k-th call, with this path. -/
abbrev Opens := Nat → CString → Int

/-- The array, the calls of `open`, and the indexes that were written, each with
the capacity at that time. -/
structure Table where
  items : List Item
  capacity : Int
  opened : List CString
  writes : List (Nat × Int)

def Table.empty : Table := ⟨[], 16, [], []⟩

inductive Outcome
  | running
  | exited
  | undefined
  | finished (t : Table)

/-- A full array is doubled. The capacity is an `int`, whose overflow is undefined. -/
def grow (n : Nat) (capacity : Int) : Option Int :=
  if n = capacity then if capacity * 2 < 2 ^ 31 then some (capacity * 2) else none else some capacity

/-- The rest of an iteration, once `open` has given its result. -/
def addItem (opened : List CString) (fildes : Int) (key : CString) (t : Table) : Outcome :=
  if fildes < 0 then .exited
  else
    match grow (t.items.length + 1) t.capacity with
    | none => .undefined
    | some capacity =>
        .finished ⟨t.items ++ [⟨fildes, key⟩], capacity, opened, t.writes ++ [(t.items.length, t.capacity)]⟩

/-- One iteration, for a line that `fgets` has put into the array. For an empty
text the store of the NUL would be in front of the array. -/
def addLine (opens : Opens) (got : Content) (t : Table) : Outcome :=
  if (front got).text = [] then .undefined
  else
    let (key, ptr) := strsep (chop (front got)) blanks
    match ptr with
    | none => addItem t.opened (-1) key t
    | some ptr =>
        let path := (strsep ptr blanks).1
        addItem (t.opened ++ [path]) (opens t.items.length path) key t

def initLoop (maxKeylen : Nat) (opens : Opens) : Nat → Content → Table → Outcome
  | _, [], t => .finished t
  | 0, _ :: _, _ => .running
  | fuel + 1, c :: file, t =>
      let got := line (maxKeylen - 1) (c :: file)
      match addLine opens got t with
      | .finished t => initLoop maxKeylen opens fuel ((c :: file).drop got.length) t
      | out => out

/-- Both functions, from the content of the list file if `fopen` finds it. -/
def init (maxKeylen : Nat) (qsort : Qsort Item) (opens : Opens) : Option Content → Outcome
  | none => .exited
  | some file =>
      match initLoop maxKeylen opens file.length file .empty with
      | .finished t => .finished { t with items := qsort.sort itemcmp t.items }
      | out => out

def simplecacheInit (qsort : Qsort Item) (opens : Opens) (file : Option Content) : Outcome :=
  init 1024 qsort opens file

def contentInit (qsort : Qsort Item) (opens : Opens) (file : Option Content) : Outcome :=
  init 256 qsort opens file

def Inside (t : Table) : Prop := ∀ w ∈ t.writes, (w.1 : Int) < w.2

structure Sized (t : Table) : Prop where
  power : ∃ j ≤ 26, t.capacity = (2 ^ (j + 4) : Nat)
  room : (t.items.length : Int) < t.capacity
  inside : Inside t

variable {opens : Opens} {t t' : Table} {key : CString} {fildes : Int} {opened : List CString} {got file : Content}
  {maxKeylen fuel : Nat}

theorem addItem_finished (h : addItem opened fildes key t = .finished t') :
    0 ≤ fildes ∧ ∃ capacity, grow (t.items.length + 1) t.capacity = some capacity ∧
      t' = ⟨t.items ++ [⟨fildes, key⟩], capacity, opened, t.writes ++ [(t.items.length, t.capacity)]⟩ := by
  rw [addItem] at h
  split at h
  next => cases h
  next hopen =>
    split at h
    next => cases h
    next capacity hgrow =>
      cases h
      exact ⟨by omega, capacity, hgrow, rfl⟩

theorem Sized.inside_next (hs : Sized t) (items : List Item) (capacity : Int) (opened : List CString) :
    Inside ⟨items, capacity, opened, t.writes ++ [(t.items.length, t.capacity)]⟩ := by
  intro w hw
  rcases List.mem_append.mp hw with h | h
  · exact hs.inside w h
  · cases List.mem_singleton.mp h
    exact hs.room

theorem sized_empty : Sized .empty :=
  ⟨⟨0, by decide, rfl⟩, by decide, fun _ hw => by cases hw⟩

theorem pow_le_of_room {j : Nat} (hj : j ≤ 26) : (2 ^ (j + 4) : Nat) ≤ 2 ^ 30 :=
  Nat.pow_le_pow_right (by decide) (by omega)

theorem Sized.length_lt (hs : Sized t) : t.items.length < 2 ^ 30 := by
  obtain ⟨j, hj, hcap⟩ := hs.power
  have hle := pow_le_of_room hj
  have hroom := hs.room
  omega

theorem Sized.add (hs : Sized t) (h : addItem opened fildes key t = .finished t') : Sized t' := by
  obtain ⟨-, capacity, hgrow, rfl⟩ := addItem_finished h
  obtain ⟨j, hj, hcap⟩ := hs.power
  have hroom := hs.room
  rw [grow] at hgrow
  split at hgrow
  next hfull =>
    split at hgrow
    next hfits =>
      cases hgrow
      rw [hcap] at hfits
      have hlt : j + 5 < 31 := by
        rw [← Nat.pow_lt_pow_iff_right (show 1 < 2 by decide), Nat.pow_succ]
        omega
      refine ⟨⟨j + 1, by omega, ?_⟩, ?_, hs.inside_next _ _ _⟩
      · rw [hcap, show j + 1 + 4 = j + 4 + 1 by omega, Nat.pow_succ]
        rfl
      · show ((t.items ++ [_]).length : Int) < t.capacity * 2
        rw [List.length_append, List.length_singleton]
        omega
    next => cases hgrow
  next hless =>
    cases hgrow
    refine ⟨⟨j, hj, hcap⟩, ?_, hs.inside_next _ _ _⟩
    show ((t.items ++ [_]).length : Int) < t.capacity
    rw [List.length_append, List.length_singleton]
    omega

theorem Sized.addedLine (hs : Sized t) (h : addLine opens got t = .finished t') : Sized t' := by
  rw [addLine] at h
  split at h
  next => cases h
  next =>
    dsimp only at h
    split at h
    next => exact hs.add h
    next => exact hs.add h

theorem Sized.loop (hs : Sized t) (h : initLoop maxKeylen opens fuel file t = .finished t') : Sized t' := by
  induction fuel generalizing file t with
  | zero =>
      cases file with
      | nil => cases h; exact hs
      | cons c file => cases h
  | succ fuel ih =>
      cases file with
      | nil => cases h; exact hs
      | cons c file =>
          rw [initLoop] at h
          split at h
          next hadd => exact ih (hs.addedLine hadd) h
          next hno => exact absurd h (hno t')

theorem Sized.grows (hs : Sized t) (hopen : 0 ≤ fildes) (opened : List CString) (key : CString) :
    (∃ t', addItem opened fildes key t = .finished t') ∨
      addItem opened fildes key t = .undefined ∧ 2 ^ 30 ≤ t.items.length + 1 := by
  obtain ⟨j, hj, hcap⟩ := hs.power
  rw [addItem, if_neg (Int.not_lt.mpr hopen), grow]
  by_cases hfull : ((t.items.length + 1 : Nat) : Int) = t.capacity
  · rw [if_pos hfull]
    by_cases hfits : t.capacity * 2 < 2 ^ 31
    · rw [if_pos hfits]
      exact .inl ⟨_, rfl⟩
    · rw [if_neg hfits]
      exact .inr ⟨rfl, by omega⟩
  · rw [if_neg hfull]
    exact .inl ⟨_, rfl⟩

end GraduateOS.Cache.ListFiles
