import Mathlib.Data.List.AList

namespace GraduateOS.Dfs.Directory

abbrev Content := List UInt8

structure File where
  content : Content
  mtime : Int
  deriving DecidableEq

/-- The regular files below a mount path. The empty name is the mount
directory itself (`WrapPath("")`), so no file carries it. -/
structure Dir where
  files : AList (fun _ : String => File)
  unnamed : "" ∉ files

abbrev FileName := { f : String // f ≠ "" }

def empty : Dir := ⟨∅, AList.notMem_empty ""⟩

def Dir.lookup (d : Dir) (f : String) : Option File := d.files.lookup f

def Dir.content (d : Dir) (f : String) : Option Content := (d.lookup f).map File.content

def Dir.names (d : Dir) : List String := d.files.keys

def Dir.put (d : Dir) (f : String) (file : File) : Dir :=
  if h : f = "" then d else ⟨d.files.insert f file, by
    rw [AList.mem_insert]
    exact not_or_intro (Ne.symm h) d.unnamed⟩

/-- `fstream::open` with `ios::out`: create or truncate. Opening the mount
directory fails, and the stream then stays closed. -/
def Dir.openOut (d : Dir) (f : String) (now : Int) : Dir := d.put f ⟨[], now⟩

def overwrite (old : Content) (offset : Nat) (bytes : Content) : Content :=
  (old ++ List.replicate (offset - old.length) 0).take offset ++ bytes ++
    old.drop (offset + bytes.length)

/-- `seekg` and `write` on the stream opened for `f`. -/
def Dir.writeAt (d : Dir) (f : String) (offset : Nat) (bytes : Content) (now : Int) : Dir :=
  match d.lookup f with
  | none => d
  | some file => d.put f ⟨overwrite file.content offset bytes, now⟩

def Dir.remove (d : Dir) (f : String) : Dir :=
  ⟨d.files.erase f, fun h => d.unnamed (AList.mem_erase.mp h).2⟩

theorem overwrite_end (old bytes : Content) : overwrite old old.length bytes = old ++ bytes := by
  simp [overwrite, List.drop_eq_nil_of_le]

@[simp] theorem lookup_unnamed (d : Dir) : d.lookup "" = none :=
  AList.lookup_eq_none.mpr d.unnamed

@[simp] theorem lookup_empty (f : String) : empty.lookup f = none := AList.lookup_empty f

theorem lookup_named {d : Dir} {f : String} {file : File} (h : d.lookup f = some file) : f ≠ "" := by
  rintro rfl
  simp at h

theorem lookup_put (d : Dir) (f g : String) (file : File) :
    (d.put f file).lookup g = if g = f ∧ f ≠ "" then some file else d.lookup g := by
  unfold Dir.put
  split
  next h => simp [h]
  next h =>
    by_cases hg : g = f
    · subst g
      simp [Dir.lookup, h]
    · simp [Dir.lookup, hg]

@[simp] theorem lookup_put_self (d : Dir) {f : String} (h : f ≠ "") (file : File) :
    (d.put f file).lookup f = some file := by
  simp [lookup_put, h]

@[simp] theorem lookup_put_ne (d : Dir) {f g : String} (h : g ≠ f) (file : File) :
    (d.put f file).lookup g = d.lookup g := by
  simp [lookup_put, h]

@[simp] theorem lookup_openOut_ne (d : Dir) {f g : String} (h : g ≠ f) (now : Int) :
    (d.openOut f now).lookup g = d.lookup g := lookup_put_ne d h _

theorem lookup_writeAt (d : Dir) (f : String) (offset : Nat) (bytes : Content) (now : Int) :
    (d.writeAt f offset bytes now).lookup f =
      (d.lookup f).map (fun file => ⟨overwrite file.content offset bytes, now⟩) := by
  unfold Dir.writeAt
  split
  next h => simp [h]
  next file h => simp [h, lookup_named h]

@[simp] theorem lookup_writeAt_ne (d : Dir) {f g : String} (h : g ≠ f) (offset : Nat)
    (bytes : Content) (now : Int) : (d.writeAt f offset bytes now).lookup g = d.lookup g := by
  unfold Dir.writeAt
  split
  · rfl
  · exact lookup_put_ne d h _

@[simp] theorem lookup_remove_self (d : Dir) (f : String) : (d.remove f).lookup f = none :=
  AList.lookup_erase f d.files

@[simp] theorem lookup_remove_ne (d : Dir) {f g : String} (h : g ≠ f) :
    (d.remove f).lookup g = d.lookup g := AList.lookup_erase_ne h

theorem mem_names {d : Dir} {f : String} : f ∈ d.names ↔ d.lookup f ≠ none := by
  rw [Dir.names, Dir.lookup, ← AList.mem_keys, ne_eq, AList.lookup_eq_none, not_not]

theorem names_nodup (d : Dir) : d.names.Nodup := d.files.keys_nodup

theorem content_eq_none {d : Dir} {f : String} : d.content f = none ↔ d.lookup f = none := by
  simp [Dir.content]

theorem content_congr {d e : Dir} {f : String} (h : d.lookup f = e.lookup f) :
    d.content f = e.content f := by
  rw [Dir.content, Dir.content, h]

@[simp] theorem content_remove_self (d : Dir) (f : String) : (d.remove f).content f = none := by
  simp [Dir.content]

end GraduateOS.Dfs.Directory
