import GraduateOS.Dfs.Mounts
import GraduateOS.Library.Words

namespace GraduateOS.Dfs.Watcher

open Library.CStrings Library.Words

def inModify : Nat := 0x002
def inCreate : Nat := 0x100
def inDelete : Nat := 0x200

/-- The events that `Mount` asks for. -/
def eventFlags : Nat := inCreate ||| inModify ||| inDelete

def dot : UInt8 := 46
def slash : UInt8 := 47

def dfsCleanPath (path : List UInt8) : List UInt8 :=
  if path ≠ [] ∧ path.getLast? ≠ some slash then path ++ [slash] else path

/-- A byte that `.` does not match. -/
def ends (b : UInt8) : Bool := b = 10 || b = 13

/-- The pattern of `InotifyEventCallback`: anything, a dot and one of the extensions. -/
def regexMatch (filename : List UInt8) : Bool :=
  !filename.any ends && Mounts.extensions.any fun e => (dot :: ascii e).isSuffixOf filename

def basename (filename : List UInt8) : List UInt8 :=
  (filename.reverse.takeWhile (· ≠ slash)).reverse

inductive Call
  | store (name : List UInt8)
  | delete (name : List UInt8)
  deriving DecidableEq

/-- `InotifyEventCallback`: the calls that it makes for one event. -/
def inotifyEventCallback (mask : Nat) (filename : List UInt8) : List Call :=
  if regexMatch filename then
    (if mask &&& inCreate ≠ 0 then [.store (basename filename)] else []) ++
      (if mask &&& inModify ≠ 0 then [.store (basename filename)] else []) ++
      (if mask &&& inDelete ≠ 0 then [.delete (basename filename)] else [])
  else []

/-- The loop of `InotifyWatcher` over the bytes that `read` has returned, with one
unit of fuel for each of them. There is no result when it leaves the buffer. -/
def watchLoop (eventType : Nat) (mountPath : List UInt8) : Nat → Memory → Option (List Call)
  | 0, _ => some []
  | fuel + 1, buffer =>
      if buffer = [] then some []
      else do
        let (_, rest) ← readWord buffer
        let (mask, rest) ← readWord rest
        let (_, rest) ← readWord rest
        let (len, name) ← readWord rest
        let calls ←
          if eventType &&& mask ≠ 0 then do
            let first ← name.head?
            if first ≠ dot then (cstr name).map (fun name => inotifyEventCallback mask (mountPath ++ name))
            else some []
          else some []
        let more ← watchLoop eventType mountPath fuel (name.drop len)
        some (calls ++ more)

def inotifyWatcher (mountPath : List UInt8) (buffer : Memory) : Option (List Call) :=
  watchLoop eventFlags mountPath buffer.length buffer

structure KernelEvent where
  wd : Nat
  mask : Nat
  cookie : Nat
  name : List UInt8
  /-- The zeros that follow the name. -/
  padding : Nat

def KernelEvent.len (e : KernelEvent) : Nat := e.name.length + e.padding

/-- The bytes of an `inotify_event`. -/
def KernelEvent.bytes (e : KernelEvent) : Memory :=
  wordBytes e.wd ++ (wordBytes e.mask ++ (wordBytes e.cookie ++ (wordBytes e.len ++
    (e.name ++ List.replicate e.padding 0))))

/-- What the kernel promises: the fields fit their types, a name is a file name,
and an event that the watcher has asked for carries a terminated name. -/
structure Wellformed (e : KernelEvent) : Prop where
  wd : e.wd < 2 ^ 32
  mask : e.mask < 2 ^ 32
  cookie : e.cookie < 2 ^ 32
  len : e.len < 2 ^ 32
  nul : 0 ∉ e.name
  slash : slash ∉ e.name
  named : eventFlags &&& e.mask ≠ 0 → 0 < e.padding

def synced (mountPath name : List UInt8) : Bool :=
  !mountPath.any ends && !name.any ends && name.head? ≠ some dot &&
    Mounts.extensions.any fun e => (dot :: ascii e).isSuffixOf name

def callsOf (mountPath : List UInt8) (e : KernelEvent) : List Call :=
  if synced mountPath e.name then
    (if e.mask &&& inCreate ≠ 0 then [.store e.name] else []) ++
      (if e.mask &&& inModify ≠ 0 then [.store e.name] else []) ++
      (if e.mask &&& inDelete ≠ 0 then [.delete e.name] else [])
  else []

/-- What `dfs_clean_path` leaves behind. -/
def IsClean (path : List UInt8) : Prop := path = [] ∨ ∃ p, path = p ++ [slash]

variable {mountPath name s p : List UInt8} {e : KernelEvent} {fuel : Nat}

theorem dfsCleanPath_clean (path : List UInt8) : IsClean (dfsCleanPath path) := by
  rw [dfsCleanPath]
  split
  next => exact Or.inr ⟨path, rfl⟩
  next h =>
    by_cases hpath : path = []
    · exact Or.inl hpath
    · obtain ⟨p, hp⟩ := List.getLast?_eq_some_iff.mp (not_not.mp fun hlast => h ⟨hpath, hlast⟩)
      exact Or.inr ⟨p, hp⟩

/-- A text without slashes ends the path when it ends the name. -/
theorem suffix_after_slash (hs : slash ∉ s) : s <:+ p ++ slash :: name ↔ s <:+ name := by
  constructor
  · intro h
    rcases List.suffix_or_suffix_of_suffix h (List.suffix_append p (slash :: name)) with hshort | hlong
    · rcases List.suffix_cons_iff.mp hshort with rfl | hshort
      · exact absurd List.mem_cons_self hs
      · exact hshort
    · exact absurd (hlong.subset List.mem_cons_self) hs
  · intro h
    exact (h.trans (List.suffix_cons slash name)).trans (List.suffix_append p _)

theorem extension_slash : ∀ e ∈ Mounts.extensions, slash ∉ dot :: ascii e := by decide

theorem basename_path (hpath : IsClean mountPath) (hname : slash ∉ name) :
    basename (mountPath ++ name) = name := by
  have hall : ∀ b ∈ name.reverse, (decide (b ≠ slash)) = true := by
    intro b hb
    rw [decide_eq_true_eq]
    rintro rfl
    exact hname (List.mem_reverse.mp hb)
  rw [basename, List.reverse_append, List.takeWhile_append_of_pos hall]
  rcases hpath with rfl | ⟨p, rfl⟩
  · simp
  · simp

theorem any_extension (hpath : IsClean mountPath) (name : List UInt8) :
    (Mounts.extensions.any fun e => (dot :: ascii e).isSuffixOf (mountPath ++ name)) =
      Mounts.extensions.any fun e => (dot :: ascii e).isSuffixOf name := by
  rcases hpath with rfl | ⟨p, rfl⟩
  · rw [List.nil_append]
  · rw [Bool.eq_iff_iff, List.any_eq_true, List.any_eq_true, List.append_assoc, List.singleton_append]
    refine exists_congr fun e => and_congr_right fun he => ?_
    rw [List.isSuffixOf_iff_suffix, List.isSuffixOf_iff_suffix, suffix_after_slash (extension_slash e he)]

theorem callback_calls (hpath : IsClean mountPath) (hname : slash ∉ name) (hdot : name.head? ≠ some dot)
    (mask : Nat) :
    inotifyEventCallback mask (mountPath ++ name) = callsOf mountPath ⟨0, mask, 0, name, 0⟩ := by
  have hmatch : regexMatch (mountPath ++ name) = synced mountPath name := by
    rw [regexMatch, synced, any_extension hpath]
    simp [hdot, Bool.and_assoc, List.any_append]
  rw [inotifyEventCallback, callsOf, hmatch, basename_path hpath hname]

theorem flags_of_bit {mask : Nat} (h : eventFlags &&& mask = 0) :
    mask &&& inCreate = 0 ∧ mask &&& inModify = 0 ∧ mask &&& inDelete = 0 := by
  rw [eventFlags, Nat.and_or_distrib_right, Nat.and_or_distrib_right, Nat.or_eq_zero_iff, Nat.or_eq_zero_iff,
    Nat.and_comm, Nat.and_comm inModify, Nat.and_comm inDelete] at h
  exact ⟨h.1.1, h.1.2, h.2⟩

theorem callsOf_other (h : eventFlags &&& e.mask = 0) (mountPath : List UInt8) : callsOf mountPath e = [] := by
  obtain ⟨hcreate, hmodify, hdelete⟩ := flags_of_bit h
  simp [callsOf, hcreate, hmodify, hdelete]

theorem callsOf_hidden (h : e.name.head? = some dot) (mountPath : List UInt8) : callsOf mountPath e = [] := by
  simp [callsOf, synced, h]

/-- One round of the loop takes one event from the buffer. -/
theorem watchLoop_event (hpath : IsClean mountPath) (he : Wellformed e) (rest : Memory) :
    watchLoop eventFlags mountPath (fuel + 1) (e.bytes ++ rest) =
      (watchLoop eventFlags mountPath fuel rest).map (callsOf mountPath e ++ ·) := by
  have hbuffer : e.bytes ++ rest ≠ [] := by simp [KernelEvent.bytes, wordBytes]
  have hskip : (e.name ++ List.replicate e.padding 0 ++ rest).drop e.len = rest := by
    have hlen : (e.name ++ List.replicate e.padding 0).length = e.len := by simp [KernelEvent.len]
    rw [← hlen, List.drop_left]
  rw [watchLoop, if_neg hbuffer]
  simp only [KernelEvent.bytes, List.append_assoc, readWord_correct he.wd, readWord_correct he.mask,
    readWord_correct he.cookie, readWord_correct he.len, Option.bind_eq_bind, Option.bind_some]
  rw [List.append_assoc] at hskip
  rw [hskip]
  by_cases hmask : eventFlags &&& e.mask ≠ 0
  · obtain ⟨k, hk⟩ := Nat.exists_eq_succ_of_ne_zero (Nat.ne_of_gt (he.named hmask))
    have hfirst (tail : Memory) : (e.name ++ 0 :: tail).head? = some (e.name.head?.getD 0) := by
      cases e.name <;> rfl
    rw [if_pos hmask, hk, List.replicate_succ, List.cons_append, hfirst, Option.bind_some,
      cstr_terminated he.nul, Option.map_some]
    by_cases hdot : e.name.head?.getD 0 = dot
    · have hhead : e.name.head? = some dot := by
        cases hname : e.name.head? with
        | none =>
            rw [hname] at hdot
            cases hdot
        | some b =>
            rw [hname] at hdot
            exact congrArg some hdot
      rw [if_neg (not_not.mpr hdot), callsOf_hidden hhead]
      cases watchLoop eventFlags mountPath fuel rest <;> rfl
    · have hhead : e.name.head? ≠ some dot := fun h => hdot (by rw [h]; rfl)
      have hcalls : inotifyEventCallback e.mask (mountPath ++ e.name) = callsOf mountPath e :=
        callback_calls hpath he.slash hhead e.mask
      rw [if_pos hdot, hcalls]
      cases watchLoop eventFlags mountPath fuel rest <;> rfl
  · rw [if_neg hmask, callsOf_other (not_not.mp hmask)]
    cases watchLoop eventFlags mountPath fuel rest <;> rfl

theorem watchLoop_events {es : List KernelEvent} (hpath : IsClean mountPath)
    (hes : ∀ e ∈ es, Wellformed e) (hfuel : es.length ≤ fuel) :
    watchLoop eventFlags mountPath fuel (es.flatMap KernelEvent.bytes) =
      some (es.flatMap (callsOf mountPath)) := by
  induction es generalizing fuel with
  | nil => cases fuel <;> rfl
  | cons e es ih =>
      cases fuel with
      | zero => cases hfuel
      | succ fuel =>
          rw [List.flatMap_cons, watchLoop_event hpath (hes e List.mem_cons_self),
            ih (fun e' he' => hes e' (List.mem_cons_of_mem e he')) (Nat.le_of_succ_le_succ hfuel)]
          rfl

theorem length_le_bytes (es : List KernelEvent) : es.length ≤ (es.flatMap KernelEvent.bytes).length := by
  induction es with
  | nil => exact Nat.le_refl 0
  | cons e es ih =>
      rw [List.flatMap_cons, List.length_append, List.length_cons]
      simp only [KernelEvent.bytes, wordBytes, List.length_append, List.length_cons]
      omega

def maskOf : ClientNode.Mask → Nat
  | .create => inCreate
  | .modify => inModify
  | .delete => inDelete

theorem maskOf_lt (mask : ClientNode.Mask) : maskOf mask < 2 ^ 32 := by cases mask <;> decide

def kernelEvent (e : ClientNode.Event) : KernelEvent := ⟨1, maskOf e.mask, 0, ascii e.name, 1⟩

def callOf (e : ClientNode.Event) : Call :=
  match e.mask with
  | .delete => .delete (ascii e.name)
  | _ => .store (ascii e.name)

def IsAscii (f : String) : Prop := ∀ c ∈ f.toList, c.toNat < 128

theorem byte_char {c : Char} (hc : c.toNat < 128) : Char.ofNat c.toNat.toUInt8.toNat = c := by
  have hbyte : c.toNat.toUInt8.toNat = c.toNat := by
    simp only [Nat.toUInt8, UInt8.toNat_ofNat']
    omega
  rw [hbyte, Char.ofNat_toNat]

theorem ascii_chars {f : String} (hf : IsAscii f) : (ascii f).map (fun b => Char.ofNat b.toNat) = f.toList := by
  rw [ascii, List.map_map]
  conv_rhs => rw [← List.map_id f.toList]
  exact List.map_congr_left (fun c hc => byte_char (hf c hc))

theorem extension_ascii : ∀ e ∈ Mounts.extensions, IsAscii e := by
  have hall : (Mounts.extensions.all fun e => e.toList.all fun c => decide (c.toNat < 128)) = true := by
    decide
  intro e he c hc
  exact of_decide_eq_true (List.all_eq_true.mp (List.all_eq_true.mp hall e he) c hc)

theorem ascii_suffix {f e : String} (hf : IsAscii f) (he : IsAscii e) :
    dot :: ascii e <:+ ascii f ↔ '.' :: e.toList <:+ f.toList := by
  constructor
  · intro h
    have hmap := h.map (fun b => Char.ofNat b.toNat)
    rwa [List.map_cons, ascii_chars he, ascii_chars hf] at hmap
  · intro h
    exact h.map (fun c => c.toNat.toUInt8)

theorem byte_eq {c d : Char} (hc : c.toNat < 128) (hd : d.toNat < 128) :
    c.toNat.toUInt8 = d.toNat.toUInt8 ↔ c = d := by
  refine ⟨fun h => ?_, congrArg (fun c : Char => c.toNat.toUInt8)⟩
  rw [← byte_char hc, h, byte_char hd]

theorem ascii_ends {f : String} (hf : IsAscii f) :
    (ascii f).any ends = false ↔ '\n' ∉ f.toList ∧ '\r' ∉ f.toList := by
  have hchar : ∀ c ∈ f.toList, ends c.toNat.toUInt8 = (decide (c = '\n') || decide (c = '\r')) := by
    intro c hc
    have hnewline := byte_eq (hf c hc) (show '\n'.toNat < 128 by decide)
    have hreturn := byte_eq (hf c hc) (show '\r'.toNat < 128 by decide)
    rw [ends, ← decide_eq_decide.mpr hnewline, ← decide_eq_decide.mpr hreturn]
    rfl
  rw [List.any_eq_false]
  constructor
  · intro h
    constructor
    · exact fun hmem => h _ (List.mem_map_of_mem hmem) rfl
    · exact fun hmem => h _ (List.mem_map_of_mem hmem) rfl
  · rintro ⟨hnewline, hreturn⟩ b hb
    obtain ⟨c, hc, rfl⟩ := List.mem_map.mp hb
    rw [hchar c hc]
    simp only [Bool.or_eq_true, decide_eq_true_eq]
    rintro (rfl | rfl)
    · exact hnewline hc
    · exact hreturn hc

theorem ascii_head {f : String} (hf : IsAscii f) : (ascii f).head? = some dot ↔ f.toList.head? = some '.' := by
  rw [ascii, List.head?_map]
  cases hhead : f.toList.head? with
  | none => simp
  | some c =>
      rw [Option.map_some, Option.some_inj, Option.some_inj]
      exact byte_eq (hf c (List.mem_of_head? hhead)) (show '.'.toNat < 128 by decide)

theorem ascii_extension {f : String} (hf : IsAscii f) :
    (Mounts.extensions.any fun e => (dot :: ascii e).isSuffixOf (ascii f)) =
      Mounts.extensions.any fun e => ('.' :: e.toList).isSuffixOf f.toList := by
  rw [Bool.eq_iff_iff, List.any_eq_true, List.any_eq_true]
  refine exists_congr fun e => and_congr_right fun he => ?_
  rw [List.isSuffixOf_iff_suffix, List.isSuffixOf_iff_suffix, ascii_suffix hf (extension_ascii e he)]

theorem synced_watched {f : String} (hf : IsAscii f) (hpath : mountPath.any ends = false) :
    synced mountPath (ascii f) = Mounts.watched f := by
  have hends := ascii_ends hf
  have hhead := ascii_head hf
  rw [synced, Mounts.watched, ascii_extension hf, hpath, Bool.eq_iff_iff]
  simp only [Bool.and_eq_true, Bool.not_eq_true', Bool.not_false, decide_eq_true_eq, hends, ne_eq, hhead]
  tauto

theorem callsOf_event {e : ClientNode.Event} (hname : IsAscii e.name) (hpath : mountPath.any ends = false) :
    callsOf mountPath (kernelEvent e) = if Mounts.watched e.name then [callOf e] else [] := by
  rw [callsOf, ← synced_watched hname hpath]
  obtain ⟨name, mask⟩ := e
  cases mask with
  | create => simp [kernelEvent, callOf, maskOf, inCreate, inModify, inDelete]
  | modify => simp [kernelEvent, callOf, maskOf, inCreate, inModify, inDelete]
  | delete => simp [kernelEvent, callOf, maskOf, inCreate, inModify, inDelete]

theorem ascii_notMem {f : String} {c : Char} (hf : IsAscii f) (hc : c ∉ f.toList) (hchar : c.toNat < 128) :
    c.toNat.toUInt8 ∉ ascii f := by
  intro hmem
  obtain ⟨d, hd, heq⟩ := List.mem_map.mp hmem
  exact hc ((byte_eq (hf d hd) hchar).mp heq ▸ hd)

theorem ascii_length (f : String) : (ascii f).length = f.toList.length := List.length_map _

structure Plain (f : String) : Prop where
  chars : IsAscii f
  slash : '/' ∉ f.toList
  nul : Char.ofNat 0 ∉ f.toList
  length : f.toList.length < 2 ^ 32 - 1

theorem kernelEvent_wellformed {e : ClientNode.Event} (he : Plain e.name) : Wellformed (kernelEvent e) where
  wd := show 1 < 2 ^ 32 by decide
  mask := maskOf_lt e.mask
  cookie := Nat.two_pow_pos 32
  len := by
    have hlength := he.length
    simp only [KernelEvent.len, kernelEvent, ascii_length]
    omega
  nul := ascii_notMem he.chars he.nul (by decide)
  slash := ascii_notMem he.chars he.slash (by decide)
  named _ := Nat.zero_lt_one

theorem dfsCleanPath_ends {path : List UInt8} (hpath : path.any ends = false) :
    (dfsCleanPath path).any ends = false := by
  rw [dfsCleanPath]
  split
  next =>
    rw [List.any_append, hpath]
    rfl
  next => exact hpath

/-- The watcher makes the calls of `Mounts.inotifyEventCallback` for the events of a mount. -/
theorem mount_calls {path : List UInt8} (hpath : path.any ends = false) {events : List ClientNode.Event}
    (hevents : ∀ e ∈ events, Plain e.name) :
    inotifyWatcher (dfsCleanPath path) ((events.map kernelEvent).flatMap KernelEvent.bytes) =
      some (events.flatMap fun e => if Mounts.watched e.name then [callOf e] else []) := by
  have hes : ∀ e ∈ events.map kernelEvent, Wellformed e := by
    intro e he
    obtain ⟨e', he', rfl⟩ := List.mem_map.mp he
    exact kernelEvent_wellformed (hevents e' he')
  rw [inotifyWatcher, watchLoop_events (dfsCleanPath_clean path) hes (length_le_bytes _), List.flatMap_map]
  refine congrArg some (List.flatMap_congr fun e he => ?_)
  exact callsOf_event (hevents e he).chars (dfsCleanPath_ends hpath)

/-- From the events of the kernel, packed in one buffer, the watcher makes exactly
the calls for the files it is to keep in sync, in their order, and never leaves
the buffer. -/
theorem watcher_exact (path : List UInt8) {es : List KernelEvent} (hes : ∀ e ∈ es, Wellformed e) :
    inotifyWatcher (dfsCleanPath path) (es.flatMap KernelEvent.bytes) =
      some (es.flatMap (callsOf (dfsCleanPath path))) :=
  watchLoop_events (dfsCleanPath_clean path) hes (length_le_bytes es)

theorem twoEvents_exact :
    inotifyWatcher (dfsCleanPath (ascii "mnt"))
      ([⟨1, inCreate, 0, ascii "a.txt", 3⟩, ⟨1, inDelete, 0, ascii "b.c", 1⟩,
        ⟨1, inDelete, 0, ascii "c.md", 4⟩].flatMap KernelEvent.bytes) =
      some [.store (ascii "a.txt"), .delete (ascii "c.md")] := by
  have hes : ∀ e ∈ [⟨1, inCreate, 0, ascii "a.txt", 3⟩, ⟨1, inDelete, 0, ascii "b.c", 1⟩,
      (⟨1, inDelete, 0, ascii "c.md", 4⟩ : KernelEvent)], Wellformed e := by
    intro e he
    rcases List.mem_cons.mp he with rfl | he
    · exact ⟨by decide, by decide, by decide, by decide, by decide, by decide, by decide⟩
    · rcases List.mem_cons.mp he with rfl | he
      · exact ⟨by decide, by decide, by decide, by decide, by decide, by decide, by decide⟩
      · obtain rfl := List.mem_singleton.mp he
        exact ⟨by decide, by decide, by decide, by decide, by decide, by decide, by decide⟩
  exact watcher_exact (ascii "mnt") hes

end GraduateOS.Dfs.Watcher
