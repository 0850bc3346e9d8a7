import GraduateOS.Dfs.Part1Runs
import GraduateOS.Dfs.Transfers

namespace GraduateOS.Dfs.TwoParts

open Directory Checksum Messages ServerNode ClientNode Transfers Library.Runs Library.MachineInts
open Part1Runs (Command Reply FileMap Files Does dirEntries dirEntries_lookup plainReply retrieveLoop_timely text timely timely_reply)

structure ListFilesOutput where
  fileName : String
  mtime : Int

/-- The messages that `listFiles` writes and its status. -/
def listLoop (isCancelled : Nat → Bool) : Nat → List (String × Int) → List ListFilesOutput × StatusCode
  | _, [] => ([], .ok)
  | k, (name, mtime) :: entries =>
      if isCancelled k then ([], .deadlineExceeded)
      else
        let rest := listLoop isCancelled (k + 1) entries
        (⟨name, toInt32 mtime⟩ :: rest.1, rest.2)

def listFiles (s : Server) (dots : Int × Int) (isCancelled : Nat → Bool) : List ListFilesOutput × StatusCode :=
  listLoop isCancelled 0 (dirEntries s.dir dots)

/-- `map::insert` keeps the entry that is there. -/
def insertNew (fileMap : FileMap) (response : ListFilesOutput) : FileMap :=
  if response.fileName ∈ fileMap then fileMap else fileMap.insert response.fileName response.mtime

def listReply : StatusCode → StatusCode
  | .ok => .ok
  | .deadlineExceeded => .deadlineExceeded
  | _ => .cancelled

/-- `List`, given the messages it reads and the final status of the call. -/
def listFrom (fileMap : FileMap) (messages : List ListFilesOutput) (status : StatusCode) : FileMap × StatusCode :=
  (messages.foldl insertNew fileMap, listReply status)

/-- `List` with a fresh map. Its deadline is set after the call has started, so
the handler never finds the call cancelled. -/
def listCall (s : Server) (dots : Int × Int) : Reply :=
  let answer := listFiles s dots (fun _ => false)
  match listFrom ∅ answer.1 answer.2 with
  | (fileMap, .ok) => .listing fileMap
  | (_, code) => .code code

structure StatusFileOutput where
  fileName : String
  fileLength : Int
  crc : Int
  mtime : Int
  ctime : Int

/-- `statusFile`; all four numbers travel as `int32`. -/
def statusFile (s : Server) (f : String) (ctime : Int) : Option StatusFileOutput × StatusCode :=
  match s.dir.lookup f with
  | none => (none, .notFound)
  | some file =>
      (some ⟨f, toInt32 file.content.length, toInt32 (dfsFileChecksum (some file.content)).toNat,
        toInt32 file.mtime, toInt32 ctime⟩, .ok)

inductive Act
  | edit (f : FileName) (bytes : Option Content)
  | call (command : Command)

def Act.part1 : Act → Part1Runs.Act
  | .edit f bytes => .edit f bytes
  | .call command => .call command (fun _ => false) none

variable {C : Type} [DecidableEq C]

structure State (C : Type) where
  server : Server
  mounts : C → Mount

def State.setMount (s : State C) (c : C) (m : Mount) : State C :=
  { s with mounts := Function.update s.mounts c m }

/-- One action of client `c`, with the reply that a call gets. -/
def act (clientId : C → String) (dots : Int × Int) (s : State C) (c : C) (now : Int) : Act → State C × Option Reply
  | .edit f none => (s.setMount c ((s.mounts c).remove f), none)
  | .edit f (some bytes) => (s.setMount c ((s.mounts c).edit f bytes now), none)
  | .call (.store f) =>
      let answer := store (clientId c) (s.mounts c) f s.server now
      ({ s with server := answer.1 }, some (.code answer.2))
  | .call (.fetch f) =>
      let answer := fetch (s.mounts c) f s.server now
      (s.setMount c answer.1, some (.code answer.2))
  | .call (.delete f) =>
      let answer := delete (clientId c) (s.mounts c) f s.server
      ({ s with server := answer.1.1 }.setMount c answer.1.2, some (.code answer.2))
  | .call .list => (s, some (listCall s.server dots))
  | .call (.stat f) => (s, some (.code (plainReply (statusFile s.server f now).2)))

structure View (C : Type) where
  server : String → Option Content
  mounts : C → String → Option Content

def View.setServer (v : View C) (f : String) (bytes : Option Content) : View C :=
  { v with server := Function.update v.server f bytes }

def View.setMount (v : View C) (c : C) (f : String) (bytes : Option Content) : View C :=
  { v with mounts := Function.update v.mounts c (Function.update (v.mounts c) f bytes) }

def view (s : State C) : View C := ⟨s.server.dir.content, fun c => (s.mounts c).dir.content⟩

def viewOf (a : Files C) : View C := ⟨fun f => (a.server f).map File.content, a.mounts⟩

def view1 (t : Part1Runs.State C) : View C := viewOf (Part1Runs.files t)

def filled : Option Content → Bool
  | some (_ :: _) => true
  | _ => false

/-- The calls of Part 1: they move a file whatever the other side has. -/
def View.plain (v : View C) (c : C) : Act → View C
  | .edit f bytes => v.setMount c f bytes
  | .call (.store f) => if filled (v.mounts c f) then v.setServer f (v.mounts c f) else v
  | .call (.fetch f) => v.setMount c f (v.server f)
  | .call (.delete f) => v.setServer f none
  | .call .list | .call (.stat _) => v

def SameSums (v : View C) (c : C) (f : String) : Prop :=
  dfsFileChecksum (v.mounts c f) = dfsFileChecksum (v.server f)

instance (v : View C) (c : C) (f : String) : Decidable (SameSums v c f) := inferInstanceAs (Decidable (_ = _))

/-- The calls of Part 2: they compare checksums first, and a deletion is one of both copies. -/
def View.checked (v : View C) (c : C) : Act → View C
  | .edit f bytes => v.setMount c f bytes
  | .call (.store f) => if filled (v.mounts c f) ∧ ¬ SameSums v c f then v.setServer f (v.mounts c f) else v
  | .call (.fetch f) => if filled (v.server f) ∧ ¬ SameSums v c f then v.setMount c f (v.server f) else v
  | .call (.delete f) => if v.server f = none then v else (v.setServer f none).setMount c f none
  | .call .list | .call (.stat _) => v

/-- The actions on which the two parts agree: no two different contents with one
checksum meet, a fetch that moves nothing has nothing to change, and a deletion
finds no local copy. -/
def Alike (v : View C) (c : C) : Act → Prop
  | .call (.store f) => filled (v.mounts c f) = true → SameSums v c f → v.server f = v.mounts c f
  | .call (.fetch f) => ¬ (filled (v.server f) = true ∧ ¬ SameSums v c f) → v.mounts c f = v.server f
  | .call (.delete f) => v.server f ≠ none → v.mounts c f = none
  | _ => True

def plainCode (v : View C) (c : C) : Command → StatusCode
  | .store f => if v.mounts c f = none then .notFound else .ok
  | .fetch f | .delete f | .stat f => if v.server f = none then .notFound else .ok
  | .list => .ok

def checkedCode (v : View C) (c : C) : Command → StatusCode
  | .store f =>
      if v.mounts c f = none then .cancelled
      else if filled (v.mounts c f) ∧ SameSums v c f then .alreadyExists
      else .ok
  | .fetch f => if v.server f = none ∨ SameSums v c f then .notFound else .ok
  | .delete f | .stat f => if v.server f = none then .notFound else .ok
  | .list => .ok

def Answers (v : View C) (code : StatusCode) : Reply → Prop
  | .code c => c = code
  | .listing fileMap =>
      code = .ok ∧ ∀ f, f ≠ "." → f ≠ ".." → (fileMap.lookup f).isSome = (v.server f).isSome

variable {v : View C} {c : C} {f : String} {bytes : Option Content} {s : State C}

omit [DecidableEq C] in
theorem view_ext {v w : View C} (hserver : ∀ f, v.server f = w.server f)
    (hmounts : ∀ c f, v.mounts c f = w.mounts c f) : v = w := by
  obtain ⟨server, mounts⟩ := v
  obtain ⟨server', mounts'⟩ := w
  obtain rfl : server = server' := funext hserver
  obtain rfl : mounts = mounts' := funext fun c => funext (hmounts c)
  rfl

omit [DecidableEq C] in
theorem setServer_eq_iff : v.setServer f bytes = v ↔ v.server f = bytes := by
  constructor
  · intro h
    rw [← h]
    exact Function.update_self f bytes v.server
  · rintro rfl
    rw [View.setServer, Function.update_eq_self]

theorem setMount_eq_iff : v.setMount c f bytes = v ↔ v.mounts c f = bytes := by
  constructor
  · intro h
    rw [← h]
    simp [View.setMount]
  · rintro rfl
    rw [View.setMount, Function.update_eq_self, Function.update_eq_self]

/-- The checks of Part 2 are harmless for exactly these actions. -/
theorem plain_checked_iff (a : Act) : v.plain c a = v.checked c a ↔ Alike v c a := by
  cases a with
  | edit f bytes => exact iff_of_true rfl trivial
  | call command =>
      cases command with
      | store f =>
          simp only [View.plain, View.checked, Alike]
          by_cases hfilled : filled (v.mounts c f) = true
          · by_cases hsame : SameSums v c f
            · simp [hfilled, hsame, setServer_eq_iff]
            · simp [hfilled, hsame]
          · simp [hfilled]
      | fetch f =>
          simp only [View.plain, View.checked, Alike]
          by_cases hmoves : filled (v.server f) = true ∧ ¬ SameSums v c f
          · simp [hmoves]
          · rw [if_neg hmoves, setMount_eq_iff]
            exact ⟨fun h _ => h, fun h => h hmoves⟩
      | delete f =>
          simp only [View.plain, View.checked, Alike]
          by_cases hnone : v.server f = none
          · simp [hnone, setServer_eq_iff]
          · rw [if_neg hnone, eq_comm, setMount_eq_iff]
            exact ⟨fun h _ => h, fun h => h hnone⟩
      | list | stat f => exact iff_of_true rfl trivial

omit [DecidableEq C] in
theorem filled_iff {own : Option Content} : filled own = true ↔ ∃ bytes, own = some bytes ∧ bytes ≠ [] := by
  cases own with
  | none => simp [filled]
  | some bytes => cases bytes <;> simp [filled]

omit [DecidableEq C] in
theorem viewOf_put (a : Files C) (f : String) (file : Option File) :
    viewOf (a.put f file) = (viewOf a).setServer f (file.map File.content) := by
  refine view_ext (fun g => ?_) (fun _ _ => rfl)
  by_cases hg : g = f
  · subst g
    simp [viewOf, Files.put, View.setServer]
  · simp [viewOf, Files.put, View.setServer, hg]

theorem does_plain {a b : Files C} {now : Int} {command : Command} {reply : Reply} (h : Does a c now command reply b)
    (hreply : reply ≠ .code .deadlineExceeded) :
    viewOf b = (viewOf a).plain c (.call command) ∧ Answers (viewOf a) (plainCode (viewOf a) c command) reply := by
  cases h with
  | @storeMissing f hmount =>
      have hmine : (viewOf a).mounts c f = none := hmount
      simp [View.plain, plainCode, hmine, filled, Answers]
  | @stored f bytes hmount hne =>
      have hmine : (viewOf a).mounts c f = some bytes := hmount
      have hfilled : filled (some bytes) = true := filled_iff.mpr ⟨bytes, rfl, hne⟩
      rw [viewOf_put]
      simp [View.plain, plainCode, hmine, hfilled, Answers]
  | @storedNothing f hmount =>
      have hmine : (viewOf a).mounts c f = some [] := hmount
      simp [View.plain, plainCode, hmine, filled, Answers]
  | @fetched f file hserver =>
      have htheirs : (viewOf a).server f = some file.content := congrArg (Option.map File.content) hserver
      refine ⟨?_, by simp [plainCode, htheirs, Answers]⟩
      rw [View.plain, htheirs]
      rfl
  | @fetchMissing f hserver =>
      have htheirs : (viewOf a).server f = none := congrArg (Option.map File.content) hserver
      refine ⟨?_, by simp [plainCode, htheirs, Answers]⟩
      rw [View.plain, htheirs]
      rfl
  | @deleted f hserver =>
      have htheirs : (viewOf a).server f ≠ none := by simpa [viewOf] using hserver
      rw [viewOf_put]
      exact ⟨rfl, by simp [plainCode, htheirs, Answers]⟩
  | @deleteMissing f hserver =>
      have htheirs : (viewOf a).server f = none := congrArg (Option.map File.content) hserver
      exact ⟨(setServer_eq_iff.mpr htheirs).symm, by simp [plainCode, htheirs, Answers]⟩
  | listed hlist =>
      refine ⟨rfl, rfl, fun f hdot hdots => ?_⟩
      rw [hlist f hdot hdots]
      simp [viewOf]
  | @present f hserver =>
      have htheirs : (viewOf a).server f ≠ none := by simpa [viewOf] using hserver
      exact ⟨rfl, by simp [plainCode, htheirs, Answers]⟩
  | @absent f hserver =>
      have htheirs : (viewOf a).server f = none := congrArg (Option.map File.content) hserver
      exact ⟨rfl, by simp [plainCode, htheirs, Answers]⟩
  | storeLate | storeCut | fetchCut | deleteLate | deletedLate | listLate | statLate => exact absurd rfl hreply

/-- Part 1 makes the plain calls. -/
theorem part1_refines (dots : Int × Int) (t : Part1Runs.State C) (c : C) (now : Int) (a : Act) :
    view1 (Part1Runs.act dots t c now a.part1).1 = (view1 t).plain c a := by
  cases a with
  | edit f bytes => exact congrArg viewOf (Part1Runs.edit_does dots t c now f bytes)
  | call command =>
      obtain ⟨reply, hreply, hdoes⟩ := Part1Runs.call_does dots t c now command (fun _ => false) none
      refine (does_plain hdoes ?_).1
      rintro rfl
      exact timely_reply dots t c now command hreply

theorem part1_answers (dots : Int × Int) (t : Part1Runs.State C) (c : C) (now : Int) (command : Command) :
    ∃ reply, (Part1Runs.act dots t c now (Act.call command).part1).2 = some reply ∧
      Answers (view1 t) (plainCode (view1 t) c command) reply := by
  obtain ⟨reply, hreply, hdoes⟩ := Part1Runs.call_does dots t c now command (fun _ => false) none
  refine ⟨reply, hreply, (does_plain hdoes ?_).2⟩
  rintro rfl
  exact timely_reply dots t c now command hreply

theorem listLoop_timely (entries : List (String × Int)) (k : Nat) :
    listLoop (fun _ => false) k entries = (entries.map fun e => ⟨e.1, toInt32 e.2⟩, .ok) := by
  induction entries generalizing k with
  | nil => rfl
  | cons e entries ih =>
      obtain ⟨name, mtime⟩ := e
      simp [listLoop, ih]

theorem insertNew_lookup (fileMap : FileMap) (r : ListFilesOutput) (f : String) :
    (insertNew fileMap r).lookup f = (fileMap.lookup f).or (if r.fileName = f then some r.mtime else none) := by
  unfold insertNew
  split
  next hmem =>
    by_cases hf : r.fileName = f
    · rw [hf, ← AList.lookup_isSome] at hmem
      obtain ⟨mtime, hlookup⟩ := Option.isSome_iff_exists.mp hmem
      rw [hlookup, Option.some_or]
    · rw [if_neg hf, Option.or_none]
  next hmem =>
    by_cases hf : r.fileName = f
    · rw [hf] at hmem ⊢
      rw [AList.lookup_insert, AList.lookup_eq_none.mpr hmem, Option.none_or, if_pos rfl]
    · rw [AList.lookup_insert_ne (Ne.symm hf), if_neg hf, Option.or_none]

/-- The map keeps what it had, and takes the first message about each other name. -/
theorem insertNew_all (messages : List ListFilesOutput) (fileMap : FileMap) (f : String) :
    (messages.foldl insertNew fileMap).lookup f =
      (fileMap.lookup f).or ((messages.find? (·.fileName = f)).map ListFilesOutput.mtime) := by
  induction messages generalizing fileMap with
  | nil => simp
  | cons r messages ih =>
      rw [List.foldl_cons, ih, insertNew_lookup, Option.or_assoc]
      by_cases hf : r.fileName = f
      · simp [hf]
      · simp [hf]

theorem find_entries (entries : List (Sigma fun _ : String => File)) (f : String) :
    ((entries.map fun e => (⟨e.1, toInt32 e.2.mtime⟩ : ListFilesOutput)).find? (·.fileName = f)).map
      ListFilesOutput.mtime = (entries.dlookup f).map fun file => toInt32 file.mtime := by
  induction entries with
  | nil => rfl
  | cons e entries ih =>
      obtain ⟨name, file⟩ := e
      by_cases hf : name = f
      · subst name
        simp
      · rw [List.dlookup_cons_ne _ _ (Ne.symm hf), ← ih]
        simp [hf]

/-- The listing has the files of the server, with their times. -/
theorem listCall_lookup (s : Server) (dots : Int × Int) : ∃ fileMap, listCall s dots = .listing fileMap ∧
    ∀ f, f ≠ "." → f ≠ ".." → fileMap.lookup f = (s.dir.lookup f).map fun file => toInt32 file.mtime := by
  refine ⟨((dirEntries s.dir dots).map fun e => ⟨e.1, toInt32 e.2⟩).foldl insertNew ∅, ?_, fun f hdot hdots => ?_⟩
  · simp only [listCall, listFiles, listLoop_timely, listFrom, listReply]
  · rw [insertNew_all, AList.lookup_empty, Option.none_or, dirEntries, List.map_append, List.map_map]
    simp only [List.map_cons, List.map_nil, List.cons_append, List.nil_append]
    rw [List.find?_cons_of_neg (by simpa using Ne.symm hdot), List.find?_cons_of_neg (by simpa using Ne.symm hdots)]
    exact find_entries s.dir.files.entries f

theorem edit_content (m : Mount) (f : FileName) (bytes : Content) (now : Int) :
    (m.edit f bytes now).dir.content f = some bytes := by
  have hopen : (m.dir.openOut f now).content f = some [] := by simp [Dir.content, Dir.openOut, f.2]
  exact Storing.content_writeAt_end hopen bytes now

theorem view_setMount (s : State C) (c : C) {m : Mount} {f : String} {bytes : Option Content}
    (hfile : m.dir.content f = bytes) (hframe : ∀ g, g ≠ f → m.dir.lookup g = (s.mounts c).dir.lookup g) :
    view (s.setMount c m) = (view s).setMount c f bytes := by
  refine view_ext (fun _ => rfl) (fun c' g => ?_)
  by_cases hc : c' = c
  · subst c'
    by_cases hg : g = f
    · subst g
      simpa [view, State.setMount, View.setMount] using hfile
    · simpa [view, State.setMount, View.setMount, hg] using content_congr (hframe g hg)
  · simp [view, State.setMount, View.setMount, hc]

omit [DecidableEq C] in
theorem view_setServer (s : State C) {server : Server} {f : String} {bytes : Option Content}
    (hfile : server.dir.content f = bytes) (hframe : ∀ g, g ≠ f → server.dir.lookup g = s.server.dir.lookup g) :
    view { s with server } = (view s).setServer f bytes := by
  refine view_ext (fun g => ?_) (fun _ _ => rfl)
  by_cases hg : g = f
  · subst g
    simpa [view, View.setServer] using hfile
  · simpa [view, View.setServer, hg] using content_congr (hframe g hg)

theorem filled_and_iff {own : Option Content} {P : Option Content → Prop} :
    (∃ bytes, own = some bytes ∧ bytes ≠ [] ∧ P (some bytes)) ↔ filled own = true ∧ P own := by
  rw [filled_iff]
  constructor
  · rintro ⟨bytes, rfl, hne, hbytes⟩
    exact ⟨⟨bytes, rfl, hne⟩, hbytes⟩
  · rintro ⟨⟨bytes, rfl, hne⟩, hbytes⟩
    exact ⟨bytes, rfl, hne, hbytes⟩

omit [DecidableEq C] in
theorem sends_iff : Sends (s.mounts c) f s.server ↔ filled ((view s).mounts c f) = true ∧ ¬ SameSums (view s) c f :=
  filled_and_iff (P := fun own => dfsFileChecksum own ≠ dfsFileChecksum (s.server.dir.content f))

omit [DecidableEq C] in
theorem receives_iff :
    Receives (s.mounts c) f s.server ↔ filled ((view s).server f) = true ∧ ¬ SameSums (view s) c f :=
  filled_and_iff (P := fun theirs => dfsFileChecksum ((s.mounts c).dir.content f) ≠ dfsFileChecksum theirs)

/-- Part 2 makes the checked calls, and leaves no lock behind. -/
theorem act_refines (clientId : C → String) (dots : Int × Int) (hs : Unlocked s.server) (c : C) (now : Int)
    (a : Act) :
    view (act clientId dots s c now a).1 = (view s).checked c a ∧
      Unlocked (act clientId dots s c now a).1.server := by
  cases a with
  | edit f bytes =>
      cases bytes with
      | none =>
          exact ⟨view_setMount s c (content_remove_self _ _) (fun g hg => lookup_remove_ne _ hg), hs⟩
      | some bytes =>
          refine ⟨view_setMount s c (edit_content _ f bytes now) (fun g hg => ?_), hs⟩
          rw [Mount.edit, Mount.writeAt, lookup_writeAt_ne _ hg, Mount.openOut, lookup_openOut_ne _ hg]
  | call command =>
      cases command with
      | store f =>
          refine ⟨?_, store_unlocked hs⟩
          simp only [View.checked, ← sends_iff]
          by_cases hsends : Sends (s.mounts c) f s.server
          · obtain ⟨_, hcontent, hframe, _⟩ := store_sends (clientId c) now hs hsends
            rw [if_pos hsends]
            exact view_setServer s hcontent hframe
          · obtain ⟨hdir, _, _⟩ := store_keeps (clientId c) now hs hsends
            rw [if_neg hsends]
            refine view_ext (fun g => ?_) (fun _ _ => rfl)
            exact congrArg (Dir.content · g) hdir
      | fetch f =>
          refine ⟨?_, hs⟩
          simp only [View.checked, ← receives_iff]
          by_cases hreceives : Receives (s.mounts c) f s.server
          · obtain ⟨_, hcontent, hframe, _⟩ := fetch_receives now hreceives
            rw [if_pos hreceives]
            exact view_setMount s c hcontent hframe
          · rw [if_neg hreceives]
            simp only [act, fetch_keeps now hreceives, State.setMount, Function.update_eq_self]
      | delete f =>
          simp only [View.checked]
          by_cases hfile : s.server.dir.lookup f = none
          · have htheirs : (view s).server f = none := content_eq_none.mpr hfile
            simp only [act, delete_absent hfile, State.setMount, Function.update_eq_self, htheirs, if_true]
            exact ⟨trivial, hs⟩
          · have htheirs : (view s).server f ≠ none := fun h => hfile (content_eq_none.mp h)
            obtain ⟨server, hdelete, hdir, hunlocked⟩ := delete_removes (m := s.mounts c) (clientId c) hs hfile
            simp only [act, hdelete, htheirs, if_false]
            refine ⟨?_, hunlocked⟩
            have hserver : view { s with server } = (view s).setServer f none := by
              refine view_setServer s ?_ (fun g hg => ?_)
              · rw [hdir, content_remove_self]
              · rw [hdir, lookup_remove_ne _ hg]
            rw [← hserver]
            exact view_setMount { s with server } c (content_remove_self _ _) (fun g hg => lookup_remove_ne _ hg)
      | list | stat f => exact ⟨rfl, hs⟩

theorem store_answers (clientId : C → String) (dots : Int × Int) (hs : Unlocked s.server) (c : C) (now : Int)
    (f : FileName) :
    ∃ reply, (act clientId dots s c now (.call (.store f))).2 = some reply ∧
      Answers (view s) (checkedCode (view s) c (.store f)) reply := by
  refine ⟨_, rfl, ?_⟩
  simp only [checkedCode, Answers]
  cases hmine : (s.mounts c).dir.content f with
  | none =>
      have hnone : (view s).mounts c f = none := hmine
      simp [store, hmine, hnone]
  | some bytes =>
      have hsome : (view s).mounts c f = some bytes := hmine
      by_cases hne : bytes = []
      · subst bytes
        simp [store_empty hmine, hsome, filled]
      · have hfilled : filled (some bytes) = true := filled_iff.mpr ⟨bytes, rfl, hne⟩
        by_cases hcrc : SameSums (view s) c f
        · have hsums : dfsFileChecksum (some bytes) = dfsFileChecksum (s.server.dir.content f) := by
            rw [← hmine]
            exact hcrc
          simp [store_same hs hmine hne hsums, hsome, hfilled, hcrc]
        · have hsends : Sends (s.mounts c) f s.server := sends_iff.mpr ⟨hsome ▸ hfilled, hcrc⟩
          simp [(store_sends (clientId c) now hs hsends).1, hsome, hcrc]

theorem fetch_answers (clientId : C → String) (dots : Int × Int) (c : C) (now : Int)
    (f : FileName) :
    ∃ reply, (act clientId dots s c now (.call (.fetch f))).2 = some reply ∧
      Answers (view s) (checkedCode (view s) c (.fetch f)) reply := by
  refine ⟨_, rfl, ?_⟩
  simp only [checkedCode, Answers]
  cases htheirs : s.server.dir.content f with
  | none =>
      have hnone : (view s).server f = none := htheirs
      simp [fetch_absent htheirs, hnone]
  | some bytes =>
      have hsome : (view s).server f = some bytes := htheirs
      by_cases hcrc : SameSums (view s) c f
      · have hsums : dfsFileChecksum ((s.mounts c).dir.content f) = dfsFileChecksum (some bytes) := by
          rw [← htheirs]
          exact hcrc
        simp [fetch_same htheirs hsums, hcrc]
      · by_cases hne : bytes = []
        · subst bytes
          have hsums : dfsFileChecksum ((s.mounts c).dir.content f) ≠ dfsFileChecksum (some []) := by
            rw [← htheirs]
            exact hcrc
          simp [fetch_nothing htheirs hsums, hsome, hcrc]
        · have hfilled : filled (some bytes) = true := filled_iff.mpr ⟨bytes, rfl, hne⟩
          have hreceives : Receives (s.mounts c) f s.server := receives_iff.mpr ⟨hsome ▸ hfilled, hcrc⟩
          simp [(fetch_receives now hreceives).1, hsome, hcrc]

theorem act_answers (clientId : C → String) (dots : Int × Int) (hs : Unlocked s.server) (c : C) (now : Int)
    (command : Command) :
    ∃ reply, (act clientId dots s c now (.call command)).2 = some reply ∧
      Answers (view s) (checkedCode (view s) c command) reply := by
  cases command with
  | store f => exact store_answers clientId dots hs c now f
  | fetch f => exact fetch_answers clientId dots c now f
  | delete f =>
      refine ⟨_, rfl, ?_⟩
      simp only [checkedCode, Answers]
      by_cases hfile : s.server.dir.lookup f = none
      · have htheirs : (view s).server f = none := content_eq_none.mpr hfile
        simp [delete_absent hfile, htheirs]
      · have htheirs : (view s).server f ≠ none := fun h => hfile (content_eq_none.mp h)
        obtain ⟨server, hdelete, _, _⟩ := delete_removes (m := s.mounts c) (clientId c) hs hfile
        simp [hdelete, htheirs]
  | list =>
      obtain ⟨fileMap, hlist, hlookup⟩ := listCall_lookup s.server dots
      refine ⟨_, rfl, ?_⟩
      rw [hlist]
      refine ⟨rfl, fun f hdot hdots => ?_⟩
      rw [hlookup f hdot hdots]
      simp [view, Dir.content]
  | stat f =>
      refine ⟨_, rfl, ?_⟩
      simp only [checkedCode, Answers, statusFile]
      cases hfile : s.server.dir.lookup f with
      | none =>
          have htheirs : (view s).server f = none := content_eq_none.mpr hfile
          simp [htheirs, plainReply]
      | some file =>
          have htheirs : (view s).server f ≠ none := fun h => by simpa [hfile] using content_eq_none.mp h
          simp [htheirs, plainReply]

def step1 (dots : Int × Int) (t : Part1Runs.State C) (a : C × Int × Act) : Part1Runs.State C :=
  (Part1Runs.act dots t a.1 a.2.1 a.2.2.part1).1

def step2 (clientId : C → String) (dots : Int × Int) (s : State C) (a : C × Int × Act) : State C :=
  (act clientId dots s a.1 a.2.1 a.2.2).1

theorem run_unlocked (clientId : C → String) (dots : Int × Int) (hs : Unlocked s.server) (acts : List (C × Int × Act)) :
    Unlocked (acts.foldl (step2 clientId dots) s).server := by
  induction acts generalizing s with
  | nil => exact hs
  | cons a acts ih => exact ih (act_refines clientId dots hs a.1 a.2.1 a.2.2).2

/-- The clients of the two parts have the same files, whatever they did, exactly
as long as each action is one of those on which the parts agree. The replies are
those of the plain and of the checked calls. -/
theorem bothParts_exact (clientId : C → String) (dots dots' : Int × Int) {t : Part1Runs.State C} (hs : Unlocked s.server)
    (hsame : view1 t = view s) (acts : List (C × Int × Act)) :
    ((∀ before, before <+: acts →
        view1 (before.foldl (step1 dots) t) = view (before.foldl (step2 clientId dots') s)) ↔
      ∀ before c now a, before ++ [(c, now, a)] <+: acts →
        Alike (view (before.foldl (step2 clientId dots') s)) c a) ∧
    ∀ before c now command, before ++ [(c, now, .call command)] <+: acts →
      let t' := before.foldl (step1 dots) t
      let s' := before.foldl (step2 clientId dots') s
      (∃ reply, (Part1Runs.act dots t' c now (Act.call command).part1).2 = some reply ∧
          Answers (view1 t') (plainCode (view1 t') c command) reply) ∧
        ∃ reply, (act clientId dots' s' c now (.call command)).2 = some reply ∧
          Answers (view s') (checkedCode (view s') c command) reply := by
  constructor
  · have hiff := related_iff (f := step1 dots) (g := step2 clientId dots')
      (R := fun t s => Unlocked s.server ∧ view1 t = view s) (P := fun s a => Alike (view s) a.1 a.2.2) ?_
      ⟨hs, hsame⟩ acts
    · constructor
      · intro h before c now a hprefix
        exact hiff.mp (fun before hbefore => ⟨run_unlocked clientId dots' hs before, h before hbefore⟩) before _ hprefix
      · intro h before hprefix
        exact (hiff.mpr (fun before a ha => h before a.1 a.2.1 a.2.2 ha) before hprefix).2
    · rintro t s ⟨c, now, a⟩ ⟨hs, hsame⟩
      obtain ⟨hview, hunlocked⟩ := act_refines clientId dots' hs c now a
      rw [← plain_checked_iff, ← hsame, step1, step2, part1_refines, hview, hsame]
      exact ⟨And.right, fun h => ⟨hunlocked, h⟩⟩
  · intro before c now command _ t' s'
    exact ⟨part1_answers dots t' c now command,
      act_answers clientId dots' (run_unlocked clientId dots' hs before) c now command⟩

def shared : List (Bool × Int × Act) :=
  [(true, 1, .edit text (some [1, 2])), (true, 2, .call (.store text)), (false, 3, .call (.fetch text)),
    (false, 4, .call .list), (false, 5, .call (.delete text))]

def nowhere1 : Part1Runs.State Bool := ⟨empty, fun _ => empty⟩

def nowhere2 : State Bool := ⟨⟨empty, ∅⟩, fun _ => ⟨empty, []⟩⟩

theorem shared_exact :
    ((∀ before, before <+: shared →
        view1 (before.foldl (step1 (0, 0)) nowhere1) = view (before.foldl (step2 (fun _ => "A") (0, 0)) nowhere2)) ↔
      ∀ before c now a, before ++ [(c, now, a)] <+: shared →
        Alike (view (before.foldl (step2 (fun _ => "A") (0, 0)) nowhere2)) c a) ∧
    ∀ before c now command, before ++ [(c, now, .call command)] <+: shared →
      let t' := before.foldl (step1 (0, 0)) nowhere1
      let s' := before.foldl (step2 (fun _ => "A") (0, 0)) nowhere2
      (∃ reply, (Part1Runs.act (0, 0) t' c now (Act.call command).part1).2 = some reply ∧
          Answers (view1 t') (plainCode (view1 t') c command) reply) ∧
        ∃ reply, (act (fun _ => "A") (0, 0) s' c now (.call command)).2 = some reply ∧
          Answers (view s') (checkedCode (view s') c command) reply :=
  bothParts_exact (t := nowhere1) (s := nowhere2) (fun _ => "A") (0, 0) (0, 0) (fun _ => rfl) rfl shared

end GraduateOS.Dfs.TwoParts
