import GraduateOS.Dfs.Downloads
import GraduateOS.Dfs.StoredBytes
import GraduateOS.Library.Runs

namespace GraduateOS.Dfs.Part1Runs

open Directory hiding File
open Messages Storing Part1 Downloads Library.Chunks Library.MachineInts Library.Runs

/-- `destroyFile` -/
def destroyFile (server : Dir) (f : String) (isCancelled : Bool) : Dir × StatusCode :=
  if isCancelled then (server, .deadlineExceeded)
  else if server.lookup f = none then (server, .notFound)
  else (server.remove f, .ok)

abbrev FileMap := AList fun _ : String => Int

/-- `retrieveFiles`. `readdir` also returns the entries `.` and `..`, with the times `dots`. -/
def retrieveLoop (isCancelled : Nat → Bool) (fileList : FileMap) :
    Nat → List (String × Int) → FileMap × StatusCode
  | _, [] => (fileList, .ok)
  | k, (name, mtime) :: entries =>
      if isCancelled k then (fileList, .deadlineExceeded)
      else retrieveLoop isCancelled (fileList.insert name (toInt32 mtime)) (k + 1) entries

def dirEntries (server : Dir) (dots : Int × Int) : List (String × Int) :=
  [(".", dots.1), ("..", dots.2)] ++ server.files.entries.map fun e => (e.1, e.2.mtime)

def retrieveFiles (server : Dir) (dots : Int × Int) (isCancelled : Nat → Bool) :
    FileMap × StatusCode :=
  retrieveLoop isCancelled ∅ 0 (dirEntries server dots)

structure StatusFile where
  fileName : String
  fileSize : Int
  creationTime : Int
  modifiedTime : Int

/-- `statusOfFile`. The creation time is `st_mtime` as well. -/
def statusOfFile (server : Dir) (f : String) : Option StatusFile × StatusCode :=
  match server.lookup f with
  | none => (none, .notFound)
  | some file =>
      (some ⟨f, toInt32 file.content.length, toInt32 file.mtime, toInt32 file.mtime⟩, .ok)

inductive Command
  | store (f : FileName)
  | fetch (f : FileName)
  | delete (f : FileName)
  | list
  | stat (f : FileName)

inductive Reply
  | code (c : StatusCode)
  | listing (fileMap : FileMap)

/-- A user changes a file of a mount, or a client makes a call. `late` is there
when the deadline passes before the status is back: a store has then delivered
that many messages, a fetch has read that many, and any other call has reached
the server if it is not 0. -/
inductive Act
  | edit (f : FileName) (bytes : Option Content)
  | call (command : Command) (isCancelled : Nat → Bool) (late : Option Nat)

def InTime (isCancelled : Nat → Bool) (late : Option Nat) : Prop := late = none ∧ ∀ k, isCancelled k = false

variable {C : Type} [DecidableEq C]

structure State (C : Type) where
  server : Dir
  mounts : C → Dir

def editFile (mount : Dir) (f : String) (bytes : Option Content) (now : Int) : Dir :=
  match bytes with
  | none => mount.remove f
  | some bytes => mount.put f ⟨bytes, now⟩

def timely (late : Option Nat) (code : StatusCode) : StatusCode :=
  if late = none then code else .deadlineExceeded

def fetchCall (mount server : Dir) (f : String) (isCancelled : Nat → Bool) (late : Option Nat) (now : Int) :
    Dir × StatusCode :=
  let answer := downloadFile server f isCancelled
  fetchFrom mount f now (late.elim answer.messages answer.messages.take) (timely late answer.status)

def storeCall (mount server : Dir) (f : String) (isCancelled : Nat → Bool) (late : Option Nat) (now : Int) :
    Dir × StatusCode :=
  match mount.content f with
  | none => (server, .notFound)
  | some content =>
      let messages := (fileChunks content).map (fileMessage f)
      let answer := uploadFile server (seen isCancelled (late.elim messages messages.take)) now
      (answer.1, storeReply (timely late answer.2))

/-- The codes that `Delete` and `Stat` pass on. -/
def plainReply : StatusCode → StatusCode
  | .ok => .ok
  | .notFound => .notFound
  | .deadlineExceeded => .deadlineExceeded
  | _ => .cancelled

def deleteCall (server : Dir) (f : String) (isCancelled : Nat → Bool) (late : Option Nat) : Dir × StatusCode :=
  if late = some 0 then (server, .deadlineExceeded)
  else
    let answer := destroyFile server f (isCancelled 0)
    (answer.1, plainReply (timely late answer.2))

/-- `List` fills `file_map` only when the status is OK. -/
def listCall (server : Dir) (dots : Int × Int) (isCancelled : Nat → Bool) (late : Option Nat) : Reply :=
  let answer := retrieveFiles server dots isCancelled
  match timely late answer.2 with
  | .ok => .listing (answer.1.entries.foldl (fun (fileMap : FileMap) e => fileMap.insert e.1 e.2) ∅)
  | .deadlineExceeded => .code .deadlineExceeded
  | _ => .code .cancelled

def act (dots : Int × Int) (s : State C) (c : C) (now : Int) : Act → State C × Option Reply
  | .edit f bytes => ({ s with mounts := Function.update s.mounts c (editFile (s.mounts c) f bytes now) }, none)
  | .call (.store f) isCancelled late =>
      let answer := storeCall (s.mounts c) s.server f isCancelled late now
      ({ s with server := answer.1 }, some (.code answer.2))
  | .call (.fetch f) isCancelled late =>
      let answer := fetchCall (s.mounts c) s.server f isCancelled late now
      ({ s with mounts := Function.update s.mounts c answer.1 }, some (.code answer.2))
  | .call (.delete f) isCancelled late =>
      let answer := deleteCall s.server f isCancelled late
      ({ s with server := answer.1 }, some (.code answer.2))
  | .call .list isCancelled late => (s, some (listCall s.server dots isCancelled late))
  | .call (.stat f) _ late => (s, some (.code (plainReply (timely late (statusOfFile s.server f).2))))

def step (dots : Int × Int) (s : State C) (a : C × Int × Act) : Option (State C) :=
  some (act dots s a.1 a.2.1 a.2.2).1

structure Files (C : Type) where
  server : String → Option Directory.File
  mounts : C → String → Option Content

def files (s : State C) : Files C := ⟨s.server.lookup, fun c => (s.mounts c).content⟩

def Files.put (a : Files C) (f : String) (file : Option Directory.File) : Files C :=
  { a with server := Function.update a.server f file }

def Files.setMount (a : Files C) (c : C) (f : String) (bytes : Option Content) : Files C :=
  { a with mounts := Function.update a.mounts c (Function.update (a.mounts c) f bytes) }

/-- What a call of client `c` may do and reply. A call that is late has done
nothing, or all of it, or has copied the first chunks of the file. -/
inductive Does (a : Files C) (c : C) (now : Int) : Command → Reply → Files C → Prop
  | storeMissing {f} : a.mounts c f.1 = none → Does a c now (.store f) (.code .notFound) a
  | stored {f bytes} : a.mounts c f.1 = some bytes → bytes ≠ [] →
      Does a c now (.store f) (.code .ok) (a.put f (some ⟨bytes, now⟩))
  | storedNothing {f} : a.mounts c f.1 = some [] → Does a c now (.store f) (.code .ok) a
  | storeLate {f} : a.mounts c f.1 ≠ none → Does a c now (.store f) (.code .deadlineExceeded) a
  | storeCut {f bytes n} : a.mounts c f.1 = some bytes → bytes ≠ [] → 0 < n →
      Does a c now (.store f) (.code .deadlineExceeded) (a.put f (some ⟨bytes.take (n * 4000), now⟩))
  | fetched {f file} : a.server f.1 = some file →
      Does a c now (.fetch f) (.code .ok) (a.setMount c f (some file.content))
  | fetchMissing {f} : a.server f.1 = none → Does a c now (.fetch f) (.code .notFound) (a.setMount c f none)
  | fetchCut {f bytes n} : ((a.server f.1).map Directory.File.content).getD [] = bytes →
      Does a c now (.fetch f) (.code .deadlineExceeded) (a.setMount c f (some (bytes.take (n * 4000))))
  | deleted {f} : a.server f.1 ≠ none → Does a c now (.delete f) (.code .ok) (a.put f none)
  | deleteMissing {f} : a.server f.1 = none → Does a c now (.delete f) (.code .notFound) a
  | deleteLate {f} : Does a c now (.delete f) (.code .deadlineExceeded) a
  | deletedLate {f} : Does a c now (.delete f) (.code .deadlineExceeded) (a.put f none)
  | listed {fileMap} : (∀ f, f ≠ "." → f ≠ ".." →
        fileMap.lookup f = (a.server f).map fun file => toInt32 file.mtime) →
      Does a c now .list (.listing fileMap) a
  | listLate : Does a c now .list (.code .deadlineExceeded) a
  | present {f} : a.server f.1 ≠ none → Does a c now (.stat f) (.code .ok) a
  | absent {f} : a.server f.1 = none → Does a c now (.stat f) (.code .notFound) a
  | statLate {f} : Does a c now (.stat f) (.code .deadlineExceeded) a

omit [DecidableEq C] in
theorem files_put (s : State C) {d : Dir} {f : String} {file : Option Directory.File} (hfile : d.lookup f = file)
    (hframe : ∀ g, g ≠ f → d.lookup g = s.server.lookup g) :
    files { s with server := d } = (files s).put f file := by
  simp only [files, Files.put]
  congr 1
  funext g
  by_cases hg : g = f
  · subst g
    rw [Function.update_self, hfile]
  · rw [Function.update_of_ne hg, hframe g hg]

theorem uploadLoop_prefix {f : String} (now : Int) (reads : List (File × Bool)) (chunks : List (Nat × Content))
    (hsized : Sized chunks) (hreads : reads.map Prod.fst = chunks.map (fileMessage f)) (d : Dir) {old : Content}
    (hold : d.lookup f = some ⟨old, now⟩) :
    ∃ n, n ≤ chunks.length ∧
      (uploadLoop now d (some f) old.length reads).1.lookup f = some ⟨old ++ bytesOf (chunks.take n), now⟩ ∧
      (∀ g, g ≠ f → (uploadLoop now d (some f) old.length reads).1.lookup g = d.lookup g) ∧
      ((uploadLoop now d (some f) old.length reads).2 = .ok ∧ chunks.length ≤ n ∨
        (uploadLoop now d (some f) old.length reads).2 = .deadlineExceeded) := by
  induction reads generalizing chunks d old with
  | nil =>
      obtain rfl : chunks = [] := List.map_eq_nil_iff.mp hreads.symm
      exact ⟨0, Nat.le_refl 0, by simpa [uploadLoop] using hold, fun _ _ => rfl, .inl ⟨rfl, Nat.le_refl 0⟩⟩
  | cons r reads ih =>
      obtain ⟨request, isCancelled⟩ := r
      cases isCancelled with
      | true => exact ⟨0, Nat.zero_le _, by simpa [uploadLoop] using hold, fun _ _ => rfl, .inr rfl⟩
      | false =>
          cases chunks with
          | nil => cases hreads
          | cons p chunks =>
              obtain ⟨hrequest, hrest⟩ := List.cons.inj hreads
              obtain rfl : request = fileMessage f p := hrequest
              have hp : p.1 = p.2.length := hsized p (by simp)
              have hnext : (d.writeAt f old.length (written p.2 p.1) now).lookup f = some ⟨old ++ p.2, now⟩ := by
                rw [lookup_writeAt, hold, Option.map_some, written, hp, List.take_length, overwrite_end]
              obtain ⟨n, hle, hfile, hframe, hcode⟩ :=
                ih chunks (fun q hq => hsized q (by simp [hq])) hrest _ hnext
              rw [List.length_append, ← hp] at hfile hframe hcode
              refine ⟨n + 1, by simpa using hle, ?_, ?_, ?_⟩
              · simpa [uploadLoop, fileMessage, List.append_assoc] using hfile
              · intro g hg
                simpa [uploadLoop, fileMessage, lookup_writeAt_ne _ hg] using hframe g hg
              · simpa [uploadLoop, fileMessage] using hcode

/-- The handler stores the first chunks of what it is sent, all of them if it returns OK. -/
theorem uploadFile_prefix {f : String} (hf : f ≠ "") (now : Int) (reads : List (File × Bool))
    (chunks : List (Nat × Content)) (hsized : Sized chunks)
    (hreads : reads.map Prod.fst = chunks.map (fileMessage f)) (d : Dir) :
    ∃ n, n ≤ chunks.length ∧ (uploadFile d reads now).1.lookup f =
        (if n = 0 then d.lookup f else some ⟨bytesOf (chunks.take n), now⟩) ∧
      (∀ g, g ≠ f → (uploadFile d reads now).1.lookup g = d.lookup g) ∧
      ((uploadFile d reads now).2 = .ok ∧ chunks.length ≤ n ∨ (uploadFile d reads now).2 = .deadlineExceeded) := by
  cases reads with
  | nil =>
      obtain rfl : chunks = [] := List.map_eq_nil_iff.mp hreads.symm
      exact ⟨0, Nat.le_refl 0, rfl, fun _ _ => rfl, .inl ⟨rfl, Nat.le_refl 0⟩⟩
  | cons r reads =>
      obtain ⟨request, isCancelled⟩ := r
      cases isCancelled with
      | true => exact ⟨0, Nat.zero_le _, rfl, fun _ _ => rfl, .inr rfl⟩
      | false =>
          cases chunks with
          | nil => cases hreads
          | cons p chunks =>
              obtain ⟨hrequest, hrest⟩ := List.cons.inj hreads
              obtain rfl : request = fileMessage f p := hrequest
              have hp : p.1 = p.2.length := hsized p (by simp)
              have hopen : (d.openOut f now).lookup f = some ⟨[], now⟩ := lookup_put_self d hf _
              have hfirst : ((d.openOut f now).writeAt f 0 (written p.2 p.1) now).lookup f = some ⟨p.2, now⟩ := by
                have hwhole : overwrite [] 0 p.2 = p.2 := overwrite_end [] p.2
                rw [lookup_writeAt, hopen, Option.map_some, written, hp, List.take_length]
                exact congrArg (fun bytes => some (Directory.File.mk bytes now)) hwhole
              obtain ⟨n, hle, hfile, hframe, hcode⟩ := uploadLoop_prefix now reads chunks
                (fun q hq => hsized q (by simp [hq])) hrest _ hfirst
              have hloop : uploadFile d ((fileMessage f p, false) :: reads) now =
                  uploadLoop now ((d.openOut f now).writeAt f 0 (written p.2 p.1) now) (some f) p.2.length reads := by
                simp [uploadFile, uploadLoop, fileMessage, hp]
              rw [hloop]
              refine ⟨n + 1, by simpa using hle, by simpa using hfile, ?_, by simpa using hcode⟩
              intro g hg
              rw [hframe g hg, lookup_writeAt_ne _ hg, lookup_openOut_ne _ hg]

theorem chunks_take (bytes : Content) (n : Nat) : bytesOf ((fileChunks bytes).take n) = bytes.take (n * 4000) := by
  have hcut := readChunks_cut bytes bytes.length 4000 0
  rw [Nat.sub_zero] at hcut
  rw [bytesOf, fileChunks, hcut, readChunks_take _ _ _ _ _ (by decide) (by omega), List.drop_zero]

theorem sized_take (bytes : Content) (n : Nat) : Sized ((fileChunks bytes).take n) :=
  fun _ hq => (fileChunks_sizes (List.mem_of_mem_take hq)).1

theorem fileChunks_all {bytes : Content} {n : Nat} (hn : (fileChunks bytes).length ≤ n) :
    bytes.take (n * 4000) = bytes := by
  rw [← chunks_take, List.take_of_length_le hn, bytesOf, fileChunks_flatten]

omit [DecidableEq C] in
theorem files_same (s : State C) {d : Dir} (h : ∀ g, d.lookup g = s.server.lookup g) :
    files { s with server := d } = files s := by
  simp only [files]
  congr 1
  funext g
  exact h g

/-- The messages that are under way when the deadline passes. -/
theorem late_take {α : Type} (late : Option Nat) (messages : List α) :
    late.elim messages messages.take = messages.take (late.getD messages.length) := by
  cases late with
  | none => exact List.take_length.symm
  | some n => rfl

theorem storeReply_cases {late : Option Nat} {status : StatusCode} {chunks n : Nat}
    (hcode : status = .ok ∧ min (late.getD chunks) chunks ≤ n ∨ status = .deadlineExceeded) :
    (storeReply (timely late status) = .ok ∧ chunks ≤ n) ∨ storeReply (timely late status) = .deadlineExceeded := by
  cases late with
  | some _ => exact .inr rfl
  | none =>
      rcases hcode with ⟨hok, hall⟩ | hlate
      · exact .inl ⟨by simp [timely, hok, storeReply], by simpa using hall⟩
      · exact .inr (by simp [timely, hlate, storeReply])

theorem storeCall_does (s : State C) (c : C) (now : Int) (f : FileName) (isCancelled : Nat → Bool)
    (late : Option Nat) :
    Does (files s) c now (.store f) (.code (storeCall (s.mounts c) s.server f isCancelled late now).2)
      (files { s with server := (storeCall (s.mounts c) s.server f isCancelled late now).1 }) := by
  rw [storeCall]
  cases hmount : (s.mounts c).content f with
  | none => exact .storeMissing hmount
  | some bytes =>
      let sent := (fileChunks bytes).take (late.getD (fileChunks bytes).length)
      have hsent : late.elim ((fileChunks bytes).map (fileMessage f))
          ((fileChunks bytes).map (fileMessage f)).take = sent.map (fileMessage f) := by
        rw [late_take, List.length_map, List.map_take]
      have hreads : (seen isCancelled (sent.map (fileMessage f))).map Prod.fst = sent.map (fileMessage f) :=
        StoredBytes.seen_fst isCancelled _
      obtain ⟨n, hle, hfile, hframe, hcode⟩ :=
        uploadFile_prefix f.2 now _ sent (sized_take bytes _) hreads s.server
      simp only [hsent]
      generalize uploadFile s.server (seen isCancelled (sent.map (fileMessage f))) now = answer at hfile hframe hcode
      rw [List.length_take] at hle
      rw [List.take_take, chunks_take] at hfile
      have hbytes : n ≠ 0 → bytes ≠ [] := by
        rintro hn rfl
        rw [fileChunks_nil, List.length_nil] at hle
        omega
      rw [List.length_take] at hcode
      have hanswer := storeReply_cases hcode
      by_cases hn : n = 0
      · have hsame : files { s with server := answer.1 } = files s := by
          refine files_same s (fun g => ?_)
          by_cases hg : g = f
          · rw [hg, hfile, if_pos hn]
          · exact hframe g hg
        rw [hsame]
        rcases hanswer with ⟨hok, hall⟩ | hlate
        · have hempty : bytes = [] := by
            by_contra hne
            have hpos := List.length_pos_iff.mpr (fileChunks_ne_nil hne)
            omega
          rw [hok]
          exact .storedNothing (hmount.trans (congrArg some hempty))
        · rw [hlate]
          exact .storeLate (by simp [files, hmount])
      · rw [if_neg hn] at hfile
        have hput := files_put s hfile hframe
        rcases hanswer with ⟨hok, hall⟩ | hlate
        · rw [fileChunks_all (by omega)] at hput
          rw [hok, hput]
          exact .stored hmount (hbytes hn)
        · rw [hlate, hput]
          exact .storeCut hmount (hbytes hn) (by omega)

theorem downloadLoop_prefix (f : String) (bytes : Content) (isCancelled : Nat → Bool)
    (fuel k readLength bytesTransferred : Nat) :
    ∃ n, (downloadLoop f bytes isCancelled fuel k readLength bytesTransferred).messages =
        ((readChunks bytes fuel readLength bytesTransferred).map (fileMessage f)).take n ∧
      ((downloadLoop f bytes isCancelled fuel k readLength bytesTransferred).status = .ok ∨
        (downloadLoop f bytes isCancelled fuel k readLength bytesTransferred).status = .deadlineExceeded) := by
  induction fuel generalizing k readLength bytesTransferred with
  | zero => exact ⟨0, rfl, .inl rfl⟩
  | succ fuel ih =>
      rw [downloadLoop, readChunks]
      by_cases hmore : bytesTransferred < bytes.length
      · rw [if_pos hmore, if_pos hmore]
        by_cases hcancel : isCancelled k = true
        · rw [if_pos hcancel]
          exact ⟨0, rfl, .inr rfl⟩
        · rw [if_neg hcancel]
          obtain ⟨n, hmessages, hstatus⟩ := ih (k + 1)
            (if bytes.length - bytesTransferred < readLength then bytes.length - bytesTransferred else readLength)
            (bytesTransferred + if bytes.length - bytesTransferred < readLength then
              bytes.length - bytesTransferred else readLength)
          refine ⟨n + 1, ?_, hstatus⟩
          simp only [hmessages, List.map_cons, List.take_succ_cons]
          rfl
      · rw [if_neg hmore, if_neg hmore]
        exact ⟨0, rfl, .inl rfl⟩

theorem receiveLoop_frame {f g : String} (hg : g ≠ f) (now : Int) (messages : List File) (d : Dir) (done : Nat) :
    (receiveLoop f now d done messages).lookup g = d.lookup g := by
  induction messages generalizing d done with
  | nil => rfl
  | cons r messages ih => rw [receiveLoop, ih, lookup_writeAt_ne _ hg]

theorem fetchFrom_frame {f g : String} (hg : g ≠ f) (d : Dir) (now : Int) (messages : List File)
    (status : StatusCode) : (fetchFrom d f now messages status).1.lookup g = d.lookup g := by
  have hloop : (receiveLoop f now (d.openOut f now) 0 messages).lookup g = d.lookup g := by
    rw [receiveLoop_frame hg, lookup_openOut_ne _ hg]
  cases status <;> simp [fetchFrom, fetchReply, hloop, hg]

theorem files_setMount (s : State C) (c : C) {d : Dir} {f : String} {bytes : Option Content}
    (hfile : d.content f = bytes) (hframe : ∀ g, g ≠ f → d.content g = (s.mounts c).content g) :
    files { s with mounts := Function.update s.mounts c d } = (files s).setMount c f bytes := by
  simp only [files, Files.setMount]
  congr 1
  funext c' g
  by_cases hc : c' = c
  · subst c'
    rw [Function.update_self, Function.update_self]
    by_cases hg : g = f
    · subst g
      rw [Function.update_self, hfile]
    · rw [Function.update_of_ne hg, hframe g hg]
  · rw [Function.update_of_ne hc, Function.update_of_ne hc]

theorem received_take (f : String) (bytes : Content) (n : Nat) :
    received (((fileChunks bytes).map (fileMessage f)).take n) = bytes.take (n * 4000) := by
  have hcontent : Part1.File.content ∘ fileMessage f = Prod.snd := rfl
  rw [received, ← List.map_take, List.map_map, hcontent, ← chunks_take, bytesOf]

theorem fetchFrom_cut {f : String} (hf : f ≠ "") (d : Dir) (now : Int) (bytes : Content) (n : Nat)
    (status : StatusCode) (hstatus : status ≠ .notFound) :
    (fetchFrom d f now (((fileChunks bytes).map (fileMessage f)).take n) status).1.content f =
      some (bytes.take (n * 4000)) := by
  rw [fetchFrom_content hf, if_neg hstatus, received_take]
  intro r hr
  exact ((wellCut_fileChunks f bytes).sizes r (List.mem_of_mem_take hr)).2.2

theorem fetchCall_does (s : State C) (c : C) (now : Int) (f : FileName) (isCancelled : Nat → Bool)
    (late : Option Nat) :
    Does (files s) c now (.fetch f) (.code (fetchCall (s.mounts c) s.server f isCancelled late now).2)
      (files { s with mounts :=
        Function.update s.mounts c (fetchCall (s.mounts c) s.server f isCancelled late now).1 }) := by
  have hframe (messages : List File) (status : StatusCode) : ∀ g, g ≠ f.1 →
      (fetchFrom (s.mounts c) f now messages status).1.content g = (s.mounts c).content g :=
    fun g hg => content_congr (fetchFrom_frame hg _ _ _ _)
  rw [fetchCall]
  cases hserver : s.server.content f with
  | none =>
      have hlookup : (files s).server f = none := content_eq_none.mp hserver
      have hanswer : downloadFile s.server f isCancelled = ⟨[], 0, .notFound⟩ := by rw [downloadFile, hserver]
      rw [hanswer]
      cases late with
      | none =>
          have hnone : (fetchFrom (s.mounts c) f now [] .notFound).1.content f = none :=
            fetchFrom_content f.2 _ [] (by simp) _
          exact files_setMount s c hnone (hframe _ _) ▸ .fetchMissing hlookup
      | some n =>
          have hempty := fetchFrom_cut f.2 (s.mounts c) now [] n .deadlineExceeded (by decide)
          rw [fileChunks_nil, List.map_nil] at hempty
          exact files_setMount s c hempty (hframe _ _) ▸ .fetchCut (by rw [hlookup]; rfl)
  | some bytes =>
      have hfile : ((files s).server f).map Directory.File.content = some bytes := hserver
      have hprefix : ∃ n, (downloadFile s.server f isCancelled).messages =
            ((fileChunks bytes).map (fileMessage f)).take n ∧
          ((downloadFile s.server f isCancelled).status = .ok ∨
            (downloadFile s.server f isCancelled).status = .deadlineExceeded) := by
        rw [downloadFile, hserver]
        exact downloadLoop_prefix f bytes isCancelled _ _ _ _
      obtain ⟨n, hmessages, hstatus⟩ := hprefix
      have hseen : ∃ n, late.elim (downloadFile s.server f isCancelled).messages
          (downloadFile s.server f isCancelled).messages.take = ((fileChunks bytes).map (fileMessage f)).take n := by
        exact ⟨_, by rw [late_take, hmessages, List.take_take]⟩
      by_cases hok : late = none ∧ (downloadFile s.server f isCancelled).status = .ok
      · obtain ⟨rfl, hdone⟩ := hok
        obtain ⟨bytes', hbytes', hrun⟩ := downloadFile_ok hdone
        rw [hserver, Option.some_inj] at hbytes'
        subst hbytes'
        have hwhole := fetchFrom_cut f.2 (s.mounts c) now bytes (fileChunks bytes).length .ok (by decide)
        rw [fileChunks_all (Nat.le_refl _), List.take_of_length_le (by simp)] at hwhole
        obtain ⟨file, hlookup, rfl⟩ := Option.map_eq_some_iff.mp hfile
        rw [hrun]
        exact files_setMount s c hwhole (hframe _ _) ▸ .fetched hlookup
      · have hlate : timely late (downloadFile s.server f isCancelled).status = .deadlineExceeded := by
          rw [timely]
          split
          next hnone => exact hstatus.resolve_left (fun h => hok ⟨hnone, h⟩)
          · rfl
        obtain ⟨k, hseen⟩ := hseen
        simp only [hlate, hseen]
        have hcut := fetchFrom_cut f.2 (s.mounts c) now bytes k .deadlineExceeded (by decide)
        exact files_setMount s c hcut (hframe _ _) ▸ .fetchCut (by rw [hfile]; rfl)

theorem deleteCall_does (s : State C) (c : C) (now : Int) (f : FileName) (isCancelled : Nat → Bool)
    (late : Option Nat) :
    Does (files s) c now (.delete f) (.code (deleteCall s.server f isCancelled late).2)
      (files { s with server := (deleteCall s.server f isCancelled late).1 }) := by
  rw [deleteCall]
  split
  · exact .deleteLate
  · rw [destroyFile]
    split
    · cases late <;> exact .deleteLate
    · split
      next hmissing =>
        cases late with
        | none => exact .deleteMissing hmissing
        | some n => exact .deleteLate
      next hthere =>
        have hput := files_put s (lookup_remove_self s.server f) (fun g hg => lookup_remove_ne s.server hg)
        cases late with
        | none => exact hput ▸ .deleted hthere
        | some n => exact hput ▸ .deletedLate

/-- Entries with different names end up in the map whatever their order is. -/
theorem insertAll_lookup {E : Type} (name : E → String) (time : E → Int) (entries : List E)
    (hnodup : (entries.map name).Nodup) (m : FileMap) {f : String} {v : Option Int}
    (hv : (∃ e ∈ entries, name e = f ∧ v = some (time e)) ∨ f ∉ entries.map name ∧ v = m.lookup f) :
    (entries.foldl (fun (m : FileMap) e => m.insert (name e) (time e)) m).lookup f = v := by
  induction entries generalizing m with
  | nil =>
      rcases hv with ⟨e, he, _⟩ | ⟨_, rfl⟩
      · cases he
      · rfl
  | cons e entries ih =>
      rw [List.map_cons, List.nodup_cons] at hnodup
      refine ih hnodup.2 _ ?_
      rcases hv with ⟨e', he', rfl, rfl⟩ | ⟨hnot, rfl⟩
      · rcases List.mem_cons.mp he' with rfl | he'
        · exact .inr ⟨hnodup.1, (AList.lookup_insert m).symm⟩
        · exact .inl ⟨e', he', rfl, rfl⟩
      · rw [List.map_cons, List.mem_cons, not_or] at hnot
        exact .inr ⟨hnot.2, (AList.lookup_insert_ne hnot.1).symm⟩

theorem retrieveLoop_ok (isCancelled : Nat → Bool) (entries : List (String × Int))
    (fileList : FileMap) (k : Nat) :
    ((retrieveLoop isCancelled fileList k entries).2 = .ok ∧ (retrieveLoop isCancelled fileList k entries).1 =
        entries.foldl (fun (m : FileMap) e => m.insert e.1 (toInt32 e.2)) fileList) ∨
      (retrieveLoop isCancelled fileList k entries).2 = .deadlineExceeded := by
  induction entries generalizing fileList k with
  | nil => exact .inl ⟨rfl, rfl⟩
  | cons e entries ih =>
      obtain ⟨name, mtime⟩ := e
      rw [retrieveLoop]
      by_cases hcancel : isCancelled k = true
      · rw [if_pos hcancel]
        exact .inr rfl
      · rw [if_neg hcancel]
        exact ih _ _

theorem dirEntries_lookup (server : Dir) (dots : Int × Int) {f : String} (hdot : f ≠ ".") (hdots : f ≠ "..") :
    ((dirEntries server dots).foldl (fun (m : FileMap) e => m.insert e.1 (toInt32 e.2)) ∅).lookup f =
      (server.lookup f).map fun file => toInt32 file.mtime := by
  rw [dirEntries, List.foldl_append, List.foldl_map]
  refine insertAll_lookup Sigma.fst (fun e => toInt32 e.2.mtime) server.files.entries
    server.files.keys_nodup _ ?_
  cases hfile : server.lookup f with
  | none =>
      refine .inr ⟨AList.lookup_eq_none.mp hfile, ?_⟩
      simp only [List.foldl_cons, List.foldl_nil]
      rw [AList.lookup_insert_ne hdots, AList.lookup_insert_ne hdot, AList.lookup_empty, Option.map_none]
  | some file => exact .inl ⟨⟨f, file⟩, AList.mem_lookup_iff.mp hfile, rfl, rfl⟩

theorem copy_lookup (m : FileMap) (f : String) :
    (m.entries.foldl (fun (fileMap : FileMap) e => fileMap.insert e.1 e.2) ∅).lookup f = m.lookup f := by
  refine insertAll_lookup Sigma.fst Sigma.snd m.entries m.keys_nodup _ ?_
  cases hfile : m.lookup f with
  | none => exact .inr ⟨AList.lookup_eq_none.mp hfile, rfl⟩
  | some mtime => exact .inl ⟨⟨f, mtime⟩, AList.mem_lookup_iff.mp hfile, rfl, rfl⟩

theorem listCall_does (s : State C) (c : C) (now : Int) (dots : Int × Int) (isCancelled : Nat → Bool)
    (late : Option Nat) :
    Does (files s) c now .list (listCall s.server dots isCancelled late) (files s) := by
  have hanswer : retrieveFiles s.server dots isCancelled =
      retrieveLoop isCancelled ∅ 0 (dirEntries s.server dots) := rfl
  rw [listCall, hanswer]
  rcases retrieveLoop_ok isCancelled (dirEntries s.server dots) ∅ 0 with ⟨hok, hlist⟩ | hlate
  · cases late with
    | some n => exact .listLate
    | none =>
        simp only [timely, hok, if_true]
        refine .listed (fun f hdot hdots => ?_)
        rw [copy_lookup, hlist]
        exact dirEntries_lookup s.server dots hdot hdots
  · have hcode : timely late (retrieveLoop isCancelled ∅ 0 (dirEntries s.server dots)).2 = .deadlineExceeded := by
      rw [timely, hlate, ite_self]
    simp only [hcode]
    exact .listLate

theorem statCall_does (s : State C) (c : C) (now : Int) (f : FileName) (late : Option Nat) :
    Does (files s) c now (.stat f) (.code (plainReply (timely late (statusOfFile s.server f).2))) (files s) := by
  cases late with
  | some n => exact .statLate
  | none =>
      rw [statusOfFile]
      cases hfile : s.server.lookup f with
      | none => exact .absent hfile
      | some file => exact .present (by simp [files, hfile])

theorem call_does (dots : Int × Int) (s : State C) (c : C) (now : Int) (command : Command)
    (isCancelled : Nat → Bool) (late : Option Nat) :
    ∃ reply, (act dots s c now (.call command isCancelled late)).2 = some reply ∧
      Does (files s) c now command reply (files (act dots s c now (.call command isCancelled late)).1) := by
  cases command with
  | store f => exact ⟨_, rfl, storeCall_does s c now f isCancelled late⟩
  | fetch f => exact ⟨_, rfl, fetchCall_does s c now f isCancelled late⟩
  | delete f => exact ⟨_, rfl, deleteCall_does s c now f isCancelled late⟩
  | list => exact ⟨_, rfl, listCall_does s c now dots isCancelled late⟩
  | stat f => exact ⟨_, rfl, statCall_does s c now f late⟩

theorem uploadLoop_timely (now : Int) (reads : List (File × Bool)) (hreads : ∀ r ∈ reads, r.2 = false)
    (d : Dir) (file : Option String) (k : Nat) : (uploadLoop now d file k reads).2 = .ok := by
  induction reads generalizing d file k with
  | nil => rfl
  | cons r reads ih =>
      obtain ⟨request, isCancelled⟩ := r
      obtain rfl : isCancelled = false := hreads _ List.mem_cons_self
      exact ih (fun q hq => hreads q (List.mem_cons_of_mem _ hq)) _ _ _

theorem downloadLoop_timely (f : String) (bytes : Content) (fuel k readLength bytesTransferred : Nat) :
    (downloadLoop f bytes (fun _ => false) fuel k readLength bytesTransferred).status = .ok := by
  induction fuel generalizing k readLength bytesTransferred with
  | zero => rfl
  | succ fuel ih =>
      rw [downloadLoop]
      split
      · exact ih _ _ _
      · rfl

theorem retrieveLoop_timely (entries : List (String × Int)) (fileList : FileMap) (k : Nat) :
    (retrieveLoop (fun _ => false) fileList k entries).2 = .ok := by
  induction entries generalizing fileList k with
  | nil => rfl
  | cons e entries ih => exact ih _ _

/-- A call of Part 1 without a deadline does not report one. -/
theorem timely_reply (dots : Int × Int) (s : State C) (c : C) (now : Int) (command : Command) :
    (act dots s c now (.call command (fun _ => false) none)).2 ≠ some (.code .deadlineExceeded) := by
  cases command with
  | store f =>
      simp only [act, storeCall]
      split
      · simp
      next bytes _ =>
        have hok := uploadLoop_timely now
          (seen (fun _ => false) ((fileChunks bytes).map (fileMessage f))) (by simp [seen])
          s.server none 0
        simp [timely, uploadFile, hok, storeReply]
  | fetch f =>
      simp only [act, fetchCall, downloadFile]
      split
      · simp [timely, fetchFrom, fetchReply]
      · simp [timely, downloadLoop_timely, fetchFrom, fetchReply]
  | delete f =>
      by_cases hfile : s.server.lookup f = none
      · simp [act, deleteCall, destroyFile, timely, hfile, plainReply]
      · simp [act, deleteCall, destroyFile, timely, hfile, plainReply]
  | list => simp [act, listCall, retrieveFiles, retrieveLoop_timely, timely]
  | stat f =>
      cases hfile : s.server.lookup f with
      | none => simp [act, statusOfFile, timely, hfile, plainReply]
      | some file => simp [act, statusOfFile, timely, hfile, plainReply]

theorem InTime.reply {isCancelled : Nat → Bool} {late : Option Nat} (h : InTime isCancelled late) (dots : Int × Int)
    (s : State C) (c : C) (now : Int) (command : Command) :
    (act dots s c now (.call command isCancelled late)).2 ≠ some (.code .deadlineExceeded) := by
  obtain ⟨rfl, hnever⟩ := h
  obtain rfl : isCancelled = fun _ => false := funext hnever
  exact timely_reply dots s c now command

theorem edit_does (dots : Int × Int) (s : State C) (c : C) (now : Int) (f : FileName) (bytes : Option Content) :
    files (act dots s c now (.edit f bytes)).1 = (files s).setMount c f bytes := by
  refine files_setMount s c ?_ ?_
  · cases bytes with
    | none => exact content_remove_self _ _
    | some bytes => simp [editFile, Dir.content, f.2]
  · intro g hg
    cases bytes with
    | none => exact content_congr (lookup_remove_ne _ hg)
    | some bytes => exact content_congr (lookup_put_ne _ hg _)

inductive Event (C : Type)
  | edited (c : C) (f : FileName) (bytes : Option Content)
  | replied (c : C) (now : Int) (command : Command) (inTime : Prop) (reply : Reply)

def observe (dots : Int × Int) (s : State C) (a : C × Int × Act) : List (Event C) :=
  match a.2.2, (act dots s a.1 a.2.1 a.2.2).2 with
  | .edit f bytes, _ => [.edited a.1 f bytes]
  | .call command isCancelled late, some reply => [.replied a.1 a.2.1 command (InTime isCancelled late) reply]
  | .call _ _ _, none => []

/-- The runs of the remote directory. A call that is in time gets no late reply. -/
inductive Serves (a : Files C) : List (Event C) → Files C → Prop
  | start : Serves a [] a
  | edited {es b c} {f : FileName} {bytes} : Serves a es b → Serves a (es ++ [.edited c f bytes]) (b.setMount c f bytes)
  | replied {es b b' c now command reply} {inTime : Prop} : Serves a es b → Does b c now command reply b' →
      (inTime → reply ≠ .code .deadlineExceeded) → Serves a (es ++ [.replied c now command inTime reply]) b'

/-- Every run of the clients and the server of Part 1, whatever the deadlines cut
short, is a run of a remote directory. -/
theorem run_serves (dots : Int × Int) {s₀ s : State C} {acts : List (C × Int × Act)}
    (h : Run (step dots) anyStep s₀ acts s) :
    Serves (files s₀) (observed (step dots) (observe dots) s₀ acts).2 (files s) := by
  refine h.observedInvariant (I := fun es s => Serves (files s₀) es (files s)) .start ?_
  intro es acts s a s' hserves _ hstep
  obtain ⟨c, now, a⟩ := a
  obtain rfl : (act dots s c now a).1 = s' := Option.some.inj hstep
  cases a with
  | edit f bytes =>
      rw [edit_does]
      exact .edited hserves
  | call command isCancelled late =>
      obtain ⟨reply, hreply, hdoes⟩ := call_does dots s c now command isCancelled late
      simp only [observe, hreply]
      refine .replied hserves hdoes ?_
      rintro htime rfl
      exact htime.reply dots s c now command hreply

def text : FileName := ⟨"f.txt", by decide⟩

def shared : List (Bool × Int × Act) :=
  [(true, 1, .edit text (some [1, 2])), (true, 2, .call (.store text) (fun _ => false) none),
    (false, 3, .call (.fetch text) (fun _ => false) (some 0)), (false, 4, .call .list (fun _ => false) none)]

def nowhere : State Bool := ⟨empty, fun _ => empty⟩

theorem shared_serves : ∃ s, Run (step (0, 0)) anyStep nowhere shared s ∧
    Serves (files nowhere) (observed (step (0, 0)) (observe (0, 0)) nowhere shared).2 (files s) := by
  obtain ⟨s, hs⟩ : ∃ s, exec (step (0, 0)) anyStep nowhere shared = some s := ⟨_, rfl⟩
  have hrun := run_iff_exec.mpr hs
  exact ⟨s, hrun, run_serves (0, 0) hrun⟩

def writes (f : FileName) : Command → Bool
  | .store g => g = f
  | .delete g => g = f
  | _ => false

omit [DecidableEq C] in
theorem put_other {a : Files C} {f g : FileName} {file : Option Directory.File} (hg : decide (g = f) = false) :
    (a.put g file).server f = a.server f :=
  Function.update_of_ne (fun h => of_decide_eq_false hg (Subtype.ext h.symm)) _ _

theorem does_server {a b : Files C} {c : C} {now : Int} {command : Command} {reply : Reply} {f : FileName}
    (h : Does a c now command reply b) (hf : writes f command = false) : b.server f = a.server f := by
  cases h with
  | stored | storeCut | deleted | deletedLate => exact put_other hf
  | _ => rfl

def Spares (f : FileName) (_ : List (C × Int × Act)) (_ : State C) (a : C × Int × Act) : Prop :=
  ∀ command isCancelled late, a.2.2 = .call command isCancelled late → writes f command = false

theorem run_spares (dots : Int × Int) {f : FileName} {s₀ s : State C} {acts : List (C × Int × Act)}
    (h : Run (step dots) (Spares f) s₀ acts s) : (files s).server f = (files s₀).server f := by
  refine h.stateInvariant (I := fun s => (files s).server f = (files s₀).server f) rfl ?_
  intro acts s a s' hsame hspares hstep
  obtain ⟨c, now, a⟩ := a
  obtain rfl : (act dots s c now a).1 = s' := Option.some.inj hstep
  cases a with
  | edit g bytes =>
      rw [edit_does]
      exact hsame
  | call command isCancelled late =>
      obtain ⟨reply, _, hdoes⟩ := call_does dots s c now command isCancelled late
      rw [does_server hdoes (hspares command isCancelled late rfl), hsame]

theorem does_stored {a b : Files C} {c : C} {now : Int} {f : FileName} {bytes : Content}
    (h : Does a c now (.store f) (.code .ok) b) (hmount : a.mounts c f = some bytes) (hne : bytes ≠ []) :
    b.server f = some ⟨bytes, now⟩ := by
  cases h with
  | stored hsent =>
      rw [hmount, Option.some_inj] at hsent
      rw [hsent]
      exact Function.update_self _ _ _
  | storedNothing hempty =>
      rw [hmount, Option.some_inj] at hempty
      exact absurd hempty hne

theorem setMount_self (a : Files C) (c : C) (f : String) (bytes : Option Content) :
    (a.setMount c f bytes).mounts c f = bytes := by
  simp [Files.setMount]

theorem does_fetched {a b : Files C} {c : C} {now : Int} {f : FileName} {file : Directory.File} {reply : Reply}
    (h : Does a c now (.fetch f) reply b) (hfile : a.server f = some file) :
    (reply = .code .ok ∧ b.mounts c f = some file.content) ∨
      (reply = .code .deadlineExceeded ∧ ∃ n, b.mounts c f = some (file.content.take (n * 4000))) := by
  cases h with
  | fetched hserver =>
      rw [hfile, Option.some_inj] at hserver
      rw [setMount_self, hserver]
      exact .inl ⟨rfl, rfl⟩
  | fetchMissing hserver =>
      rw [hfile] at hserver
      cases hserver
  | @fetchCut _ bytes n hserver =>
      rw [hfile] at hserver
      rw [setMount_self, ← hserver]
      exact .inr ⟨rfl, n, rfl⟩

/-- What one client has stored, another one fetches: the whole file if the
fetch is in time, and otherwise a first part of it. -/
theorem stored_fetched (dots : Int × Int) {s₀ s : State C} {c c' : C} {f : FileName} {bytes : Content}
    {acts : List (C × Int × Act)} {isCancelled isCancelled' : Nat → Bool} {late late' : Option Nat}
    {time time' : Int} (hmount : (s₀.mounts c).content f = some bytes) (hne : bytes ≠ [])
    (hstored : (act dots s₀ c time (.call (.store f) isCancelled late)).2 = some (.code .ok))
    (hrun : Run (step dots) (Spares f) (act dots s₀ c time (.call (.store f) isCancelled late)).1 acts s) :
    let answer := act dots s c' time' (.call (.fetch f) isCancelled' late')
    ((answer.2 = some (.code .ok) ∧ (answer.1.mounts c').content f = some bytes) ∨
      (answer.2 = some (.code .deadlineExceeded) ∧
        ∃ n, (answer.1.mounts c').content f = some (bytes.take (n * 4000)))) ∧
    (InTime isCancelled' late' → answer.2 = some (.code .ok)) := by
  intro answer
  obtain ⟨reply, hreply, hdoes⟩ := call_does dots s₀ c time (.store f) isCancelled late
  rw [hstored, Option.some_inj] at hreply
  subst hreply
  have hserver := (run_spares dots hrun).trans (does_stored hdoes hmount hne)
  obtain ⟨reply, hreply, hdoes'⟩ := call_does dots s c' time' (.fetch f) isCancelled' late'
  rcases does_fetched hdoes' hserver with ⟨rfl, hcontent⟩ | ⟨rfl, n, hcontent⟩
  · exact ⟨.inl ⟨hreply, hcontent⟩, fun _ => hreply⟩
  · exact ⟨.inr ⟨hreply, n, hcontent⟩, fun htime => absurd hreply (htime.reply dots s c' time' (.fetch f))⟩

/-- Another client edits its own copy and looks at the list in between. -/
theorem twoBytes_fetched :
    let s₀ : State Bool := ⟨empty, fun _ => empty.put "f.txt" ⟨[1, 2], 1⟩⟩
    let stored := act (0, 0) s₀ true 2 (.call (.store text) (fun _ => false) none)
    let edited := act (0, 0) stored.1 false 3 (.edit text (some [9]))
    let listed := act (0, 0) edited.1 false 4 (.call .list (fun _ => false) none)
    let answer := act (0, 0) listed.1 false 5 (.call (.fetch text) (fun _ => false) none)
    ((answer.2 = some (.code .ok) ∧ (answer.1.mounts false).content "f.txt" = some [1, 2]) ∨
      (answer.2 = some (.code .deadlineExceeded) ∧
        ∃ n, (answer.1.mounts false).content "f.txt" = some (([1, 2] : Content).take (n * 4000)))) ∧
    (InTime (fun _ => false) none → answer.2 = some (.code .ok)) := by
  intro s₀ stored edited listed
  have hedit : Run (step (0, 0)) (Spares text) stored.1 [(false, 3, .edit text (some [9]))] edited.1 :=
    .next .start (fun _ _ _ h => by cases h) rfl
  have hlist : Run (step (0, 0)) (Spares text) stored.1
      [(false, 3, .edit text (some [9])), (false, 4, .call .list (fun _ => false) none)] listed.1 :=
    .next hedit (fun _ _ _ h => by cases h; rfl) rfl
  exact stored_fetched (f := text) (0, 0) rfl (by decide) rfl hlist

end GraduateOS.Dfs.Part1Runs
