import GraduateOS.Gflib.Messages
import GraduateOS.Library.FileTrees
import GraduateOS.Library.Formats
import Mathlib.Data.Nat.Digits.Lemmas

namespace GraduateOS.Workload.Downloads

open Library.CStrings Library.FileTrees Library.Formats
open Gflib.Messages (Status)

def slash : UInt8 := 47

/-- What the two versions of `gfclient_download` differ in. The paths that are
let through leave room for the number in `local_path`. -/
structure Program where
  separator : UInt8
  longest : Nat
  pathBufferSize : Nat
  notDigit : Library.Scanf.isdigit separator = false
  notSlash : separator ≠ slash
  room : longest + 11 < pathBufferSize

def gflib : Program := ⟨95, 256, 1221, rfl, by decide, by decide⟩

def mtgf : Program := ⟨45, 1024, 2048, rfl, by decide, by decide⟩

/-- The digits that `%06d` prints. -/
def padded (n : Nat) : List UInt8 := List.replicate (6 - (digits n).length) 48 ++ digits n

/-- The text that `localPath` prints for the request with this number. -/
def localPath (p : Program) (reqPath : List UInt8) (counter : Nat) : List UInt8 :=
  reqPath.tail ++ p.separator :: padded counter

def components (path : List UInt8) : Path := (path.splitOn slash).filter (· ≠ [])

/-- The loop of `openFile`, with the part of the path that it has gone through.
A slash at the very start is not looked at. -/
def makeDirs : List UInt8 → List UInt8 → Tree → Option Tree
  | _, [], t => some t
  | done, c :: rest, t =>
      if c = slash ∧ done ≠ [] then (t.mkdir (components done)).bind (makeDirs (done ++ [c]) rest)
      else makeDirs (done ++ [c]) rest t

/-- There is no tree where the process ends. -/
def openFile (path : List UInt8) (t : Tree) : Option Tree :=
  (makeDirs [] path t).bind (·.create (components path))

/-- What `gfc_perform` has done: the value it returned, the status it has left,
and its calls of `writecb`. -/
structure Performed where
  returncode : Int
  status : Status
  writes : List (List UInt8)

/-- One round of the loop in `main`. -/
def request (p : Program) (t : Tree) (counter : Nat) (reqPath : List UInt8) (done : Performed) : Option Tree :=
  if reqPath.length > p.longest then none
  else do
    let path := localPath p reqPath counter
    let t ← openFile path t
    let t := t.append (components path) done.writes.flatten
    let t := if done.returncode < 0 then t.unlink (components path) else t
    some (if done.status ≠ .ok then t.unlink (components path) else t)

def requests (p : Program) : Nat → List (List UInt8 × Performed) → Tree → Option Tree
  | _, [], t => some t
  | counter, (reqPath, done) :: rest, t => (request p t counter reqPath done).bind (requests p (counter + 1) rest)

def Plain (name : Name) : Prop := name ≠ [] ∧ slash ∉ name ∧ name ≠ [46] ∧ name ≠ [46, 46]

instance (name : Name) : Decidable (Plain name) :=
  inferInstanceAs (Decidable (name ≠ [] ∧ slash ∉ name ∧ name ≠ [46] ∧ name ≠ [46, 46]))

structure ReqPath where
  dirs : List Name
  name : Name
  dirs_plain : ∀ d ∈ dirs, Plain d
  name_plain : Plain name

def below (dirs : List Name) : List UInt8 := dirs.flatMap (· ++ [slash])

def ReqPath.text (r : ReqPath) : List UInt8 := slash :: (below r.dirs ++ r.name)

def Performed.Saved (done : Performed) : Prop := 0 ≤ done.returncode ∧ done.status = .ok

def ReqPath.place (r : ReqPath) (p : Program) (counter : Nat) : Path :=
  r.dirs ++ [r.name ++ p.separator :: padded counter]

variable {p : Program} {dirs : List Name} {name rest done : List UInt8} {t t' : Tree} {counter n k : Nat}
  {r : ReqPath} {q : Path}

theorem digit_ne_slash {c : UInt8} (h : Library.Scanf.isdigit c = true) : c ≠ slash := by
  rintro rfl
  cases h

theorem padded_isdigit (n : Nat) : ∀ c ∈ padded n, Library.Scanf.isdigit c = true := by
  intro c hc
  rcases List.mem_append.mp hc with hc | hc
  · rw [List.eq_of_mem_replicate hc]
    rfl
  · exact digits_isdigit n c hc

theorem foldl_zeros (k : Nat) (ds : List UInt8) :
    (List.replicate k (48 : UInt8) ++ ds).foldl (fun (n : Int) (c : UInt8) => 10 * n + (c.toNat - 48)) 0 =
      ds.foldl (fun (n : Int) (c : UInt8) => 10 * n + (c.toNat - 48)) 0 := by
  induction k with
  | zero => rfl
  | succ k ih => exact ih

/-- Leading zeros do not change a number. -/
theorem padded_decimal (n : Nat) : Library.Scanf.decimal (padded n) = n := by
  have hdigits : Library.Scanf.decimal (digits n) = n := by
    have h : Library.Scanf.decimal (digits n ++ []) = n := (decimal_digits n (fun c hc => by cases hc)).2.2
    rwa [List.append_nil] at h
  have hall : (padded n).takeWhile Library.Scanf.isdigit = padded n :=
    List.takeWhile_eq_self_iff.mpr (padded_isdigit n)
  have hself : (digits n).takeWhile Library.Scanf.isdigit = digits n :=
    List.takeWhile_eq_self_iff.mpr (digits_isdigit n)
  rw [Library.Scanf.decimal, hself] at hdigits
  rw [Library.Scanf.decimal, hall, padded, foldl_zeros, hdigits]

theorem padded_injective (h : padded n = padded k) : n = k := by
  have hvalue := congrArg Library.Scanf.decimal h
  rw [padded_decimal, padded_decimal] at hvalue
  exact Int.ofNat_inj.mp hvalue

/-- The number behind the last separator tells the local names apart. -/
theorem number_injective {name' : Name} (h : name ++ p.separator :: padded n = name' ++ p.separator :: padded k) :
    n = k := by
  have hnumber (name : Name) (n : Nat) :
      (name ++ p.separator :: padded n).reverse.takeWhile Library.Scanf.isdigit = (padded n).reverse := by
    have hall : ∀ c ∈ (padded n).reverse, Library.Scanf.isdigit c = true :=
      fun c hc => padded_isdigit n c (List.mem_reverse.mp hc)
    rw [List.reverse_append, List.reverse_cons, List.append_assoc,
      List.takeWhile_append_of_pos hall, List.singleton_append,
      List.takeWhile_cons_of_neg (by rw [p.notDigit]; exact Bool.false_ne_true), List.append_nil]
  have hsame := hnumber name n
  rw [h, hnumber] at hsame
  exact padded_injective (List.reverse_injective hsame.symm)

theorem place_injective {r' : ReqPath} (h : r.place p n = r'.place p k) : n = k := by
  have hlast := congrArg List.getLast? h
  rw [ReqPath.place, ReqPath.place, List.getLast?_concat, List.getLast?_concat, Option.some_inj] at hlast
  exact number_injective hlast

theorem below_cons (d : Name) (dirs : List Name) (rest : List UInt8) :
    below (d :: dirs) ++ rest = d ++ slash :: (below dirs ++ rest) := by
  simp [below]

theorem components_below (hdirs : ∀ d ∈ dirs, Plain d) (hname : slash ∉ name) (hne : name ≠ []) :
    components (below dirs ++ name) = dirs ++ [name] := by
  induction dirs with
  | nil =>
      rw [components, below, List.flatMap_nil, List.nil_append, List.splitOn_eq_singleton hname]
      simp [hne]
  | cons d dirs ih =>
      obtain ⟨hd, hslash, -⟩ := hdirs d List.mem_cons_self
      have ih := ih fun d hd => hdirs d (List.mem_cons_of_mem _ hd)
      rw [components] at ih ⊢
      rw [below_cons, List.splitOn_append_cons_self_of_not_mem hslash, List.filter_cons_of_pos (by simpa using hd)]
      exact congrArg (d :: ·) ih

/-- A name is passed over up to the slash behind it. -/
theorem makeDirs_name (hname : slash ∉ name) (done rest : List UInt8) (t : Tree) :
    makeDirs done (name ++ rest) t = makeDirs (done ++ name) rest t := by
  induction name generalizing done with
  | nil => rw [List.nil_append, List.append_nil]
  | cons c name ih =>
      rw [List.mem_cons, not_or] at hname
      rw [List.cons_append, makeDirs, if_neg fun h => hname.1 h.1.symm, ih hname.2, List.append_assoc]
      rfl

/-- One directory for each of the names, each in the one before. -/
theorem makeDirs_below {before : List Name} (hbefore : ∀ d ∈ before, Plain d) (hdirs : ∀ d ∈ dirs, Plain d)
    (hname : slash ∉ name) (t : Tree) :
    makeDirs (below before) (below dirs ++ name) t = t.mkdirs before dirs := by
  induction dirs generalizing before t with
  | nil =>
      have hlast := makeDirs_name hname (below before) [] t
      rw [List.append_nil] at hlast
      exact hlast
  | cons d dirs ih =>
      have hplain := hdirs d List.mem_cons_self
      have hnext : below before ++ d ++ [slash] = below (before ++ [d]) := by simp [below]
      have hbefore' : ∀ d' ∈ before ++ [d], Plain d' := by
        intro d' hd'
        rcases List.mem_append.mp hd' with hd' | hd'
        · exact hbefore d' hd'
        · rw [List.mem_singleton.mp hd']
          exact hplain
      rw [below_cons, makeDirs_name hplain.2.1, makeDirs, if_pos ⟨rfl, by simp [hplain.1]⟩,
        components_below hbefore hplain.2.1 hplain.1, hnext, Tree.mkdirs]
      refine congrArg _ (funext fun t => ?_)
      exact ih hbefore' (fun d hd => hdirs d (List.mem_cons_of_mem _ hd)) t

theorem local_notSlash (p : Program) (hname : slash ∉ name) (n : Nat) : slash ∉ name ++ p.separator :: padded n := by
  intro hmem
  rcases List.mem_append.mp hmem with h | h
  · exact hname h
  · rcases List.mem_cons.mp h with h | h
    · exact p.notSlash h.symm
    · exact digit_ne_slash (padded_isdigit n slash h) rfl

theorem localPath_text (r : ReqPath) (p : Program) (n : Nat) :
    localPath p r.text n = below r.dirs ++ (r.name ++ p.separator :: padded n) := by
  rw [localPath, ReqPath.text, List.tail_cons, List.append_assoc]

theorem localPath_components (r : ReqPath) (p : Program) (n : Nat) :
    components (localPath p r.text n) = r.place p n := by
  rw [localPath_text]
  exact components_below r.dirs_plain (local_notSlash p r.name_plain.2.1 n) (by simp)

/-- `openFile` makes the directories, and then the file. -/
theorem openFile_place (r : ReqPath) (p : Program) (n : Nat) (t : Tree) :
    openFile (localPath p r.text n) t = (t.mkdirs [] r.dirs).bind (·.create (r.place p n)) := by
  rw [openFile, localPath_components, localPath_text]
  have hdirs : makeDirs (below []) (below r.dirs ++ (r.name ++ p.separator :: padded n)) t = t.mkdirs [] r.dirs :=
    makeDirs_below (by simp) r.dirs_plain (local_notSlash p r.name_plain.2.1 n) t
  rw [← hdirs]
  rfl

theorem place_ne_nil (r : ReqPath) (p : Program) (n : Nat) : r.place p n ≠ [] := by simp [ReqPath.place]

theorem place_dropLast (r : ReqPath) (p : Program) (n : Nat) : (r.place p n).dropLast = r.dirs :=
  List.dropLast_concat

/-- What the end of a round does to the file. -/
theorem cleaned_node {bytes : List UInt8} (hnode : t.node q = some (.file bytes)) (done : Performed) :
    let unlinked := if done.returncode < 0 then t.unlink q else t
    let cleaned := if done.status ≠ .ok then unlinked.unlink q else unlinked
    (done.Saved → cleaned.node q = some (.file bytes)) ∧ (¬ done.Saved → cleaned.node q = none) ∧
      ∀ q', q' ≠ q → cleaned.node q' = t.node q' := by
  intro unlinked cleaned
  have hremoved : (t.unlink q).node = Function.update t.node q none := unlink_file hnode
  have htwice : (t.unlink q).unlink q = t.unlink q := unlink_missing (by rw [hremoved, Function.update_self])
  by_cases hcode : done.returncode < 0
  · have hcleaned : cleaned = t.unlink q := by
      simp only [cleaned, unlinked, if_pos hcode, htwice, ite_self]
    rw [hcleaned, hremoved]
    refine ⟨fun h => absurd h.1 (Int.not_le.mpr hcode), fun _ => Function.update_self .., fun q' hq' => ?_⟩
    exact Function.update_of_ne hq' ..
  · by_cases hstatus : done.status = .ok
    · have hcleaned : cleaned = t := by simp [cleaned, unlinked, hcode, hstatus]
      rw [hcleaned]
      exact ⟨fun _ => hnode, fun h => absurd ⟨Int.not_lt.mp hcode, hstatus⟩ h, fun _ _ => rfl⟩
    · have hcleaned : cleaned = t.unlink q := by simp [cleaned, unlinked, hcode, hstatus]
      rw [hcleaned, hremoved]
      refine ⟨fun h => absurd h.2 hstatus, fun _ => Function.update_self .., fun q' hq' => ?_⟩
      exact Function.update_of_ne hq' ..

/-- One request: its file is there or not, and apart from directories on the
way to it nothing else has changed. -/
theorem request_node {outcome : Performed} (h : request p t n r.text outcome = some t') :
    (outcome.Saved → t'.node (r.place p n) = some (.file outcome.writes.flatten)) ∧
      (¬ outcome.Saved → t'.node (r.place p n) = none) ∧
      ∀ q, q ≠ r.place p n → t'.node q = t.node q ∨ q <+: r.dirs ∧ t.node q = none ∧ t'.node q = some .dir := by
  rw [request] at h
  split at h
  next => cases h
  next =>
    simp only [Option.bind_eq_bind, openFile_place, localPath_components] at h
    rw [Option.bind_eq_some_iff] at h
    obtain ⟨t₂, hopen, h⟩ := h
    obtain ⟨t₁, hdirs, hcreate⟩ := Option.bind_eq_some_iff.mp hopen
    have hcreated := create_node hcreate
    have hopened : t₂.node (r.place p n) = some (.file []) := by rw [hcreated, Function.update_self]
    have happended := append_node hopened outcome.writes.flatten
    have hwritten : (t₂.append (r.place p n) outcome.writes.flatten).node (r.place p n) =
        some (.file outcome.writes.flatten) := by rw [happended, Function.update_self, List.nil_append]
    obtain ⟨hsaved, hfailed, hothers⟩ := cleaned_node hwritten outcome
    cases h
    refine ⟨hsaved, hfailed, fun q hq => ?_⟩
    have hsame : t₂.node q = t₁.node q := by rw [hcreated, Function.update_of_ne hq]
    rw [hothers q hq, happended, Function.update_of_ne hq, hsame]
    exact mkdirs_node hdirs q

structure Downloaded (p : Program) (counter : Nat) (rounds : List (ReqPath × Performed)) (t t' : Tree) : Prop where
  saved : ∀ (k : Nat) (r : ReqPath) (done : Performed), rounds[k]? = some (r, done) → done.Saved →
    t'.node (r.place p (counter + k)) = some (.file done.writes.flatten)
  failed : ∀ (k : Nat) (r : ReqPath) (done : Performed), rounds[k]? = some (r, done) → ¬ done.Saved →
    ∀ bytes, t'.node (r.place p (counter + k)) ≠ some (.file bytes)
  others : ∀ q, (∀ (k : Nat) (r : ReqPath) (done : Performed), rounds[k]? = some (r, done) → q ≠ r.place p (counter + k)) →
    t'.node q = t.node q ∨
      (∃ round ∈ rounds, q <+: round.1.dirs) ∧ t.node q = none ∧ t'.node q = some .dir

def texts (rounds : List (ReqPath × Performed)) : List (List UInt8 × Performed) :=
  rounds.map fun round => (round.1.text, round.2)

theorem requests_downloaded {rounds : List (ReqPath × Performed)}
    (h : requests p counter (texts rounds) t = some t') : Downloaded p counter rounds t t' := by
  induction rounds generalizing counter t with
  | nil =>
      cases h
      exact ⟨fun k r done hk => by simp at hk, fun k r done hk => by simp at hk, fun q _ => .inl rfl⟩
  | cons round rounds ih =>
      obtain ⟨r, outcome⟩ := round
      change (request p t counter r.text outcome).bind (requests p (counter + 1) (texts rounds)) = some t' at h
      obtain ⟨t₁, hfirst, hrest⟩ := Option.bind_eq_some_iff.mp h
      obtain ⟨hsaved, hfailed, hothers⟩ := request_node hfirst
      have ih := ih hrest
      have hnumber (k : Nat) : counter + 1 + k = counter + (k + 1) := by omega
      -- the file of the first request is none of the later ones
      have hlater : ∀ (k : Nat) (r' : ReqPath) (done : Performed), rounds[k]? = some (r', done) →
          r.place p counter ≠ r'.place p (counter + 1 + k) := by
        intro k r' done _ hsame
        have hcounter := place_injective hsame
        omega
      constructor
      · intro k r' done hk hdone
        cases k with
        | zero =>
            cases hk
            rcases ih.others _ hlater with hsame | ⟨-, hnone, -⟩
            · exact hsame.trans (hsaved hdone)
            · rw [hsaved hdone] at hnone
              cases hnone
        | succ k =>
            rw [← hnumber]
            exact ih.saved k r' done hk hdone
      · intro k r' done hk hdone bytes
        cases k with
        | zero =>
            cases hk
            rcases ih.others _ hlater with hsame | ⟨-, -, hdir⟩
            · rw [Nat.add_zero, hsame, hfailed hdone]
              exact nofun
            · rw [Nat.add_zero, hdir]
              exact nofun
        | succ k =>
            rw [← hnumber]
            exact ih.failed k r' done hk hdone bytes
      · intro q hq
        have hrest : ∀ (k : Nat) (r' : ReqPath) (done : Performed), rounds[k]? = some (r', done) →
            q ≠ r'.place p (counter + 1 + k) := by
          intro k r' done hk
          rw [hnumber]
          exact hq (k + 1) r' done hk
        rcases hothers q (hq 0 r outcome rfl) with hsame | ⟨hq, hnone, hdir⟩
        · rcases ih.others q hrest with h | ⟨⟨round, hmem, hpre⟩, hnone, hdir⟩
          · exact .inl (h.trans hsame)
          · exact .inr ⟨⟨round, List.mem_cons_of_mem _ hmem, hpre⟩, hsame ▸ hnone, hdir⟩
        · rcases ih.others q hrest with h | ⟨-, hnone', -⟩
          · exact .inr ⟨⟨_, List.mem_cons_self, hq⟩, hnone, h.trans hdir⟩
          · rw [hdir] at hnone'
            cases hnone'

structure Clear (p : Program) (counter : Nat) (rounds : List (ReqPath × Performed)) (t : Tree) : Prop where
  short : ∀ round ∈ rounds, round.1.text.length ≤ p.longest
  dirs : ∀ round ∈ rounds, ∀ q, q <+: round.1.dirs → t.node q = none ∨ t.node q = some .dir
  files : ∀ (k : Nat) (r : ReqPath) (done : Performed), rounds[k]? = some (r, done) →
    t.node (r.place p (counter + k)) ≠ some .dir
  apart : ∀ (k : Nat) (r : ReqPath) (done : Performed), rounds[k]? = some (r, done) →
    ∀ round ∈ rounds, ¬ r.place p (counter + k) <+: round.1.dirs

theorem request_runs (outcome : Performed) (hshort : r.text.length ≤ p.longest)
    (hdirs : ∀ q, q <+: r.dirs → t.node q = none ∨ t.node q = some .dir)
    (hfile : t.node (r.place p n) ≠ some .dir) : ∃ t', request p t n r.text outcome = some t' := by
  obtain ⟨t₁, hmade, hparent⟩ := mkdirs_some (p := []) t.root hdirs
  have hplace : t₁.node (r.place p n) ≠ some .dir := by
    rcases mkdirs_node hmade (r.place p n) with hsame | ⟨hq, -, -⟩
    · rwa [hsame]
    · have hlength : (r.place p n).length ≤ r.dirs.length := hq.length_le
      rw [ReqPath.place, List.length_append, List.length_singleton] at hlength
      omega
  obtain ⟨t₂, hcreate⟩ := create_some (place_ne_nil r p n) (by rwa [place_dropLast]) hplace
  rw [request, if_neg (Nat.not_lt.mpr hshort)]
  simp only [Option.bind_eq_bind, openFile_place, localPath_components, hmade, Option.bind_some, hcreate]
  exact ⟨_, rfl⟩

theorem Clear.next {outcome : Performed} {rounds : List (ReqPath × Performed)}
    (h : Clear p counter ((r, outcome) :: rounds) t) (hrun : request p t counter r.text outcome = some t') :
    Clear p (counter + 1) rounds t' := by
  obtain ⟨hsaved, hfailed, hothers⟩ := request_node hrun
  have hnumber (k : Nat) : counter + 1 + k = counter + (k + 1) := by omega
  constructor
  · exact fun round hround => h.short round (List.mem_cons_of_mem _ hround)
  · intro round hround q hq
    have hne : q ≠ r.place p counter := by
      rintro rfl
      exact h.apart 0 r outcome rfl round (List.mem_cons_of_mem _ hround) hq
    rcases hothers q hne with hsame | ⟨-, -, hdir⟩
    · rw [hsame]
      exact h.dirs round (List.mem_cons_of_mem _ hround) q hq
    · exact .inr hdir
  · intro k r' done hk
    rw [hnumber]
    have hne : r'.place p (counter + (k + 1)) ≠ r.place p counter := by
      intro hsame
      have hcounter := place_injective hsame
      omega
    rcases hothers _ hne with hsame | ⟨hq, -, -⟩
    · rw [hsame]
      exact h.files (k + 1) r' done hk
    · exact absurd hq (h.apart (k + 1) r' done hk _ List.mem_cons_self)
  · intro k r' done hk round hround
    rw [hnumber]
    exact h.apart (k + 1) r' done hk round (List.mem_cons_of_mem _ hround)

theorem clear_runs {rounds : List (ReqPath × Performed)} (h : Clear p counter rounds t) :
    ∃ t', requests p counter (texts rounds) t = some t' := by
  induction rounds generalizing counter t with
  | nil => exact ⟨t, rfl⟩
  | cons round rounds ih =>
      obtain ⟨r, outcome⟩ := round
      have hcons : (r, outcome) ∈ (r, outcome) :: rounds := List.mem_cons_self
      obtain ⟨t₁, hfirst⟩ : ∃ t₁, request p t counter r.text outcome = some t₁ :=
        request_runs outcome (h.short _ hcons) (h.dirs _ hcons) (h.files 0 r outcome rfl)
      obtain ⟨t', hrest⟩ := ih (h.next hfirst)
      refine ⟨t', ?_⟩
      change (request p t counter r.text outcome).bind (requests p (counter + 1) (texts rounds)) = some t'
      rw [hfirst, Option.bind_some, hrest]

theorem padded_length (hn : n < 2 ^ 31) : (padded n).length ≤ 10 := by
  have hdigits : (digits n).length ≤ 10 := by
    rw [digits]
    split
    · decide
    · rw [List.length_reverse, List.length_map, Nat.digits_length_le_iff (by decide)]
      omega
  rw [padded, List.length_append, List.length_replicate]
  omega

/-- `local_path` has room for the text and its NUL, so `snprintf` cuts nothing off. -/
theorem localPath_fits {reqPath : List UInt8} (hshort : reqPath.length ≤ p.longest) (hn : n < 2 ^ 31) :
    (localPath p reqPath n).length < p.pathBufferSize := by
  have hnumber := padded_length hn
  have hroom := p.room
  rw [localPath, List.length_append, List.length_tail, List.length_cons]
  omega

def emptyTree : Tree where
  node q := if q = [] then some .dir else none
  root := rfl
  closed q name h := absurd (if_neg (List.append_ne_nil_of_right_ne_nil q (List.cons_ne_nil name []))) h

def oneSaved : List (ReqPath × Performed) :=
  [(⟨[ascii "a"], ascii "b.txt", by decide, by decide⟩, ⟨0, .ok, [[1, 2], [3]]⟩),
    (⟨[], ascii "c", by decide, by decide⟩, ⟨0, .fileNotFound, []⟩)]

theorem oneSaved_clear : Clear mtgf 0 oneSaved emptyTree where
  short := by decide
  dirs round _ q _ := by
    by_cases hq : q = []
    · exact .inr (if_pos hq)
    · exact .inl (if_neg hq)
  files k r _ _ := by
    have hnone : emptyTree.node (r.place mtgf (0 + k)) = none := if_neg (place_ne_nil r mtgf _)
    rw [hnone]
    simp
  apart k r done hk round hround := by
    cases k with
    | zero =>
        cases hk
        revert round
        decide
    | succ k =>
        cases k with
        | zero =>
            cases hk
            revert round
            decide
        | succ k => cases hk

end GraduateOS.Workload.Downloads
