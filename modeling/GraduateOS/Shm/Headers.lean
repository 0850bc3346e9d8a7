import GraduateOS.Library.Runs
import GraduateOS.Shm.Answers

namespace GraduateOS.Shm.Headers

open Segments Threads LocalSteps Answers Library.MachineInts Library.Runs

def Truthful (cache : String → Option Content) (path : String) (header : Status × Nat) : Prop :=
  match cache path with
  | none => header.1 = .fileNotFound
  | some file => header = (.ok, file.length)

variable {H W : Type} {cache : String → Option Content} {path : String} {acts : List (Act H W)}
  {s s' : System H W} {h : H} {a : Act H W}

structure Reports (cache : String → Option Content) (acts : List (Act H W)) (s : System H W) (h : H) :
    Prop where
  truthful : ∀ header, (s.handlers h).header = some header → Truthful cache (s.handlers h).path header
  complete : (s.handlers h).pc = .returned → (∃ path, .request h path ∈ acts) →
    (s.handlers h).header ≠ none

theorem uint64_of_small {n : Nat} (hsmall : n < 2 ^ 31) : toUInt64 (toInt32 n) = n := by
  rw [toInt32_eq (by omega) (by omega), toUInt64_eq (by omega) (by omega), Int.toNat_natCast]

theorem small_of_uint64 {n : Nat} (hlimit : n < 2 ^ 63) (hsame : toUInt64 (toInt32 n) = n) : n < 2 ^ 31 := by
  have hlower : -2 ^ 31 ≤ toInt32 n := Int.le_bmod (by decide)
  have hupper : toInt32 n < 2 ^ 31 := Int.bmod_lt (by decide)
  rw [toUInt64] at hsame
  omega

/-- Between 1 and `2 ^ 31 - 1` the answer is the size, and from there to `2 ^ 63` it never is. -/
theorem reported_truthful_iff (hsize : ∀ file, cache path = some file → file.length < 2 ^ 63) :
    Truthful cache path (reported cache path) ↔
      ∀ file, cache path = some file → 1 ≤ file.length ∧ file.length < 2 ^ 31 := by
  cases hfile : cache path with
  | none => simp [Truthful, reported, answer, hfile, toUInt64]
  | some file =>
      simp only [Truthful, reported, answer, hfile, Option.some.injEq, forall_eq']
      constructor
      · intro htrue
        split at htrue
        · cases htrue
        next hnonzero =>
          have hsame : toUInt64 (toInt32 file.length) = file.length := (Prod.mk.inj htrue).2
          have hsmall := small_of_uint64 (hsize file hfile) hsame
          exact ⟨by omega, hsmall⟩
      · rintro ⟨hpos, hsmall⟩
        rw [uint64_of_small hsmall, if_neg (by omega)]

theorem knows_reported {x : Handler} (hlength : x.fileLen ≠ 0) (hknows : Knows cache x) :
    reported cache x.path = (.ok, x.fileLen) := by
  rw [Knows] at hknows
  rw [reported, ← hknows, if_neg hlength]

theorem handlerAnswer_header {g : Segment} {x : Handler} (hx : HandlerAnswer cache g x)
    {header : Status × Nat} (hheader : x.header = some header) : header = reported cache x.path := by
  cases hpc : x.pc with
  | pop | create => simp [HandlerAnswer, hpc, hheader] at hx
  | send | waitLength | readLength | header | sendNotFound => simp [HandlerAnswer, hpc, hheader] at hx
  | loop | waitReader | readData | postWriter | gfsSend | failed =>
      simp only [HandlerAnswer, hpc, hheader, Option.some.injEq] at hx
      rw [hx.1, knows_reported hx.2.1 hx.2.2]
  | unmap | enqueue =>
      simp only [HandlerAnswer, hpc, hheader] at hx
      split at hx
      · cases hx.1
      next hlength => rw [Option.some.inj hx.1, knows_reported hlength hx.2]
  | returned => simpa [HandlerAnswer, hpc, hheader] using hx

def Reaches (cache : String → Option Content) (garbage : Nat → Segment) (g : Segment) (x : Handler)
    (y : Worker) : Prop :=
  ∃ acts s, Run (step cache) anyStep (start 1 garbage : System Unit Unit) acts s ∧
    s.segments 0 = g ∧ s.handlers () = x ∧ s.workers () = y

section Reaches

variable {garbage : Nat → Segment} {g g' : Segment} {x x' : Handler} {y y' : Worker}

theorem Reaches.worker (hreach : Reaches cache garbage g x y) (hsegment : y.segment = 0)
    (hlocal : workerStep cache g y = some (g', y')) : Reaches cache garbage g' x y' := by
  obtain ⟨acts, s, hrun, rfl, rfl, rfl⟩ := hreach
  refine ⟨_, (s.setSegment 0 g').setWorker () y', hrun.next (a := .worker ()) trivial ?_, ?_, rfl, ?_⟩
  · have hbusy : (s.workers ()).pc ≠ .idle := by
      intro hidle
      simp [workerStep, hidle] at hlocal
    simp only [step, hsegment]
    split
    next hidle _ => exact absurd hidle hbusy
    · rw [hlocal]
      rfl
  · simp [System.setSegment, System.setWorker]
  · simp [System.setWorker]

theorem Reaches.handler (hreach : Reaches cache garbage g x y) (hsegment : x.segment = 0)
    (hlocal : handlerStep 0 g x = some (g', x')) : Reaches cache garbage g' x' y := by
  obtain ⟨acts, s, hrun, rfl, rfl, rfl⟩ := hreach
  refine ⟨_, (s.setSegment 0 g').setHandler () x', hrun.next (a := .handler () 0) trivial ?_, ?_, ?_, rfl⟩
  · simp only [step, hsegment]
    split
    next hpc => simp [handlerStep, hpc] at hlocal
    next hpc => simp [handlerStep, hpc] at hlocal
    next hpc => simp [handlerStep, hpc] at hlocal
    · rw [hlocal]
      rfl
  · simp [System.setSegment, System.setHandler]
  · simp [System.setHandler]

theorem Reaches.enqueue (hreach : Reaches cache garbage g x y) (hpc : x.pc = .enqueue)
    (hzero : x.fileLen = 0) : Reaches cache garbage g { x with pc := .sendNotFound } y := by
  obtain ⟨acts, s, hrun, rfl, rfl, rfl⟩ := hreach
  have hstep : step cache s (.handler () 0) = some { s.setHandler () { s.handlers () with
      pc := .sendNotFound } with pool := s.pool ++ [(s.handlers ()).segment] } := by
    simp only [step, hpc, if_pos hzero]
  exact ⟨_, _, hrun.next trivial hstep, rfl, by simp [System.setHandler], rfl⟩

def firstRequest (path : String) : List (Act Unit Unit) :=
  .request () path :: List.replicate 3 (.handler () 0) ++ .boss :: List.replicate 2 (.worker ())

theorem Reaches.header (hreach : Reaches cache garbage g { pc := .waitLength, path := path } y)
    (hposted : g.semSegment ≠ 0) : ∃ g x y, Reaches cache garbage g x y ∧ x.path = path ∧ x.header ≠ none := by
  have hwaited := hreach.handler rfl (by simp only [handlerStep, Segment.wait, if_neg hposted]; rfl)
  by_cases hzero : toUInt64 g.fileLength = 0
  · have hread := hwaited.handler rfl (by simp only [handlerStep, if_pos hzero]; rfl)
    have hsent := ((hread.handler rfl rfl).enqueue rfl hzero).handler rfl rfl
    exact ⟨_, _, _, hsent, rfl, by simp⟩
  · have hread := hwaited.handler rfl (by simp only [handlerStep, if_neg hzero]; rfl)
    have hsent := hread.handler rfl rfl
    exact ⟨_, _, _, hsent, rfl, by simp⟩

theorem reaches_header (cache : String → Option Content) (garbage : Nat → Segment) (path : String) :
    ∃ g x y, Reaches cache garbage g x y ∧ x.path = path ∧ x.header ≠ none := by
  have hasked : Reaches cache garbage (garbage 0).shmCreate.shmCreate { pc := .waitLength, path := path }
      { pc := .lookup, path := path } := by
    exact ⟨firstRequest path, _, run_iff_exec.mpr rfl, rfl, rfl, rfl⟩
  cases hfile : cache path with
  | none =>
      have hlookup := hasked.worker rfl (by simp only [workerStep, hfile]; rfl)
      exact ((hlookup.worker rfl rfl).worker rfl rfl).header (by simp [Segment.post])
  | some file =>
      have hlookup := hasked.worker rfl (by simp only [workerStep, hfile]; rfl)
      exact ((hlookup.worker rfl rfl).worker rfl rfl).header (by simp [Segment.post])

end Reaches

section Runs

variable [DecidableEq H] [DecidableEq W] {nsegments : Nat} {garbage : Nat → Segment}

theorem run_inv (hrun : Run (step cache) anyStep (start nsegments garbage) acts s) : Inv cache s :=
  hrun.stateInvariant (I := Inv cache) (start_inv nsegments garbage)
    (fun _ _ _ _ hinv _ hstep => step_inv hinv hstep)

theorem handlerStep_returned {result : Int} {g g' : Segment} {x x' : Handler}
    (hstep : handlerStep result g x = some (g', x')) (hpc : x'.pc = .returned) : x'.header ≠ none := by
  cases handlerStep_move hstep with
  | sendNotFound => simp
  | _ => cases hpc

theorem step_returned (hinv : Inv cache s) (hstep : step cache s a = some s')
    (hpc : (s'.handlers h).pc = .returned) (hheader : (s'.handlers h).header = none) :
    s'.handlers h = s.handlers h ∧ ∀ path, a ≠ .request h path := by
  have hmoved : ∀ h' x, (x.pc = .returned → x.header ≠ none) → s'.handlers = (s.setHandler h' x).handlers →
      s'.handlers h = s.handlers h ∧ h ≠ h' := by
    intro h' x hx hhandlers
    have hne : h ≠ h' := by
      rintro rfl
      rw [hhandlers] at hpc hheader
      simp only [System.setHandler, Function.update_self] at hpc hheader
      exact hx hpc hheader
    rw [hhandlers]
    exact ⟨Function.update_of_ne hne _ _, hne⟩
  cases step_move hstep with
  | @request h' path =>
      obtain ⟨hsame, hne⟩ := hmoved h' _ (by simp) rfl
      exact ⟨hsame, fun path' hact => hne (by cases hact; rfl)⟩
  | pop => exact ⟨(hmoved _ _ (by simp) rfl).1, by simp⟩
  | send => exact ⟨(hmoved _ _ (by simp) rfl).1, by simp⟩
  | @enqueue h' result hqueue =>
      have hsent := hinv.handlers h'
      simp only [HandlerAnswer, hqueue] at hsent
      refine ⟨(hmoved h' _ ?_ rfl).1, by simp⟩
      intro hback
      have hlength : (s.handlers h').fileLen ≠ 0 := by
        intro hzero
        simp [hzero] at hback
      rw [hsent.1, if_neg hlength]
      simp
  | handler hlocal => exact ⟨(hmoved _ _ (handlerStep_returned hlocal) rfl).1, by simp⟩
  | boss | take | worker => exact ⟨rfl, by simp⟩

/-- Only a handler that no request has reached is back without a header. -/
theorem run_complete (hrun : Run (step cache) anyStep (start nsegments garbage) acts s)
    (hpc : (s.handlers h).pc = .returned) (hheader : (s.handlers h).header = none) :
    ¬ ∃ path, .request h path ∈ acts := by
  have hall : Inv cache s ∧ ((s.handlers h).pc = .returned → (s.handlers h).header = none →
      ¬ ∃ path, .request h path ∈ acts) := by
    apply hrun.invariant (I := fun acts s => Inv cache s ∧ ((s.handlers h).pc = .returned →
      (s.handlers h).header = none → ¬ ∃ path, .request h path ∈ acts))
    · exact ⟨start_inv nsegments garbage, by simp⟩
    · rintro acts s a s' ⟨hinv, hbefore⟩ _ hstep
      refine ⟨step_inv hinv hstep, ?_⟩
      rintro hpc hheader ⟨path, hmem⟩
      obtain ⟨hsame, hother⟩ := step_returned hinv hstep hpc hheader
      rw [hsame] at hpc hheader
      rcases List.mem_append.mp hmem with hmem | hmem
      · exact hbefore hpc hheader ⟨path, hmem⟩
      · exact hother path (List.mem_singleton.mp hmem).symm
  exact hall.2 hpc hheader

end Runs

/-- In every run of any number of handlers and workers the header for a path is
true, exactly if the path is absent or its size is between 1 and `2 ^ 31 - 1`. -/
theorem headers_truthful_iff (cache : String → Option Content) (path : String)
    (hsize : ∀ file, cache path = some file → file.length < 2 ^ 63) :
    (∀ (H W : Type) [DecidableEq H] [DecidableEq W] (nsegments : Nat) (garbage : Nat → Segment)
        (acts : List (Act H W)) (s : System H W) (h : H),
        Run (step cache) anyStep (start nsegments garbage) acts s → (s.handlers h).path = path →
        Reports cache acts s h) ↔
      ∀ file, cache path = some file → 1 ≤ file.length ∧ file.length < 2 ^ 31 := by
  rw [← reported_truthful_iff hsize]
  constructor
  · intro hall
    obtain ⟨g, x, y, ⟨acts, s, hrun, -, hx, -⟩, hpath, hheader⟩ :=
      reaches_header cache (fun _ => ⟨0, 0, 0, 0, []⟩) path
    rw [← hx] at hpath hheader
    obtain ⟨header, hsent⟩ := Option.ne_none_iff_exists'.mp hheader
    have htrue := (hall Unit Unit 1 _ acts s () hrun hpath).truthful header hsent
    rw [handlerAnswer_header ((run_inv hrun).handlers ()) hsent, hpath] at htrue
    exact htrue
  · intro htrue H W _ _ nsegments garbage acts s h hrun hpath
    refine ⟨?_, fun hpc hrequest hheader => run_complete hrun hpc hheader hrequest⟩
    intro header hsent
    rw [handlerAnswer_header ((run_inv hrun).handlers h) hsent, hpath]
    exact htrue

theorem oneByte_headers :
    (∀ file, oneByte "f" = some file → 1 ≤ file.length ∧ file.length < 2 ^ 31) ∧
      ∀ (H W : Type) [DecidableEq H] [DecidableEq W] (nsegments : Nat) (garbage : Nat → Segment)
        (acts : List (Act H W)) (s : System H W) (h : H),
        Run (step oneByte) anyStep (start nsegments garbage) acts s → (s.handlers h).path = "f" →
        Reports oneByte acts s h := by
  have hlength : ∀ file, oneByte "f" = some file → 1 ≤ file.length ∧ file.length < 2 ^ 31 := by
    intro file hfile
    cases hfile
    decide
  refine ⟨hlength, (headers_truthful_iff oneByte "f" fun file hfile => ?_).mpr hlength⟩
  cases hfile
  decide

def emptyFile (path : String) : Option Content := if path = "f" then some [] else none

/-- A file without bytes is reported as not found. -/
theorem emptyFile_notFound : ¬ ∀ (cache : String → Option Content) (path : String),
    (∀ file, cache path = some file → file.length < 2 ^ 63) →
    ∀ (H W : Type) [DecidableEq H] [DecidableEq W] (nsegments : Nat) (garbage : Nat → Segment)
      (acts : List (Act H W)) (s : System H W) (h : H),
      Run (step cache) anyStep (start nsegments garbage) acts s → (s.handlers h).path = path →
      Reports cache acts s h := by
  intro hall
  obtain ⟨g, x, y, ⟨acts, s, hrun, -, hx, -⟩, hpath, hheader⟩ :=
    reaches_header emptyFile (fun _ => ⟨0, 0, 0, 0, []⟩) "f"
  rw [← hx] at hpath hheader
  obtain ⟨header, hsent⟩ := Option.ne_none_iff_exists'.mp hheader
  have htrue := (hall emptyFile "f" (fun file hfile => by cases hfile; decide) Unit Unit 1 _ acts s ()
    hrun hpath).truthful header hsent
  rw [handlerAnswer_header ((run_inv hrun).handlers ()) hsent, hpath] at htrue
  simp [Truthful, emptyFile, reported, answer, toInt32, toUInt64] at htrue

end GraduateOS.Shm.Headers
