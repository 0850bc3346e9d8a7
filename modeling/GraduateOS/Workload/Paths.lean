import GraduateOS.Library.Scanf
import GraduateOS.Library.Strtok
import Mathlib.Algebra.Group.Nat.Defs

namespace GraduateOS.Workload.Paths

open Library.CStrings Library.Scanf
open Library.Strtok (front front_text head_dropWhile)

abbrev Content := List UInt8

def maxPaths : Nat := 100

/-- `gWorkloadPathArray`, with the entries that hold a path; the others are NULL. -/
structure PathArray where
  paths : List CString
  room : paths.length ≤ maxPaths

/-- The assignment to an `unsigned short`. -/
def PathArray.unique (a : PathArray) : Nat := a.paths.length % 2 ^ 16

def PathArray.empty : PathArray := ⟨[], Nat.zero_le _⟩

/-- `gWorkloadPathArray[i++] = strdup(temp_buf)`, at the first entry that is still NULL. -/
def PathArray.store (a : PathArray) (path : CString) : Option PathArray :=
  if h : a.paths.length < maxPaths then
    some ⟨a.paths ++ [path], by rw [List.length_append]; exact h⟩
  else none

/-- `fscanf(file, "%s", temp_buf)`, which gives EOF when only white space is left. -/
def scanWord (file : Content) : Option (List UInt8 × Content) :=
  let text := file.dropWhile isspace
  if text = [] then none else some (text.takeWhile (!isspace ·), text.dropWhile (!isspace ·))

inductive Outcome
  | running
  | failure
  | undefined
  | success (a : PathArray)

/-- The reading loop. Neither the size of `temp_buf` nor that of the array is tested. -/
def readLoop : Nat → Content → PathArray → Outcome
  | 0, _, _ => .running
  | fuel + 1, file, a =>
      match scanWord file with
      | none => .success a
      | some (word, file) =>
          if word.length < 256 then
            match a.store (front word) with
            | none => .undefined
            | some a => readLoop fuel file a
          else .undefined

/-- `workload_init`, from the content of the file if there is one. -/
def workloadInit : Option Content → Outcome
  | none => .failure
  | some file => readLoop (file.length + 1) file .empty

/-- The array after the initialisation. Once it was overrun, nothing is known of it. -/
def Outcome.array : Outcome → Option PathArray
  | .success a => some a
  | .failure => some .empty
  | _ => none

def tokens (file : Content) : List (List UInt8) := (file.splitOnP isspace).filter (· ≠ [])

structure WorkloadFile where
  content : Content
  ne : tokens content ≠ []
  short : ∀ t ∈ tokens content, t.length < 256

variable {file rest word : Content} {c : UInt8} {fuel : Nat} {a : PathArray}

theorem tokens_space (hc : isspace c = true) (file : Content) : tokens (c :: file) = tokens file := by
  rw [tokens, List.splitOnP_cons_eq_if_modifyHead, if_pos hc]
  rfl

theorem tokens_skip (file : Content) : tokens file = tokens (file.dropWhile isspace) := by
  induction file with
  | nil => rfl
  | cons c file ih =>
      by_cases hc : isspace c = true
      · rw [tokens_space hc, ih, List.dropWhile_cons_of_pos hc]
      · rw [List.dropWhile_cons_of_neg hc]

theorem tokens_word (hw : NoSpace word) (hne : word ≠ []) (hr : ∀ c ∈ rest.head?, isspace c = true) :
    tokens (word ++ rest) = word :: tokens rest := by
  cases rest with
  | nil =>
      rw [List.append_nil, tokens, List.splitOnP_eq_singleton hw]
      simp [hne, tokens]
  | cons c rest =>
      have hc := hr c rfl
      rw [tokens_space hc, tokens, List.splitOnP_append_cons_of_forall_mem hw c hc, List.filter_cons_of_pos (by simpa using hne)]
      rfl

theorem tokens_blanks (words : List (List UInt8)) (h : ∀ w ∈ words, NoSpace w ∧ w ≠ []) :
    tokens (words.flatMap (· ++ [32])) = words := by
  induction words with
  | nil => rfl
  | cons w words ih =>
      obtain ⟨hw, hne⟩ := h w List.mem_cons_self
      rw [List.flatMap_cons, List.append_assoc, tokens_word hw hne (by simp [isspace]), List.singleton_append,
        tokens_space rfl, ih fun w hw => h w (List.mem_cons_of_mem _ hw)]

theorem scanWord_none (h : scanWord file = none) : tokens file = [] := by
  rw [scanWord] at h
  split at h
  next hend => rw [tokens_skip, hend]; rfl
  next => cases h

theorem head_rest (text : Content) : ∀ c ∈ (text.dropWhile (!isspace ·)).head?, isspace c = true := by
  intro c hc
  cases h : text.dropWhile (!isspace ·) with
  | nil => rw [h] at hc; cases hc
  | cons d rest =>
      rw [h] at hc
      cases hc
      simpa using head_dropWhile h

theorem scanWord_some (h : scanWord file = some (word, rest)) :
    tokens file = word :: tokens rest ∧ rest.length < file.length := by
  rw [scanWord] at h
  split at h
  next => cases h
  next hne =>
    cases h
    obtain ⟨c, text, htext⟩ := List.exists_cons_of_ne_nil hne
    have hc : isspace c = false := head_dropWhile htext
    have hword : (file.dropWhile isspace).takeWhile (!isspace ·) ≠ [] := by
      rw [htext, List.takeWhile_cons_of_pos (by simp [hc])]
      exact List.cons_ne_nil c _
    have hspace : NoSpace ((file.dropWhile isspace).takeWhile (!isspace ·)) :=
      fun d hd => by simpa using List.mem_takeWhile_imp hd
    have hsplit := List.takeWhile_append_dropWhile (p := (!isspace ·)) (l := file.dropWhile isspace)
    constructor
    · rw [tokens_skip, ← hsplit, tokens_word hspace hword (head_rest _), hsplit]
    · have hlen := congrArg List.length hsplit
      have hle := (List.dropWhile_sublist isspace (l := file)).length_le
      have hpos := List.length_pos_iff.mpr hword
      rw [List.length_append] at hlen
      omega

def PathArray.storeAll (a : PathArray) (words : List (List UInt8)) : Option PathArray :=
  words.foldlM (fun a word => a.store (front word)) a

theorem readLoop_tokens (hshort : ∀ t ∈ tokens file, t.length < 256) (hfuel : file.length < fuel) (a : PathArray) :
    readLoop fuel file a = match a.storeAll (tokens file) with
      | none => .undefined
      | some a => .success a := by
  induction fuel generalizing file a with
  | zero => omega
  | succ fuel ih =>
      rw [readLoop]
      split
      next hscan => rw [scanWord_none hscan]; rfl
      next word rest hscan =>
        obtain ⟨htokens, hlen⟩ := scanWord_some hscan
        rw [htokens] at hshort ⊢
        rw [if_pos (hshort word List.mem_cons_self), PathArray.storeAll, List.foldlM_cons]
        cases hstore : a.store (front word) with
        | none => rfl
        | some b => exact ih (fun t ht => hshort t (List.mem_cons_of_mem _ ht)) (by omega) b

theorem storeAll_room (words : List (List UInt8)) (a : PathArray) (h : a.paths.length + words.length ≤ maxPaths) :
    ∃ b, a.storeAll words = some b ∧ b.paths = a.paths ++ words.map front := by
  induction words generalizing a with
  | nil => exact ⟨a, rfl, (List.append_nil _).symm⟩
  | cons word words ih =>
      rw [List.length_cons] at h
      have hroom : a.paths.length < maxPaths := by omega
      obtain ⟨b, hb, hpaths⟩ := ih ⟨a.paths ++ [front word], by rw [List.length_append]; exact hroom⟩
        (by rw [List.length_append, List.length_singleton]; omega)
      refine ⟨b, ?_, ?_⟩
      · rw [PathArray.storeAll, List.foldlM_cons, PathArray.store, dif_pos hroom]
        exact hb
      · rw [hpaths, List.append_assoc]
        rfl

theorem storeAll_empty {words : List (List UInt8)} (h : words.length ≤ maxPaths) :
    ∃ b, PathArray.empty.storeAll words = some b ∧ b.paths = words.map front :=
  storeAll_room words .empty (by rwa [PathArray.empty, List.length_nil, Nat.zero_add])

theorem storeAll_length {words : List (List UInt8)} {b : PathArray} (h : a.storeAll words = some b) :
    b.paths.length = a.paths.length + words.length := by
  induction words generalizing a with
  | nil => cases h; rfl
  | cons word words ih =>
      rw [PathArray.storeAll, List.foldlM_cons, PathArray.store] at h
      split at h
      next hroom =>
        rw [ih h]
        simp only [List.length_append, List.length_cons, List.length_nil]
        omega
      next => cases h

theorem PathArray.eq_of_paths {b : PathArray} (h : b.paths = a.paths) : b = a := by
  cases a
  cases b
  simpa using h

/-- The words of a file find their places exactly if they are at most a hundred. -/
theorem workloadInit_iff (f : WorkloadFile) (a : PathArray) : workloadInit (some f.content) = .success a ↔
    (tokens f.content).length ≤ maxPaths ∧ a.paths = (tokens f.content).map front := by
  rw [workloadInit, readLoop_tokens f.short (Nat.lt_succ_self _)]
  constructor
  · intro h
    cases hall : PathArray.empty.storeAll (tokens f.content) with
    | none => rw [hall] at h; cases h
    | some b =>
        rw [hall] at h
        cases h
        have hlen := storeAll_length hall
        rw [PathArray.empty, List.length_nil, Nat.zero_add] at hlen
        have hfew : (tokens f.content).length ≤ maxPaths := hlen ▸ a.room
        obtain ⟨b, hb, hpaths⟩ := storeAll_empty hfew
        rw [hall] at hb
        cases hb
        exact ⟨hfew, hpaths⟩
  · rintro ⟨hfew, hpaths⟩
    obtain ⟨b, hb, hb'⟩ := storeAll_empty hfew
    rw [hb]
    exact congrArg Outcome.success (PathArray.eq_of_paths (hb'.trans hpaths.symm))

end GraduateOS.Workload.Paths
