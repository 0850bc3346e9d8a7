import GraduateOS.Library.MachineInts
import GraduateOS.Library.Runs
import GraduateOS.Workload.Paths

namespace GraduateOS.Workload.Calls

open Library.CStrings Library.MachineInts Library.Runs Paths
open Library.Strtok (front front_text)

/-- A call of `workload_get_path` that has its `entry`. Its ticket, the number
of fetch-and-adds before its own, is not part of the code. -/
structure Call where
  ticket : Nat
  entry : Int

/-- A call that has returned. There is no index after a division by zero, and
no path outside the array or at an entry that is NULL. -/
structure Return where
  ticket : Nat
  index : Option Int
  path : Option CString

structure State (T : Type) where
  counter : Int
  calls : Nat
  pending : T → Option Call
  returned : List Return

inductive Act (T : Type)
  | fetch (t : T)
  | load (t : T)

/-- `gWorkloadPathArray[entry % gUniqueWorkloadPaths]`, if the array is known. The mode is always `WORKLOAD_SEQ`. -/
def Call.load (c : Call) : Option PathArray → Return
  | none => ⟨c.ticket, none, none⟩
  | some a =>
      if a.unique = 0 then ⟨c.ticket, none, none⟩
      else
        let i := c.entry.tmod a.unique
        ⟨c.ticket, some i, if 0 ≤ i then a.paths[i.toNat]? else none⟩

variable {T : Type} [DecidableEq T]

/-- The counter is an `int`, which wraps. -/
def step (a : Option PathArray) (s : State T) : Act T → Option (State T)
  | .fetch t =>
      match s.pending t with
      | some _ => none
      | none => some ⟨toInt32 (s.counter + 1), s.calls + 1,
          Function.update s.pending t (some ⟨s.calls, s.counter⟩), s.returned⟩
  | .load t =>
      (s.pending t).map fun c =>
        ⟨s.counter, s.calls, Function.update s.pending t none, s.returned ++ [c.load a]⟩

def State.start : State T := ⟨0, 0, fun _ => none, []⟩

def Act.isFetch : Act T → Bool
  | .fetch _ => true
  | .load _ => false

def fetches (acts : List (Act T)) : Nat := acts.countP Act.isFetch

def State.tickets (s : State T) : List Nat := s.returned.map Return.ticket

def Right (f : WorkloadFile) (r : Return) : Prop :=
  ∃ i : Nat, i < (tokens f.content).length ∧ r.index = some (i : Int) ∧
    ∃ path, r.path = some path ∧ (tokens f.content)[r.ticket % (tokens f.content).length]? = some path.text

structure RoundRobin (f : WorkloadFile) (acts : List (Act T)) (s : State T) : Prop where
  stored : ∃ a, workloadInit (some f.content) = .success a
  calls : s.tickets.Perm (List.range (fetches acts))
  right : ∀ r ∈ s.returned, Right f r

structure InTurn (f : WorkloadFile) (calls : Nat) : Prop where
  few : (tokens f.content).length ≤ maxPaths
  turn : (tokens f.content).length = 1 ∨ calls ≤ 2 ^ 31 ∨
    calls = 2 ^ 31 + 1 ∧ (tokens f.content).length ∣ 2 ^ 31
  text : ∀ t ∈ (tokens f.content).take calls, 0 ∉ t

structure Invariant (a : Option PathArray) (acts : List (Act T)) (s : State T) : Prop where
  calls : s.calls = fetches acts
  counter : s.counter = toInt32 s.calls
  entries : ∀ t c, s.pending t = some c → c.ticket < s.calls ∧ c.entry = toInt32 c.ticket
  distinct : ∀ t t' c c', s.pending t = some c → s.pending t' = some c' → c.ticket = c'.ticket → t = t'
  unreturned : ∀ t c, s.pending t = some c → c.ticket ∉ s.tickets
  nodup : s.tickets.Nodup
  returned : ∀ k ∈ s.tickets, k < s.calls
  every : ∀ k < s.calls, (∃ t c, s.pending t = some c ∧ c.ticket = k) ∨ k ∈ s.tickets
  loads : ∀ r ∈ s.returned, r = Call.load ⟨r.ticket, toInt32 r.ticket⟩ a

variable {a : Option PathArray} {s s' : State T} {acts : List (Act T)} {t t' : T} {c c' : Call} {f : WorkloadFile}

omit [DecidableEq T] in
theorem invariant_start (a : Option PathArray) : Invariant a [] (State.start : State T) := by
  constructor <;> simp [State.start, State.tickets, fetches, toInt32]

theorem toInt32_succ (n : Nat) : toInt32 (toInt32 n + 1) = toInt32 (n + 1 : Nat) := by
  rw [toInt32, toInt32, toInt32, Int.bmod_add_bmod]
  rfl

theorem load_ticket (c : Call) (a : Option PathArray) : (c.load a).ticket = c.ticket := by
  unfold Call.load
  split
  · rfl
  · split <;> rfl

omit [DecidableEq T] in
theorem fetches_snoc (acts : List (Act T)) (act : Act T) :
    fetches (acts ++ [act]) = fetches acts + if act.isFetch then 1 else 0 := by
  rw [fetches, List.countP_append, List.countP_singleton]
  rfl

theorem update_some {p : T → Option Call} (h : Function.update p t (some c) t' = some c') :
    t' = t ∧ c' = c ∨ t' ≠ t ∧ p t' = some c' := by
  by_cases ht : t' = t
  · subst ht
    rw [Function.update_self] at h
    exact .inl ⟨rfl, (Option.some.inj h).symm⟩
  · rw [Function.update_of_ne ht] at h
    exact .inr ⟨ht, h⟩

theorem update_none {p : T → Option Call} (h : Function.update p t none t' = some c') :
    t' ≠ t ∧ p t' = some c' := by
  by_cases ht : t' = t
  · subst ht
    rw [Function.update_self] at h
    cases h
  · rw [Function.update_of_ne ht] at h
    exact ⟨ht, h⟩

theorem Invariant.fetch (hi : Invariant a acts s) (ht : s.pending t = none) :
    Invariant a (acts ++ [.fetch t]) ⟨toInt32 (s.counter + 1), s.calls + 1,
      Function.update s.pending t (some ⟨s.calls, s.counter⟩), s.returned⟩ := by
  constructor
  · rw [fetches_snoc, ← hi.calls]
    rfl
  · rw [hi.counter, toInt32_succ]
  · intro t' c' hc
    rcases update_some hc with ⟨-, rfl⟩ | ⟨-, hold⟩
    · exact ⟨Nat.lt_succ_self _, hi.counter⟩
    · exact ⟨Nat.lt_succ_of_lt (hi.entries t' c' hold).1, (hi.entries t' c' hold).2⟩
  · intro t₁ t₂ c₁ c₂ h₁ h₂ heq
    rcases update_some h₁ with ⟨rfl, rfl⟩ | ⟨-, hold₁⟩
    · rcases update_some h₂ with ⟨rfl, -⟩ | ⟨-, hold₂⟩
      · rfl
      · exact absurd heq (Nat.ne_of_gt (hi.entries t₂ c₂ hold₂).1)
    · rcases update_some h₂ with ⟨rfl, rfl⟩ | ⟨-, hold₂⟩
      · exact absurd heq (Nat.ne_of_lt (hi.entries t₁ c₁ hold₁).1)
      · exact hi.distinct t₁ t₂ c₁ c₂ hold₁ hold₂ heq
  · intro t' c' hc
    rcases update_some hc with ⟨-, rfl⟩ | ⟨-, hold⟩
    · exact fun hmem => Nat.lt_irrefl _ (hi.returned _ hmem)
    · exact hi.unreturned t' c' hold
  · exact hi.nodup
  · exact fun k hk => Nat.lt_succ_of_lt (hi.returned k hk)
  · intro k hk
    rcases Nat.lt_succ_iff_lt_or_eq.mp hk with hlt | rfl
    · rcases hi.every k hlt with ⟨t', c', hc, rfl⟩ | hmem
      · have hne : t' ≠ t := fun h => by rw [h, ht] at hc; cases hc
        exact .inl ⟨t', c', (Function.update_of_ne hne _ _).trans hc, rfl⟩
      · exact .inr hmem
    · exact .inl ⟨t, _, Function.update_self .., rfl⟩
  · exact hi.loads

theorem Invariant.load (hi : Invariant a acts s) (hc : s.pending t = some c) :
    Invariant a (acts ++ [.load t])
      ⟨s.counter, s.calls, Function.update s.pending t none, s.returned ++ [c.load a]⟩ := by
  have htickets : (s.returned ++ [c.load a]).map Return.ticket = s.tickets ++ [c.ticket] := by
    rw [List.map_append, List.map_singleton, load_ticket]
    rfl
  constructor
  · rw [fetches_snoc, ← hi.calls]
    rfl
  · exact hi.counter
  · exact fun t' c' hc' => hi.entries t' c' (update_none hc').2
  · exact fun t₁ t₂ c₁ c₂ h₁ h₂ => hi.distinct t₁ t₂ c₁ c₂ (update_none h₁).2 (update_none h₂).2
  · intro t' c' hc'
    obtain ⟨hne, hold⟩ := update_none hc'
    rw [State.tickets, htickets, List.mem_append, List.mem_singleton, not_or]
    exact ⟨hi.unreturned t' c' hold, fun heq => hne (hi.distinct t' t c' c hold hc heq)⟩
  · rw [State.tickets, htickets, (List.perm_append_singleton _ _).nodup_iff, List.nodup_cons]
    exact ⟨hi.unreturned t c hc, hi.nodup⟩
  · intro k hk
    rw [State.tickets, htickets, List.mem_append, List.mem_singleton] at hk
    rcases hk with hk | rfl
    · exact hi.returned k hk
    · exact (hi.entries t c hc).1
  · intro k hk
    rw [State.tickets, htickets, List.mem_append, List.mem_singleton]
    rcases hi.every k hk with ⟨t', c', hc', rfl⟩ | hmem
    · by_cases ht : t' = t
      · subst ht
        rw [hc] at hc'
        cases hc'
        exact .inr (.inr rfl)
      · exact .inl ⟨t', c', (Function.update_of_ne ht _ _).trans hc', rfl⟩
    · exact .inr (.inl hmem)
  · intro r hr
    rcases List.mem_append.mp hr with hr | hr
    · exact hi.loads r hr
    · cases List.mem_singleton.mp hr
      rw [load_ticket, ← (hi.entries t c hc).2]

theorem run_invariant (h : Run (step a) anyStep State.start acts s) : Invariant a acts s := by
  apply h.invariant (I := Invariant a) (invariant_start a)
  intro acts s act s' hi _ hstep
  cases act with
  | fetch t =>
      rw [step] at hstep
      split at hstep
      next => cases hstep
      next ht => cases hstep; exact hi.fetch ht
  | load t =>
      obtain ⟨c, hc, rfl⟩ := Option.map_eq_some_iff.mp hstep
      exact hi.load hc

omit [DecidableEq T] in
/-- When all calls have returned, they have taken the tickets from 0 on. -/
theorem tickets_perm (hi : Invariant a acts s) (hdone : ∀ t, s.pending t = none) :
    s.tickets.Perm (List.range (fetches acts)) := by
  rw [List.perm_ext_iff_of_nodup hi.nodup List.nodup_range]
  intro k
  rw [List.mem_range, ← hi.calls]
  constructor
  · exact hi.returned k
  · intro hk
    rcases hi.every k hk with ⟨t, c, hc, -⟩ | hmem
    · rw [hdone t] at hc
      cases hc
    · exact hmem

variable {m k : Nat} {entry : Int}

theorem turn_low (hk : k < 2 ^ 31) (m : Nat) : (toInt32 k).tmod m = (k % m : Nat) := by
  rw [toInt32_eq (by omega) (by omega), Int.tmod_eq_emod_of_nonneg (Int.natCast_nonneg k), Int.natCast_emod]

/-- The first entry that is negative. -/
theorem turn_half (hm : m ∣ 2 ^ 31) : (toInt32 (2 ^ 31 : Nat)).tmod m = (2 ^ 31 % m : Nat) := by
  have hentry : toInt32 (2 ^ 31 : Nat) = -(2 ^ 31 : Nat) := by decide
  rw [hentry, Int.neg_tmod, Int.tmod_eq_zero_of_dvd (Int.natCast_dvd_natCast.mpr hm), Nat.mod_eq_zero_of_dvd hm]
  rfl

/-- A negative entry gives an index only at the multiples of `m`. -/
theorem dvd_of_index {n : Nat} (h : 0 ≤ (-(n : Int)).tmod m) : m ∣ n := by
  rw [Int.neg_tmod, Int.tmod_eq_emod_of_nonneg (Int.natCast_nonneg n), ← Int.natCast_emod] at h
  exact Nat.dvd_of_mod_eq_zero (by omega)

theorem calls_iff (n : Nat) : (∀ k < n, 0 ≤ (toInt32 k).tmod m) ↔ m = 1 ∨ n ≤ 2 ^ 31 ∨ n = 2 ^ 31 + 1 ∧ m ∣ 2 ^ 31 := by
  constructor
  · intro h
    by_cases hn : n ≤ 2 ^ 31
    · exact .inr (.inl hn)
    · have hfirst : m ∣ 2 ^ 31 := by
        apply dvd_of_index
        rw [← show toInt32 (2 ^ 31 : Nat) = -(2 ^ 31 : Nat) by decide]
        exact h (2 ^ 31) (by omega)
      by_cases hmore : n = 2 ^ 31 + 1
      · exact .inr (.inr ⟨hmore, hfirst⟩)
      · have hsecond : m ∣ 2 ^ 31 - 1 := by
          apply dvd_of_index
          rw [← show toInt32 (2 ^ 31 + 1 : Nat) = -(2 ^ 31 - 1 : Nat) by decide]
          exact h (2 ^ 31 + 1) (by omega)
        exact .inl (Nat.dvd_one.mp ((Nat.dvd_sub hfirst hsecond)))
  · rintro (rfl | hn | ⟨rfl, hm⟩) k hk
    · have hzero : (toInt32 k).tmod (1 : Nat) = 0 := by rw [Int.natCast_one, Int.tmod_one]
      exact Int.le_of_eq hzero.symm
    · rw [turn_low (by omega)]
      exact Int.natCast_nonneg _
    · rcases Nat.lt_succ_iff_lt_or_eq.mp hk with hlt | rfl
      · rw [turn_low hlt]
        exact Int.natCast_nonneg _
      · rw [turn_half hm]
        exact Int.natCast_nonneg _

theorem index_of_calls {n : Nat} (h : m = 1 ∨ n ≤ 2 ^ 31 ∨ n = 2 ^ 31 + 1 ∧ m ∣ 2 ^ 31) (hk : k < n) :
    (toInt32 k).tmod m = (k % m : Nat) := by
  rcases h with rfl | hn | ⟨rfl, hm⟩
  · rw [Int.natCast_one, Int.tmod_one, Nat.mod_one]
    rfl
  · exact turn_low (by omega) m
  · rcases Nat.lt_succ_iff_lt_or_eq.mp hk with hlt | rfl
    · exact turn_low hlt m
    · exact turn_half hm

def stored (f : WorkloadFile) (h : (tokens f.content).length ≤ maxPaths) : PathArray :=
  ⟨(tokens f.content).map front, by rwa [List.length_map]⟩

theorem stored_success (f : WorkloadFile) (h : (tokens f.content).length ≤ maxPaths) :
    workloadInit (some f.content) = .success (stored f h) :=
  (workloadInit_iff f _).mpr ⟨h, rfl⟩

theorem stored_unique (f : WorkloadFile) (h : (tokens f.content).length ≤ maxPaths) :
    (stored f h).unique = (tokens f.content).length ∧ 0 < (tokens f.content).length := by
  refine ⟨?_, List.length_pos_iff.mpr f.ne⟩
  rw [PathArray.unique, stored, List.length_map, Nat.mod_eq_of_lt]
  exact lt_of_le_of_lt h (by decide)

theorem load_stored (f : WorkloadFile) (h : (tokens f.content).length ≤ maxPaths) (k : Nat) (entry : Int) :
    Call.load ⟨k, entry⟩ (some (stored f h)) = ⟨k, some (entry.tmod (tokens f.content).length),
      if 0 ≤ entry.tmod (tokens f.content).length then
        ((tokens f.content).map front)[(entry.tmod (tokens f.content).length).toNat]?
      else none⟩ := by
  obtain ⟨hunique, hpos⟩ := stored_unique f h
  simp only [Call.load, hunique, if_neg (Nat.ne_of_gt hpos)]
  rfl

theorem index_of_right (h : (tokens f.content).length ≤ maxPaths)
    (hr : Right f (Call.load ⟨k, entry⟩ (some (stored f h)))) : 0 ≤ entry.tmod (tokens f.content).length := by
  obtain ⟨i, -, hindex, -⟩ := hr
  rw [load_stored] at hindex
  rw [Option.some.inj hindex]
  exact Int.natCast_nonneg i

theorem text_of_right {r : Return} {word : List UInt8} (hr : Right f r)
    (hword : (tokens f.content)[r.ticket % (tokens f.content).length]? = some word) : 0 ∉ word := by
  obtain ⟨-, -, -, path, -, hpath⟩ := hr
  rw [hword] at hpath
  cases hpath
  exact path.nul

theorem right_of_turn (h : (tokens f.content).length ≤ maxPaths)
    (hturn : entry.tmod (tokens f.content).length = (k % (tokens f.content).length : Nat))
    (htext : ∀ word, (tokens f.content)[k % (tokens f.content).length]? = some word → 0 ∉ word) :
    Right f (Call.load ⟨k, entry⟩ (some (stored f h))) := by
  obtain ⟨-, hpos⟩ := stored_unique f h
  have hlt := Nat.mod_lt k hpos
  have hget := List.getElem?_eq_getElem hlt
  rw [load_stored, hturn, if_pos (Int.natCast_nonneg _), Int.toNat_natCast, List.getElem?_map, hget, Option.map_some]
  refine ⟨_, hlt, rfl, _, rfl, ?_⟩
  rw [front_text (htext _ hget)]
  exact hget

theorem text_iff {words : List (List UInt8)} (n : Nat) : (∀ t ∈ words.take n, 0 ∉ t) ↔
    ∀ k < n, ∀ word, words[k % words.length]? = some word → 0 ∉ word := by
  constructor
  · intro h k hk word hword
    apply h
    have hle := Nat.mod_le k words.length
    rw [List.mem_iff_getElem?]
    exact ⟨k % words.length, by rw [List.getElem?_take_of_lt (by omega), hword]⟩
  · intro h t ht
    obtain ⟨j, hj⟩ := List.mem_iff_getElem?.mp ht
    obtain ⟨hlt, -⟩ := List.getElem?_eq_some_iff.mp hj
    rw [List.length_take] at hlt
    rw [List.getElem?_take_of_lt (by omega)] at hj
    exact h j (by omega) t (by rwa [Nat.mod_eq_of_lt (by omega)])

/-- In every complete run, by any interleaving, the calls go round the words
of the file exactly if the words and the calls are few enough. -/
theorem roundRobin_iff (f : WorkloadFile)
    (h : Run (step (workloadInit (some f.content)).array) anyStep State.start acts s)
    (hdone : ∀ t, s.pending t = none) : RoundRobin f acts s ↔ InTurn f (fetches acts) := by
  have hi := run_invariant h
  have hperm := tickets_perm hi hdone
  constructor
  · rintro ⟨⟨a, ha⟩, -, hright⟩
    obtain ⟨hfew, -⟩ := (workloadInit_iff f a).mp ha
    have hcall : ∀ k < fetches acts, Right f (Call.load ⟨k, toInt32 k⟩ (some (stored f hfew))) := by
      intro k hk
      obtain ⟨r, hr, rfl⟩ := List.mem_map.mp (hperm.mem_iff.mpr (List.mem_range.mpr hk))
      have hload := hi.loads r hr
      rw [stored_success f hfew, Outcome.array] at hload
      rw [← hload]
      exact hright r hr
    constructor
    · exact hfew
    · exact (calls_iff _).mp fun k hk => index_of_right hfew (hcall k hk)
    · refine (text_iff _).mpr fun k hk word hword => text_of_right (hcall k hk) ?_
      rwa [load_ticket]
  · rintro ⟨hfew, hturn, htext⟩
    refine ⟨⟨_, stored_success f hfew⟩, hperm, fun r hr => ?_⟩
    have hk : r.ticket < fetches acts := List.mem_range.mp (hperm.mem_iff.mp (List.mem_map_of_mem hr))
    rw [hi.loads r hr, stored_success f hfew, Outcome.array]
    exact right_of_turn hfew (index_of_calls hturn hk) ((text_iff _).mp htext _ hk)


def twoWords : WorkloadFile := ⟨[97, 32, 98], by decide, by decide⟩

def threeCalls : List (Act Bool) :=
  [.fetch false, .fetch true, .load true, .load false, .fetch true, .load true]

theorem threeCalls_roundRobin : ∃ s : State Bool,
    exec (step (workloadInit (some twoWords.content)).array) anyStep .start threeCalls = some s ∧
      s.tickets = [1, 0, 2] ∧ RoundRobin twoWords threeCalls s :=
  ⟨_, rfl, rfl, (roundRobin_iff twoWords (run_iff_exec.mpr rfl) (fun t => by cases t <;> rfl)).mpr
    ⟨by decide, .inr (.inl (by decide)), by decide⟩⟩

/-- A hundred and one words `a`. -/
def manyContent : Content := (List.replicate 101 [97]).flatMap (· ++ [32])

theorem tokens_many : tokens manyContent = List.replicate 101 [97] :=
  tokens_blanks _ fun w hw => (List.mem_replicate.mp hw).2 ▸ by decide

def manyWords : WorkloadFile := ⟨manyContent, by rw [tokens_many]; decide, by rw [tokens_many]; decide⟩

/-- One word more than the array has entries. -/
theorem manyWords_overrun : ¬ ∀ (f : WorkloadFile) (acts : List (Act Unit)) (s : State Unit),
    Run (step (workloadInit (some f.content)).array) anyStep State.start acts s →
      (∀ t, s.pending t = none) → RoundRobin f acts s := by
  intro hall
  obtain ⟨a, ha⟩ := (hall manyWords [] .start .start fun _ => rfl).stored
  have hfew := ((workloadInit_iff manyWords a).mp ha).1
  have hmany : (tokens manyWords.content).length = 101 := by
    rw [manyWords, tokens_many, List.length_replicate]
  rw [hmany] at hfew
  exact absurd hfew (by decide)

end GraduateOS.Workload.Calls
