import Mathlib.Data.List.Pairwise
import Mathlib.Logic.Function.Basic
import Mathlib.Order.Lattice

namespace GraduateOS.Library.Exchanges

structure Version (V T : Type) where
  value : V
  time : T

structure Star (C V T : Type) where
  hub : Version V T
  spokes : C → Option (Version V T)

variable {C V T : Type}

theorem Star.ext {s s' : Star C V T} (hhub : s.hub = s'.hub) (hspokes : ∀ c, s.spokes c = s'.spokes c) :
    s = s' := by
  obtain ⟨hub, spokes⟩ := s
  obtain ⟨hub', spokes'⟩ := s'
  obtain rfl : hub = hub' := hhub
  obtain rfl : spokes = spokes' := funext hspokes
  rfl

structure Bounded [LE T] (s : Star C V T) (t : T) : Prop where
  hub : s.hub.time ≤ t
  spokes : ∀ c v, s.spokes c = some v → v.time ≤ t

def Ordered [LT T] (t : T) (es : List (C × T)) : Prop := es.Pairwise (fun e e' => e.2 < e'.2) ∧ ∀ e ∈ es, t < e.2

structure Among (P : V → Prop) (s : Star C V T) : Prop where
  hub : P s.hub.value
  spokes : ∀ c v, s.spokes c = some v → P v.value

def Agrees (s : Star C V T) (c : C) : Prop := (s.spokes c).map Version.value = some s.hub.value

section

variable [DecidableEq C]

def Star.setSpoke (s : Star C V T) (c : C) (v : Version V T) : Star C V T :=
  { s with spokes := Function.update s.spokes c (some v) }

@[simp] theorem setSpoke_hub (s : Star C V T) (c : C) (v : Version V T) : (s.setSpoke c v).hub = s.hub := rfl

@[simp] theorem setSpoke_self (s : Star C V T) (c : C) (v : Version V T) : (s.setSpoke c v).spokes c = some v :=
  Function.update_self c _ s.spokes

theorem setSpoke_ne (s : Star C V T) {c c' : C} (v : Version V T) (hc : c' ≠ c) :
    (s.setSpoke c v).spokes c' = s.spokes c' := Function.update_of_ne hc _ _

end

variable [DecidableEq V] [LinearOrder T]

/-- The value that a spoke would give to the hub: a different one, and not older. -/
def challenge (s : Star C V T) (c : C) : Option V :=
  (s.spokes c).bind fun v => if v.value ≠ s.hub.value ∧ s.hub.time ≤ v.time then some v.value else none

/-- Spoke and hub compare their copies. The later one replaces the other one, and
that of the spoke when they are equally old; the new copy is as old as the exchange. -/
def exchange [DecidableEq C] (s : Star C V T) (e : C × T) : Star C V T :=
  match s.spokes e.1 with
  | none => s.setSpoke e.1 ⟨s.hub.value, e.2⟩
  | some v =>
      if v.value = s.hub.value then s
      else if v.time < s.hub.time then s.setSpoke e.1 ⟨s.hub.value, e.2⟩
      else { s with hub := ⟨v.value, e.2⟩ }

variable {s : Star C V T} {t : T} {c : C} {v : V} {e : C × T} {es : List (C × T)}

theorem Ordered.cons (h : Ordered t (e :: es)) : t < e.2 ∧ Ordered e.2 es := by
  obtain ⟨hpairwise, hafter⟩ := h
  obtain ⟨hhead, htail⟩ := List.pairwise_cons.mp hpairwise
  exact ⟨hafter e List.mem_cons_self, htail, hhead⟩

theorem Ordered.append {t' : T} {es' : List (C × T)} (h : Ordered t es) (hbefore : ∀ e ∈ es, e.2 ≤ t')
    (ht : t ≤ t') (h' : Ordered t' es') : Ordered t (es ++ es') := by
  constructor
  · refine List.pairwise_append.mpr ⟨h.1, h'.1, fun e he e' he' => ?_⟩
    exact lt_of_le_of_lt (hbefore e he) (h'.2 e' he')
  · intro e he
    rcases List.mem_append.mp he with he | he
    · exact h.2 e he
    · exact lt_of_le_of_lt ht (h'.2 e he)

theorem challenge_some : challenge s c = some v ↔
    ∃ own, s.spokes c = some own ∧ own.value = v ∧ own.value ≠ s.hub.value ∧ s.hub.time ≤ own.time := by
  rw [challenge, Option.bind_eq_some_iff]
  refine exists_congr fun own => and_congr_right fun _ => ?_
  by_cases hown : own.value ≠ s.hub.value ∧ s.hub.time ≤ own.time
  · simp [hown]
  · rw [if_neg hown]
    exact iff_of_false nofun (fun h => hown h.2)

theorem challenge_none : challenge s c = none ↔
    ∀ own, s.spokes c = some own → own.value = s.hub.value ∨ own.time < s.hub.time := by
  rw [Option.eq_none_iff_forall_ne_some]
  constructor
  · intro h own hown
    by_contra hnot
    obtain ⟨hvalue, htime⟩ := not_or.mp hnot
    exact h own.value (challenge_some.mpr ⟨own, hown, rfl, hvalue, not_lt.mp htime⟩)
  · intro h v hv
    obtain ⟨own, hown, -, hvalue, htime⟩ := challenge_some.mp hv
    rcases h own hown with hsame | holder
    · exact hvalue hsame
    · exact absurd holder (not_lt.mpr htime)

theorem Agrees.challenge_none (h : Agrees s c) : challenge s c = none := by
  rw [Exchanges.challenge_none]
  intro own hown
  rw [Agrees, hown] at h
  exact .inl (Option.some.inj h)

variable [DecidableEq C]

theorem exchange_challenge (h : challenge s e.1 = some v) : exchange s e = { s with hub := ⟨v, e.2⟩ } := by
  obtain ⟨own, hown, rfl, hvalue, htime⟩ := challenge_some.mp h
  simp [exchange, hown, hvalue, not_lt.mpr htime]

/-- Without a challenge the spoke takes the value of the hub, or has it already. -/
theorem exchange_quiet (h : challenge s e.1 = none) :
    (exchange s e = s ∧ Agrees s e.1) ∨ exchange s e = s.setSpoke e.1 ⟨s.hub.value, e.2⟩ := by
  rw [challenge_none] at h
  unfold exchange
  split
  next => exact .inr rfl
  next own hown =>
    by_cases hvalue : own.value = s.hub.value
    · rw [if_pos hvalue]
      exact .inl ⟨rfl, by rw [Agrees, hown, Option.map_some, hvalue]⟩
    · rw [if_neg hvalue, if_pos ((h own hown).resolve_left hvalue)]
      exact .inr rfl

theorem exchange_agrees (s : Star C V T) (e : C × T) : Agrees (exchange s e) e.1 := by
  cases h : challenge s e.1 with
  | some v =>
      obtain ⟨own, hown, rfl, -⟩ := challenge_some.mp h
      rw [exchange_challenge h, Agrees, hown, Option.map_some]
  | none =>
      rcases exchange_quiet h with ⟨hsame, hagrees⟩ | htakes
      · rwa [hsame]
      · rw [htakes, Agrees, setSpoke_self, Option.map_some, setSpoke_hub]

theorem exchange_hub (h : challenge s e.1 = none) : (exchange s e).hub = s.hub := by
  rcases exchange_quiet h with ⟨hsame, -⟩ | htakes
  · rw [hsame]
  · rw [htakes, setSpoke_hub]

theorem exchange_ne (s : Star C V T) {c : C} (hc : c ≠ e.1) : (exchange s e).spokes c = s.spokes c := by
  cases h : challenge s e.1 with
  | some v => rw [exchange_challenge h]
  | none =>
      rcases exchange_quiet h with ⟨hsame, -⟩ | htakes
      · rw [hsame]
      · rw [htakes, setSpoke_ne s _ hc]

theorem Bounded.exchange (h : Bounded s t) (ht : t ≤ e.2) : Bounded (exchange s e) e.2 := by
  have hbefore : Bounded s e.2 := ⟨h.hub.trans ht, fun c v hv => (h.spokes c v hv).trans ht⟩
  cases hchallenge : challenge s e.1 with
  | some v =>
      rw [exchange_challenge hchallenge]
      exact ⟨le_rfl, hbefore.spokes⟩
  | none =>
      rcases exchange_quiet hchallenge with ⟨hsame, -⟩ | htakes
      · rwa [hsame]
      · rw [htakes]
        refine ⟨hbefore.hub, fun c v hv => ?_⟩
        by_cases hc : c = e.1
        · subst c
          rw [setSpoke_self, Option.some_inj] at hv
          rw [← hv]
        · rw [setSpoke_ne s _ hc] at hv
          exact hbefore.spokes c v hv

theorem Among.exchange {P : V → Prop} (h : Among P s) (e : C × T) : Among P (exchange s e) := by
  cases hchallenge : challenge s e.1 with
  | some v =>
      obtain ⟨own, hown, rfl, -⟩ := challenge_some.mp hchallenge
      rw [exchange_challenge hchallenge]
      exact ⟨h.spokes e.1 own hown, h.spokes⟩
  | none =>
      rcases exchange_quiet hchallenge with ⟨hsame, -⟩ | htakes
      · rwa [hsame]
      · rw [htakes]
        refine ⟨h.hub, fun c v hv => ?_⟩
        by_cases hc : c = e.1
        · subst c
          rw [setSpoke_self, Option.some_inj] at hv
          rw [← hv]
          exact h.hub
        · rw [setSpoke_ne s _ hc] at hv
          exact h.spokes c v hv

theorem Among.foldl {P : V → Prop} (h : Among P s) (es : List (C × T)) : Among P (es.foldl Exchanges.exchange s) := by
  induction es generalizing s with
  | nil => exact h
  | cons e es ih => exact ih (h.exchange e)

theorem Bounded.foldl (h : Bounded s t) (hordered : Ordered t es) {t' : T} (ht : t ≤ t') (hlast : ∀ e ∈ es, e.2 ≤ t') :
    Bounded (es.foldl Exchanges.exchange s) t' := by
  induction es generalizing s t with
  | nil => exact ⟨h.hub.trans ht, fun c v hv => (h.spokes c v hv).trans ht⟩
  | cons e es ih =>
      obtain ⟨hlt, hrest⟩ := hordered.cons
      exact ih (h.exchange hlt.le) hrest (hlast e List.mem_cons_self) (fun e he => hlast e (List.mem_cons_of_mem _ he))

/-- A challenge that has been taken up is the last one: all other copies are older. -/
theorem challenge_exchange_some (h : Bounded s t) (ht : t < e.2) (hchallenge : challenge s e.1 = some v) (c : C) :
    challenge (exchange s e) c = none := by
  rw [exchange_challenge hchallenge, challenge_none]
  exact fun own hown => .inr (lt_of_le_of_lt (h.spokes c own hown) ht)

theorem challenge_exchange_none (hchallenge : challenge s e.1 = none) (c : C) :
    challenge (exchange s e) c = challenge s c := by
  by_cases hc : c = e.1
  · subst c
    rw [hchallenge]
    exact (exchange_agrees s e).challenge_none
  · rw [challenge, challenge, exchange_ne s hc, exchange_hub hchallenge]

/-- The hub keeps its value, or ends with that of the first spoke that challenges it. -/
theorem foldl_hub (h : Bounded s t) (hordered : Ordered t es) :
    (es.foldl exchange s).hub.value = ((es.map Prod.fst).findSome? (challenge s)).getD s.hub.value := by
  induction es generalizing s t with
  | nil => rfl
  | cons e es ih =>
      obtain ⟨hlt, hrest⟩ := hordered.cons
      rw [List.foldl_cons, ih (h.exchange hlt.le) hrest, List.map_cons, List.findSome?_cons]
      cases hchallenge : challenge s e.1 with
      | some v =>
          have hnone : (es.map Prod.fst).findSome? (challenge (exchange s e)) = none :=
            List.findSome?_eq_none_iff.mpr fun c _ => challenge_exchange_some h hlt hchallenge c
          rw [hnone, exchange_challenge hchallenge]
          rfl
      | none =>
          have hsame : challenge (exchange s e) = challenge s := funext (challenge_exchange_none hchallenge)
          rw [hsame, exchange_hub hchallenge]

theorem foldl_settled (h : Bounded s t) (hordered : Ordered t es) (hc : c ∈ es.map Prod.fst ∨ challenge s c = none) :
    challenge (es.foldl exchange s) c = none := by
  induction es generalizing s t with
  | nil => exact hc.resolve_left List.not_mem_nil
  | cons e es ih =>
      obtain ⟨hlt, hrest⟩ := hordered.cons
      refine ih (h.exchange hlt.le) hrest ?_
      cases hchallenge : challenge s e.1 with
      | some v => exact .inr (challenge_exchange_some h hlt hchallenge c)
      | none =>
          rw [challenge_exchange_none hchallenge]
          rcases hc with hmem | hnone
          · rcases List.mem_cons.mp hmem with rfl | hmem
            · exact .inr hchallenge
            · exact .inl hmem
          · exact .inr hnone

theorem challenge_keeps (hsettled : ∀ c, challenge s c = none) (e : C × T) (c : C) : challenge (exchange s e) c = none :=
  (challenge_exchange_none (hsettled e.1) c).trans (hsettled c)

theorem foldl_settled_hub (hsettled : ∀ c, challenge s c = none) (es : List (C × T)) :
    (es.foldl exchange s).hub = s.hub := by
  induction es generalizing s with
  | nil => rfl
  | cons e es ih => exact (ih (challenge_keeps hsettled e)).trans (exchange_hub (hsettled e.1))

/-- Where no spoke challenges the hub, each one takes its value at its next exchange. -/
theorem foldl_agrees (hsettled : ∀ c, challenge s c = none) (hc : c ∈ es.map Prod.fst ∨ Agrees s c) :
    Agrees (es.foldl exchange s) c := by
  induction es generalizing s with
  | nil => exact hc.resolve_left List.not_mem_nil
  | cons e es ih =>
      refine ih (challenge_keeps hsettled e) ?_
      by_cases hce : c = e.1
      · exact .inr (hce ▸ exchange_agrees s e)
      · rcases hc with hmem | hagrees
        · exact .inl ((List.mem_cons.mp hmem).resolve_left hce)
        · exact .inr (by rwa [Agrees, exchange_ne s hce, exchange_hub (hsettled e.1)])

/-- Two passes are enough: when every spoke has had an exchange, and then every
spoke another one, all have the value that the hub has had since the first pass. -/
theorem twoPasses_agree {first second : List (C × T)} (h : Bounded s t) (hordered : Ordered t first)
    (hfirst : ∀ c, c ∈ first.map Prod.fst) (hsecond : ∀ c, c ∈ second.map Prod.fst) :
    ((first ++ second).foldl exchange s).hub = (first.foldl exchange s).hub ∧
      ∀ c, Agrees ((first ++ second).foldl exchange s) c := by
  have hsettled : ∀ c, challenge (first.foldl exchange s) c = none :=
    fun c => foldl_settled h hordered (.inl (hfirst c))
  rw [List.foldl_append]
  exact ⟨foldl_settled_hub hsettled second, fun c => foldl_agrees hsettled (.inl (hsecond c))⟩

end GraduateOS.Library.Exchanges
