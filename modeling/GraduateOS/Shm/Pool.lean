import GraduateOS.Shm.Orders
import Mathlib.Data.List.Nodup

namespace GraduateOS.Shm.Pool

open Segments Threads LocalSteps Tokens Orders

variable {H W : Type} {cache : String → Option Content} {n i : Nat}

structure Conserved (n : Nat) (s : System H W) : Prop where
  nodup : s.pool.Nodup
  once : ∀ i, i < n → (i ∈ s.pool ∧ ∀ h, ¬ Holds s h i) ∨
    i ∉ s.pool ∧ ∃ h, Holds s h i ∧ ∀ h', Holds s h' i → h' = h
  only : ∀ i, n ≤ i → i ∉ s.pool ∧ ∀ h, ¬ Holds s h i

/-- `shm_read_data` never fails, so no call keeps its segment. -/
def Reading (s : System H W) : Prop := ∀ h, 0 ≤ (s.handlers h).readLen ∧ (s.handlers h).pc ≠ .failed

variable {s s' : System H W} {h : H} {a : Act H W}

theorem Conserved.congr (hc : Conserved n s) (hpool : s'.pool = s.pool)
    (hholds : ∀ h i, Holds s' h i ↔ Holds s h i) : Conserved n s' := by
  refine ⟨hpool ▸ hc.nodup, ?_, ?_⟩
  · intro i hi
    simpa only [hpool, hholds] using hc.once i hi
  · intro i hi
    simpa only [hpool, hholds] using hc.only i hi

theorem Conserved.of_pool (hc : Conserved n s) (hi : i ∈ s.pool) : i < n ∧ ∀ h, ¬ Holds s h i := by
  have hn : i < n := by
    by_contra hge
    exact (hc.only i (Nat.not_lt.mp hge)).1 hi
  rcases hc.once i hn with ⟨_, hno⟩ | ⟨hout, _⟩
  · exact ⟨hn, hno⟩
  · exact absurd hi hout

theorem Conserved.of_holds (hc : Conserved n s) (hholds : Holds s h i) :
    i < n ∧ i ∉ s.pool ∧ ∀ h', Holds s h' i → h' = h := by
  have hn : i < n := by
    by_contra hge
    exact (hc.only i (Nat.not_lt.mp hge)).2 h hholds
  rcases hc.once i hn with ⟨_, hno⟩ | ⟨hout, h₀, _, hunique⟩
  · exact absurd hholds (hno h)
  · have hh := hunique h hholds
    subst h
    exact ⟨hn, hout, hunique⟩

theorem Conserved.take {pool : List Nat} (hc : Conserved n s) (hpool : s.pool = i :: pool)
    (hpool' : s'.pool = pool)
    (hholds : ∀ h' j, Holds s' h' j ↔ Holds s h' j ∨ h' = h ∧ j = i) : Conserved n s' := by
  have hnodup := hc.nodup
  rw [hpool, List.nodup_cons] at hnodup
  obtain ⟨hn, hno⟩ := hc.of_pool (by rw [hpool]; exact List.mem_cons_self)
  refine ⟨hpool' ▸ hnodup.2, ?_, ?_⟩
  · intro j hj
    by_cases hji : j = i
    · subst j
      refine .inr ⟨hpool' ▸ hnodup.1, h, (hholds h i).mpr (.inr ⟨rfl, rfl⟩), ?_⟩
      intro h' hh'
      exact (((hholds h' i).mp hh').resolve_left (hno h')).1
    · have hsame := hc.once j hj
      simpa only [hholds, hpool', hpool, List.mem_cons, hji, false_or, and_false, or_false] using hsame
  · intro j hj
    have hji : j ≠ i := by omega
    have hsame := hc.only j hj
    simpa only [hholds, hpool', hpool, List.mem_cons, hji, false_or, and_false, or_false] using hsame

theorem Conserved.give (hc : Conserved n s) (hpool : s'.pool = s.pool ++ [i]) (hheld : Holds s h i)
    (hholds : ∀ h' j, Holds s' h' j ↔ Holds s h' j ∧ h' ≠ h) : Conserved n s' := by
  obtain ⟨hn, hout, hunique⟩ := hc.of_holds hheld
  have hothers : ∀ h' j, j ≠ i → (Holds s' h' j ↔ Holds s h' j) := by
    intro h' j hj
    rw [hholds, and_iff_left_iff_imp]
    rintro hh' rfl
    exact hj (hh'.2.symm.trans hheld.2)
  refine ⟨?_, ?_, ?_⟩
  · rw [hpool]
    exact List.Nodup.append hc.nodup (List.nodup_singleton _) (List.disjoint_singleton.mpr hout)
  · intro j hj
    by_cases hji : j = i
    · subst j
      refine .inl ⟨by rw [hpool]; simp, fun h' hh' => ?_⟩
      obtain ⟨hbefore, hne⟩ := (hholds h' i).mp hh'
      exact hne (hunique h' hbefore)
    · have hsame := hc.once j hj
      simpa only [hothers _ j hji, hpool, List.mem_append, List.mem_singleton, hji, or_false] using hsame
  · intro j hj
    have hji : j ≠ i := by omega
    have hsame := hc.only j hj
    simpa only [hothers _ j hji, hpool, List.mem_append, List.mem_singleton, hji, or_false] using hsame

theorem handlerStep_holding {result : Int} {g g' : Segment} {x x' : Handler} (hlen : 0 ≤ x.readLen)
    (hstep : handlerStep result g x = some (g', x')) :
    holding x' = holding x ∧ x'.segment = x.segment ∧ 0 ≤ x'.readLen ∧ x'.pc ≠ .failed := by
  cases handlerStep_move hstep with
  | readError _ herror => exact absurd hlen (Int.not_le.mpr herror)
  | create hpc | waitLength hpc | noLength hpc | readLength hpc | header hpc | more hpc | done hpc
  | waitReader hpc | readData hpc | postWriter hpc | gfsSend hpc | unmap hpc | sendNotFound hpc =>
      simp [holding, hpc, hlen]

theorem start_conserved (nsegments : Nat) (garbage : Nat → Segment) :
    Conserved nsegments (start nsegments garbage : System H W) ∧
      Reading (start nsegments garbage : System H W) := by
  refine ⟨⟨List.nodup_range, ?_, ?_⟩, fun _ => ⟨by simp [start], by simp [start]⟩⟩
  · exact fun i hi => .inl ⟨List.mem_range.mpr hi, by simp [Holds, start, holding]⟩
  · exact fun i hi => ⟨by simpa [start] using hi, by simp [Holds, start, holding]⟩

variable [DecidableEq H]

theorem holds_setHandler {x : Handler} (h' : H) (j : Nat) : Holds (s.setHandler h x) h' j ↔
    if h' = h then holding x ∧ x.segment = j else Holds s h' j := by
  by_cases hh : h' = h
  · subst h'
    simp [Holds, System.setHandler]
  · simp [Holds, System.setHandler, hh]

theorem setHandler_reading (hr : Reading s) {x : Handler} (hlen : 0 ≤ x.readLen) (hpc : x.pc ≠ .failed) :
    Reading (s.setHandler h x) := by
  intro h'
  by_cases hh : h' = h
  · subst h'
    simpa [System.setHandler] using ⟨hlen, hpc⟩
  · simpa [System.setHandler, hh] using hr h'

variable [DecidableEq W]

theorem step_conserved (hc : Conserved n s) (hr : Reading s) (hstep : step cache s a = some s') :
    Conserved n s' ∧ Reading s' := by
  cases step_move hstep with
  | @request h path hpc =>
      have hidle : holding (s.handlers h) = false := by rcases hpc with hpc | hpc <;> simp [holding, hpc]
      refine ⟨hc.congr rfl (fun h' j => ?_), setHandler_reading hr (by simp) (by simp)⟩
      rw [holds_setHandler]
      split
      next hh => subst h'; rw [Holds, hidle]; simp [holding]
      · exact Iff.rfl
  | @pop h result i pool hpc hpool =>
      have hidle : ∀ j, ¬ Holds s h j := by simp [Holds, holding, hpc]
      refine ⟨hc.take (h := h) hpool rfl (fun h' j => ?_), ?_⟩
      · apply Iff.trans (holds_setHandler h' j)
        split
        next hh => subst h'; simp [hidle, holding, eq_comm (a := i)]
        next hh => simp [hh]
      · exact setHandler_reading hr (hr h).1 (by simp)
  | @send h result hpc =>
      refine ⟨hc.congr rfl (fun h' j => ?_), setHandler_reading hr (hr h).1 (by simp)⟩
      apply Iff.trans (holds_setHandler h' j)
      split
      next hh => subst h'; simp [Holds, holding, hpc]
      · exact Iff.rfl
  | @enqueue h result hpc =>
      refine ⟨hc.give (h := h) rfl ⟨by simp [holding, hpc], rfl⟩ (fun h' j => ?_), ?_⟩
      · apply Iff.trans (holds_setHandler h' j)
        split
        next hh => subst h'; split <;> simp [holding]
        next hh => simp [hh]
      · exact setHandler_reading hr (hr h).1 (by simp only; split <;> simp)
  | @handler h result g x hlocal =>
      obtain ⟨hholding, hsegment, hlen, hpc⟩ := handlerStep_holding (hr h).1 hlocal
      refine ⟨hc.congr rfl (fun h' j => ?_), ?_⟩
      · apply Iff.trans (holds_setHandler h' j)
        split
        next hh => subst h'; rw [hholding, hsegment]; exact Iff.rfl
        · exact Iff.rfl
      · exact setHandler_reading (s := s.setSegment (s.handlers h).segment g) hr hlen hpc
  | boss => exact ⟨hc.congr rfl (fun _ _ => Iff.rfl), hr⟩
  | take => exact ⟨hc.congr rfl (fun _ _ => Iff.rfl), hr⟩
  | worker => exact ⟨hc.congr rfl (fun _ _ => Iff.rfl), hr⟩

end GraduateOS.Shm.Pool
