import GraduateOS.Shm.Tokens

namespace GraduateOS.Shm.Orders

open Segments Threads Tokens

variable {H W : Type}

def Holds (s : System H W) (h : H) (i : Nat) : Prop :=
  holding (s.handlers h) ∧ (s.handlers h).segment = i

def Serving (s : System H W) (w : W) (i : Nat) : Prop :=
  (s.workers w).pc ≠ .idle ∧ (s.workers w).segment = i

def requests (s : System H W) : List (String × Nat) := s.messages ++ s.work

inductive Order (s : System H W) (i : Nat) (path : String) : Nat → Nat → Prop
  | queued : (path, i) ∈ requests s → (∀ w, ¬ Serving s w i) → Order s i path 0 0
  | serving (w) : i ∉ (requests s).map Prod.snd → Serving s w i → (∀ w', Serving s w' i → w' = w) →
      (s.workers w).path = path → Order s i path (informs (s.workers w)) (workerToken (s.workers w))
  | finished : i ∉ (requests s).map Prod.snd → (∀ w, ¬ Serving s w i) → Order s i path 1 0

structure AtRest (s : System H W) (i : Nat) : Prop where
  empty : (s.segments i).Empty
  unrequested : i ∉ (requests s).map Prod.snd
  unserved : ∀ w, ¬ Serving s w i

def Balanced (s : System H W) (h : Handler) (i : Nat) : Prop :=
  ∃ informs token, Order s i h.path informs token ∧
    (s.segments i).semSegment + informed h = informs ∧
    inTransit (s.segments i) + handlerToken h = token

inductive SegmentInv (s : System H W) (i : Nat) : Prop
  | free : (∀ h, ¬ Holds s h i) → AtRest s i → SegmentInv s i
  | prepared (h) : i ∉ s.pool → Holds s h i → (∀ h', Holds s h' i → h' = h) →
      asked (s.handlers h) = false → AtRest s i → SegmentInv s i
  | inUse (h) : i ∉ s.pool → Holds s h i → (∀ h', Holds s h' i → h' = h) →
      asked (s.handlers h) → Balanced s (s.handlers h) i → SegmentInv s i

structure Inv (s : System H W) : Prop where
  poolNodup : s.pool.Nodup
  requestsNodup : ((requests s).map Prod.snd).Nodup
  readLen : ∀ h, 0 ≤ (s.handlers h).readLen
  segments : ∀ i, SegmentInv s i

structure SameAt (s s' : System H W) (j : Nat) : Prop where
  pool : j ∈ s'.pool → j ∈ s.pool
  requested : ∀ path, (path, j) ∈ requests s' ↔ (path, j) ∈ requests s
  segment : s'.segments j = s.segments j
  handlers : ∀ h, Holds s h j ∨ Holds s' h j → s'.handlers h = s.handlers h
  workers : ∀ w, Serving s w j ∨ Serving s' w j → s'.workers w = s.workers w

variable {s s' : System H W} {h : H} {w : W} {i j : Nat}

theorem not_requested : i ∉ (requests s).map Prod.snd ↔ ∀ path, (path, i) ∉ requests s := by
  simp

theorem SameAt.holds (hsame : SameAt s s' j) (h : H) : Holds s' h j ↔ Holds s h j := by
  constructor
  · intro hh
    simpa only [Holds, hsame.handlers h (.inr hh)] using hh
  · intro hh
    simpa only [Holds, hsame.handlers h (.inl hh)] using hh

theorem SameAt.serving (hsame : SameAt s s' j) (w : W) : Serving s' w j ↔ Serving s w j := by
  constructor
  · intro hw
    simpa only [Serving, hsame.workers w (.inr hw)] using hw
  · intro hw
    simpa only [Serving, hsame.workers w (.inl hw)] using hw

theorem SameAt.notRequested (hsame : SameAt s s' j) (h : j ∉ (requests s).map Prod.snd) :
    j ∉ (requests s').map Prod.snd := by
  rw [not_requested] at h ⊢
  exact fun path hmem => h path ((hsame.requested path).mp hmem)

theorem SameAt.atRest (hsame : SameAt s s' j) (h : AtRest s j) : AtRest s' j where
  empty := by rw [hsame.segment]; exact h.empty
  unrequested := hsame.notRequested h.unrequested
  unserved w hw := h.unserved w ((hsame.serving w).mp hw)

theorem SameAt.order (hsame : SameAt s s' j) {path : String} {a b : Nat} (h : Order s j path a b) :
    Order s' j path a b := by
  cases h with
  | queued hmem hno =>
      exact .queued ((hsame.requested path).mpr hmem) (fun w hw => hno w ((hsame.serving w).mp hw))
  | serving w hno hw hunique hpath =>
      rw [← hsame.workers w (.inl hw)] at hpath ⊢
      exact .serving w (hsame.notRequested hno) ((hsame.serving w).mpr hw)
        (fun w' hw' => hunique w' ((hsame.serving w').mp hw')) hpath
  | finished hno hnone =>
      exact .finished (hsame.notRequested hno) (fun w hw => hnone w ((hsame.serving w).mp hw))

theorem SameAt.segmentInv (hsame : SameAt s s' j) (h : SegmentInv s j) : SegmentInv s' j := by
  have hpool := mt hsame.pool
  cases h with
  | free hno hrest => exact .free (fun h hh => hno h ((hsame.holds h).mp hh)) (hsame.atRest hrest)
  | prepared h hfree hh hunique hasked hrest =>
      rw [← hsame.handlers h (.inl hh)] at hasked
      exact .prepared h (hpool hfree) ((hsame.holds h).mpr hh)
        (fun h' hh' => hunique h' ((hsame.holds h').mp hh')) hasked (hsame.atRest hrest)
  | inUse h hfree hh hunique hasked hbalanced =>
      obtain ⟨a, b, horder, hsegment, htransit⟩ := hbalanced
      rw [← hsame.handlers h (.inl hh)] at hasked horder hsegment htransit
      rw [← hsame.segment] at hsegment htransit
      exact .inUse h (hpool hfree) ((hsame.holds h).mpr hh)
        (fun h' hh' => hunique h' ((hsame.holds h').mp hh')) hasked
        ⟨a, b, hsame.order horder, hsegment, htransit⟩

theorem same_of_handler (hpool : j ∈ s'.pool → j ∈ s.pool)
    (hrequested : ∀ path, (path, j) ∈ requests s' ↔ (path, j) ∈ requests s)
    (hsegment : s'.segments j = s.segments j) (hothers : ∀ h', h' ≠ h → s'.handlers h' = s.handlers h')
    (hworkers : s'.workers = s.workers) (hbefore : ¬ Holds s h j) (hafter : ¬ Holds s' h j) :
    SameAt s s' j := by
  refine ⟨hpool, hrequested, hsegment, ?_, fun w _ => by rw [hworkers]⟩
  intro h' hholds
  by_cases hh : h' = h
  · subst h'
    exact absurd hholds (not_or_intro hbefore hafter)
  · exact hothers h' hh

theorem same_of_worker (hpool : s'.pool = s.pool)
    (hrequested : ∀ path, (path, j) ∈ requests s' ↔ (path, j) ∈ requests s)
    (hsegment : s'.segments j = s.segments j) (hhandlers : s'.handlers = s.handlers)
    (hothers : ∀ w', w' ≠ w → s'.workers w' = s.workers w') (hbefore : ¬ Serving s w j)
    (hafter : ¬ Serving s' w j) : SameAt s s' j := by
  refine ⟨fun hj => hpool ▸ hj, hrequested, hsegment, fun h _ => by rw [hhandlers], ?_⟩
  intro w' hserving
  by_cases hw : w' = w
  · subst w'
    exact absurd hserving (not_or_intro hbefore hafter)
  · exact hothers w' hw

theorem Inv.inUse_of_asked (hinv : Inv s) (hholds : Holds s h i) (hasked : asked (s.handlers h)) :
    i ∉ s.pool ∧ (∀ h', Holds s h' i → h' = h) ∧ Balanced s (s.handlers h) i := by
  cases hinv.segments i with
  | free hno _ => exact absurd hholds (hno h)
  | prepared h' _ _ hunique hnot _ =>
      rw [← hunique h hholds, hasked] at hnot
      cases hnot
  | inUse h' hpool _ hunique _ hbalanced =>
      have hh := hunique h hholds
      subst h'
      exact ⟨hpool, hunique, hbalanced⟩

theorem Inv.prepared_of_not_asked (hinv : Inv s) (hholds : Holds s h i)
    (hasked : asked (s.handlers h) = false) :
    i ∉ s.pool ∧ (∀ h', Holds s h' i → h' = h) ∧ AtRest s i := by
  cases hinv.segments i with
  | free hno _ => exact absurd hholds (hno h)
  | prepared h' hpool _ hunique _ hrest =>
      have hh := hunique h hholds
      subst h'
      exact ⟨hpool, hunique, hrest⟩
  | inUse h' _ _ hunique hyes _ =>
      rw [← hunique h hholds, hasked] at hyes
      cases hyes

theorem Inv.free_of_pool (hinv : Inv s) (hi : i ∈ s.pool) : (∀ h, ¬ Holds s h i) ∧ AtRest s i := by
  cases hinv.segments i with
  | free hno hrest => exact ⟨hno, hrest⟩
  | prepared h' hpool => exact absurd hi hpool
  | inUse h' hpool => exact absurd hi hpool

/-- A request that is waiting or being served belongs to the one handler that holds the segment. -/
theorem Inv.inUse_of_order (hinv : Inv s) (horder : i ∈ (requests s).map Prod.snd ∨ Serving s w i) :
    ∃ h, i ∉ s.pool ∧ Holds s h i ∧ (∀ h', Holds s h' i → h' = h) ∧ asked (s.handlers h) ∧
      Balanced s (s.handlers h) i := by
  have hbusy : ¬ AtRest s i := by
    intro hrest
    rcases horder with hmem | hw
    · exact hrest.unrequested hmem
    · exact hrest.unserved w hw
  cases hinv.segments i with
  | free _ hrest => exact absurd hrest hbusy
  | prepared _ _ _ _ _ hrest => exact absurd hrest hbusy
  | inUse h hpool hholds hunique hasked hbalanced =>
      exact ⟨h, hpool, hholds, hunique, hasked, hbalanced⟩

end GraduateOS.Shm.Orders
