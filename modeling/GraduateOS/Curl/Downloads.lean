import GraduateOS.Curl.BodySlices

namespace GraduateOS.Curl.Downloads

open Library.CStrings (CString ascii)
open Handler BodySlices

def Declined (o : Outcome) : Prop := ∃ v, o = .returned v [] ∧ v < 0

def Served (content : List UInt8) (o : Outcome) : Prop :=
  ∃ (v : Int) (slices : List (List UInt8)),
    o = .returned v (.header .ok content.length :: slices.map .data) ∧ slices.flatten = content

def Answers (buffer : List UInt8) (t : Transfer) (o : Outcome) : Prop :=
  if buffer = [] then Declined o
  else
    match t.code with
    | .ok => Served t.content o
    | .httpReturnedError => ∃ v, o = .returned v [.header .fileNotFound 0]
    | _ => Declined o

variable {mem : Memory} {filedir path : CString} {t : Transfer} {byte : UInt8}

theorem takesWhole_whole (mem : Memory) : TakesWhole mem .whole := fun _ _ => rfl

theorem sendLoop_whole (hsize : mem.size ≤ 2 ^ 31) : ∃ fuel, Served mem.body (sendLoop mem .whole fuel) := by
  obtain ⟨k, s, hafter, hin, hgoing, hle⟩ := after_inStep hsize (takesWhole_whole mem) (mem.size + 1)
  have hk : ¬ k * bufsize < mem.size := by
    intro hk
    obtain rfl := hgoing hk
    have hlarge := Nat.le_mul_of_pos_right (mem.size + 1) (by decide : 0 < bufsize)
    omega
  have hdone : mem.size ≤ s.bytesTransferred := by rw [hin.count]; omega
  refine ⟨mem.size + 1, Library.MachineInts.toInt64 s.bytesTransferred, s.sent, ?_, hin.complete hdone⟩
  rw [sendLoop, hafter, body_length]
  exact if_neg (Nat.not_lt.mpr hdone)

/-- After a download without an error every delivery is in the array. -/
theorem collected (byte : UInt8) (hsize : t.content.length < 2 ^ 31) (hok : t.code = .ok) :
    (collect (.empty byte) t.deliveries).body = t.content := by
  have hall : ∀ d ∈ t.deliveries, d.grows = false → d.data = [] := by
    intro d hd hrefused
    by_contra hdata
    have hwrite := t.refused d hd hrefused hdata
    rw [hok] at hwrite
    cases hwrite
  rw [Transfer.content] at hsize ⊢
  rw [collect_body _ hall (by change 0 + _ + 1 < _; omega)]
  rfl

theorem handleWithCurl_fits (hroom : (filedir.text ++ path.text).length < bufsize) (hurl : filedir.text ++ path.text ≠ [])
    (headerResult : Int) (send : GfsSend) (fuel : Nat) :
    handleWithCurl filedir path (some t) byte headerResult send fuel =
      match t.code with
      | .httpReturnedError => .returned headerResult [.header .fileNotFound 0]
      | .ok => sendLoop (collect (.empty byte) t.deliveries) send fuel
      | _ => .returned exitFailure [] := by
  rw [handleWithCurl, url_eq, if_pos hroom]
  exact if_neg hurl

theorem Answers.defined {buffer : List UInt8} {o : Outcome} (h : Answers buffer t o) :
    ∃ v sent, o = .returned v sent := by
  rw [Answers] at h
  split at h
  next =>
    obtain ⟨v, ho, -⟩ := h
    exact ⟨v, [], ho⟩
  next =>
    split at h
    next =>
      obtain ⟨v, slices, ho, -⟩ := h
      exact ⟨v, _, ho⟩
    next =>
      obtain ⟨v, ho⟩ := h
      exact ⟨v, _, ho⟩
    next =>
      obtain ⟨v, ho, -⟩ := h
      exact ⟨v, [], ho⟩

theorem exitFailure_not_declined : ¬ Declined (.returned exitFailure []) := by
  rintro ⟨v, hv, hneg⟩
  cases hv
  exact absurd hneg (by decide)

/-- Every answer is given exactly for a URL that fits the buffer, and where
the download has not failed in another way than by an HTTP error. -/
theorem download_answered_iff (filedir path : CString) (t : Transfer) (byte : UInt8) (headerResult : Int)
    (hsize : t.content.length < 2 ^ 31) :
    (∃ fuel, Answers (filedir.text ++ path.text) t (handleWithCurl filedir path (some t) byte headerResult .whole fuel)) ↔
      (filedir.text ++ path.text).length < bufsize ∧
        (filedir.text ++ path.text = [] ∨ t.code = .ok ∨ t.code = .httpReturnedError) := by
  by_cases hroom : (filedir.text ++ path.text).length < bufsize
  · simp only [Answers, hroom, true_and]
    by_cases hurl : filedir.text ++ path.text = []
    · simp only [hurl, if_true, true_or, iff_true]
      refine ⟨0, -1, ?_, by decide⟩
      rw [handleWithCurl, url_eq, if_pos hroom]
      exact if_pos hurl
    · simp only [hurl, if_false, false_or, handleWithCurl_fits hroom hurl]
      cases hcode : t.code with
      | ok =>
          refine iff_of_true ?_ (.inl rfl)
          have hbody := collected byte hsize hcode
          have hlength := congrArg List.length hbody
          rw [body_length] at hlength
          rw [← hbody]
          apply sendLoop_whole
          omega
      | httpReturnedError => exact iff_of_true ⟨0, headerResult, rfl⟩ (.inr rfl)
      | writeError => exact iff_of_false (fun ⟨_, h⟩ => exitFailure_not_declined h) nofun
      | other code => exact iff_of_false (fun ⟨_, h⟩ => exitFailure_not_declined h) nofun
  · refine iff_of_false ?_ (fun h => hroom h.1)
    rintro ⟨fuel, h⟩
    obtain ⟨v, sent, ho⟩ := h.defined
    rw [handleWithCurl, url_eq, if_neg hroom] at ho
    cases ho

def host : CString := ⟨ascii "http://localhost", by decide⟩

def file : CString := ⟨ascii "/a", by decide⟩

def twoBytes : Transfer := ⟨[⟨ascii "hi", true⟩], .ok, fun _ _ _ _ => by simp_all⟩

def unreachable : Transfer := ⟨[], .other 7, nofun⟩

theorem twoBytes_answered :
    (∃ fuel, Answers (host.text ++ file.text) twoBytes (handleWithCurl host file (some twoBytes) 0 0 .whole fuel)) ↔
      (host.text ++ file.text).length < bufsize ∧
        (host.text ++ file.text = [] ∨ twoBytes.code = .ok ∨ twoBytes.code = .httpReturnedError) :=
  download_answered_iff host file twoBytes 0 0 (by decide)

/-- The client of a host that cannot be reached gets no response: the value is positive. -/
theorem unreachable_not_answered :
    handleWithCurl host file (some unreachable) 0 0 .whole 0 = .returned 1 [] ∧
      ¬ ∀ (filedir path : CString) (t : Transfer) (byte : UInt8) (headerResult : Int), t.content.length < 2 ^ 31 →
        ∃ fuel, Answers (filedir.text ++ path.text) t
          (handleWithCurl filedir path (some t) byte headerResult .whole fuel) := by
  have hroom : (host.text ++ file.text).length < bufsize := by decide
  have hurl : host.text ++ file.text ≠ [] := by decide
  refine ⟨handleWithCurl_fits hroom hurl 0 .whole 0, fun hall => ?_⟩
  obtain ⟨fuel, h⟩ := hall host file unreachable 0 0 (by decide)
  rw [handleWithCurl_fits hroom hurl] at h
  exact exitFailure_not_declined h

end GraduateOS.Curl.Downloads
