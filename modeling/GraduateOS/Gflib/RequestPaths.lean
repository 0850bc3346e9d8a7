import GraduateOS.Gflib.RequestLoops

namespace GraduateOS.Gflib.RequestPaths

open Library.CStrings Library.Scanf Messages Requests RequestLoops

/-- The request `GETFILE GET <path>\r\n\r\n` of the protocol. -/
def Request (h p : List UInt8) : Prop :=
  h = ascii "GETFILE GET " ++ p ++ headerEnd ∧ p.head? = some 47 ∧ NoSpace p

def Right (rs : List Received) (h : List UInt8) : Prop :=
  (∀ p, serve rs = some (.handler p) ↔ Request h p) ∧
    ((∀ p, ¬ Request h p) → serve rs = some (.sent (gfsSendheader .invalid 0)))

/-- The headers that the format accepts: any white space or none where it has a
blank, and also between the slash and the name. -/
def Accepted (h : List UInt8) : Prop :=
  ∃ s s' s'' c rest, AllSpace s ∧ AllSpace s' ∧ AllSpace s'' ∧ isspace c = false ∧
    h = getfile ++ (s ++ (ascii "GET" ++ (s' ++ (47 :: (s'' ++ c :: rest)))))

variable {h p : List UInt8} {rs : List Received}

theorem requestFormat_eq : requestFormat =
    literals getfile ++ .blank :: (literals (ascii "GET") ++ .blank :: (literals [47] ++
      .string :: [.blank, .blank, .blank, .blank, .blank])) :=
  rfl

theorem sscanf_blanks (n : Nat) (text : List UInt8) : sscanf (List.replicate n .blank) text = [] := by
  induction n generalizing text with
  | zero => rfl
  | succ n ih => exact ih _

theorem sscanf_accepted {s s' s'' : List UInt8} {c : UInt8} (hs : AllSpace s) (hs' : AllSpace s')
    (hs'' : AllSpace s'') (hc : isspace c = false) (rest : List UInt8) :
    sscanf requestFormat (getfile ++ (s ++ (ascii "GET" ++ (s' ++ (47 :: (s'' ++ c :: rest)))))) =
      [(c :: rest).takeWhile (!isspace ·)] := by
  have hget : ∀ t, ascii "GET" ++ t = 71 :: (ascii "ET" ++ t) := fun t => rfl
  have hslash : 47 :: (s'' ++ c :: rest) = [47] ++ (s'' ++ c :: rest) := rfl
  rw [requestFormat_eq, sscanf_literals, hget, sscanf_blank hs (by decide), ← hget, sscanf_literals,
    sscanf_blank hs' (by decide), hslash, sscanf_literals, sscanf_string hs'' hc]
  exact congrArg _ (sscanf_blanks 5 _)

theorem accepted_of_sscanf (hne : sscanf requestFormat h ≠ []) : Accepted h := by
  rw [requestFormat_eq] at hne
  obtain ⟨h1, rfl, hne1⟩ := literals_of_sscanf hne
  obtain ⟨s, h2, hs, rfl, hne2⟩ := blank_of_sscanf hne1
  obtain ⟨h3, rfl, hne3⟩ := literals_of_sscanf hne2
  obtain ⟨s', h4, hs', rfl, hne4⟩ := blank_of_sscanf hne3
  obtain ⟨h5, rfl, hne5⟩ := literals_of_sscanf hne4
  obtain ⟨s'', c, rest, hs'', hc, rfl⟩ := string_of_sscanf hne5
  exact ⟨s, s', s'', c, rest, hs, hs', hs'', hc, rfl⟩

theorem parseHeader_accepted (h : List UInt8) (ha : Accepted h) : ∃ p, parseHeader h = .handler p := by
  obtain ⟨s, s', s'', c, rest, hs, hs', hs'', hc, rfl⟩ := ha
  rw [parseHeader, sscanf_accepted hs hs' hs'' hc]
  exact ⟨_, rfl⟩

theorem parseHeader_refused (ha : ¬ Accepted h) : parseHeader h = .sent (gfsSendheader .invalid 0) := by
  have hnil : sscanf requestFormat h = [] := by
    by_contra hne
    exact ha (accepted_of_sscanf hne)
  rw [parseHeader, hnil]

theorem request_cons (hr : Request h p) : ∃ q, p = 47 :: q ∧ NoSpace q := by
  obtain ⟨-, hslash, hp⟩ := hr
  cases p with
  | nil => cases hslash
  | cons c q =>
      cases hslash
      exact ⟨q, rfl, fun b hb => hp b (List.mem_cons_of_mem _ hb)⟩

/-- A request is accepted when its path has a name, and the name is all that the handler gets. -/
theorem parseHeader_request {c : UInt8} {q : List UInt8} (hr : Request h (47 :: c :: q)) :
    Accepted h ∧ parseHeader h = .handler (c :: q) := by
  obtain ⟨rfl, -, hp⟩ := hr
  have hc : isspace c = false := hp c (by simp)
  have hq : NoSpace (c :: q) := fun b hb => hp b (List.mem_cons_of_mem _ hb)
  have hblank : AllSpace [32] := by decide
  have hnone : AllSpace [] := by decide
  have he : ascii "GETFILE GET " ++ 47 :: c :: q ++ headerEnd =
      getfile ++ ([32] ++ (ascii "GET" ++ ([32] ++ (47 :: ([] ++ c :: (q ++ headerEnd)))))) := by
    rw [List.append_assoc]
    rfl
  have hword : (c :: (q ++ headerEnd)).takeWhile (!isspace ·) = c :: q :=
    takeWhile_word hq (by decide) [10, 13, 10]
  rw [he]
  constructor
  · exact ⟨[32], [32], [], c, q ++ headerEnd, hblank, hblank, hnone, hc, rfl⟩
  · rw [parseHeader, sscanf_accepted hblank hblank hnone hc, hword]

theorem root_refused : ¬ Accepted (ascii "GETFILE GET /\r\n\r\n") := by
  intro ha
  obtain ⟨p, hp⟩ := parseHeader_accepted _ ha
  have hsent : parseHeader (ascii "GETFILE GET /\r\n\r\n") = .sent (gfsSendheader .invalid 0) := by decide
  rw [hsent] at hp
  cases hp

theorem right_refused (hr : Accumulates rs h) (hright : Right rs h) :
    ¬ Accepted h ∧ h ≠ ascii "GETFILE GET /\r\n\r\n" := by
  have hserve := serve_accumulates hr
  constructor
  · intro ha
    -- the path that the handler gets would have to be its own tail
    obtain ⟨p, hp⟩ := parseHeader_accepted h ha
    have hreq := (hright.1 p).mp (by rw [hserve, hp])
    obtain ⟨q, rfl, -⟩ := request_cons hreq
    cases q with
    | nil =>
        rw [hreq.1] at ha
        exact root_refused ha
    | cons c q =>
        obtain ⟨-, hq⟩ := parseHeader_request hreq
        rw [hq] at hp
        have hlen := congrArg List.length (Answer.handler.inj hp)
        simp at hlen
  · rintro rfl
    have hreq : Request (ascii "GETFILE GET /\r\n\r\n") [47] := ⟨rfl, rfl, by decide⟩
    have hp := (hright.1 [47]).mpr hreq
    rw [hserve, parseHeader_refused root_refused] at hp
    cases hp

theorem refused_right (hr : Accumulates rs h) (ha : ¬ Accepted h)
    (hroot : h ≠ ascii "GETFILE GET /\r\n\r\n") : Right rs h := by
  have hserve : serve rs = some (.sent (gfsSendheader .invalid 0)) := by
    rw [serve_accumulates hr, parseHeader_refused ha]
  refine ⟨fun p => ⟨fun hp => ?_, fun hreq => ?_⟩, fun _ => hserve⟩
  · rw [hserve] at hp
    cases hp
  · exfalso
    obtain ⟨q, rfl, -⟩ := request_cons hreq
    cases q with
    | nil => exact hroot hreq.1
    | cons c q => exact ha (parseHeader_request hreq).1

/-- The slash of the path belongs to the format, so no path reaches the handler
whole: the server is right about the requests it refuses and about no others. -/
theorem request_right_iff (hr : Accumulates rs h) :
    Right rs h ↔ ¬ Accepted h ∧ h ≠ ascii "GETFILE GET /\r\n\r\n" :=
  ⟨right_refused hr, fun hc => refused_right hr hc.1 hc.2⟩

theorem wrongScheme_right :
    Right [.bytes (ascii "GET /a\r\n\r\n")] (ascii "GET /a\r\n\r\n") ↔
      ¬ Accepted (ascii "GET /a\r\n\r\n") ∧ ascii "GET /a\r\n\r\n" ≠ ascii "GETFILE GET /\r\n\r\n" := by
  apply request_right_iff
  exact accumulates_whole (by decide) (by decide) ⟨ascii "GET /a", [], by decide⟩

/-- The handler is called with `a`, although the path of the request is `/a`. -/
theorem slash_not_right :
    Request (ascii "GETFILE GET /a\r\n\r\n") (ascii "/a") ∧
      serve [.bytes (ascii "GETFILE GET /a\r\n\r\n")] = some (.handler (ascii "a")) ∧
      ¬ Right [.bytes (ascii "GETFILE GET /a\r\n\r\n")] (ascii "GETFILE GET /a\r\n\r\n") := by
  have hreq : Request (ascii "GETFILE GET /a\r\n\r\n") (ascii "/a") := ⟨rfl, rfl, by decide⟩
  have hserve : serve [.bytes (ascii "GETFILE GET /a\r\n\r\n")] = some (.handler (ascii "a")) := by
    decide +kernel
  refine ⟨hreq, hserve, fun hright => ?_⟩
  have hp := (hright.1 (ascii "/a")).mpr hreq
  rw [hserve] at hp
  revert hp
  decide

end GraduateOS.Gflib.RequestPaths
