import GraduateOS.Library.CStrings

namespace GraduateOS.Echo.Clients

open Library.CStrings

def bufsize : Nat := 16

/-- A `char` array of this size, as the function finds it. -/
abbrev Buffer := Vector UInt8 bufsize

inductive Client
  | refused
  | broken
  | sends (received : List UInt8)

/-- The bodies of `send` in the loop of the server, with `maxnpending` as its
count. The one array serves for all clients; an error ends the process. -/
def serve : Nat → Memory → List Client → List Memory
  | n + 1, buffer, .sends received :: clients =>
      overlay received buffer :: serve n (overlay received buffer) clients
  | _, _, _ => []

/-- What `echoclient` prints of the reply. -/
def echoclient (buffer : Buffer) (reply : Memory) : Option (List UInt8) := cstr (overlay reply buffer.toList)

structure Message where
  text : List UInt8
  nul : 0 ∉ text
  length_pos : 1 ≤ text.length
  length_le : text.length ≤ 15

structure Session where
  garbage : Buffer
  maxnpending : Nat
  messages : List Message
  served : messages.length ≤ maxnpending

def Session.replies (r : Session) : List Memory :=
  serve r.maxnpending r.garbage.toList (r.messages.map fun m => .sends m.text)

def Prints (reply : Option Memory) (m : Message) : Prop :=
  ∃ bytes, reply = some bytes ∧ ∀ buffer, echoclient buffer bytes = some m.text

def Own (r : Session) : Prop := ∀ (k : Nat) (m : Message), r.messages[k]? = some m → Prints r.replies[k]? m

/-- Clients in the same place with the same message get the same bytes. -/
def SameReplies (r r' : Session) : Prop :=
  ∀ (k : Nat) (m : Message), r.messages[k]? = some m → r'.messages[k]? = some m → r.replies[k]? = r'.replies[k]?

structure Apart (r r' : Session) : Prop where
  own : Own r
  own' : Own r'
  same : SameReplies r r'

/-- No message is shorter than one before it, and the array had a NUL behind each of them. -/
structure Steady (r : Session) : Prop where
  growing : r.messages.Pairwise fun m m' => m.text.length ≤ m'.text.length
  zero : ∀ m ∈ r.messages, r.garbage.toList[m.text.length]? = some 0

/-- Behind equal messages the arrays were equal from the start. -/
def SameGarbage (r r' : Session) : Prop :=
  ∀ (k : Nat) (m : Message), r.messages[k]? = some m → r'.messages[k]? = some m →
    r.garbage.toList.drop m.text.length = r'.garbage.toList.drop m.text.length

variable {messages : List Message} {m m' : Message} {buffer : Memory} {n k : Nat} {r r' : Session}

theorem get_text (m : Message) (hk : k < m.text.length) : (overlay m.text buffer)[k]? ≠ some 0 := by
  rw [get_overlay hk, List.getElem?_eq_getElem hk]
  exact fun h => m.nul (Option.some.inj h ▸ List.getElem_mem hk)

theorem zero_behind (m m' : Message) : (overlay m.text buffer)[m'.text.length]? = some 0 ↔
    m.text.length ≤ m'.text.length ∧ buffer[m'.text.length]? = some 0 := by
  by_cases hle : m.text.length ≤ m'.text.length
  · rw [← List.head?_drop, drop_overlay hle, List.head?_drop, and_iff_right hle]
  · exact iff_of_false (get_text m (Nat.not_le.mp hle)) fun h => hle h.1

theorem overlay_length (m : Message) (hb : buffer.length = bufsize) : (overlay m.text buffer).length = bufsize := by
  have hle := m.length_le
  rw [overlay, List.length_append, List.length_drop, hb]
  simp only [bufsize]
  omega

theorem echoclient_reply {reply : Memory} (h : reply.length = bufsize) (b : Buffer) : echoclient b reply = cstr reply := by
  rw [echoclient, overlay, h, List.drop_eq_nil_of_le (Nat.le_of_eq b.length_toList), List.append_nil]

theorem prints_iff (m : Message) (hb : buffer.length = bufsize) :
    Prints (some (overlay m.text buffer)) m ↔ buffer[m.text.length]? = some 0 := by
  rw [← cstr_overlay m.nul]
  constructor
  · rintro ⟨bytes, hbytes, hall⟩
    cases hbytes
    rw [← echoclient_reply (overlay_length m hb) (Vector.replicate bufsize 0)]
    exact hall _
  · intro h
    exact ⟨_, rfl, fun b => by rw [echoclient_reply (overlay_length m hb), h]⟩

theorem serve_prints_iff (hn : messages.length ≤ n) (hb : buffer.length = bufsize) :
    (∀ (k : Nat) (m : Message), messages[k]? = some m →
      Prints (serve n buffer (messages.map fun m => .sends m.text))[k]? m) ↔
    messages.Pairwise (fun m m' => m.text.length ≤ m'.text.length) ∧
      ∀ m ∈ messages, buffer[m.text.length]? = some 0 := by
  induction messages generalizing n buffer with
  | nil => simp
  | cons m messages ih =>
      obtain ⟨n, rfl⟩ : ∃ k, n = k + 1 := ⟨n - 1, by rw [List.length_cons] at hn; omega⟩
      have hrest := ih (Nat.le_of_succ_le_succ hn) (overlay_length m hb)
      simp only [zero_behind] at hrest
      have hsplit : (∀ (k : Nat) (m' : Message), (m :: messages)[k]? = some m' →
          Prints (serve (n + 1) buffer ((m :: messages).map fun m => .sends m.text))[k]? m') ↔
          Prints (some (overlay m.text buffer)) m ∧ ∀ (k : Nat) (m' : Message), messages[k]? = some m' →
            Prints (serve n (overlay m.text buffer) (messages.map fun m => .sends m.text))[k]? m' := by
        constructor
        · exact fun h => ⟨h 0 m rfl, fun k m' hk => h (k + 1) m' hk⟩
        · rintro ⟨hfirst, hall⟩ k m' hk
          cases k with
          | zero => cases hk; exact hfirst
          | succ k => exact hall k m' hk
      rw [hsplit, prints_iff m hb, hrest, List.pairwise_cons, List.forall_mem_cons]
      constructor
      · rintro ⟨hzero, hpair, hall⟩
        exact ⟨⟨fun m' hm => (hall m' hm).1, hpair⟩, hzero, fun m' hm => (hall m' hm).2⟩
      · rintro ⟨⟨hle, hpair⟩, hzero, hall⟩
        exact ⟨hzero, hpair, fun m' hm => ⟨hle m' hm, hall m' hm⟩⟩

theorem own_iff (r : Session) : Own r ↔ Steady r := by
  have h := serve_prints_iff r.served r.garbage.length_toList
  exact ⟨fun hown => ⟨(h.mp hown).1, (h.mp hown).2⟩, fun hs => h.mpr ⟨hs.growing, hs.zero⟩⟩

/-- Behind messages that never get shorter stands what was there from the start. -/
theorem serve_reply (hn : messages.length ≤ n)
    (hgrow : messages.Pairwise fun m m' => m.text.length ≤ m'.text.length) (hk : messages[k]? = some m) :
    (serve n buffer (messages.map fun m => .sends m.text))[k]? = some (overlay m.text buffer) := by
  induction messages generalizing n buffer k with
  | nil => cases hk
  | cons m' messages ih =>
      obtain ⟨n, rfl⟩ : ∃ k, n = k + 1 := ⟨n - 1, by rw [List.length_cons] at hn; omega⟩
      obtain ⟨hle, hgrow⟩ := List.pairwise_cons.mp hgrow
      cases k with
      | zero => cases hk; rfl
      | succ k =>
          have hlonger := hle m (List.mem_of_getElem? hk)
          have hreply : (serve n (overlay m'.text buffer) (messages.map fun m => .sends m.text))[k]? =
              some (overlay m.text (overlay m'.text buffer)) := ih (Nat.le_of_succ_le_succ hn) hgrow hk
          rw [overlay_overlay hlonger] at hreply
          exact hreply

theorem same_iff (hr : Steady r) (hr' : Steady r') : SameReplies r r' ↔ SameGarbage r r' := by
  refine forall_congr' fun k => forall_congr' fun m => imp_congr_right fun hk => imp_congr_right fun hk' => ?_
  rw [Session.replies, serve_reply r.served hr.growing hk, Session.replies, serve_reply r'.served hr'.growing hk',
    Option.some.injEq, overlay, overlay, List.append_cancel_left_eq]

/-- Two runs keep their clients apart exactly when no message uncovers what the array held before it. -/
theorem apart_iff (r r' : Session) : Apart r r' ↔ Steady r ∧ Steady r' ∧ SameGarbage r r' := by
  constructor
  · rintro ⟨hown, hown', hsame⟩
    have hr := (own_iff r).mp hown
    have hr' := (own_iff r').mp hown'
    exact ⟨hr, hr', (same_iff hr hr').mp hsame⟩
  · rintro ⟨hr, hr', hgarbage⟩
    exact ⟨(own_iff r).mpr hr, (own_iff r').mpr hr', (same_iff hr hr').mpr hgarbage⟩

/-- After `hi` the client that sends `x` is told `xi`. -/
def leakySession : Session where
  garbage := Vector.replicate bufsize 0
  maxnpending := 5
  messages := [⟨[104, 105], by decide, by decide, by decide⟩, ⟨[120], by decide, by decide, by decide⟩]
  served := by decide

theorem shorter_not_apart :
    leakySession.replies[1]?.bind (echoclient (Vector.replicate bufsize 0)) = some [120, 105] ∧
      ¬ ∀ r r' : Session, Apart r r' := by
  refine ⟨by decide, fun hall => ?_⟩
  have hgrow := ((own_iff leakySession).mp (hall leakySession leakySession).own).growing
  exact absurd hgrow (by decide)

end GraduateOS.Echo.Clients
