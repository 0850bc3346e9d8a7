import GraduateOS.Gflib.Messages

namespace GraduateOS.Gflib.Sends

open Library.CStrings Messages

/-- What a call of `send` does: it takes bytes from the front of the buffer, or fails. -/
inductive SendResult
  | accepted (n : Nat)
  | failed

/-- The client's socket: what each call of `send` is to do, how many there
have been, and the bytes that they have taken. -/
structure Socket where
  results : Nat → SendResult
  sends : Nat
  received : List UInt8

def send (sock : Socket) (data : List UInt8) : Int × Socket :=
  match sock.results sock.sends with
  | .accepted n => ((data.take n).length, { sock with sends := sock.sends + 1, received := sock.received ++ data.take n })
  | .failed => (-1, { sock with sends := sock.sends + 1 })

/-- The test that both functions make. The comparison binds tighter than the
assignment, so that `n` is its truth value. -/
def sendOnce (sock : Socket) (data : List UInt8) : Int × Socket :=
  let (ret, sock) := send sock data
  let n : Int := if ret = -1 then 1 else 0
  if n ≠ 0 then (-1, sock) else (n, sock)

def gfsSend (sock : Socket) (data : List UInt8) : Int × Socket := sendOnce sock data

def gfsSendheader (sock : Socket) (status : Status) (fileLen : Nat) : Int × Socket :=
  sendOnce sock (Messages.gfsSendheader status fileLen)

inductive Call
  | send (data : List UInt8)
  | sendheader (status : Status) (fileLen : Nat)

def Call.buffer : Call → List UInt8
  | .send data => data
  | .sendheader status fileLen => Messages.gfsSendheader status fileLen

def Call.perform (sock : Socket) : Call → Int × Socket
  | .send data => gfsSend sock data
  | .sendheader status fileLen => gfsSendheader sock status fileLen

/-- The values of a handler's calls and the socket after them. -/
def performAll (sock : Socket) : List Call → List Int × Socket
  | [] => ([], sock)
  | call :: calls =>
      let (v, sock) := call.perform sock
      let (vs, sock) := performAll sock calls
      (v :: vs, sock)

def addUp : List Int → Int
  | [] => 0
  | v :: vs => v + addUp vs

def SomeFailed (sock sock' : Socket) : Prop :=
  ∃ k, sock.sends ≤ k ∧ k < sock'.sends ∧ sock.results k = .failed

structure Delivered (sock : Socket) (call : Call) : Prop where
  failure : SomeFailed sock (call.perform sock).2 → (call.perform sock).1 = -1
  whole : ¬ SomeFailed sock (call.perform sock).2 →
    (call.perform sock).2.received = sock.received ++ call.buffer ∧ (call.perform sock).1 = call.buffer.length

structure Delivers (sock : Socket) (calls : List Call) : Prop where
  each : ∀ before call after, calls = before ++ call :: after → Delivered (performAll sock before).2 call
  sum : ¬ SomeFailed sock (performAll sock calls).2 →
    addUp (performAll sock calls).1 = ((calls.flatMap Call.buffer).length : Int)

def Trivial (sock : Socket) (call : Call) : Prop := sock.results sock.sends = .failed ∨ call.buffer = []

variable {sock : Socket} {call : Call} {calls before after : List Call}

theorem perform_eq (sock : Socket) (call : Call) : call.perform sock = sendOnce sock call.buffer := by
  cases call <;> rfl

theorem perform_failed (h : sock.results sock.sends = .failed) :
    call.perform sock = (-1, { sock with sends := sock.sends + 1 }) := by
  rw [perform_eq, sendOnce, send, h]
  rfl

theorem perform_accepted {n : Nat} (h : sock.results sock.sends = .accepted n) :
    call.perform sock = (0, ⟨sock.results, sock.sends + 1, sock.received ++ call.buffer.take n⟩) := by
  have hret : ¬ ((call.buffer.take n).length : Int) = -1 := by omega
  simp only [perform_eq, sendOnce, send, h, if_neg hret]
  rfl

theorem perform_socket (sock : Socket) (call : Call) :
    (call.perform sock).2.results = sock.results ∧ (call.perform sock).2.sends = sock.sends + 1 := by
  cases h : sock.results sock.sends with
  | accepted n => rw [perform_accepted h]; exact ⟨rfl, rfl⟩
  | failed => rw [perform_failed h]; exact ⟨rfl, rfl⟩

theorem someFailed_perform : SomeFailed sock (call.perform sock).2 ↔ sock.results sock.sends = .failed := by
  rw [SomeFailed, (perform_socket sock call).2]
  constructor
  · rintro ⟨k, hle, hlt, hk⟩
    obtain rfl : k = sock.sends := by omega
    exact hk
  · exact fun h => ⟨sock.sends, Nat.le_refl _, Nat.lt_succ_self _, h⟩

theorem delivered_iff : Delivered sock call ↔ Trivial sock call := by
  rw [Trivial]
  cases h : sock.results sock.sends with
  | failed =>
      refine iff_of_true ⟨fun _ => by rw [perform_failed h], fun hno => ?_⟩ (.inl rfl)
      exact absurd (someFailed_perform.mpr h) hno
  | accepted n =>
      have hno : ¬ SomeFailed sock (call.perform sock).2 := by
        rw [someFailed_perform, h]
        exact nofun
      constructor
      · intro hd
        have hvalue := (hd.whole hno).2
        rw [perform_accepted h] at hvalue
        exact .inr (List.length_eq_zero_iff.mp (Int.natCast_eq_zero.mp hvalue.symm))
      · intro hnil
        have hnil := hnil.resolve_left nofun
        refine ⟨fun hf => absurd hf hno, fun _ => ?_⟩
        rw [perform_accepted h, hnil, List.take_nil]
        exact ⟨rfl, rfl⟩

theorem performAll_socket (sock : Socket) (calls : List Call) :
    (performAll sock calls).2.results = sock.results ∧
      (performAll sock calls).2.sends = sock.sends + calls.length := by
  induction calls generalizing sock with
  | nil => exact ⟨rfl, rfl⟩
  | cons call calls ih =>
      obtain ⟨hresults, hsends⟩ := perform_socket sock call
      obtain ⟨hrs, hss⟩ := ih (call.perform sock).2
      rw [performAll, List.length_cons]
      refine ⟨hrs.trans hresults, ?_⟩
      rw [hss, hsends]
      omega

theorem performAll_sum (hall : ∀ before call after, calls = before ++ call :: after →
      Delivered (performAll sock before).2 call) (hno : ¬ SomeFailed sock (performAll sock calls).2) :
    addUp (performAll sock calls).1 = ((calls.flatMap Call.buffer).length : Int) := by
  induction calls generalizing sock with
  | nil => rfl
  | cons call calls ih =>
      have hfirst : Delivered sock call := hall [] call calls rfl
      obtain ⟨hresults, hsends⟩ := perform_socket sock call
      have hlast := (performAll_socket (call.perform sock).2 calls).2
      have hrest : ¬ SomeFailed (call.perform sock).2 (performAll (call.perform sock).2 calls).2 := by
        rintro ⟨k, hle, hlt, hk⟩
        exact hno ⟨k, by omega, hlt, by rw [← hresults]; exact hk⟩
      have hcall : ¬ SomeFailed sock (call.perform sock).2 := by
        rintro ⟨k, hle, hlt, hk⟩
        refine hno ⟨k, hle, ?_, hk⟩
        change k < (performAll (call.perform sock).2 calls).2.sends
        omega
      have hsum : addUp (performAll (call.perform sock).2 calls).1 = ((calls.flatMap Call.buffer).length : Int) :=
        ih (fun before c after h => hall (call :: before) c after (by rw [h]; rfl)) hrest
      rw [performAll, addUp, hsum, (hfirst.whole hcall).2, List.flatMap_cons, List.length_append]
      omega

/-- A run of calls delivers exactly if every call fails or has nothing to send. -/
theorem calls_delivered_iff (sock : Socket) (calls : List Call) :
    Delivers sock calls ↔ ∀ before call after, calls = before ++ call :: after →
      sock.results (sock.sends + before.length) = .failed ∨ call.buffer = [] := by
  have hcall : ∀ before call, Delivered (performAll sock before).2 call ↔
      sock.results (sock.sends + before.length) = .failed ∨ call.buffer = [] := by
    intro before call
    rw [delivered_iff, Trivial, (performAll_socket sock before).1, (performAll_socket sock before).2]
  constructor
  · exact fun h before call after he => (hcall before call).mp (h.each before call after he)
  · intro h
    have heach : ∀ before call after, calls = before ++ call :: after → Delivered (performAll sock before).2 call :=
      fun before call after he => (hcall before call).mpr (h before call after he)
    exact ⟨heach, performAll_sum heach⟩

/-- A header is never empty: only the failure of its `send` is reported as it should be. -/
theorem header_delivered_iff (status : Status) (fileLen : Nat) :
    Delivered sock (.sendheader status fileLen) ↔ sock.results sock.sends = .failed := by
  rw [delivered_iff, Trivial]
  apply or_iff_left
  rw [Call.buffer]
  cases status <;> simp [Messages.gfsSendheader, headerEnd]

/-- The socket takes both bytes of "hi", and the value is 0. -/
theorem hi_not_delivered : (gfsSend ⟨fun _ => .accepted 2, 0, []⟩ (ascii "hi")).1 = 0 ∧
    ¬ ∀ (sock : Socket) (calls : List Call), (∀ k, sock.results k ≠ .accepted 0) → Delivers sock calls := by
  refine ⟨rfl, fun hall => ?_⟩
  have hone := (hall ⟨fun _ => .accepted 2, 0, []⟩ [.send (ascii "hi")] (fun _ => nofun)).each [] _ [] rfl
  rcases delivered_iff.mp hone with hfail | hnil
  · cases hfail
  · cases hnil

end GraduateOS.Gflib.Sends
