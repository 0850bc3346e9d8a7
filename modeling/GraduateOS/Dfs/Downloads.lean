import GraduateOS.Dfs.Part1
import GraduateOS.Dfs.Transfers

namespace GraduateOS.Dfs.Downloads

open Directory hiding File
open Library.Chunks Messages Part1

/-- A run of `downloadFile`: what it has written, its counter and its status. -/
structure Download where
  messages : List File
  bytesTransferred : Nat
  status : StatusCode

/-- The loop of `downloadFile`, with the value of `IsCancelled` at its `k`-th test. -/
def downloadLoop (f : String) (bytes : Content) (isCancelled : Nat → Bool) : Nat → Nat → Nat → Nat → Download
  | 0, _, _, bytesTransferred => ⟨[], bytesTransferred, .ok⟩
  | fuel + 1, k, readLength, bytesTransferred =>
      if bytesTransferred < bytes.length then
        if isCancelled k then ⟨[], bytesTransferred, .deadlineExceeded⟩
        else
          let readLength := if bytes.length - bytesTransferred < readLength then bytes.length - bytesTransferred
            else readLength
          let response : File := ⟨f, readLength, (bytes.drop bytesTransferred).take readLength⟩
          let rest := downloadLoop f bytes isCancelled fuel (k + 1) readLength (bytesTransferred + readLength)
          { rest with messages := response :: rest.messages }
      else ⟨[], bytesTransferred, .ok⟩

/-- `downloadFile`, with one unit of fuel for each byte. -/
def downloadFile (server : Dir) (f : String) (isCancelled : Nat → Bool) : Download :=
  match server.content f with
  | none => ⟨[], 0, .notFound⟩
  | some bytes =>
      downloadLoop f bytes isCancelled bytes.length 0 (if bytes.length < 4000 then bytes.length else 4000) 0

structure Delivers (d : Download) (seen : List File) (status : StatusCode) : Prop where
  order : seen <+: d.messages
  complete : status = .ok → d.status = .ok ∧ seen = d.messages

structure WellCut (bytes : Content) (messages : List File) : Prop where
  number : messages.length = (bytes.length + 3999) / 4000
  sizes : ∀ r ∈ messages, 1 ≤ r.content.length ∧ r.content.length ≤ 4000 ∧ r.contentSize = r.content.length

variable {client server : Dir} {f : String} {now : Int} {isCancelled : Nat → Bool} {messages : List File}
  {status : StatusCode} {bytes : Content} {fuel k readLength bytesTransferred : Nat}

/-- A loop that is not cancelled writes the chunks of the file and ends by itself. -/
theorem downloadLoop_ok (hok : (downloadLoop f bytes isCancelled fuel k readLength bytesTransferred).status = .ok)
    (hle : bytesTransferred ≤ bytes.length) (hlen : bytesTransferred < bytes.length → 0 < readLength)
    (hfuel : bytes.length ≤ bytesTransferred + fuel) :
    downloadLoop f bytes isCancelled fuel k readLength bytesTransferred =
      ⟨(readChunks bytes fuel readLength bytesTransferred).map (fileMessage f), bytes.length, .ok⟩ := by
  induction fuel generalizing k readLength bytesTransferred with
  | zero =>
      obtain rfl : bytesTransferred = bytes.length := by omega
      rfl
  | succ fuel ih =>
      rw [downloadLoop] at hok ⊢
      rw [readChunks]
      by_cases hmore : bytesTransferred < bytes.length
      · rw [if_pos hmore] at hok ⊢
        rw [if_pos hmore]
        by_cases hcancel : isCancelled k = true
        · rw [if_pos hcancel] at hok
          cases hok
        · rw [if_neg hcancel] at hok ⊢
          have hpos := hlen hmore
          dsimp only at hok ⊢
          rw [ih hok (by split <;> omega) (fun _ => by split <;> omega) (by split <;> omega)]
          rfl
      · obtain rfl : bytesTransferred = bytes.length := by omega
        rw [if_neg hmore, if_neg hmore]
        rfl

theorem downloadFile_ok (hok : (downloadFile server f isCancelled).status = .ok) :
    ∃ bytes, server.content f = some bytes ∧
      downloadFile server f isCancelled = ⟨(fileChunks bytes).map (fileMessage f), bytes.length, .ok⟩ := by
  rw [downloadFile] at hok ⊢
  cases hserver : server.content f with
  | none =>
      rw [hserver] at hok
      cases hok
  | some bytes =>
      rw [hserver] at hok
      exact ⟨bytes, rfl, downloadLoop_ok hok (Nat.zero_le _) (fun _ => by split <;> omega) (by omega)⟩

theorem wellCut_fileChunks (f : String) (bytes : Content) : WellCut bytes ((fileChunks bytes).map (fileMessage f)) := by
  constructor
  · rw [List.length_map, fileChunks_length]
  · intro r hr
    obtain ⟨p, hp, rfl⟩ := List.mem_map.mp hr
    obtain ⟨hsize, hpos, hmax⟩ := fileChunks_sizes hp
    rw [hsize] at hpos hmax
    exact ⟨hpos, hmax, hsize⟩

theorem received_fileChunks (f : String) (bytes : Content) :
    received ((fileChunks bytes).map (fileMessage f)) = bytes := by
  have hcontent : Part1.File.content ∘ fileMessage f = Prod.snd := rfl
  rw [received, List.map_map, hcontent, fileChunks_flatten]

/-- A `Fetch` that returns OK leaves the client with the server's bytes,
whatever it had before. -/
theorem fetch_exact (client server : Dir) (f : String) (isCancelled : Nat → Bool) (now : Int) (seen : List File)
    (status : StatusCode) (hseen : Delivers (downloadFile server f isCancelled) seen status)
    (hok : (fetchFrom client f now seen status).2 = .ok) :
    ∃ bytes, server.content f = some bytes ∧ (fetchFrom client f now seen status).1.content f = some bytes ∧
      WellCut bytes (downloadFile server f isCancelled).messages ∧
        (downloadFile server f isCancelled).bytesTransferred = bytes.length := by
  have hstatus : status = .ok := (fetchReply_code _ f status).mp hok
  obtain ⟨hserved, hall⟩ := hseen.complete hstatus
  obtain ⟨bytes, hbytes, hrun⟩ := downloadFile_ok hserved
  rw [hrun] at hall ⊢
  have hcut := wellCut_fileChunks f bytes
  refine ⟨bytes, hbytes, ?_, hcut, rfl⟩
  have hsized : ∀ r ∈ seen, r.contentSize = r.content.length := by
    rw [hall]
    exact fun r hr => (hcut.sizes r hr).2.2
  rw [fetchFrom_content (Transfers.content_named hbytes) client seen hsized, hall, received_fileChunks, hstatus]
  rfl

/-- A longer file of the client is replaced by the two bytes of the server. -/
theorem fetch_twoBytes : ∃ bytes, (empty.put "f.txt" ⟨[1, 2], 0⟩).content "f.txt" = some bytes ∧
    (fetchFrom (empty.put "f.txt" ⟨[3, 4, 5], 0⟩) "f.txt" 1 [⟨"f.txt", 2, [1, 2]⟩] .ok).1.content "f.txt" = some bytes ∧
      WellCut bytes (downloadFile (empty.put "f.txt" ⟨[1, 2], 0⟩) "f.txt" fun _ => false).messages ∧
        (downloadFile (empty.put "f.txt" ⟨[1, 2], 0⟩) "f.txt" fun _ => false).bytesTransferred = bytes.length :=
  fetch_exact (empty.put "f.txt" ⟨[3, 4, 5], 0⟩) (empty.put "f.txt" ⟨[1, 2], 0⟩) "f.txt" (fun _ => false) 1
    [⟨"f.txt", 2, [1, 2]⟩] .ok ⟨List.prefix_rfl, fun _ => ⟨rfl, rfl⟩⟩ rfl

end GraduateOS.Dfs.Downloads
