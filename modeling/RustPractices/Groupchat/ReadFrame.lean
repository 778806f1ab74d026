import RustPractices.Groupchat.Codec
import RustPractices.Io.AsyncRead

/-!
# The two decoders

`decode` reads a frame from a blocking reader and `read_frame` from an asynchronous one. The two are
written independently of each other. Both do what `parse` does with the bytes, however these come:
as long as no `Pending` comes, they return the same outcome and leave the same bytes.

## Main definitions

* `pollReadFrame`: one poll of a new future of `read_frame`
* `encodeAll`, `decodeTimes`: the frame operations for several commands

## Main results

* `decode_source`: `decode` parses the bytes of a source
* `codec_agrees`: round trips in both directions, and the agreement of the two decoders
-/

open Io

namespace Groupchat

variable {S : Type*}

/-- One poll of a new future of `read_frame`. -/
def pollReadFrame [AsyncRead S] (s : S) : Poll (Outcome Command) × S :=
  match pollReadExact s 1 with
  | (.pending, s) => (.pending, s)
  | (.ready (.error e), s) => (.ready (.error e), s)
  | (.ready (.ok tagByte), s) =>
    match pollReadExact s 4 with
    | (.pending, s) => (.pending, s)
    | (.ready (.error e), s) => (.ready (.error e), s)
    | (.ready (.ok lenBytes), s) =>
      match pollReadExact s (fromBeBytes lenBytes) with
      | (.pending, s) => (.pending, s)
      | (.ready (.error e), s) => (.ready (.error e), s)
      | (.ready (.ok msgBytes), s) => (.ready (commandOf (tagByte.headD 0) msgBytes), s)

/-- The bytes that the encodings of the commands write to a vector. -/
def encodeAll (cmds : List Command) : List UInt8 :=
  cmds.foldl (fun buf cmd => (encode buf cmd).2) []

/-- Decode that many times. -/
def decodeTimes [Read S] : ℕ → S → List (Outcome Command) × S
  | 0, s => ([], s)
  | n + 1, s => ((decode s).1 :: (decodeTimes n (decode s).2).1, (decodeTimes n (decode s).2).2)

/-- Encoding to a vector appends the frame. -/
theorem encode_vec (buf : List UInt8) (cmd : Command) :
    encode buf cmd = (.ok (), buf ++ cmd.frame) := by
  unfold encode
  rw [writeAll_of_write_ok cmd.frame_ne_nil rfl]
  rfl

theorem encodeAll_eq (cmds : List Command) : encodeAll cmds = frames cmds := by
  have happend : ∀ buf, cmds.foldl (fun buf cmd => (encode buf cmd).2) buf = buf ++ frames cmds := by
    induction cmds with
    | nil => simp
    | cons cmd cmds ih =>
      intro buf
      rw [List.foldl_cons, encode_vec, ih, frames_cons, List.append_assoc]
  exact happend []

section Source

variable {s t : Source}

/-- A blocking read of `n` bytes takes them from the front. -/
theorem readExact_eq_takeExact (hs : s.failure = none) (n : ℕ) :
    (readExact s n).1 = (takeExact s.bytes n).1 ∧
      (readExact s n).2.bytes = (takeExact s.bytes n).2 ∧ (readExact s n).2.failure = none := by
  obtain ⟨s', hread, hbytes, hfailure⟩ := s.readExact_source n
  rw [hread, takeExact]
  refine ⟨?_, ?_, hfailure.trans hs⟩
  · rw [hs]
    split_ifs <;> rfl
  · split_ifs with hn
    · exact hbytes
    · rw [hbytes, List.drop_eq_nil_of_le (by omega)]

/-- **`decode` parses the bytes of a source.** -/
theorem decode_source (hs : s.failure = none) :
    (decode s).1 = (parse s.bytes).1 ∧ (decode s).2.bytes = (parse s.bytes).2 ∧
      (decode s).2.failure = none := by
  obtain ⟨hr₁, hb₁, hf₁⟩ := readExact_eq_takeExact hs 1
  unfold decode parse
  revert hr₁ hb₁ hf₁
  cases readExact s 1 with
  | mk r₁ s₁ =>
  cases takeExact s.bytes 1 with
  | mk q₁ buf₁ =>
  rintro rfl rfl hf₁
  cases r₁ with
  | error e => exact ⟨rfl, rfl, hf₁⟩
  | ok tagByte =>
  simp only
  obtain ⟨hr₂, hb₂, hf₂⟩ := readExact_eq_takeExact hf₁ 4
  revert hr₂ hb₂ hf₂
  cases readExact s₁ 4 with
  | mk r₂ s₂ =>
  cases takeExact s₁.bytes 4 with
  | mk q₂ buf₂ =>
  rintro rfl rfl hf₂
  cases r₂ with
  | error e => exact ⟨rfl, rfl, hf₂⟩
  | ok lenBytes =>
  simp only
  obtain ⟨hr₃, hb₃, hf₃⟩ := readExact_eq_takeExact hf₂ (fromBeBytes lenBytes)
  revert hr₃ hb₃ hf₃
  cases readExact s₂ (fromBeBytes lenBytes) with
  | mk r₃ s₃ =>
  cases takeExact s₂.bytes (fromBeBytes lenBytes) with
  | mk q₃ buf₃ =>
  rintro rfl rfl hf₃
  cases r₃ with
  | error e => exact ⟨rfl, rfl, hf₃⟩
  | ok msgBytes => exact ⟨rfl, rfl, hf₃⟩

/-- A source that never answers `Pending` is decoded as by `decode`. -/
theorem pollReadFrame_eq_decode (hs : s.pendings = []) :
    pollReadFrame s = (.ready (decode s).1, (decode s).2) := by
  obtain ⟨hpoll₁, hnone₁⟩ := Source.pollReadExact_eq_readExact hs 1
  unfold pollReadFrame decode
  rw [hpoll₁]
  revert hnone₁
  cases readExact s 1 with
  | mk r₁ s₁ =>
  intro hnone₁
  cases r₁ with
  | error e => rfl
  | ok tagByte =>
  simp only
  obtain ⟨hpoll₂, hnone₂⟩ := Source.pollReadExact_eq_readExact hnone₁ 4
  rw [hpoll₂]
  revert hnone₂
  cases readExact s₁ 4 with
  | mk r₂ s₂ =>
  intro hnone₂
  cases r₂ with
  | error e => rfl
  | ok lenBytes =>
  simp only
  obtain ⟨hpoll₃, -⟩ := Source.pollReadExact_eq_readExact hnone₂ (fromBeBytes lenBytes)
  rw [hpoll₃]
  cases readExact s₂ (fromBeBytes lenBytes) with
  | mk r₃ s₃ =>
  cases r₃ with
  | error e => rfl
  | ok msgBytes => rfl

/-- Decoding the encodings of commands returns the commands, and leaves what follows them. -/
theorem decodeTimes_frames {cmds : List Command} (hfits : ∀ cmd ∈ cmds, cmd.Fits)
    {r : List UInt8} (hs : s.failure = none) (hbytes : s.bytes = frames cmds ++ r) :
    (decodeTimes cmds.length s).1 = cmds.map .ok ∧ (decodeTimes cmds.length s).2.bytes = r := by
  induction cmds generalizing s with
  | nil => exact ⟨rfl, hbytes⟩
  | cons cmd cmds ih =>
    obtain ⟨hresult, hrest, hfailure⟩ := decode_source hs
    rw [hbytes, frames_cons, List.append_assoc, parse_frame_append (hfits cmd (by simp))]
      at hresult hrest
    obtain ⟨hresults, hend⟩ := ih (fun c hc => hfits c (List.mem_cons_of_mem _ hc)) hfailure hrest
    exact ⟨by rw [List.length_cons, decodeTimes, hresult, hresults, List.map_cons], hend⟩

end Source

/-- **The codec.** Decoding the encodings of commands returns the commands and leaves what follows
them; what has been decoded is what its encoding writes; and the two decoders agree on all bytes,
however these come. -/
theorem codec_agrees :
    (∀ (cmds : List Command) (r : List UInt8) (s : Source), (∀ cmd ∈ cmds, cmd.Fits) →
      s.failure = none → s.bytes = encodeAll cmds ++ r →
      (decodeTimes cmds.length s).1 = cmds.map .ok ∧ (decodeTimes cmds.length s).2.bytes = r) ∧
    (∀ (s s' : Source) (cmd : Command), s.failure = none → decode s = (.ok cmd, s') →
      ∃ p, s.bytes = p ++ s'.bytes ∧ encode [] cmd = (.ok (), p)) ∧
    ∀ s t : Source, s.failure = none → t.failure = none → t.pendings = [] → s.bytes = t.bytes →
      ∃ t', pollReadFrame t = (.ready (decode s).1, t') ∧ t'.bytes = (decode s).2.bytes := by
  refine ⟨?_, ?_, ?_⟩
  · intro cmds r s hfits hs hbytes
    rw [encodeAll_eq] at hbytes
    exact decodeTimes_frames hfits hs hbytes
  · intro s s' cmd hs hdecode
    obtain ⟨hresult, hrest, -⟩ := decode_source hs
    rw [hdecode] at hresult hrest
    have hparse : parse s.bytes = (.ok cmd, s'.bytes) := Prod.ext hresult.symm hrest.symm
    exact ⟨cmd.frame, (frame_append_of_parse hparse).1, by rw [encode_vec, List.nil_append]⟩
  · intro s t hs ht hnone hbytes
    obtain ⟨hresult, hrest, -⟩ := decode_source hs
    obtain ⟨hresult', hrest', -⟩ := decode_source ht
    refine ⟨(decode t).2, ?_, ?_⟩
    · rw [pollReadFrame_eq_decode hnone, hresult, hresult', hbytes]
    · rw [hrest, hrest', hbytes]

/-- Two commands, of which one has more bytes than characters, with a byte that follows them; the
first of them alone; and a frame with an unknown tag, which comes in two ways. -/
theorem codec_agrees_two :
    (decodeTimes 2 (⟨[.piece 0 [0, 0, 0, 2, 195], .piece 164 [1, 0, 0, 0, 0, 7]], none⟩ : Source)).1 =
      [.ok (.name "ä"), .ok (.message "")] ∧
    (∃ p, (⟨[.piece 1 [0, 0, 0, 0]], none⟩ : Source).bytes = p ++ (⟨[], none⟩ : Source).bytes ∧
      encode [] (.message "") = (.ok (), p)) ∧
    ∃ t', pollReadFrame (⟨[.piece 9 [0], .piece 0 [0, 0]], none⟩ : Source) =
        (.ready (decode (⟨[.piece 9 [0, 0, 0, 0]], none⟩ : Source)).1, t') ∧
      t'.bytes = (decode (⟨[.piece 9 [0, 0, 0, 0]], none⟩ : Source)).2.bytes := by
  refine ⟨?_, ?_, ?_⟩
  · exact (codec_agrees.1 [.name "ä", .message ""] [7] _ (by decide) rfl (by decide +kernel)).1
  · exact codec_agrees.2.1 _ _ _ rfl (by decide +kernel)
  · exact codec_agrees.2.2 _ _ rfl rfl rfl rfl

end Groupchat
