import RustPractices.Io.Stream

/-!
# The wire format of the group chat

A command travels as a frame: one tag byte, the payload length in four big-endian bytes, and the
payload in UTF-8. `encode` writes a frame to any writer and `decode` reads one from any reader;
`decode` panics on an unknown tag and on a payload that is not UTF-8.

## Main definitions

* `Command.frame`: the bytes of a command
* `encode`, `decode`: the frame operations over a writer and a reader
* `parse`: what `decode` does with bytes that are all there

## Main results

* `parse_frame_append`: a frame is parsed back and leaves what follows it
* `frame_append_of_parse`: what is parsed was a frame
* `rest_eq_nil_of_parse_eq_err`: a parsing that runs into the end leaves nothing
* `eq_of_frames_eq`: a sequence of frames determines its commands
-/

open Io

namespace Groupchat

/-- A command of the chat. -/
inductive Command
  | name (name : String)
  | message (msg : String)
  deriving DecidableEq, Repr

/-! ## Integers and text as bytes -/

/-- `u32::to_be_bytes`, of the low 32 bits of a length. -/
def toBeBytes (n : ℕ) : List UInt8 :=
  [UInt8.ofNat (n / 2 ^ 24), UInt8.ofNat (n / 2 ^ 16), UInt8.ofNat (n / 2 ^ 8), UInt8.ofNat n]

/-- `u32::from_be_bytes`. -/
def fromBeBytes (bytes : List UInt8) : ℕ :=
  bytes.foldl (fun n b => n * 2 ^ 8 + b.toNat) 0

/-- `str::as_bytes`. -/
def asBytes (s : String) : List UInt8 := s.toByteArray.data.toList

/-- `String::from_utf8`, with no text for bytes that are not UTF-8. -/
def fromUtf8 (bytes : List UInt8) : Option String := String.fromUTF8? ⟨bytes.toArray⟩

@[simp] theorem length_toBeBytes (n : ℕ) : (toBeBytes n).length = 4 := rfl

theorem fromBeBytes_toBeBytes {n : ℕ} (hn : n < 2 ^ 32) : fromBeBytes (toBeBytes n) = n := by
  simp only [fromBeBytes, toBeBytes, List.foldl_cons, List.foldl_nil, UInt8.toNat_ofNat']
  omega

theorem toBeBytes_fromBeBytes {bytes : List UInt8} (h : bytes.length = 4) :
    toBeBytes (fromBeBytes bytes) = bytes := by
  match bytes, h with
  | [a, b, c, d], _ =>
    have ha := a.toNat_lt
    have hb := b.toNat_lt
    have hc := c.toNat_lt
    have hd := d.toNat_lt
    simp only [fromBeBytes, toBeBytes, List.foldl_cons, List.foldl_nil, List.cons.injEq,
      ← UInt8.toNat_inj, UInt8.toNat_ofNat', and_true]
    omega

theorem fromBeBytes_lt {bytes : List UInt8} (h : bytes.length = 4) :
    fromBeBytes bytes < 2 ^ 32 := by
  match bytes, h with
  | [a, b, c, d], _ =>
    have ha := a.toNat_lt
    have hb := b.toNat_lt
    have hc := c.toNat_lt
    have hd := d.toNat_lt
    simp only [fromBeBytes, List.foldl_cons, List.foldl_nil]
    omega

/-- Text is read back from its own bytes and from no others. -/
theorem fromUtf8_eq_some_iff {bytes : List UInt8} {s : String} :
    fromUtf8 bytes = some s ↔ asBytes s = bytes := by
  unfold fromUtf8 String.fromUTF8? asBytes
  split
  · next h =>
    rw [Option.some.injEq, ← String.toByteArray_inj]
    change (ByteArray.mk bytes.toArray) = s.toByteArray ↔ _
    constructor
    · intro hs
      rw [← hs]
    · rintro rfl
      rfl
  · next h =>
    refine ⟨fun hs => absurd hs (by simp), fun hs => absurd ?_ h⟩
    subst hs
    exact s.isValidUTF8

@[simp] theorem fromUtf8_asBytes (s : String) : fromUtf8 (asBytes s) = some s :=
  fromUtf8_eq_some_iff.mpr rfl

/-! ## Frames -/

namespace Command

/-- The tag byte of a command. -/
def tag : Command → UInt8
  | .name _ => 0
  | .message _ => 1

/-- The text of a command. -/
def payload : Command → String
  | .name text => text
  | .message text => text

/-- The bytes that `encode` writes for a command. -/
def frame (cmd : Command) : List UInt8 :=
  cmd.tag :: (toBeBytes (asBytes cmd.payload).length ++ asBytes cmd.payload)

/-- The payload length fits the length field. -/
def Fits (cmd : Command) : Prop := (asBytes cmd.payload).length < 2 ^ 32

instance : DecidablePred Fits := fun _ => inferInstanceAs (Decidable (_ < _))

theorem length_frame (cmd : Command) : cmd.frame.length = (asBytes cmd.payload).length + 5 := by
  simp [frame]; omega

theorem frame_ne_nil (cmd : Command) : cmd.frame ≠ [] := by simp [frame]

end Command

/-- The bytes of a sequence of commands. -/
def frames (cmds : List Command) : List UInt8 := cmds.flatMap Command.frame

@[simp] theorem frames_nil : frames [] = [] := rfl

@[simp] theorem frames_cons (cmd : Command) (cmds : List Command) :
    frames (cmd :: cmds) = cmd.frame ++ frames cmds := rfl

@[simp] theorem frames_append (cmds cmds' : List Command) :
    frames (cmds ++ cmds') = frames cmds ++ frames cmds' := List.flatMap_append

variable {S : Type*}

/-- `Serialize::encode`: write the frame and flush. -/
def encode [Write S] (s : S) (cmd : Command) : Outcome Unit × S :=
  match writeAll s cmd.frame with
  | (.ok (), s) => Write.flush s
  | (.error e, s) => (.error e, s)

/-- The end of `decode`: the text first, and then the tag. -/
def commandOf (tag : UInt8) (msgBytes : List UInt8) : Outcome Command :=
  match fromUtf8 msgBytes with
  | none => panicked
  | some msg => if tag = 0 then .ok (.name msg) else if tag = 1 then .ok (.message msg) else panicked

/-- `Deserialize::decode`. -/
def decode [Read S] (s : S) : Outcome Command × S :=
  match readExact s 1 with
  | (.error e, s) => (.error e, s)
  | (.ok tagByte, s) =>
    match readExact s 4 with
    | (.error e, s) => (.error e, s)
    | (.ok lenBytes, s) =>
      match readExact s (fromBeBytes lenBytes) with
      | (.error e, s) => (.error e, s)
      | (.ok msgBytes, s) => (commandOf (tagByte.headD 0) msgBytes, s)

theorem commandOf_tag_payload (cmd : Command) :
    commandOf cmd.tag (asBytes cmd.payload) = .ok cmd := by
  cases cmd <;> simp [commandOf, Command.tag, Command.payload]

theorem eq_of_commandOf_eq_ok {tag : UInt8} {msgBytes : List UInt8} {cmd : Command}
    (h : commandOf tag msgBytes = .ok cmd) : tag = cmd.tag ∧ msgBytes = asBytes cmd.payload := by
  unfold commandOf at h
  cases hmsg : fromUtf8 msgBytes with
  | none => simp [hmsg, panicked] at h
  | some msg =>
    have hb := fromUtf8_eq_some_iff.mp hmsg
    simp only [hmsg] at h
    split_ifs at h with h0 h1
    · obtain rfl := Except.ok.inj h
      exact ⟨h0, hb.symm⟩
    · obtain rfl := Except.ok.inj h
      exact ⟨h1, hb.symm⟩
    · simp [panicked] at h

/-! ## Parsing bytes that are all there

`parse` is `decode` on a buffer: it consumes a whole frame, or fails at the end of the buffer
and leaves nothing of it. -/

/-- Take `n` bytes of a buffer, or fail and leave the buffer empty. -/
def takeExact (buf : List UInt8) (n : ℕ) : Outcome (List UInt8) × List UInt8 :=
  if n ≤ buf.length then (.ok (buf.take n), buf.drop n) else (err .unexpectedEof, [])

/-- Decode one command from a buffer. -/
def parse (buf : List UInt8) : Outcome Command × List UInt8 :=
  match takeExact buf 1 with
  | (.error e, buf) => (.error e, buf)
  | (.ok tagByte, buf) =>
    match takeExact buf 4 with
    | (.error e, buf) => (.error e, buf)
    | (.ok lenBytes, buf) =>
      match takeExact buf (fromBeBytes lenBytes) with
      | (.error e, buf) => (.error e, buf)
      | (.ok msgBytes, buf) => (commandOf (tagByte.headD 0) msgBytes, buf)

theorem takeExact_append {bs buf : List UInt8} {n : ℕ} (h : bs.length = n) :
    takeExact (bs ++ buf) n = (.ok bs, buf) := by
  subst h
  simp [takeExact]

theorem takeExact_of_lt {buf : List UInt8} {n : ℕ} (h : buf.length < n) :
    takeExact buf n = (err .unexpectedEof, []) := by
  rw [takeExact, if_neg (by omega)]

theorem takeExact_eq_ok {buf bs rest : List UInt8} {n : ℕ}
    (h : takeExact buf n = (.ok bs, rest)) : buf = bs ++ rest ∧ bs.length = n := by
  unfold takeExact at h
  split_ifs at h with hn
  · obtain ⟨h₁, h₂⟩ := Prod.mk.inj h
    obtain rfl := Except.ok.inj h₁
    subst h₂
    exact ⟨(List.take_append_drop n buf).symm, List.length_take_of_le hn⟩
  · simp [err] at h

theorem takeExact_eq_error {buf rest : List UInt8} {n : ℕ} {e : Failure}
    (h : takeExact buf n = (.error e, rest)) : rest = [] := by
  unfold takeExact at h
  split_ifs at h
  · simp at h
  · exact (Prod.mk.inj h).2.symm

theorem eq_panic_of_commandOf_eq_error {tag : UInt8} {msgBytes : List UInt8} {e : Failure}
    (h : commandOf tag msgBytes = .error e) : e = .panic := by
  unfold commandOf at h
  cases hmsg : fromUtf8 msgBytes with
  | none => simpa [hmsg, panicked, eq_comm] using h
  | some msg =>
    simp only [hmsg] at h
    split_ifs at h
    exact (Except.error.inj h).symm

/-- A parsing that runs into the end of the buffer leaves nothing of it. -/
theorem rest_eq_nil_of_parse_eq_err {buf rest : List UInt8} {kind : ErrorKind}
    (h : parse buf = (.error (.error kind), rest)) : rest = [] := by
  unfold parse at h
  split at h
  · next htag =>
    obtain ⟨-, rfl⟩ := Prod.mk.inj h
    exact takeExact_eq_error htag
  split at h
  · next hlen =>
    obtain ⟨-, rfl⟩ := Prod.mk.inj h
    exact takeExact_eq_error hlen
  split at h
  · next hmsg =>
    obtain ⟨-, rfl⟩ := Prod.mk.inj h
    exact takeExact_eq_error hmsg
  · exact absurd (eq_panic_of_commandOf_eq_error (Prod.mk.inj h).1) (by simp)

@[simp] theorem parse_nil : parse [] = (err .unexpectedEof, []) := rfl

/-- A frame is parsed back and leaves what follows it. -/
theorem parse_frame_append {cmd : Command} (hfits : cmd.Fits) (rest : List UInt8) :
    parse (cmd.frame ++ rest) = (.ok cmd, rest) := by
  have hsplit : cmd.frame ++ rest =
      [cmd.tag] ++ (toBeBytes (asBytes cmd.payload).length ++ (asBytes cmd.payload ++ rest)) := by
    simp [Command.frame]
  rw [hsplit, parse, takeExact_append (List.length_singleton)]
  simp only
  rw [takeExact_append (length_toBeBytes _)]
  simp only
  rw [fromBeBytes_toBeBytes hfits, takeExact_append rfl]
  simp [commandOf_tag_payload]

/-- What is parsed was a frame. -/
theorem frame_append_of_parse {buf rest : List UInt8} {cmd : Command}
    (h : parse buf = (.ok cmd, rest)) : buf = cmd.frame ++ rest ∧ cmd.Fits := by
  unfold parse at h
  split at h
  · simp at h
  next tagByte buf₁ htag =>
  split at h
  · simp at h
  next lenBytes buf₂ hlen =>
  split at h
  · simp at h
  next msgBytes buf₃ hmsg =>
  obtain ⟨h₁, rfl⟩ := Prod.mk.inj h
  obtain ⟨rfl, htag₁⟩ := takeExact_eq_ok htag
  obtain ⟨rfl, hlen₁⟩ := takeExact_eq_ok hlen
  obtain ⟨rfl, hmsg₁⟩ := takeExact_eq_ok hmsg
  obtain ⟨ht, hp⟩ := eq_of_commandOf_eq_ok h₁
  obtain ⟨t, rfl⟩ := List.length_eq_one_iff.mp htag₁
  simp only [List.headD_cons] at ht
  rw [hp] at hmsg₁
  refine ⟨?_, ?_⟩
  · rw [Command.frame, hmsg₁, toBeBytes_fromBeBytes hlen₁, ← ht, hp]
    simp
  · rw [Command.Fits, hmsg₁]
    exact fromBeBytes_lt hlen₁

/-- A sequence of frames determines its commands. -/
theorem eq_of_frames_eq {cmds cmds' : List Command} (hfits : ∀ cmd ∈ cmds, cmd.Fits)
    (hfits' : ∀ cmd ∈ cmds', cmd.Fits) (h : frames cmds = frames cmds') : cmds = cmds' := by
  induction cmds generalizing cmds' with
  | nil =>
    cases cmds' with
    | nil => rfl
    | cons cmd' cmds' => simp [Command.frame] at h
  | cons cmd cmds ih =>
    cases cmds' with
    | nil => simp [Command.frame] at h
    | cons cmd' cmds' =>
      rw [frames_cons, frames_cons] at h
      have h₁ := parse_frame_append (hfits cmd (by simp)) (frames cmds)
      rw [h, parse_frame_append (hfits' cmd' (by simp))] at h₁
      obtain ⟨hc, hr⟩ := Prod.mk.inj h₁
      rw [← Except.ok.inj hc, ih (fun c hc => hfits c (by simp [hc]))
        (fun c hc => hfits' c (by simp [hc])) hr.symm]

end Groupchat
