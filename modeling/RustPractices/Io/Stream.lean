import Mathlib

/-!
# Reading and writing

What the standard library provides over a reader and a writer, for any stream. A call ends with
a value, with an I/O error, or with a panic; a stream is carried along as state. `write_all` and
`read_exact` are the loops that the provided methods of `Write` and `Read` run.

## Main definitions

* `Outcome`: a value, an I/O error or a panic
* `Write`, `Read`, `ReadToEnd`: what a stream implements
* `writeAll`, `readExact`: the provided loops

## Main results

* `writeAll_of_write_ok`: a writer that takes everything at once is called once
* `readExact_of_read_full`: a reader that serves all it is asked for is called once
-/

namespace Io

universe u

/-- The kinds of `io::Error` that the programs tell apart. -/
inductive ErrorKind
  | wouldBlock
  | unexpectedEof
  | writeZero
  | unsupported
  | other
  deriving DecidableEq, Repr

/-- How a call ends without a value: with an I/O error or with a panic. -/
inductive Failure
  | error (kind : ErrorKind)
  | panic
  deriving DecidableEq, Repr

/-- The outcome of a call. -/
abbrev Outcome (α : Type u) := Except Failure α

/-- The outcome that carries an I/O error of this kind. -/
def err {α : Type u} (kind : ErrorKind) : Outcome α := .error (.error kind)

/-- The outcome of a panic. -/
def panicked {α : Type u} : Outcome α := .error .panic

/-- Whether an outcome is an I/O error. -/
def failed {α : Type u} : Outcome α → Bool
  | .error (.error _) => true
  | _ => false

instance instDecidableEqOutcome {α : Type u} [DecidableEq α] : DecidableEq (Outcome α)
  | .ok a, .ok b => decidable_of_iff (a = b) (by simp)
  | .error a, .error b => decidable_of_iff (a = b) (by simp)
  | .ok _, .error _ => isFalse (by simp)
  | .error _, .ok _ => isFalse (by simp)

/-- **A writer**: `write` offers bytes and is told how many were taken. -/
class Write (S : Type u) where
  write : S → List UInt8 → Outcome ℕ × S
  flush : S → Outcome Unit × S

/-- **A reader**: `read` asks for at most that many bytes, and gets none at end of file. -/
class Read (S : Type u) where
  read : S → ℕ → Outcome (List UInt8) × S

/-- A reader that can be read to its end: what comes before end of file or an error is appended
to the buffer, and on success the number of bytes read is returned. -/
class ReadToEnd (S : Type u) where
  readToEnd : S → List UInt8 → Outcome ℕ × List UInt8 × S

/-- A vector of bytes takes everything. -/
instance : Write (List UInt8) where
  write buf bytes := (.ok bytes.length, buf ++ bytes)
  flush buf := (.ok (), buf)

variable {S : Type u}

/-- `Write::write_all`: offer what is left until it is all taken. -/
def writeAll [Write S] (s : S) (buf : List UInt8) : Outcome Unit × S :=
  if _hbuf : buf = [] then (.ok (), s)
  else
    match Write.write s buf with
    | (.ok 0, s) => (err .writeZero, s)
    | (.ok (n + 1), s) => if n + 1 ≤ buf.length then writeAll s (buf.drop (n + 1)) else (panicked, s)
    | (.error e, s) => (.error e, s)
termination_by buf.length
decreasing_by
  have := List.length_pos_of_ne_nil _hbuf
  simp only [List.length_drop]
  omega

/-- `Read::read_exact`: read until `n` bytes have come; end of file before that is an error, and
the bytes read until then are gone. -/
def readExact [Read S] (s : S) (n : ℕ) : Outcome (List UInt8) × S :=
  if _hn : n = 0 then (.ok [], s)
  else
    match Read.read s n with
    | (.ok [], s) => (err .unexpectedEof, s)
    | (.ok (b :: bs), s) =>
      match readExact s (n - (bs.length + 1)) with
      | (.ok rest, s) => (.ok (b :: bs ++ rest), s)
      | (.error e, s) => (.error e, s)
    | (.error e, s) => (.error e, s)
termination_by n
decreasing_by omega

/-- A writer that takes everything at once is called once. -/
theorem writeAll_of_write_ok [Write S] {s s' : S} {buf : List UInt8} (hbuf : buf ≠ [])
    (h : Write.write s buf = (.ok buf.length, s')) : writeAll s buf = (.ok (), s') := by
  obtain ⟨b, bs, rfl⟩ := List.exists_cons_of_ne_nil hbuf
  have hlen : (b :: bs).length = bs.length + 1 := rfl
  rw [hlen] at h
  rw [writeAll, dif_neg hbuf, h]
  simp only [hlen, le_refl, if_true]
  rw [writeAll, dif_pos (by simp)]

@[simp] theorem readExact_zero [Read S] (s : S) : readExact s 0 = (.ok [], s) := by
  rw [readExact, dif_pos rfl]

/-- A reader that serves all it is asked for is called once. -/
theorem readExact_of_read_full [Read S] {s s' : S} {bs : List UInt8} (hbs : bs ≠ [])
    (h : Read.read s bs.length = (.ok bs, s')) : readExact s bs.length = (.ok bs, s') := by
  obtain ⟨b, bs, rfl⟩ := List.exists_cons_of_ne_nil hbs
  rw [readExact, dif_neg (by simp), h]
  simp

/-- A reader that serves less than it is asked for, and then nothing, fails at end of file. -/
theorem readExact_of_read_short [Read S] {s s' s'' : S} {bs : List UInt8} {n : ℕ}
    (hlt : bs.length < n) (h : Read.read s n = (.ok bs, s'))
    (hend : ∀ m, 0 < m → Read.read s' m = (.ok [], s'')) :
    ∃ t, readExact s n = (err .unexpectedEof, t) ∧ (bs = [] ∧ t = s' ∨ t = s'') := by
  rw [readExact, dif_neg (by omega), h]
  cases bs with
  | nil => exact ⟨s', rfl, .inl ⟨rfl, rfl⟩⟩
  | cons b bs =>
    have hrest : readExact s' (n - (bs.length + 1)) = (err .unexpectedEof, s'') := by
      simp only [List.length_cons] at hlt
      rw [readExact, dif_neg (by omega), hend _ (by omega)]
    exact ⟨s'', by simp [hrest, err], .inr rfl⟩

end Io
