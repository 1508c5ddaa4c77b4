import Mathlib.Algebra.Order.Group.Nat
import Mathlib.Data.List.Basic
import Mathlib.Tactic.Common

/-!
# Byte streams behind a descriptor

What a program sees of a stream of bytes: `read` delivers some of the bytes that are to come,
`write` takes some of the bytes it is given, and either may fail. How many bytes a call transfers is
the kernel's choice, so a source and a sink carry the choices that are still to come. These are
finitely many: when they are used up, each call transfers as much as it can. So a kernel interrupts
a program finitely often.

What is **independent of these choices** is stated on the bytes alone: a line is the shortest part
that ends with a line end (`takeLine`), and a header is read line by line up to a blank one
(`EndsHeader`).
-/

namespace ByteStream

/-- The error of a call that a signal interrupted. -/
def EINTR : ℤ := 4

/-! ### Reading -/

/-- The kernel's choice at a `read`: at most `most + 1` bytes, or a failure. -/
inductive ReadAnswer where
  | deliver (most : ℕ)
  | fail (errno : ℤ)

/-- The bytes that are still to come, before the end of the stream, and the next answers, which are
finitely many. -/
structure Source where
  bytes : List UInt8
  answers : List ReadAnswer

/-- No bytes at the end of the stream. -/
inductive ReadResult where
  | got (bytes : List UInt8)
  | failed (errno : ℤ)

namespace Source

variable {s : Source} {count : ℕ}

/-- `read(fd, buf, count)` from a source. -/
def read (s : Source) (count : ℕ) : ReadResult × Source :=
  match s.answers with
  | [] => (.got (s.bytes.take count), ⟨s.bytes.drop count, []⟩)
  | .deliver most :: answers =>
    (.got (s.bytes.take (min (most + 1) count)), ⟨s.bytes.drop (min (most + 1) count), answers⟩)
  | .fail errno :: answers => (.failed errno, ⟨s.bytes, answers⟩)

/-- A `read` of at least one byte delivers a part of what is next, or it fails. -/
theorem read_cases (s : Source) (hcount : 0 < count) :
    (∃ n answers, 0 < n ∧ n ≤ count ∧ answers <:+ s.answers ∧
      s.read count = (.got (s.bytes.take n), ⟨s.bytes.drop n, answers⟩)) ∨
    ∃ errno answers, s.answers = .fail errno :: answers ∧
      s.read count = (.failed errno, ⟨s.bytes, answers⟩) := by
  obtain ⟨bytes, answers⟩ := s
  rcases answers with - | ⟨most | errno, answers⟩
  · exact .inl ⟨count, [], hcount, le_rfl, List.suffix_rfl, rfl⟩
  · exact .inl ⟨min (most + 1) count, answers, by omega, min_le_right _ _,
      List.suffix_cons _ _, rfl⟩
  · exact .inr ⟨errno, answers, rfl, rfl⟩

/-- The only failures are interruptions by a signal. -/
def OnlyInterrupted (s : Source) : Prop := ∀ errno, .fail errno ∈ s.answers → errno = EINTR

theorem OnlyInterrupted.of_suffix (h : s.OnlyInterrupted) {t : Source}
    (hsuffix : t.answers <:+ s.answers) : t.OnlyInterrupted :=
  fun errno hmem ↦ h errno (hsuffix.subset hmem)

end Source

/-! ### Writing -/

/-- The kernel's choice at a `write`: at most `most` bytes, possibly none, or a failure. -/
inductive WriteAnswer where
  | accept (most : ℕ)
  | fail (errno : ℤ)

/-- The bytes that have been written, `errno`, and the next answers, which are finitely many. -/
structure Sink where
  written : List UInt8
  errno : ℤ
  answers : List WriteAnswer

namespace Sink

variable {s : Sink} {bytes : List UInt8}

/-- The result of `write`, which only sets `errno` if it fails. -/
def write (s : Sink) (bytes : List UInt8) : ℤ × Sink :=
  match s.answers with
  | [] => (bytes.length, { s with written := s.written ++ bytes })
  | .accept most :: answers =>
    ((min most bytes.length : ℕ),
      { s with written := s.written ++ bytes.take most, answers := answers })
  | .fail errno :: answers => (-1, { s with errno := errno, answers := answers })

/-- A `write` takes a first part of the bytes, or it fails. -/
theorem write_cases (s : Sink) (bytes : List UInt8) :
    (∃ n answers, n ≤ bytes.length ∧ answers <:+ s.answers ∧
      (n = bytes.length ∨ answers.length < s.answers.length) ∧
      s.write bytes = ((n : ℤ), ⟨s.written ++ bytes.take n, s.errno, answers⟩)) ∨
    ∃ errno answers, s.answers = .fail errno :: answers ∧
      s.write bytes = (-1, ⟨s.written, errno, answers⟩) := by
  obtain ⟨written, errno, answers⟩ := s
  rcases answers with - | ⟨most | errno', answers⟩
  · refine .inl ⟨bytes.length, [], le_rfl, List.suffix_rfl, .inl rfl, ?_⟩
    rw [List.take_length]
    rfl
  · refine .inl ⟨min most bytes.length, answers, min_le_right _ _, List.suffix_cons _ _,
      .inr (Nat.lt_succ_self _), ?_⟩
    rw [← List.take_take, List.take_length]
    rfl
  · exact .inr ⟨errno', answers, rfl, rfl⟩

/-- A `write` takes a byte at least, or it is interrupted by a signal. -/
def Patient (s : Sink) : Prop :=
  ∀ answer ∈ s.answers, (∃ most, answer = .accept (most + 1)) ∨ answer = .fail EINTR

theorem Patient.of_suffix (h : s.Patient) {t : Sink} (hsuffix : t.answers <:+ s.answers) :
    t.Patient := fun answer hmem ↦ h answer (hsuffix.subset hmem)

/-- What a patient sink does. -/
theorem Patient.write_pos (h : s.Patient) (hbytes : 0 < bytes.length) :
    0 < (s.write bytes).1 ∨ (s.write bytes).2.errno = EINTR := by
  obtain ⟨written, errno, answers⟩ := s
  rcases answers with - | ⟨most | errno', answers⟩
  · exact .inl (Int.natCast_pos.2 hbytes)
  · obtain ⟨most', hmost⟩ | hfail := h _ List.mem_cons_self
    · cases hmost
      exact .inl (Int.natCast_pos.2 (lt_min (Nat.succ_pos _) hbytes))
    · cases hfail
  · obtain ⟨most', hmost⟩ | hfail := h _ List.mem_cons_self
    · cases hmost
    · cases hfail
      exact .inr rfl

end Sink

/-! ### Lines -/

/-- `'\n'` -/
def newline : UInt8 := 10

/-- The next line, with its end, but not more than `room` bytes, and what is behind it. -/
def takeLine : ℕ → List UInt8 → List UInt8 × List UInt8
  | 0, bytes => ([], bytes)
  | _ + 1, [] => ([], [])
  | room + 1, b :: bytes =>
    if b = newline then ([b], bytes) else ((takeLine room bytes).map (b :: ·) id)

variable {room : ℕ} {bytes rest line : List UInt8}

/-- What is taken as a line and what is left are the bytes. -/
theorem takeLine_append (room : ℕ) (bytes : List UInt8) :
    (takeLine room bytes).1 ++ (takeLine room bytes).2 = bytes := by
  induction room generalizing bytes with
  | zero => rfl
  | succ room ih =>
    rcases bytes with - | ⟨b, bytes⟩
    · rfl
    · rw [takeLine]
      split
      · rfl
      · exact congrArg (b :: ·) (ih bytes)

/-- There is no line exactly at the end of the stream. -/
theorem takeLine_eq_nil_iff (hroom : 0 < room) : (takeLine room bytes).1 = [] ↔ bytes = [] := by
  obtain ⟨room, rfl⟩ := Nat.exists_eq_succ_of_ne_zero hroom.ne'
  rcases bytes with - | ⟨b, bytes⟩
  · exact iff_of_true rfl rfl
  · refine iff_of_false ?_ (List.cons_ne_nil _ _)
    rw [takeLine]
    split
    · exact List.cons_ne_nil _ _
    · exact List.cons_ne_nil _ _

/-- A line that fits is taken whole. -/
theorem takeLine_of_line (hline : newline ∉ line) (hroom : line.length < room) :
    takeLine room (line ++ newline :: rest) = (line ++ [newline], rest) := by
  induction line generalizing room with
  | nil =>
    obtain ⟨room, rfl⟩ := Nat.exists_eq_succ_of_ne_zero (Nat.ne_of_gt hroom)
    rfl
  | cons b line ih =>
    obtain ⟨room, rfl⟩ := Nat.exists_eq_succ_of_ne_zero (Nat.ne_of_gt (Nat.zero_lt_of_lt hroom))
    rw [List.mem_cons, not_or] at hline
    rw [List.cons_append, takeLine, if_neg (Ne.symm hline.1),
      ih hline.2 (Nat.lt_of_succ_lt_succ hroom)]
    rfl

/-- A line ends with the first line end. -/
theorem eq_nil_of_takeLine_eq {more : List UInt8}
    (h : (takeLine room bytes).1 = line ++ newline :: more) : more = [] := by
  induction room generalizing bytes line with
  | zero => exact absurd h.symm (List.append_ne_nil_of_right_ne_nil _ (List.cons_ne_nil _ _))
  | succ room ih =>
    rcases bytes with - | ⟨b, bytes⟩
    · exact absurd h.symm (List.append_ne_nil_of_right_ne_nil _ (List.cons_ne_nil _ _))
    rw [takeLine] at h
    split at h
    next hb =>
      rcases line with - | ⟨c, line⟩
      · exact (List.cons_eq_cons.1 h).2.symm
      · have hnil := (List.cons_eq_cons.1 h).2
        exact absurd hnil.symm (List.append_ne_nil_of_right_ne_nil _ (List.cons_ne_nil _ _))
    next hb =>
      rcases line with - | ⟨c, line⟩
      · exact absurd (List.cons_eq_cons.1 h).1 hb
      · exact ih (List.cons_eq_cons.1 h).2

/-! ### Headers -/

/-- `"\r\n"` -/
def blank : List UInt8 := [13, 10]

/-- Reading lines of at most `room` bytes from `bytes` on, the first blank one leaves `rest`. -/
inductive EndsHeader (room : ℕ) : List UInt8 → List UInt8 → Prop
  | here {bytes rest : List UInt8} :
      takeLine room bytes = (blank, rest) → EndsHeader room bytes rest
  | later {bytes line bytes' rest : List UInt8} : takeLine room bytes = (line, bytes') →
      line ≠ [] → line ≠ blank → EndsHeader room bytes' rest → EndsHeader room bytes rest

/-- Lines that fit, a blank line, and whatever follows. -/
theorem endsHeader_of_lines {lines : List (List UInt8)} (hroom : 2 ≤ room)
    (hlines : ∀ line ∈ lines, newline ∉ line ∧ line.length < room ∧ line ++ [newline] ≠ blank) :
    EndsHeader room ((lines.map (· ++ [newline])).flatten ++ (blank ++ rest)) rest := by
  induction lines with
  | nil =>
    have hline : newline ∉ [(13 : UInt8)] := by decide
    exact .here (takeLine_of_line hline hroom)
  | cons line lines ih =>
    obtain ⟨hnewline, hlength, hblank⟩ := hlines line List.mem_cons_self
    have hne : line ++ [newline] ≠ [] :=
      List.append_ne_nil_of_right_ne_nil _ (List.cons_ne_nil _ _)
    refine .later ?_ hne hblank (ih fun line hline ↦ hlines line (List.mem_cons_of_mem _ hline))
    rw [List.map_cons, List.flatten_cons, List.append_assoc, List.append_assoc,
      List.singleton_append]
    exact takeLine_of_line hnewline hlength

end ByteStream
