import MiscCpp.Library.CInt
import MiscCpp.Library.StdString
import MiscCpp.Library.TextStream

/-!
# The rows of a CSV text

`CSVRange` reads a stream line by line into one `CSVRow`, which stores the positions of the commas
between the sentinels -1 and the length of the line. The fields are between two positions next to
each other.

The positions are those at which the line is split at its commas (`IsRow`), whatever the row held
before, and the rows come in the order of the lines (`csvRows_eq`). But they are stored as `int`:
fields inside the line reach, when they are joined, from -1 to the last position
(`length_intercalate`), and the one of a line with `2 ^ 31` characters or more is not its length. So
the rows of a text are faithful exactly if no line is that long (`csvFaithful_iff`).
-/

open Splitting StdString TextStream

namespace Utils

/-! ### The classes -/

/-- A line, and the positions of its commas. -/
structure CSVRow where
  line : List Char
  data : List CInt

namespace CSVRow

variable (row : CSVRow)

/-- `row[index]`, if the field is inside the line. -/
def get (index : ℕ) : Option (List Char) := do
  let a ← row.data[index]?
  let b ← row.data[index + 1]?
  let pos ← a.incr
  let n ← CInt.checked (b.1 - pos.1)
  if 0 ≤ pos.1 ∧ 0 ≤ n.1 ∧ pos.1.toNat + n.1.toNat ≤ row.line.length then
    some ((row.line.drop pos.1.toNat).take n.1.toNat)
  else none

def size : ℕ := row.data.length - 1

/-- `emplace_back(pos)`, which converts a `size_t` to an `int`. -/
def position (pos : ℕ) : CInt := CInt.wrap pos

/-- `while ((pos = m_line.find(',', pos)) != npos)` -/
def commaLoop (line : List Char) : ℕ → ℕ → List CInt → Option (List CInt)
  | 0, _, _ => none
  | fuel + 1, pos, data =>
    let pos := find line [','] pos
    if pos ≠ npos then commaLoop line fuel (pos + 1) (data ++ [position pos]) else some data

/-- `readNextRow(str)`: read a line and note its commas. -/
def readNextRow (fuel : ℕ) (str : IStream) : Option (CSVRow × IStream) := do
  let (line, str) := str.getline row.line
  let data ← commaLoop line fuel 0 [CInt.wrap (-1)]
  some (⟨line, data ++ [position line.length]⟩, str)

end CSVRow

/-- `m_str` points to the stream or is null. -/
structure CSVIterator where
  str : Bool
  row : CSVRow

namespace CSVIterator

/-- `++it`, with the stream. -/
def incr (it : CSVIterator) (fuel : ℕ) (str : IStream) : Option (CSVIterator × IStream) :=
  if it.str then do
    let (row, str) ← it.row.readNextRow fuel str
    some (⟨!str.fail, row⟩, str)
  else some (it, str)

end CSVIterator

/-- `CSVRange::begin` -/
def csvBegin (fuel : ℕ) (str : IStream) : Option (CSVIterator × IStream) :=
  CSVIterator.incr ⟨str.good, ⟨[], []⟩⟩ fuel str

/-- The range-based `for`, with the rows in the order they come and `steps` turns for each. -/
def csvLoop (steps : ℕ) : ℕ → CSVIterator → IStream → List CSVRow → Option (List CSVRow)
  | 0, _, _, _ => none
  | fuel + 1, it, str, rows =>
    if it.str then do
      let (next, str) ← it.incr steps str
      csvLoop steps fuel next str (rows ++ [it.row])
    else some rows

/-- All rows that the iteration goes through. -/
def csvRows (fuel : ℕ) (str : IStream) : Option (List CSVRow) := do
  let (it, str) ← csvBegin fuel str
  csvLoop fuel fuel it str []

/-! ### A row -/

namespace CSVRow

variable {line : List Char} {row : CSVRow} {cur pos n i fuel : ℕ} {qs : List ℕ}
  {ps fields : List (List Char)} {a b d e : CInt} {data ds : List CInt} {f : List Char}

/-- A row with the positions of the commas in the line. -/
def IsRow (line : List Char) (row : CSVRow) : Prop :=
  ∃ qs ps, Found line [','] 0 qs ps ∧ Splits [','] line ps ∧
    row = ⟨line, CInt.wrap (-1) :: (qs.map position ++ [position line.length])⟩

theorem commaLoop_eq (h : Found line [','] cur qs ps) (hline : line.length < 2 ^ 63)
    (hfuel : qs.length < fuel) (data : List CInt) :
    commaLoop line fuel cur data = some (data ++ qs.map position) := by
  induction h generalizing fuel data with
  | last _ hfind =>
    cases fuel with
    | zero => cases hfuel
    | succ fuel =>
      rw [commaLoop]
      simp only [hfind, ne_eq, not_true_eq_false, if_false, List.map_nil, List.append_nil]
  | @next cur p qs ps _ hfind hle _ ih =>
    cases fuel with
    | zero => cases hfuel
    | succ fuel =>
      have hne : cur + p.length ≠ npos := by
        rw [npos]
        omega
      rw [commaLoop]
      simp only [hfind, if_pos hne]
      rw [List.length_singleton] at ih
      rw [ih (Nat.lt_of_succ_lt_succ hfuel), List.append_assoc, List.map_cons,
        List.singleton_append]

theorem readNextRow_spec {steps : ℕ} (str : IStream) (hsteps : n ≤ steps) (hn : n ≤ 2 ^ 63)
    (hline : row.line.length < n) (hrest : str.rest.length < n) :
    ∃ row', row.readNextRow steps str = some (row', (str.getline row.line).2) ∧
      IsRow (str.getline row.line).1 row' := by
  have hlen := (str.getline_length row.line hline hrest).1
  have hle : 0 ≤ (str.getline row.line).1.length := Nat.zero_le _
  obtain ⟨qs, ps, hfound, hps⟩ := exists_found _ (List.cons_ne_nil ',' []) hle
  have hqs : qs.length < steps :=
    (hfound.length_le (List.cons_ne_nil ',' [])).trans_lt (hlen.trans_le hsteps)
  refine ⟨_, ?_, qs, ps, hfound, hps, rfl⟩
  simp only [readNextRow, commaLoop_eq hfound (hlen.trans_le hn) hqs, Option.bind_eq_bind,
    Option.bind_some, List.cons_append, List.nil_append]

/-- The field between two positions. -/
theorem get_zero (ha : a.1 = pos - 1) (hb : b.1 = pos + n) (hle : pos + n ≤ line.length)
    (hline : line.length < 2 ^ 31) :
    (⟨line, a :: b :: data⟩ : CSVRow).get 0 = some ((line.drop pos).take n) := by
  have hlt : pos + n < 2 ^ 31 := hle.trans_lt hline
  have hpos : a.incr = some ⟨pos, by omega⟩ := by
    rw [CInt.incr_eq, ha, Int.sub_add_cancel]
    exact CInt.checked_coe ⟨pos, by omega⟩
  have hn : CInt.checked (b.1 - pos) = some ⟨n, by omega⟩ := by
    rw [hb, Int.add_comm, Int.add_sub_cancel]
    exact CInt.checked_coe ⟨n, by omega⟩
  simp only [get, List.getElem?_cons_zero, List.getElem?_cons_succ, Nat.zero_add,
    Option.bind_eq_bind, Option.bind_some, hpos, hn, Int.toNat_natCast]
  exact if_pos ⟨Int.natCast_nonneg _, Int.natCast_nonneg _, hle⟩

theorem get_succ (line : List Char) (a : CInt) (data : List CInt) (i : ℕ) :
    (⟨line, a :: data⟩ : CSVRow).get (i + 1) = (⟨line, data⟩ : CSVRow).get i := rfl

/-- **The fields** of a line whose length is an `int` are the pieces. -/
theorem get_eq (h : Found line [','] cur qs ps) (hline : line.length < 2 ^ 31)
    (ha : a.1 = cur - 1) (hi : i < ps.length) :
    (⟨line, a :: (qs.map position ++ [position line.length])⟩ : CSVRow).get i = ps[i]? := by
  have hposition : ∀ k ≤ line.length, (position k).1 = k := fun k hk ↦
    CInt.wrap_of_lt (Int.natCast_nonneg k) (by omega)
  induction h generalizing a i with
  | @last cur hle _ =>
    obtain rfl : i = 0 := Nat.lt_one_iff.1 hi
    have hb : (position line.length).1 = cur + (line.length - cur : ℕ) := by
      rw [hposition _ le_rfl]
      omega
    refine (get_zero ha hb (by omega) hline).trans ?_
    rw [← List.length_drop, List.take_length]
    rfl
  | @next cur p qs ps hpiece _ hle _ ih =>
    cases i with
    | zero =>
      have hb : (position (cur + p.length)).1 = cur + p.length := by
        rw [hposition _ (by omega)]
        exact Int.natCast_add cur p.length
      refine (get_zero ha hb (by omega) hline).trans ?_
      rw [hpiece]
      rfl
    | succ i =>
      rw [List.map_cons, List.cons_append, get_succ]
      refine ih ?_ (Nat.lt_of_succ_lt_succ hi)
      rw [hposition _ (by omega), List.length_singleton]
      omega

/-- A field inside the line is as long as the positions say. -/
theorem length_of_get (h : (⟨line, a :: b :: data⟩ : CSVRow).get 0 = some f) :
    (f.length : ℤ) = b.1 - a.1 - 1 := by
  simp only [get, List.getElem?_cons_zero, List.getElem?_cons_succ, Nat.zero_add,
    Option.bind_eq_bind, Option.bind_some] at h
  obtain ⟨pos, hpos, h⟩ := Option.bind_eq_some_iff.1 h
  obtain ⟨n, hn, h⟩ := Option.bind_eq_some_iff.1 h
  rw [CInt.incr_eq] at hpos
  have hpos := CInt.checked_eq_some hpos
  have hn := CInt.checked_eq_some hn
  split at h
  next hle =>
    obtain rfl := Option.some.inj h
    rw [List.length_take, List.length_drop]
    omega
  next => cases h

/-- Joined, fields inside the line reach from the first position to the last. -/
theorem length_intercalate (hlen : fields.length = ds.length + 1)
    (h : ∀ i < fields.length, (⟨line, d :: (ds ++ [e])⟩ : CSVRow).get i = fields[i]?) :
    (([','].intercalate fields).length : ℤ) = e.1 - d.1 - 1 := by
  induction ds generalizing d fields with
  | nil =>
    obtain ⟨f, rfl⟩ := List.length_eq_one_iff.1 hlen
    rw [List.intercalate_singleton]
    exact length_of_get (h 0 Nat.one_pos)
  | cons b ds ih =>
    cases fields with
    | nil => cases hlen
    | cons f fields =>
      have hf := length_of_get (h 0 (Nat.succ_pos _))
      have hne : fields ≠ [] := by
        rintro rfl
        cases hlen
      have hrest := ih (Nat.succ.inj hlen) fun i hi ↦ h (i + 1) (Nat.succ_lt_succ hi)
      rw [List.intercalate_cons_of_ne_nil hne, List.length_append, List.length_append,
        List.length_singleton]
      omega

/-- The fields are inside the line and contain no comma, joined by commas they give the line back,
and there is one more of them than there are commas. -/
def RowRight (row : CSVRow) : Prop :=
  ∃ fields : List (List Char), fields.length = row.size ∧
    (∀ i < row.size, row.get i = fields[i]?) ∧ (∀ f ∈ fields, ',' ∉ f) ∧
    [','].intercalate fields = row.line ∧ row.size = row.line.count ',' + 1

/-- **A row** is right if and only if the length of the line is an `int`. -/
theorem rowRight_iff (h : IsRow line row) : RowRight row ↔ line.length < 2 ^ 31 := by
  obtain ⟨qs, ps, hfound, hps, rfl⟩ := h
  have hsize : ∀ d e, (⟨line, d :: (qs.map position ++ [e])⟩ : CSVRow).size = ps.length := by
    intro d e
    rw [size, List.length_cons, List.length_append, List.length_map, List.length_singleton,
      Nat.add_sub_cancel, hfound.length]
  constructor
  · rintro ⟨fields, hlen, hget, -, hjoin, -⟩
    rw [hsize] at hlen hget
    rw [← hlen] at hget
    have hds : fields.length = (qs.map position).length + 1 := by
      rw [hlen, hfound.length, List.length_map]
    have hend := length_intercalate hds hget
    rw [show [','].intercalate fields = line from hjoin] at hend
    -- the last position is that of the end, and less than `2 ^ 31`
    have hlt := (position line.length).2.2
    have hfirst : (CInt.wrap (-1)).1 = -1 := rfl
    omega
  · intro hline
    refine ⟨ps, (hsize _ _).symm, fun i hi ↦ ?_, hps.notMem, hps.intercalate, ?_⟩
    · rw [hsize] at hi
      exact get_eq hfound hline rfl hi
    · rw [hsize, hps.length (List.cons_ne_nil _ _), occurrences_singleton]

end CSVRow

/-! ### The rows of a stream -/

open CSVRow

variable {n steps fuel : ℕ} {it : CSVIterator} {str : IStream} {ls : List (List Char)}

/-- **`++it`** reads the row of the next line, or becomes the end. -/
theorem incr_spec (hsteps : n ≤ steps) (hn : n ≤ 2 ^ 63) (hit : it.str = true)
    (hline : it.row.line.length < n) (hrest : str.rest.length < n) :
    ∃ it' str', it.incr steps str = some (it', str') ∧
      it'.row.line.length < n ∧ str'.rest.length < n ∧
      (str.remaining = [] ∧ it'.str = false ∨
        ∃ l, str.remaining = l :: str'.remaining ∧ IsRow l it'.row ∧ it'.str = true) := by
  obtain ⟨row, hread, hrow⟩ := readNextRow_spec str hsteps hn hline hrest
  obtain ⟨hline', hrest'⟩ := str.getline_length it.row.line hline hrest
  have hrow_line : row.line = (str.getline it.row.line).1 := by
    obtain ⟨qs, ps, -, -, rfl⟩ := hrow
    rfl
  refine ⟨⟨!(str.getline it.row.line).2.fail, row⟩, (str.getline it.row.line).2, ?_, ?_, hrest', ?_⟩
  · rw [CSVIterator.incr, if_pos hit, hread]
    rfl
  · exact hrow_line ▸ hline'
  · rcases str.getline_spec it.row.line with ⟨hnil, hfail⟩ | ⟨hcons, hfail⟩
    · exact .inl ⟨hnil, by rw [hfail, Bool.not_true]⟩
    · exact .inr ⟨_, hcons, hrow, by rw [hfail, Bool.not_false]⟩

/-- **The loop** yields the row of the iterator and those of the lines that are left. -/
theorem csvLoop_eq (hsteps : n ≤ steps) (hn : n ≤ 2 ^ 63) (hit : it.str = true)
    (hline : it.row.line.length < n) (hrest : str.rest.length < n)
    (hfuel : str.remaining.length + 1 < fuel) (rows : List CSVRow) :
    ∃ rs, List.Forall₂ IsRow str.remaining rs ∧
      csvLoop steps fuel it str rows = some (rows ++ it.row :: rs) := by
  induction fuel generalizing it str rows with
  | zero => cases hfuel
  | succ fuel ih =>
    obtain ⟨it', str', hincr, hline', hrest', hnext⟩ := incr_spec hsteps hn hit hline hrest
    rw [csvLoop, if_pos hit, hincr]
    simp only [Option.bind_eq_bind, Option.bind_some]
    rcases hnext with ⟨hnil, hit'⟩ | ⟨l, hcons, hrow, hit'⟩
    · rw [hnil] at hfuel ⊢
      refine ⟨[], .nil, ?_⟩
      cases fuel with
      | zero => cases Nat.lt_of_succ_lt_succ hfuel
      | succ fuel => rw [csvLoop, hit', if_neg Bool.false_ne_true]
    · rw [hcons] at hfuel ⊢
      obtain ⟨rs, hrs, hloop⟩ :=
        ih hit' hline' hrest' (Nat.lt_of_succ_lt_succ hfuel) (rows ++ [it.row])
      refine ⟨it'.row :: rs, .cons hrow hrs, ?_⟩
      rw [hloop, List.append_assoc, List.singleton_append]

/-- A stream that has just been opened. -/
def opened (text : StdString) : IStream := ⟨text.1, false, false⟩

theorem remaining_opened (text : StdString) : (opened text).remaining = lines text.1 := rfl

/-- **The range** yields the rows of the lines. -/
theorem csvRows_eq (text : StdString) : ∃ n, ∀ fuel ≥ n, ∃ rows,
    List.Forall₂ IsRow (lines text.1) rows ∧ csvRows fuel (opened text) = some rows := by
  refine ⟨text.1.length + (lines text.1).length + 2, fun fuel hfuel ↦ ?_⟩
  have hsteps : text.1.length + 1 ≤ fuel := by omega
  have hlen : (opened text).rest.length < text.1.length + 1 := Nat.lt_succ_self _
  have hempty : (⟨true, ⟨[], []⟩⟩ : CSVIterator).row.line.length < text.1.length + 1 :=
    Nat.succ_pos _
  obtain ⟨it, str, hincr, hline, hrest, hnext⟩ := incr_spec hsteps text.2 rfl hempty hlen
  have hbegin : csvBegin fuel (opened text) = some (it, str) := hincr
  rw [remaining_opened] at hnext
  simp only [csvRows, hbegin, Option.bind_eq_bind, Option.bind_some]
  rcases hnext with ⟨hnil, hit⟩ | ⟨l, hcons, hrow, hit⟩
  · rw [hnil]
    refine ⟨[], .nil, ?_⟩
    cases fuel with
    | zero => cases hsteps
    | succ fuel => rw [csvLoop, hit, if_neg Bool.false_ne_true]
  · rw [hcons, List.length_cons] at hfuel
    rw [hcons]
    have hleft : str.remaining.length + 1 < fuel := by omega
    obtain ⟨rs, hrs, hloop⟩ := csvLoop_eq hsteps text.2 hit hline hrest hleft []
    exact ⟨it.row :: rs, .cons hrow hrs, hloop⟩

theorem getlines_opened (text : StdString) (hfuel : (lines text.1).length < fuel) :
    (opened text).getlines fuel [] [] = some (lines text.1) :=
  IStream.getlines_eq hfuel [] []

/-- Iterating over the text yields the lines that `getline` yields, as rows that are right. -/
def CsvFaithful (text : StdString) : Prop :=
  ∃ n, ∀ fuel ≥ n, ∃ rows, csvRows fuel (opened text) = some rows ∧
    (opened text).getlines fuel [] [] = some (rows.map CSVRow.line) ∧ ∀ row ∈ rows, RowRight row

theorem map_line {rows : List CSVRow} (h : List.Forall₂ IsRow ls rows) :
    rows.map CSVRow.line = ls := by
  induction h with
  | nil => rfl
  | cons hrow _ ih =>
    obtain ⟨qs, ps, -, -, rfl⟩ := hrow
    rw [List.map_cons, ih]

theorem forall_rowRight_iff {rows : List CSVRow} (h : List.Forall₂ IsRow ls rows) :
    (∀ row ∈ rows, RowRight row) ↔ ∀ line ∈ ls, line.length < 2 ^ 31 := by
  induction h with
  | nil => exact iff_of_true (List.forall_mem_nil _) (List.forall_mem_nil _)
  | cons hrow _ ih => rw [List.forall_mem_cons, List.forall_mem_cons, rowRight_iff hrow, ih]

/-- A text with a line that is too long has a row that is not right. -/
theorem CsvFaithful.length_lt {text : StdString} (h : CsvFaithful text) :
    ∀ line ∈ lines text.1, line.length < 2 ^ 31 := by
  obtain ⟨n, hn⟩ := h
  obtain ⟨m, hm⟩ := csvRows_eq text
  obtain ⟨rows, hrun, -, hright⟩ := hn (n + m) (Nat.le_add_right ..)
  obtain ⟨rows', hrows, hrun'⟩ := hm (n + m) (Nat.le_add_left ..)
  obtain rfl := Option.some.inj (hrun.symm.trans hrun')
  exact (forall_rowRight_iff hrows).1 hright

/-- **`CSVRange`** is faithful to a text if and only if the length of each line is an `int`. -/
theorem csvFaithful_iff (text : StdString) :
    CsvFaithful text ↔ ∀ line ∈ lines text.1, line.length < 2 ^ 31 := by
  refine ⟨CsvFaithful.length_lt, fun hlines ↦ ?_⟩
  obtain ⟨n, hn⟩ := csvRows_eq text
  refine ⟨n + (lines text.1).length + 1, fun fuel hfuel ↦ ?_⟩
  obtain ⟨rows, hrows, hrun⟩ := hn fuel (by omega)
  refine ⟨rows, hrun, ?_, (forall_rowRight_iff hrows).2 hlines⟩
  rw [map_line hrows]
  exact getlines_opened text (by omega)

/-- The position of the end of a line with `2 ^ 31` characters is negative. -/
theorem not_forall_csvFaithful : ¬ ∀ text : StdString, CsvFaithful text := by
  intro h
  have hlen : (List.replicate (2 ^ 31) 'a').length < 2 ^ 63 := by
    rw [List.length_replicate]
    decide
  have hnot : '\n' ∉ List.replicate (2 ^ 31) 'a' := fun hmem ↦
    absurd (List.eq_of_mem_replicate hmem) (by decide)
  have hne : List.replicate (2 ^ 31) 'a' ≠ [] := mt (List.replicate_eq_nil_iff _).1 (by decide)
  have hline := (h ⟨_, hlen⟩).length_lt (List.replicate (2 ^ 31) 'a') (by
    rw [lines_last hnot hne]
    exact List.mem_singleton_self _)
  rw [List.length_replicate] at hline
  exact absurd hline (by decide)

end Utils
