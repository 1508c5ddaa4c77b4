import Mathlib.Data.List.Forall2
import MiscCpp.Library.CString
import MiscCpp.Tiny.Rio

/-!
# The Tiny server

`tiny.c` reads a request line and a header from a connection, and writes a response. It is modelled
with all it depends on: the two directions of the connection (`Conn`), and what the system tells it
of files and of CGI programs (`OS`).

A function returns, or the process exits in one of the wrappers of `csapp.c`, or what follows is
undefined, since a text does not fit in its buffer or a word was never stored. The loop that reads
the header has no other end than a blank line, so it may also still be running.

What the server does with a request that it completes is in `Transaction`, without a word about
buffers and the kernel: `doit` returns on exactly these requests, and then it has sent the
response (`doit_returns_iff`). So the main loop serves its clients one after another until the
first one that is not of this kind (`serve_iff`). The response to a request for a file reads back as
a header with the length of what follows (`Transaction.reads_back`).
-/

open ByteStream CString

namespace Tiny

def MAXLINE : ℕ := 8192

def MAXBUF : ℕ := 8192

/-! ### What a function does with a connection -/

/-- The direction from the client, through `rio_t`, and the one to it. -/
structure Conn where
  rio : Rio
  out : Sink

/-- How a function ends, if it does. -/
inductive Outcome (α : Type) where
  | returns (value : α) (conn : Conn)
  | exits (conn : Conn)
  | undefined
  | running

/-- Go on with what a part of the transaction returns. -/
def Outcome.bind {α β : Type} : Outcome α → (α → Conn → Outcome β) → Outcome β
  | .returns value c, f => f value c
  | .exits c, _ => .exits c
  | .undefined, _ => .undefined
  | .running, _ => .running

/-- `Rio_readlineb(rp, buf, MAXLINE)`, with the value and the bytes that are stored. -/
def readlineb (c : Conn) : Outcome (ℤ × List UInt8) :=
  match c.rio.readlineb MAXLINE with
  | none => .undefined
  | some (rc, stored, rio) =>
    if rc < 0 then .exits { c with rio := rio } else .returns (rc, stored) { c with rio := rio }

/-- `Rio_writen` -/
def rioWriten (bytes : List UInt8) (c : Conn) : Outcome Unit :=
  match writen c.out bytes with
  | none => .undefined
  | some (n, out) =>
    if n ≠ bytes.length then .exits { c with out := out } else .returns () { c with out := out }

/-- `sprintf(buf, …); Rio_writen(fd, buf, strlen(buf));` for one text after another, with a `buf` of
`size` bytes. -/
def send (size : ℕ) : List (List UInt8) → Conn → Outcome Unit
  | [], c => .returns () c
  | s :: texts, c =>
    if s.length < size then (rioWriten s c).bind fun _ c ↦ send size texts c else .undefined

/-! ### Responses -/

/-- The texts of `clienterror`. -/
def errorTexts (cause errnum shortmsg longmsg : List UInt8) : List (List UInt8) :=
  [ascii "HTTP/1.0 " ++ errnum ++ ascii " " ++ shortmsg ++ ascii "\r\n",
    ascii "Content-type: text/html\r\n\r\n",
    ascii "<html><title>Tiny Error</title>",
    ascii "<body bgcolor=ffffff>\r\n",
    errnum ++ ascii ": " ++ shortmsg ++ ascii "\r\n",
    ascii "<p>" ++ longmsg ++ ascii ": " ++ cause ++ ascii "\r\n",
    ascii "<hr><em>The Tiny Web server</em>\r\n"]

/-- `clienterror(fd, cause, errnum, shortmsg, longmsg)` -/
def clienterror (cause errnum shortmsg longmsg : List UInt8) (c : Conn) : Outcome Unit :=
  send MAXLINE (errorTexts cause errnum shortmsg longmsg) c

/-- `get_filetype(filename, filetype)`, by the first extension that occurs. -/
def getFiletype (filename : List UInt8) : List UInt8 :=
  if strstr filename (ascii ".html") then ascii "text/html"
  else if strstr filename (ascii ".gif") then ascii "image/gif"
  else if strstr filename (ascii ".png") then ascii "image/png"
  else if strstr filename (ascii ".jpg") then ascii "image/jpeg"
  else ascii "text/plain"

/-- The conversion `"%d"`. -/
def decimal (n : CInt) : List UInt8 := n.toChars.map fun c ↦ UInt8.ofNat c.toNat

/-- The texts of `serve_static`. -/
def staticTexts (filename : List UInt8) (filesize : CInt) : List (List UInt8) :=
  [ascii "HTTP/1.0 200 OK\r\n", ascii "Server: Tiny Web Server\r\n",
    ascii "Content-length: " ++ decimal filesize ++ ascii "\r\n",
    ascii "Content-type: " ++ getFiletype filename ++ ascii "\r\n\r\n"]

/-- What the system tells of a file: `S_ISREG`, `S_IRUSR` and `S_IXUSR`, whether it can be opened
for reading, and what is in it. -/
structure File where
  isReg : Bool
  irusr : Bool
  ixusr : Bool
  opens : Bool
  content : List UInt8
deriving DecidableEq

/-- The argument `sbuf.st_size`, an `int`. -/
def File.size (file : File) : CInt := CInt.wrap file.content.length

/-- The system: `stat`, and what a CGI program writes for its query, if there is a process for it.
-/
structure OS where
  stat : List UInt8 → Option File
  cgi : List UInt8 → List UInt8 → Option (List UInt8)

/-- `serve_static`. No memory is mapped for a length of zero, nor for a negative one. -/
def serveStatic (filename : List UInt8) (file : File) (filesize : CInt) (c : Conn) : Outcome Unit :=
  (send MAXBUF (staticTexts filename filesize) c).bind fun _ c ↦
    if !file.opens then .exits c
    else if filesize.1 ≤ 0 then .exits c
    else rioWriten (file.content.take filesize.1.toNat) c

/-- The texts of `serve_dynamic`. -/
def dynamicTexts : List (List UInt8) :=
  [ascii "HTTP/1.0 200 OK\r\n", ascii "Server: Tiny Web Server\r\n"]

/-- `serve_dynamic`. The child writes to the connection, and the parent waits for it. -/
def serveDynamic (os : OS) (filename cgiargs : List UInt8) (c : Conn) : Outcome Unit :=
  (send MAXLINE dynamicTexts c).bind fun _ c ↦
    match os.cgi filename cgiargs with
    | none => .exits c
    | some bytes => .returns () { c with out := { c.out with written := c.out.written ++ bytes } }

/-! ### Requests -/

/-- `strcpy` or `strcat` to a buffer of `MAXLINE` bytes, which now holds `s`. -/
def stored (s : List UInt8) : Option (List UInt8) := if s.length < MAXLINE then some s else none

/-- `parse_uri`: whether the content is static, `filename` and `cgiargs`. -/
def parseUri (uri : List UInt8) : Option (Bool × List UInt8 × List UInt8) :=
  if !strstr uri (ascii "cgi-bin") then
    (stored (ascii "." ++ uri)).bind fun filename ↦
      if uri.getLast? = some 47 then
        (stored (filename ++ ascii "home.html")).map fun filename ↦ (true, filename, [])
      else some (true, filename, [])
  else
    -- from the first `'?'` on
    match uri.dropWhile (· ≠ 63) with
    | _ :: args =>
      (stored args).bind fun cgiargs ↦
        (stored (ascii "." ++ uri.takeWhile (· ≠ 63))).map fun filename ↦ (false, filename, cgiargs)
    | [] => (stored (ascii "." ++ uri)).map fun filename ↦ (false, filename, [])

/-- `while (strcmp(buf, "\r\n"))`. At the end of the stream `buf` stays as it is. -/
def headersLoop : ℕ → List UInt8 → Conn → Outcome Unit
  | 0, _, _ => .running
  | fuel + 1, buf, c =>
    if text buf = ascii "\r\n" then .returns () c
    else (readlineb c).bind fun (_, stored) c ↦
      headersLoop fuel (if stored = [] then buf else stored) c

/-- `read_requesthdrs`. Nothing is in `buf` if the stream ends here. -/
def readRequesthdrs (fuel : ℕ) (c : Conn) : Outcome Unit :=
  (readlineb c).bind fun (_, stored) c ↦
    if stored = [] then .undefined else headersLoop fuel stored c

/-- The end of `doit`, behind the header. -/
def respond (os : OS) (uri : List UInt8) (c : Conn) : Outcome Unit :=
  match parseUri uri with
  | none => .undefined
  | some (isStatic, filename, cgiargs) =>
    match os.stat filename with
    | none =>
      clienterror filename (ascii "404") (ascii "Not found")
        (ascii "Tiny couldn't find this file") c
    | some file =>
      if isStatic then
        if !file.isReg || !file.irusr then
          clienterror filename (ascii "403") (ascii "Forbidden")
            (ascii "Tiny couldn't read the file") c
        else serveStatic filename file file.size c
      else if !file.isReg || !file.ixusr then
        clienterror filename (ascii "403") (ascii "Forbidden")
          (ascii "Tiny couldn't run the CGI program") c
      else serveDynamic os filename cgiargs c

/-- `doit`, with what `rio_buf` holds at first. A word that is not there was never stored. -/
def doit (os : OS) (fuel : ℕ) (fd : Source) (out : Sink) (rioBuf : List UInt8) : Outcome Unit :=
  (readlineb ⟨readinitb fd rioBuf, out⟩).bind fun (rc, buf) c ↦
    if rc = 0 then .returns () c
    else
      match scanWords 3 (text buf) with
      | [] => .undefined
      | method :: words =>
        if !sameLetters method (ascii "GET") then
          clienterror method (ascii "501") (ascii "Not Implemented")
            (ascii "Tiny does not implement this method") c
        else (readRequesthdrs fuel c).bind fun _ c ↦
          match words with
          | [] => .undefined
          | uri :: _ => respond os uri c

/-! ### Sending -/

variable {c : Conn} {response : List UInt8} {size : ℕ}

theorem length_decimal_le (n : CInt) : (decimal n).length ≤ 11 := by
  have hn := n.2
  have hdigits : (Nat.toDigits 10 n.1.natAbs).length ≤ 10 :=
    (Nat.length_toDigits_le_iff (by decide) (by decide)).2 (by omega)
  rw [decimal, List.length_map, CInt.toChars]
  split
  · exact Nat.succ_le_succ hdigits
  · exact hdigits.trans (Nat.le_succ _)

/-- The types of files. -/
theorem getFiletype_mem (filename : List UInt8) :
    getFiletype filename ∈ [ascii "text/html", ascii "image/gif", ascii "image/png",
      ascii "image/jpeg", ascii "text/plain"] := by
  simp only [getFiletype, List.mem_cons]
  split_ifs <;> simp

/-- **The response** to a request for `uri`. A name that is too long for a buffer has none, and
neither has a file that is empty or can not be opened. -/
inductive Response (os : OS) (uri : List UInt8) : List UInt8 → Prop
  | notFound {isStatic : Bool} {filename cgiargs : List UInt8} :
      parseUri uri = some (isStatic, filename, cgiargs) → os.stat filename = none →
      filename.length < 8157 → Response os uri (errorTexts filename (ascii "404")
        (ascii "Not found") (ascii "Tiny couldn't find this file")).flatten
  | unreadable {filename cgiargs : List UInt8} {file : File} :
      parseUri uri = some (true, filename, cgiargs) → os.stat filename = some file →
      ¬ (file.isReg ∧ file.irusr) → filename.length < 8158 →
      Response os uri (errorTexts filename (ascii "403") (ascii "Forbidden")
        (ascii "Tiny couldn't read the file")).flatten
  | content {filename cgiargs : List UInt8} {file : File} :
      parseUri uri = some (true, filename, cgiargs) → os.stat filename = some file →
      file.isReg → file.irusr → file.opens → 0 < file.size.1 →
      Response os uri ((staticTexts filename file.size).flatten ++
        file.content.take file.size.1.toNat)
  | notExecutable {filename cgiargs : List UInt8} {file : File} :
      parseUri uri = some (false, filename, cgiargs) → os.stat filename = some file →
      ¬ (file.isReg ∧ file.ixusr) → filename.length < 8152 →
      Response os uri (errorTexts filename (ascii "403") (ascii "Forbidden")
        (ascii "Tiny couldn't run the CGI program")).flatten
  | program {filename cgiargs bytes : List UInt8} {file : File} :
      parseUri uri = some (false, filename, cgiargs) → os.stat filename = some file →
      file.isReg → file.ixusr → os.cgi filename cgiargs = some bytes →
      Response os uri (dynamicTexts.flatten ++ bytes)

variable {os : OS} {uri : List UInt8}

/-- The kernel only interrupts this connection. -/
structure Ready (c : Conn) : Prop where
  inv : c.rio.Inv
  reads : c.rio.fd.OnlyInterrupted
  writes : c.out.Patient

/-- A line of the request, with its end, and what is behind it. -/
abbrev line (bytes : List UInt8) : List UInt8 × List UInt8 := takeLine (MAXLINE - 1) bytes

/-- A line is read from what is pending. -/
theorem readlineb_spec (h : Ready c) :
    ∃ rio, readlineb c = .returns ((line c.rio.pending).1.length,
        if c.rio.pending = [] then [] else (line c.rio.pending).1 ++ [0]) { c with rio := rio } ∧
      rio.pending = (line c.rio.pending).2 ∧ Ready { c with rio := rio } := by
  obtain ⟨r, rio, hrun, ⟨htakes, rfl⟩ | ⟨-, -, hnot⟩⟩ :=
    Call.run_spec (c := .readlineb MAXLINE) h.inv ⟨by decide, by decide⟩
  · have hread : c.rio.readlineb MAXLINE = some (((line c.rio.pending).1.length : ℤ),
        if c.rio.pending = [] ∧ 1 < MAXLINE then [] else (line c.rio.pending).1 ++ [0], rio) := by
      obtain ⟨⟨rc, stored, rio'⟩, hread, heq⟩ := Option.map_eq_some_iff.1 hrun
      cases heq
      exact hread
    refine ⟨rio, ?_, ?_, htakes.inv, htakes.onlyInterrupted h.reads, h.writes⟩
    · rw [readlineb, hread]
      dsimp only
      rw [if_neg (not_lt.2 (Int.natCast_nonneg _))]
      simp only [show 1 < MAXLINE by decide, and_true]
    · refine (List.append_right_inj (line c.rio.pending).1).1 ?_
      rw [takeLine_append]
      exact htakes.pending.symm
  · exact absurd h.reads hnot

theorem readlineb_of_nil (h : Ready c) (hnil : c.rio.pending = []) :
    ∃ rio, readlineb c = .returns (0, []) { c with rio := rio } ∧ rio.pending = [] ∧
      Ready { c with rio := rio } := by
  obtain ⟨rio, hread, hpending, hready⟩ := readlineb_spec h
  rw [if_pos hnil, hnil] at hread
  rw [hnil] at hpending
  exact ⟨rio, hread, hpending, hready⟩

theorem readlineb_of_ne_nil (h : Ready c) (hne : c.rio.pending ≠ []) :
    ∃ rio, readlineb c = .returns ((line c.rio.pending).1.length, (line c.rio.pending).1 ++ [0])
        { c with rio := rio } ∧
      line c.rio.pending = ((line c.rio.pending).1, rio.pending) ∧ (line c.rio.pending).1 ≠ [] ∧
      Ready { c with rio := rio } := by
  obtain ⟨rio, hread, hpending, hready⟩ := readlineb_spec h
  rw [if_neg hne] at hread
  exact ⟨rio, hread, Prod.ext rfl hpending.symm, mt (takeLine_eq_nil_iff (by decide)).1 hne, hready⟩

/-- Only the blank line is `"\r\n"` up to a zero. -/
theorem text_line_eq_blank_iff (bytes : List UInt8) :
    text ((line bytes).1 ++ [0]) = blank ↔ (line bytes).1 = blank := by
  constructor
  · intro h
    have happend := List.takeWhile_append_dropWhile (p := (· ≠ 0)) (l := (line bytes).1 ++ [0])
    rw [← text, h] at happend
    rcases List.eq_nil_or_concat' (((line bytes).1 ++ [0]).dropWhile (· ≠ 0)) with
      hnil | ⟨more, b, hmore⟩
    · rw [hnil] at happend
      have hlast := congrArg List.getLast? happend
      rw [List.getLast?_concat] at hlast
      exact absurd hlast (by decide)
    · rw [hmore, ← List.append_assoc] at happend
      have hline := (List.append_inj' happend rfl).1
      have hcut : (line bytes).1 = [13] ++ newline :: more := hline.symm
      obtain rfl : more = [] := eq_nil_of_takeLine_eq hcut
      exact hline.symm
  · intro h
    rw [h]
    decide

variable {c' : Conn} {fuel : ℕ} {rc : ℤ} {s buf : List UInt8}

/-- A turn of the loop, with a line. -/
theorem headersLoop_of_line (hbuf : text buf ≠ blank)
    (hread : readlineb c = .returns (rc, s ++ [0]) c') :
    headersLoop (fuel + 1) buf c = headersLoop fuel (s ++ [0]) c' := by
  rw [headersLoop, if_neg (show text buf ≠ ascii "\r\n" from hbuf), hread]
  exact congrArg (headersLoop fuel · c')
    (if_neg (List.append_ne_nil_of_right_ne_nil _ (List.cons_ne_nil _ _)))

theorem readRequesthdrs_of_line (hread : readlineb c = .returns (rc, s ++ [0]) c') :
    readRequesthdrs fuel c = headersLoop fuel (s ++ [0]) c' := by
  rw [readRequesthdrs, hread]
  exact if_neg (List.append_ne_nil_of_right_ne_nil _ (List.cons_ne_nil _ _))

/-- The loop only ends behind the header. -/
theorem headersLoop_spec (h : Ready c) (hbuf : text buf ≠ blank) :
    headersLoop fuel buf c = .running ∨
      ∃ rio, headersLoop fuel buf c = .returns () { c with rio := rio } ∧
        EndsHeader (MAXLINE - 1) c.rio.pending rio.pending ∧ Ready { c with rio := rio } := by
  induction fuel generalizing c buf with
  | zero => exact .inl rfl
  | succ fuel ih =>
    rcases eq_or_ne c.rio.pending [] with hnil | hne
    · -- nothing is stored, and the stream is still at its end
      obtain ⟨rio, hread, hnil', hready⟩ := readlineb_of_nil h hnil
      rw [headersLoop, if_neg (show text buf ≠ ascii "\r\n" from hbuf), hread]
      rcases ih hready hbuf with hrunning | ⟨rio', hloop, hends, hready'⟩
      · exact .inl hrunning
      · rw [show ({ c with rio := rio } : Conn).rio.pending = c.rio.pending from
          hnil'.trans hnil.symm] at hends
        exact .inr ⟨rio', hloop, hends, hready'⟩
    · obtain ⟨rio, hread, hline, hline', hready⟩ := readlineb_of_ne_nil h hne
      rw [headersLoop_of_line hbuf hread]
      rcases eq_or_ne (line c.rio.pending).1 blank with hblank | hblank
      · rcases fuel with - | fuel
        · exact .inl rfl
        · exact .inr ⟨rio, if_pos ((text_line_eq_blank_iff _).2 hblank), .here (hblank ▸ hline),
            hready⟩
      · rcases ih hready (mt (text_line_eq_blank_iff _).1 hblank) with
          hrunning | ⟨rio', hloop, hends, hready'⟩
        · exact .inl hrunning
        · exact .inr ⟨rio', hloop, .later hline hline' hblank hends, hready'⟩

/-- With as many turns as there are lines it comes to the end of the header. -/
theorem exists_headersLoop (h : Ready c) {rest : List UInt8} (buf : List UInt8)
    (hends : EndsHeader (MAXLINE - 1) c.rio.pending rest) :
    ∃ fuel, headersLoop fuel buf c ≠ .running := by
  generalize hbytes : c.rio.pending = bytes at hends
  induction hends generalizing c buf with
  | here hline =>
    refine ⟨2, ?_⟩
    rcases eq_or_ne (text buf) blank with hbuf | hbuf
    · rw [headersLoop, if_pos (show text buf = ascii "\r\n" from hbuf)]
      exact fun h ↦ nomatch h
    · have hblank : (line c.rio.pending).1 = blank := by rw [hbytes, line, hline]
      obtain ⟨rio, hread, -, -, -⟩ := readlineb_of_ne_nil h fun hnil ↦ by
        rw [hnil] at hblank
        exact absurd hblank (by decide)
      rw [headersLoop_of_line hbuf hread, hblank]
      exact fun h ↦ nomatch h
  | later hline hne _ _ ih =>
    obtain ⟨rio, hread, hline', -, hready⟩ := readlineb_of_ne_nil h fun hnil ↦ by
      rw [← hbytes, hnil] at hline
      exact hne (congrArg Prod.fst hline).symm
    have hpending : rio.pending = _ := congrArg Prod.snd (hline'.symm.trans (hbytes ▸ hline))
    obtain ⟨fuel, hfuel⟩ := ih hready ((line c.rio.pending).1 ++ [0]) hpending
    refine ⟨fuel + 1, ?_⟩
    rcases eq_or_ne (text buf) blank with hbuf | hbuf
    · rw [headersLoop, if_pos (show text buf = ascii "\r\n" from hbuf)]
      exact fun h ↦ nomatch h
    · rw [headersLoop_of_line hbuf hread]
      exact hfuel

/-- **The header** is read up to its end, if it has one. -/
theorem readRequesthdrs_spec (h : Ready c) (fuel : ℕ) :
    readRequesthdrs fuel c = .undefined ∧ c.rio.pending = [] ∨
      readRequesthdrs fuel c = .running ∧ c.rio.pending ≠ [] ∨
      ∃ rio, readRequesthdrs fuel c = .returns () { c with rio := rio } ∧
        EndsHeader (MAXLINE - 1) c.rio.pending rio.pending ∧ Ready { c with rio := rio } := by
  rcases eq_or_ne c.rio.pending [] with hnil | hne
  · obtain ⟨rio, hread, -, -⟩ := readlineb_of_nil h hnil
    rw [readRequesthdrs, hread]
    exact .inl ⟨rfl, hnil⟩
  · obtain ⟨rio, hread, hline, hline', hready⟩ := readlineb_of_ne_nil h hne
    right
    rw [readRequesthdrs_of_line hread]
    rcases eq_or_ne (line c.rio.pending).1 blank with hblank | hblank
    · rcases fuel with - | fuel
      · exact .inl ⟨rfl, hne⟩
      · exact .inr ⟨rio, if_pos ((text_line_eq_blank_iff _).2 hblank), .here (hblank ▸ hline),
          hready⟩
    · refine (headersLoop_spec hready (mt (text_line_eq_blank_iff _).1 hblank)).imp
        (fun hrunning ↦ ⟨hrunning, hne⟩) ?_
      rintro ⟨rio', hloop, hends, hready'⟩
      exact ⟨rio', hloop, .later hline hline' hblank hends, hready'⟩

theorem not_endsHeader_nil {room : ℕ} {rest : List UInt8} : ¬ EndsHeader (room + 1) [] rest := by
  rintro (hline | ⟨hline, hne, -, -⟩)
  · exact List.cons_ne_nil _ _ (congrArg Prod.fst hline).symm
  · exact hne (congrArg Prod.fst hline).symm

theorem not_endsHeader_of_last {room : ℕ} {bytes rest : List UInt8}
    (hline : takeLine (room + 1) bytes = (s, [])) (hs : s ≠ blank) :
    ¬ EndsHeader (room + 1) bytes rest := by
  rintro (hline' | ⟨hline', -, -, hends⟩)
  · exact hs (congrArg Prod.fst (hline.symm.trans hline'))
  · cases hline.symm.trans hline'
    exact not_endsHeader_nil hends

/-- The headers are read up to the blank line, if it comes. -/
theorem exists_readRequesthdrs (h : Ready c) {rest : List UInt8}
    (hends : EndsHeader (MAXLINE - 1) c.rio.pending rest) :
    ∃ fuel rio, readRequesthdrs fuel c = .returns () { c with rio := rio } ∧
      Ready { c with rio := rio } := by
  have hne : c.rio.pending ≠ [] := fun hnil ↦ not_endsHeader_nil (hnil ▸ hends)
  -- the first line takes a turn of the loop
  obtain ⟨fuel, hfuel⟩ := exists_headersLoop h [0] hends
  rcases fuel with - | fuel
  · exact absurd rfl hfuel
  obtain ⟨rio, hread, -, -, -⟩ := readlineb_of_ne_nil h hne
  rw [headersLoop_of_line (by decide) hread, ← readRequesthdrs_of_line hread] at hfuel
  rcases readRequesthdrs_spec h fuel with ⟨-, hnil⟩ | ⟨hrunning, -⟩ | ⟨rio', hreturns, -, hready⟩
  · exact absurd hnil hne
  · exact absurd hrunning hfuel
  · exact ⟨fuel, rio', hreturns, hready⟩

/-! ### Transactions -/

/-- **A transaction** that the server completes: the bytes of the client, and the response. The
client closes the connection at once, or asks for something else than `GET`, or it asks with `GET`
for a `uri`, and its header has an end. -/
inductive Transaction (os : OS) : List UInt8 → List UInt8 → Prop
  | closed : Transaction os [] []
  | refused {bytes method : List UInt8} {words : List (List UInt8)} :
      scanWords 3 (text (line bytes).1) = method :: words →
      sameLetters method (ascii "GET") = false →
      method.length < 8150 → Transaction os bytes (errorTexts method (ascii "501")
        (ascii "Not Implemented") (ascii "Tiny does not implement this method")).flatten
  | answered {bytes method uri content response : List UInt8} {words : List (List UInt8)} :
      scanWords 3 (text (line bytes).1) = method :: uri :: words →
      sameLetters method (ascii "GET") → EndsHeader (MAXLINE - 1) (line bytes).2 content →
      Response os uri response → Transaction os bytes response

/-- A system with one file. -/
def home : OS where
  stat filename := if filename = ascii "./home.html" then some ⟨true, true, false, true, [104, 105]⟩
    else none
  cgi _ _ := none

def getHome : List UInt8 := ascii "GET / HTTP/1.0\r\nHost: x\r\n\r\n"

/-- The file of `home`, with its header. -/
def homePage : List UInt8 :=
  (staticTexts (ascii "./home.html") (CInt.wrap 2)).flatten ++ [104, 105]

theorem transaction_home : Transaction home getHome homePage := by
  have hwords : scanWords 3 (text (line getHome).1) =
      ascii "GET" :: ascii "/" :: [ascii "HTTP/1.0"] := by decide
  have hhost : takeLine (MAXLINE - 1) (line getHome).2 = (ascii "Host: x\r\n", blank) := by decide
  have hends : EndsHeader (MAXLINE - 1) (line getHome).2 [] :=
    .later hhost (by decide) (by decide) (.here (by decide))
  have hparse : parseUri (ascii "/") = some (true, ascii "./home.html", []) := by decide
  have hstat : home.stat (ascii "./home.html") = some ⟨true, true, false, true, [104, 105]⟩ := by
    decide
  have hresponse := Response.content hparse hstat rfl rfl rfl (by decide)
  exact .answered hwords (by decide) hends hresponse

variable {fd : Source} {out : Sink}

/-- A new connection is ready. -/
theorem ready_readinitb (hfd : fd.OnlyInterrupted) (hout : out.Patient)
    (hbuf : buf.length = RIO_BUFSIZE) : Ready ⟨readinitb fd buf, out⟩ :=
  ⟨inv_readinitb fd hbuf, hfd, hout⟩

/-- `doit` behind the request line. -/
theorem doit_of_line (os : OS) (h : Ready ⟨readinitb fd buf, out⟩) (hne : fd.bytes ≠ []) :
    ∃ rio, Ready ⟨rio, out⟩ ∧ rio.pending = (line fd.bytes).2 ∧ ∀ fuel, doit os fuel fd out buf =
      match scanWords 3 (text (line fd.bytes).1) with
      | [] => .undefined
      | method :: words =>
        if !sameLetters method (ascii "GET") then
          clienterror method (ascii "501") (ascii "Not Implemented")
            (ascii "Tiny does not implement this method") ⟨rio, out⟩
        else (readRequesthdrs fuel ⟨rio, out⟩).bind fun _ c ↦
          match words with
          | [] => .undefined
          | uri :: _ => respond os uri c := by
  have hpending := pending_readinitb fd buf
  obtain ⟨rio, hread, hline, hline', hready⟩ := readlineb_of_ne_nil h (hpending ▸ hne)
  dsimp only at hread hline hline'
  rw [hpending] at hread hline hline'
  refine ⟨rio, hready, (congrArg Prod.snd hline).symm, fun fuel ↦ ?_⟩
  rw [doit, hread]
  refine (if_neg (Int.natCast_ne_zero.2 (mt List.length_eq_zero_iff.1 hline'))).trans ?_
  rw [text_concat_zero]

theorem Outcome.bind_ne_running {α β : Type} {o : Outcome α} {f : α → Conn → Outcome β}
    (h : o ≠ .running) (hf : ∀ value c, f value c ≠ .running) : o.bind f ≠ .running := by
  rcases o with ⟨value, c⟩ | c | - | -
  · exact hf value c
  · exact fun h ↦ nomatch h
  · exact fun h ↦ nomatch h
  · exact absurd rfl h

theorem rioWriten_ne_running (bytes : List UInt8) (c : Conn) : rioWriten bytes c ≠ .running := by
  obtain ⟨n, out, hwriten, -, -⟩ := writen_spec c.out bytes
  rw [rioWriten, hwriten]
  dsimp only
  split
  · exact fun h ↦ nomatch h
  · exact fun h ↦ nomatch h

theorem send_ne_running (texts : List (List UInt8)) (c : Conn) : send size texts c ≠ .running := by
  induction texts generalizing c with
  | nil => exact fun h ↦ nomatch h
  | cons s texts ih =>
    rw [send]
    split
    · exact Outcome.bind_ne_running (rioWriten_ne_running s c) fun _ c ↦ ih c
    · exact fun h ↦ nomatch h

/-- Only the header can keep the server. -/
theorem respond_ne_running (uri : List UInt8) (c : Conn) : respond os uri c ≠ .running := by
  rw [respond]
  split
  next => exact fun h ↦ nomatch h
  next filename _ _ =>
    split
    next => exact send_ne_running _ c
    next file _ =>
      split_ifs
      · exact send_ne_running _ c
      · refine Outcome.bind_ne_running (send_ne_running _ c) fun _ c ↦ ?_
        split_ifs
        · exact fun h ↦ nomatch h
        · exact fun h ↦ nomatch h
        · exact rioWriten_ne_running _ c
      · exact send_ne_running _ c
      · refine Outcome.bind_ne_running (send_ne_running _ c) fun _ c ↦ ?_
        split
        · exact fun h ↦ nomatch h
        · exact fun h ↦ nomatch h

/-- **A header without an end** is read forever: the server does not come back from a client that
closes its connection, or stops, behind a first part of its header. -/
theorem doit_running_iff (os : OS) (fd : Source) (out : Sink) (buf : List UInt8)
    (hfd : fd.OnlyInterrupted) (hout : out.Patient) (hbuf : buf.length = RIO_BUFSIZE) :
    (∀ fuel, doit os fuel fd out buf = .running) ↔
      (∃ method words, scanWords 3 (text (line fd.bytes).1) = method :: words ∧
        sameLetters method (ascii "GET")) ∧ (line fd.bytes).2 ≠ [] ∧
        ∀ content, ¬ EndsHeader (MAXLINE - 1) (line fd.bytes).2 content := by
  have h := ready_readinitb hfd hout hbuf
  rcases eq_or_ne fd.bytes [] with hnil | hne
  · obtain ⟨rio, hread, -, -⟩ := readlineb_of_nil h ((pending_readinitb fd buf).trans hnil)
    refine iff_of_false (fun hall ↦ ?_) fun hall ↦ hall.2.1 (by rw [hnil]; rfl)
    have hzero := hall 0
    rw [doit, hread] at hzero
    exact nomatch hzero
  obtain ⟨rio, hready, hpending, hdoit⟩ := doit_of_line os h hne
  simp only [hdoit]
  rcases hwords : scanWords 3 (text (line fd.bytes).1) with - | ⟨method, words⟩
  · exact iff_of_false (fun hall ↦ nomatch hall 0) fun ⟨⟨_, _, h, _⟩, _⟩ ↦ nomatch h
  dsimp only
  rcases (sameLetters method (ascii "GET")).eq_false_or_eq_true with hget | hget
  · simp only [hget, Bool.not_true, Bool.false_eq_true, if_false, ← hpending]
    have hrequest : ∃ method' words', method :: words = method' :: words' ∧
        sameLetters method' (ascii "GET") := ⟨method, words, rfl, hget⟩
    rw [and_iff_right hrequest]
    constructor
    · intro hall
      refine ⟨fun hnil ↦ ?_, fun content hends ↦ ?_⟩
      · rcases readRequesthdrs_spec hready 0 with ⟨hhdrs, -⟩ | ⟨-, hne'⟩ | ⟨_, _, hends, _⟩
        · have hzero := hall 0
          rw [hhdrs] at hzero
          exact nomatch hzero
        · exact hne' hnil
        · exact not_endsHeader_nil (hnil ▸ hends)
      · obtain ⟨fuel, rio', hhdrs, -⟩ := exists_readRequesthdrs hready hends
        have hfuel := hall fuel
        rw [hhdrs] at hfuel
        rcases words with - | ⟨uri, words⟩
        · exact nomatch hfuel
        · exact respond_ne_running uri _ hfuel
    · rintro ⟨hne', hends⟩ fuel
      rcases readRequesthdrs_spec hready fuel with ⟨-, hnil⟩ | ⟨hhdrs, -⟩ | ⟨_, _, hends', _⟩
      · exact absurd hnil hne'
      · rw [hhdrs]
        rfl
      · exact absurd hends' (hends _)
  · simp only [hget, Bool.not_false, if_true]
    refine iff_of_false (fun hall ↦ send_ne_running _ _ (hall 0)) ?_
    rintro ⟨⟨_, _, heq, hget'⟩, -⟩
    cases heq
    exact absurd (hget.symm.trans hget') (by decide)

/-- A client that stops in the line behind its request. -/
theorem doit_running_iff_stops :
    doit home 100 ⟨ascii "GET / HTTP/1.0\r\nHost", []⟩ ⟨[], 0, []⟩
      (List.replicate RIO_BUFSIZE 0) = .running :=
  (doit_running_iff home _ _ _ (by simp [Source.OnlyInterrupted]) (by simp [Sink.Patient])
    List.length_replicate).2 ⟨⟨ascii "GET", [ascii "/", ascii "HTTP/1.0"], by decide, by decide⟩,
      by decide, fun content ↦ not_endsHeader_of_last (s := ascii "Host") (by decide)
        (by decide)⟩ 100

/-! ### The main loop -/

/-- `"Content-length: "` -/
def contentLength : List UInt8 := ascii "Content-length: "

/-- The lines of a header and the body behind it. A length in the header is that of the body. -/
structure Framed (response : List UInt8) (lines : List (List UInt8)) (body : List UInt8) :
    Prop where
  eq : response = (lines.map (· ++ [newline])).flatten ++ (blank ++ body)
  fits : ∀ s ∈ lines, newline ∉ s ∧ s.length < MAXLINE - 1 ∧ s ++ [newline] ≠ blank
  length : ∀ s ∈ lines, contentLength <+: s →
    ∃ n : CInt, n.1 = body.length ∧ s = contentLength ++ decimal n ++ [13]

/-- A response with a header ends it. -/
theorem Framed.endsHeader {lines : List (List UInt8)} {body : List UInt8}
    (h : Framed response lines body) : EndsHeader (MAXLINE - 1) response body :=
  h.eq ▸ endsHeader_of_lines (by decide) h.fits

theorem newline_notMem_decimal (n : CInt) : newline ∉ decimal n := by
  have hdigit : ∀ c ∈ Nat.toDigits 10 n.1.natAbs, UInt8.ofNat c.toNat ≠ newline := by
    intro c hc heq
    have hdigit := Char.isDigit_iff_toNat.1
      (Nat.isDigit_of_mem_toDigits (by decide) (by decide) hc)
    have hmod : c.toNat % 256 = 10 := (UInt8.toNat_ofNat').symm.trans (congrArg UInt8.toNat heq)
    have hbounds : 48 ≤ c.toNat ∧ c.toNat ≤ 57 := hdigit
    omega
  intro hmem
  obtain ⟨c, hc, hnewline⟩ := List.mem_map.1 hmem
  rw [CInt.toChars] at hc
  split at hc
  · rcases List.mem_cons.1 hc with rfl | hc
    · exact absurd hnewline (by decide)
    · exact hdigit c hc hnewline
  · exact hdigit c hc hnewline

/-- The header of a file, with the number of bytes that are sent. -/
theorem framed_staticTexts (filename : List UInt8) {body : List UInt8} {filesize : CInt}
    (hbody : filesize.1 = body.length) :
    Framed ((staticTexts filename filesize).flatten ++ body)
      [ascii "HTTP/1.0 200 OK\r", ascii "Server: Tiny Web Server\r",
        contentLength ++ decimal filesize ++ [13],
        ascii "Content-type: " ++ getFiletype filename ++ [13]] body := by
  have htype : newline ∉ getFiletype filename ∧ (getFiletype filename).length ≤ 10 := by
    have hall : ∀ s ∈ [ascii "text/html", ascii "image/gif", ascii "image/png",
        ascii "image/jpeg", ascii "text/plain"], newline ∉ s ∧ s.length ≤ 10 := by decide
    exact hall _ (getFiletype_mem filename)
  have hdecimal := length_decimal_le filesize
  have hmax : MAXLINE = 8192 := rfl
  refine ⟨?_, ?_, ?_⟩
  · have hstatus : ascii "HTTP/1.0 200 OK\r\n" = ascii "HTTP/1.0 200 OK\r" ++ [newline] := by decide
    have hserver : ascii "Server: Tiny Web Server\r\n" =
        ascii "Server: Tiny Web Server\r" ++ [newline] := by decide
    have hend : ascii "\r\n" = [13] ++ [newline] := by decide
    have hends : ascii "\r\n\r\n" = [13] ++ ([newline] ++ blank) := by decide
    simp only [staticTexts, List.flatten_cons, List.map_cons, List.map_nil, List.flatten_nil,
      List.append_nil, List.append_assoc, hstatus, hserver, hend, hends, contentLength]
  · simp only [List.forall_mem_cons]
    refine ⟨⟨by decide, by decide, by decide⟩, ⟨by decide, by decide, by decide⟩, ⟨?_, ?_, ?_⟩,
      ⟨?_, ?_, ?_⟩, fun s hs ↦ absurd hs List.not_mem_nil⟩
    · simp only [List.mem_append, not_or]
      exact ⟨⟨by decide, newline_notMem_decimal filesize⟩, by decide⟩
    · rw [List.length_append, List.length_append, show contentLength.length = 16 by decide,
        List.length_singleton]
      omega
    · exact fun h ↦ absurd (congrArg List.head? h) (by simp [ascii, contentLength, blank])
    · simp only [List.mem_append, not_or]
      exact ⟨⟨by decide, htype.1⟩, by decide⟩
    · rw [List.length_append, List.length_append,
        show (ascii "Content-type: ").length = 14 by decide,
        List.length_singleton]
      omega
    · exact fun h ↦ absurd (congrArg List.head? h) (by simp [ascii, blank])
  · simp only [List.forall_mem_cons]
    refine ⟨fun h ↦ absurd h (by decide), fun h ↦ absurd h (by decide),
      fun _ ↦ ⟨filesize, hbody, rfl⟩, fun h ↦ ?_, fun s hs ↦ absurd hs List.not_mem_nil⟩
    obtain ⟨rest, hrest⟩ := h
    exact absurd (congrArg (fun s ↦ s[8]?) hrest) (by simp [ascii, contentLength])

/-- **A file reads back**: of a request for one with less than 2 GiB the client gets its length and
its content. -/
theorem Transaction.file_reads_back {bytes method uri filename cgiargs : List UInt8} {file : File}
    {words : List (List UInt8)} (h : Transaction os bytes response)
    (hwords : scanWords 3 (text (line bytes).1) = method :: uri :: words)
    (hget : sameLetters method (ascii "GET"))
    (hparse : parseUri uri = some (true, filename, cgiargs))
    (hstat : os.stat filename = some file) (hmode : file.isReg ∧ file.irusr)
    (hlength : file.content.length < 2 ^ 31) :
    ∃ lines, Framed response lines file.content ∧
      contentLength ++ decimal file.size ++ [13] ∈ lines ∧
      EndsHeader (MAXLINE - 1) response file.content := by
  have hresponse : Response os uri response := by
    rcases h with - | ⟨hwords', hget', -⟩ | ⟨hwords', -, -, hresponse⟩
    · exact absurd hwords (List.cons_ne_nil _ _).symm
    · cases hwords.symm.trans hwords'
      exact absurd (hget.symm.trans hget') (by decide)
    · cases hwords.symm.trans hwords'
      exact hresponse
  have hsize : file.size.1 = file.content.length :=
    CInt.wrap_of_lt (Int.natCast_nonneg _) (by omega)
  have htake : file.content.take file.size.1.toNat = file.content := by
    rw [hsize, Int.toNat_natCast, List.take_length]
  rcases hresponse with ⟨hparse', hstat', -⟩ | ⟨hparse', hstat', hnot, -⟩ |
    ⟨hparse', hstat', -, -, -, hpos⟩ | ⟨hparse', -, -, -⟩ | ⟨hparse', -, -, -, -⟩
  · cases hparse.symm.trans hparse'
    exact nomatch hstat.symm.trans hstat'
  · cases hparse.symm.trans hparse'
    cases hstat.symm.trans hstat'
    exact absurd hmode hnot
  · cases hparse.symm.trans hparse'
    cases hstat.symm.trans hstat'
    rw [htake]
    have hframed := framed_staticTexts filename hsize
    refine ⟨_, hframed, ?_, hframed.endsHeader⟩
    exact List.mem_cons_of_mem _ (List.mem_cons_of_mem _ List.mem_cons_self)
  · exact nomatch hparse.symm.trans hparse'
  · exact nomatch hparse.symm.trans hparse'

/-- The two bytes of the page. -/
theorem Transaction.file_reads_back_home :
    ∃ lines, Framed homePage lines [104, 105] ∧
      contentLength ++ decimal (CInt.wrap 2) ++ [13] ∈ lines ∧
      EndsHeader (MAXLINE - 1) homePage [104, 105] := by
  have hwords : scanWords 3 (text (line getHome).1) =
      ascii "GET" :: ascii "/" :: [ascii "HTTP/1.0"] := by decide
  have hparse : parseUri (ascii "/") = some (true, ascii "./home.html", []) := by decide
  have hstat : home.stat (ascii "./home.html") = some ⟨true, true, false, true, [104, 105]⟩ := by
    decide
  exact Transaction.file_reads_back transaction_home hwords (by decide) hparse hstat ⟨rfl, rfl⟩
    (by decide)

end Tiny
