import Mathlib.Data.List.Basic
import Trun.Python.Regex

/-!
# Newlines of formats

`NewlineWrapper` replaces newlines in what goes through a stream, one chunk at a
time.  A newline of two bytes can be cut in two, and then counts twice.
-/

namespace Trun.Newlines

abbrev Bytes := List UInt8

def lf : UInt8 := 10
def cr : UInt8 := 13

/-- Where the program runs, which decides `os.linesep`. -/
inductive System where
  | posix
  | nt

def System.linesep : System → Bytes
  | .posix => [lf]
  | .nt => [cr, lf]

def allowedNewlines : List (Option Bytes) := [some [], some [cr, lf], some [lf], some [cr], none]

structure NewlineWrapper where
  newline : Option Bytes
  allowed : newline ∈ allowedNewlines

inductive FormatError where
  | unicodeEncodeError
  | valueError (message : String)
  | unboundLocalError
  deriving DecidableEq

/-- `newline.encode('ascii')` -/
def encodeAscii (text : String) : Except FormatError Bytes :=
  if text.toList.all fun c => c.toNat < 128 then
    pure (text.toList.map fun c => UInt8.ofNat c.toNat)
  else throw .unicodeEncodeError

def init (newline : Option String) : Except FormatError NewlineWrapper := do
  let newline ← match newline with
    | none => pure none
    | some text => some <$> encodeAscii text
  if h : newline ∈ allowedNewlines then pure ⟨newline, h⟩
  else throw (.valueError "newline need to be one of \x7bb'', b'\r\n', b'\n', b'\r', None\x7d")

/-- `b'(\n|\r\n|\r)'` -/
def newlines : Regex UInt8 :=
  .group none (.alt (.literal [lf]) (.alt (.literal [cr, lf]) (.literal [cr])))

/-- `self.newline == ''`: bytes are never equal to a text. -/
def equalsText (_newline : Option Bytes) (_text : String) : Bool := false

/-- `read`, with what is left on the stream. -/
def read (w : NewlineWrapper) (n : ℤ) (stream : Bytes) : Except FormatError (Bytes × Bytes) :=
  let b := if n < 0 then stream else stream.take n.toNat
  let stream := if n < 0 then [] else stream.drop n.toNat
  if w.newline = some [] then pure (b, stream)
  else
    let newline := if w.newline = none then some [lf] else none
    -- without a newline of its own the variable is unbound
    match newline with
    | some newline => pure (newlines.sub newline b, stream)
    | none => throw .unboundLocalError

/-- The newline of `write` and `writelines`. -/
def writtenNewline (w : NewlineWrapper) (system : System) : Bytes :=
  match w.newline with
  | none => system.linesep
  | some newline => if equalsText w.newline "" then system.linesep else newline

def write (w : NewlineWrapper) (system : System) (b : Bytes) (stream : Bytes) : Bytes :=
  stream ++ newlines.sub (writtenNewline w system) b

def writelines (w : NewlineWrapper) (system : System) (lines : List Bytes) (stream : Bytes) :
    Bytes :=
  stream ++ (lines.map fun line => newlines.sub (writtenNewline w system) line).flatten

/-! ## Chunks -/

inductive Writing where
  | write (b : Bytes)
  | writelines (lines : List Bytes)

def Writing.chunks : Writing → List Bytes
  | .write b => [b]
  | .writelines lines => lines

def Writing.run (w : NewlineWrapper) (system : System) (stream : Bytes) : Writing → Bytes
  | .write b => Newlines.write w system b stream
  | .writelines lines => Newlines.writelines w system lines stream

/-- What is on the stream after the calls. -/
def written (w : NewlineWrapper) (system : System) (calls : List Writing) : Bytes :=
  calls.foldl (Writing.run w system) []

/-- Reading pieces of the sizes, and then the rest. -/
def readPieces (w : NewlineWrapper) : List ℤ → Bytes → Except FormatError (List Bytes)
  | [], stream => do
      let (b, _) ← read w (-1) stream
      return [b]
  | n :: sizes, stream => do
      let (b, stream) ← read w n stream
      return b :: (← readPieces w sizes stream)

/-- The bytes of a stream in pieces of the sizes, and then the rest. -/
def pieces : List ℤ → Bytes → List Bytes
  | [], stream => [stream]
  | n :: sizes, stream =>
      if n < 0 then stream :: pieces sizes []
      else stream.take n.toNat :: pieces sizes (stream.drop n.toNat)

/-- Every `\n`, `\r\n` and `\r` is replaced: a `\r` before a `\n` goes with it. -/
def translate (newline : Bytes) : Bytes → Bytes
  | [] => []
  | b :: rest =>
      if b = cr ∧ rest.head? = some lf then translate newline rest
      else if b = lf ∨ b = cr then newline ++ translate newline rest
      else b :: translate newline rest

example : newlines.sub [lf] [97, cr, lf, 98, cr, cr, lf] = [97, lf, 98, lf, lf] := by decide

/-! ## The expression -/

section Expression

variable {newline front back rest : Bytes} {b : UInt8}

/-- The first of the three newlines that the text starts with. -/
theorem match?_newlines (text : Bytes) : newlines.match? text =
    (((Regex.literal [lf]).match? text).or
      (((Regex.literal [cr, lf]).match? text).or ((Regex.literal [cr]).match? text))).map
        fun inner => ⟨(none, text.take (text.length - inner.rest.length)) :: inner.groups,
          inner.rest⟩ := by
  rw [newlines, Regex.match?_group, Regex.match?_alt, Regex.match?_alt]

theorem match?_lf (rest : Bytes) :
    ∃ groups, newlines.match? (lf :: rest) = some ⟨groups, rest⟩ := by
  rw [match?_newlines, show lf :: rest = [lf] ++ rest from rfl, Regex.match?_literal]
  exact ⟨_, rfl⟩

theorem match?_crlf (rest : Bytes) :
    ∃ groups, newlines.match? (cr :: lf :: rest) = some ⟨groups, rest⟩ := by
  have hlf : ¬[lf] <+: cr :: lf :: rest := fun hstarts =>
    absurd (List.cons_prefix_cons.mp hstarts).1 (by decide)
  rw [match?_newlines, Regex.match?_literal_of_not_starts hlf,
    show cr :: lf :: rest = [cr, lf] ++ rest from rfl, Regex.match?_literal]
  exact ⟨_, rfl⟩

theorem match?_cr (hrest : rest.head? ≠ some lf) :
    ∃ groups, newlines.match? (cr :: rest) = some ⟨groups, rest⟩ := by
  have hlf : ¬[lf] <+: cr :: rest := fun hstarts =>
    absurd (List.cons_prefix_cons.mp hstarts).1 (by decide)
  have hcrlf : ¬[cr, lf] <+: cr :: rest := by
    rintro ⟨after, heq⟩
    exact hrest (by rw [← (List.cons.inj heq).2]; rfl)
  rw [match?_newlines, Regex.match?_literal_of_not_starts hlf,
    Regex.match?_literal_of_not_starts hcrlf, show cr :: rest = [cr] ++ rest from rfl,
    Regex.match?_literal]
  exact ⟨_, rfl⟩

theorem match?_other (hb : ¬(b = lf ∨ b = cr)) : newlines.match? (b :: rest) = none := by
  have hnot : ∀ c word, c ≠ b → ¬(c :: word : Bytes) <+: b :: rest := fun c word hne hstarts =>
    hne (List.cons_prefix_cons.mp hstarts).1
  have hlf : lf ≠ b := fun heq => hb (.inl heq.symm)
  have hcr : cr ≠ b := fun heq => hb (.inr heq.symm)
  rw [match?_newlines, Regex.match?_literal_of_not_starts (hnot lf [] hlf),
    Regex.match?_literal_of_not_starts (hnot cr [lf] hcr),
    Regex.match?_literal_of_not_starts (hnot cr [] hcr)]
  rfl

theorem sub_lf (newline rest : Bytes) :
    newlines.sub newline (lf :: rest) = newline ++ newlines.sub newline rest := by
  obtain ⟨groups, hmatch⟩ := match?_lf rest
  exact Regex.sub_of_some hmatch List.suffix_rfl

theorem sub_crlf (newline rest : Bytes) :
    newlines.sub newline (cr :: lf :: rest) = newline ++ newlines.sub newline rest := by
  obtain ⟨groups, hmatch⟩ := match?_crlf rest
  exact Regex.sub_of_some hmatch (List.suffix_cons lf rest)

theorem sub_cr (newline : Bytes) (hrest : rest.head? ≠ some lf) :
    newlines.sub newline (cr :: rest) = newline ++ newlines.sub newline rest := by
  obtain ⟨groups, hmatch⟩ := match?_cr hrest
  exact Regex.sub_of_some hmatch List.suffix_rfl

theorem translate_before (newline : Bytes) (hb : b = cr ∧ rest.head? = some lf) :
    translate newline (b :: rest) = translate newline rest := by
  rw [translate, if_pos hb]

theorem translate_newline (newline : Bytes) (hb : ¬(b = cr ∧ rest.head? = some lf))
    (hnewline : b = lf ∨ b = cr) :
    translate newline (b :: rest) = newline ++ translate newline rest := by
  rw [translate, if_neg hb, if_pos hnewline]

theorem translate_other (newline : Bytes) (hb : ¬(b = lf ∨ b = cr)) :
    translate newline (b :: rest) = b :: translate newline rest := by
  rw [translate, if_neg fun hboth => hb (.inr hboth.1), if_neg hb]

/-- What the expression does to a text. -/
theorem sub_newlines (newline text : Bytes) :
    newlines.sub newline text = translate newline text := by
  have hlf : ∀ {rest : Bytes}, ¬(lf = cr ∧ rest.head? = some lf) := fun hboth =>
    absurd hboth.1 (by decide)
  -- a newline of two bytes is met with its second byte in front
  induction text using List.twoStepInduction with
  | nil => rfl
  | singleton b =>
      by_cases hb : b = lf ∨ b = cr
      · rw [translate_newline newline (by simp) hb]
        cases hb with
        | inl heq => rw [heq, sub_lf, Regex.sub_nil, translate]
        | inr heq => rw [heq, sub_cr newline (by simp), Regex.sub_nil, translate]
      · rw [translate_other newline hb, Regex.sub_of_none
          (match?_other hb), Regex.sub_nil, translate]
  | cons_cons b c rest ih ihCons =>
      by_cases hb : b = lf ∨ b = cr
      · cases hb with
        | inl heq => rw [heq, sub_lf, ihCons c, translate_newline newline hlf (.inl rfl)]
        | inr heq =>
            subst heq
            by_cases hc : c = lf
            · subst hc
              rw [sub_crlf, ih, translate_before newline ⟨rfl, rfl⟩,
                translate_newline newline hlf (.inl rfl)]
            · have hhead : (c :: rest).head? ≠ some lf := fun heq => hc (Option.some.inj heq)
              rw [sub_cr newline hhead, ihCons c,
                translate_newline newline (fun hboth => hhead hboth.2) (.inr rfl)]
      · rw [translate_other newline hb, Regex.sub_of_none
          (match?_other hb), ihCons c]

end Expression

/-! ## Cuts -/

section Cuts

variable {newline front back : Bytes} {chunks : List Bytes}

/-- A newline of two bytes with a cut between them. -/
def Joins (front back : Bytes) : Prop := front.getLast? = some cr ∧ back.head? = some lf

/-- Some cut goes through a newline. -/
def Straddles (chunks : List Bytes) : Prop :=
  ∃ front back, chunks = front ++ back ∧ Joins front.flatten back.flatten

theorem straddles_cons {chunk : Bytes} : Straddles (chunk :: chunks) ↔
    Joins chunk chunks.flatten ∨ Straddles chunks := by
  constructor
  · rintro ⟨front, back, heq, hlast, hhead⟩
    cases front with
    | nil => cases hlast
    | cons first front =>
        obtain ⟨rfl, rfl⟩ := List.cons.inj heq
        by_cases hempty : front.flatten = []
        · rw [List.flatten_cons, hempty, List.append_nil] at hlast
          have hrest : (front ++ back).flatten = back.flatten := by
            rw [List.flatten_append, hempty, List.nil_append]
          exact .inl ⟨hlast, hrest ▸ hhead⟩
        · rw [List.flatten_cons, List.getLast?_append_of_ne_nil _ hempty] at hlast
          exact .inr ⟨front, back, rfl, hlast, hhead⟩
  · rintro (hjoins | ⟨front, back, rfl, hlast, hhead⟩)
    · exact ⟨[chunk], chunks, rfl, by simpa [Joins] using hjoins⟩
    · refine ⟨chunk :: front, back, rfl, ?_, hhead⟩
      rw [List.flatten_cons, List.getLast?_append, hlast]
      rfl

theorem translate_append (newline : Bytes) (hjoins : ¬Joins front back) :
    translate newline (front ++ back) = translate newline front ++ translate newline back := by
  induction front with
  | nil => rfl
  | cons b rest ih =>
      cases rest with
      | nil =>
          have hb : ¬(b = cr ∧ back.head? = some lf) := fun hboth =>
            hjoins ⟨by rw [hboth.1]; rfl, hboth.2⟩
          by_cases hnewline : b = lf ∨ b = cr
          · rw [List.singleton_append, translate_newline newline hb hnewline,
              translate_newline newline (by simp) hnewline, translate, List.append_nil]
          · rw [List.singleton_append, translate_other newline hnewline,
              translate_other newline hnewline, translate, List.singleton_append]
      | cons c rest =>
          have ih := ih hjoins
          by_cases hb : b = cr ∧ (c :: rest).head? = some lf
          · have hboth : b = cr ∧ (c :: rest ++ back).head? = some lf := hb
            rw [List.cons_append, translate_before newline hboth, translate_before newline hb, ih]
          · have hboth : ¬(b = cr ∧ (c :: rest ++ back).head? = some lf) := hb
            by_cases hnewline : b = lf ∨ b = cr
            · rw [List.cons_append, translate_newline newline hboth hnewline,
                translate_newline newline hb hnewline, ih, List.append_assoc]
            · rw [List.cons_append, translate_other newline hnewline,
                translate_other newline hnewline, ih, List.cons_append]

/-- A newline that is cut in two counts twice. -/
theorem length_translate_joins (newline : Bytes) (hjoins : Joins front back) :
    (translate newline front).length + (translate newline back).length =
      (translate newline (front ++ back)).length + newline.length := by
  obtain ⟨init, rfl⟩ := List.getLast?_eq_some_iff.mp hjoins.1
  have hlast : ¬Joins init [cr] := fun hboth => absurd hboth.2 (by decide)
  have hwhole : ¬Joins init (cr :: back) := fun hboth => absurd hboth.2 (by simp [lf, cr])
  have hsingle : translate newline [cr] = newline := by
    rw [translate_newline newline (by simp) (.inr rfl), translate, List.append_nil]
  rw [translate_append newline hlast, hsingle, List.append_assoc, List.singleton_append,
    translate_append newline hwhole, translate_before newline ⟨rfl, hjoins.2⟩, List.length_append,
    List.length_append]
  omega

theorem length_translate_append_le (newline front back : Bytes) :
    (translate newline (front ++ back)).length ≤
      (translate newline front).length + (translate newline back).length := by
  by_cases hjoins : Joins front back
  · have hlength := length_translate_joins newline hjoins
    omega
  · rw [translate_append newline hjoins, List.length_append]

/-- Chunks are translated apart as they are together unless a newline is cut in two. -/
theorem flatMap_translate_eq_iff (hnewline : newline ≠ []) :
    chunks.flatMap (translate newline) = translate newline chunks.flatten ↔
      ¬Straddles chunks := by
  have hpos := List.length_pos_iff.mpr hnewline
  have hle : ∀ chunks : List Bytes, (translate newline chunks.flatten).length ≤
      (chunks.flatMap (translate newline)).length := by
    intro chunks
    induction chunks with
    | nil => simp [translate]
    | cons chunk rest ih =>
        rw [List.flatten_cons, List.flatMap_cons, List.length_append]
        exact (length_translate_append_le newline chunk rest.flatten).trans (by omega)
  induction chunks with
  | nil =>
      simp only [List.flatMap_nil, List.flatten_nil, translate, true_iff]
      rintro ⟨front, back, heq, hlast, -⟩
      rw [(List.append_eq_nil_iff.mp heq.symm).1] at hlast
      cases hlast
  | cons chunk rest ih =>
      rw [straddles_cons, not_or, List.flatMap_cons, List.flatten_cons]
      constructor
      · intro heq
        have hlengths := congrArg List.length heq
        rw [List.length_append] at hlengths
        have hrest := hle rest
        have hjoins : ¬Joins chunk rest.flatten := by
          intro hjoins
          have hlength := length_translate_joins newline hjoins
          omega
        rw [translate_append newline hjoins] at heq
        exact ⟨hjoins, ih.mp (List.append_cancel_left heq)⟩
      · rintro ⟨hjoins, hrest⟩
        rw [translate_append newline hjoins, ih.mpr hrest]

end Cuts

/-! ## Writing and reading in pieces -/

section Pieces

variable {w : NewlineWrapper} {system : System} {calls : List Writing} {content : Bytes}
  {sizes : List ℤ}

def data (calls : List Writing) : Bytes := (calls.flatMap Writing.chunks).flatten

/-- The data with the newlines that were chosen. -/
def chosen (w : NewlineWrapper) (system : System) (text : Bytes) : Bytes :=
  match w.newline with
  | none => translate system.linesep text
  | some [] => text
  | some newline => translate newline text

/-- The calls write what one call with all the data writes, and that is the data with the chosen
newlines. -/
structure WritesAsOne (w : NewlineWrapper) (system : System) (calls : List Writing) : Prop where
  cut : written w system calls = written w system [.write (data calls)]
  once : written w system [.write (data calls)] = chosen w system (data calls)

/-- No piece raises, and the pieces are what is read at once. -/
def ReadsAsOne (w : NewlineWrapper) (sizes : List ℤ) (content : Bytes) : Prop :=
  ∃ read_ whole, readPieces w sizes content = .ok read_ ∧
    read w (-1) content = .ok (whole, []) ∧ read_.flatten = whole

theorem written_eq (w : NewlineWrapper) (system : System) (calls : List Writing) :
    written w system calls =
      (calls.flatMap Writing.chunks).flatMap (translate (writtenNewline w system)) := by
  have hfrom : ∀ stream, calls.foldl (Writing.run w system) stream = stream ++
      (calls.flatMap Writing.chunks).flatMap (translate (writtenNewline w system)) := by
    induction calls with
    | nil => simp
    | cons call rest ih =>
        intro stream
        rw [List.foldl_cons, ih, List.flatMap_cons, List.flatMap_append, ← List.append_assoc]
        congr 1
        cases call with
        | write b =>
            simp only [Writing.run, Newlines.write, Writing.chunks, sub_newlines,
              List.flatMap_singleton]
        | writelines lines =>
            simp only [Writing.run, Newlines.writelines, Writing.chunks, sub_newlines,
              List.flatMap_def]
  exact hfrom []

theorem written_once (w : NewlineWrapper) (system : System) (text : Bytes) :
    written w system [.write text] = translate (writtenNewline w system) text := by
  simp [written_eq, Writing.chunks]

theorem linesep_ne_nil (system : System) : system.linesep ≠ [] := by
  cases system <;> decide

/-- Deleting the newlines changes a text that has some. -/
theorem translate_nil_eq_iff (text : Bytes) :
    translate [] text = text ↔ ∀ b ∈ text, ¬(b = lf ∨ b = cr) := by
  have hle : ∀ text : Bytes, (translate [] text).length ≤ text.length := by
    intro text
    induction text with
    | nil => simp [translate]
    | cons b rest ih =>
        rw [translate]
        split_ifs <;> simp <;> omega
  induction text with
  | nil => simp [translate]
  | cons b rest ih =>
      by_cases hb : b = lf ∨ b = cr
      · have hshort : (translate [] (b :: rest)).length ≤ rest.length := by
          rw [translate]
          split_ifs
          · exact hle rest
          · simpa using hle rest
        constructor
        · intro heq
          rw [heq, List.length_cons] at hshort
          omega
        · intro hall
          exact absurd hb (hall b List.mem_cons_self)
      · rw [translate_other [] hb, List.forall_mem_cons]
        constructor
        · intro heq
          exact ⟨hb, ih.mp (List.cons.inj heq).2⟩
        · rintro ⟨-, hrest⟩
          rw [ih.mpr hrest]

/-- When the calls write as one: no newline is cut, or there is none to delete. -/
def WritesFine (w : NewlineWrapper) (calls : List Writing) : Prop :=
  if w.newline = some [] then ∀ b ∈ data calls, ¬(b = lf ∨ b = cr)
  else ¬Straddles (calls.flatMap Writing.chunks)

theorem writesAsOne_of_ne (hnewline : writtenNewline w system ≠ [])
    (hchosen : chosen w system (data calls) =
      translate (writtenNewline w system) (data calls)) :
    WritesAsOne w system calls ↔ ¬Straddles (calls.flatMap Writing.chunks) := by
  rw [← flatMap_translate_eq_iff hnewline, ← written_eq, ← written_once]
  exact ⟨fun h => h.cut, fun h => ⟨h, by rw [written_once, hchosen]⟩⟩

theorem writesAsOne_of_empty (hempty : w.newline = some []) :
    WritesAsOne w system calls ↔ ∀ b ∈ data calls, ¬(b = lf ∨ b = cr) := by
  have hwritten : writtenNewline w system = [] := by
    rw [writtenNewline, hempty]
    rfl
  have hchosen : chosen w system (data calls) = data calls := by
    rw [chosen, hempty]
  rw [← translate_nil_eq_iff]
  constructor
  · intro hwrites
    have honce := hwrites.once
    rwa [written_once, hwritten, hchosen] at honce
  · intro hdata
    refine ⟨?_, by rw [written_once, hwritten, hchosen, hdata]⟩
    -- every chunk is as free of newlines as the data
    have hchunks : ∀ chunk ∈ calls.flatMap Writing.chunks, translate [] chunk = chunk := by
      intro chunk hchunk
      rw [translate_nil_eq_iff] at hdata ⊢
      exact fun b hb => hdata b (List.mem_flatten.mpr ⟨chunk, hchunk, hb⟩)
    rw [written_eq, written_once, hwritten, hdata, data, List.flatMap_def,
      List.map_congr_left hchunks, List.map_id']

theorem writesAsOne_iff (w : NewlineWrapper) (system : System) (calls : List Writing) :
    WritesAsOne w system calls ↔ WritesFine w calls := by
  unfold WritesFine
  by_cases hempty : w.newline = some []
  · rw [if_pos hempty, writesAsOne_of_empty hempty]
  · rw [if_neg hempty]
    cases hnewline : w.newline with
    | none =>
        have hwritten : writtenNewline w system = system.linesep := by
          rw [writtenNewline, hnewline]
        apply writesAsOne_of_ne
        · rw [hwritten]
          exact linesep_ne_nil system
        · rw [hwritten, chosen, hnewline]
    | some newline =>
        have hne : newline ≠ [] := fun heq => hempty (by rw [hnewline, heq])
        have hwritten : writtenNewline w system = newline := by
          rw [writtenNewline, hnewline]
          rfl
        apply writesAsOne_of_ne
        · rwa [hwritten]
        · rw [hwritten, chosen, hnewline]
          cases newline with
          | nil => exact absurd rfl hne
          | cons b rest => rfl

/-- When the pieces read as one: without a newline of its own, or none cut. -/
def ReadsFine (w : NewlineWrapper) (sizes : List ℤ) (content : Bytes) : Prop :=
  w.newline = some [] ∨ w.newline = none ∧ ¬Straddles (pieces sizes content)

theorem flatten_pieces (sizes : List ℤ) (content : Bytes) :
    (pieces sizes content).flatten = content := by
  induction sizes generalizing content with
  | nil => simp [pieces]
  | cons n sizes ih =>
      rw [pieces]
      split_ifs
      · rw [List.flatten_cons, ih, List.append_nil]
      · rw [List.flatten_cons, ih, List.take_append_drop]

/-- Reading where every piece is turned into another one. -/
theorem readPieces_eq (convert : Bytes → Bytes)
    (hread : ∀ n stream, read w n stream = if n < 0 then .ok (convert stream, [])
      else .ok (convert (stream.take n.toNat), stream.drop n.toNat))
    (sizes : List ℤ) (content : Bytes) :
    readPieces w sizes content = .ok ((pieces sizes content).map convert) := by
  induction sizes generalizing content with
  | nil =>
      rw [readPieces, hread, if_pos (by decide), pieces]
      rfl
  | cons n sizes ih =>
      rw [readPieces, hread, pieces]
      split_ifs
      · simp only [bind, Except.bind, ih]
        rfl
      · simp only [bind, Except.bind, ih]
        rfl

theorem read_of_empty (hempty : w.newline = some []) (n : ℤ) (stream : Bytes) :
    read w n stream = if n < 0 then .ok (stream, [])
      else .ok (stream.take n.toNat, stream.drop n.toNat) := by
  rw [read, if_pos hempty]
  split_ifs <;> rfl

theorem read_of_none (hnone : w.newline = none) (n : ℤ) (stream : Bytes) :
    read w n stream = if n < 0 then .ok (translate [lf] stream, [])
      else .ok (translate [lf] (stream.take n.toNat), stream.drop n.toNat) := by
  have hne : ¬w.newline = some [] := by simp [hnone]
  rw [read, if_neg hne, if_pos hnone]
  simp only [sub_newlines]
  split_ifs <;> rfl

theorem read_of_some (hempty : w.newline ≠ some []) (hnone : w.newline ≠ none) (n : ℤ)
    (stream : Bytes) : read w n stream = .error .unboundLocalError := by
  rw [read, if_neg hempty, if_neg hnone]
  rfl

theorem readsAsOne_iff (w : NewlineWrapper) (sizes : List ℤ) (content : Bytes) :
    ReadsAsOne w sizes content ↔ ReadsFine w sizes content := by
  by_cases hempty : w.newline = some []
  · have hpieces := readPieces_eq (w := w) id (read_of_empty hempty) sizes content
    refine iff_of_true ⟨_, content, hpieces, ?_, ?_⟩ (.inl hempty)
    · rw [read_of_empty hempty, if_pos (by decide)]
    · rw [List.map_id, flatten_pieces]
  · by_cases hnone : w.newline = none
    · have hpieces := readPieces_eq (translate [lf]) (read_of_none hnone) sizes content
      have hwhole : read w (-1) content = .ok (translate [lf] content, []) := by
        rw [read_of_none hnone, if_pos (by decide)]
      have hcut : ((pieces sizes content).map (translate [lf])).flatten = translate [lf] content ↔
          ¬Straddles (pieces sizes content) := by
        have hiff : (pieces sizes content).flatMap (translate [lf]) =
            translate [lf] (pieces sizes content).flatten ↔ ¬Straddles (pieces sizes content) :=
          flatMap_translate_eq_iff (List.cons_ne_nil lf [])
        rwa [flatten_pieces, List.flatMap_def] at hiff
      rw [ReadsFine, or_iff_right hempty, and_iff_right hnone, ← hcut]
      constructor
      · rintro ⟨read_, whole, hread, hall, heq⟩
        rw [hpieces] at hread
        rw [hwhole] at hall
        cases hread
        cases hall
        exact heq
      · intro heq
        exact ⟨_, _, hpieces, hwhole, heq⟩
    · refine iff_of_false ?_ ?_
      · rintro ⟨-, whole, -, hall, -⟩
        rw [read_of_some hempty hnone] at hall
        cases hall
      · rintro (heq | ⟨heq, -⟩)
        · exact hempty heq
        · exact hnone heq

/-- What is written and read does not depend on the cuts exactly where no newline is cut, a
wrapper without translation writes no newline, and none of the three chosen newlines is read. -/
theorem newlines_independent_iff (w : NewlineWrapper) (system : System) (calls : List Writing)
    (sizes : List ℤ) (content : Bytes) :
    (WritesAsOne w system calls ↔ WritesFine w calls) ∧
      (ReadsAsOne w sizes content ↔ ReadsFine w sizes content) ∧
      (WritesAsOne w system calls ∧ ReadsAsOne w sizes content ↔
        WritesFine w calls ∧ ReadsFine w sizes content) := by
  have hwrites := writesAsOne_iff w system calls
  have hreads := readsAsOne_iff w sizes content
  exact ⟨hwrites, hreads, and_congr hwrites hreads⟩

/-- The system's newline, with one cut in two, and `'\n'`, of which nothing can be read. -/
theorem newlines_cut :
    ¬WritesAsOne ⟨none, by decide⟩ .posix [.write [97, cr], .write [lf, 98]] ∧
      ¬ReadsAsOne ⟨some [lf], by decide⟩ [] [97] := by
  constructor
  · intro hwrites
    exact absurd hwrites.cut (by decide)
  · rintro ⟨read_, whole, hread, -⟩
    cases hread

end Pieces

end Trun.Newlines
