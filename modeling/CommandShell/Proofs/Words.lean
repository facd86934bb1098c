/-
Words as they are typed.

A word can be put between quotes of either kind, or left bare if it has no byte in it that means
something.  Words are kept apart by blanks other than newlines, and a terminator ends them.
`TypedLine` says so, and what follows says that this is all there is to it: the scan passes a
typed line as a whole (`TypedLine.passes`), although quoted words can have terminators, hashes
and newlines in them; its tokens are the words (`TypedLine.tokens`), byte for byte; and what is
behind its terminator plays no part in either.

So the words get to the command they name, and to its handler, as they are.
-/
import CommandShell.Proofs.Lexing
import CommandShell.Proofs.Session

namespace CommandShell

/-! ### Words and lines -/

/-- A blank between words of one line. -/
def Byte.isSpacing (b : UInt8) : Bool :=
  Byte.isBlank b && b != Byte.newline

/-- A byte of a word without quotes. -/
def Byte.isBare (b : UInt8) : Bool :=
  Byte.isOrdinary b && !Byte.isBlank b

/-- How a word is typed. -/
inductive TypedWord : Bytes → Bytes → Prop
  | quoted (q : Quote) {w : Bytes} (hw : Quote.Content q w) :
      TypedWord w (q.byte :: (w ++ [q.byte]))
  | bare {b : UInt8} {w : Bytes} (hb : Byte.isBare b = true)
      (hw : ∀ c ∈ w, Byte.isBare c = true) : TypedWord (b :: w) (b :: w)

/-- What stands between two words. -/
structure Spacing (gap : Bytes) : Prop where
  nonempty : gap ≠ []
  spacing : ∀ b ∈ gap, Byte.isSpacing b = true

/-- How the words of a line are typed. -/
inductive TypedLine : List Bytes → Bytes → Prop
  | last {w e : Bytes} (hw : TypedWord w e) : TypedLine [w] e
  | more {w e gap s : Bytes} {ws : List Bytes} (hw : TypedWord w e) (hg : Spacing gap)
      (h : TypedLine ws s) : TypedLine (w :: ws) (e ++ gap ++ s)

/-- No word goes on here. -/
def WordEnds (s : Bytes) : Prop :=
  ∀ b ∈ s.head?, Byte.isBlank b = true

theorem Byte.isOrdinary_of_isSpacing {b : UInt8} (h : Byte.isSpacing b = true) :
    Byte.isOrdinary b = true := by
  simp only [Byte.isSpacing, Bool.and_eq_true, bne_iff_ne] at h
  obtain ⟨hblank, hnl⟩ := h
  have hquote : Quote.ofByte? b = none := by
    cases hq : Quote.ofByte? b with
    | none => rfl
    | some q =>
        rw [Quote.byte_of_ofByte? hq] at hblank
        exact absurd hblank (by cases q <;> decide)
  have hne : ∀ c, Byte.isBlank c = false → b ≠ c := by
    intro c hc hbc
    rw [hbc, hc] at hblank
    exact Bool.noConfusion hblank
  have ht : Byte.isTerminator b = false := by
    by_contra hterm
    exact hnl (Byte.eq_newline_of_isBlank hblank (by simpa using hterm))
  simp [Byte.isOrdinary, hquote, hne Byte.hash rfl, hne Byte.backslash rfl, ht]

theorem Byte.isOrdinary_of_isBare {b : UInt8} (h : Byte.isBare b = true) :
    Byte.isOrdinary b = true ∧ Byte.isBlank b = false := by
  simpa [Byte.isBare] using h

theorem Spacing.blank {gap : Bytes} (h : Spacing gap) : ∀ b ∈ gap, Byte.isBlank b = true := by
  intro b hb
  have hs := h.spacing b hb
  simp only [Byte.isSpacing, Bool.and_eq_true] at hs
  exact hs.1

theorem Spacing.single {b : UInt8} (h : Byte.isSpacing b = true) : Spacing [b] :=
  ⟨by simp, by simp [h]⟩

theorem Spacing.wordEnds {gap : Bytes} (h : Spacing gap) (s : Bytes) : WordEnds (gap ++ s) := by
  cases gap with
  | nil => exact absurd rfl h.nonempty
  | cons b gap =>
      intro c hc
      have hc : b = c := by simpa using hc
      exact hc ▸ h.blank b (by simp)

theorem TypedWord.head {w e : Bytes} (h : TypedWord w e) :
    ∃ b r, e = b :: r ∧ Byte.isBlank b = false := by
  cases h with
  | quoted q _ => exact ⟨q.byte, _, rfl, by cases q <;> rfl⟩
  | bare hb _ => exact ⟨_, _, rfl, (Byte.isOrdinary_of_isBare hb).2⟩

theorem TypedLine.head {ws : List Bytes} {s : Bytes} (h : TypedLine ws s) :
    ∃ b r, s = b :: r ∧ Byte.isBlank b = false := by
  cases h with
  | last hw => exact hw.head
  | more hw _ _ =>
      obtain ⟨b, r, rfl, hb⟩ := hw.head
      exact ⟨b, _, rfl, hb⟩

/-! ### The scan passes a line -/

namespace Line

theorem Passes.of_ordinary {s : Bytes} (h : ∀ b ∈ s, Byte.isOrdinary b = true) : Passes s := by
  induction s with
  | nil => exact .nil
  | cons b s ih =>
      exact (Passes.ordinary (h b (by simp))).append (ih fun c hc => h c (by simp [hc]))

end Line

open Line (Passes)

theorem Spacing.passes {gap : Bytes} (h : Spacing gap) : Passes gap :=
  .of_ordinary fun b hb => Byte.isOrdinary_of_isSpacing (h.spacing b hb)

theorem TypedWord.passes {w e : Bytes} (h : TypedWord w e) : Passes e := by
  cases h with
  | quoted q hw => exact .quoted hw
  | @bare b w hb hw =>
      refine .of_ordinary ?_
      intro c hc
      rcases List.mem_cons.mp hc with rfl | hc
      · exact (Byte.isOrdinary_of_isBare hb).1
      · exact (Byte.isOrdinary_of_isBare (hw c hc)).1

theorem TypedLine.passes {ws : List Bytes} {s : Bytes} (h : TypedLine ws s) : Passes s := by
  induction h with
  | last hw => exact hw.passes
  | more hw hg _ ih => exact (hw.passes.append hg.passes).append ih

/-! ### It splits into its words -/

theorem isWordByte_of_isBare {b : UInt8} (h : Byte.isBare b = true) :
    Token.isWordByte b = true := by
  simp only [Byte.isBare, Byte.isOrdinary, Bool.and_eq_true] at h
  simp only [Token.isWordByte, Bool.and_eq_true]
  exact ⟨h.2, h.1.1.1.1⟩

/-- A typed word is one token, and its text is the word. -/
theorem TypedWord.tokens {w e rest : Bytes} (h : TypedWord w e) (hrest : WordEnds rest) :
    ∃ t : Token, CommandShell.tokens (e ++ rest)
        = (t :: (CommandShell.tokens rest).1, (CommandShell.tokens rest).2) ∧
      t.isSeparator = false ∧ t.text = w := by
  cases h with
  | quoted q hw =>
      refine ⟨.quoted q w, ?_, rfl, rfl⟩
      rw [← tokens_cons (Token.ofFront?_quoted hw rest)]
      simp
  | @bare b w hb hw =>
      refine ⟨.word (b :: w), ?_, rfl, rfl⟩
      have hstop : ∀ c ∈ rest.head?, Token.isWordByte c = false := by
        intro c hc
        simp [Token.isWordByte, hrest c hc]
      obtain ⟨htake, hdrop⟩ :=
        takeWhile_append_exact (fun c hc => isWordByte_of_isBare (hw c hc)) hstop
      obtain ⟨hordinary, hblank⟩ := Byte.isOrdinary_of_isBare hb
      have hfront := Token.ofFront?_ordinary hordinary (w ++ rest)
      rw [if_neg (by simp [hblank]), htake, hdrop] at hfront
      exact tokens_cons hfront

/-- So is spacing, but that token is not counted. -/
theorem Spacing.tokens {gap rest : Bytes} (h : Spacing gap)
    (hrest : ∀ b ∈ rest.head?, Byte.isBlank b = false) :
    CommandShell.tokens (gap ++ rest)
      = (.blanks gap :: (CommandShell.tokens rest).1, (CommandShell.tokens rest).2) := by
  cases gap with
  | nil => exact absurd rfl h.nonempty
  | cons b gap =>
      obtain ⟨htake, hdrop⟩ :=
        takeWhile_append_exact (fun c hc => h.blank c (List.mem_cons_of_mem b hc)) hrest
      have hordinary := Byte.isOrdinary_of_isSpacing (h.spacing b (by simp))
      have hfront := Token.ofFront?_ordinary hordinary (gap ++ rest)
      rw [if_pos (h.blank b (by simp)), htake, hdrop] at hfront
      exact tokens_cons hfront

/-- The counted tokens of a typed line are its words, whatever stands behind it. -/
theorem TypedLine.tokens {ws : List Bytes} {s rest : Bytes} (h : TypedLine ws s)
    (hrest : WordEnds rest) :
    ∃ ts, CommandShell.tokens (s ++ rest)
        = (ts ++ (CommandShell.tokens rest).1, (CommandShell.tokens rest).2) ∧
      (Token.counted false ts).map Token.text = ws := by
  induction h with
  | @last w e hw =>
      obtain ⟨t, htokens, hsep, htext⟩ := hw.tokens hrest
      exact ⟨[t], htokens, by simp [Token.counted, hsep, htext]⟩
  | @more w e gap s ws hw hg h ih =>
      obtain ⟨ts, htail, htexts⟩ := ih
      -- The spacing ends the word before it, and the word behind it ends the spacing.
      obtain ⟨b, r, hs, hb⟩ := h.head
      have hnext : ∀ c ∈ (s ++ rest).head?, Byte.isBlank c = false := by
        intro c hc
        rw [hs] at hc
        have hc : b = c := by simpa using hc
        exact hc ▸ hb
      obtain ⟨t, htokens, hsep, htext⟩ := hw.tokens (hg.wordEnds (s ++ rest))
      refine ⟨t :: .blanks gap :: ts, ?_, ?_⟩
      · rw [show e ++ gap ++ s ++ rest = e ++ (gap ++ (s ++ rest)) by simp, htokens,
          hg.tokens hnext, htail]
        rfl
      · have hblanks : (Token.blanks gap).isSeparator = true := rfl
        have htexts : (ts.filter fun t => !t.isSeparator).map Token.text = ws := by
          simpa [Token.counted] using htexts
        simp [Token.counted, hsep, hblanks, htext, htexts]

/-! ### It is one statement -/

theorem TypedLine.front {ws : List Bytes} {s : Bytes} (h : TypedLine ws s) {t : UInt8}
    (ht : Byte.isTerminator t = true) (suffix : Bytes) :
    Line.front (s ++ t :: suffix) = .line [] s t suffix := by
  have hscan := h.passes.scan ht suffix
  obtain ⟨b, r, rfl, hb⟩ := h.head
  show Line.front ([] ++ b :: (r ++ t :: suffix)) = _
  exact Line.front_of_scan (by simp) hb hscan ht

/-- A line that splits up to its end is its record, and only what is behind it stays. -/
theorem recordOf_of_tokens {line : Bytes} {ts : List Token} (h : tokens line = (ts, []))
    (hne : line ≠ []) (t : UInt8) (rest : Bytes) :
    recordOf line = ⟨line, (Token.counted false ts).map Token.text⟩ ∧
      leftOf line t rest = rest := by
  have hrender := renderAll_tokens line
  rw [h, List.append_nil] at hrender
  have hrender : renderAll ts = line := hrender
  unfold recordOf leftOf Record.ofBytes
  rw [h]
  simp [hrender, hne]

theorem TypedLine.record {ws : List Bytes} {s : Bytes} (h : TypedLine ws s) (t : UInt8)
    (suffix : Bytes) : recordOf s = ⟨s, ws⟩ ∧ leftOf s t suffix = suffix := by
  have hends : WordEnds [] := by simp [WordEnds]
  obtain ⟨ts, htokens, htexts⟩ := h.tokens hends
  have hnil : CommandShell.tokens [] = ([], []) := by rw [CommandShell.tokens]
  rw [List.append_nil, hnil, List.append_nil] at htokens
  obtain ⟨b, r, hs, _⟩ := h.head
  rw [← htexts]
  exact recordOf_of_tokens htokens (by simp [hs]) t suffix

/-- With nothing in the carry a request begins with the first chunk. -/
theorem Reader.next_first_chunk {σ : Type} [ByteStream σ] {r : Reader σ} {chunk : Bytes} {s : σ}
    (hcarry : r.carry = []) (hchunk : ByteStream.next r.source = (some chunk, s)) :
    next .statement r = next .statement ⟨chunk, s⟩ := by
  have hwaits : Scan.ofMode .statement r.carry = .incomplete := by
    rw [hcarry]
    exact statement_waits (by simp)
  rw [next_step (.pulled hwaits hchunk), hcarry, List.nil_append]

/-- A typed line that arrives in one chunk is read as its words, and what came with it stays. -/
theorem Reader.next_typedLine {σ : Type} [ByteStream σ] {ws : List Bytes} {line suffix : Bytes}
    {t : UInt8} (h : TypedLine ws line) (ht : Byte.isTerminator t = true) {r : Reader σ} {s : σ}
    (hcarry : r.carry = []) (hchunk : ByteStream.next r.source = (some (line ++ t :: suffix), s)) :
    next .statement r = (some ⟨line, ws⟩, ⟨suffix, s⟩) := by
  obtain ⟨hrec, hleft⟩ := h.record t suffix
  rw [next_first_chunk hcarry hchunk, next_of_line (r := ⟨_, s⟩) (h.front ht suffix), hrec, hleft]

/-! ### It gets to its handler -/

theorem Builtin.ofToken?_eq_none {token : Bytes} (h : ∀ b : Builtin, token ≠ textBytes b.word) :
    ofToken? token = none := by
  cases hb : ofToken? token with
  | none => rfl
  | some b => exact absurd (ofToken?_eq_some_iff.mp hb) (h b)

namespace Shell

variable {σ η ν : Type} [ByteStream σ]

/-- A cycle in which one handler is invoked once, over `c`, and no other handler is. -/
structure Invokes (perform : η → Invocation η → Act ν Unit) (sh : Shell σ η) (handler : η)
    (i : Invocation η) (c : Console σ) : Prop where
  /-- When the statement has been read, the invocation is all that happens. -/
  whole : step perform sh = invoke (perform handler) i { sh.asked with console := c }
  /-- What came of it is what comes of one run of the handler's dialogue. -/
  cycle : (step perform sh).1 = .ran i ((perform handler i).run.run c).result
    ((perform handler i).run.run c).notes
  /-- What handlers would do in any other invocation has no influence. -/
  only : ∀ perform' : η → Invocation η → Act ν Unit, perform' handler i = perform handler i →
    step perform' sh = step perform sh

theorem invokes_of_step {sh : Shell σ η} {handler : η} {i : Invocation η} {c : Console σ}
    (h : ∀ perform : η → Invocation η → Act ν Unit,
      step perform sh = invoke (perform handler) i { sh.asked with console := c })
    (perform : η → Invocation η → Act ν Unit) : Invokes perform sh handler i c where
  whole := h perform
  cycle := by
    rw [h perform]
    rfl
  only := by
    intro perform' hsame
    rw [h perform', h perform]
    unfold invoke
    rw [hsame]

/--
**Words arrive as they were typed.**  A session with nothing in its carry that is delivered a typed
line, with its terminator and any bytes behind it, reads exactly the words, and leaves the bytes
behind it.  If the words name a command with a handler, that handler is invoked, once and alone,
with these words, and those that do not name the command are its arguments.
-/
theorem typed_words_arrive {perform : η → Invocation η → Act ν Unit} {sh : Shell σ η}
    {ws : List Bytes} {line suffix : Bytes} {t : UInt8} {s : σ} (hopen : sh.state ≠ .closed)
    (hcarry : sh.console.reader.carry = []) (hline : TypedLine ws line)
    (ht : Byte.isTerminator t = true)
    (hchunk : ByteStream.next sh.asked.console.reader.source = (some (line ++ t :: suffix), s)) :
    sh.asked.console.read .statement
        = (some ⟨line, ws⟩, ⟨⟨suffix, s⟩, sh.console.prompt⟩) ∧
    ∀ command depth handler, (∀ b : Builtin, ws.head? ≠ some (textBytes b.word)) →
      sh.tree.resolve ws = some (command, depth) → command.handler = some handler →
        1 ≤ depth ∧ depth ≤ ws.length ∧
        ∃ i : Invocation η, i.command = command ∧ i.fullArgs = ws ∧ i.args = ws.drop depth ∧
          Invokes perform sh handler i ⟨⟨suffix, s⟩, sh.console.prompt⟩ := by
  have hnext := Reader.next_typedLine (r := sh.asked.console.reader) hline ht hcarry hchunk
  have hread := Console.read_of_next hnext
  refine ⟨hread, ?_⟩
  intro command depth handler hfirst hresolve hhandler
  obtain ⟨hpos, hle⟩ := CommandTree.resolveIn_depth hresolve
  refine ⟨hpos, hle, ⟨⟨line, ws⟩, depth, command, sh.tree⟩, rfl, rfl, rfl, ?_⟩
  refine invokes_of_step ?_ perform
  intro perform
  rw [step_read hopen hread]
  cases ws with
  | nil => exact absurd hle (by simp; omega)
  | cons first rest =>
      have hword : ∀ b : Builtin, first ≠ textBytes b.word := by
        intro b hb
        exact hfirst b (congrArg some hb)
      exact dispatch_ran rfl (Builtin.ofToken?_eq_none hword) hresolve hhandler

/-- A word with a quoted semicolon, and a quote behind the line that stays open. -/
theorem typed_words_arrive_quoted :
    let perform : Unit → Invocation Unit → Act Unit Unit := fun _ _ => pure ()
    let sh : Shell Memory Unit := start {}
      ⟨[{ name := "a", handler := some () }], by decide +kernel⟩
      ⟨[[0x61, 0x20, 0x27, 0x3b, 0x27, 0x0a, 0x22]], []⟩
    ∃ i : Invocation Unit, i.args = [[0x3b]] ∧
      Invokes perform sh () i ⟨⟨[0x22], ⟨[], textBytes "ash> "⟩⟩, "ash"⟩ := by
  intro perform sh
  have hline : TypedLine [[0x61], [0x3b]] ([0x61] ++ [0x20] ++ [0x27, 0x3b, 0x27]) :=
    .more (.bare rfl (by simp)) (.single rfl)
      (.last (.quoted .single (.plain (by decide) (by decide) .nil)))
  have hopen : sh.state ≠ .closed := by decide
  have harrive := @typed_words_arrive _ _ _ _ perform sh _ _ _ _ _ hopen rfl hline rfl rfl
  obtain ⟨_, _, i, _, _, hargs, hinvokes⟩ := harrive.2 { name := "a", handler := some () } 1 ()
    (by intro b; cases b <;> decide +kernel) rfl rfl
  exact ⟨i, hargs, hinvokes⟩

end Shell

end CommandShell
