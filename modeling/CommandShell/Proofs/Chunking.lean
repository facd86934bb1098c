/-
Clean input reads the same in all pieces.

In general it matters to a request for a statement where the chunks were cut: a quote may or
may not be closed in what has arrived, and blank lines are dropped one by one or together.  On
clean input it does not matter.  There every statement has its quoted spans complete and its
terminators nowhere but at its end, so as long as that end has not arrived there is no
terminator to be misled by, and once it has, the scan stops just there (`scan_plain`).

What remains are the blank statements.  `front_blank_append` says that a blank line in front of
a buffer only makes the blanks longer, so it is the same to drop it alone or with what follows.

The answer to a request is then a function of the input, and what stays is clean again
(`next_clean`).  Two readers with the same input can therefore never be told apart.
-/
import CommandShell.Proofs.Conservation

namespace CommandShell

/-! ### Clean input -/

/-- A byte at which nothing opens and nothing ends. -/
def Byte.isOrdinary (b : UInt8) : Bool :=
  (Quote.ofByte? b).isNone && b != Byte.hash && b != Byte.backslash && !Byte.isTerminator b

theorem Byte.not_terminator_of_isOrdinary {b : UInt8} (h : Byte.isOrdinary b = true) :
    Byte.isTerminator b = false := by
  simp only [Byte.isOrdinary, Bool.and_eq_true, Bool.not_eq_true'] at h
  exact h.2

/-- A statement of ordinary bytes and complete quoted spans, no terminator among them. -/
inductive PlainStatement : Bytes → Prop
  | nil : PlainStatement []
  | byte {b : UInt8} {s : Bytes} (hb : Byte.isOrdinary b = true) (h : PlainStatement s) :
      PlainStatement (b :: s)
  | span {q : Quote} {w s : Bytes} (hw : Quote.Content q w)
      (ht : ∀ b ∈ w, Byte.isTerminator b = false) (h : PlainStatement s) :
      PlainStatement (q.byte :: (w ++ q.byte :: s))

/-- Statements, each with a terminator behind it, and a tail without one. -/
inductive Clean : Bytes → Prop
  | tail {s : Bytes} (h : ∀ b ∈ s, Byte.isTerminator b = false) : Clean s
  | statement {s : Bytes} {t : UInt8} {rest : Bytes} (hs : PlainStatement s)
      (ht : Byte.isTerminator t = true) (h : Clean rest) : Clean (s ++ t :: rest)

theorem PlainStatement.unterminated {s : Bytes} (h : PlainStatement s) :
    ∀ b ∈ s, Byte.isTerminator b = false := by
  induction h with
  | nil => simp
  | byte hb _ ih =>
      intro c hc
      rcases List.mem_cons.mp hc with rfl | hc
      · exact Byte.not_terminator_of_isOrdinary hb
      · exact ih c hc
  | @span q w s _ ht _ ih =>
      intro c hc
      have hq := Quote.byte_not_terminator q
      rcases List.mem_cons.mp hc with rfl | hc
      · exact hq
      · rcases List.mem_append.mp hc with hc | hc
        · exact ht c hc
        · rcases List.mem_cons.mp hc with rfl | hc
          · exact hq
          · exact ih c hc

/-- Leaving bytes off the front up to a quote at most leaves a plain statement. -/
theorem PlainStatement.dropWhile {p : UInt8 → Bool} (hp : ∀ q : Quote, p q.byte = false)
    {s : Bytes} (h : PlainStatement s) : PlainStatement (s.dropWhile p) := by
  induction h with
  | nil => exact .nil
  | @byte b s hb h ih =>
      by_cases hpb : p b = true
      · rw [List.dropWhile_cons_of_pos hpb]
        exact ih
      · rw [List.dropWhile_cons_of_neg hpb]
        exact .byte hb h
  | @span q w s hw ht h ih =>
      rw [List.dropWhile_cons_of_neg (by simp [hp q])]
      exact .span hw ht h

/-- What is behind a newline of clean input is clean: that newline ends a statement. -/
theorem Clean.after_newline {s : Bytes} (h : Clean s) :
    ∀ {u v : Bytes}, s = u ++ Byte.newline :: v → Clean v := by
  induction h with
  | tail h =>
      intro u v hs
      have hf := h Byte.newline (by rw [hs]; simp)
      exact absurd hf (by simp)
  | @statement s t rest hs ht h ih =>
      intro u v hsplit
      rcases append_cons_cases hsplit with ⟨a, _, ha⟩ | ⟨c, hc, _⟩
      · cases a with
        | nil =>
            rw [List.nil_append] at ha
            injection ha with _ ha
            exact ha ▸ h
        | cons y a =>
            rw [List.cons_append] at ha
            injection ha with _ ha
            exact ih ha
      · have hf := hs.unterminated Byte.newline (by simp [hc])
        exact absurd hf (by simp)

/-! ### A plain statement is scanned and split to its end -/

namespace Line

theorem span?_ordinary {b : UInt8} (hb : Byte.isOrdinary b = true) (r : Bytes) :
    span? b r = none := by
  simp only [Byte.isOrdinary, Bool.and_eq_true, bne_iff_ne, Option.isNone_iff_eq_none] at hb
  obtain ⟨⟨⟨hq, hh⟩, hs⟩, _⟩ := hb
  unfold span?
  rw [hq]
  simp [hh, hs]

theorem span?_quoted {q : Quote} {w : Bytes} (hw : Quote.Content q w) (r : Bytes) :
    span? q.byte (w ++ q.byte :: r) = some (q.byte :: (w ++ [q.byte]), r) := by
  unfold span?
  simp [Quote.close?_content hw]

/-- The scan passes all of `s` at once, whatever comes after it, as long as some terminator does. -/
def Passes (s : Bytes) : Prop :=
  ∀ v, v.any Byte.isTerminator = true → scan (s ++ v) = (s ++ (scan v).1, (scan v).2)

theorem Passes.nil : Passes [] :=
  fun _ _ => rfl

theorem Passes.append {s u : Bytes} (hs : Passes s) (hu : Passes u) : Passes (s ++ u) := by
  intro v hv
  have huv : (u ++ v).any Byte.isTerminator = true := by
    rw [List.any_append, hv, Bool.or_true]
  rw [List.append_assoc, hs _ huv, hu _ hv, List.append_assoc]

theorem Passes.ordinary {b : UInt8} (hb : Byte.isOrdinary b = true) : Passes [b] := by
  intro v _
  have hn := Byte.not_terminator_of_isOrdinary hb
  have hstride : stride b v = ([b], v) := by
    unfold stride
    rw [span?_ordinary hb]
  show scan (b :: v) = _
  rw [scan, if_neg (by simp [hn]), hstride]

/-- A quoted span is passed whatever its content is. -/
theorem Passes.quoted {q : Quote} {w : Bytes} (hw : Quote.Content q w) :
    Passes (q.byte :: (w ++ [q.byte])) := by
  intro v hv
  have hstride : stride q.byte (w ++ q.byte :: v) = (q.byte :: (w ++ [q.byte]), v) := by
    unfold stride
    rw [span?_quoted hw]
    simp only [hv, if_true]
  rw [show q.byte :: (w ++ [q.byte]) ++ v = q.byte :: (w ++ q.byte :: v) by simp]
  rw [scan, if_neg (by simp [Quote.byte_not_terminator]), hstride]

theorem Passes.plain {s : Bytes} (h : PlainStatement s) : Passes s := by
  induction h with
  | nil => exact .nil
  | byte hb _ ih => exact (Passes.ordinary hb).append ih
  | @span q w s hw _ _ ih =>
      have hspan := (Passes.quoted hw).append ih
      simpa using hspan

/-- Where a terminator comes the scan stops. -/
theorem Passes.scan {s : Bytes} (h : Passes s) {t : UInt8} (ht : Byte.isTerminator t = true)
    (u : Bytes) : scan (s ++ t :: u) = (s, t :: u) := by
  have hstop : Line.scan (t :: u) = ([], t :: u) := by rw [Line.scan, if_pos ht]
  rw [h (t :: u) (by simp [ht]), hstop, List.append_nil]

/-- The scan passes all of a plain statement and stops at the terminator behind it, whatever
comes after. -/
theorem scan_plain {s : Bytes} (h : PlainStatement s) {t : UInt8}
    (ht : Byte.isTerminator t = true) (u : Bytes) : scan (s ++ t :: u) = (s, t :: u) :=
  (Passes.plain h).scan ht u

end Line

/-- An ordinary byte begins a word or a run of blanks. -/
theorem Token.ofFront?_ordinary {b : UInt8} (hb : Byte.isOrdinary b = true) (r : Bytes) :
    Token.ofFront? b r =
      if Byte.isBlank b then
        some (.blanks (b :: r.takeWhile Byte.isBlank), r.dropWhile Byte.isBlank)
      else some (.word (b :: r.takeWhile Token.isWordByte), r.dropWhile Token.isWordByte) := by
  have hn := Byte.not_terminator_of_isOrdinary hb
  simp only [Byte.isOrdinary, Bool.and_eq_true, bne_iff_ne, Option.isNone_iff_eq_none] at hb
  obtain ⟨⟨⟨hq, hh⟩, hs⟩, _⟩ := hb
  have hsemi : b ≠ Byte.semicolon := by
    intro hc
    rw [hc] at hn
    exact absurd hn (by simp)
  have hnl : b ≠ Byte.newline := by
    intro hc
    rw [hc] at hn
    exact absurd hn (by simp)
  unfold Token.ofFront?
  rw [hq]
  simp only [hh, hs, hsemi, hnl, if_false]

theorem Token.ofFront?_quoted {q : Quote} {w : Bytes} (hw : Quote.Content q w) (r : Bytes) :
    Token.ofFront? q.byte (w ++ q.byte :: r) = some (.quoted q w, r) := by
  unfold Token.ofFront?
  simp [Quote.close?_content hw]

/-- Some token begins wherever a plain statement goes on, and a plain statement is left. -/
theorem PlainStatement.ofFront? {b : UInt8} {r : Bytes} (h : PlainStatement (b :: r)) :
    ∃ t rest, Token.ofFront? b r = some (t, rest) ∧ PlainStatement rest := by
  cases h with
  | byte hb h =>
      rw [Token.ofFront?_ordinary hb]
      by_cases hblank : Byte.isBlank b = true
      · rw [if_pos hblank]
        exact ⟨_, _, rfl, h.dropWhile (by intro q; cases q <;> rfl)⟩
      · rw [if_neg hblank]
        exact ⟨_, _, rfl, h.dropWhile (by intro q; cases q <;> rfl)⟩
  | span hw ht h => exact ⟨_, _, Token.ofFront?_quoted hw _, h⟩

theorem tokens_plain {s : Bytes} (h : PlainStatement s) : (tokens s).2 = [] := by
  fun_induction tokens s with
  | case1 => rfl
  | case2 b r t rest ht ih =>
      obtain ⟨t', rest', ht', hrest⟩ := h.ofFront?
      rw [ht] at ht'
      injection ht' with ht'
      injection ht' with _ hr
      exact ih (hr ▸ hrest)
  | case3 b r ht =>
      obtain ⟨_, _, ht', _⟩ := h.ofFront?
      rw [ht] at ht'
      exact absurd ht' (by simp)

/-! ### Blank statements -/

/-- All of `u` is taken, and no more, if what follows does not begin with such a byte. -/
theorem takeWhile_append_exact {p : UInt8 → Bool} {u v : Bytes} (hu : ∀ b ∈ u, p b = true)
    (hv : ∀ b ∈ v.head?, p b = false) :
    (u ++ v).takeWhile p = u ∧ (u ++ v).dropWhile p = v := by
  rw [List.takeWhile_append_of_pos hu, List.dropWhile_append_of_pos hu]
  cases v with
  | nil => simp
  | cons b v =>
      have hb := hv b (by simp)
      simp [hb]

theorem Bytes.splitLast?_eq_some {b : UInt8} {v : Bytes} (hv : b ∉ v) (w : Bytes) :
    Bytes.splitLast? b (w ++ b :: v) = some (w ++ [b], v) := by
  induction w with
  | nil => simp [Bytes.splitLast?, Bytes.splitLast?_eq_none.mpr hv]
  | cons x w ih => simp [Bytes.splitLast?, ih]

namespace Line

/-- Blanks that end in a newline only lengthen what is dropped or passed over. -/
theorem front_blank_append {w : Bytes} (hw : ∀ b ∈ w, Byte.isBlank b = true) (u : Bytes) :
    front (w ++ Byte.newline :: u) =
      match front u with
      | .empty skipped rest => .empty (w ++ Byte.newline :: skipped) rest
      | .line blanks line t rest => .line (w ++ Byte.newline :: blanks) line t rest
      | .unfinished => .empty (w ++ [Byte.newline]) u := by
  have hblanks : ∀ b ∈ w ++ [Byte.newline], Byte.isBlank b = true := by
    intro b hb
    rcases List.mem_append.mp hb with hb | hb
    · exact hw b hb
    · rw [List.mem_singleton.mp hb]
      rfl
  have hall : w ++ Byte.newline :: u = (w ++ [Byte.newline]) ++ u := by simp
  by_cases h : (u.dropWhile Byte.isBlank).any Byte.isTerminator = true
  · rcases front_behind_blanks hblanks h with ⟨_, _, hu, hbehind⟩ | ⟨_, _, _, _, hu, hbehind⟩
    · rw [hall, hbehind, hu]
      simp
    · rw [hall, hbehind, hu]
      simp
  · have h : (u.dropWhile Byte.isBlank).any Byte.isTerminator = false := by simpa using h
    have hbehind := h
    rw [← List.dropWhile_append_of_pos hblanks] at hbehind
    rw [hall, front_unterminated h, front_unterminated hbehind,
      List.takeWhile_append_of_pos hblanks, List.dropWhile_append_of_pos hblanks,
      List.append_assoc, List.singleton_append]
    cases hl : Bytes.splitLast? Byte.newline (u.takeWhile Byte.isBlank) with
    | none =>
        rw [Bytes.splitLast?_eq_some (Bytes.splitLast?_eq_none.mp hl)]
        simp [List.takeWhile_append_dropWhile]
    | some p =>
        obtain ⟨hp, hn, x, hx⟩ := Bytes.splitLast?_append (u := p.1) (v := p.2) hl
        rw [hp, hx, show w ++ Byte.newline :: (x ++ [Byte.newline] ++ p.2)
          = (w ++ Byte.newline :: x) ++ Byte.newline :: p.2 by simp,
          Bytes.splitLast?_eq_some hn]
        simp [hx]

theorem front_semicolon {w : Bytes} (hw : ∀ b ∈ w, Byte.isBlank b = true) (u : Bytes) :
    front (w ++ Byte.semicolon :: u) = .empty (w ++ [Byte.semicolon]) u := by
  have hs : Byte.isBlank Byte.semicolon = false := rfl
  obtain ⟨htake, hdrop⟩ := takeWhile_append_exact (v := Byte.semicolon :: u) hw (by simp [hs])
  have hscan : scan ((w ++ Byte.semicolon :: u).dropWhile Byte.isBlank)
      = ([], Byte.semicolon :: u) := by
    rw [hdrop, scan, if_pos Byte.isTerminator_semicolon]
  rw [front_terminated hscan Byte.isTerminator_semicolon, htake]
  rfl

/-- What the scan passes from the first byte on that is no blank is the line. -/
theorem front_of_scan {w s line u : Bytes} {b t : UInt8} (hw : ∀ b ∈ w, Byte.isBlank b = true)
    (hb : Byte.isBlank b = false) (hscan : scan (b :: s) = (b :: line, t :: u))
    (ht : Byte.isTerminator t = true) : front (w ++ b :: s) = .line w (b :: line) t u := by
  obtain ⟨htake, hdrop⟩ := takeWhile_append_exact (v := b :: s) hw (by simp [hb])
  rw [← hdrop] at hscan
  rw [front_terminated hscan ht, htake]
  rfl

theorem front_plain {w body : Bytes} {b : UInt8} {t : UInt8}
    (hw : ∀ b ∈ w, Byte.isBlank b = true) (hb : Byte.isBlank b = false)
    (hbody : PlainStatement (b :: body)) (ht : Byte.isTerminator t = true) (u : Bytes) :
    front (w ++ (b :: body) ++ t :: u) = .line w (b :: body) t u := by
  rw [List.append_assoc]
  exact front_of_scan hw hb (scan_plain hbody ht u) ht

end Line

/-! ### Requests, told by what is at the front -/

namespace Reader

section Front

variable {σ : Type} [ByteStream σ]

theorem next_of_line {r : Reader σ} {blanks line rest : Bytes} {t : UInt8}
    (h : Line.front r.carry = .line blanks line t rest) :
    next .statement r = (some (recordOf line), { r with carry := leftOf line t rest }) := by
  obtain ⟨found, hs, hrec, hdrop⟩ := Scan.statement_line h
  have hs : Scan.ofMode .statement r.carry = .complete found := hs
  rw [next_eq]
  simp only [hs, hrec, hdrop]

theorem next_of_empty {r : Reader σ} {skipped rest : Bytes}
    (h : Line.front r.carry = .empty skipped rest) :
    next .statement r = next .statement { r with carry := rest } := by
  obtain ⟨hs, hdrop⟩ := Scan.statement_empty h
  have hs : Scan.ofMode .statement r.carry = .skip skipped.length := hs
  conv => lhs; rw [next_eq]
  simp only [hs, hdrop]

/-- A blank statement can be dropped beforehand. -/
theorem next_blank_statement {w : Bytes} {t : UInt8} (hw : ∀ b ∈ w, Byte.isBlank b = true)
    (ht : Byte.isTerminator t = true) (u : Bytes) (s : σ) :
    next .statement ⟨w ++ t :: u, s⟩ = next .statement ⟨u, s⟩ := by
  rcases Byte.isTerminator_iff.mp ht with rfl | rfl
  · exact next_of_empty (Line.front_semicolon hw u)
  · have hfront := Line.front_blank_append hw u
    cases hu : Line.front u with
    | empty skipped rest =>
        rw [hu] at hfront
        rw [next_of_empty hfront, next_of_empty (r := ⟨u, s⟩) hu]
    | line blanks line t rest =>
        rw [hu] at hfront
        rw [next_of_line hfront, next_of_line (r := ⟨u, s⟩) hu]
    | unfinished =>
        rw [hu] at hfront
        exact next_of_empty hfront

end Front

/-! ### Requests of clean input -/

theorem statement_waits {carry : Bytes} (h : ∀ b ∈ carry, Byte.isTerminator b = false) :
    Scan.ofMode .statement carry = .incomplete :=
  Scan.statement_unfinished (Line.front_eq_unfinished_iff.mpr h)

theorem next_unterminated {r : Reader Memory} (h : ∀ b ∈ r.input, Byte.isTerminator b = false) :
    (next .statement r).1 = none ∧ (next .statement r).2.input = r.input := by
  induction hq : r.source.queue generalizing r with
  | nil =>
      rw [input_ended hq] at h
      rw [next_ended (statement_waits h) hq]
      exact ⟨rfl, rfl⟩
  | cons chunk queue ih =>
      have hcarry : ∀ b ∈ r.carry, Byte.isTerminator b = false :=
        fun b hb => h b (List.mem_append_left _ hb)
      rw [next_pull (statement_waits hcarry) hq, ← input_pull hq]
      exact ih (by rwa [input_pull hq]) rfl

/-- Input is pulled at least until the first terminator has arrived. -/
theorem next_pulls_terminator {s rest : Bytes} {t : UInt8}
    (hs : ∀ b ∈ s, Byte.isTerminator b = false) {r : Reader Memory}
    (hr : r.input = s ++ t :: rest) :
    ∃ u m, next .statement r = next .statement ⟨s ++ t :: u, m⟩ ∧
      u ++ m.queue.flatten = rest := by
  induction hq : r.source.queue generalizing r with
  | nil =>
      rw [input_ended hq] at hr
      refine ⟨rest, r.source, ?_, by rw [hq]; simp⟩
      rw [← hr]
  | cons chunk queue ih =>
      have hall : r.carry ++ r.source.queue.flatten = s ++ t :: rest := hr
      rcases append_cons_cases hall with ⟨a, rfl, _⟩ | ⟨c, hc, hrest⟩
      · rw [next_pull (statement_waits fun b hb => hs b (List.mem_append_left _ hb)) hq]
        exact ih ((input_pull hq).trans hr) rfl
      · refine ⟨c, r.source, ?_, hrest.symm⟩
        rw [← hc]

/-- On clean input the answer to a request for a statement, and what is left, depend on
nothing but the input. -/
theorem next_statement_clean {s : Bytes} (h : Clean s) :
    ∃ answer left, Clean left ∧ ∀ r : Reader Memory, r.input = s →
      (next .statement r).1 = answer ∧ (next .statement r).2.input = left := by
  induction h with
  | @tail s h =>
      refine ⟨none, s, .tail h, ?_⟩
      intro r hr
      subst hr
      exact next_unterminated h
  | @statement s t rest hs ht h ih =>
      have hsplit : s.takeWhile Byte.isBlank ++ s.dropWhile Byte.isBlank = s :=
        List.takeWhile_append_dropWhile
      have hblanks : ∀ b ∈ s.takeWhile Byte.isBlank, Byte.isBlank b = true :=
        fun b hb => Line.blank_of_mem_takeWhile hb
      have hbody : PlainStatement (s.dropWhile Byte.isBlank) :=
        hs.dropWhile (by intro q; cases q <;> rfl)
      cases hd : s.dropWhile Byte.isBlank with
      | nil =>
          obtain ⟨answer, left, hleft, hall⟩ := ih
          refine ⟨answer, left, hleft, ?_⟩
          intro r hr
          obtain ⟨u, m, hn, hu⟩ := next_pulls_terminator hs.unterminated hr
          rw [hd, List.append_nil] at hsplit
          rw [hsplit] at hblanks
          rw [hn, next_blank_statement hblanks ht]
          exact hall ⟨u, m⟩ hu
      | cons b body =>
          rw [hd] at hbody hsplit
          have hb : Byte.isBlank b = false := by
            have hn := List.head?_dropWhile_not Byte.isBlank s
            rw [hd] at hn
            simpa using hn
          refine ⟨some (recordOf (b :: body)), rest, h, ?_⟩
          intro r hr
          obtain ⟨u, m, hn, hu⟩ := next_pulls_terminator hs.unterminated hr
          have hfront := Line.front_plain hblanks hb hbody ht u
          rw [hsplit] at hfront
          have hleft : leftOf (b :: body) t u = u := if_pos (Or.inr (tokens_plain hbody))
          rw [hn, next_of_line (r := ⟨s ++ t :: u, m⟩) hfront, hleft]
          exact ⟨rfl, hu⟩

/-- So do they for a block, on any input. -/
theorem next_block_clean {mode : Mode} {accept : Bytes → Bool} (hm : mode.test? = some accept)
    {s : Bytes} (h : Clean s) :
    ∃ answer left, Clean left ∧ ∀ r : Reader Memory, r.input = s →
      (next mode r).1 = answer ∧ (next mode r).2.input = left := by
  by_cases hno : NoBlock accept s
  · refine ⟨none, s, h, ?_⟩
    intro r hr
    subst hr
    rcases next_block hm r with ⟨u, hu, _⟩ | ⟨_, hout, hcarry, hqueue⟩
    · exact absurd hno hu.not_noBlock
    · exact ⟨hout, by rw [input_ended hqueue, hcarry]⟩
  · have hwhole : input (⟨s, ⟨[], []⟩⟩ : Reader Memory) = s := by simp [input]
    rcases next_block hm ⟨s, ⟨[], []⟩⟩ with ⟨u, hu, _, hin⟩ | ⟨hno', _⟩
    · rw [hwhole] at hu hin
      refine ⟨some ⟨u, []⟩, _, h.after_newline hin, ?_⟩
      intro r hr
      rcases next_block hm r with ⟨v, hv, hout, hin'⟩ | ⟨hno', _⟩
      · rw [hr] at hv hin'
        have huv := hv.unique hu
        subst huv
        rw [hin] at hin'
        have htail := List.append_cancel_left hin'
        injection htail with _ htail
        exact ⟨hout, htail.symm⟩
      · rw [hr] at hno'
        exact absurd hno' hno
    · rw [hwhole] at hno'
      exact absurd hno' hno

theorem next_clean (mode : Mode) {s : Bytes} (h : Clean s) :
    ∃ answer left, Clean left ∧ ∀ r : Reader Memory, r.input = s →
      (next mode r).1 = answer ∧ (next mode r).2.input = left := by
  cases hm : mode.test? with
  | some accept => exact next_block_clean hm h
  | none =>
      rw [Mode.eq_statement hm]
      exact next_statement_clean h

/-- What holds of one request holds of any number of them. -/
theorem converse_clean (choose : List (Option Record) → Mode) {s : Bytes} (h : Clean s)
    (n : Nat) :
    ∃ answers left, Clean left ∧ ∀ r : Reader Memory, r.input = s →
      (converse choose r n).1 = answers ∧ (converse choose r n).2.input = left := by
  induction n with
  | zero => exact ⟨[], s, h, fun r hr => ⟨rfl, hr⟩⟩
  | succ n ih =>
      obtain ⟨answers, mid, hmid, hall⟩ := ih
      obtain ⟨answer, left, hleft, hnext⟩ := next_clean (choose answers) hmid
      refine ⟨answers ++ [answer], left, hleft, ?_⟩
      intro r hr
      obtain ⟨ha, hin⟩ := hall r hr
      obtain ⟨hanswer, hl⟩ := hnext _ hin
      refine ⟨?_, ?_⟩
      · show (converse choose r n).1 ++ [(next (choose (converse choose r n).1) _).1] = _
        rw [ha, hanswer]
      · show (next (choose (converse choose r n).1) _).2.input = _
        rw [ha, hl]

/--
**On clean input it does not matter where the chunks were cut.**  Two readers with the same
clean input give the same answers to the same requests, in whatever modes these are made and
however the modes depend on the answers, and what is left of the input stays the same too.
-/
theorem clean_input_any_chunks {r₁ r₂ : Reader Memory} (h : Clean r₁.input)
    (hr : r₂.input = r₁.input) (choose : List (Option Record) → Mode) (n : Nat) :
    (converse choose r₁ n).1 = (converse choose r₂ n).1 ∧
      (converse choose r₁ n).2.input = (converse choose r₂ n).2.input := by
  obtain ⟨answers, left, _, hall⟩ := converse_clean choose h n
  obtain ⟨ha₁, hl₁⟩ := hall r₁ rfl
  obtain ⟨ha₂, hl₂⟩ := hall r₂ hr
  exact ⟨ha₁.trans ha₂.symm, hl₁.trans hl₂.symm⟩

/-- Cut inside of the quotes or not, a statement and then a line are read the same. -/
theorem clean_input_any_chunks_quoted :
    let choose := fun as : List (Option Record) => if as = [] then Mode.statement else .line
    let r₁ : Reader Memory := ⟨[], ⟨[[0x61, 0x27], [0x62, 0x27, 0x3b, 0x63, 0x0a]], []⟩⟩
    let r₂ : Reader Memory := ⟨[0x61], ⟨[[0x27, 0x62, 0x27, 0x3b, 0x63], [], [0x0a]], []⟩⟩
    (converse choose r₁ 2).1 = (converse choose r₂ 2).1 ∧
      (converse choose r₁ 2).2.input = (converse choose r₂ 2).2.input := by
  intro choose r₁ r₂
  have hword : ∀ b ∈ [(0x62 : UInt8)], Byte.isTerminator b = false := by
    intro b hb
    rw [List.mem_singleton.mp hb]
    rfl
  have hspan : PlainStatement [0x27, 0x62, 0x27] :=
    @PlainStatement.span .single [0x62] [] (.plain (by decide) (by decide) .nil) hword .nil
  have hclean : Clean r₁.input :=
    @Clean.statement [0x61, 0x27, 0x62, 0x27] 0x3b _ (.byte (by decide) hspan) (by decide)
      (@Clean.statement [0x63] 0x0a [] (.byte (by decide) .nil) (by decide) (.tail (by simp)))
  have hsame : r₂.input = r₁.input := rfl
  exact clean_input_any_chunks hclean hsame choose 2

end Reader

end CommandShell
