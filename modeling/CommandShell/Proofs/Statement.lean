/-
What looking for a statement finds.

`Line.front` decides by looking for a terminator behind the blanks, then by scanning, then by
looking for a newline among the blanks.  `front_terminated` and `front_unterminated` say what comes
of it either way, and it is not opened again.  `front_cases` goes through these decisions once, and
the three specs below it are all that most files need to know of a front: what is dropped consists
of gap bytes and ends with a terminator, a line begins with a byte that is no gap byte, and more
bytes are needed only where there is no terminator at all.

`Scan.ofLine` says in places what comes of a line.  `recordOf` and `leftOf` say it in bytes:
which record the line makes, and which bytes stay in the carry for the next request.
`statement_line` is the step from the one to the other, and it is here that the places of a
record are shown to be the places of its tokens.
-/
import CommandShell.Input.Scan
import Mathlib.Tactic.ByContra

namespace CommandShell

/-! ### Gaps -/

/-- The bytes that can stand between two records without being part of one. -/
def Byte.isGap (b : UInt8) : Bool :=
  Byte.isBlank b || b == Byte.semicolon

namespace Byte

theorem isGap_of_isBlank {b : UInt8} (h : isBlank b = true) : isGap b = true := by
  simp [isGap, h]

theorem isGap_of_isTerminator {b : UInt8} (h : isTerminator b = true) : isGap b = true := by
  rcases isTerminator_iff.mp h with rfl | rfl <;> rfl

theorem eq_newline_of_isBlank {b : UInt8} (hb : isBlank b = true) (ht : isTerminator b = true) :
    b = newline := by
  rcases isTerminator_iff.mp ht with rfl | rfl
  · exact absurd hb (by decide)
  · rfl

theorem isGap_eq_false {b : UInt8} (hb : isBlank b = false) (ht : isTerminator b = false) :
    isGap b = false := by
  have hs : b ≠ semicolon := by
    intro hc
    rw [hc] at ht
    exact absurd ht (by decide)
  simp [isGap, hb, hs]

end Byte

namespace Line

/-! ### Fronts -/

theorem exists_scan_eq {s : Bytes} (h : s.any Byte.isTerminator = true) :
    ∃ line t rest, scan s = (line, t :: rest) ∧ Byte.isTerminator t = true := by
  obtain ⟨t, rest, hrest, ht⟩ := scan_stops h
  exact ⟨(scan s).1, t, rest, Prod.ext rfl hrest, ht⟩

/-- If the scan from behind the blanks stops at a terminator, what it passed is the line. -/
theorem front_terminated {raw line rest : Bytes} {t : UInt8}
    (hs : scan (raw.dropWhile Byte.isBlank) = (line, t :: rest)) (ht : Byte.isTerminator t = true) :
    front raw =
      if line.isEmpty then .empty (raw.takeWhile Byte.isBlank ++ [t]) rest
      else .line (raw.takeWhile Byte.isBlank) line t rest := by
  have hall := scan_append (raw.dropWhile Byte.isBlank)
  rw [hs] at hall
  have hany : (raw.dropWhile Byte.isBlank).any Byte.isTerminator = true := by
    rw [← hall]
    simp [ht]
  unfold front
  simp only [hs]
  rw [if_pos hany]

/-- Without a terminator behind the blanks only a newline among them ends anything. -/
theorem front_unterminated {raw : Bytes}
    (h : (raw.dropWhile Byte.isBlank).any Byte.isTerminator = false) :
    front raw = ((Bytes.splitLast? Byte.newline (raw.takeWhile Byte.isBlank)).map fun p =>
      Front.empty p.1 (p.2 ++ raw.dropWhile Byte.isBlank)).getD .unfinished := by
  unfold front
  simp only
  rw [if_neg (by simp [h])]
  cases Bytes.splitLast? Byte.newline (raw.takeWhile Byte.isBlank) with
  | none => rfl
  | some p => rfl

/-- More blanks in front of what a terminator ends are dropped or passed over with the others. -/
theorem front_behind_blanks {w u : Bytes} (hw : ∀ b ∈ w, Byte.isBlank b = true)
    (h : (u.dropWhile Byte.isBlank).any Byte.isTerminator = true) :
    (∃ skipped rest, front u = .empty skipped rest ∧ front (w ++ u) = .empty (w ++ skipped) rest) ∨
    ∃ blanks line t rest, front u = .line blanks line t rest ∧
      front (w ++ u) = .line (w ++ blanks) line t rest := by
  obtain ⟨line, t, rest, hs, ht⟩ := exists_scan_eq h
  have hfront := front_terminated hs ht
  rw [← List.dropWhile_append_of_pos hw] at hs
  have hbehind := front_terminated hs ht
  rw [List.takeWhile_append_of_pos hw] at hbehind
  by_cases hline : line.isEmpty = true
  · rw [if_pos hline] at hfront hbehind
    exact Or.inl ⟨_, _, hfront, by rw [hbehind, List.append_assoc]⟩
  · rw [if_neg hline] at hfront hbehind
    exact Or.inr ⟨_, _, _, _, hfront, hbehind⟩

/-- Every way in which a front can come out, with what was found on the way there. -/
theorem front_cases (raw : Bytes) :
    (∃ t rest, raw.dropWhile Byte.isBlank = t :: rest ∧ Byte.isTerminator t = true ∧
      front raw = .empty (raw.takeWhile Byte.isBlank ++ [t]) rest) ∨
    (∃ b w t rest, scan (raw.dropWhile Byte.isBlank) = (b :: w, t :: rest) ∧
      Byte.isGap b = false ∧ Byte.isTerminator t = true ∧
      front raw = .line (raw.takeWhile Byte.isBlank) (b :: w) t rest) ∨
    (∃ skipped rest, (∀ b ∈ raw.dropWhile Byte.isBlank, Byte.isTerminator b = false) ∧
      Bytes.splitLast? Byte.newline (raw.takeWhile Byte.isBlank) = some (skipped, rest) ∧
      front raw = .empty skipped (rest ++ raw.dropWhile Byte.isBlank)) ∨
    ((∀ b ∈ raw.dropWhile Byte.isBlank, Byte.isTerminator b = false) ∧
      Byte.newline ∉ raw.takeWhile Byte.isBlank ∧ front raw = .unfinished) := by
  by_cases h : (raw.dropWhile Byte.isBlank).any Byte.isTerminator = true
  · obtain ⟨line, t, rest, hs, ht⟩ := exists_scan_eq h
    have hall := scan_append (raw.dropWhile Byte.isBlank)
    rw [hs] at hall
    have hfront := front_terminated hs ht
    cases line with
    | nil => exact Or.inl ⟨t, rest, hall.symm, ht, hfront⟩
    | cons b w =>
        -- The scan went on at `b`, which is the first byte behind the blanks.
        have hterm : Byte.isTerminator b = false := by
          by_contra hb
          rw [← hall, List.cons_append, scan, if_pos (by simpa using hb)] at hs
          exact absurd (congrArg Prod.fst hs) (by simp)
        have hblank : Byte.isBlank b = false := by
          have hn := List.head?_dropWhile_not Byte.isBlank raw
          rw [← hall] at hn
          exact hn
        exact Or.inr (Or.inl ⟨b, w, t, rest, hs, Byte.isGap_eq_false hblank hterm, ht, hfront⟩)
  · have hn : ∀ b ∈ raw.dropWhile Byte.isBlank, Byte.isTerminator b = false := by
      simpa using h
    have hfront := front_unterminated (by simpa using h)
    refine Or.inr (Or.inr ?_)
    cases hl : Bytes.splitLast? Byte.newline (raw.takeWhile Byte.isBlank) with
    | some p =>
        rw [hl] at hfront
        exact Or.inl ⟨p.1, p.2, hn, rfl, hfront⟩
    | none =>
        rw [hl] at hfront
        exact Or.inr ⟨hn, Bytes.splitLast?_eq_none.mp hl, hfront⟩

theorem blank_of_mem_takeWhile {raw : Bytes} {b : UInt8} (h : b ∈ raw.takeWhile Byte.isBlank) :
    Byte.isBlank b = true :=
  List.all_eq_true.mp List.all_takeWhile b h

/-- An empty statement is blanks, and a terminator ends it. -/
theorem front_empty_blanks {raw skipped rest : Bytes} (h : front raw = .empty skipped rest) :
    ∃ w t, skipped = w ++ [t] ∧ (∀ b ∈ w, Byte.isBlank b = true) ∧ Byte.isTerminator t = true := by
  rcases front_cases raw with ⟨t, _, _, ht, he⟩ | ⟨_, _, _, _, _, _, _, he⟩ |
    ⟨u, v, _, hu, he⟩ | ⟨_, _, he⟩ <;> rw [he] at h
  · injection h with hs _
    exact ⟨_, t, hs.symm, fun b hb => blank_of_mem_takeWhile hb, ht⟩
  · exact Front.noConfusion h
  · injection h with hs _
    subst hs
    obtain ⟨hraw, _, w, hw⟩ := Bytes.splitLast?_append hu
    refine ⟨w, Byte.newline, hw, ?_, Byte.isTerminator_newline⟩
    intro b hb
    have hmem : b ∈ raw.takeWhile Byte.isBlank := by
      rw [hraw, hw]
      simp [hb]
    exact blank_of_mem_takeWhile hmem
  · exact Front.noConfusion h

/-- So all that is dropped is gap bytes. -/
theorem front_empty_spec {raw skipped rest : Bytes} (h : front raw = .empty skipped rest) :
    raw = skipped ++ rest ∧ (∀ b ∈ skipped, Byte.isGap b = true) ∧
      ∃ w t, skipped = w ++ [t] ∧ Byte.isTerminator t = true := by
  obtain ⟨w, t, hs, hw, ht⟩ := front_empty_blanks h
  refine ⟨(front_eq_empty h).1, ?_, w, t, hs, ht⟩
  intro b hb
  rw [hs] at hb
  rcases List.mem_append.mp hb with hb | hb
  · exact Byte.isGap_of_isBlank (hw b hb)
  · rw [List.mem_singleton.mp hb]
    exact Byte.isGap_of_isTerminator ht

/-- A line begins with a byte of its own, and a terminator follows it. -/
theorem front_line_spec {raw blanks line rest : Bytes} {t : UInt8}
    (h : front raw = .line blanks line t rest) :
    raw = blanks ++ line ++ t :: rest ∧ (∀ b ∈ blanks, Byte.isBlank b = true) ∧
      Byte.isTerminator t = true ∧ ∃ b w, line = b :: w ∧ Byte.isGap b = false := by
  refine ⟨(front_eq_line h).1, ?_⟩
  rcases front_cases raw with ⟨_, _, _, _, he⟩ | ⟨b, w, t', _, _, hb, ht, he⟩ |
    ⟨_, _, _, _, he⟩ | ⟨_, _, he⟩ <;> rw [he] at h
  · exact Front.noConfusion h
  · injection h with hs hl ht' _
    subst hs hl ht'
    exact ⟨fun b hb => blank_of_mem_takeWhile hb, ht, b, w, rfl, hb⟩
  · exact Front.noConfusion h
  · exact Front.noConfusion h

/-- More bytes are needed exactly where there is no terminator. -/
theorem front_eq_unfinished_iff {raw : Bytes} :
    front raw = .unfinished ↔ ∀ b ∈ raw, Byte.isTerminator b = false := by
  have hraw := List.takeWhile_append_dropWhile (p := Byte.isBlank) (l := raw)
  constructor
  · intro h b hb
    rcases front_cases raw with ⟨_, _, _, _, he⟩ | ⟨_, _, _, _, _, _, _, he⟩ |
      ⟨_, _, _, _, he⟩ | ⟨hd, hn, _⟩
    · rw [he] at h; exact Front.noConfusion h
    · rw [he] at h; exact Front.noConfusion h
    · rw [he] at h; exact Front.noConfusion h
    · rw [← hraw] at hb
      rcases List.mem_append.mp hb with hb | hb
      · by_contra hc
        have hbn := Byte.eq_newline_of_isBlank (blank_of_mem_takeWhile hb) (by simpa using hc)
        rw [hbn] at hb
        exact hn hb
      · exact hd b hb
  · intro h
    cases he : front raw with
    | empty skipped rest =>
        obtain ⟨hr, _, w, t, hs, ht⟩ := front_empty_spec he
        have hf := h t (by rw [hr, hs]; simp)
        rw [ht] at hf
        exact Bool.noConfusion hf
    | line blanks line t rest =>
        obtain ⟨hr, _, ht, _⟩ := front_line_spec he
        have hf := h t (by rw [hr]; simp)
        rw [ht] at hf
        exact Bool.noConfusion hf
    | unfinished => rfl

end Line

/-! ### The places of tokens -/

namespace Token

/-- A token's text lies `lead` bytes behind where it was read. -/
theorem render_eq (t : Token) : ∃ u v, t.render = u ++ t.text ++ v ∧ u.length = t.lead := by
  cases t with
  | quoted q content => exact ⟨[q.byte], [q.byte], by simp [render, text], rfl⟩
  | comment body closed =>
      exact ⟨[Byte.hash], if closed then [Byte.newline] else [], by simp [render, text], rfl⟩
  | continuation => exact ⟨[], [], rfl, rfl⟩
  | semicolon => exact ⟨[], [], rfl, rfl⟩
  | newline => exact ⟨[], [], rfl, rfl⟩
  | word run => exact ⟨[], [], by simp [render, text], rfl⟩
  | blanks run => exact ⟨[], [], by simp [render, text], rfl⟩

theorem extent_cut (t : Token) (u v : Bytes) :
    (t.extent u.length).cut (u ++ t.render ++ v) = t.text := by
  obtain ⟨a, c, hr, hl⟩ := t.render_eq
  have hcut := Extent.cut_append (u ++ a) t.text (c ++ v)
  rw [List.length_append, hl] at hcut
  rw [hr]
  simpa [extent] using hcut

end Token

namespace Scan

/-- Cutting at the places of the counted tokens gives their texts. -/
theorem extents_cut (ts : List Token) :
    ∀ (u v : Bytes), (extents u.length ts).map (fun e => e.cut (u ++ renderAll ts ++ v))
      = (Token.counted false ts).map Token.text := by
  induction ts with
  | nil => intro u v; rfl
  | cons t ts ih =>
      intro u v
      have hb : u ++ renderAll (t :: ts) ++ v = u ++ t.render ++ (renderAll ts ++ v) := by
        simp [renderAll]
      have hrest := ih (u ++ t.render) v
      rw [List.length_append] at hrest
      rw [hb]
      rw [show u ++ t.render ++ renderAll ts ++ v = u ++ t.render ++ (renderAll ts ++ v) by simp]
        at hrest
      cases hs : t.isSeparator with
      | true =>
          simp only [extents, hs, if_true]
          rw [hrest]
          simp [Token.counted, hs]
      | false =>
          simp only [extents, hs, Bool.false_eq_true, if_false, List.map_cons]
          rw [hrest, Token.extent_cut]
          simp [Token.counted, hs]

end Scan

/-! ### What comes of a line -/

/-- The record of a line: of the part of it that splits into tokens, or else of all of it. -/
def recordOf (line : Bytes) : Record :=
  if renderAll (tokens line).1 = [] then ⟨line, []⟩ else (Record.ofBytes false line).1

/-- What stays behind the record of a line that `t` ended: what could not be split, with the
terminator that was behind it. -/
def leftOf (line : Bytes) (t : UInt8) (rest : Bytes) : Bytes :=
  if renderAll (tokens line).1 = [] ∨ (tokens line).2 = [] then rest
  else (tokens line).2 ++ t :: rest

/-- A line is its record and what stays, and only its terminator can be missing. -/
theorem recordOf_append_leftOf (line : Bytes) (t : UInt8) (rest : Bytes) :
    ∃ gap, (gap = [] ∨ gap = [t]) ∧
      line ++ t :: rest = (recordOf line).raw ++ gap ++ leftOf line t rest := by
  have hline := renderAll_tokens line
  unfold recordOf leftOf
  by_cases hr : renderAll (tokens line).1 = []
  · refine ⟨[t], Or.inr rfl, ?_⟩
    rw [if_pos hr, if_pos (Or.inl hr)]
    simp
  · rw [if_neg hr]
    by_cases hl : (tokens line).2 = []
    · refine ⟨[t], Or.inr rfl, ?_⟩
      rw [if_pos (Or.inr hl)]
      rw [hl, List.append_nil] at hline
      show line ++ t :: rest = renderAll (tokens line).1 ++ [t] ++ rest
      rw [hline]
      simp
    · refine ⟨[], Or.inl rfl, ?_⟩
      rw [if_neg (not_or.mpr ⟨hr, hl⟩)]
      show line ++ t :: rest = renderAll (tokens line).1 ++ [] ++ ((tokens line).2 ++ t :: rest)
      rw [List.append_nil, ← List.append_assoc, hline]

namespace Scan

theorem length_used (line : Bytes) :
    line.length - (tokens line).2.length = (renderAll (tokens line).1).length := by
  have h := congrArg List.length (renderAll_tokens line)
  rw [List.length_append] at h
  omega

theorem ofLine_record (blanks line v : Bytes) :
    (ofLine blanks.length line).record (blanks ++ line ++ v) = recordOf line := by
  have hline := renderAll_tokens line
  unfold ofLine recordOf
  simp only [length_used, List.length_eq_zero_iff]
  by_cases hr : renderAll (tokens line).1 = []
  · rw [if_pos hr, if_pos hr]
    show Record.mk _ _ = Record.mk _ _
    rw [Extent.cut_append]
    rfl
  · rw [if_neg hr, if_neg hr]
    have hb : blanks ++ line ++ v
        = blanks ++ renderAll (tokens line).1 ++ ((tokens line).2 ++ v) := by
      conv => lhs; rw [← hline]
      simp
    show Record.mk _ _ = Record.mk _ _
    rw [hb, Extent.cut_append, extents_cut]

theorem ofLine_drop (blanks line rest : Bytes) (t : UInt8) :
    (blanks ++ line ++ t :: rest).drop (ofLine blanks.length line).consumed
      = leftOf line t rest := by
  have hline := renderAll_tokens line
  have hall : (blanks ++ line ++ t :: rest).drop (blanks.length + line.length + 1) = rest := by
    rw [show blanks ++ line ++ t :: rest = (blanks ++ line ++ [t]) ++ rest by simp]
    exact List.drop_left' (by simp; omega)
  unfold ofLine leftOf
  simp only [length_used, List.length_eq_zero_iff]
  by_cases hr : renderAll (tokens line).1 = []
  · rw [if_pos hr, if_pos (Or.inl hr)]
    exact hall
  · by_cases hl : (tokens line).2 = []
    · rw [if_pos (Or.inr hl), if_neg hr]
      show (blanks ++ line ++ t :: rest).drop (if _ then _ else _) = _
      rw [if_pos (by simp [hl])]
      exact hall
    · rw [if_neg (not_or.mpr ⟨hr, hl⟩), if_neg hr]
      show (blanks ++ line ++ t :: rest).drop (if _ then _ else _) = _
      rw [if_neg (by simp [hl])]
      rw [show blanks ++ line ++ t :: rest
        = (blanks ++ renderAll (tokens line).1) ++ ((tokens line).2 ++ t :: rest) by
          conv => lhs; rw [← hline]
          simp]
      exact List.drop_left' (by simp)

/-- **A line in front of a buffer makes its record and leaves what is left of it.** -/
theorem statement_line {buffer blanks line rest : Bytes} {t : UInt8}
    (h : Line.front buffer = .line blanks line t rest) :
    ∃ found, statement buffer = .complete found ∧ found.record buffer = recordOf line ∧
      buffer.drop found.consumed = leftOf line t rest := by
  have hb := (Line.front_line_spec h).1
  refine ⟨ofLine blanks.length line, ?_, ?_, ?_⟩
  · unfold statement
    rw [h]
  · rw [hb]
    exact ofLine_record blanks line (t :: rest)
  · rw [hb]
    exact ofLine_drop blanks line rest t

theorem statement_empty {buffer skipped rest : Bytes}
    (h : Line.front buffer = .empty skipped rest) :
    statement buffer = .skip skipped.length ∧ buffer.drop skipped.length = rest := by
  have hb := (Line.front_empty_spec h).1
  refine ⟨?_, ?_⟩
  · unfold statement
    rw [h]
  · rw [hb]
    exact List.drop_left

theorem statement_unfinished {buffer : Bytes} (h : Line.front buffer = .unfinished) :
    statement buffer = .incomplete := by
  unfold statement
  rw [h]

/-! ### What a search for a statement tells of the buffer -/

theorem line_of_complete {buffer : Bytes} {found : Found}
    (h : statement buffer = .complete found) :
    ∃ blanks line t rest, Line.front buffer = .line blanks line t rest ∧
      found.record buffer = recordOf line ∧ buffer.drop found.consumed = leftOf line t rest := by
  cases hf : Line.front buffer with
  | line blanks line t rest =>
      obtain ⟨found', hs, hrec, hdrop⟩ := statement_line hf
      rw [h] at hs
      injection hs with hs
      subst hs
      exact ⟨blanks, line, t, rest, rfl, hrec, hdrop⟩
  | empty skipped rest =>
      rw [(statement_empty hf).1] at h
      exact Scan.noConfusion h
  | unfinished =>
      rw [statement_unfinished hf] at h
      exact Scan.noConfusion h

theorem empty_of_skip {buffer : Bytes} {count : Nat} (h : statement buffer = .skip count) :
    ∃ skipped rest, Line.front buffer = .empty skipped rest ∧ buffer.drop count = rest := by
  cases hf : Line.front buffer with
  | line blanks line t rest =>
      obtain ⟨found, hs, _⟩ := statement_line hf
      rw [hs] at h
      exact Scan.noConfusion h
  | empty skipped rest =>
      obtain ⟨hs, hdrop⟩ := statement_empty hf
      rw [hs] at h
      injection h with h
      exact ⟨skipped, rest, rfl, by rw [← h]; exact hdrop⟩
  | unfinished =>
      rw [statement_unfinished hf] at h
      exact Scan.noConfusion h

theorem unterminated_of_incomplete {buffer : Bytes} (h : statement buffer = .incomplete) :
    ∀ b ∈ buffer, Byte.isTerminator b = false := by
  cases hf : Line.front buffer with
  | line blanks line t rest =>
      obtain ⟨found, hs, _⟩ := statement_line hf
      rw [hs] at h
      exact Scan.noConfusion h
  | empty skipped rest =>
      rw [(statement_empty hf).1] at h
      exact Scan.noConfusion h
  | unfinished => exact Line.front_eq_unfinished_iff.mp hf

end Scan

end CommandShell
