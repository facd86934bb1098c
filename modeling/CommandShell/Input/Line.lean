/-
Cutting logical lines off the front of a buffer.

A line is what lies between the blanks at the front and the terminator that ends it:
the first semicolon or newline that is not inside a span.  A span is a quoted span, or
a comment or continuation through its newline.  A span hides terminators only if it is
complete in the buffer and a terminator is left at or after its end; otherwise the byte
that would open it is a byte like any other.  So a line is cut as soon as any
terminator follows its first byte, and a quote, a comment or a backslash that is never
finished delays nothing.

What stands at the front is a `Front`: an empty statement, a line, or neither yet.  Two
facts hold of every front: its parts put together are the buffer, and a line neither is
empty nor begins with a blank.
-/
import CommandShell.Input.Quote

namespace CommandShell.Line

/-! ### Spans -/

/-- The span that `b` opens before `r`, if it is complete there, and what follows it. -/
def span? (b : UInt8) (r : Bytes) : Option (Bytes × Bytes) :=
  match Quote.ofByte? b with
  | some q => (q.close? r).map fun p => (b :: (p.1 ++ [b]), p.2)
  | none =>
    if b = Byte.hash ∨ b = Byte.backslash then
      (Bytes.splitFirst? Byte.newline r).map fun p => (b :: (p.1 ++ [Byte.newline]), p.2)
    else none

theorem span?_append {b : UInt8} {r w rest : Bytes} (h : span? b r = some (w, rest)) :
    w ++ rest = b :: r := by
  unfold span? at h
  split at h
  · next q hq =>
    obtain ⟨p, hp, he⟩ := Option.map_eq_some_iff.mp h
    simp only [Prod.mk.injEq] at he
    obtain ⟨rfl, rfl⟩ := he
    have hr := (Quote.content_of_close? (r := p.2) (w := p.1) hp).2
    rw [hr, ← Quote.byte_of_ofByte? hq]
    simp
  · split at h
    · obtain ⟨p, hp, he⟩ := Option.map_eq_some_iff.mp h
      simp only [Prod.mk.injEq] at he
      obtain ⟨rfl, rfl⟩ := he
      rw [(Bytes.splitFirst?_append (u := p.1) (v := p.2) hp).1]
      simp
    · simp at h

theorem span?_length {b : UInt8} {r w rest : Bytes} (h : span? b r = some (w, rest)) :
    rest.length < r.length := by
  unfold span? at h
  split at h
  · obtain ⟨p, hp, he⟩ := Option.map_eq_some_iff.mp h
    simp only [Prod.mk.injEq] at he
    have hl := Quote.close?_length (w := p.1) (r := p.2) hp
    rw [← he.2]
    omega
  · split at h
    · obtain ⟨p, hp, he⟩ := Option.map_eq_some_iff.mp h
      simp only [Prod.mk.injEq] at he
      rw [(Bytes.splitFirst?_append (u := p.1) (v := p.2) hp).1, ← he.2]
      simp only [List.length_append, List.length_cons]
      omega
    · simp at h

/-! ### The scan -/

/-- What the scan passes at once when it stands before `b :: r`: a span that leaves a
terminator behind it, or else one byte. -/
def stride (b : UInt8) (r : Bytes) : Bytes × Bytes :=
  match span? b r with
  | some (w, rest) => if rest.any Byte.isTerminator then (w, rest) else ([b], r)
  | none => ([b], r)

theorem stride_append (b : UInt8) (r : Bytes) : (stride b r).1 ++ (stride b r).2 = b :: r := by
  unfold stride
  split
  · next h =>
    split
    · exact span?_append h
    · rfl
  · rfl

theorem stride_length_le (b : UInt8) (r : Bytes) : (stride b r).2.length ≤ r.length := by
  unfold stride
  split
  · next h =>
    split
    · exact Nat.le_of_lt (span?_length h)
    · exact Nat.le_refl _
  · exact Nat.le_refl _

/-- A terminator that follows the next byte also follows what is passed at once. -/
theorem any_stride {b : UInt8} {r : Bytes} (h : r.any Byte.isTerminator) :
    (stride b r).2.any Byte.isTerminator := by
  unfold stride
  split
  · split
    · assumption
    · exact h
  · exact h

/-- Passes over bytes and spans up to the first terminator, which heads the rest. -/
def scan : Bytes → Bytes × Bytes
  | [] => ([], [])
  | b :: r =>
    if Byte.isTerminator b then ([], b :: r)
    else ((stride b r).1 ++ (scan (stride b r).2).1, (scan (stride b r).2).2)
termination_by s => s.length
decreasing_by all_goals exact Nat.lt_succ_of_le (stride_length_le b r)

theorem scan_append (s : Bytes) : (scan s).1 ++ (scan s).2 = s := by
  fun_induction scan s with
  | case1 => rfl
  | case2 => rfl
  | case3 b r _ ih => rw [List.append_assoc, ih, stride_append]

/-- The scan stops at a terminator if there is any. -/
theorem scan_stops {s : Bytes} (h : s.any Byte.isTerminator) :
    ∃ t rest, (scan s).2 = t :: rest ∧ Byte.isTerminator t := by
  fun_induction scan s with
  | case1 => simp at h
  | case2 b r hb => exact ⟨b, r, rfl, hb⟩
  | case3 b r hb ih =>
    apply ih
    apply any_stride
    simpa [hb] using h

/-! ### Fronts -/

/-- What stands at the front of a buffer. -/
inductive Front
  /-- A statement with nothing in it, used up with the blanks around it. -/
  | empty (skipped rest : Bytes)
  /-- A line, with the blanks before it and the terminator after it. -/
  | line (blanks line : Bytes) (terminator : UInt8) (rest : Bytes)
  /-- No terminator after the blanks: more bytes are needed. -/
  | unfinished
  deriving DecidableEq, Repr

/-- Looks at the front of a buffer.  Without a terminator after them the blanks still end
empty statements at their newlines; what follows the last of these is kept. -/
def front (raw : Bytes) : Front :=
  let blanks := raw.takeWhile Byte.isBlank
  let s := raw.dropWhile Byte.isBlank
  if s.any Byte.isTerminator then
    match scan s with
    | (line, t :: rest) =>
      if line.isEmpty then .empty (blanks ++ [t]) rest else .line blanks line t rest
    | (_, []) => .unfinished
  else
    match Bytes.splitLast? Byte.newline blanks with
    | some (skipped, rest) => .empty skipped (rest ++ s)
    | none => .unfinished

theorem front_eq_empty {raw skipped rest : Bytes} (h : front raw = .empty skipped rest) :
    raw = skipped ++ rest ∧ skipped ≠ [] := by
  have hraw := List.takeWhile_append_dropWhile (p := Byte.isBlank) (l := raw)
  unfold front at h
  simp only at h
  split at h
  · split at h
    · next line t rest' hscan =>
      split at h
      · next hl =>
        simp only [Front.empty.injEq] at h
        obtain ⟨rfl, rfl⟩ := h
        have ha := scan_append (raw.dropWhile Byte.isBlank)
        rw [hscan] at ha
        simp only [List.isEmpty_iff] at hl
        rw [hl, List.nil_append] at ha
        simp only at ha
        refine ⟨?_, by simp⟩
        rw [List.append_assoc, List.singleton_append, ha, hraw]
      · simp at h
    · simp at h
  · split at h
    · next u v hu =>
      simp only [Front.empty.injEq] at h
      obtain ⟨rfl, rfl⟩ := h
      obtain ⟨he, _, w, hw⟩ := Bytes.splitLast?_append hu
      refine ⟨?_, by simp [hw]⟩
      rw [← List.append_assoc, ← he, hraw]
    · simp at h

theorem front_eq_line {raw blanks line rest : Bytes} {t : UInt8}
    (h : front raw = .line blanks line t rest) :
    raw = blanks ++ line ++ t :: rest ∧ line ≠ [] := by
  have hraw := List.takeWhile_append_dropWhile (p := Byte.isBlank) (l := raw)
  unfold front at h
  simp only at h
  split at h
  · split at h
    · next line' t' rest' hscan =>
      split at h
      · simp at h
      · next hl =>
        simp only [Front.line.injEq] at h
        obtain ⟨rfl, rfl, rfl, rfl⟩ := h
        have ha := scan_append (raw.dropWhile Byte.isBlank)
        rw [hscan] at ha
        simp only at ha
        refine ⟨?_, by simpa using hl⟩
        rw [List.append_assoc, ha, hraw]
    · simp at h
  · split at h <;> simp at h

theorem front_empty_length {raw skipped rest : Bytes} (h : front raw = .empty skipped rest) :
    rest.length < raw.length := by
  obtain ⟨he, hs⟩ := front_eq_empty h
  have hp := List.length_pos_iff.mpr hs
  rw [he, List.length_append]
  omega

theorem front_line_length {raw blanks line rest : Bytes} {t : UInt8}
    (h : front raw = .line blanks line t rest) : rest.length < raw.length := by
  rw [(front_eq_line h).1, List.length_append, List.length_cons]
  omega

/-! ### Cutting -/

/-- Cuts the first line off a buffer: the line, and the rest after its terminator.  The
line is empty if an empty statement stands there, and also if more bytes are needed;
only then is the rest the whole buffer. -/
def cut (raw : Bytes) : Bytes × Bytes :=
  match front raw with
  | .empty _ rest => ([], rest)
  | .line _ line _ rest => (line, rest)
  | .unfinished => ([], raw)

theorem cut_of_empty {raw skipped rest : Bytes} (h : front raw = .empty skipped rest) :
    cut raw = ([], rest) := by
  unfold cut
  rw [h]

theorem cut_of_line {raw blanks line rest : Bytes} {t : UInt8}
    (h : front raw = .line blanks line t rest) : cut raw = (line, rest) := by
  unfold cut
  rw [h]

theorem cut_of_unfinished {raw : Bytes} (h : front raw = .unfinished) : cut raw = ([], raw) := by
  unfold cut
  rw [h]

/-- Cuts lines, empty ones too, until more bytes are needed. -/
def split (raw : Bytes) : List Bytes × Bytes :=
  match _h : front raw with
  | .empty _ rest => ([] :: (split rest).1, (split rest).2)
  | .line _ line _ rest => (line :: (split rest).1, (split rest).2)
  | .unfinished => ([], raw)
termination_by raw.length
decreasing_by
  · exact front_empty_length _h
  · exact front_line_length _h

end CommandShell.Line
