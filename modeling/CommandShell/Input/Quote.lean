/-
Quoted spans.

A quote byte opens a span that the next such byte closes, except that a backslash
inside the span takes the byte after it along, whatever that byte is.  The content
is kept as it was typed.  A span that is not closed in the bytes at hand is no span:
`close?` says so, and both the line rule and the token rule go by it.
-/
import CommandShell.Bytes

namespace CommandShell

/-- The two kinds of quote, which differ in nothing but their byte. -/
inductive Quote
  | double
  | single
  deriving DecidableEq, Repr

namespace Quote

/-- The byte that opens and closes a span. -/
def byte : Quote → UInt8
  | double => 0x22
  | single => 0x27

/-- The quote a byte is, if it is one. -/
def ofByte? (b : UInt8) : Option Quote :=
  if b = double.byte then some double
  else if b = single.byte then some single
  else none

@[simp] theorem ofByte?_byte (q : Quote) : ofByte? q.byte = some q := by
  cases q <;> rfl

theorem byte_of_ofByte? {b : UInt8} {q : Quote} (h : ofByte? b = some q) : b = q.byte := by
  unfold ofByte? at h
  split at h
  · simp_all
  · split at h <;> simp_all

theorem ne_byte_of_ofByte? {b : UInt8} (h : ofByte? b = none) (q : Quote) : b ≠ q.byte := by
  intro hb
  rw [hb, ofByte?_byte] at h
  exact absurd h (by simp)

theorem byte_ne_backslash (q : Quote) : q.byte ≠ Byte.backslash := by
  cases q <;> decide

theorem byte_not_terminator (q : Quote) : Byte.isTerminator q.byte = false := by
  cases q <;> rfl

/-- Reads on from just after an opening quote: the content of the span and what follows
its closing quote, if there is a closing quote. -/
def close? (q : Quote) : Bytes → Option (Bytes × Bytes)
  | [] => none
  | b :: r =>
    if b = q.byte then some ([], r)
    else if b = Byte.backslash then
      match r with
      | [] => none
      | e :: r => (close? q r).map fun p => (b :: e :: p.1, p.2)
    else (close? q r).map fun p => (b :: p.1, p.2)

theorem close?_byte_cons (q : Quote) (r : Bytes) : close? q (q.byte :: r) = some ([], r) := by
  unfold close?
  simp

theorem close?_escape_cons (q : Quote) (e : UInt8) (r : Bytes) :
    close? q (Byte.backslash :: e :: r) =
      (close? q r).map fun p => (Byte.backslash :: e :: p.1, p.2) := by
  simp [close?, (byte_ne_backslash q).symm]

theorem close?_plain_cons {q : Quote} {b : UInt8} (hq : b ≠ q.byte) (hb : b ≠ Byte.backslash)
    (r : Bytes) : close? q (b :: r) = (close? q r).map fun p => (b :: p.1, p.2) := by
  conv => lhs; unfold close?
  simp [hq, hb]

/-- What can stand between two quotes: escaped bytes, and bytes that are neither the
quote nor a backslash. -/
inductive Content (q : Quote) : Bytes → Prop
  | nil : Content q []
  | plain {b : UInt8} {w : Bytes} : b ≠ q.byte → b ≠ Byte.backslash → Content q w →
      Content q (b :: w)
  | escaped {e : UInt8} {w : Bytes} : Content q w → Content q (Byte.backslash :: e :: w)

/-- A span is read back from its content, whatever follows it. -/
theorem close?_content {q : Quote} {w : Bytes} (h : Content q w) (r : Bytes) :
    close? q (w ++ q.byte :: r) = some (w, r) := by
  induction h with
  | nil => exact close?_byte_cons q r
  | plain hq hb _ ih => simp [close?_plain_cons hq hb, ih]
  | escaped _ ih => simp [close?_escape_cons, ih]

/-- What is read is a content, and nothing is lost around it. -/
theorem content_of_close? {q : Quote} {s w r : Bytes} (h : close? q s = some (w, r)) :
    Content q w ∧ s = w ++ q.byte :: r := by
  fun_induction close? q s generalizing w with
  | case1 => simp at h
  | case2 r' =>
    simp only [Option.some.injEq, Prod.mk.injEq] at h
    obtain ⟨rfl, rfl⟩ := h
    exact ⟨.nil, rfl⟩
  | case3 => simp at h
  | case4 hq e r' ih =>
    obtain ⟨⟨w', r''⟩, hr, he⟩ := Option.map_eq_some_iff.mp h
    simp only [Prod.mk.injEq] at he
    obtain ⟨rfl, rfl⟩ := he
    obtain ⟨hc, rfl⟩ := ih hr
    exact ⟨.escaped hc, rfl⟩
  | case5 b r' hq hb ih =>
    obtain ⟨⟨w', r''⟩, hr, he⟩ := Option.map_eq_some_iff.mp h
    simp only [Prod.mk.injEq] at he
    obtain ⟨rfl, rfl⟩ := he
    obtain ⟨hc, rfl⟩ := ih hr
    exact ⟨.plain hq hb hc, rfl⟩

/-- A span closes exactly where a content is followed by the quote. -/
theorem close?_eq_some_iff {q : Quote} {s w r : Bytes} :
    close? q s = some (w, r) ↔ Content q w ∧ s = w ++ q.byte :: r :=
  ⟨content_of_close?, fun ⟨hc, hs⟩ => hs ▸ close?_content hc r⟩

theorem close?_length {q : Quote} {s w r : Bytes} (h : close? q s = some (w, r)) :
    w.length + r.length + 1 = s.length := by
  rw [(content_of_close? h).2, List.length_append, List.length_cons]
  exact Nat.add_assoc _ _ _

end Quote

end CommandShell
