/-
A line can be cut again.

The scan looks beyond the line it is about to cut.  Before it passes a span it asks whether the span
is closed and whether a terminator is left behind it, and what answers the second question can be
far behind the end of the line.

Still the line does not depend on it.  A span that was passed is inside of the line, so it is closed
there by its own bytes (`Span.span?_eq`), and whatever terminator ends the line is behind it.  A
span that was not passed goes on behind the end of the line or up to it.  With only a terminator
behind the line it is not closed, or nothing is left behind it, so it is not passed either.  That is
the one step of `Scanned.replay`; the rest of the line is shorter.
-/
import CommandShell.Proofs.Separators

namespace CommandShell.Line

/-! ### Spans by themselves -/

/-- The bytes are a quoted span, or a comment or continuation through its newline. -/
inductive Span : Bytes → Prop
  | quoted {q : Quote} {w : Bytes} (hw : Quote.Content q w) : Span (q.byte :: (w ++ [q.byte]))
  | joined {b : UInt8} {w : Bytes} (hb : b = Byte.hash ∨ b = Byte.backslash)
      (hw : Byte.newline ∉ w) : Span (b :: (w ++ [Byte.newline]))

theorem span_of_span? {b : UInt8} {r w rest : Bytes} (h : span? b r = some (w, rest)) : Span w := by
  unfold span? at h
  cases hq : Quote.ofByte? b with
  | some q =>
      rw [hq] at h
      obtain ⟨p, hp, he⟩ := Option.map_eq_some_iff.mp h
      cases he
      rw [Quote.byte_of_ofByte? hq]
      exact .quoted (Quote.content_of_close? (w := p.1) (r := p.2) hp).1
  | none =>
      rw [hq] at h
      simp only at h
      by_cases hb : b = Byte.hash ∨ b = Byte.backslash
      · rw [if_pos hb] at h
        obtain ⟨p, hp, he⟩ := Option.map_eq_some_iff.mp h
        cases he
        exact .joined hb (Bytes.splitFirst?_append (u := p.1) (v := p.2) hp).2
      · rw [if_neg hb] at h
        exact absurd h (by simp)

namespace Span

variable {b : UInt8} {u : Bytes}

/-- What is behind a span has no say in where it is closed. -/
theorem span?_eq (h : Span (b :: u)) (v : Bytes) : span? b (u ++ v) = some (b :: u, v) := by
  cases h with
  | @quoted q w hw =>
      rw [List.append_assoc]
      exact span?_quoted hw v
  | @joined _ w hb hw =>
      rw [List.append_assoc]
      exact span?_joined hb hw v

theorem passes {w : Bytes} (h : Span w) : Passes w := by
  cases h with
  | quoted hw => exact .quoted hw
  | joined hb hw => exact .joined hb hw

end Span

/-- The scan passes a span with a terminator left behind it, or else one byte at which there is no
such span. -/
theorem stride_cases (b : UInt8) (r : Bytes) :
    (∃ u v, r = u ++ v ∧ Span (b :: u) ∧ v.any Byte.isTerminator = true ∧
      stride b r = (b :: u, v)) ∨
    (stride b r = ([b], r) ∧
      ∀ u v, r = u ++ v → Span (b :: u) → v.any Byte.isTerminator = false) := by
  cases h : span? b r with
  | none =>
      refine Or.inr ⟨?_, ?_⟩
      · unfold stride
        rw [h]
      · intro u v hr hspan
        rw [hr, hspan.span?_eq] at h
        exact absurd h (by simp)
  | some p =>
      obtain ⟨w, rest⟩ := p
      have hspan := span_of_span? h
      have hall := span?_append h
      -- A span has its first byte, and it is the one that was read.
      obtain ⟨u, rfl⟩ : ∃ u, w = b :: u := by
        cases hspan with
        | quoted _ => injection hall with hb _; exact ⟨_, by rw [hb]⟩
        | joined _ _ => injection hall with hb _; exact ⟨_, by rw [hb]⟩
      injection hall with _ hall
      cases hany : rest.any Byte.isTerminator with
      | true =>
          refine Or.inl ⟨u, rest, hall.symm, hspan, hany, ?_⟩
          unfold stride
          rw [h]
          simp only [hany, if_true]
      | false =>
          refine Or.inr ⟨?_, ?_⟩
          · unfold stride
            rw [h]
            simp only
            rw [if_neg (by simp [hany])]
          · intro u' v hr hspan'
            rw [hr, hspan'.span?_eq, Option.some.injEq, Prod.mk.injEq] at h
            rw [h.2]
            exact hany

/-! ### The scan of a line alone -/

namespace Scanned

variable {s p suffix : Bytes} {t : UInt8}

theorem in_front (h : Scanned s t suffix) (hp : Passes p) : Scanned (p ++ s) t suffix := by
  refine ⟨?_, h.ends⟩
  rw [List.append_assoc, hp (s ++ t :: suffix) (by simp [h.ends]), h.scan_eq]

/-- **What the scan passes it passes again** when there is nothing but a terminator behind it. -/
theorem replay (h : Scanned s t suffix) {t' : UInt8} (ht : Byte.isTerminator t' = true) :
    Scanned s t' [] := by
  induction hn : s.length using Nat.strongRecOn generalizing s with
  | ind n ih =>
      cases s with
      | nil =>
          refine ⟨?_, ht⟩
          rw [List.nil_append, scan, if_pos ht]
      | cons b s =>
          have hb := h.head
          have hscan := h.scan_eq
          rw [List.cons_append, scan, if_neg (by simp [hb])] at hscan
          rcases stride_cases b (s ++ t :: suffix) with ⟨u, v, _, hspan, _, hstride⟩ |
            ⟨hstride, hopen⟩
          · -- The span that is passed is inside of the line.
            rw [hstride] at hscan
            simp only [Prod.mk.injEq, List.cons_append, List.cons.injEq, true_and] at hscan
            obtain ⟨rfl, _⟩ := hscan
            have hbehind : Scanned (scan v).1 t suffix := h.behind (p := b :: u) hspan.passes
            have hlt : (scan v).1.length < n := by
              rw [← hn]
              simp only [List.length_cons, List.length_append]
              omega
            exact (ih _ hlt hbehind rfl).in_front (p := b :: u) hspan.passes
          · rw [hstride] at hscan
            simp only [Prod.mk.injEq, List.cons_append, List.cons.injEq, List.nil_append,
              true_and] at hscan
            have hbehind : Scanned s t suffix := ⟨Prod.ext hscan.1 hscan.2, h.ends⟩
            have hlt : s.length < n := by
              rw [← hn]
              exact Nat.lt_succ_self _
            have hrest := ih _ hlt hbehind rfl
            refine ⟨?_, ht⟩
            rw [List.cons_append, scan, if_neg (by simp [hb])]
            rcases stride_cases b (s ++ [t']) with ⟨u, v, hs, hspan, hv, _⟩ | ⟨hstride', _⟩
            · -- A span with the terminator left behind it has more behind it in the buffer.
              rcases List.eq_nil_or_concat v with rfl | ⟨x, c, rfl⟩
              · simp at hv
              · rw [List.concat_eq_append, ← List.append_assoc] at hs
                have hline := List.append_inj_left' hs rfl
                have hnone := hopen u (x ++ t :: suffix) (by rw [hline, List.append_assoc]) hspan
                simp [h.ends] at hnone
            · rw [hstride', hrest.scan_eq]
              rfl

end Scanned

/-! ### The cut of a line alone -/

/-- The line is cut off again, whatever blanks are in front of it. -/
theorem cut_again {raw line rest w : Bytes} {t : UInt8} (h : cut raw = (line, rest))
    (hne : line ≠ []) (hw : ∀ c ∈ w, Byte.isBlank c = true) (ht : Byte.isTerminator t = true) :
    cut (w ++ line ++ [t]) = (line, []) := by
  obtain ⟨t', hscanned⟩ := scanned_of_cut h hne
  have hagain := hscanned.replay ht
  rcases cut_line_head raw with hnil | ⟨b, line', hline, hb⟩
  · rw [h] at hnil
    exact absurd hnil hne
  · rw [h] at hline
    obtain rfl : line = b :: line' := hline
    have hfront : front (w ++ b :: (line' ++ [t])) = .line w (b :: line') t [] :=
      front_of_scan hw hb hagain.scan_eq ht
    rw [List.append_assoc, List.cons_append]
    exact cut_of_line hfront

/-- Blanks with a terminator behind them are an empty statement. -/
theorem cut_blanks {w : Bytes} {t : UInt8} (hw : ∀ c ∈ w, Byte.isBlank c = true)
    (ht : Byte.isTerminator t = true) : cut (w ++ [t]) = ([], []) := by
  rcases Byte.isTerminator_iff.mp ht with rfl | rfl
  · exact cut_of_empty (front_semicolon hw [])
  · have hnil : front [] = .unfinished := front_eq_unfinished_iff.mpr (by simp)
    have hfront := front_blank_append hw []
    rw [hnil] at hfront
    exact cut_of_empty hfront

/-- The bytes that were used up for a cut are cut the same by themselves. -/
theorem cut_used {raw : Bytes} (h : 0 < raw.length - (cut raw).2.length) :
    cut (raw.take (raw.length - (cut raw).2.length)) = ((cut raw).1, []) := by
  cases hf : front raw with
  | empty skipped rest =>
      have hcut := cut_of_empty hf
      obtain ⟨hraw, _⟩ := front_eq_empty hf
      obtain ⟨w, t, hskipped, hw, ht⟩ := front_empty_blanks hf
      have htake : raw.take (raw.length - rest.length) = w ++ [t] := by
        rw [hraw, hskipped, List.length_append, Nat.add_sub_cancel, List.take_left]
      rw [hcut, htake]
      exact cut_blanks hw ht
  | line blanks line t rest =>
      have hcut := cut_of_line hf
      obtain ⟨hraw, hblanks, ht, _⟩ := front_line_spec hf
      have htake : raw.take (raw.length - rest.length) = blanks ++ line ++ [t] := by
        rw [hraw, show blanks ++ line ++ t :: rest = (blanks ++ line ++ [t]) ++ rest by simp,
          List.length_append, Nat.add_sub_cancel, List.take_left]
      rw [hcut, htake]
      exact cut_again hcut (front_eq_line hf).2 hblanks ht
  | unfinished =>
      rw [cut_of_unfinished hf, Nat.sub_self] at h
      exact absurd h (Nat.lt_irrefl 0)

/--
**A line that was cut off can be cut off again.**  With either terminator behind it and nothing else
it is cut as it was.  The bytes that were used up give the same by themselves, a line or none.  So
what is behind the terminator says where the cut is made, and never which line it makes.
-/
theorem line_replayed (raw : Bytes) :
    let line := (cut raw).1
    let used := raw.length - (cut raw).2.length
    (line ≠ [] → ∀ t, Byte.isTerminator t = true → cut (line ++ [t]) = (line, [])) ∧
    (0 < used → cut (raw.take used) = (line, [])) := by
  intro line used
  refine ⟨?_, cut_used⟩
  intro hne t ht
  exact cut_again (w := []) rfl hne (by simp) ht

/-- A comment that a newline could end, and a quote behind the line that stays open. -/
theorem line_replayed_comment :
    let raw : Bytes := [0x20, 0x61, 0x23, 0x27, 0x3b, 0x27]
    let line : Bytes := [0x61, 0x23, 0x27]
    cut raw = (line, [0x27]) ∧ cut (line ++ [Byte.newline]) = (line, []) ∧
      cut (raw.take 5) = (line, []) := by
  intro raw line
  have hcut : cut raw = (line, [0x27]) := by decide +kernel
  have hagain := line_replayed raw
  rw [hcut] at hagain
  exact ⟨hcut, hagain.1 (by simp [line]) Byte.newline rfl, hagain.2 (by decide)⟩

end CommandShell.Line
