/-
Quoted spans and the end of a line.

A buffer is read from the left: a closed quoted span as a whole, a hash or a backslash with all that
is up to its next newline, and any other byte by itself.  `Reads u s` says that this comes to `s`
behind `u`.  It does not ask for terminators, and the scan does: it stops at the first one that
stands by itself, and it passes a span as a whole only if a terminator is left behind it.

As long as one is left, the scan goes where the reading goes (`scan_reads`).  So a line never ends
inside of a closed quoted span that has a terminator somewhere behind it.  If there is none behind
it but one inside of it, the span does not hold: the line ends inside of it, unless it ended before
(`cut_around`).  A buffer that ends just behind a closing quote is cut inside of the quotes.
-/
import CommandShell.Proofs.Chunking
import CommandShell.Proofs.Matching

namespace CommandShell

theorem Quote.byte_not_blank (q : Quote) : Byte.isBlank q.byte = false := by
  cases q <;> rfl

theorem Quote.byte_not_gap (q : Quote) : Byte.isGap q.byte = false :=
  Byte.isGap_eq_false q.byte_not_blank q.byte_not_terminator

namespace Line

/-! ### Reading -/

/-- Reading `u ++ s` from the left, with every span as a whole, one comes to `s`. -/
inductive Reads : Bytes → Bytes → Prop
  /-- One begins at the front. -/
  | start (s : Bytes) : Reads [] s
  /-- A closed quoted span is read as a whole. -/
  | quoted {q : Quote} {w u s : Bytes} (hw : Quote.Content q w) (h : Reads u s) :
      Reads (q.byte :: (w ++ q.byte :: u)) s
  /-- So is a hash or a backslash with all that is up to its next newline. -/
  | joined {b : UInt8} {w u s : Bytes} (hb : b = Byte.hash ∨ b = Byte.backslash)
      (hw : Byte.newline ∉ w) (h : Reads u s) : Reads (b :: (w ++ Byte.newline :: u)) s
  /-- Any other byte is read by itself. -/
  | single {b : UInt8} {u s : Bytes}
      (hq : ∀ q w v, b = Quote.byte q → Quote.Content q w → u ++ s ≠ w ++ q.byte :: v)
      (hn : b = Byte.hash ∨ b = Byte.backslash → Byte.newline ∉ u ++ s) (h : Reads u s) :
      Reads (b :: u) s

theorem span?_joined {b : UInt8} (hb : b = Byte.hash ∨ b = Byte.backslash) {w : Bytes}
    (hw : Byte.newline ∉ w) (r : Bytes) :
    span? b (w ++ Byte.newline :: r) = some (b :: (w ++ [Byte.newline]), r) := by
  have hq : Quote.ofByte? b = none := by
    rcases hb with rfl | rfl <;> rfl
  unfold span?
  rw [hq]
  simp [hb, Bytes.splitFirst?_eq_some hw]

theorem span?_eq_none {b : UInt8} {r : Bytes}
    (hq : ∀ q w v, b = Quote.byte q → Quote.Content q w → r ≠ w ++ q.byte :: v)
    (hn : b = Byte.hash ∨ b = Byte.backslash → Byte.newline ∉ r) : span? b r = none := by
  unfold span?
  cases hb : Quote.ofByte? b with
  | some q =>
      cases hc : q.close? r with
      | none => simp [hc]
      | some p =>
          obtain ⟨hw, hr⟩ := Quote.content_of_close? (w := p.1) (r := p.2) hc
          exact absurd hr (hq q p.1 p.2 (Quote.byte_of_ofByte? hb) hw)
  | none =>
      simp only
      by_cases hh : b = Byte.hash ∨ b = Byte.backslash
      · rw [if_pos hh, Bytes.splitFirst?_eq_none.mpr (hn hh)]
        rfl
      · rw [if_neg hh]

/-- A comment or a continuation is passed as a whole, like a quoted span. -/
theorem Passes.joined {b : UInt8} (hb : b = Byte.hash ∨ b = Byte.backslash) {w : Bytes}
    (hw : Byte.newline ∉ w) : Passes (b :: (w ++ [Byte.newline])) := by
  intro v hv
  have ht : Byte.isTerminator b = false := by
    rcases hb with rfl | rfl <;> rfl
  have hstride : stride b (w ++ Byte.newline :: v) = (b :: (w ++ [Byte.newline]), v) := by
    unfold stride
    rw [span?_joined hb hw]
    simp only [hv, if_true]
  rw [show b :: (w ++ [Byte.newline]) ++ v = b :: (w ++ Byte.newline :: v) by simp]
  rw [Line.scan, if_neg (by simp [ht]), hstride]

/-- Blanks in front of what is read can be left out. -/
theorem Reads.dropWhile {u s : Bytes} (h : Reads u s) : Reads (u.dropWhile Byte.isBlank) s := by
  induction h with
  | start s => exact .start s
  | @quoted q w u s hw h ih =>
      rw [List.dropWhile_cons_of_neg (by simp [q.byte_not_blank])]
      exact .quoted hw h
  | joined hb hw h ih =>
      rw [List.dropWhile_cons_of_neg (by rcases hb with rfl | rfl <;> decide)]
      exact .joined hb hw h
  | @single b u s hq hn h ih =>
      by_cases hb : Byte.isBlank b = true
      · rw [List.dropWhile_cons_of_pos hb]
        exact ih
      · rw [List.dropWhile_cons_of_neg hb]
        exact .single hq hn h

/-- So can all bytes that are part of no record. -/
theorem Reads.of_gap_append {g u s : Bytes} (hg : ∀ b ∈ g, Byte.isGap b = true)
    (h : Reads (g ++ u) s) : Reads u s := by
  induction g with
  | nil => exact h
  | cons b g ih =>
      have hb := hg b List.mem_cons_self
      refine ih (fun c hc => hg c (List.mem_cons_of_mem b hc)) ?_
      generalize hd : b :: g ++ u = d at h
      cases h with
      | start => exact absurd hd (by simp)
      | @quoted q w u' _ hw h =>
          injection hd with hbq _
          rw [hbq, q.byte_not_gap] at hb
          exact Bool.noConfusion hb
      | joined hj hw h =>
          injection hd with hbj _
          rw [hbj] at hb
          exact absurd hb (by rcases hj with rfl | rfl <;> decide)
      | single hq hn h =>
          injection hd with _ hu
          rw [← hu] at h
          exact h

/-! ### The scan goes where the reading goes -/

/-- The scan of `u ++ s` comes to `s` and goes on from there, or it stops in `u`. -/
def ScanComesTo (u s : Bytes) : Prop :=
  scan (u ++ s) = (u ++ (scan s).1, (scan s).2) ∨
    ∃ u₁ t u₂, u = u₁ ++ t :: u₂ ∧ Byte.isTerminator t = true ∧
      scan (u ++ s) = (u₁, t :: (u₂ ++ s))

/-- What is passed in front neither adds a stop nor moves one. -/
theorem ScanComesTo.behind {p u s : Bytes}
    (hp : scan (p ++ (u ++ s)) = (p ++ (scan (u ++ s)).1, (scan (u ++ s)).2))
    (h : ScanComesTo u s) : ScanComesTo (p ++ u) s := by
  unfold ScanComesTo
  rw [List.append_assoc, hp]
  rcases h with h | ⟨u₁, t, u₂, hu, ht, h⟩
  · refine Or.inl ?_
    rw [h, List.append_assoc]
  · refine Or.inr ⟨p ++ u₁, t, u₂, ?_, ht, ?_⟩
    · rw [hu, List.append_assoc]
    · rw [h]

/-- **With a terminator left the scan comes to where the reading does**, or it stops before. -/
theorem scan_reads {u s : Bytes} (h : Reads u s) (hs : s.any Byte.isTerminator = true) :
    ScanComesTo u s := by
  have hbehind : ∀ u : Bytes, (u ++ s).any Byte.isTerminator = true := by
    intro u
    rw [List.any_append, hs, Bool.or_true]
  induction h with
  | start s => exact Or.inl rfl
  | @quoted q w u s hw h ih =>
      have hall := (ih hs hbehind).behind (Passes.quoted hw (u ++ s) (hbehind u))
      simpa using hall
  | @joined b w u s hb hw h ih =>
      have hall := (ih hs hbehind).behind (Passes.joined hb hw (u ++ s) (hbehind u))
      simpa using hall
  | @single b u s hq hn h ih =>
      by_cases hb : Byte.isTerminator b = true
      · refine Or.inr ⟨[], b, u, rfl, hb, ?_⟩
        show scan (b :: (u ++ s)) = _
        rw [scan, if_pos hb]
      · have hstride : stride b (u ++ s) = ([b], u ++ s) := by
          unfold stride
          rw [span?_eq_none hq hn]
        have hpass : scan ([b] ++ (u ++ s))
            = ([b] ++ (scan (u ++ s)).1, (scan (u ++ s)).2) := by
          show scan (b :: (u ++ s)) = _
          rw [scan, if_neg hb, hstride]
        exact (ih hs hbehind).behind hpass

/-! ### Where a line ends around a span -/

/-- What is left begins inside of a span with the content `w`, behind a terminator there. -/
def LeftInside (q : Quote) (w v left : Bytes) : Prop :=
  ∃ x t y, w = x ++ t :: y ∧ Byte.isTerminator t = true ∧ left = y ++ q.byte :: v

/-- Without a terminator behind it a span does not hold: the scan stops in its content. -/
theorem scan_open_span {q : Quote} {w v : Bytes} (hw : Quote.Content q w)
    (hv : v.any Byte.isTerminator = false) (hany : w.any Byte.isTerminator = true) :
    ∃ x t y, w = x ++ t :: y ∧ Byte.isTerminator t = true ∧
      scan (q.byte :: (w ++ q.byte :: v)) = (q.byte :: x, t :: (y ++ q.byte :: v)) := by
  have hq := Quote.byte_not_terminator q
  have hstride : stride q.byte (w ++ q.byte :: v) = ([q.byte], w ++ q.byte :: v) := by
    unfold stride
    rw [span?_quoted hw]
    simp only
    rw [if_neg (by simp [hv])]
  obtain ⟨t, rest, hrest, ht⟩ := scan_stops (s := w ++ q.byte :: v) (by simp [hany])
  have hsplit := scan_append (w ++ q.byte :: v)
  rw [hrest] at hsplit
  rcases append_cons_cases hsplit.symm with ⟨a, _, ha⟩ | ⟨y, hy, hrest'⟩
  · -- Neither the closing quote nor what is behind it has a terminator.
    have hmem : t ∈ q.byte :: v := by simp [ha]
    rcases List.mem_cons.mp hmem with rfl | hmem
    · rw [hq] at ht
      exact Bool.noConfusion ht
    · have hf := List.any_eq_false.mp hv t hmem
      exact absurd ht hf
  · refine ⟨(scan (w ++ q.byte :: v)).1, t, y, hy, ht, ?_⟩
    rw [scan, if_neg (by simp [hq]), hstride, hrest, hrest']
    rfl

/-- **A line ends before a closed span, inside of it or behind it**, and it ends inside only if
there is no terminator behind. -/
theorem cut_around {q : Quote} {u w v : Bytes} (hw : Quote.Content q w)
    (hu : Reads u (q.byte :: (w ++ q.byte :: v)))
    (hany : w.any Byte.isTerminator = true ∨ v.any Byte.isTerminator = true) :
    (∃ u₁ t u₂, u = u₁ ++ t :: u₂ ∧ Byte.isTerminator t = true ∧
      (cut (u ++ q.byte :: (w ++ q.byte :: v))).2 = u₂ ++ q.byte :: (w ++ q.byte :: v)) ∨
    (v.any Byte.isTerminator = false ∧
      LeftInside q w v (cut (u ++ q.byte :: (w ++ q.byte :: v))).2) ∨
    (∃ v₁ t v₂, v = v₁ ++ t :: v₂ ∧ Byte.isTerminator t = true ∧
      (cut (u ++ q.byte :: (w ++ q.byte :: v))).2 = v₂) := by
  have hdrop : (u ++ q.byte :: (w ++ q.byte :: v)).dropWhile Byte.isBlank
      = u.dropWhile Byte.isBlank ++ q.byte :: (w ++ q.byte :: v) := by
    rw [List.dropWhile_append, List.dropWhile_cons_of_neg (by simp [q.byte_not_blank])]
    split
    · next hempty => rw [List.isEmpty_iff.mp hempty, List.nil_append]
    · rfl
  have hs : (q.byte :: (w ++ q.byte :: v)).any Byte.isTerminator = true := by
    rcases hany with h | h <;> simp [h]
  have hterm : ((u ++ q.byte :: (w ++ q.byte :: v)).dropWhile Byte.isBlank).any Byte.isTerminator
      = true := by
    rw [hdrop, List.any_append, hs, Bool.or_true]
  obtain ⟨t, rest, hrest, ht, hcut⟩ := cut_scan hterm
  rw [hdrop] at hrest
  rw [hcut]
  simp only
  rcases scan_reads hu.dropWhile hs with h | ⟨u₁, t', u₂, hu', ht', h⟩
  · rw [h] at hrest
    refine Or.inr ?_
    cases hv : v.any Byte.isTerminator with
    | false =>
        rw [hv] at hany
        obtain ⟨x, t', y, hx, ht', hscan⟩ := scan_open_span hw hv (by simpa using hany)
        rw [hscan] at hrest
        injection hrest with _ hrest
        exact Or.inl ⟨rfl, x, t', y, hx, ht', hrest.symm⟩
    | true =>
        refine Or.inr ?_
        have hpass := Passes.quoted hw v hv
        rw [show q.byte :: (w ++ [q.byte]) ++ v = q.byte :: (w ++ q.byte :: v) by simp] at hpass
        rw [hpass] at hrest
        have hsplit := scan_append v
        rw [show (scan v).2 = t :: rest from hrest] at hsplit
        exact ⟨(scan v).1, t, rest, hsplit.symm, ht, rfl⟩
  · rw [h] at hrest
    injection hrest with _ hrest
    refine Or.inl ⟨u.takeWhile Byte.isBlank ++ u₁, t', u₂, ?_, ht', hrest.symm⟩
    rw [List.append_assoc, ← hu', List.takeWhile_append_dropWhile]

theorem LeftInside.length {q : Quote} {w v left : Bytes} (h : LeftInside q w v left) :
    v.length < left.length ∧ left.length ≤ w.length + v.length := by
  obtain ⟨x, t, y, rfl, _, rfl⟩ := h
  simp only [List.length_append, List.length_cons]
  omega

theorem not_leftInside {q : Quote} {u w v : Bytes} (hw : Quote.Content q w)
    (hu : Reads u (q.byte :: (w ++ q.byte :: v))) (hv : v.any Byte.isTerminator = true) :
    ¬ LeftInside q w v (cut (u ++ q.byte :: (w ++ q.byte :: v))).2 := by
  intro h
  obtain ⟨hlow, hhigh⟩ := h.length
  rcases cut_around hw hu (Or.inr hv) with ⟨u₁, t, u₂, _, _, hleft⟩ | ⟨hnone, _⟩ |
    ⟨v₁, t, v₂, hsplit, _, hleft⟩
  · rw [hleft] at hhigh
    simp only [List.length_append, List.length_cons] at hhigh
    omega
  · rw [hv] at hnone
    exact Bool.noConfusion hnone
  · rw [hleft, hsplit] at hlow
    simp only [List.length_append, List.length_cons] at hlow
    omega

theorem leftInside_iff {q : Quote} {u w v : Bytes} (hw : Quote.Content q w)
    (hu : Reads u (q.byte :: (w ++ q.byte :: v))) :
    LeftInside q w v (cut (u ++ q.byte :: (w ++ q.byte :: v))).2 ↔
      v.any Byte.isTerminator = false ∧ w.any Byte.isTerminator = true ∧
        ∀ u₁ t u₂, u = u₁ ++ t :: u₂ → Byte.isTerminator t = true →
          (cut (u ++ q.byte :: (w ++ q.byte :: v))).2 ≠ u₂ ++ q.byte :: (w ++ q.byte :: v) := by
  constructor
  · intro h
    obtain ⟨hlow, hhigh⟩ := h.length
    refine ⟨?_, ?_, ?_⟩
    · by_contra hv
      exact not_leftInside hw hu (by simpa using hv) h
    · obtain ⟨x, t, y, rfl, ht, _⟩ := h
      simp [ht]
    · intro u₁ t u₂ _ _ hleft
      rw [hleft] at hhigh
      simp only [List.length_append, List.length_cons] at hhigh
      omega
  · intro h
    obtain ⟨hv, hany, hbefore⟩ := h
    rcases cut_around hw hu (Or.inl hany) with ⟨u₁, t, u₂, hsplit, ht, hleft⟩ | ⟨_, hinside⟩ |
      ⟨v₁, t, v₂, rfl, ht, _⟩
    · exact absurd hleft (hbefore u₁ t u₂ hsplit ht)
    · exact hinside
    · simp [ht] at hv

end Line

open Line (Reads LeftInside)

/-- So it is with a request: empty statements are dropped first, and the line it then goes by does
not end inside of the span either. -/
theorem Reader.next_around {σ : Type} [ByteStream σ] {q : Quote} {u w v : Bytes}
    (hw : Quote.Content q w) (hu : Reads u (q.byte :: (w ++ q.byte :: v)))
    (hv : v.any Byte.isTerminator = true) (source : σ) :
    ∃ before line t rest, u ++ q.byte :: (w ++ q.byte :: v) = before ++ line ++ t :: rest ∧
      next .statement ⟨u ++ q.byte :: (w ++ q.byte :: v), source⟩
        = (some (recordOf line), ⟨leftOf line t rest, source⟩) ∧
      ¬ LeftInside q w v rest := by
  induction hn : u.length using Nat.strongRecOn generalizing u with
  | ind n ih =>
      have hinside := Line.not_leftInside hw hu hv
      unfold Line.cut at hinside
      cases hf : Line.front (u ++ q.byte :: (w ++ q.byte :: v)) with
      | line blanks line t rest =>
          rw [hf] at hinside
          exact ⟨blanks, line, t, rest, (Line.front_line_spec hf).1,
            next_of_line (r := ⟨_, source⟩) hf, hinside⟩
      | empty skipped rest =>
          obtain ⟨hsplit, hgap, x, t, hskipped, _⟩ := Line.front_empty_spec hf
          rcases append_cons_cases hsplit.symm with ⟨a, rfl, hrest⟩ | ⟨c, hc, _⟩
          · have hlt : a.length < n := by
              rw [← hn, hskipped]
              simp only [List.length_append, List.length_cons, List.length_nil]
              omega
            obtain ⟨before, line, t, left, hall, hnext, hleft⟩ :=
              ih a.length hlt (hu.of_gap_append hgap) rfl
            refine ⟨skipped ++ before, line, t, left, ?_, ?_, hleft⟩
            · rw [List.append_assoc, hall]
              simp
            · rw [next_of_empty (r := ⟨_, source⟩) hf, hrest]
              exact hnext
          · have hq := hgap q.byte (by simp [hc])
            rw [q.byte_not_gap] at hq
            exact Bool.noConfusion hq
      | unfinished =>
          obtain ⟨t, ht, hterm⟩ := List.any_eq_true.mp hv
          have hf := Line.front_eq_unfinished_iff.mp hf t (by simp [ht])
          rw [hterm] at hf
          exact Bool.noConfusion hf

namespace Line

/--
**A closed quoted span with a terminator somewhere behind it holds.**  Let the buffer be read from
the left up to the span.  Then the first line does not end inside of the quotes, and neither does
the line that a request for a statement goes by.  Without a terminator behind it the line ends
inside of the quotes exactly if there is a terminator between them and the line did not end before
them.
-/
theorem closed_span_holds {σ : Type} [ByteStream σ] {q : Quote} {u w v : Bytes}
    (hw : Quote.Content q w) (hu : Reads u (q.byte :: (w ++ q.byte :: v))) (source : σ) :
    let raw := u ++ q.byte :: (w ++ q.byte :: v)
    (v.any Byte.isTerminator = true →
      ¬ LeftInside q w v (cut raw).2 ∧
      ∃ before line t rest, raw = before ++ line ++ t :: rest ∧
        Reader.next .statement ⟨raw, source⟩
          = (some (recordOf line), ⟨leftOf line t rest, source⟩) ∧
        ¬ LeftInside q w v rest) ∧
    (LeftInside q w v (cut raw).2 ↔
      v.any Byte.isTerminator = false ∧ w.any Byte.isTerminator = true ∧
        ∀ u₁ t u₂, u = u₁ ++ t :: u₂ → Byte.isTerminator t = true →
          (cut raw).2 ≠ u₂ ++ q.byte :: (w ++ q.byte :: v)) := by
  intro raw
  refine ⟨?_, leftInside_iff hw hu⟩
  intro hv
  exact ⟨not_leftInside hw hu hv, Reader.next_around hw hu hv source⟩

/-- Quotes around a semicolon, with the newline that ends the line behind them. -/
theorem closed_span_holds_ended :
    let raw : Bytes := [0x22, 0x61, 0x3b, 0x62, 0x22, 0x0a]
    ¬ LeftInside .double [0x61, 0x3b, 0x62] [0x0a] (cut raw).2 ∧
      (cut raw).1 = [0x22, 0x61, 0x3b, 0x62, 0x22] := by
  intro raw
  have hw : Quote.Content .double [0x61, 0x3b, 0x62] :=
    .plain (by decide) (by decide)
      (.plain (by decide) (by decide) (.plain (by decide) (by decide) .nil))
  have hholds := closed_span_holds hw (.start (Quote.byte .double :: ([0x61, 0x3b, 0x62]
    ++ Quote.byte .double :: [0x0a]))) (⟨[], []⟩ : Memory)
  exact ⟨(hholds.1 rfl).1, by decide +kernel⟩

/-- **A closed span is cut.**  With nothing behind them the same quotes do not hide the semicolon
between them. -/
theorem closed_span_is_cut :
    let w : Bytes := [0x61, 0x3b, 0x62]
    let raw : Bytes := Quote.byte .double :: (w ++ [Quote.byte .double])
    Quote.Content .double w ∧ Reads [] raw ∧ cut raw = ([0x22, 0x61], [0x62, 0x22]) ∧
      LeftInside .double w [] (cut raw).2 := by
  intro w raw
  have hw : Quote.Content .double w :=
    .plain (by decide) (by decide)
      (.plain (by decide) (by decide) (.plain (by decide) (by decide) .nil))
  have hcut : cut raw = ([0x22, 0x61], [0x62, 0x22]) := by decide +kernel
  exact ⟨hw, .start raw, hcut, [0x61], 0x3b, [0x62], rfl, rfl, by rw [hcut]; rfl⟩

end Line

end CommandShell
