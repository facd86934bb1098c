/-
What could not be split.

Splitting a line stops at a quote that is not closed in it.  What is left of the line stays in the
carry with its terminator behind it, and the next request looks for a line there once more.  There
is a quote in front now, and one that would close it may well be behind the line.

Still the line it finds is what was left.  Without hashes and backslashes the scan keeps step with
the tokens (`Splits.scanned`): it was at that quote before, with the same bytes behind it, and went
on to the end of the line.  So it does again.  Nothing splits where splitting stopped, so the record
has no tokens, and with the terminator in the carry nothing needs to be pulled for it.

If splitting stops in front of all there is no record to return before that one.  Then the line is
what was left, and it is the record that is returned.
-/
import CommandShell.Proofs.Separators

namespace CommandShell

/-! ### Where splitting stops -/

/-- Without marks the scan is at the quote where splitting stops. -/
theorem Splits.scanned {s left suffix : Bytes} {ts : List Token} {t : UInt8}
    (h : Splits s ts left) (hs : Line.Scanned s t suffix) (hmark : ∀ b ∈ s, Byte.isMark b = false)
    (hne : left ≠ []) : Line.Scanned left t suffix := by
  induction h with
  | done => exact hs
  | stuck => exact hs
  | @token tok rest left ts hfits h ih =>
      have hrest : rest ≠ [] := by
        intro hnil
        rw [hnil] at h
        exact hne h.eq_nil.2
      have hunmarked : ∀ b ∈ tok.render, Byte.isMark b = false := by
        intro b hb
        exact hmark b (List.mem_append_left _ hb)
      have hcontinuation : tok ≠ .continuation := by
        rintro rfl
        exact absurd (hunmarked Byte.backslash List.mem_cons_self) (by decide)
      have hword : ¬ ∃ w, tok = .word w ∧ w.any Byte.isMark = true := by
        rintro ⟨w, rfl, hany⟩
        obtain ⟨b, hb, hmarked⟩ := List.any_eq_true.mp hany
        rw [hunmarked b hb] at hmarked
        exact Bool.noConfusion hmarked
      refine ih (hs.past hfits hrest hcontinuation hword) ?_ hne
      intro b hb
      exact hmark b (List.mem_append_right _ hb)

/-- If nothing splits, all of the line is its record. -/
theorem recordOf_unsplit {line : Bytes} (h : renderAll (tokens line).1 = []) (t : UInt8)
    (rest : Bytes) : recordOf line = ⟨line, []⟩ ∧ leftOf line t rest = rest := by
  unfold recordOf leftOf
  exact ⟨if_pos h, if_pos (Or.inl h)⟩

/-- Otherwise what was split is, and what was not stays in front of the terminator. -/
theorem recordOf_split {line : Bytes} (h : renderAll (tokens line).1 ≠ [])
    (hleft : (tokens line).2 ≠ []) (t : UInt8) (rest : Bytes) :
    recordOf line = (Record.ofBytes false line).1 ∧
      leftOf line t rest = (tokens line).2 ++ t :: rest := by
  unfold recordOf leftOf
  exact ⟨if_neg h, if_neg (not_or.mpr ⟨h, hleft⟩)⟩

/-- At that quote there is a line again, and it ends where the line ended before. -/
theorem Unclosed.front {s rest : Bytes} {t : UInt8} (h : Unclosed s)
    (hs : Line.Scanned s t rest) : Line.front (s ++ t :: rest) = .line [] s t rest := by
  obtain ⟨q, r, rfl, _⟩ := h
  exact Line.front_of_scan (w := []) (by simp) q.byte_not_blank hs.scan_eq hs.ends

namespace Reader

/-! ### Requests that are answered from the carry -/

section Complete

variable {σ : Type} {pull : σ → Option Bytes × σ} {mode : Mode} {r m : Reader σ}
  {chunks : List Bytes} {found : Found}

/-- A complete record is taken before anything else is done. -/
theorem reaches_of_complete (h : Reaches pull mode r chunks m)
    (hs : Scan.ofMode mode r.carry = .complete found) : chunks = [] ∧ m = r := by
  induction h with
  | start => exact ⟨rfl, rfl⟩
  | step _ hstep ih =>
      obtain ⟨_, rfl⟩ := ih
      cases hstep with
      | skip hskip =>
          rw [hs] at hskip
          exact Scan.noConfusion hskip
      | pulled hwaits _ =>
          rw [hs] at hwaits
          exact Scan.noConfusion hwaits

theorem request_of_complete (hs : Scan.ofMode mode r.carry = .complete found)
    {answer : Option Record} :
    Request pull mode r chunks answer m ↔ chunks = [] ∧ answer = some (found.record r.carry) ∧
      m = ⟨r.carry.drop found.consumed, r.source⟩ := by
  constructor
  · intro h
    cases h with
    | complete h hs' =>
        obtain ⟨rfl, rfl⟩ := reaches_of_complete h hs
        rw [hs] at hs'
        injection hs' with hfound
        subst hfound
        exact ⟨rfl, rfl, rfl⟩
    | ended h hs' _ =>
        obtain ⟨rfl, rfl⟩ := reaches_of_complete h hs
        rw [hs] at hs'
        exact Scan.noConfusion hs'
  · rintro ⟨rfl, rfl, rfl⟩
    exact .complete .start hs

end Complete

/-- With `s` in the carry a request for a statement is answered by `record`, and `left` stays. -/
structure AnsweredAtOnce (s : Bytes) (record : Record) (left : Bytes) : Prop where
  /-- Whatever a source would give out, nothing is pulled. -/
  request : ∀ {σ : Type} (pull : σ → Option Bytes × σ) (source : σ) (chunks : List Bytes)
    (answer : Option Record) (r' : Reader σ),
    Request pull .statement ⟨s, source⟩ chunks answer r' ↔
      chunks = [] ∧ answer = some record ∧ r' = ⟨left, source⟩
  /-- So it is with a stream. -/
  next : ∀ {σ : Type} [ByteStream σ] (source : σ),
    Reader.next .statement ⟨s, source⟩ = (some record, ⟨left, source⟩)

theorem answeredAtOnce_of_line {s blanks line rest : Bytes} {t : UInt8}
    (h : Line.front s = .line blanks line t rest) :
    AnsweredAtOnce s (recordOf line) (leftOf line t rest) := by
  obtain ⟨found, hs, hrecord, hdrop⟩ := Scan.statement_line h
  refine ⟨?_, fun source => next_of_line (r := ⟨s, source⟩) h⟩
  intro σ pull source chunks answer r'
  have hs : Scan.ofMode .statement (Reader.mk s source).carry = .complete found := hs
  rw [request_of_complete hs]
  show _ ∧ answer = some (found.record s) ∧ r' = ⟨s.drop found.consumed, source⟩ ↔ _
  rw [hrecord, hdrop]

/-- What is left of an unmarked line is a record by itself. -/
theorem answeredAtOnce_leftover {buffer blanks line rest : Bytes} {t : UInt8}
    (h : Line.front buffer = .line blanks line t rest) (hmark : ∀ b ∈ line, Byte.isMark b = false)
    (hleft : (tokens line).2 ≠ []) :
    AnsweredAtOnce ((tokens line).2 ++ t :: rest) ⟨(tokens line).2, []⟩ rest := by
  have hsplits := splits_tokens line
  have hscanned := hsplits.scanned (Line.scanned_of_front h) hmark hleft
  rcases hsplits.left_eq with hnil | hopen
  · exact absurd hnil hleft
  · have hfront := hopen.front hscanned
    have hnothing : renderAll (tokens (tokens line).2).1 = [] := by
      rw [tokens_of_unclosed hopen]
      rfl
    obtain ⟨hrecord, hrest⟩ := recordOf_unsplit hnothing t rest
    have hanswer := answeredAtOnce_of_line hfront
    rw [hrecord, hrest] at hanswer
    exact hanswer

/--
**What could not be split is a record without tokens.**  Let a request for a statement be answered
without a hash or a backslash among the bytes it has come by, and let splitting the line stop before
its end.  If something was split, that is the record, and the very next request returns what is left
of the line, without tokens and without asking the source.  If nothing was, the record is what is
left already.  Either way the carry is then what was behind the terminator of the line.
-/
theorem leftover_is_record {σ : Type} {pull : σ → Option Bytes × σ} {r r' : Reader σ}
    {chunks : List Bytes} {record : Record}
    (hreq : Request pull .statement r chunks (some record) r')
    (hmark : ∀ b ∈ r.carry ++ chunks.flatten, Byte.isMark b = false) :
    ∃ buffer line rest, Reaches pull .statement r chunks ⟨buffer, r'.source⟩ ∧
      Line.cut buffer = (line, rest) ∧ line ≠ [] ∧
      ∀ taken left, Record.ofBytes false line = (taken, left) → left ≠ [] →
        (taken.raw ≠ [] → record = taken ∧
          (∃ t, Byte.isTerminator t = true ∧ r'.carry = left ++ t :: rest) ∧
          AnsweredAtOnce r'.carry ⟨left, []⟩ rest) ∧
        (taken.raw = [] → left = line ∧ record = ⟨left, []⟩ ∧ r'.carry = rest) := by
  cases hreq with
  | @complete m found hreach hs =>
      obtain ⟨blanks, line, t, rest, hfront, hrecord, hdrop⟩ := Scan.line_of_complete hs
      obtain ⟨hbuffer, _, hterm, _⟩ := Line.front_line_spec hfront
      have hcut : Line.cut m.carry = (line, rest) := Line.cut_of_line hfront
      refine ⟨m.carry, line, rest, hreach, hcut, (Line.front_eq_line hfront).2, ?_⟩
      intro taken left hsplit hne
      obtain ⟨rfl, rfl⟩ := Prod.mk.inj hsplit
      have hline : ∀ b ∈ line, Byte.isMark b = false := by
        intro b hb
        obtain ⟨dropped, _, hall⟩ := reaches_drops hreach
        exact hmark b (by rw [hall, hbuffer]; simp [hb])
      refine ⟨?_, ?_⟩
      · intro hsome
        obtain ⟨hrec, hrest⟩ := recordOf_split hsome hne t rest
        have hcarry : m.carry.drop found.consumed = (tokens line).2 ++ t :: rest :=
          hdrop.trans hrest
        refine ⟨hrecord.trans hrec, ⟨t, hterm, hcarry⟩, ?_⟩
        show AnsweredAtOnce (m.carry.drop found.consumed) _ _
        rw [hcarry]
        exact answeredAtOnce_leftover hfront hline hne
      · intro hnone
        obtain ⟨hrec, hrest⟩ := recordOf_unsplit hnone t rest
        have hall := renderAll_tokens line
        rw [show renderAll (tokens line).1 = [] from hnone, List.nil_append] at hall
        refine ⟨hall, ?_, hdrop.trans hrest⟩
        show found.record m.carry = ⟨(tokens line).2, []⟩
        rw [hrecord, hrec, hall]

/-- A quote in a word, with one behind the line that would close it. -/
theorem leftover_is_record_quote :
    let carry : Bytes := [0x61, 0x27, 0x74, 0x3b, 0x62, 0x27]
    let pull : Unit → Option Bytes × Unit := fun source => (some [Byte.newline], source)
    Request pull .statement ⟨carry, ()⟩ [] (some ⟨[0x61], [[0x61]]⟩) ⟨carry.drop 1, ()⟩ ∧
      AnsweredAtOnce (carry.drop 1) ⟨[0x27, 0x74], []⟩ [0x62, 0x27] := by
  intro carry pull
  have hs : Scan.ofMode .statement (Reader.mk carry ()).carry
      = .complete ⟨⟨0, 1⟩, [⟨0, 1⟩], 1⟩ := by decide +kernel
  have hreq : Request pull .statement ⟨carry, ()⟩ [] (some ⟨[0x61], [[0x61]]⟩)
      ⟨carry.drop 1, ()⟩ := (request_of_complete hs).mpr ⟨rfl, rfl, rfl⟩
  have hmark : ∀ b ∈ carry ++ [].flatten, Byte.isMark b = false := by decide +kernel
  obtain ⟨buffer, line, rest, hreach, hcut, _, hleftover⟩ := leftover_is_record hreq hmark
  obtain ⟨_, hbuffer⟩ := reaches_of_complete hreach hs
  obtain rfl : buffer = carry := congrArg Reader.carry hbuffer
  have hline : Line.cut carry = ([0x61, 0x27, 0x74], [0x62, 0x27]) := by decide +kernel
  rw [hline] at hcut
  obtain ⟨rfl, rfl⟩ := Prod.mk.inj hcut
  have hsplit : Record.ofBytes false [0x61, 0x27, 0x74] = (⟨[0x61], [[0x61]]⟩, [0x27, 0x74]) := by
    decide +kernel
  exact ⟨hreq, ((hleftover _ _ hsplit (by simp)).1 (by simp)).2.2⟩

/-- **A line of which nothing splits is not left for the next record.**  It is returned at once, and
the next request finds nothing. -/
theorem whole_line_is_left :
    let carry : Bytes := [0x27, 0x61, 0x0a]
    let line : Bytes := [0x27, 0x61]
    let first := next .statement (⟨carry, ⟨[], []⟩⟩ : Reader Memory)
    (∀ b ∈ carry, Byte.isMark b = false) ∧ Line.cut carry = (line, []) ∧
      (Record.ofBytes false line).2 = line ∧ first.1 = some ⟨line, []⟩ ∧
      ∀ r', next .statement first.2 ≠ (some ⟨line, []⟩, r') := by
  intro carry line first
  have hnone : (next .statement first.2).1 = none := by decide +kernel
  refine ⟨by decide +kernel, by decide +kernel, by decide +kernel, by decide +kernel, ?_⟩
  intro r' h
  rw [h] at hnone
  exact absurd hnone (by simp)

end Reader

end CommandShell
