/-
No byte is lost.

A request cuts its record out of the bytes in front of it in one of five ways: a line with its
terminator, a line that keeps a leftover behind, a line that does not split at all, a block
with its newline, or nothing but empty statements.  `complete_keeps` and `skip_keeps` go through
these once.  In each of them the buffer is the record, or nothing, with gap bytes around it and
what stays behind, so the bytes of a whole run of requests are its records, in order, with gaps
between them and what is pending at the end (`run_keepsBytes`).  It does not matter in which
modes the requests are made or where the chunks were cut.
-/
import CommandShell.Proofs.Block
import CommandShell.Proofs.Request
import CommandShell.Proofs.Statement

namespace CommandShell

/-! ### What one scan keeps -/

theorem Mode.eq_statement {mode : Mode} (h : mode.test? = none) : mode = .statement := by
  cases mode with
  | statement => rfl
  | line => exact absurd h (by simp [Mode.test?])
  | terminated t => exact absurd h (by simp [Mode.test?])
  | accepted test => exact absurd h (by simp [Mode.test?])

namespace Scan

/-- A found record has gap bytes around it, and what is behind them stays.  A block is at the
front, and only its newline goes. -/
theorem complete_keeps {mode : Mode} {buffer : Bytes} {found : Found}
    (h : ofMode mode buffer = .complete found) :
    ∃ pre post, (∀ b ∈ pre, Byte.isGap b = true) ∧ (∀ b ∈ post, Byte.isGap b = true) ∧
      buffer = pre ++ (found.record buffer).raw ++ post ++ buffer.drop found.consumed ∧
      (mode ≠ .statement → pre = [] ∧ post = [Byte.newline]) := by
  cases hm : mode.test? with
  | some accept =>
      rcases block_cases hm buffer with ⟨u, v, found', _, hb, hf, hrec, hdrop⟩ | ⟨_, hf⟩
      · rw [hf] at h
        injection h with h
        subst h
        refine ⟨[], [Byte.newline], by simp, ?_, ?_, fun _ => ⟨rfl, rfl⟩⟩
        · intro b hb'
          rw [List.mem_singleton.mp hb']
          rfl
        · rw [hrec, hdrop, hb]
          simp
      · rw [hf] at h
        exact Scan.noConfusion h
  | none =>
      have hmode := Mode.eq_statement hm
      subst hmode
      obtain ⟨blanks, line, t, rest, hfront, hrec, hdrop⟩ := line_of_complete h
      obtain ⟨hb, hblanks, ht, _⟩ := Line.front_line_spec hfront
      obtain ⟨gap, hgap, hline⟩ := recordOf_append_leftOf line t rest
      refine ⟨blanks, gap, fun b hb' => Byte.isGap_of_isBlank (hblanks b hb'), ?_, ?_,
        fun hne => absurd rfl hne⟩
      · intro b hb'
        rcases hgap with rfl | rfl
        · simp at hb'
        · rw [List.mem_singleton.mp hb']
          exact Byte.isGap_of_isTerminator ht
      · rw [hrec, hdrop]
        rw [List.append_assoc, hline] at hb
        rw [hb]
        simp

/-- What is skipped is gap bytes that a terminator ends, and only before a statement anything
is. -/
theorem skip_keeps {mode : Mode} {buffer : Bytes} {count : Nat}
    (h : ofMode mode buffer = .skip count) :
    mode = .statement ∧ ∃ w t, buffer = w ++ [t] ++ buffer.drop count ∧
      (∀ b ∈ w ++ [t], Byte.isGap b = true) ∧ Byte.isTerminator t = true := by
  cases hm : mode.test? with
  | some accept =>
      rcases block_cases hm buffer with ⟨_, _, _, _, _, hf, _⟩ | ⟨_, hf⟩
      · rw [hf] at h
        exact Scan.noConfusion h
      · rw [hf] at h
        exact Scan.noConfusion h
  | none =>
      have hmode := Mode.eq_statement hm
      subst hmode
      obtain ⟨skipped, rest, hfront, hdrop⟩ := empty_of_skip h
      obtain ⟨hb, hgap, w, t, rfl, ht⟩ := Line.front_empty_spec hfront
      exact ⟨rfl, w, t, by rw [hdrop]; exact hb, hgap, ht⟩

end Scan

namespace Reader

variable {σ : Type} {pull : σ → Option Bytes × σ}

/-! ### What one request keeps -/

/-- What a request may drop before its record: whole empty statements, and only if it is for a
statement. -/
structure Droppable (mode : Mode) (d : Bytes) : Prop where
  gap : ∀ b ∈ d, Byte.isGap b = true
  ended : d = [] ∨ mode = .statement ∧ ∃ w t, d = w ++ [t] ∧ Byte.isTerminator t = true

theorem Droppable.nil (mode : Mode) : Droppable mode [] :=
  ⟨by simp, Or.inl rfl⟩

theorem Droppable.append {mode : Mode} {d e : Bytes} (hd : Droppable mode d)
    (he : Droppable mode e) : Droppable mode (d ++ e) := by
  refine ⟨?_, ?_⟩
  · intro b hb
    rcases List.mem_append.mp hb with hb | hb
    · exact hd.gap b hb
    · exact he.gap b hb
  · rcases he.ended with rfl | ⟨hm, w, t, rfl, ht⟩
    · rw [List.append_nil]
      exact hd.ended
    · exact Or.inr ⟨hm, d ++ w, t, by simp, ht⟩

theorem step_drops {mode : Mode} {r m : Reader σ} {more : List Bytes}
    (h : Step pull mode r more m) :
    ∃ d, Droppable mode d ∧ r.carry ++ more.flatten = d ++ m.carry := by
  cases h with
  | skip hs =>
      obtain ⟨hmode, w, t, hb, hgap, ht⟩ := Scan.skip_keeps hs
      refine ⟨w ++ [t], ⟨hgap, Or.inr ⟨hmode, w, t, rfl, ht⟩⟩, ?_⟩
      simpa using hb
  | pulled hs hp => exact ⟨[], Droppable.nil mode, by simp⟩

/-- Until it is answered a request drops empty statements and nothing else. -/
theorem reaches_drops {mode : Mode} {r m : Reader σ} {chunks : List Bytes}
    (h : Reaches pull mode r chunks m) :
    ∃ d, Droppable mode d ∧ r.carry ++ chunks.flatten = d ++ m.carry := by
  induction h with
  | start => exact ⟨[], Droppable.nil mode, by simp⟩
  | step _ hs ih =>
      obtain ⟨d, hd, hcarry⟩ := ih
      obtain ⟨e, he, hmore⟩ := step_drops hs
      refine ⟨d ++ e, hd.append he, ?_⟩
      rw [List.flatten_append, ← List.append_assoc, hcarry, List.append_assoc, hmore,
        List.append_assoc]

/-- The carry and the chunks pulled are the record that is returned, if there is one, with gap
bytes around it, and the carry after it. -/
theorem request_keeps {mode : Mode} {r r' : Reader σ} {chunks : List Bytes}
    {answer : Option Record} (h : Request pull mode r chunks answer r') :
    ∃ pre post, (∀ b ∈ pre, Byte.isGap b = true) ∧ (∀ b ∈ post, Byte.isGap b = true) ∧
      r.carry ++ chunks.flatten = pre ++ answer.elim [] Record.raw ++ post ++ r'.carry ∧
      (mode ≠ .statement → answer ≠ none → pre = [] ∧ post = [Byte.newline]) := by
  cases h with
  | complete h hs =>
      obtain ⟨d, hd, hcarry⟩ := reaches_drops h
      obtain ⟨pre, post, hpre, hpost, hb, hblock⟩ := Scan.complete_keeps hs
      refine ⟨d ++ pre, post, ?_, hpost, ?_, ?_⟩
      · intro b hmem
        rcases List.mem_append.mp hmem with hmem | hmem
        · exact hd.gap b hmem
        · exact hpre b hmem
      · rw [hcarry]
        conv => lhs; rw [hb]
        simp
      · intro hm _
        obtain ⟨rfl, rfl⟩ := hblock hm
        rcases hd.ended with rfl | ⟨hmode, _⟩
        · exact ⟨rfl, rfl⟩
        · exact absurd hmode hm
  | ended h hs hp =>
      obtain ⟨d, hd, hcarry⟩ := reaches_drops h
      exact ⟨d, [], hd.gap, by simp, by simpa using hcarry, fun _ hne => absurd rfl hne⟩

/-! ### What a run of requests keeps -/

/-- Gaps and records in turn, a gap first and last. -/
def interleave : List Bytes → List Bytes → Bytes
  | g :: gs, p :: ps => g ++ p ++ interleave gs ps
  | g :: _, [] => g
  | [], _ => []

theorem interleave_append (a g : Bytes) (gs ps : List Bytes) :
    interleave ((a ++ g) :: gs) ps = a ++ interleave (g :: gs) ps := by
  cases ps with
  | nil => rfl
  | cons p ps => simp [interleave]

/-- What a run of requests did to the bytes. -/
structure KeepsBytes (r : Reader σ) (xs : List Exchange) (r' : Reader σ) : Prop where
  /-- They are the records in order, what is pending, and gap bytes between them. -/
  kept : ∃ gaps : List Bytes, gaps.length = (Exchange.records xs).length + 1 ∧
    (∀ g ∈ gaps, ∀ b ∈ g, Byte.isGap b = true) ∧
    r.carry ++ (Exchange.pulled xs).flatten
      = interleave gaps ((Exchange.records xs).map Record.raw) ++ r'.carry
  /-- A block began where the carry did, and its newline is all that went with it. -/
  blocks : ∀ x ∈ xs, x.mode ≠ .statement → ∀ record, x.answer = some record →
    x.before ++ x.chunks.flatten = record.raw ++ Byte.newline :: x.after

theorem run_keepsBytes {r r' : Reader σ} {xs : List Exchange} (h : Run pull r xs r') :
    KeepsBytes r xs r' := by
  induction h with
  | nil r =>
      exact ⟨⟨[[]], rfl, by simp, by simp [Exchange.pulled, Exchange.records, interleave]⟩,
        by simp⟩
  | @cons r m r' mode chunks answer xs h _ ih =>
      obtain ⟨pre, post, hpre, hpost, hb, hblock⟩ := request_keeps h
      obtain ⟨gaps, hlen, hgaps, hkept⟩ := ih.kept
      refine ⟨?_, ?_⟩
      · cases gaps with
        | nil => exact absurd hlen (by simp)
        | cons g gs =>
            have hpulled : r.carry ++ (Exchange.pulled (⟨mode, r.carry, chunks, answer, m.carry⟩ ::
                xs)).flatten = pre ++ answer.elim [] Record.raw ++ post ++
                (interleave (g :: gs) ((Exchange.records xs).map Record.raw) ++ r'.carry) := by
              rw [← hkept]
              show r.carry ++ (chunks ++ Exchange.pulled xs).flatten = _
              rw [List.flatten_append, ← List.append_assoc, hb, List.append_assoc]
            have hgs : ∀ g' ∈ gs, ∀ b ∈ g', Byte.isGap b = true :=
              fun g' hg' => hgaps g' (by simp [hg'])
            have hpg : ∀ b ∈ post ++ g, Byte.isGap b = true := by
              intro b hmem
              rcases List.mem_append.mp hmem with hmem | hmem
              · exact hpost b hmem
              · exact hgaps g (by simp) b hmem
            rw [hpulled]
            cases answer with
            | none =>
                -- Nothing was returned, so all three gaps run together.
                refine ⟨(pre ++ (post ++ g)) :: gs, hlen, ?_, ?_⟩
                · intro g' hg'
                  rcases List.mem_cons.mp hg' with rfl | hg'
                  · intro b hmem
                    rcases List.mem_append.mp hmem with hmem | hmem
                    · exact hpre b hmem
                    · exact hpg b hmem
                  · exact hgs g' hg'
                · rw [interleave_append, interleave_append]
                  simp [Exchange.records]
            | some record =>
                refine ⟨pre :: (post ++ g) :: gs, by simp [Exchange.records] at hlen ⊢; omega,
                  ?_, ?_⟩
                · intro g' hg'
                  rcases List.mem_cons.mp hg' with rfl | hg'
                  · exact hpre
                  · rcases List.mem_cons.mp hg' with rfl | hg'
                    · exact hpg
                    · exact hgs g' hg'
                · show _ = pre ++ record.raw ++ interleave ((post ++ g) :: gs) _ ++ r'.carry
                  rw [interleave_append]
                  simp [Exchange.records]
      · intro x hx hm record ha
        rcases List.mem_cons.mp hx with rfl | hx
        · have ha : answer = some record := ha
          subst ha
          obtain ⟨rfl, rfl⟩ := hblock hm (by simp)
          simpa using hb
        · exact ih.blocks x hx hm record ha

/--
**No byte is lost, repeated, moved or made up.**  Whatever source the chunks come from and
whatever is asked for in whatever order, the carry at the start and all chunks pulled are the
records returned so far, in order, then what is pending, with nothing but blanks and semicolons
between them.  Requests made with `next`, each in a mode chosen by the answers before it, are
such a run.
-/
theorem bytes_kept :
    (∀ {σ : Type} {pull : σ → Option Bytes × σ} {r r' : Reader σ} {xs : List Exchange},
      Run pull r xs r' → KeepsBytes r xs r') ∧
    (∀ {σ : Type} [ByteStream σ] (choose : List (Option Record) → Mode) (r : Reader σ) (n : Nat),
      ∃ xs, Run ByteStream.next r xs (converse choose r n).2 ∧
        xs.map Exchange.answer = (converse choose r n).1) :=
  ⟨run_keepsBytes, run_converse⟩

/-- A statement and then a line, from chunks that were cut elsewhere. -/
theorem bytes_kept_two_modes :
    ∃ xs r', KeepsBytes (⟨[], ⟨[[0x61], [0x3b, 0x62, 0x0a, 0x63]], []⟩⟩ : Reader Memory) xs r' ∧
      xs.map Exchange.answer = [some ⟨[0x61], [[0x61]]⟩, some ⟨[0x62], []⟩] ∧
      r'.carry = [0x63] := by
  obtain ⟨xs, hrun, hanswers⟩ := bytes_kept.2 (fun as => if as = [] then .statement else .line)
    (⟨[], ⟨[[0x61], [0x3b, 0x62, 0x0a, 0x63]], []⟩⟩ : Reader Memory) 2
  refine ⟨xs, _, bytes_kept.1 hrun, hanswers.trans ?_, ?_⟩
  · decide +kernel
  · decide +kernel

end Reader

end CommandShell
