/-
A statement is read as soon as it can be.

Whether a request for a statement can be answered is a question to the bytes alone: is there a
byte that belongs to no gap, and a terminator anywhere behind it?  Quotes, comments and
backslashes have no say in it.  Such bytes are `Ripe`.  Dropping empty statements leaves that
as it is (`ripe_gap_append`), so it can be asked of the carry or of all that has arrived since
the request was made, and the answer is the same.

From there everything follows that an interactive session relies on.  A chunk is pulled only
while the bytes so far are not ripe, a record is returned once they are, and at the end of the
input there is no record only if nothing was ripe.  What is pending then is what is behind the
last terminator.
-/
import CommandShell.Proofs.Conservation
import Mathlib.Data.List.DropRight

namespace CommandShell

/-- There is a byte that belongs to no gap and a terminator behind it. -/
def Ripe (s : Bytes) : Prop :=
  ∃ u b v t w, s = u ++ b :: (v ++ t :: w) ∧ Byte.isGap b = false ∧ Byte.isTerminator t = true

/-- What is behind the last terminator. -/
def Bytes.unterminated (s : Bytes) : Bytes :=
  s.rtakeWhile fun b => !Byte.isTerminator b

/-! ### Ripe bytes -/

theorem not_ripe_of_unterminated {s : Bytes} (h : ∀ b ∈ s, Byte.isTerminator b = false) :
    ¬ Ripe s := by
  intro hripe
  obtain ⟨u, b, v, t, w, rfl, _, ht⟩ := hripe
  have hf := h t (by simp)
  rw [ht] at hf
  exact Bool.noConfusion hf

theorem ripe_gap_append {d s : Bytes} (hd : ∀ b ∈ d, Byte.isGap b = true) :
    Ripe (d ++ s) ↔ Ripe s := by
  constructor
  · intro h
    obtain ⟨u, b, v, t, w, hs, hb, ht⟩ := h
    rcases append_cons_cases hs with ⟨a, _, ha⟩ | ⟨c, hc, _⟩
    · exact ⟨a, b, v, t, w, ha, hb, ht⟩
    · have hgap := hd b (by simp [hc])
      rw [hb] at hgap
      exact Bool.noConfusion hgap
  · intro h
    obtain ⟨u, b, v, t, w, rfl, hb, ht⟩ := h
    exact ⟨d ++ u, b, v, t, w, by simp, hb, ht⟩

theorem Ripe.append {s : Bytes} (h : Ripe s) (more : Bytes) : Ripe (s ++ more) := by
  obtain ⟨u, b, v, t, w, rfl, hb, ht⟩ := h
  exact ⟨u, b, v, t, w ++ more, by simp, hb, ht⟩

theorem ripe_of_line {s blanks line rest : Bytes} {t : UInt8}
    (h : Line.front s = .line blanks line t rest) : Ripe s := by
  obtain ⟨hs, _, ht, b, w, rfl, hb⟩ := Line.front_line_spec h
  exact ⟨blanks, b, w, t, rest, by rw [hs]; simp, hb, ht⟩

theorem unterminated_append {d s : Bytes}
    (hd : d = [] ∨ ∃ w t, d = w ++ [t] ∧ Byte.isTerminator t = true)
    (hs : ∀ b ∈ s, Byte.isTerminator b = false) : Bytes.unterminated (d ++ s) = s := by
  have hall : ∀ b ∈ s.reverse, (!Byte.isTerminator b) = true := by
    intro b hb
    rw [hs b (List.mem_reverse.mp hb)]
    rfl
  unfold Bytes.unterminated List.rtakeWhile
  rw [List.reverse_append, List.takeWhile_append_of_pos hall]
  rcases hd with rfl | ⟨w, t, rfl, ht⟩
  · simp
  · simp [ht]

namespace Reader

variable {σ : Type} {pull : σ → Option Bytes × σ}

/-! ### Requests for a statement -/

/-- It is the same to ask the carry or all that has arrived since the request was made. -/
theorem ripe_iff_of_reaches {r m : Reader σ} {chunks : List Bytes}
    (h : Reaches pull .statement r chunks m) :
    Ripe (r.carry ++ chunks.flatten) ↔ Ripe m.carry := by
  obtain ⟨d, hd, hcarry⟩ := reaches_drops h
  rw [hcarry]
  exact ripe_gap_append hd.gap

/-- A request that needs more bytes has dropped all terminators it came by. -/
theorem unterminated_of_waits {r m : Reader σ} {chunks : List Bytes}
    (h : Reaches pull .statement r chunks m)
    (hs : Scan.ofMode .statement m.carry = .incomplete) :
    ¬ Ripe (r.carry ++ chunks.flatten) ∧
      Bytes.unterminated (r.carry ++ chunks.flatten) = m.carry := by
  have hn := Scan.unterminated_of_incomplete hs
  refine ⟨?_, ?_⟩
  · rw [ripe_iff_of_reaches h]
    exact not_ripe_of_unterminated hn
  · obtain ⟨d, hd, hcarry⟩ := reaches_drops h
    rw [hcarry]
    refine unterminated_append ?_ hn
    rcases hd.ended with hnil | ⟨_, hend⟩
    · exact Or.inl hnil
    · exact Or.inr hend

theorem ripe_of_complete {r m : Reader σ} {chunks : List Bytes} {found : Found}
    (h : Reaches pull .statement r chunks m)
    (hs : Scan.ofMode .statement m.carry = .complete found) :
    Ripe (r.carry ++ chunks.flatten) := by
  obtain ⟨blanks, line, t, rest, hfront, _⟩ := Scan.line_of_complete hs
  rw [ripe_iff_of_reaches h]
  exact ripe_of_line hfront

/-- Every chunk that was pulled was pulled before the bytes were ripe. -/
theorem not_ripe_before {r m : Reader σ} {chunks : List Bytes}
    (h : Reaches pull .statement r chunks m) :
    ∀ k < chunks.length, ¬ Ripe (r.carry ++ (chunks.take k).flatten) := by
  induction h with
  | start => intro k hk; simp at hk
  | @step chunks more m m' h hs ih =>
      cases hs with
      | skip hs => simpa using ih
      | pulled hs hp =>
          intro k hk
          rcases Nat.lt_or_ge k chunks.length with hlt | hge
          · rw [List.take_append_of_le_length (Nat.le_of_lt hlt)]
            exact ih k hlt
          · have hk' : k = chunks.length := by
              rw [List.length_append, List.length_singleton] at hk
              omega
            rw [hk', List.take_left']
            · exact (unterminated_of_waits h hs).1
            · rfl

theorem answer_iff_ripe {r r' : Reader σ} {chunks : List Bytes} {answer : Option Record}
    (h : Request pull .statement r chunks answer r') :
    answer ≠ none ↔ Ripe (r.carry ++ chunks.flatten) := by
  cases h with
  | complete h hs => exact ⟨fun _ => ripe_of_complete h hs, fun _ => by simp⟩
  | ended h hs hp =>
      exact ⟨fun hne => absurd rfl hne, fun hr => absurd hr (unterminated_of_waits h hs).1⟩

/-- How requests for a statement deal with a source. -/
structure Prompt (pull : σ → Option Bytes × σ) (r : Reader σ) : Prop where
  /-- The bytes so far are ripe if and only if those in the carry are. -/
  buffered : ∀ chunks m, Reaches pull .statement r chunks m →
    (Ripe (r.carry ++ chunks.flatten) ↔ Ripe m.carry)
  /-- The source is asked for a chunk only while the bytes so far are not ripe. -/
  asks : ∀ chunks m, Reaches pull .statement r chunks m →
    Scan.ofMode .statement m.carry = .incomplete → ¬ Ripe (r.carry ++ chunks.flatten)
  /-- Of the chunks that were pulled none was pulled too many. -/
  pulls : ∀ chunks answer r', Request pull .statement r chunks answer r' →
    ∀ k < chunks.length, ¬ Ripe (r.carry ++ (chunks.take k).flatten)
  /-- There is a record if and only if the bytes are ripe. -/
  answers : ∀ chunks answer r', Request pull .statement r chunks answer r' →
    (answer ≠ none ↔ Ripe (r.carry ++ chunks.flatten))
  /-- There is an answer as soon as the source has given out enough for one. -/
  returns : ∀ chunks s, Delivers pull r.source chunks s → Ripe (r.carry ++ chunks.flatten) →
    ∃ k record r', Request pull .statement r (chunks.take k) (some record) r'
  /-- If it never does, what is behind the last terminator is kept. -/
  ends : ∀ chunks s s', Delivers pull r.source chunks s → pull s = (none, s') →
    ¬ Ripe (r.carry ++ chunks.flatten) →
    Request pull .statement r chunks none ⟨Bytes.unterminated (r.carry ++ chunks.flatten), s'⟩

theorem prompt (pull : σ → Option Bytes × σ) (r : Reader σ) : Prompt pull r where
  buffered := fun _ _ h => ripe_iff_of_reaches h
  asks := fun _ _ h hs => (unterminated_of_waits h hs).1
  pulls := by
    intro chunks answer r' h
    cases h with
    | complete h hs => exact not_ripe_before h
    | ended h hs hp => exact not_ripe_before h
  answers := fun _ _ _ h => answer_iff_ripe h
  returns := by
    intro chunks s hd hripe
    have hstart : Reaches pull .statement r [] r := .start
    rcases request_or_waits hstart hd with h | ⟨carry, h, hs⟩
    · exact h
    · exact absurd hripe (unterminated_of_waits h hs).1
  ends := by
    intro chunks s s' hd hp hnot
    have hstart : Reaches pull .statement r [] r := .start
    rcases request_or_waits hstart hd with ⟨k, record, r', h⟩ | ⟨carry, h, hs⟩
    · have hripe := ((answer_iff_ripe h).mp (by simp)).append (chunks.drop k).flatten
      have hall : r.carry ++ (chunks.take k).flatten ++ (chunks.drop k).flatten
          = r.carry ++ chunks.flatten := by
        rw [List.append_assoc, ← List.flatten_append, List.take_append_drop]
      rw [List.nil_append, hall] at hripe
      exact absurd hripe hnot
    · have h : Reaches pull .statement r chunks ⟨carry, s⟩ := h
      rw [(unterminated_of_waits h hs).2]
      exact .ended h hs hp

/-- Whether a stream holds a statement, and what is kept if it does not. -/
theorem next_statement_of_chunks [ByteStream σ] (r : Reader σ) :
    ((next .statement r).1 = none ↔
      ¬ Ripe (r.carry ++ (ByteStream.chunks r.source).flatten)) ∧
    ((next .statement r).1 = none → (next .statement r).2.carry
      = Bytes.unterminated (r.carry ++ (ByteStream.chunks r.source).flatten)) := by
  obtain ⟨m, s', hd, hp⟩ := delivers_chunks r.source
  by_cases hripe : Ripe (r.carry ++ (ByteStream.chunks r.source).flatten)
  · obtain ⟨k, record, r', h⟩ := (prompt ByteStream.next r).returns _ _ hd hripe
    have hn := request_iff.mp ⟨_, h⟩
    rw [hn]
    exact ⟨⟨fun hc => absurd hc (by simp), fun hc => absurd hripe hc⟩,
      fun hc => absurd hc (by simp)⟩
  · have hn := request_iff.mp ⟨_, (prompt ByteStream.next r).ends _ _ _ hd hp hripe⟩
    rw [hn]
    exact ⟨⟨fun _ => hripe, fun _ => rfl⟩, fun _ => rfl⟩

/--
**A request for a statement never waits in vain and never reads ahead.**  Over any source it
asks for a chunk only while no byte so far that is neither a blank nor a semicolon has a
terminator behind it, and returns a record as soon as one has.  For a stream this settles when
`next` returns none, and what is pending then; quotes, comments and backslashes play no part.
-/
theorem statement_request_prompt :
    (∀ {σ : Type} (pull : σ → Option Bytes × σ) (r : Reader σ), Prompt pull r) ∧
    (∀ {σ : Type} [ByteStream σ] (r : Reader σ),
      ((next .statement r).1 = none ↔
        ¬ Ripe (r.carry ++ (ByteStream.chunks r.source).flatten)) ∧
      ((next .statement r).1 = none → (next .statement r).2.carry
        = Bytes.unterminated (r.carry ++ (ByteStream.chunks r.source).flatten)) ∧
      ∀ answer r', next .statement r = (answer, r') ↔
        ∃ chunks, Request ByteStream.next .statement r chunks answer r') := by
  refine ⟨prompt, ?_⟩
  intro σ _ r
  obtain ⟨hnone, hkept⟩ := next_statement_of_chunks r
  exact ⟨hnone, hkept, fun _ _ => request_iff.symm⟩

/-- A quote that stays open does not hold a statement up. -/
theorem statement_request_prompt_open_quote :
    (next .statement (⟨[0x27, 0x61], ⟨[[0x0a]], []⟩⟩ : Reader Memory)).1 ≠ none := by
  intro hnone
  refine (statement_request_prompt.2 _).1.mp hnone ⟨[], 0x27, [0x61], 0x0a, [], ?_, rfl, rfl⟩
  decide +kernel

end Reader

end CommandShell
