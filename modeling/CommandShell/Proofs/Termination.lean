/-
Reading comes to an end.

A record always uses up at least one byte, even one that has no tokens or is an empty line, and
empty statements are dropped byte by byte too.  So with at most `n` bytes left there are at most
`n` records, in whatever modes they are asked for (`run_records_le`), and a request among the
first `n + 1` goes without one (`AtMost.unanswered`).

A session takes a record for every cycle that lets it go on, and its handlers can only use up
more.  So it has at most `n` such cycles and one that closes it.  The bound is told twice: for
handlers that are dialogues, where `run` says all that happens, and for `Turns`, where nothing is
known of a handler but that it returned.
-/
import CommandShell.Proofs.Session
import Mathlib.Data.Nat.Find

namespace CommandShell

namespace Reader

/-! ### Records are as many as bytes at most -/

section Requests

variable {σ : Type} {pull : σ → Option Bytes × σ}

theorem skip_length {mode : Mode} {r m : Reader σ} (h : Step pull mode r [] m) :
    m.carry.length < r.carry.length := by
  cases h with
  | skip hs =>
      have hcount := Scan.resume_skip hs
      rw [List.length_drop]
      omega

/-- Every record is paid for by a byte that was in the carry or was pulled. -/
theorem run_records_le {r r' : Reader σ} {xs : List Exchange} (h : Run pull r xs r') :
    (Exchange.records xs).length + r'.carry.length
      ≤ r.carry.length + (Exchange.pulled xs).flatten.length := by
  induction h with
  | nil r => simp [Exchange.records, Exchange.pulled]
  | @cons r m r' mode chunks answer xs h _ ih =>
      have hpulled :
          (Exchange.pulled (⟨mode, r.carry, chunks, answer, m.carry⟩ :: xs)).flatten.length
            = chunks.flatten.length + (Exchange.pulled xs).flatten.length := by
        simp [Exchange.pulled]
      rw [hpulled]
      cases answer with
      | none =>
          have hlen := request_length h
          simp only [Exchange.records, List.filterMap_cons] at ih ⊢
          omega
      | some record =>
          have hlen := request_record_length h
          simp only [Exchange.records, List.filterMap_cons, List.length_cons] at ih ⊢
          omega

end Requests

variable {σ : Type} [ByteStream σ]

theorem run_used {r r' : Reader σ} {xs : List Exchange} (h : Run ByteStream.next r xs r') :
    Used r (Exchange.pulled xs).flatten r' := by
  induction h with
  | nil r => exact .start
  | @cons r m r' mode chunks answer xs h _ ih =>
      have hfirst : Used r chunks.flatten m := .request .start h
      have hpulled : (Exchange.pulled (⟨mode, r.carry, chunks, answer, m.carry⟩ :: xs)).flatten
          = chunks.flatten ++ (Exchange.pulled xs).flatten := by
        simp [Exchange.pulled]
      rw [hpulled]
      exact hfirst.trans ih

/-- Reading on in one mode until there is no record, there are no more than that either. -/
theorem AtMost.drain_le {mode : Mode} {n : Nat} {r : Reader σ} (h : AtMost n r) :
    (drain mode r).1.length ≤ n := by
  fun_induction drain mode r generalizing n with
  | case1 r record r' hn ih =>
      obtain ⟨m, hlt, hm⟩ := h.next_record hn
      have hle := ih hm
      rw [List.length_cons]
      omega
  | case2 r r' hn => exact Nat.zero_le n

theorem AtMost.records {n : Nat} {r r' : Reader σ} {xs : List Exchange} (h : AtMost n r)
    (hr : Run ByteStream.next r xs r') : (Exchange.records xs).length ≤ n := by
  have hrecords := run_records_le hr
  have hall := h _ _ (run_used hr).serves
  omega

/-! ### Some request goes without a record -/

/-- The answer to request number `k`. -/
def answerAt (choose : List (Option Record) → Mode) (r : Reader σ) (k : Nat) : Option Record :=
  (next (choose (converse choose r k).1) (converse choose r k).2).1

theorem converse_length (choose : List (Option Record) → Mode) (r : Reader σ) (k : Nat) :
    (converse choose r k).1.length = k := by
  induction k with
  | zero => rfl
  | succ k ih =>
      show ((converse choose r k).1 ++ [_]).length = k + 1
      rw [List.length_append, ih, List.length_singleton]

theorem converse_answered {choose : List (Option Record) → Mode} {r : Reader σ} {k : Nat}
    (h : ∀ j < k, answerAt choose r j ≠ none) :
    ∀ answer ∈ (converse choose r k).1, answer ≠ none := by
  induction k with
  | zero => intro answer ha; exact absurd ha (by simp [converse])
  | succ k ih =>
      intro answer ha
      have ha : answer ∈ (converse choose r k).1 ++ [answerAt choose r k] := ha
      rcases List.mem_append.mp ha with ha | ha
      · exact ih (fun j hj => h j (by omega)) answer ha
      · rw [List.mem_singleton.mp ha]
        exact h k (by omega)

/-- If `k` requests in a row were answered, there were `k` records. -/
theorem AtMost.answered_le {n k : Nat} {r : Reader σ} (h : AtMost n r)
    {choose : List (Option Record) → Mode} (hk : ∀ j < k, answerAt choose r j ≠ none) : k ≤ n := by
  obtain ⟨xs, hrun, hanswers⟩ := run_converse choose r k
  have hrecords : (Exchange.records xs).length = (xs.map Exchange.answer).length := by
    unfold Exchange.records
    rw [List.length_map, List.length_filterMap_eq_countP, List.countP_eq_length]
    intro x hx
    have hsome := converse_answered hk x.answer (hanswers ▸ List.mem_map_of_mem hx)
    exact Option.isSome_iff_ne_none.mpr hsome
  rw [hanswers, converse_length] at hrecords
  rw [← hrecords]
  exact h.records hrun

theorem AtMost.unanswered {n : Nat} {r : Reader σ} (h : AtMost n r)
    (choose : List (Option Record) → Mode) :
    ∃ k ≤ n, (∀ j < k, answerAt choose r j ≠ none) ∧ answerAt choose r k = none := by
  have hsome : ∃ k, answerAt choose r k = none := by
    -- Otherwise the first `n + 1` requests were all answered.
    by_contra hnot
    have hle := h.answered_le (k := n + 1) fun j _ hj => hnot ⟨j, hj⟩
    omega
  have hbefore : ∀ j < Nat.find hsome, answerAt choose r j ≠ none :=
    fun j hj => Nat.find_min hsome hj
  exact ⟨Nat.find hsome, h.answered_le hbefore, hbefore, Nat.find_spec hsome⟩

end Reader

namespace Shell

variable {σ η : Type} [ByteStream σ]

/-! ### Sessions -/

/-- Cycles in a row that let the session go on, with whatever handlers. -/
inductive Turns : Nat → Shell σ η → Shell σ η → Prop
  | start (sh : Shell σ η) : Turns 0 sh sh
  | turn {n : Nat} {sh m sh' : Shell σ η} (h : Turn sh m) (hs : Turns n m sh') :
      Turns (n + 1) sh sh'

theorem Turns.le {k n : Nat} {sh sh' : Shell σ η} (h : Turns k sh sh')
    (hn : sh.console.reader.AtMost n) : k ≤ n := by
  induction h generalizing n with
  | start sh => exact Nat.zero_le n
  | turn h _ ih =>
      obtain ⟨m, hlt, hm⟩ := h.atMost hn
      have hk := ih hm
      omega

/-- The run goes from turn to turn, and each leaves fewer bytes for the rest of it. -/
theorem run_atMost {ν : Type} (perform : η → Invocation η → Act ν Unit) :
    ∀ (n : Nat) (sh : Shell σ η), sh.console.reader.AtMost n →
      (run perform sh).1.length ≤ n + 1 ∧ (run perform sh).2.state = .closed := by
  intro n
  induction n using Nat.strongRecOn with
  | ind n ih =>
      intro sh hn
      cases hflow : (step perform sh).1.flow with
      | closed =>
          rw [run_of_closed hflow]
          exact ⟨by simp, (step_flow perform sh).mp hflow⟩
      | goesOn =>
          obtain ⟨m, hlt, hm⟩ := (step_turn hflow).atMost hn
          obtain ⟨hlen, hstate⟩ := ih m hlt _ hm
          rw [run_of_goesOn hflow]
          refine ⟨?_, hstate⟩
          rw [List.length_cons]
          omega

end Shell

/-- How a session with at most `n` bytes left goes on. -/
structure Shell.Ends {σ η : Type} [ByteStream σ] (n : Nat) (sh : Shell σ η) : Prop where
  /-- After `n` cycles at most there is one that closes it. -/
  runs : ∀ {ν : Type} (perform : η → Invocation η → Act ν Unit),
    (run perform sh).1.length ≤ n + 1 ∧ (run perform sh).2.state = .closed
  /-- That does not depend on how the handlers came to return. -/
  turns : ∀ k sh', Turns k sh sh' → k ≤ n

/-- How reading from a reader with at most `n` bytes left goes on. -/
structure Reader.Ends {σ : Type} [ByteStream σ] (n : Nat) (r : Reader σ) : Prop where
  /-- There are at most `n` records, also if reading went on when there was none. -/
  records : ∀ xs r', Run ByteStream.next r xs r' → (Exchange.records xs).length ≤ n
  /-- There are as few if one mode is asked for until there is no record. -/
  drained : ∀ mode, (drain mode r).1.length ≤ n
  /-- In changing modes too the first request without a record is among the first `n + 1`. -/
  unanswered : ∀ choose, ∃ k ≤ n, (∀ j < k, answerAt choose r j ≠ none) ∧ answerAt choose r k = none

/--
**Every session over finite input ends.**  With at most `n` bytes left it is closed after at most
`n + 1` cycles, whatever its commands are and whatever their handlers read; and reading from a
reader gives at most `n` records, in any modes.  Every stream has such a bound, and chunks in memory
have their length.  It is kept to because a record always takes at least one byte out of the carry
and the chunks it pulled, and what is skipped is never nothing.
-/
theorem Shell.session_ends :
    (∀ {σ η : Type} [ByteStream σ] {n : Nat} {sh : Shell σ η},
      sh.console.reader.AtMost n → sh.Ends n) ∧
    (∀ {σ : Type} [ByteStream σ] {n : Nat} {r : Reader σ}, r.AtMost n → r.Ends n) ∧
    (∀ {σ : Type} [ByteStream σ] (r : Reader σ), r.AtMost r.weight) ∧
    (∀ r : Reader Memory, r.AtMost r.input.length) ∧
    (∀ {σ : Type} {pull : σ → Option Bytes × σ} {mode : Mode} {r r' : Reader σ}
      {chunks : List Bytes} {record : Record},
      Reader.Request pull mode r chunks (some record) r' →
        r'.carry.length < r.carry.length + chunks.flatten.length) ∧
    (∀ {σ : Type} {pull : σ → Option Bytes × σ} {mode : Mode} {r m : Reader σ},
      Reader.Step pull mode r [] m → m.carry.length < r.carry.length) :=
  ⟨fun hn => ⟨fun perform => run_atMost perform _ _ hn, fun _ _ h => h.le hn⟩,
    fun hn => ⟨fun _ _ h => hn.records h, fun _ => hn.drain_le, hn.unanswered⟩,
    Reader.atMost_weight, Reader.atMost_input, Reader.request_record_length, Reader.skip_length⟩

/-- A session over five bytes whose only handler reads a line, and its reader. -/
theorem Shell.session_ends_line_read :
    (run (fun _ _ => do let _ ← Act.readLine : Unit → Invocation Unit → Act Unit Unit)
      (start {} ⟨[{ name := "l", handler := some () }], by decide +kernel⟩
        (⟨[[0x6c, 0x0a, 0x62], [0x0a, 0x63]], []⟩ : Memory))).2.state = .closed ∧
    (⟨[], ⟨[[0x6c, 0x0a, 0x62], [0x0a, 0x63]], []⟩⟩ : Reader Memory).Ends 5 := by
  have hn := Reader.atMost_input ⟨[], ⟨[[0x6c, 0x0a, 0x62], [0x0a, 0x63]], []⟩⟩
  exact ⟨((session_ends.1 hn).runs _).2, session_ends.2.1 hn⟩

end CommandShell
