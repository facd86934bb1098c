/-
What a request for a block returns.

A block is looked for from the front of the carry, at every newline, again after every chunk.
None of that shows in the answer: it is the shortest block of everything that was still to
come, wherever the chunks were cut (`next_block`).  What carries the induction is that a
shortest block stays the shortest when bytes arrive behind it (`ShortestBlock.append`), so it
does not matter whether they have arrived when it is found.

A test looks at the whole block, not at its last line.  For a terminator without a newline
this is the same thing, because such a terminator cannot reach back over the newline before
the last line (`suffix_lines`).
-/
import CommandShell.Input.Reader
import CommandShell.Stream.Memory
import Mathlib.Tactic.ByContra

namespace CommandShell

/-- `u` is a block of `s` that the test accepts, and no shorter one is. -/
structure ShortestBlock (accept : Bytes → Bool) (s u : Bytes) : Prop where
  /-- A newline follows it. -/
  closed : u ++ [Byte.newline] <+: s
  accepted : accept u = true
  shortest : ∀ v, v ++ [Byte.newline] <+: s → accept v = true → u.length ≤ v.length

/-- There is nothing in `s` that the test accepts. -/
def NoBlock (accept : Bytes → Bool) (s : Bytes) : Prop :=
  ∀ v, v ++ [Byte.newline] <+: s → accept v = false

/-! ### Blocks and the bytes behind them -/

theorem closed_iff {s u : Bytes} : u ++ [Byte.newline] <+: s ↔ ∃ v, s = u ++ Byte.newline :: v := by
  constructor
  · intro h
    obtain ⟨v, hv⟩ := h
    exact ⟨v, by rw [← hv]; simp⟩
  · intro h
    obtain ⟨v, hv⟩ := h
    exact ⟨v, by rw [hv]; simp⟩

/-- A byte in two parts put together is in the second of them or in the first. -/
theorem append_cons_cases {d s u w : Bytes} {b : UInt8} (h : d ++ s = u ++ b :: w) :
    (∃ a, u = d ++ a ∧ s = a ++ b :: w) ∨ ∃ c, d = u ++ b :: c ∧ w = c ++ s := by
  rcases List.append_eq_append_iff.mp h with ⟨a, hu, hs⟩ | ⟨c, hd, hc⟩
  · exact Or.inl ⟨a, hu, hs⟩
  · cases c with
    | nil => exact Or.inl ⟨[], by simpa using hd.symm, hc.symm⟩
    | cons y c =>
        rw [List.cons_append] at hc
        injection hc with hy hw
        exact Or.inr ⟨c, by rw [hd, hy], hw⟩

namespace ShortestBlock

variable {accept : Bytes → Bool} {s u v : Bytes}

theorem unique (hu : ShortestBlock accept s u) (hv : ShortestBlock accept s v) : u = v := by
  have hlen : u.length = v.length :=
    Nat.le_antisymm (hu.shortest v hv.closed hv.accepted) (hv.shortest u hu.closed hu.accepted)
  have h := List.prefix_of_prefix_length_le hu.closed hv.closed (by simp [hlen])
  exact List.append_cancel_right (h.eq_of_length (by simp [hlen]))

theorem append (hu : ShortestBlock accept s u) (more : Bytes) :
    ShortestBlock accept (s ++ more) u where
  closed := hu.closed.trans (List.prefix_append s more)
  accepted := hu.accepted
  shortest := by
    intro v hv ha
    by_contra hlt
    have hle : (v ++ [Byte.newline]).length ≤ (u ++ [Byte.newline]).length := by
      simp only [List.length_append, List.length_singleton]
      omega
    have hvs : v ++ [Byte.newline] <+: s :=
      (List.prefix_of_prefix_length_le hv (hu.closed.trans (List.prefix_append s more)) hle).trans
        hu.closed
    exact hlt (hu.shortest v hvs ha)

theorem not_noBlock (hu : ShortestBlock accept s u) : ¬ NoBlock accept s := by
  intro hn
  have ha := hu.accepted
  rw [hn u hu.closed] at ha
  exact Bool.noConfusion ha

end ShortestBlock

/-! ### What a scan for a block finds -/

namespace Scan

theorem blockEnd?_some {test : Bytes → Bool} {s : Bytes} :
    ∀ {before : Bytes} {stop : Nat}, blockEnd? test before s = some stop →
      ∃ u v, s = u ++ Byte.newline :: v ∧ stop = before.length + u.length ∧
        test (before.reverse ++ u) = true ∧
        ∀ w, w ++ [Byte.newline] <+: s → test (before.reverse ++ w) = true →
          u.length ≤ w.length := by
  induction s with
  | nil => intro before stop h; simp [blockEnd?] at h
  | cons b r ih =>
      intro before stop h
      by_cases hb : (b = Byte.newline && test before.reverse) = true
      · rw [blockEnd?, if_pos hb] at h
        simp only [Bool.and_eq_true, decide_eq_true_eq] at hb
        obtain ⟨rfl, ht⟩ := hb
        exact ⟨[], r, rfl, by simpa using h.symm, by simpa using ht, fun _ _ _ => Nat.zero_le _⟩
      · rw [blockEnd?, if_neg hb] at h
        obtain ⟨u, v, rfl, hstop, ht, hmin⟩ := ih h
        refine ⟨b :: u, v, rfl, by simp [hstop]; omega, by simpa using ht, ?_⟩
        intro w hw htw
        cases w with
        | nil =>
            -- The empty block would have been taken at `b`.
            obtain ⟨hb', _⟩ := List.cons_prefix_cons.mp hw
            simp [← hb'] at hb htw
            exact absurd htw (by simp [hb])
        | cons c w =>
            obtain ⟨rfl, hw'⟩ := List.cons_prefix_cons.mp hw
            have := hmin w hw' (by simpa using htw)
            simpa using this

theorem blockEnd?_none {test : Bytes → Bool} {s : Bytes} :
    ∀ {before : Bytes}, blockEnd? test before s = none →
      ∀ w, w ++ [Byte.newline] <+: s → test (before.reverse ++ w) = false := by
  induction s with
  | nil => intro before _ w hw; simp at hw
  | cons b r ih =>
      intro before h w hw
      by_cases hb : (b = Byte.newline && test before.reverse) = true
      · rw [blockEnd?, if_pos hb] at h
        exact absurd h (by simp)
      · rw [blockEnd?, if_neg hb] at h
        cases w with
        | nil =>
            obtain ⟨hb', _⟩ := List.cons_prefix_cons.mp hw
            simpa [← hb'] using hb
        | cons c w =>
            obtain ⟨rfl, hw'⟩ := List.cons_prefix_cons.mp hw
            simpa using ih h w hw'

/-- A scan for a block finds the shortest one there is, in front of the newline behind it. -/
theorem block_found {mode : Mode} {accept : Bytes → Bool} (hm : mode.test? = some accept)
    (s : Bytes) :
    (∃ u v, ShortestBlock accept s u ∧ s = u ++ Byte.newline :: v ∧
      ofMode mode s = .complete ⟨⟨0, u.length⟩, [], u.length + 1⟩) ∨
    (NoBlock accept s ∧ ofMode mode s = .incomplete) := by
  have hscan : ofMode mode s = block accept 0 s := by
    unfold ofMode resume
    rw [hm]
  rw [hscan]
  unfold block
  simp only [List.take_zero, List.reverse_nil, List.drop_zero]
  cases he : blockEnd? accept [] s with
  | some stop =>
      obtain ⟨u, v, hs, hstop, ht, hmin⟩ := blockEnd?_some he
      rw [List.length_nil, Nat.zero_add] at hstop
      refine Or.inl ⟨u, v, ⟨closed_iff.mpr ⟨v, hs⟩, ht, hmin⟩, hs, ?_⟩
      rw [hstop]
  | none => exact Or.inr ⟨blockEnd?_none he, rfl⟩

/-- **A scan for a block takes the shortest one there is.** -/
theorem block_cases {mode : Mode} {accept : Bytes → Bool} (hm : mode.test? = some accept)
    (s : Bytes) :
    (∃ u v found, ShortestBlock accept s u ∧ s = u ++ Byte.newline :: v ∧
      ofMode mode s = .complete found ∧ found.record s = ⟨u, []⟩ ∧
      s.drop found.consumed = v) ∨
    (NoBlock accept s ∧ ofMode mode s = .incomplete) := by
  rcases block_found hm s with ⟨u, v, hshortest, hs, hfound⟩ | hnone
  · refine Or.inl ⟨u, v, _, hshortest, hs, hfound, ?_, ?_⟩
    · show Record.mk _ _ = Record.mk _ _
      rw [hs]
      simp [Extent.cut]
    · show s.drop (u.length + 1) = v
      rw [hs, show u ++ Byte.newline :: v = (u ++ [Byte.newline]) ++ v by simp]
      exact List.drop_left' (by simp)
  · exact Or.inr hnone

end Scan

/-! ### A reader over chunks in memory -/

namespace Reader

/-- All that a reader still has to deliver. -/
def input (r : Reader Memory) : Bytes :=
  r.carry ++ r.source.queue.flatten

/-- What a reader is when it has pulled the first of its chunks. -/
def pull (r : Reader Memory) (chunk : Bytes) (queue : List Bytes) : Reader Memory :=
  ⟨r.carry ++ chunk, { r.source with queue := queue }⟩

theorem input_pull {r : Reader Memory} {chunk : Bytes} {queue : List Bytes}
    (hq : r.source.queue = chunk :: queue) : (r.pull chunk queue).input = r.input := by
  unfold input pull
  rw [hq]
  simp

theorem next_pull {mode : Mode} {r : Reader Memory} {chunk : Bytes} {queue : List Bytes}
    (hs : Scan.ofMode mode r.carry = .incomplete) (hq : r.source.queue = chunk :: queue) :
    next mode r = next mode (r.pull chunk queue) := by
  have hp : ByteStream.next r.source = (some chunk, { r.source with queue := queue }) := by
    show Memory.next r.source = _
    rw [Memory.next, hq]
  rw [next_eq]
  simp only [hs, hp]
  rfl

theorem next_complete {mode : Mode} {r : Reader Memory} {found : Found}
    (hs : Scan.ofMode mode r.carry = .complete found) :
    next mode r
      = (some (found.record r.carry), { r with carry := r.carry.drop found.consumed }) := by
  rw [next_eq]
  simp only [hs]

theorem next_ended {mode : Mode} {r : Reader Memory}
    (hs : Scan.ofMode mode r.carry = .incomplete) (hq : r.source.queue = []) :
    next mode r = (none, r) := by
  have hp : ByteStream.next r.source = (none, r.source) := by
    show Memory.next r.source = _
    rw [Memory.next, hq]
  rw [next_eq]
  simp only [hs, hp]

theorem input_ended {r : Reader Memory} (hq : r.source.queue = []) : r.input = r.carry := by
  unfold input
  rw [hq]
  simp

/-! ### A request for a block -/

/-- The answer to a request for a block, told by what the reader had to deliver: the shortest
block that the test accepts, and behind it all but the newline; or nothing, if there is none,
and then everything is kept. -/
structure AnswersBlock (accept : Bytes → Bool) (r : Reader Memory)
    (out : Option Record × Reader Memory) : Prop where
  found : ∀ u rest, ShortestBlock accept r.input u → r.input = u ++ Byte.newline :: rest →
    out.1 = some ⟨u, []⟩ ∧ out.2.input = rest
  returned : ∀ record, out.1 = some record → ∃ u, ShortestBlock accept r.input u
  none_iff : out.1 = none ↔ NoBlock accept r.input
  kept : out.1 = none → out.2.carry = r.input ∧ out.2.source.queue = []

theorem next_block_carry {mode : Mode} {accept : Bytes → Bool} {r : Reader Memory} {u v : Bytes}
    {found : Found} (hu : ShortestBlock accept r.carry u)
    (hs : r.carry = u ++ Byte.newline :: v) (hf : Scan.ofMode mode r.carry = .complete found)
    (hrec : found.record r.carry = ⟨u, []⟩) (hdrop : r.carry.drop found.consumed = v) :
    ShortestBlock accept r.input u ∧ (next mode r).1 = some ⟨u, []⟩ ∧
      r.input = u ++ Byte.newline :: (next mode r).2.input := by
  refine ⟨hu.append _, ?_, ?_⟩
  · rw [next_complete hf, hrec]
  · rw [next_complete hf, hdrop]
    show r.carry ++ r.source.queue.flatten = u ++ Byte.newline :: (v ++ r.source.queue.flatten)
    rw [hs]
    simp

theorem next_block {mode : Mode} {accept : Bytes → Bool} (hm : mode.test? = some accept)
    (r : Reader Memory) :
    (∃ u, ShortestBlock accept r.input u ∧ (next mode r).1 = some ⟨u, []⟩ ∧
      r.input = u ++ Byte.newline :: (next mode r).2.input) ∨
    (NoBlock accept r.input ∧ (next mode r).1 = none ∧ (next mode r).2.carry = r.input ∧
      (next mode r).2.source.queue = []) := by
  induction hq : r.source.queue generalizing r with
  | nil =>
      rcases Scan.block_cases hm r.carry with ⟨u, v, found, hu, hs, hf, hrec, hdrop⟩ | ⟨hn, hf⟩
      · exact Or.inl ⟨u, next_block_carry hu hs hf hrec hdrop⟩
      · refine Or.inr ⟨by rwa [input_ended hq], ?_⟩
        rw [next_ended hf hq]
        exact ⟨rfl, (input_ended hq).symm, hq⟩
  | cons chunk queue ih =>
      rcases Scan.block_cases hm r.carry with ⟨u, v, found, hu, hs, hf, hrec, hdrop⟩ | ⟨_, hf⟩
      · exact Or.inl ⟨u, next_block_carry hu hs hf hrec hdrop⟩
      · rw [next_pull hf hq, ← input_pull hq]
        exact ih (r.pull chunk queue) rfl

theorem answersBlock_next {mode : Mode} {accept : Bytes → Bool} (hm : mode.test? = some accept)
    (r : Reader Memory) : AnswersBlock accept r (next mode r) := by
  rcases next_block hm r with ⟨u, hu, hout, hin⟩ | ⟨hno, hout, hcarry, hqueue⟩
  · refine ⟨?_, fun _ _ => ⟨u, hu⟩, ?_, ?_⟩
    · intro w rest hw hrest
      have hwu := hw.unique hu
      subst hwu
      rw [hin] at hrest
      have htail := List.append_cancel_left hrest
      injection htail with _ htail
      exact ⟨hout, htail⟩
    · rw [hout]
      exact ⟨fun h => absurd h (by simp), fun h => absurd h hu.not_noBlock⟩
    · rw [hout]
      intro h
      exact absurd h (by simp)
  · refine ⟨fun u _ hu _ => absurd hno hu.not_noBlock, ?_, ⟨fun _ => hno, fun _ => hout⟩,
      fun _ => ⟨hcarry, hqueue⟩⟩
    intro record h
    rw [hout] at h
    exact absurd h (by simp)

end Reader

/-! ### Blocks in lines -/

/-- Lines one after the other, each with its newline. -/
def joinLines (ls : List Bytes) : Bytes :=
  ls.flatMap fun l => l ++ [Byte.newline]

/-- `u` consists of the lines of `s` through the first one that ends with `t`. -/
def ThroughLine (t s u : Bytes) : Prop :=
  ∃ ls l v, u = joinLines ls ++ l ∧ s = u ++ Byte.newline :: v ∧
    (∀ x ∈ ls, Byte.newline ∉ x ∧ ¬ t <:+ x) ∧ Byte.newline ∉ l ∧ t <:+ l

theorem joinLines_cons (x : Bytes) (ls : List Bytes) (v : Bytes) :
    joinLines (x :: ls) ++ v = x ++ Byte.newline :: (joinLines ls ++ v) := by
  simp [joinLines]

theorem joinLines_append (ls ms : List Bytes) :
    joinLines (ls ++ ms) = joinLines ls ++ joinLines ms := by
  simp [joinLines]

theorem exists_lines (u : Bytes) :
    ∃ ls l, u = joinLines ls ++ l ∧ (∀ x ∈ ls, Byte.newline ∉ x) ∧ Byte.newline ∉ l := by
  induction u with
  | nil => exact ⟨[], [], rfl, by simp, by simp⟩
  | cons b r ih =>
      obtain ⟨ls, l, hr, hls, hl⟩ := ih
      by_cases hb : b = Byte.newline
      · refine ⟨[] :: ls, l, ?_, ?_, hl⟩
        · rw [joinLines_cons, ← hr, hb]
          rfl
        · intro x hx
          rcases List.mem_cons.mp hx with rfl | hx
          · simp
          · exact hls x hx
      · cases ls with
        | nil => exact ⟨[], b :: l, by rw [hr]; rfl, by simp, by simp [Ne.symm hb, hl]⟩
        | cons y ys =>
            refine ⟨(b :: y) :: ys, l, ?_, ?_, hl⟩
            · rw [joinLines_cons, hr, joinLines_cons]
              rfl
            · intro x hx
              rcases List.mem_cons.mp hx with rfl | hx
              · simp [Ne.symm hb, hls y (by simp)]
              · exact hls x (by simp [hx])

/-- What has no newline ends within the last line. -/
theorem suffix_lines {t l : Bytes} (ht : Byte.newline ∉ t) :
    ∀ {ls : List Bytes}, t <:+ joinLines ls ++ l → t <:+ l := by
  intro ls
  induction ls with
  | nil => intro h; exact h
  | cons x ls ih =>
      intro h
      rw [joinLines_cons] at h
      rcases List.suffix_or_suffix_of_suffix h
        (List.suffix_append x (Byte.newline :: (joinLines ls ++ l))) with hs | hs
      · rcases List.suffix_cons_iff.mp hs with rfl | hs
        · exact absurd (List.mem_cons_self ..) ht
        · exact ih hs
      · exact absurd (hs.subset (List.mem_cons_self ..)) ht

/-- A newline behind `v` is either the one behind `x` or comes later. -/
theorem append_newline_cases {v w x rest : Bytes} (hx : Byte.newline ∉ x)
    (h : v ++ Byte.newline :: w = x ++ Byte.newline :: rest) :
    (v = x ∧ w = rest) ∨ ∃ v', v = x ++ Byte.newline :: v' ∧ v' ++ Byte.newline :: w = rest := by
  rcases append_cons_cases h.symm with ⟨a, hv, ha⟩ | ⟨c, hc, _⟩
  · cases a with
    | nil =>
        rw [List.nil_append] at ha
        injection ha with _ ha
        exact Or.inl ⟨by simpa using hv, ha.symm⟩
    | cons y a =>
        rw [List.cons_append] at ha
        injection ha with hy ha
        exact Or.inr ⟨a, by rw [hv, hy], ha.symm⟩
  · exact absurd (by simp [hc]) hx

/-- What a newline follows within lines ends where one of them ends. -/
theorem prefix_lines {l : Bytes} (hl : Byte.newline ∉ l) :
    ∀ {ls : List Bytes} {v : Bytes}, (∀ x ∈ ls, Byte.newline ∉ x) →
      v ++ [Byte.newline] <+: joinLines ls ++ l → ∃ pre, ∃ x ∈ ls, v = joinLines pre ++ x := by
  intro ls
  induction ls with
  | nil =>
      intro v _ h
      exact absurd (h.subset (by simp)) hl
  | cons x ls ih =>
      intro v hls h
      obtain ⟨w, hw⟩ := closed_iff.mp h
      rw [joinLines_cons] at hw
      rcases append_newline_cases (hls x (by simp)) hw.symm with ⟨rfl, _⟩ | ⟨v', rfl, hv'⟩
      · exact ⟨[], v, by simp, rfl⟩
      · obtain ⟨pre, y, hy, rfl⟩ :=
          ih (fun y hy => hls y (by simp [hy])) (closed_iff.mpr ⟨w, hv'.symm⟩)
        exact ⟨x :: pre, y, by simp [hy], (joinLines_cons ..).symm⟩

/-- The shortest block at all is what is before the first newline. -/
theorem shortestBlock_line_iff {s u : Bytes} :
    ShortestBlock (fun _ => true) s u ↔ Byte.newline ∉ u ∧ u ++ [Byte.newline] <+: s := by
  constructor
  · intro hu
    refine ⟨?_, hu.closed⟩
    intro hmem
    obtain ⟨a, b, hab⟩ := List.append_of_mem hmem
    have ha : a ++ [Byte.newline] <+: s :=
      ((closed_iff.mpr ⟨b, hab⟩).trans (List.prefix_append u _)).trans hu.closed
    have hle := hu.shortest a ha rfl
    rw [hab, List.length_append, List.length_cons] at hle
    omega
  · intro h
    obtain ⟨hn, hc⟩ := h
    refine ⟨hc, rfl, ?_⟩
    intro v hv _
    by_contra hlt
    have hle : (v ++ [Byte.newline]).length ≤ u.length := by
      rw [List.length_append, List.length_singleton]
      omega
    have hvu := List.prefix_of_prefix_length_le hv ((List.prefix_append u _).trans hc) hle
    exact hn (hvu.subset (by simp))

/-- A terminator without a newline ends a block where it ends a line. -/
theorem shortestBlock_terminated_iff {t s u : Bytes} (ht : Byte.newline ∉ t) :
    ShortestBlock t.isSuffixOf s u ↔ ThroughLine t s u := by
  constructor
  · intro hu
    obtain ⟨ls, l, hlines, hls, hl⟩ := exists_lines u
    obtain ⟨v, hv⟩ := closed_iff.mp hu.closed
    have hsuf : t <:+ u := List.isSuffixOf_iff_suffix.mp hu.accepted
    refine ⟨ls, l, v, hlines, hv, fun x hx => ⟨hls x hx, ?_⟩, hl, ?_⟩
    · -- A line before that ends with `t` would end a shorter block.
      intro hx'
      obtain ⟨pre, post, rfl⟩ := List.append_of_mem hx
      have hu' : u = (joinLines pre ++ x) ++ Byte.newline :: (joinLines post ++ l) := by
        rw [hlines, joinLines_append, List.append_assoc, joinLines_cons]
        simp
      have hle := hu.shortest (joinLines pre ++ x)
        (((closed_iff.mpr ⟨_, hu'⟩).trans (List.prefix_append u _)).trans hu.closed)
        (List.isSuffixOf_iff_suffix.mpr (hx'.trans (List.suffix_append _ x)))
      rw [hu', List.length_append, List.length_cons] at hle
      omega
    · rw [hlines] at hsuf
      exact suffix_lines ht hsuf
  · intro h
    obtain ⟨ls, l, v, rfl, hv, hls, hl, htl⟩ := h
    refine ⟨closed_iff.mpr ⟨v, hv⟩,
      List.isSuffixOf_iff_suffix.mpr (htl.trans (List.suffix_append _ l)), ?_⟩
    intro w hw haw
    by_contra hlt
    have hle : (w ++ [Byte.newline]).length ≤ (joinLines ls ++ l).length := by
      rw [List.length_append, List.length_singleton]
      omega
    have hwu : w ++ [Byte.newline] <+: joinLines ls ++ l :=
      List.prefix_of_prefix_length_le hw ⟨_, hv.symm⟩ hle
    obtain ⟨pre, x, hx, rfl⟩ := prefix_lines hl (fun x hx => (hls x hx).1) hwu
    exact (hls x hx).2 (suffix_lines ht (List.isSuffixOf_iff_suffix.mp haw))

namespace Reader

/--
**A block is the same however the input arrives.**  A request for a line returns what is
before the first newline of all that was to come, and a request for a block the shortest block
that the test or the terminator allows; the newline goes, and everything behind it stays.  If
there is no such block, everything is kept.
-/
theorem block_whole_input (r : Reader Memory) :
    AnswersBlock (fun _ => true) r (next .line r) ∧
    (∀ test, AnswersBlock test r (next (.accepted test) r)) ∧
    (∀ t, AnswersBlock t.isSuffixOf r (next (.terminated t) r)) ∧
    (∀ u, ShortestBlock (fun _ => true) r.input u ↔
      Byte.newline ∉ u ∧ u ++ [Byte.newline] <+: r.input) ∧
    (∀ t u, Byte.newline ∉ t →
      (ShortestBlock t.isSuffixOf r.input u ↔ ThroughLine t r.input u)) :=
  ⟨answersBlock_next rfl r, fun _ => answersBlock_next rfl r, fun _ => answersBlock_next rfl r,
    fun _ => shortestBlock_line_iff, fun _ _ ht => shortestBlock_terminated_iff ht⟩

/-- A terminator and the newline after it, cut apart. -/
theorem block_whole_input_terminated :
    let r : Reader Memory := ⟨[0x61], ⟨[[0x0a, 0x62], [0x2e], [0x0a, 0x63]], []⟩⟩
    (next (.terminated [0x2e]) r).1 = some ⟨[0x61, 0x0a, 0x62, 0x2e], []⟩ ∧
      (next (.terminated [0x2e]) r).2.input = [0x63] := by
  intro r
  obtain ⟨_, _, hanswer, _, hlines⟩ := block_whole_input r
  have hthrough : ThroughLine [0x2e] r.input [0x61, 0x0a, 0x62, 0x2e] :=
    ⟨[[0x61]], [0x62, 0x2e], [0x63], rfl, rfl, by decide, by decide, by decide⟩
  exact (hanswer _).found _ _ ((hlines _ _ (by decide)).mpr hthrough) rfl

end Reader

end CommandShell
