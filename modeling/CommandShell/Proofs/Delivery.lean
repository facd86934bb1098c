/-
What a stream delivers.

A stream over a link asks again while nothing has arrived, reads into a buffer that it keeps, and
has a buffer of at least one byte whatever capacity was asked for.  None of that can be seen in
what it delivers.  Suppose a link hands out a queue of read results, each read meeting the next of
them (`HandsOut`).  Then the chunks up to the first end, put together, are the data of the queue
up to the first failure or closing (`delivered`), and the capacity only decides where they are cut.

The argument is about one read.  `HandsOut.read_ok` says that bytes that are read are taken from
the front of what is still to be delivered, and that a read of a link that stays open lowers the
supply of the queue; `HandsOut.read_error` says that a read fails only if nothing is to be
delivered.  A call is any number of reads that yield nothing and one other, so it ends, and what
holds of its answer follows by induction (`pulls_some`, `pulls_none`).  `Conveys.of_steps` puts
calls together.

The buffer is told of apart from that.  `Filling` is a stream with the bytes in its buffer, and a
read overwrites as many of them as it yields and leaves whatever it likes behind them.  A call on
it is answered as if each read had brought a buffer of its own (`Filling.Pulls.link`).
-/
import CommandShell.Proofs.Calls

namespace CommandShell

open Rehearsal

/-! ### Queues of read results -/

namespace Rehearsal

/-- The bytes that a read gets of an event. -/
def ReadEvent.bytes : ReadEvent → Bytes
  | data bytes => bytes
  | _ => []

/-- What a read yields that meets an event. -/
def ReadEvent.answer : ReadEvent → Except StreamError Bytes
  | failure e => .error e
  | event => .ok event.bytes

/-- Whether an event ends what is delivered. -/
def ReadEvent.ends : ReadEvent → Bool
  | data _ => false
  | failure _ => true
  | nothing => false
  | closing => true

/-- The data up to the first failure or closing. -/
def delivered : List ReadEvent → Bytes
  | .data bytes :: rest => bytes ++ delivered rest
  | .nothing :: rest => delivered rest
  | _ => []

theorem ReadEvent.answer_eq_ok {event : ReadEvent} {bytes : Bytes}
    (h : event.answer = .ok bytes) :
    event.bytes = bytes ∧ (event.ends = true → event = .closing) := by
  cases event with
  | data b => exact ⟨Except.ok.inj h, by simp [ends]⟩
  | failure e => simp [answer] at h
  | nothing => exact ⟨Except.ok.inj h, by simp [ends]⟩
  | closing => exact ⟨Except.ok.inj h, fun _ => rfl⟩

theorem ReadEvent.answer_eq_error {event : ReadEvent} {e : StreamError}
    (h : event.answer = .error e) : event.ends = true := by
  cases event with
  | failure e => rfl
  | _ => simp [answer] at h

theorem meet_of_fits {room : Nat} {bytes : Bytes} {rest : List ReadEvent}
    (h : bytes.length ≤ room) : meet room (.data bytes :: rest) = (.data bytes, rest) :=
  if_pos h

theorem meet_of_too_long {room : Nat} {bytes : Bytes} {rest : List ReadEvent}
    (h : ¬ bytes.length ≤ room) : meet room (.data bytes :: rest)
      = (.data (bytes.take room), .data (bytes.drop room) :: rest) :=
  if_neg h

/-- Data that does not fit is not lost: its rest is still there for the next read. -/
theorem delivered_eq (room : Nat) (events : List ReadEvent) :
    delivered events = if (meet room events).1.ends = true then []
      else (meet room events).1.bytes ++ delivered (meet room events).2 := by
  cases events with
  | nil => rfl
  | cons event rest =>
      cases event with
      | data bytes =>
          by_cases hfit : bytes.length ≤ room
          · rw [meet_of_fits hfit]
            rfl
          · rw [meet_of_too_long hfit]
            show bytes ++ delivered rest = bytes.take room ++ (bytes.drop room ++ delivered rest)
            rw [← List.append_assoc, List.take_append_drop]
      | failure e => rfl
      | nothing => rfl
      | closing => rfl

theorem length_meet (room : Nat) (events : List ReadEvent) :
    (meet room events).1.bytes.length ≤ room := by
  rcases hm : meet room events with ⟨event, rest⟩
  cases event with
  | data bytes => exact (meet_data hm).1
  | _ => exact Nat.zero_le room

theorem supply_meet {room : Nat} {events : List ReadEvent} (pos : 0 < room)
    (he : (meet room events).1.ends = false) : supply (meet room events).2 < supply events := by
  rcases hm : meet room events with ⟨event, rest⟩
  rw [hm] at he
  cases event with
  | data bytes =>
      have hlt := (meet_data hm).2 pos
      show supply rest < supply events
      omega
  | failure e => simp [ReadEvent.ends] at he
  | nothing => exact supply_meet_lt hm (by simp) (by simp)
  | closing => simp [ReadEvent.ends] at he

end Rehearsal

/-! ### Links that hand out a queue -/

namespace Link

variable {τ : Type}

/-- A link has come as far as the rest of a queue.  It may have closed already if closing is what
comes next. -/
def LeftWith (l : Link τ) (queue : τ → List ReadEvent) (t : τ) (rest : List ReadEvent) : Prop :=
  if l.isOpen t = true then queue t = rest else (meet 1 rest).1 = .closing

/-- A link that hands out a queue of read results in order, one for each read while it is open.
Data that is too long for the buffer is split, the rest coming first in the next read.  Behind
the last result the other side has closed, and what follows a failure is left open. -/
structure HandsOut (l : Link τ) (queue : τ → List ReadEvent) : Prop where
  /-- A read yields what it meets. -/
  answer : ∀ {room : Nat} {t : τ}, 0 < room → l.isOpen t = true →
    (l.read room t).1 = (meet room (queue t)).1.answer
  /-- Unless that ends the input, the next read meets what comes then. -/
  rest : ∀ {room : Nat} {t : τ}, 0 < room → l.isOpen t = true →
    (meet room (queue t)).1.ends = false →
      l.LeftWith queue (l.read room t).2 (meet room (queue t)).2
  /-- Closing closes the link. -/
  closing : ∀ {room : Nat} {t : τ}, 0 < room → l.isOpen t = true →
    (meet room (queue t)).1 = .closing → l.isOpen (l.read room t).2 = false

/-- What a link has to deliver: nothing if it is closed. -/
def toDeliver (l : Link τ) (queue : τ → List ReadEvent) (t : τ) : Bytes :=
  if l.isOpen t = true then delivered (queue t) else []

theorem toDeliver_of_open {l : Link τ} {queue : τ → List ReadEvent} {t : τ}
    (ho : l.isOpen t = true) : l.toDeliver queue t = delivered (queue t) :=
  if_pos ho

theorem toDeliver_of_closed {l : Link τ} {queue : τ → List ReadEvent} {t : τ}
    (hc : l.isOpen t = false) : l.toDeliver queue t = [] :=
  if_neg (by simp [hc])

theorem LeftWith.toDeliver {l : Link τ} {queue : τ → List ReadEvent} {t : τ}
    {rest : List ReadEvent} (h : l.LeftWith queue t rest) :
    l.toDeliver queue t = delivered rest := by
  unfold LeftWith at h
  by_cases ho : l.isOpen t = true
  · rw [if_pos ho] at h
    rw [toDeliver_of_open ho, h]
  · rw [if_neg ho] at h
    rw [toDeliver_of_closed (Bool.of_not_eq_true ho), delivered_eq 1, h]
    rfl

namespace HandsOut

variable {l : Link τ} {queue : τ → List ReadEvent} {room : Nat} {t t' : τ}

/-! ### One read -/

/-- **What is read is what comes next**, it fits in the buffer, and there is less to come. -/
theorem read_ok {bytes : Bytes} (h : l.HandsOut queue) (pos : 0 < room)
    (ho : l.isOpen t = true) (hr : l.read room t = (.ok bytes, t')) :
    bytes.length ≤ room ∧ l.toDeliver queue t = bytes ++ l.toDeliver queue t' ∧
      (l.isOpen t' = true → supply (queue t') < supply (queue t)) := by
  have hanswer := h.answer pos ho
  rw [hr] at hanswer
  obtain ⟨rfl, hclosing⟩ := ReadEvent.answer_eq_ok hanswer.symm
  refine ⟨length_meet room (queue t), ?_⟩
  rw [toDeliver_of_open ho, delivered_eq room]
  cases he : (meet room (queue t)).1.ends with
  | false =>
      have hrest := h.rest pos ho he
      rw [hr] at hrest
      refine ⟨?_, fun ho' => ?_⟩
      · rw [if_neg (by simp), hrest.toDeliver]
      · unfold LeftWith at hrest
        rw [if_pos ho'] at hrest
        rw [hrest]
        exact supply_meet pos he
  | true =>
      -- It did not fail, so it is closing, and there is nothing to read.
      have hevent := hclosing he
      have hc := h.closing pos ho hevent
      rw [hr] at hc
      refine ⟨?_, fun ho' => absurd (ho'.symm.trans hc) (by simp)⟩
      rw [if_pos rfl, toDeliver_of_closed hc, hevent]
      rfl

theorem read_error {e : StreamError} (h : l.HandsOut queue) (pos : 0 < room)
    (ho : l.isOpen t = true) (hr : l.read room t = (.error e, t')) :
    l.toDeliver queue t = [] := by
  have hanswer := h.answer pos ho
  rw [hr] at hanswer
  rw [toDeliver_of_open ho, delivered_eq room, if_pos (ReadEvent.answer_eq_error hanswer.symm)]

/-! ### One call -/

/-- **Every call is answered.**  A read that yields nothing from a link that stays open has used
up an event. -/
theorem pulls_exists (h : l.HandsOut queue) (pos : 0 < room) (t : τ) :
    ∃ answer t', l.Pulls room t answer t' := by
  induction hn : supply (queue t) using Nat.strongRecOn generalizing t with
  | ind n ih =>
      by_cases ho : l.isOpen t = true
      · rcases hr : l.read room t with ⟨result, m⟩
        cases result with
        | error e => exact ⟨none, m, .failed ho hr⟩
        | ok bytes =>
            cases bytes with
            | cons b bytes => exact ⟨some (b :: bytes), m, .chunk ho hr⟩
            | nil =>
                by_cases hm : l.isOpen m = true
                · have hlt := (h.read_ok pos ho hr).2.2 hm
                  obtain ⟨answer, t', hp⟩ := ih _ (hn ▸ hlt) m rfl
                  exact ⟨answer, t', .nothing ho hr hp⟩
                · exact ⟨none, m, .nothing ho hr (.closed (Bool.of_not_eq_true hm))⟩
      · exact ⟨none, t, .closed (Bool.of_not_eq_true ho)⟩

theorem pulls_some {answer : Option Bytes} {chunk : Bytes} (h : l.HandsOut queue)
    (pos : 0 < room) (hp : l.Pulls room t answer t') (ha : answer = some chunk) :
    chunk ≠ [] ∧ chunk.length ≤ room ∧
      l.toDeliver queue t = chunk ++ l.toDeliver queue t' := by
  induction hp with
  | closed ho => exact absurd ha (by simp)
  | nothing ho hr hp ih =>
      rw [(h.read_ok pos ho hr).2.1]
      exact ih ha
  | chunk ho hr =>
      obtain rfl := Option.some.inj ha
      obtain ⟨hlen, hall, _⟩ := h.read_ok pos ho hr
      exact ⟨by simp, hlen, hall⟩
  | failed ho hr => exact absurd ha (by simp)

theorem pulls_none {answer : Option Bytes} (h : l.HandsOut queue) (pos : 0 < room)
    (hp : l.Pulls room t answer t') (ha : answer = none) : l.toDeliver queue t = [] := by
  induction hp with
  | closed ho => exact toDeliver_of_closed ho
  | nothing ho hr hp ih =>
      rw [(h.read_ok pos ho hr).2.1]
      exact ih ha
  | chunk ho hr => exact absurd ha (by simp)
  | failed ho hr => exact h.read_error pos ho hr

end HandsOut

end Link

/-! ### Calls up to the end -/

/-- The chunks that come of calls one after the other, up to the first that tells the end. -/
inductive Drains {σ : Type} (pulls : σ → Option Bytes → σ → Prop) : σ → List Bytes → σ → Prop
  | ended {s s' : σ} (h : pulls s none s') : Drains pulls s [] s'
  | chunk {s m s' : σ} {chunk : Bytes} {chunks : List Bytes} (h : pulls s (some chunk) m)
      (hs : Drains pulls m chunks s') : Drains pulls s (chunk :: chunks) s'

/-- A stream that delivers what there is, in pieces that a buffer has room for. -/
structure Conveys {σ : Type} (pulls : σ → Option Bytes → σ → Prop) (room : Nat)
    (whole : σ → Bytes) : Prop where
  /-- No call goes on for ever. -/
  answered : ∀ s, ∃ answer s', pulls s answer s'
  /-- A chunk has something in it, and fits in the buffer. -/
  chunk : ∀ {s s' : σ} {chunk : Bytes}, pulls s (some chunk) s' →
    chunk ≠ [] ∧ chunk.length ≤ room
  /-- At some point the end is told. -/
  ended : ∀ s, ∃ chunks s', Drains pulls s chunks s'
  /-- Up to there, the chunks are all there is. -/
  whole : ∀ {s s' : σ} {chunks : List Bytes}, Drains pulls s chunks s' →
    chunks.flatten = whole s

/-- It is enough to know what one call takes from the whole. -/
theorem Conveys.of_steps {σ : Type} {pulls : σ → Option Bytes → σ → Prop} {room : Nat}
    {whole : σ → Bytes} (answered : ∀ s, ∃ answer s', pulls s answer s')
    (hsome : ∀ {s s' : σ} {chunk : Bytes}, pulls s (some chunk) s' →
      chunk ≠ [] ∧ chunk.length ≤ room ∧ whole s = chunk ++ whole s')
    (hnone : ∀ {s s' : σ}, pulls s none s' → whole s = []) : Conveys pulls room whole where
  answered := answered
  chunk h := ⟨(hsome h).1, (hsome h).2.1⟩
  ended s := by
    -- Every chunk takes at least one byte from what there is.
    induction hn : (whole s).length using Nat.strongRecOn generalizing s with
    | ind n ih =>
        obtain ⟨answer, m, hp⟩ := answered s
        cases answer with
        | none => exact ⟨[], m, .ended hp⟩
        | some chunk =>
            obtain ⟨hne, _, hall⟩ := hsome hp
            have hpos := List.length_pos_iff.mpr hne
            have hlen := congrArg List.length hall
            rw [List.length_append] at hlen
            obtain ⟨chunks, s', hd⟩ := ih (whole m).length (by omega) m rfl
            exact ⟨chunk :: chunks, s', .chunk hp hd⟩
  whole h := by
    induction h with
    | ended h => exact (hnone h).symm
    | chunk h _ ih => rw [(hsome h).2.2, List.flatten_cons, ih]

theorem Link.HandsOut.conveys {τ : Type} {l : Link τ} {queue : τ → List ReadEvent}
    (h : l.HandsOut queue) {room : Nat} (pos : 0 < room) :
    Conveys (l.Pulls room) room (l.toDeliver queue) :=
  .of_steps (h.pulls_exists pos) (fun hp => h.pulls_some pos hp rfl)
    (fun hp => h.pulls_none pos hp rfl)

/-! ### The buffer -/

/-- A stream over a link with the buffer that it reads into. -/
structure Filling (τ : Type) (room : Nat) where
  /-- What is in the buffer, from earlier reads too. -/
  buffer : Bytes
  /-- The buffer keeps its length. -/
  length_buffer : buffer.length = room
  /-- What is read from. -/
  transport : τ

namespace Filling

variable {τ : Type} {room : Nat}

/-- What comes of waiting for a chunk.  A read puts its bytes at the front of the buffer, of which
nothing else is known after it, and a chunk is as much of the front as was read. -/
inductive Pulls (l : Link τ) (room : Nat) :
    Filling τ room → Option Bytes → Filling τ room → Prop
  | closed {s : Filling τ room} (ho : l.isOpen s.transport = false) : Pulls l room s none s
  | nothing {s m s' : Filling τ room} {answer : Option Bytes}
      (ho : l.isOpen s.transport = true)
      (hr : l.read room s.transport = (.ok [], m.transport)) (h : Pulls l room m answer s') :
      Pulls l room s answer s'
  | chunk {s s' : Filling τ room} {b : UInt8} {bytes : Bytes}
      (ho : l.isOpen s.transport = true)
      (hr : l.read room s.transport = (.ok (b :: bytes), s'.transport))
      (hb : b :: bytes <+: s'.buffer) :
      Pulls l room s (some (s'.buffer.take (b :: bytes).length)) s'
  | failed {s s' : Filling τ room} {e : StreamError} (ho : l.isOpen s.transport = true)
      (hr : l.read room s.transport = (.error e, s'.transport)) : Pulls l room s none s'

/-- **Nothing that was in the buffer before shows in a chunk.** -/
theorem Pulls.link {l : Link τ} {s s' : Filling τ room} {answer : Option Bytes}
    (h : Pulls l room s answer s') : l.Pulls room s.transport answer s'.transport := by
  induction h with
  | closed ho => exact .closed ho
  | nothing ho hr h ih => exact .nothing ho hr ih
  | chunk ho hr hb =>
      rw [← List.prefix_iff_eq_take.mp hb]
      exact .chunk ho hr
  | failed ho hr => exact .failed ho hr

/-- A buffer in which some bytes have been overwritten from the front. -/
def fill (s : Filling τ room) (bytes : Bytes) (h : bytes.length ≤ room) (t : τ) :
    Filling τ room where
  buffer := bytes ++ s.buffer.drop bytes.length
  length_buffer := by
    rw [List.length_append, List.length_drop, s.length_buffer]
    omega
  transport := t

/-- As long as no read yields more than the buffer holds, each finds its place in it. -/
theorem pulls_of_link {l : Link τ}
    (hfit : ∀ {t t' : τ} {bytes : Bytes}, l.isOpen t = true →
      l.read room t = (.ok bytes, t') → bytes.length ≤ room)
    {t t' : τ} {answer : Option Bytes} (h : l.Pulls room t answer t') (s : Filling τ room)
    (hs : s.transport = t) : ∃ s', Pulls l room s answer s' ∧ s'.transport = t' := by
  induction h generalizing s with
  | closed ho =>
      subst hs
      exact ⟨s, .closed ho, rfl⟩
  | @nothing t m t' answer ho hr h ih =>
      subst hs
      obtain ⟨s', hp, hs'⟩ := ih (s.fill [] (Nat.zero_le room) m) rfl
      exact ⟨s', .nothing ho hr hp, hs'⟩
  | @chunk t t' b bytes ho hr =>
      subst hs
      let filled := s.fill (b :: bytes) (hfit ho hr) t'
      have hb : b :: bytes <+: filled.buffer := List.prefix_append _ _
      have hp : Pulls l room s (some (filled.buffer.take (b :: bytes).length)) filled :=
        .chunk ho hr hb
      rw [← List.prefix_iff_eq_take.mp hb] at hp
      exact ⟨filled, hp, rfl⟩
  | @failed t t' e ho hr =>
      subst hs
      exact ⟨s.fill [] (Nat.zero_le room) t', .failed ho hr, rfl⟩

theorem conveys {l : Link τ} {queue : τ → List ReadEvent} (h : l.HandsOut queue)
    (pos : 0 < room) :
    Conveys (Pulls l room) room (fun s => l.toDeliver queue s.transport) := by
  refine .of_steps (fun s => ?_) (fun hp => h.pulls_some pos hp.link rfl)
    (fun hp => h.pulls_none pos hp.link rfl)
  obtain ⟨answer, t', hp⟩ := h.pulls_exists pos s.transport
  obtain ⟨s', hp', _⟩ := pulls_of_link (fun ho hr => (h.read_ok pos ho hr).1) hp s rfl
  exact ⟨answer, s', hp'⟩

end Filling

/-! ### Scripted links -/

namespace Rehearsal

/-- A wire hands out its script as it is. -/
theorem Wire.handsOut : (Transport.link Wire).HandsOut Wire.events where
  answer := by
    intro room t _ _
    show (Wire.read room t).1 = _
    unfold Wire.read
    split <;> next hm => rw [hm]; rfl
  rest := by
    intro room t _ ho he
    show Link.LeftWith _ _ (Wire.read room t).2 _
    unfold Link.LeftWith
    rw [if_pos]
    · unfold Wire.read
      split <;> next hm => rw [hm]
    · unfold Wire.read
      split <;> next hm => first | exact ho | simp [hm, ReadEvent.ends] at he
  closing := by
    intro room t _ _ hc
    show (Wire.read room t).2.isOpen = false
    unfold Wire.read
    split <;> next hm => first | rfl | simp [hm] at hc

/-- What a duplex transport makes of a script: it reads on when it is interrupted, and takes a
read that yields nothing for the end of the input. -/
def settled : List ReadEvent → List ReadEvent
  | .failure .interrupted :: rest => settled rest
  | .failure e :: rest => .failure e :: settled rest
  | .data (b :: bytes) :: rest => .data (b :: bytes) :: settled rest
  | .data [] :: rest => .closing :: settled rest
  | .nothing :: rest => .closing :: settled rest
  | .closing :: rest => .closing :: settled rest
  | [] => []

/-- What does not end a settled script has something in it. -/
theorem settled_goesOn {room : Nat} {events : List ReadEvent} (pos : 0 < room)
    (he : (meet room (settled events)).1.ends = false) :
    ∃ b bytes, (meet room (settled events)).1 = .data (b :: bytes) := by
  fun_induction settled events with
  | case1 rest ih => exact ih he
  | case2 e rest h ih => simp [meet, ReadEvent.ends] at he
  | case3 b bytes rest ih =>
      by_cases hfit : (b :: bytes).length ≤ room
      · rw [meet_of_fits hfit]
        exact ⟨b, bytes, rfl⟩
      · rw [meet_of_too_long hfit]
        obtain ⟨n, rfl⟩ := Nat.exists_eq_succ_of_ne_zero (Nat.ne_of_gt pos)
        exact ⟨b, bytes.take n, rfl⟩
  | case4 rest ih => simp [meet, ReadEvent.ends] at he
  | case5 rest ih => simp [meet, ReadEvent.ends] at he
  | case6 rest ih => simp [meet, ReadEvent.ends] at he
  | case7 => simp [meet, ReadEvent.ends] at he

/-- A read that is not interrupted is the last. -/
theorem Reading.readThrough_of_read {room : Nat} {r r' : Reading}
    {answer : Except StreamError Bytes} (h : r.read room = (answer, r'))
    (hi : answer ≠ .error .interrupted) : ReadEnd.readThrough room r = (answer, r') := by
  have hr : ReadEnd.read room r = (answer, r') := h
  rw [ReadEnd.readThrough, hr]
  split
  · next he => exact absurd (Prod.mk.inj he).1 hi
  · rfl

theorem Reading.readThrough_data {room : Nat} {events rest : List ReadEvent} {bytes : Bytes}
    (h : meet room events = (.data bytes, rest)) :
    ReadEnd.readThrough room (⟨events⟩ : Reading) = (.ok bytes, ⟨rest⟩) := by
  refine readThrough_of_read ?_ (by simp)
  unfold Reading.read
  rw [h]

/-- Reading until a read is not interrupted meets what comes next in the settled script. -/
theorem Reading.readThrough_settled (room : Nat) (events : List ReadEvent) :
    ∃ rest, ReadEnd.readThrough room (⟨events⟩ : Reading)
        = ((meet room (settled events)).1.answer, ⟨rest⟩) ∧
      settled rest = (meet room (settled events)).2 := by
  fun_induction settled events with
  | case1 rest ih =>
      obtain ⟨left, hr, hs⟩ := ih
      refine ⟨left, ?_, hs⟩
      rw [ReadEnd.readThrough]
      exact hr
  | case2 e rest h ih =>
      have he : Except.error e ≠ (.error .interrupted : Except StreamError Bytes) :=
        fun he => h (Except.error.inj he)
      exact ⟨rest, readThrough_of_read rfl he, rfl⟩
  | case3 b bytes rest ih =>
      by_cases hfit : (b :: bytes).length ≤ room
      · rw [meet_of_fits hfit]
        exact ⟨rest, readThrough_data (meet_of_fits hfit), rfl⟩
      · rw [meet_of_too_long hfit]
        refine ⟨_, readThrough_data (meet_of_too_long hfit), ?_⟩
        -- What is left of the data has something in it, so it is data when it is settled too.
        have hlen : ((b :: bytes).drop room).length ≠ 0 := by
          rw [List.length_drop]
          omega
        obtain ⟨c, left, hdrop⟩ := List.exists_cons_of_length_pos (Nat.pos_of_ne_zero hlen)
        rw [hdrop]
        rfl
  | case4 rest ih =>
      have hfit : ([] : Bytes).length ≤ room := Nat.zero_le room
      exact ⟨rest, readThrough_data (meet_of_fits hfit), rfl⟩
  | case5 rest ih => exact ⟨rest, readThrough_of_read rfl (by simp [meet, ReadEvent.answer]), rfl⟩
  | case6 rest ih => exact ⟨rest, readThrough_of_read rfl (by simp [meet, ReadEvent.answer]), rfl⟩
  | case7 => exact ⟨[], readThrough_of_read rfl (by simp [meet, ReadEvent.answer]), rfl⟩

end Rehearsal

/-- A duplex transport hands out its script as it is settled. -/
theorem Duplex.handsOut {ω : Type} [WriteEnd ω] :
    (Transport.link (Duplex Reading ω)).HandsOut (fun d => settled d.reader.events) where
  answer := by
    intro room d _ _
    obtain ⟨rest, hr, hs⟩ := Reading.readThrough_settled room d.reader.events
    have hanswer : (ReadEnd.readThrough room d.reader).1
        = (meet room (settled d.reader.events)).1.answer := congrArg Prod.fst hr
    show (Duplex.read room d).1 = _
    rw [← hanswer]
    unfold Duplex.read
    split <;> next hm => exact (congrArg Prod.fst hm).symm
  rest := by
    intro room d pos ho he
    obtain ⟨rest, hr, hs⟩ := Reading.readThrough_settled room d.reader.events
    obtain ⟨b, bytes, hevent⟩ := settled_goesOn pos he
    rw [hevent] at hr
    have hread : Duplex.read room d = (.ok (b :: bytes), { d with reader := ⟨rest⟩ }) := by
      unfold Duplex.read
      rw [hr]
      rfl
    show Link.LeftWith _ _ (Duplex.read room d).2 _
    rw [hread]
    exact (if_pos ho).mpr hs
  closing := by
    intro room d _ _ hc
    obtain ⟨rest, hr, hs⟩ := Reading.readThrough_settled room d.reader.events
    rw [hc] at hr
    show (Duplex.read room d).2.isOpen = false
    unfold Duplex.read
    rw [hr]
    rfl

/-! ### Every capacity -/

namespace Buffered

variable {τ : Type} [Transport τ]

theorem next_link {s s' : Buffered τ} {answer : Option Bytes}
    (h : ByteStream.next s = (answer, s')) :
    (Transport.link τ).Pulls s.capacity s.transport answer s'.transport ∧
      s'.capacity = s.capacity := by
  obtain ⟨rfl, rfl⟩ := Prod.mk.inj h
  exact ⟨pulls_next s.capacity_pos s.transport, rfl⟩

/-- The chunks of a buffered stream come of calls up to the end. -/
theorem drains_chunks (s : Buffered τ) :
    ∃ t', Drains ((Transport.link τ).Pulls s.capacity) s.transport (ByteStream.chunks s) t' := by
  fun_induction ByteStream.chunks s with
  | case1 s chunk s' hn ih =>
      obtain ⟨hp, hcap⟩ := next_link hn
      obtain ⟨t', hd⟩ := ih
      rw [hcap] at hd
      exact ⟨t', .chunk hp hd⟩
  | case2 s s' hn => exact ⟨s'.transport, .ended (next_link hn).1⟩

end Buffered

/-- What a stream over a link comes to that hands out a queue, whatever its capacity. -/
structure Link.Delivery {τ : Type} (l : Link τ) (queue : τ → List ReadEvent) : Prop where
  /-- Whatever is in the buffer, the stream delivers what the queue holds up to the first failure
  or closing. -/
  conveys : ∀ capacity, Conveys (Filling.Pulls l (max capacity 1)) (max capacity 1)
    (fun s => l.toDeliver queue s.transport)
  /-- So it is the same for any two capacities. -/
  same : ∀ {c c' : Nat} {s m : Filling τ (max c 1)} {s' m' : Filling τ (max c' 1)}
    {chunks chunks' : List Bytes}, s.transport = s'.transport →
    Drains (Filling.Pulls l (max c 1)) s chunks m →
      Drains (Filling.Pulls l (max c' 1)) s' chunks' m' → chunks.flatten = chunks'.flatten
  /-- A buffered stream over a transport answers every call that way. -/
  next : ∀ [Transport τ], l = Transport.link τ → ∀ {capacity : Nat}
    {s s' : Filling τ (max capacity 1)} {answer : Option Bytes},
    Filling.Pulls l (max capacity 1) s answer s' →
      ByteStream.next (Buffered.ofTransport capacity s.transport)
        = (answer, Buffered.ofTransport capacity s'.transport)
  /-- And its chunks up to the end are what there is. -/
  chunks : ∀ [Transport τ], l = Transport.link τ → ∀ (capacity : Nat) (t : τ),
    (ByteStream.chunks (Buffered.ofTransport capacity t)).flatten = l.toDeliver queue t

/--
**A stream delivers the bytes of its transport unchanged, for every capacity.**  If a link hands
out a finite queue of read results, then every call is answered, every chunk has something in it
and fits in the buffer, and the chunks up to the first end are the data of the queue up to the
first read that fails or finds the link closed.
-/
theorem Link.delivery {τ : Type} {l : Link τ} {queue : τ → List ReadEvent}
    (h : l.HandsOut queue) : l.Delivery queue where
  conveys capacity := Filling.conveys h (Nat.le_max_right capacity 1)
  same := by
    intro c c' s m s' m' chunks chunks' hs hd hd'
    rw [(Filling.conveys h (Nat.le_max_right c 1)).whole hd,
      (Filling.conveys h (Nat.le_max_right c' 1)).whole hd', hs]
  next := by
    intro _ hl capacity s s' answer hp
    subst hl
    have hn := (Buffered.pulls_iff (Nat.le_max_right capacity 1)).mp hp.link
    obtain ⟨hanswer, htransport⟩ := Prod.ext_iff.mp hn
    exact Prod.ext hanswer (congrArg (Buffered.ofTransport capacity) htransport)
  chunks := by
    intro _ hl capacity t
    subst hl
    obtain ⟨t', hd⟩ := Buffered.drains_chunks (Buffered.ofTransport capacity t)
    exact (h.conveys (Nat.le_max_right capacity 1)).whole hd

/-- A buffer without room is given room for one byte.  Reads that yield nothing do not show, and
nothing is delivered behind a failure, or behind the first such read of a duplex transport. -/
theorem Link.delivery_byte_by_byte :
    let wire : Wire :=
      ⟨[.data [0x61, 0x62], .nothing, .data [], .data [0x63], .failure .timedOut, .data [0x64]],
        {}, true⟩
    let duplex : Duplex Reading Writing :=
      ⟨⟨[.data [0x61, 0x62], .failure .interrupted, .data [0x63], .nothing, .data [0x64]]⟩, {},
        true⟩
    (Transport.link Wire).HandsOut Wire.events ∧
    ByteStream.chunks (Buffered.ofTransport 0 wire) = [[0x61], [0x62], [0x63]] ∧
    (∀ capacity, (ByteStream.chunks (Buffered.ofTransport capacity wire)).flatten
      = [0x61, 0x62, 0x63]) ∧
    ∀ capacity, (ByteStream.chunks (Buffered.ofTransport capacity duplex)).flatten
      = [0x61, 0x62, 0x63] := by
  refine ⟨Wire.handsOut, by decide +kernel, ?_, ?_⟩
  · intro capacity
    exact (delivery Wire.handsOut).chunks rfl capacity _
  · intro capacity
    exact (delivery Duplex.handsOut).chunks rfl capacity _

end CommandShell
