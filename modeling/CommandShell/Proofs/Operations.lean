/-
Sessions from outside.

Whoever has a session takes a cycle or runs it, sets the label of the prompt, or adds to the
stream, in any order: these are the operations, and `operateAll` does some of them and keeps the
cycles that each of them came to.

A cycle keeps the tree and does nothing to the reader but use it, and it ends the session on `exit`
or at the end of the input (`step_closes`).  A run is so many cycles (`run_cycles`), so only one
cycle has to be looked at to show what all operations keep (`operateAll_keeps`).
-/
import CommandShell.Proofs.Session

namespace CommandShell

/-- What is done with a session from outside. -/
inductive Operation (σ : Type)
  /-- One cycle. -/
  | step
  /-- Cycles until the session is over. -/
  | run
  /-- Another label for the prompt. -/
  | setPrompt (label : String)
  /-- A change to the stream that no cycle has a part in, such as more input. -/
  | push (f : σ → σ)

namespace Shell

variable {σ η ν : Type} [ByteStream σ]

/-- Does an operation, and tells the cycles it came to. -/
def operate (perform : η → Invocation η → Act ν Unit) (op : Operation σ) (sh : Shell σ η) :
    List (Cycle η ν) × Shell σ η :=
  match op with
  | .step => ([(step perform sh).1], (step perform sh).2)
  | .run => run perform sh
  | .setPrompt label => ([], sh.setPrompt label)
  | .push f => ([], sh.mapSource f)

/-- Does some operations, and tells of each the cycles it came to. -/
def operateAll (perform : η → Invocation η → Act ν Unit) (ops : List (Operation σ))
    (sh : Shell σ η) : List (List (Cycle η ν)) × Shell σ η :=
  match ops with
  | [] => ([], sh)
  | op :: ops =>
    let first := operate perform op sh
    let rest := operateAll perform ops first.2
    (first.1 :: rest.1, rest.2)

variable {perform : η → Invocation η → Act ν Unit}

/-! ### The tree -/

theorem invoke_tree (handle : Invocation η → Act ν Unit) (i : Invocation η) (sh : Shell σ η) :
    (sh.invoke handle i).2.tree = sh.tree := by
  unfold invoke
  simp only
  split <;> rfl

theorem dispatch_tree (perform : η → Invocation η → Act ν Unit) (statement : Record)
    (sh : Shell σ η) : (dispatch perform statement sh).2.tree = sh.tree := by
  have hd := dispatches perform statement sh
  generalize dispatch perform statement sh = out at hd ⊢
  cases hd with
  | ran => exact invoke_tree _ _ _
  | _ => rfl

theorem step_tree (perform : η → Invocation η → Act ν Unit) (sh : Shell σ η) :
    (step perform sh).2.tree = sh.tree := by
  rcases step_cases perform sh with ⟨_, hs⟩ | ⟨_, c, _, hs⟩ | ⟨_, statement, c, _, hs⟩
  · rw [hs]
  · rw [hs]
    rfl
  · rw [hs, dispatch_tree]
    rfl

/-! ### The reader -/

/-- Whatever a cycle does, it does nothing to the reader but use it. -/
theorem step_used (perform : η → Invocation η → Act ν Unit) (sh : Shell σ η) :
    ∃ d, Reader.Used sh.console.reader d (step perform sh).2.console.reader := by
  obtain ⟨d, hd⟩ := Reader.used_next .statement sh.asked.console.reader
  rcases step_cases perform sh with ⟨_, hs⟩ | ⟨_, c, hr, hs⟩ | ⟨_, statement, c, hr, hs⟩
  · rw [hs]
    exact ⟨[], .start⟩
  · rw [Console.read_next hr] at hd
    rw [hs]
    exact ⟨_, (reply_used _ sh).trans hd⟩
  · rw [Console.read_next hr] at hd
    obtain ⟨e, he⟩ := dispatch_used perform statement { sh.asked with console := c }
    rw [hs]
    exact ⟨_, ((reply_used _ sh).trans hd).trans he⟩

/-! ### What ends a session -/

theorem not_exit {statement : Record} {first : Bytes} {rest : List Bytes}
    (ht : statement.tokens = first :: rest) (hb : Builtin.ofToken? first ≠ some .exit) :
    ¬ ∃ rest, statement.tokens = textBytes "exit" :: rest := by
  intro h
  obtain ⟨rest', hexit⟩ := h
  rw [ht, List.cons.injEq] at hexit
  exact hb (Builtin.ofToken?_eq_some_iff.mpr hexit.1)

theorem dispatch_closes {statement : Record} {sh : Shell σ η} (h : sh.state ≠ .closed) :
    (dispatch perform statement sh).2.state = .closed ↔
      ∃ rest, statement.tokens = textBytes "exit" :: rest := by
  have hd := dispatches perform statement sh
  generalize dispatch perform statement sh = out at hd ⊢
  cases hd with
  | idle ht => simp [h, ht]
  | @left first rest ht hb =>
      obtain rfl := Builtin.ofToken?_eq_some_iff.mp hb
      exact iff_of_true rfl ⟨rest, ht⟩
  | helped ht hb => exact iff_of_false h (not_exit ht (by simp [hb]))
  | notFound ht hb => exact iff_of_false h (not_exit ht (by simp [hb]))
  | listed ht hb => exact iff_of_false h (not_exit ht (by simp [hb]))
  | ran ht hb =>
      rw [invoke_state]
      exact iff_of_false (by simp) (not_exit ht (by simp [hb]))

/-- **A cycle that starts open ends the session on `exit` or at the end of the input**, and on
nothing else. -/
theorem step_closes {sh : Shell σ η} (h : sh.state ≠ .closed) :
    (step perform sh).2.state = .closed ↔
      (sh.asked.console.read .statement).1 = none ∨
        ∃ statement rest, (sh.asked.console.read .statement).1 = some statement ∧
          statement.tokens = textBytes "exit" :: rest := by
  rcases hr : sh.asked.console.read .statement with ⟨_ | statement, c⟩
  · rw [step_ended h hr]
    exact iff_of_true rfl (Or.inl rfl)
  · have hopen : ({ sh.asked with console := c } : Shell σ η).state ≠ .closed := h
    rw [step_read h hr, dispatch_closes hopen]
    constructor
    · intro hexit
      obtain ⟨rest, hexit⟩ := hexit
      exact Or.inr ⟨statement, rest, rfl, hexit⟩
    · intro hcause
      rcases hcause with hnone | ⟨statement', rest, hsome, hexit⟩
      · exact absurd hnone (by simp)
      · obtain rfl := Option.some.inj hsome
        exact ⟨rest, hexit⟩

/-! ### A run is so many cycles -/

/-- A run comes to what a number of single cycles come to. -/
theorem run_cycles (perform : η → Invocation η → Act ν Unit) (sh : Shell σ η) :
    ∃ n, operateAll perform (List.replicate n .step) sh
      = ((run perform sh).1.map fun cycle => [cycle], (run perform sh).2) := by
  fun_induction run perform sh with
  | case1 sh s hflow => exact ⟨1, rfl⟩
  | case2 sh s hflow rest ih =>
      obtain ⟨n, hn⟩ := ih
      refine ⟨n + 1, ?_⟩
      show ([s.1] :: (operateAll perform (List.replicate n .step) s.2).1,
        (operateAll perform (List.replicate n .step) s.2).2) = _
      rw [hn]
      rfl

/-- A run only stops when the session is over. -/
theorem run_state (perform : η → Invocation η → Act ν Unit) (sh : Shell σ η) :
    (run perform sh).2.state = .closed := by
  fun_induction run perform sh with
  | case1 sh s hflow => exact (step_flow perform sh).mp hflow
  | case2 sh s hflow rest ih => exact ih

/-! ### What every operation keeps -/

theorem run_keeps {P : Shell σ η → Prop} (hstep : ∀ sh, P sh → P (step perform sh).2)
    {sh : Shell σ η} (h : P sh) : P (run perform sh).2 := by
  fun_induction run perform sh with
  | case1 sh s hflow => exact hstep sh h
  | case2 sh s hflow rest ih => exact ih (hstep sh h)

/-- What a cycle keeps and what does not depend on the label or on the stream as it is changed
from outside, all operations keep. -/
theorem operateAll_keeps {P : Shell σ η → Prop} (hstep : ∀ sh, P sh → P (step perform sh).2)
    (hlabel : ∀ label sh, P sh → P (setPrompt label sh)) {ops : List (Operation σ)}
    (hpush : ∀ f, .push f ∈ ops → ∀ sh, P sh → P (mapSource f sh)) {sh : Shell σ η} (h : P sh) :
    P (operateAll perform ops sh).2 := by
  induction ops generalizing sh with
  | nil => exact h
  | cons op ops ih =>
      have hrest : ∀ f, .push f ∈ ops → ∀ sh, P sh → P (mapSource f sh) :=
        fun f hf => hpush f (List.mem_cons_of_mem _ hf)
      cases op with
      | step => exact ih hrest (hstep sh h)
      | run => exact ih hrest (run_keeps hstep h)
      | setPrompt label => exact ih hrest (hlabel label sh h)
      | push f => exact ih hrest (hpush f List.mem_cons_self sh h)

theorem operateAll_tree (perform : η → Invocation η → Act ν Unit) (ops : List (Operation σ))
    (sh : Shell σ η) : (operateAll perform ops sh).2.tree = sh.tree := by
  apply operateAll_keeps (P := fun sh' => sh'.tree = sh.tree)
  · intro sh' h
    rw [step_tree, h]
  · intro label sh' h
    exact h
  · intro f _ sh' h
    exact h
  · rfl

end Shell

end CommandShell
