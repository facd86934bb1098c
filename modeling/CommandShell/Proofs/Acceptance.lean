/-
Which forests are accepted, and what is said of the others.

A forest is looked through group by group.  A `Group` is what stands next to each other with the
name it stands under, and a place tells where a group is: which member to go below, level by level.
Groups come in the order of their places, first one first, a place before all that it begins.  That
is what looking through a group before anything below its members, and below one member before the
next, comes to, and `firstViolation?_eq_some_iff` says so: what is reported of a forest is wrong at
the first place where anything is.

Reserved words are looked for before all that, on the first level only.

The induction is on groups (`Group.induction`), and every fact about a forest is one about a group
and the groups right below it.
-/
import CommandShell.Command.Tree
import Mathlib.Data.List.Nodup

namespace CommandShell

variable {η : Type}

/-! ### Groups -/

/-- Commands next to each other, and the name of the command they are below, if there is one. -/
structure Group (η : Type) where
  parent : Option String
  members : List (Command η)

/-- The first level of a forest. -/
def Group.top (roots : List (Command η)) : Group η :=
  ⟨none, roots⟩

/-- What is right below a command. -/
def Command.group (c : Command η) : Group η :=
  ⟨some c.name, c.children⟩

/-- Every name that is given in a group, as often as it is given. -/
def Group.names (g : Group η) : List String :=
  g.members.flatMap Command.names

/-- No name is empty, and none is there twice. -/
structure Unambiguous (names : List String) : Prop where
  nonempty : "" ∉ names
  nodup : names.Nodup

/-- The group at a place under a group, which tells level by level below which member to go. -/
inductive GroupAt : Group η → List Nat → Group η → Prop
  | here {g : Group η} : GroupAt g [] g
  | deeper {g h : Group η} {i : Nat} {c : Command η} {place : List Nat}
      (hc : g.members[i]? = some c) (hat : GroupAt c.group place h) : GroupAt g (i :: place) h

/-- The first thing that is wrong in a group by itself: up to there the names are unambiguous. -/
inductive Group.FirstWrong (g : Group η) : TreeError → Prop
  | emptyName {before after : List String} (hnames : g.names = before ++ "" :: after)
      (hbefore : Unambiguous before) : FirstWrong g (.emptyName g.parent)
  | duplicate {before after : List String} {name : String}
      (hnames : g.names = before ++ name :: after) (hbefore : Unambiguous before)
      (hne : name ≠ "") (hmem : name ∈ before) : FirstWrong g (.duplicate g.parent name)

/-- The first thing that is wrong at the first place under a group where anything is. -/
def Group.FirstViolation (g : Group η) (e : TreeError) : Prop :=
  ∃ place h, GroupAt g place h ∧ h.FirstWrong e ∧
    ∀ earlier h', List.Lex (· < ·) earlier place → GroupAt g earlier h' → Unambiguous h'.names

/-- Nothing is wrong anywhere under a group. -/
def Group.Sound (g : Group η) : Prop :=
  ∀ place h, GroupAt g place h → Unambiguous h.names

theorem Command.group_smaller {g : Group η} {c : Command η} (hc : c ∈ g.members) :
    sizeOf c.group.members < sizeOf g.members := by
  have hlt := List.sizeOf_lt_of_mem hc
  obtain ⟨name, aliases, handler, help, description, children⟩ := c
  simp only [Command.mk.sizeOf_spec] at hlt
  simp only [Command.group]
  omega

/-- What a group takes over from the groups below its members is true of every group. -/
theorem Group.induction {motive : Group η → Prop}
    (step : ∀ g : Group η, (∀ c ∈ g.members, motive c.group) → motive g) (g : Group η) :
    motive g :=
  step g fun c _hc => Group.induction step c.group
termination_by sizeOf g.members
decreasing_by exact Command.group_smaller _hc

theorem Group.sound_iff {g : Group η} :
    g.Sound ↔ Unambiguous g.names ∧ ∀ c ∈ g.members, c.group.Sound := by
  constructor
  · intro h
    refine ⟨h [] g .here, ?_⟩
    intro c hc place g' hat
    obtain ⟨i, hi⟩ := List.mem_iff_getElem?.mp hc
    exact h (i :: place) g' (.deeper hi hat)
  · intro h place g' hat
    cases hat with
    | here => exact h.1
    | deeper hc hat => exact h.2 _ (List.mem_of_getElem? hc) _ _ hat

/-! ### One group -/

theorem unambiguous_nil : Unambiguous [] :=
  ⟨List.not_mem_nil, List.nodup_nil⟩

theorem unambiguous_cons {name : String} {names : List String} :
    Unambiguous (name :: names) ↔ name ≠ "" ∧ name ∉ names ∧ Unambiguous names := by
  constructor
  · intro h
    obtain ⟨hnew, hnodup⟩ := List.nodup_cons.mp h.nodup
    obtain ⟨hempty, hrest⟩ := not_or.mp (mt List.mem_cons.mpr h.nonempty)
    exact ⟨Ne.symm hempty, hnew, hrest, hnodup⟩
  · intro h
    obtain ⟨hempty, hnew, hrest⟩ := h
    refine ⟨?_, List.nodup_cons.mpr ⟨hnew, hrest.nodup⟩⟩
    exact mt List.mem_cons.mp (not_or.mpr ⟨Ne.symm hempty, hrest.nonempty⟩)

namespace CommandTree

variable {parent : Option String} {seen names : List String}

theorem groupViolation?_eq_none_iff :
    groupViolation? parent seen names = none ↔ Unambiguous names ∧ names.Disjoint seen := by
  induction names generalizing seen with
  | nil => simpa [groupViolation?] using unambiguous_nil
  | cons name rest ih =>
      rw [unambiguous_cons, List.disjoint_cons_left]
      by_cases hempty : name = ""
      · simp [groupViolation?, hempty]
      by_cases hmem : name ∈ seen
      · simp [groupViolation?, hempty, hmem]
      rw [groupViolation?, if_neg hempty, if_neg hmem, ih, List.disjoint_cons_right]
      constructor
      · intro h
        obtain ⟨hrest, hnew, hfresh⟩ := h
        exact ⟨⟨hempty, hnew, hrest⟩, hmem, hfresh⟩
      · intro h
        obtain ⟨⟨_, hnew, hrest⟩, _, hfresh⟩ := h
        exact ⟨hrest, hnew, hfresh⟩

/-- Names that are new and unambiguous are passed over, and remembered. -/
theorem groupViolation?_append {before : List String} (hbefore : Unambiguous before)
    (hfresh : before.Disjoint seen) (rest : List String) :
    groupViolation? parent seen (before ++ rest)
      = groupViolation? parent (before.reverse ++ seen) rest := by
  induction before generalizing seen with
  | nil => rfl
  | cons name before ih =>
      obtain ⟨hempty, hnew, hbefore⟩ := unambiguous_cons.mp hbefore
      obtain ⟨hmem, hfresh⟩ := List.disjoint_cons_left.mp hfresh
      rw [List.cons_append, groupViolation?, if_neg hempty, if_neg hmem,
        ih hbefore (List.disjoint_cons_right.mpr ⟨hnew, hfresh⟩)]
      simp

/-- What is reported is wrong, and nothing before it is. -/
theorem groupViolation?_some {e : TreeError} (h : groupViolation? parent seen names = some e) :
    ∃ before name after, names = before ++ name :: after ∧ Unambiguous before ∧
      before.Disjoint seen ∧
      (name = "" ∧ e = .emptyName parent ∨
        name ≠ "" ∧ (name ∈ before ∨ name ∈ seen) ∧ e = .duplicate parent name) := by
  induction names generalizing seen with
  | nil => simp [groupViolation?] at h
  | cons name rest ih =>
      by_cases hempty : name = ""
      · rw [groupViolation?, if_pos hempty, Option.some.injEq] at h
        exact ⟨[], name, rest, rfl, unambiguous_nil, List.disjoint_nil_left seen,
          Or.inl ⟨hempty, h.symm⟩⟩
      by_cases hmem : name ∈ seen
      · rw [groupViolation?, if_neg hempty, if_pos hmem, Option.some.injEq] at h
        exact ⟨[], name, rest, rfl, unambiguous_nil, List.disjoint_nil_left seen,
          Or.inr ⟨hempty, Or.inr hmem, h.symm⟩⟩
      rw [groupViolation?, if_neg hempty, if_neg hmem] at h
      obtain ⟨before, wrong, after, hrest, hbefore, hfresh, hwrong⟩ := ih h
      obtain ⟨hnew, hfresh⟩ := List.disjoint_cons_right.mp hfresh
      refine ⟨name :: before, wrong, after, by rw [hrest]; rfl,
        unambiguous_cons.mpr ⟨hempty, hnew, hbefore⟩,
        List.disjoint_cons_left.mpr ⟨hmem, hfresh⟩, ?_⟩
      rcases hwrong with hwrong | ⟨hne, hin, he⟩
      · exact Or.inl hwrong
      · refine Or.inr ⟨hne, ?_, he⟩
        rcases hin with hin | hin
        · exact Or.inl (List.mem_cons_of_mem name hin)
        · rcases List.mem_cons.mp hin with rfl | hin
          · exact Or.inl List.mem_cons_self
          · exact Or.inr hin

end CommandTree

namespace Group

open CommandTree

/-- What is found in a group by itself. -/
def violation? (g : Group η) : Option TreeError :=
  groupViolation? g.parent [] g.names

theorem violation?_eq_none_iff {g : Group η} : g.violation? = none ↔ Unambiguous g.names := by
  unfold violation?
  rw [groupViolation?_eq_none_iff]
  simp

theorem violation?_eq_some_iff {g : Group η} {e : TreeError} :
    g.violation? = some e ↔ g.FirstWrong e := by
  constructor
  · intro h
    obtain ⟨before, name, after, hnames, hbefore, _, hwrong⟩ := groupViolation?_some h
    rcases hwrong with ⟨rfl, rfl⟩ | ⟨hne, hmem, rfl⟩
    · exact .emptyName hnames hbefore
    · exact .duplicate hnames hbefore hne (by simpa using hmem)
  · intro h
    unfold violation?
    cases h with
    | @emptyName before after hnames hbefore =>
        rw [hnames, groupViolation?_append hbefore (by simp)]
        rfl
    | @duplicate before after name hnames hbefore hne hmem =>
        rw [hnames, groupViolation?_append hbefore (by simp), groupViolation?, if_neg hne,
          if_pos (by simpa using hmem)]

/-! ### Group by group -/

/-- What is found in a group and everywhere below its members. -/
def firstViolation? (g : Group η) : Option TreeError :=
  g.violation?.or (violationBelowAny? g.members)

theorem violationBelow?_eq (c : Command η) : violationBelow? c = c.group.firstViolation? := by
  obtain ⟨name, aliases, handler, help, description, children⟩ := c
  rw [violationBelow?]
  rfl

theorem violationBelowAny?_eq (cs : List (Command η)) :
    violationBelowAny? cs = cs.findSome? fun c => c.group.firstViolation? := by
  induction cs with
  | nil => rfl
  | cons c cs ih =>
      rw [violationBelowAny?, List.findSome?_cons, violationBelow?_eq, ih]
      cases c.group.firstViolation? <;> rfl

/-- Nothing is found if and only if nothing is wrong. -/
theorem firstViolation?_eq_none_iff {g : Group η} : g.firstViolation? = none ↔ g.Sound := by
  induction g using Group.induction with
  | step g ih =>
      rw [sound_iff, firstViolation?, Option.or_eq_none_iff, violation?_eq_none_iff,
        violationBelowAny?_eq, List.findSome?_eq_none_iff]
      constructor
      · intro h
        exact ⟨h.1, fun c hc => (ih c hc).mp (h.2 c hc)⟩
      · intro h
        exact ⟨h.1, fun c hc => (ih c hc).mpr (h.2 c hc)⟩

/-- What stands at an index has the others before it and behind it. -/
theorem split_at_index {α : Type} {l : List α} {i : Nat} {a : α} (h : l[i]? = some a) :
    ∃ u v, l = u ++ a :: v ∧ u.length = i := by
  obtain ⟨hi, ha⟩ := List.getElem?_eq_some_iff.mp h
  refine ⟨l.take i, l.drop (i + 1), ?_, by simp; omega⟩
  rw [← ha, ← List.drop_eq_getElem_cons hi, List.take_append_drop]

/-- **What is found is wrong at the first place where anything is.** -/
theorem firstViolation?_eq_some_iff {g : Group η} {e : TreeError} :
    g.firstViolation? = some e ↔ g.FirstViolation e := by
  induction g using Group.induction with
  | step g ih =>
      rw [firstViolation?, Option.or_eq_some_iff, violationBelowAny?_eq,
        List.findSome?_eq_some_iff]
      constructor
      · intro h
        rcases h with hhere | ⟨hhere, u, c, v, hmembers, hc, hnone⟩
        · refine ⟨[], g, .here, violation?_eq_some_iff.mp hhere, ?_⟩
          intro earlier g' hearlier _
          cases hearlier
        · have hcmem : c ∈ g.members := by simp [hmembers]
          obtain ⟨place, g', hat, hwrong, hfirst⟩ := (ih c hcmem).mp hc
          refine ⟨u.length :: place, g', .deeper (by simp [hmembers]) hat, hwrong, ?_⟩
          intro earlier k hearlier hk
          cases hk with
          | here => exact violation?_eq_none_iff.mp hhere
          | @deeper _ _ i d p hd hk =>
              cases hearlier with
              | rel hlt =>
                  rw [hmembers, List.getElem?_append_left hlt] at hd
                  exact firstViolation?_eq_none_iff.mp (hnone d (List.mem_of_getElem? hd)) p k hk
              | cons hearlier =>
                  have hdc : d = c := by simpa [hmembers] using hd.symm
                  rw [hdc] at hk
                  exact hfirst p k hearlier hk
      · intro h
        obtain ⟨place, g', hat, hwrong, hfirst⟩ := h
        cases hat with
        | here => exact Or.inl (violation?_eq_some_iff.mpr hwrong)
        | @deeper _ _ i c p hc hat =>
            refine Or.inr ⟨violation?_eq_none_iff.mpr (hfirst [] g .nil .here), ?_⟩
            obtain ⟨u, v, hmembers, hlen⟩ := split_at_index hc
            refine ⟨u, c, v, hmembers, ?_, ?_⟩
            · refine (ih c (List.mem_of_getElem? hc)).mpr ⟨p, g', hat, hwrong, ?_⟩
              intro earlier k hearlier hk
              exact hfirst (i :: earlier) k (.cons hearlier) (.deeper hc hk)
            · intro d hd
              obtain ⟨j, hj, hjd⟩ := List.getElem_of_mem hd
              refine firstViolation?_eq_none_iff.mpr ?_
              intro earlier k hk
              refine hfirst (j :: earlier) k (.rel (hlen ▸ hj)) (.deeper ?_ hk)
              rw [hmembers, List.getElem?_append_left hj, List.getElem?_eq_getElem hj, hjd]

end Group

/-! ### Reserved words -/

/-- The two words that no command of the first level can be called by. -/
def IsReserved (name : String) : Prop :=
  name = "help" ∨ name = "exit"

/-- The first of some names that is reserved. -/
def FirstReserved (names : List String) (name : String) : Prop :=
  IsReserved name ∧ ∃ before after, names = before ++ name :: after ∧
    ∀ n ∈ before, ¬ IsReserved n

theorem Builtin.isSome_ofToken?_iff {name : String} :
    (Builtin.ofToken? (textBytes name)).isSome = true ↔ IsReserved name := by
  rw [Option.isSome_iff_exists]
  simp only [Builtin.ofToken?_eq_some_iff, textBytes_inj]
  constructor
  · intro h
    obtain ⟨b, rfl⟩ := h
    cases b with
    | help => exact Or.inl rfl
    | exit => exact Or.inr rfl
  · intro h
    rcases h with rfl | rfl
    · exact ⟨.help, rfl⟩
    · exact ⟨.exit, rfl⟩

namespace CommandTree

variable {roots : List (Command η)}

theorem reserved?_eq_none_iff :
    reserved? roots = none ↔ ∀ name ∈ (Group.top roots).names, ¬ IsReserved name := by
  simp only [reserved?, Option.map_eq_none_iff, List.find?_eq_none,
    Builtin.isSome_ofToken?_iff]
  rfl

theorem reserved?_eq_some_iff {e : TreeError} :
    reserved? roots = some e ↔
      ∃ name, e = .reserved name ∧ FirstReserved (Group.top roots).names name := by
  unfold reserved?
  rw [Option.map_eq_some_iff]
  constructor
  · intro h
    obtain ⟨name, hfind, rfl⟩ := h
    obtain ⟨hname, before, after, hnames, hbefore⟩ := List.find?_eq_some_iff_append.mp hfind
    refine ⟨name, rfl, Builtin.isSome_ofToken?_iff.mp hname, before, after, hnames, ?_⟩
    intro n hn hreserved
    have hfalse := hbefore n hn
    rw [Builtin.isSome_ofToken?_iff.mpr hreserved] at hfalse
    exact absurd hfalse (by simp)
  · intro h
    obtain ⟨name, rfl, hname, before, after, hnames, hbefore⟩ := h
    refine ⟨name, List.find?_eq_some_iff_append.mpr
      ⟨Builtin.isSome_ofToken?_iff.mpr hname, before, after, hnames, ?_⟩, rfl⟩
    intro n hn
    rw [Bool.not_eq_true', Bool.eq_false_iff]
    exact mt Builtin.isSome_ofToken?_iff.mp (hbefore n hn)

theorem violation?_eq_none_iff :
    violation? roots = none ↔
      (∀ name ∈ (Group.top roots).names, ¬ IsReserved name) ∧ (Group.top roots).Sound := by
  show (reserved? roots).or (Group.top roots).firstViolation? = none ↔ _
  rw [Option.or_eq_none_iff, reserved?_eq_none_iff, Group.firstViolation?_eq_none_iff]

theorem violation?_eq_some_iff {e : TreeError} :
    violation? roots = some e ↔
      (∃ name, e = .reserved name ∧ FirstReserved (Group.top roots).names name) ∨
      (∀ name ∈ (Group.top roots).names, ¬ IsReserved name) ∧
        (Group.top roots).FirstViolation e := by
  show (reserved? roots).or (Group.top roots).firstViolation? = some e ↔ _
  rw [Option.or_eq_some_iff, reserved?_eq_some_iff, reserved?_eq_none_iff,
    Group.firstViolation?_eq_some_iff]

/-- In a tree no name of the first level is reserved. -/
theorem not_reserved (tree : CommandTree η) :
    ∀ name ∈ (Group.top tree.roots).names, ¬ IsReserved name :=
  (violation?_eq_none_iff.mp tree.accepted).1

/-- In a tree nothing is wrong on any level. -/
theorem sound (tree : CommandTree η) : (Group.top tree.roots).Sound :=
  (violation?_eq_none_iff.mp tree.accepted).2

/-- What comes of a forest that is handed in. -/
structure Verdict (roots : List (Command η)) : Prop where
  /-- It is accepted if no name of the first level is reserved, and in every group at every place
  no name is empty or there twice; and only then. -/
  accepted : (∃ tree, ofRoots roots = .ok tree) ↔
    (∀ name ∈ (Group.top roots).names, ¬ IsReserved name) ∧ (Group.top roots).Sound
  /-- What is accepted is the forest as it is. -/
  unchanged : ∀ tree, ofRoots roots = .ok tree → tree.roots = roots
  /-- Otherwise the first reserved name is reported, whatever else is wrong, and if there is none,
  then what is wrong first at the first place where anything is. -/
  refused : ∀ e, ofRoots roots = .error e ↔
    (∃ name, e = .reserved name ∧ FirstReserved (Group.top roots).names name) ∨
    (∀ name ∈ (Group.top roots).names, ¬ IsReserved name) ∧ (Group.top roots).FirstViolation e
  /-- A reserved name is reported if and only if there is one. -/
  reserved : (∃ name, ofRoots roots = .error (.reserved name)) ↔
    ∃ name ∈ (Group.top roots).names, IsReserved name
  /-- If an empty name is reported, there is one right below a command of that name. -/
  emptyName : ∀ parent, ofRoots roots = .error (.emptyName parent) →
    ∃ place g, GroupAt (Group.top roots) place g ∧ g.parent = parent ∧ "" ∈ g.names
  /-- If a name is reported to be there twice, it is, right below a command of that name. -/
  duplicate : ∀ parent name, ofRoots roots = .error (.duplicate parent name) →
    ∃ place g, GroupAt (Group.top roots) place g ∧ g.parent = parent ∧ 2 ≤ g.names.count name

end CommandTree

theorem Group.FirstWrong.not_reserved {g : Group η} {e : TreeError} (h : g.FirstWrong e)
    (name : String) : e ≠ .reserved name := by
  cases h with
  | emptyName => simp
  | duplicate => simp

theorem Group.FirstWrong.emptyName_mem {g : Group η} {e : TreeError} {parent : Option String}
    (h : g.FirstWrong e) (he : e = .emptyName parent) : g.parent = parent ∧ "" ∈ g.names := by
  cases h with
  | emptyName hnames =>
      injection he with hparent
      exact ⟨hparent, by simp [hnames]⟩
  | duplicate => exact absurd he (by simp)

theorem Group.FirstWrong.duplicate_twice {g : Group η} {e : TreeError} {parent : Option String}
    {name : String} (h : g.FirstWrong e) (he : e = .duplicate parent name) :
    g.parent = parent ∧ 2 ≤ g.names.count name := by
  cases h with
  | emptyName => exact absurd he (by simp)
  | duplicate hnames hbefore hne hmem =>
      injection he with hparent hname
      subst hname
      have hpos := List.count_pos_iff.mpr hmem
      refine ⟨hparent, ?_⟩
      rw [hnames, List.count_append, List.count_cons_self]
      omega

namespace CommandTree

/-- **Exactly the forests in which every name can be told are accepted**, and of the others what is
wrong first is reported. -/
theorem verdict (roots : List (Command η)) : Verdict roots where
  accepted := by
    rw [← violation?_eq_none_iff]
    constructor
    · intro h
      obtain ⟨tree, htree⟩ := h
      exact ofRoots_eq_ok_iff.mp htree ▸ tree.accepted
    · intro h
      exact ⟨⟨roots, h⟩, ofRoots_eq_ok_iff.mpr rfl⟩
  unchanged := fun tree h => ofRoots_eq_ok_iff.mp h
  refused := fun e => ofRoots_eq_error_iff.trans violation?_eq_some_iff
  reserved := by
    constructor
    · intro h
      obtain ⟨name, hname⟩ := h
      rcases violation?_eq_some_iff.mp (ofRoots_eq_error_iff.mp hname) with
        ⟨_, _, hreserved, before, after, hnames, _⟩ | ⟨_, _, _, _, hwrong, _⟩
      · exact ⟨_, by simp [hnames], hreserved⟩
      · exact absurd rfl (hwrong.not_reserved name)
    · intro h
      obtain ⟨other, hother, hreserved⟩ := h
      cases hr : reserved? roots with
      | none => exact absurd hreserved (reserved?_eq_none_iff.mp hr other hother)
      | some e =>
          obtain ⟨name, rfl, hfirst⟩ := reserved?_eq_some_iff.mp hr
          have hviolation := violation?_eq_some_iff.mpr (Or.inl ⟨name, rfl, hfirst⟩)
          exact ⟨name, ofRoots_eq_error_iff.mpr hviolation⟩
  emptyName := by
    intro parent h
    rcases violation?_eq_some_iff.mp (ofRoots_eq_error_iff.mp h) with
      ⟨_, he, _⟩ | ⟨_, place, g, hat, hwrong, _⟩
    · exact absurd he (by simp)
    · exact ⟨place, g, hat, hwrong.emptyName_mem rfl⟩
  duplicate := by
    intro parent name h
    rcases violation?_eq_some_iff.mp (ofRoots_eq_error_iff.mp h) with
      ⟨_, he, _⟩ | ⟨_, place, g, hat, hwrong, _⟩
    · exact absurd he (by simp)
    · exact ⟨place, g, hat, hwrong.duplicate_twice rfl⟩

/-- The empty name is two levels below the first command, and the name that is there twice is right
below the second: the empty name is reported. -/
theorem verdict_first_command :
    let roots : List (Command Unit) :=
      [{ name := "a", children := [{ name := "b", children := [{ name := "" }] }] },
        { name := "c", children := [{ name := "d", aliases := ["d"] }] }]
    ofRoots roots = .error (.emptyName (some "b")) ∧
      (Group.top roots).FirstViolation (.emptyName (some "b")) ∧
      ∃ place g, GroupAt (Group.top roots) place g ∧ g.parent = some "b" ∧ "" ∈ g.names := by
  intro roots
  have h : ofRoots roots = .error (.emptyName (some "b")) :=
    ofRoots_eq_error_iff.mpr (by decide +kernel)
  refine ⟨h, ?_, (verdict roots).emptyName _ h⟩
  rcases ((verdict roots).refused _).mp h with ⟨_, he, _⟩ | ⟨_, hfirst⟩
  · exact absurd he (by simp)
  · exact hfirst

end CommandTree

end CommandShell
