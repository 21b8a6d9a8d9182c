import Mathlib.Data.List.Infix
import Reckon.Operator

/-! # Bracket words

    The brackets of a text, with their positions, are a word over two families. It is *well nested*
    if it can be taken apart into groups, each an opening bracket, a well nested word and the
    closing bracket of the same family. A well nested word is read with a stack of the brackets that
    are open (`openAfter?`), and what is open after any word says how the word is built
    (`leaves_iff`): well nested words with one opening bracket between each two of them. Hence the
    stack is defined exactly as long as the word can still be completed (`completable_iff`), it is
    empty exactly if the word is well nested (`wellNested_iff`), and it holds the brackets without a
    partner (`mem_openAfter?_iff`), the last of them on its top.

        position:   0 1 2 3 4 5 6
        word:       ( [ ] ( [ ( )        open at the end: [ at 4, ( at 3, ( at 0 -/

namespace Reckon

/-- A bracket character. -/
inductive Mark where
  | opens (bracket : Bracket)
  | closes (bracket : Bracket)
  deriving DecidableEq, Repr

/-- Bracket characters with their positions. -/
abbrev BracketWord := List (Nat × Mark)

/-- Words in which every bracket has a partner. -/
inductive WellNested : BracketWord → Prop
  | nil : WellNested []
  | group (i j : Nat) (bracket : Bracket) {inner rest : BracketWord} (hi : WellNested inner)
      (hr : WellNested rest) :
      WellNested ((i, .opens bracket) :: (inner ++ (j, .closes bracket) :: rest))

/-- Words with which a well nested word can begin. -/
def Completable (w : BracketWord) : Prop := ∃ more, WellNested (w ++ more)

/-- The opening bracket at `i` and the closing one at `j` are partners. -/
def Partners (w : BracketWord) (i j : Nat) : Prop :=
  ∃ before bracket inner after,
    w = before ++ (i, .opens bracket) :: (inner ++ (j, .closes bracket) :: after)
      ∧ WellNested inner

/-- The opening bracket at `i` has no partner. -/
def StaysOpen (w : BracketWord) (i : Nat) : Prop :=
  (∃ bracket, (i, .opens bracket) ∈ w) ∧ ∀ j, ¬ Partners w i j

/-- Every closing bracket has a partner, and the opening one at `i` is the last that has none. -/
def LeftOpenAt (w : BracketWord) (i : Nat) : Prop :=
  (∀ j bracket, (j, .closes bracket) ∈ w → ∃ k, Partners w k j)
    ∧ StaysOpen w i ∧ ∀ k, StaysOpen w k → k ≤ i

/-- Up to the closing bracket at `i` the word can still be completed, and with it no longer. -/
def BreaksAt (w : BracketWord) (i : Nat) : Prop :=
  ∃ before bracket after, w = before ++ (i, .closes bracket) :: after
    ∧ Completable before ∧ ¬ Completable (before ++ [(i, .closes bracket)])

/-- The brackets come in the order of their positions, and no two at one. -/
def Increasing (w : BracketWord) : Prop := w.Pairwise fun a b => a.1 < b.1

/-- The brackets that are open after a word, the innermost first, if the given ones are open before
    it. There are none if a closing bracket does not meet an opening one of its family. -/
def openAfter? (stack : List (Nat × Bracket)) : BracketWord → Option (List (Nat × Bracket))
  | [] => some stack
  | (i, .opens bracket) :: rest => openAfter? ((i, bracket) :: stack) rest
  | (_, .closes bracket) :: rest =>
    match stack with
    | [] => none
    | (_, opened) :: below => if opened = bracket then openAfter? below rest else none

variable {w : BracketWord} {stack : List (Nat × Bracket)}

/-! ### Reading with a stack -/

theorem openAfter?_append (u v : BracketWord) :
    openAfter? stack (u ++ v) = (openAfter? stack u).bind fun s => openAfter? s v := by
  induction u generalizing stack with
  | nil => rfl
  | cons a u ih =>
    obtain ⟨i, bracket | bracket⟩ := a
    · exact ih
    · cases stack with
      | nil => rfl
      | cons top below =>
        simp only [List.cons_append, openAfter?]
        split
        · exact ih
        · rfl

/-- A well nested word leaves the stack as it was. -/
theorem WellNested.openAfter? (h : WellNested w) (stack : List (Nat × Bracket)) :
    openAfter? stack w = some stack := by
  induction h generalizing stack with
  | nil => rfl
  | group i j bracket _ _ ihi ihr => simp [Reckon.openAfter?, openAfter?_append, ihi, ihr]

theorem WellNested.append {u v : BracketWord} (hu : WellNested u) (hv : WellNested v) :
    WellNested (u ++ v) := by
  induction hu with
  | nil => exact hv
  | group i j bracket hi _ _ ihr =>
    rw [List.cons_append, List.append_assoc, List.cons_append]
    exact .group i j bracket hi ihr

/-! ### What a word leaves open -/

/-- A word all of whose closing brackets have partners, and the opening ones that have none, the
    innermost first. -/
inductive Leaves : BracketWord → List (Nat × Bracket) → Prop
  | nested {w : BracketWord} (h : WellNested w) : Leaves w []
  | opened (i : Nat) (bracket : Bracket) {before after : BracketWord}
      {stack : List (Nat × Bracket)} (hb : Leaves before stack) (ha : WellNested after) :
      Leaves (before ++ (i, .opens bracket) :: after) ((i, bracket) :: stack)

theorem Leaves.append {v : BracketWord} (h : Leaves w stack) (hv : WellNested v) :
    Leaves (w ++ v) stack := by
  cases h with
  | nested h => exact .nested (h.append hv)
  | opened i bracket hb ha =>
    rw [List.append_assoc, List.cons_append]
    exact .opened i bracket hb (ha.append hv)

/-- A closing bracket finds its partner on top of the stack. -/
theorem Leaves.close {i j : Nat} {bracket : Bracket} (h : Leaves w ((i, bracket) :: stack)) :
    Leaves (w ++ [(j, .closes bracket)]) stack := by
  cases h with
  | opened _ _ hb ha =>
    rw [List.append_assoc, List.cons_append]
    exact hb.append (.group i j bracket ha .nil)

/-- The stack after a word is what the word leaves open. -/
theorem leaves_iff : Leaves w stack ↔ openAfter? [] w = some stack := by
  constructor
  · intro h
    induction h with
    | nested h => exact h.openAfter? []
    | opened i bracket _ ha ih => simp [openAfter?_append, ih, openAfter?, ha.openAfter?]
  · intro h
    -- from the last bracket on, because what is open on top comes last in the word
    induction w using List.reverseRecOn generalizing stack with
    | nil =>
      cases h
      exact .nested .nil
    | append_singleton w a ih =>
      rw [openAfter?_append] at h
      obtain ⟨s, hs, hstep⟩ := Option.bind_eq_some_iff.mp h
      have hw : Leaves w s := ih hs
      obtain ⟨j, bracket | bracket⟩ := a
      · cases hstep
        exact .opened j bracket hw .nil
      · rcases s with _ | ⟨⟨i, opened⟩, below⟩
        · cases hstep
        · simp only [openAfter?] at hstep
          split at hstep
          · next heq =>
            subst heq
            cases hstep
            exact hw.close
          · cases hstep

theorem WellNested.completable (h : WellNested w) : Completable w := ⟨[], by rwa [List.append_nil]⟩

theorem wellNested_iff : WellNested w ↔ openAfter? [] w = some [] := by
  refine ⟨fun h => h.openAfter? [], ?_⟩
  intro h
  cases leaves_iff.mpr h with
  | nested h => exact h

/-- What is open can be closed. -/
theorem Leaves.completable (h : Leaves w stack) : Completable w := by
  induction stack generalizing w with
  | nil =>
    cases h with
    | nested h => exact h.completable
  | cons top below ih =>
    obtain ⟨more, hmore⟩ := ih (h.close (j := 0))
    exact ⟨(0, .closes top.2) :: more, by rwa [List.append_assoc] at hmore⟩

theorem completable_iff : Completable w ↔ ∃ stack, openAfter? [] w = some stack := by
  constructor
  · rintro ⟨more, h⟩
    rw [wellNested_iff, openAfter?_append] at h
    obtain ⟨stack, hstack, -⟩ := Option.bind_eq_some_iff.mp h
    exact ⟨stack, hstack⟩
  · rintro ⟨stack, h⟩
    exact (leaves_iff.mpr h).completable

theorem Completable.of_prefix {u : BracketWord} (h : Completable w) (hu : u <+: w) :
    Completable u := by
  obtain ⟨v, rfl⟩ := hu
  obtain ⟨more, hmore⟩ := h
  exact ⟨v ++ more, by rwa [← List.append_assoc]⟩

/-! ### Partners -/

/-- Every opening bracket of a well nested word has a partner in it. -/
theorem WellNested.exists_close (h : WellNested w) {i : Nat} {bracket : Bracket}
    {before after : BracketWord} (hw : w = before ++ (i, .opens bracket) :: after) :
    ∃ inner j rest, after = inner ++ (j, .closes bracket) :: rest ∧ WellNested inner := by
  induction h generalizing before after with
  | nil => simp at hw
  | @group k l opened inner rest hi hr ihi ihr =>
    rcases List.cons_eq_append_iff.mp hw with ⟨-, heq⟩ | ⟨before', -, hsplit⟩
    · cases heq
      exact ⟨inner, l, rest, rfl, hi⟩
    · rcases List.append_eq_append_iff.mp hsplit with ⟨more, -, hrest⟩ | ⟨more, hinner, hrest⟩
      · -- after the first group
        rcases List.cons_eq_append_iff.mp hrest with ⟨-, heq⟩ | ⟨more', -, hrest⟩
        · cases heq
        · exact ihr hrest
      · -- in the first group, or its closing bracket
        rcases List.cons_eq_append_iff.mp hrest with ⟨-, heq⟩ | ⟨more', hmore, hrest⟩
        · cases heq
        · obtain ⟨inner', j, rest', rfl, hn⟩ := ihi (hmore ▸ hinner)
          exact ⟨inner', j, rest' ++ (l, .closes opened) :: rest, by simp [hrest], hn⟩

/-- Every opening bracket after the last one that is open has a partner. -/
theorem not_staysOpen_of_mem (before : BracketWord) {after : BracketWord} (ha : WellNested after)
    {i : Nat} {bracket : Bracket} (hi : (i, .opens bracket) ∈ after) :
    ¬ StaysOpen (before ++ after) i := by
  obtain ⟨first, last, rfl⟩ := List.append_of_mem hi
  obtain ⟨inner, j, rest, rfl, hn⟩ := ha.exists_close rfl
  rintro ⟨-, hnone⟩
  exact hnone j ⟨before ++ first, bracket, inner, rest, by simp, hn⟩

/-- Of two places in a word, they are the same or one comes before the other. -/
theorem append_cons_cases {u u' v v' : BracketWord} {a a' : Nat × Mark}
    (h : u ++ a :: v = u' ++ a' :: v') :
    (u = u' ∧ a = a' ∧ v = v') ∨ (∃ more, u' = u ++ a :: more) ∨ ∃ more, u = u' ++ a' :: more := by
  rcases List.append_eq_append_iff.mp h with ⟨more, rfl, hmore⟩ | ⟨more, rfl, hmore⟩
  · rcases List.cons_eq_append_iff.mp hmore with ⟨rfl, hv⟩ | ⟨more', rfl, -⟩
    · cases hv
      exact .inl ⟨(List.append_nil u).symm, rfl, rfl⟩
    · exact .inr (.inl ⟨more', rfl⟩)
  · rcases List.cons_eq_append_iff.mp hmore with ⟨rfl, hv⟩ | ⟨more', rfl, -⟩
    · cases hv
      exact .inl ⟨List.append_nil u', rfl, rfl⟩
    · exact .inr (.inr ⟨more', rfl⟩)

/-- A position occurs once, so what comes before it and after it is determined. -/
theorem Increasing.eq_of_append {u u' v v' : BracketWord} {i : Nat} {m m' : Mark}
    (h : Increasing (u ++ (i, m) :: v)) (heq : u ++ (i, m) :: v = u' ++ (i, m') :: v') :
    u = u' ∧ m = m' ∧ v = v' := by
  have h' : Increasing (u' ++ (i, m') :: v') := heq ▸ h
  rcases append_cons_cases heq with ⟨rfl, hm, rfl⟩ | ⟨more, rfl⟩ | ⟨more, rfl⟩
  · exact ⟨rfl, (Prod.mk.inj hm).2, rfl⟩
  · have hlt := (List.pairwise_append.mp h').2.2 (i, m) (by simp) _ List.mem_cons_self
    exact absurd hlt (Nat.lt_irrefl i)
  · have hlt := (List.pairwise_append.mp h).2.2 (i, m') (by simp) _ List.mem_cons_self
    exact absurd hlt (Nat.lt_irrefl i)

/-- At one position stands one bracket. -/
theorem Increasing.mark_eq (h : Increasing w) {i : Nat} {m m' : Mark} (hm : (i, m) ∈ w)
    (hm' : (i, m') ∈ w) : m = m' := by
  obtain ⟨u, v, rfl⟩ := List.append_of_mem hm
  obtain ⟨u', v', heq⟩ := List.append_of_mem hm'
  exact (h.eq_of_append heq).2.1

/-- In a word that can be completed every closing bracket has a partner. -/
theorem Completable.exists_partner (h : Completable w) {j : Nat} {bracket : Bracket}
    (hj : (j, .closes bracket) ∈ w) : ∃ i, Partners w i j := by
  obtain ⟨u, v, rfl⟩ := List.append_of_mem hj
  obtain ⟨stack, hstack⟩ := completable_iff.mp h
  rw [openAfter?_append] at hstack
  obtain ⟨s, hs, hrest⟩ := Option.bind_eq_some_iff.mp hstack
  rcases s with _ | ⟨⟨i, opened⟩, below⟩
  · cases hrest
  · simp only [openAfter?] at hrest
    split at hrest
    · next heq =>
      subst heq
      cases leaves_iff.mpr hs with
      | @opened _ _ before inner _ hb ha => exact ⟨i, before, opened, inner, v, by simp, ha⟩
    · cases hrest

/-- A word that cannot be completed goes wrong at a closing bracket. -/
theorem exists_breaksAt_of_not_completable (h : ¬ Completable w) :
    ∃ before j bracket after, w = before ++ (j, .closes bracket) :: after
      ∧ Completable before ∧ ¬ Completable (before ++ [(j, .closes bracket)]) := by
  induction w using List.reverseRecOn with
  | nil => exact absurd ⟨[], .nil⟩ h
  | append_singleton w a ih =>
    by_cases hw : Completable w
    · obtain ⟨j, bracket | bracket⟩ := a
      · obtain ⟨stack, hstack⟩ := completable_iff.mp hw
        exact absurd ((Leaves.opened j bracket (leaves_iff.mpr hstack) .nil).completable) h
      · exact ⟨w, j, bracket, [], rfl, hw, h⟩
    · obtain ⟨before, j, bracket, after, rfl, hbefore, hj⟩ := ih hw
      exact ⟨before, j, bracket, after ++ [a], by simp, hbefore, hj⟩

/-- A word can be completed exactly if every closing bracket in it has a partner. -/
theorem completable_iff_exists_partner (hw : Increasing w) :
    Completable w ↔ ∀ j bracket, (j, .closes bracket) ∈ w → ∃ i, Partners w i j := by
  refine ⟨fun h j bracket hj => h.exists_partner hj, ?_⟩
  intro h
  by_contra hnot
  obtain ⟨before, j, bracket, after, rfl, hbefore, hj⟩ := exists_breaksAt_of_not_completable hnot
  obtain ⟨i, first, opened, inner, last, heq, hn⟩ := h j bracket (by simp)
  rw [← List.cons_append, ← List.append_assoc] at heq
  obtain ⟨rfl, hm, -⟩ := hw.eq_of_append heq
  cases hm
  -- up to its partner the word can be completed, and from there it closes a group
  obtain ⟨stack, hstack⟩ := completable_iff.mp (hbefore.of_prefix (List.prefix_append _ _))
  have hclosed := ((leaves_iff.mpr hstack).append (.group i j bracket hn .nil)).completable
  rw [← List.cons_append, ← List.append_assoc] at hclosed
  exact hj hclosed

/-! ### Brackets that stay open -/

/-- What is open before a word and stays so makes no difference to the word. -/
theorem openAfter?_append_stack {own : List (Nat × Bracket)} (h : openAfter? stack w = some own)
    (below : List (Nat × Bracket)) : openAfter? (stack ++ below) w = some (own ++ below) := by
  induction w generalizing stack with
  | nil =>
    cases h
    rfl
  | cons a w ih =>
    obtain ⟨i, bracket | bracket⟩ := a
    · exact ih h
    · cases stack with
      | nil => cases h
      | cons top rest =>
        simp only [openAfter?] at h
        split at h
        · next heq =>
          rw [List.cons_append, openAfter?, if_pos heq]
          exact ih h
        · cases h

/-- An opening bracket stays open below what a word leaves open, or the word closes it after a well
    nested part. -/
theorem openAfter?_cons_cases {i : Nat} {bracket : Bracket} {final : List (Nat × Bracket)}
    (h : openAfter? ((i, bracket) :: stack) w = some final) :
    (∃ own, final = own ++ (i, bracket) :: stack)
      ∨ ∃ inner j rest, w = inner ++ (j, .closes bracket) :: rest ∧ WellNested inner := by
  by_cases hw : Completable w
  · obtain ⟨own, hown⟩ := completable_iff.mp hw
    have hframe := openAfter?_append_stack hown ((i, bracket) :: stack)
    exact .inl ⟨own, Option.some.inj (h.symm.trans hframe)⟩
  · obtain ⟨inner, j, closed, rest, rfl, hinner, hnot⟩ := exists_breaksAt_of_not_completable hw
    obtain ⟨own, hown⟩ := completable_iff.mp hinner
    rw [openAfter?_append, show ((i, bracket) :: stack) = [] ++ (i, bracket) :: stack from rfl,
      openAfter?_append_stack hown, Option.bind_some] at h
    cases own with
    | nil =>
      simp only [List.nil_append, openAfter?] at h
      split at h
      · next heq =>
        subst heq
        exact .inr ⟨inner, j, rest, rfl, wellNested_iff.mpr hown⟩
      · cases h
    | cons top below =>
      -- the bracket that cannot be right meets one of the word's own
      simp only [List.cons_append, openAfter?] at h
      split at h
      · next heq =>
        refine absurd (completable_iff.mpr ⟨below, ?_⟩) hnot
        rw [openAfter?_append, hown, Option.bind_some, openAfter?, if_pos heq]
        rfl
      · cases h

/-- An open bracket stands in the word, and what comes after it can be completed by itself. -/
theorem Leaves.exists_split (h : Leaves w stack) {i : Nat} {bracket : Bracket}
    (hi : (i, bracket) ∈ stack) :
    ∃ before after, w = before ++ (i, .opens bracket) :: after ∧ Completable after := by
  induction h with
  | nested => cases hi
  | @opened k opened before after stack hb ha ih =>
    rcases List.mem_cons.mp hi with heq | hi
    · cases heq
      exact ⟨before, after, rfl, ha.completable⟩
    · obtain ⟨first, inner, rfl, hinner⟩ := ih hi
      obtain ⟨own, hown⟩ := completable_iff.mp hinner
      refine ⟨first, inner ++ (k, .opens opened) :: after, by simp, ?_⟩
      exact ((leaves_iff.mpr hown).opened k opened ha).completable

/-- The stack after a word holds the opening brackets that have no partner. -/
theorem mem_openAfter?_iff (hw : Increasing w) (h : openAfter? [] w = some stack) {i : Nat}
    {bracket : Bracket} :
    (i, bracket) ∈ stack ↔ (i, .opens bracket) ∈ w ∧ StaysOpen w i := by
  constructor
  · intro hi
    obtain ⟨before, after, rfl, hafter⟩ := (leaves_iff.mpr h).exists_split hi
    refine ⟨by simp, ⟨bracket, by simp⟩, ?_⟩
    rintro j ⟨first, opened, inner, last, heq, hn⟩
    obtain ⟨-, -, rfl⟩ := hw.eq_of_append heq
    -- a closing bracket without an opening one before it is beyond completion
    obtain ⟨own, hown⟩ := completable_iff.mp hafter
    rw [openAfter?_append, hn.openAfter?] at hown
    cases hown
  · rintro ⟨hi, -, hnone⟩
    obtain ⟨before, after, rfl⟩ := List.append_of_mem hi
    rw [openAfter?_append] at h
    obtain ⟨below, -, hafter⟩ := Option.bind_eq_some_iff.mp h
    rcases openAfter?_cons_cases hafter with ⟨own, rfl⟩ | ⟨inner, j, rest, rfl, hn⟩
    · simp
    · exact absurd ⟨before, bracket, inner, rest, rfl, hn⟩ (hnone j)

/-- The stack after a word holds the later brackets above the earlier ones. -/
theorem pairwise_openAfter? (hw : Increasing w) (h : openAfter? [] w = some stack) :
    stack.Pairwise fun upper lower => lower.1 < upper.1 := by
  have hleaves := leaves_iff.mpr h
  clear h
  induction hleaves with
  | nested => exact .nil
  | @opened i bracket before after stack hb ha ih =>
    obtain ⟨hbefore, -, hlt⟩ := List.pairwise_append.mp hw
    refine List.pairwise_cons.mpr ⟨?_, ih hbefore⟩
    rintro ⟨k, opened⟩ hk
    obtain ⟨first, inner, rfl, -⟩ := hb.exists_split hk
    exact hlt (k, .opens opened) (by simp) _ List.mem_cons_self

/-- The bracket on top of the stack after a word is the last one without a partner. -/
theorem leftOpenAt_of_openAfter? (hw : Increasing w) {i : Nat} {bracket : Bracket}
    (h : openAfter? [] w = some ((i, bracket) :: stack)) : LeftOpenAt w i := by
  refine ⟨(completable_iff_exists_partner hw).mp (completable_iff.mpr ⟨_, h⟩),
    ((mem_openAfter?_iff hw h).mp List.mem_cons_self).2, ?_⟩
  intro k hk
  obtain ⟨opened, hmem⟩ := hk.1
  rcases List.mem_cons.mp ((mem_openAfter?_iff hw h).mpr ⟨hmem, hk⟩) with heq | hbelow
  · cases heq
    exact Nat.le_refl _
  · exact Nat.le_of_lt ((List.pairwise_cons.mp (pairwise_openAfter? hw h)).1 _ hbelow)

/-! ### One of three cases -/

theorem BreaksAt.not_completable {i : Nat} (h : BreaksAt w i) : ¬ Completable w := by
  obtain ⟨before, bracket, after, rfl, -, hnot⟩ := h
  exact fun hw => hnot (hw.of_prefix ⟨after, by simp⟩)

/-- A word goes wrong at one place. -/
theorem BreaksAt.eq {i j : Nat} (hi : BreaksAt w i) (hj : BreaksAt w j) : i = j := by
  obtain ⟨u, b, v, rfl, hu, hub⟩ := hi
  obtain ⟨u', b', v', heq, hu', hub'⟩ := hj
  rcases append_cons_cases heq with ⟨-, hm, -⟩ | ⟨more, rfl⟩ | ⟨more, rfl⟩
  · exact (Prod.mk.inj hm).1
  · exact absurd (hu'.of_prefix ⟨more, by simp⟩) hub
  · exact absurd (hu.of_prefix ⟨more, by simp⟩) hub'

theorem LeftOpenAt.completable (hw : Increasing w) {i : Nat} (h : LeftOpenAt w i) :
    Completable w :=
  (completable_iff_exists_partner hw).mpr h.1

theorem LeftOpenAt.not_wellNested {i : Nat} (h : LeftOpenAt w i) : ¬ WellNested w := by
  intro hw
  obtain ⟨bracket, hmem⟩ := h.2.1.1
  exact not_staysOpen_of_mem [] hw hmem h.2.1

theorem LeftOpenAt.eq {i j : Nat} (hi : LeftOpenAt w i) (hj : LeftOpenAt w j) : i = j :=
  Nat.le_antisymm (hj.2.2 i hi.2.1) (hi.2.2 j hj.2.1)

end Reckon
