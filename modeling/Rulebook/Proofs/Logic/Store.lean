import Mathlib.Data.Multiset.AddSub
import Rulebook.Logic.Writer

/-!
# Running goals over a store of facts

What the goals of a test do to the facts that are there. Adding a fact puts one more copy of it into
the store, taking it away removes one copy. What comes of all other goals is left open: it is given by
a list of answers, one for each goal in the order in which they are run. A goal is run once and never
tried again; one that fails ends the goals after it, and what was done to the store before stays.
-/

namespace Rulebook.Logic

/-- The texts of the facts that are there, each as often as it was added. -/
abbrev Store := Multiset String

/-- A store, and how many goals were asked so far. -/
structure World where
  store : Store
  asked : Nat := 0

namespace Goal

/-- Whether the answer to the goal is open. -/
def isOpen : Goal → Bool
  | holds _ | access .. => true
  | assert _ | retract _ | fail | choice .. => false

mutual

/-- Run a goal: whether it succeeds, and the world after it. The answer to the open goal of each
number is given. -/
def exec (o : Options) (answers : Nat → Bool) : Goal → World → Bool × World
  | holds _, w | access .., w => (answers w.asked, { w with asked := w.asked + 1 })
  | assert fact, w => (true, { w with store := fact.text o ::ₘ w.store })
  | retract fact, w =>
    if fact.text o ∈ w.store then (true, { w with store := w.store.erase (fact.text o) })
    else (false, w)
  | fail, w => (false, w)
  | choice condition success failure, w =>
    match execAll o answers condition w with
    | (true, w') => execAll o answers success w'
    | (false, w') => execAll o answers failure w'

/-- Run goals up to the first that fails. -/
def execAll (o : Options) (answers : Nat → Bool) : List Goal → World → Bool × World
  | [], w => (true, w)
  | goal :: rest, w =>
    match exec o answers goal w with
    | (true, w') => execAll o answers rest w'
    | (false, w') => (false, w')

end

variable {o : Options} {answers : Nat → Bool}

theorem execAll_append (gs hs : List Goal) (w : World) :
    execAll o answers (gs ++ hs) w = match execAll o answers gs w with
      | (true, w') => execAll o answers hs w'
      | (false, w') => (false, w') := by
  induction gs generalizing w with
  | nil => rfl
  | cons g rest ih =>
    rw [List.cons_append, execAll, execAll]
    rcases exec o answers g w with ⟨success, w'⟩
    cases success with
    | true => exact ih w'
    | false => rfl

theorem execAll_append_of_true {gs hs : List Goal} {w w' : World}
    (first : execAll o answers gs w = (true, w')) :
    execAll o answers (gs ++ hs) w = execAll o answers hs w' := by
  rw [execAll_append, first]

theorem exec_open {g : Goal} (isOpen : g.isOpen = true) (w : World) :
    exec o answers g w = (answers w.asked, { w with asked := w.asked + 1 }) := by
  cases g with
  | holds _ | access _ _ _ _ => rfl
  | assert _ | retract _ | fail | choice _ _ _ => cases isOpen

/-- Open goals leave the store alone, and they all succeed exactly if every answer is yes. -/
theorem execAll_open {gs : List Goal} (all : ∀ g ∈ gs, g.isOpen = true) (store : Store)
    (asked : Nat) :
    ∃ later, execAll o answers gs ⟨store, asked⟩ =
      (decide (∀ i < gs.length, answers (asked + i) = true), ⟨store, later⟩) := by
  induction gs generalizing asked with
  | nil => exact ⟨asked, by simp [execAll]⟩
  | cons g rest ih =>
    rw [List.forall_mem_cons] at all
    rw [execAll, exec_open all.1, List.length_cons]
    cases first : answers asked with
    | true =>
      obtain ⟨later, run⟩ := ih all.2 (asked + 1)
      refine ⟨later, run.trans ?_⟩
      simp only [Nat.forall_lt_succ_left, Nat.add_zero, first, true_and, Nat.add_right_comm _ 1,
        Nat.add_assoc]
    | false =>
      have some : ¬ ∀ i < rest.length + 1, answers (asked + i) = true := fun each => by
        have yes := each 0 (Nat.succ_pos _)
        rw [Nat.add_zero, first] at yes
        cases yes
      exact ⟨asked + 1, by rw [decide_eq_false some]⟩

/-- Facts that were just added can all be taken away. -/
theorem execAll_retract (facts : List Term) (store : Store) (asked : Nat) :
    execAll o answers (facts.map .retract) ⟨↑(facts.map (Term.text o)) + store, asked⟩ =
      (true, ⟨store, asked⟩) := by
  induction facts with
  | nil => simp [execAll]
  | cons fact rest ih =>
    simp only [List.map_cons, ← Multiset.cons_coe, Multiset.cons_add]
    rw [execAll, exec, if_pos (Multiset.mem_cons_self _ _), Multiset.erase_cons_head]
    exact ih

/-- If the open ones among the goals succeed, then all succeed and add the facts to the store. -/
def SetsUp (o : Options) (gs : List Goal) (facts : List Term) : Prop :=
  ∀ (answers : Nat → Bool) (store : Store) (asked : Nat),
    (∀ i < gs.countP isOpen, answers (asked + i) = true) →
    execAll o answers gs ⟨store, asked⟩ =
      (true, ⟨↑(facts.map (Term.text o)) + store, asked + gs.countP isOpen⟩)

theorem setsUp_nil : SetsUp o [] [] := by
  intro answers store asked _
  simp [execAll]

theorem setsUp_open {g : Goal} (isOpen : g.isOpen = true) : SetsUp o [g] [] := by
  intro answers store asked yes
  have first := yes 0 (by simp [isOpen])
  rw [Nat.add_zero] at first
  rw [execAll, exec_open isOpen, first]
  simp [execAll, isOpen]

theorem setsUp_assert (fact : Term) : SetsUp o [.assert fact] [fact] := by
  intro answers store asked _
  simp [execAll, exec, Goal.isOpen]

theorem SetsUp.append {gs hs : List Goal} {as bs : List Term} (first : SetsUp o gs as)
    (second : SetsUp o hs bs) : SetsUp o (gs ++ hs) (as ++ bs) := by
  intro answers store asked yes
  rw [List.countP_append] at yes ⊢
  have run := first answers store asked fun i below => yes i (by omega)
  have later := second answers (↑(as.map (Term.text o)) + store) (asked + gs.countP isOpen)
    fun i below => by
      rw [Nat.add_assoc]
      exact yes _ (by omega)
  rw [execAll_append_of_true run, later, List.map_append, ← Multiset.coe_add, Nat.add_assoc]
  rw [← Multiset.add_assoc, Multiset.add_comm (Multiset.ofList (bs.map (Term.text o)))]

theorem setsUp_flatMap {α : Type} {items : List α} {goals : α → List Goal} {facts : α → List Term}
    (each : ∀ a ∈ items, SetsUp o (goals a) (facts a)) :
    SetsUp o (items.flatMap goals) (items.flatMap facts) := by
  induction items with
  | nil => exact setsUp_nil
  | cons a rest ih =>
    rw [List.forall_mem_cons] at each
    rw [List.flatMap_cons, List.flatMap_cons]
    exact each.1.append (ih each.2)

theorem setsUp_of_open {gs : List Goal} (all : ∀ g ∈ gs, g.isOpen = true) : SetsUp o gs [] := by
  induction gs with
  | nil => exact setsUp_nil
  | cons g rest ih =>
    rw [List.forall_mem_cons] at all
    exact (setsUp_open all.1).append (ih all.2)

end Goal

end Rulebook.Logic
