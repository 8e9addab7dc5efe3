import Mathlib.Data.List.Basic
import Mathlib.Data.List.Nodup
import Mathlib.Data.List.Perm.Subperm
import Mathlib.Logic.Relation

/-!
# Walks that end

A loop is run pass by pass, with a bound on the passes; it ends if some bound is enough. A
measure that falls with every pass makes it end. A walk along a relation that can only be
left from finitely many places ends where it meets no cycle.
-/

namespace Figwal.Lib

set_option autoImplicit false

section Loops

variable {State Result : Type} (pass : State → State ⊕ Result)

def runLoop : Nat → State → Option Result
  | 0, _ => none
  | fuel + 1, state =>
    match pass state with
    | .inl next => runLoop fuel next
    | .inr result => some result

def LoopEnds (state : State) : Prop :=
  ∃ fuel result, runLoop pass fuel state = some result

theorem loop_ends_of_measure (measure : State → Nat)
    (falls : ∀ state next, pass state = .inl next → measure next < measure state)
    (state : State) : LoopEnds pass state := by
  have general : ∀ bound state, measure state < bound → LoopEnds pass state := by
    intro bound
    induction bound with
    | zero => exact fun state below => absurd below (Nat.not_lt_zero _)
    | succ bound ih =>
      intro state below
      cases passed : pass state with
      | inl next =>
        have less := falls state next passed
        obtain ⟨fuel, result, ends⟩ := ih next (by omega)
        refine ⟨fuel + 1, result, ?_⟩
        rw [runLoop, passed]
        exact ends
      | inr result =>
        refine ⟨1, result, ?_⟩
        rw [runLoop, passed]
  exact general _ state (Nat.lt_succ_self _)

end Loops

section Walks

open Relation

variable {Place : Type} {goes : Place → Place → Prop}

/-- A walk that starts where no cycle is ahead ends, if it can only be left from places of a
list. -/
theorem acc_of_acyclic {places : List Place} (listed : ∀ here next, goes here next → here ∈ places)
    {start : Place} (acyclic : ∀ place, ReflTransGen goes start place →
      ¬TransGen goes place place) :
    Acc (fun next here => goes here next) start := by
  -- the places behind are distinct, so there are at most as many as are listed
  have general : ∀ left (behind : List Place) here, ReflTransGen goes start here →
      behind.Nodup → behind ⊆ places → (∀ place ∈ behind, TransGen goes place here) →
      places.length < behind.length + left → Acc (fun next here => goes here next) here := by
    intro left
    induction left with
    | zero =>
      intro behind here _ nodup inside _ many
      have few := (nodup.subperm inside).length_le
      omega
    | succ left ih =>
      intro behind here reached nodup inside led room
      refine Acc.intro here fun next step => ?_
      have new : here ∉ behind := fun again => acyclic here reached (led here again)
      apply ih (here :: behind) next (reached.tail step)
      · exact List.nodup_cons.mpr ⟨new, nodup⟩
      · exact List.cons_subset.mpr ⟨listed here next step, inside⟩
      · exact List.forall_mem_cons.mpr
          ⟨TransGen.single step, fun place held => (led place held).tail step⟩
      · rw [List.length_cons]
        omega
  exact general (places.length + 1) [] start .refl List.nodup_nil (List.nil_subset _)
    (fun _ held => nomatch held) (by simp)

/-- A walk that ends wherever it turns has no cycle ahead. -/
theorem acyclic_of_acc {start place : Place} (ends : Acc (fun next here => goes here next) start)
    (reached : ReflTransGen goes start place) : ¬TransGen goes place place := by
  induction ends with
  | intro start _ ih =>
    intro cycle
    rcases ReflTransGen.cases_head reached with rfl | ⟨next, step, later⟩
    · obtain ⟨next, step, back⟩ := TransGen.head'_iff.mp cycle
      exact ih next step back cycle
    · exact ih next step later cycle

/-- Where every place is come to from one other at most, a cycle ahead goes through the
start. -/
theorem start_on_cycle (one : ∀ first second next,
      goes first next → goes second next → first = second)
    {start place : Place} (reached : ReflTransGen goes start place)
    (cycle : TransGen goes place place) : TransGen goes start start := by
  induction reached with
  | refl => exact cycle
  | @tail before place _ step ih =>
    obtain ⟨last, around, back⟩ := TransGen.tail'_iff.mp cycle
    rw [one _ _ _ back step] at around
    exact ih (TransGen.head' step around)

end Walks

end Figwal.Lib
