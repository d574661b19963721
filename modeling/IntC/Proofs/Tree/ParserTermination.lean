import IntC.Proofs.Tree.Parser

namespace IntC

namespace Parse
open Cursor (Passed)

def Calls (site next : Site) : Prop := ∃ depth, CallsAt depth site next

def Chain : Nat → Site → Site → Prop
  | 0, site, last => site = last
  | count + 1, site, last => ∃ next, Calls site next ∧ Chain count next last

theorem Chain.lower {count : Nat} {site last : Site} (chain : Chain count site last) (ends : site.2.Ends) :
    Passed 0 site.2 last.2 ∧ height last + count ≤ height site := by
  induction count generalizing site with
  | zero =>
    cases chain
    exact ⟨.refl ends, le_rfl⟩
  | succ count ih =>
    obtain ⟨next, ⟨depth, calls⟩, rest⟩ := chain
    obtain ⟨first, less⟩ := calls.lower ends
    obtain ⟨second, lesser⟩ := ih rest first.ends
    exact ⟨first.trans second, by omega⟩

/-- Calls that come back to the routine they start from have read something. -/
theorem Chain.passed {count : Nat} {site last : Site} (chain : Chain (count + 1) site last) (ends : site.2.Ends)
    (again : last.1.routine = site.1.routine) : Passed 1 site.2 last.2 := by
  obtain ⟨passed, less⟩ := chain.lower ends
  unfold height at less
  rw [again] at less
  exact ⟨passed.ends, passed.suffix, by omega⟩

end Parse

open Parse

/-- The parser comes to an end on every list of tokens, also where the end token is missing, is not the last one, or
kinds are unknown. Calls that come back to the routine they start from, which is how the loops are run through, have read
a token at least. So no chain of calls is longer than the number of tokens allows. A bound is reached only through a chain
of calls, and one that is linear in the number of tokens is not. What is left is a tree or an error in the grammar. -/
theorem parse_terminates (tokens : List Token) :
    (∀ before count site last, Chain before (entry tokens) site → Chain (count + 1) site last →
      last.1.routine = site.1.routine → ∃ passed ≠ [], site.2.tokens = passed ++ last.2.tokens) ∧
    (∀ count site, Chain count (entry tokens) site → count ≤ 4 * tokens.length + 2) ∧
    (∀ before depth site, Chain before (entry tokens) site → RunsOut (depth + 1) site →
      ∃ next, CallsAt depth site next ∧ RunsOut depth next) ∧
    (∀ before known cursor depth, Chain before (entry tokens) (.specifiers known, cursor) → cursor.left < depth →
      Specifiers.loop depth known cursor = known.read cursor.current cursor.rest) ∧
    (∀ depth > 4 * tokens.length + 2, ¬RunsOut depth (entry tokens)) ∧
    4 * tokens.length + 2 < parseDepth tokens.length ∧
    ((∃ tree, parse tokens = .ok tree) ∨
      ∃ error, parse tokens = .error error ∧ error.cause.kind? = some .grammar) := by
  have ends := ends_entry tokens
  have height := height_entry tokens
  refine ⟨?_, fun count site chain => ?_, fun before depth site chain out => ?_, ?_, fun depth deep => ?_,
    lt_parseDepth tokens.length, ?_⟩
  · intro before count site last chain further again
    have passed := further.passed (chain.lower ends).1.ends again
    obtain ⟨read, whole⟩ := passed.suffix
    refine ⟨read, ?_, whole.symm⟩
    rintro rfl
    have far := passed.far
    have same : last.2.left = site.2.left := congrArg (fun list => List.length list - 1) whole
    omega
  · have lower := (chain.lower ends).2
    omega
  · exact starves_of_runsOut (chain.lower ends).1.ends out
  · intro before known cursor depth chain deep
    exact Specifiers.loop_eq_read known cursor (chain.lower ends).1.ends deep
  · exact not_runsOut ends (by omega)
  · have walks := parse_walks tokens
    cases outcome : parse tokens with
    | ok tree => exact .inl ⟨tree, rfl⟩
    | error error =>
      rw [outcome] at walks
      exact .inr ⟨error, rfl, walks.grammar⟩

end IntC
