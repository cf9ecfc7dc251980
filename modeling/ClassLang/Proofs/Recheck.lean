import ClassLang.Proofs.Check.Stale
import ClassLang.Proofs.Compile
import ClassLang.Proofs.Typing.Determined

/-!
# Annotations from before do not matter

Programs that say the same are analyzed and compiled alike, whatever their slots held, and a program
that was analyzed is left as it is by another analysis (`Program.analyze_ignores_slots`).

The first is what `Check.Stale` says of the trees and `Tree.Trim` of the code. For the second, the
tree that the other analysis leaves is well annotated too and says the same, and an annotated program
is determined by what it says (`Program.Ok.eq_of_blank`).
-/

namespace ClassLang

namespace Program

variable {p q : Program} {t : ClassTable}

/-- Programs whose analyses cannot be told apart are compiled alike. -/
theorem compile_eq_of_view (h : p.analyze.view trim = q.analyze.view trim) :
    p.compile = q.compile := by
  unfold compile
  obtain ⟨t, p', q', hp, hq, htrim⟩ | ⟨e, p', q', hp, hq⟩ := Outcome.view_cases h
  · have hwrite : p'.write t = q'.write t := by
      rw [← write_trim, htrim, write_trim]
    simp only [hp, hq, hwrite]
  · simp only [hp, hq]

/-- An analysis of what an analysis left changes nothing. -/
theorem analyze_of_analyze (h : p.analyze = .ok t q) : q.analyze = .ok t q := by
  have hbare : q.bare = p.bare := (of_analyze_ok h).2.2.1
  obtain ⟨t', q', p', hq, hp, -⟩ | ⟨e, q', p', -, hp⟩ := Outcome.view_cases (view_analyze_eq hbare)
  · obtain ⟨rfl, rfl⟩ := Outcome.ok.inj (h.symm.trans hp)
    obtain ⟨-, hok, -, -, hclasses⟩ := of_analyze_ok h
    obtain ⟨-, hok', -, -, -⟩ := of_analyze_ok hq
    rw [hq, hok'.eq_of_blank hok hclasses (blank_of_analyze hq)]
  · rw [h] at hp
    cases hp

/-- **Annotations from before do not matter.** Programs that say the same, whatever their slots hold,
have the same fault or the same class table, and the same code. The trees that are left then agree
in all slots but those for an object that is not there, and another analysis of such a tree leaves
it as it is and gives the same table. -/
theorem analyze_ignores_slots (h : p.same q = true) :
    p.analyze.toExcept = q.analyze.toExcept ∧ p.compile = q.compile ∧
      (∀ t p' t' q', p.analyze = .ok t p' → q.analyze = .ok t' q' → p'.trim = q'.trim) ∧
      ∀ t p', p.analyze = .ok t p' → p'.analyze = .ok t p' := by
  have hview := view_analyze_eq ((same_iff p q).mp h)
  refine ⟨?_, compile_eq_of_view hview, fun t p' t' q' hp hq => ?_, fun t p' => analyze_of_analyze⟩
  · rw [Outcome.toExcept_eq_view trim, hview, ← Outcome.toExcept_eq_view]
  · rw [hp, hq] at hview
    exact (Prod.mk.inj (Except.ok.inj hview)).2

/-- A class whose slots are all filled wrongly, or with what they should not hold:

    class A { int x; int f(A a) { x = a.f(this); return a.x; } } -/
def misannotated : Program := ⟨[⟨.unknown, "A", none, [
  .field .unknown .int "x",
  .method .int "f" ⟨.unknown, [⟨.cls "A", "a"⟩], [
    .assign .unknown
      (.var ⟨.unknown, .filled .void⟩ none "x" (.filled .scope) (.filled (.member "Z")))
      (.call ⟨.unknown, .filled .bool⟩ (some "a") "f" [.this ⟨.unknown, .filled .int⟩]
        (.filled ⟨"Z", ⟨"g", [], .bool⟩⟩) (.filled (.member "Z"))),
    .ret .unknown (some (.var ⟨.unknown, .filled (.cls "Z")⟩ (some "a") "x" (.filled .scope)
      (.filled (.member "Z"))))],
    .filled ⟨"g", [.bool], .void⟩⟩]⟩]⟩

/-- `misannotated` is compiled as if it had no annotations, and analyzed for good. The classes of
`overloading`, annotated and then put in the wrong order, fail as they would without annotations. -/
theorem misannotated_ignored :
    (∃ text, misannotated.compile = .ok text ∧ misannotated.bare.compile = .ok text) ∧
      (∃ t q, misannotated.analyze = .ok t q ∧ q.analyze = .ok t q) ∧
      ∃ f, (analyze ⟨overloading.analyze.state.classes.reverse⟩).toExcept = .error f ∧
        (analyze ⟨overloading.classes.reverse⟩).toExcept = .error f := by
  have hsame : misannotated.same misannotated.bare = true := by decide +kernel
  obtain ⟨t, h⟩ : ∃ t, misannotated.analyze = .ok t misannotated.analyze.state :=
    Outcome.eq_ok_of_isOk (by decide +kernel)
  obtain ⟨-, hcompile, -, hagain⟩ := analyze_ignores_slots hsame
  obtain ⟨text, htext⟩ := compile_eq_ok h
  refine ⟨⟨text, htext, hcompile ▸ htext⟩, ⟨t, _, h, hagain t _ h⟩, ?_⟩
  have hreversed : same ⟨overloading.analyze.state.classes.reverse⟩
      ⟨overloading.classes.reverse⟩ = true := by decide +kernel
  have hfails : (analyze ⟨overloading.classes.reverse⟩).toExcept.isOk = false := by decide +kernel
  cases hr : (analyze ⟨overloading.classes.reverse⟩).toExcept with
  | ok t =>
    rw [hr] at hfails
    cases hfails
  | error f => exact ⟨f, (analyze_ignores_slots hreversed).1.trans hr, rfl⟩

end Program

end ClassLang
