import ClassLang.Proofs.Output.Written
import ClassLang.Proofs.Tree.Plain

/-!
# What analysis and compilation decide

An analysis accepts a program just if the rules of the language do, and the types it leaves are the
types the rules give (`Program.analyze_decides_wellFormed`). A compilation succeeds just if the
analysis does and fails as it fails; neither ever ends in a misuse, so whatever the program, what
they report is a fault of the program (`Program.compile_fails_as_analyze`).
-/

namespace ClassLang

theorem Outcome.eq_ok_of_isOk {σ α : Type} {r : Outcome σ α} (h : r.toExcept.isOk = true) :
    ∃ a, r = .ok a r.state := by
  cases r with
  | ok a s => exact ⟨a, rfl⟩
  | error e s => cases h

theorem Outcome.exists_of_isOk {σ τ : Type} {r : Outcome (σ × τ) Unit}
    (h : r.toExcept.isOk = true) : ∃ a b, r = .ok () (a, b) := by
  cases r with
  | ok u s => exact ⟨s.1, s.2, rfl⟩
  | error e s => cases h

/-! ### Analysis -/

/-- **Analysis decides whether a program is well formed.** It succeeds on the well-formed programs
and on no others, and leaves the program with the one type of every expression filled in. -/
theorem Program.analyze_decides_wellFormed (p : Program) :
    ((∃ table q, p.analyze = .ok table q) ↔ p.WellFormed) ∧
      ∀ table q, p.analyze = .ok table q → q.same p = true ∧
        ∀ Γ e, (Γ, e) ∈ q.sites →
          ∃ τ, e.ty? = some τ ∧ ∀ σ, HasType .plain Γ e σ ↔ σ = τ := by
  refine ⟨analyze_ok_iff, fun table q h => ?_⟩
  obtain ⟨-, hok, hbare, -, -⟩ := of_analyze_ok h
  refine ⟨(Program.same_iff q p).mpr hbare, fun Γ e hs => ?_⟩
  obtain ⟨-, hΓ, τ, hτ⟩ := hok.typed_of_mem_sites hs
  exact ⟨τ, hτ.ty?_eq, fun σ => hτ.plain_iff hΓ⟩

/-- Two classes with a field and a method of one name each:

    class A { int x; int f(A a) { return x; } }
    class B extends A {
      bool x;
      int f(B b) {
        A a = new B();
        if (x) { bool b = a.f(a) == 1; print b; }
        return b.f(this);
      }
    } -/
def Program.overloading : Program := ⟨[
  ⟨.unknown, "A", none, [
    .field .unknown .int "x",
    .method .int "f" ⟨.unknown, [⟨.cls "A", "a"⟩],
      [.ret .unknown (some (.var .unset none "x" .empty .empty))], .empty⟩]⟩,
  ⟨.unknown, "B", some "A", [
    .field .unknown .bool "x",
    .method .int "f" ⟨.unknown, [⟨.cls "B", "b"⟩], [
      .declare .unknown (.cls "A") "a" (some (.create .unset "B" [] .empty)),
      .ifThen .unknown (.var .unset none "x" .empty .empty) [
        .declare .unknown .bool "b" (some (.binary .unset .eq
          (.call .unset (some "a") "f" [.var .unset none "a" .empty .empty] .empty .empty)
          (.number .unset 1))),
        .print .unknown (.var .unset none "b" .empty .empty)],
      .ret .unknown (some (.call .unset (some "b") "f" [.this .unset] .empty .empty))],
      .empty⟩]⟩]⟩

/-- The types in `overloading`, from the field `x` of `A` to the receiver of `B`; with the child
before the parent, the classes are not well formed. -/
theorem Program.overloading_wellFormed :
    (overloading.WellFormed ∧ ∀ Γ e, (Γ, e) ∈ overloading.analyze.state.sites →
        ∃ τ, e.ty? = some τ ∧ ∀ σ, HasType .plain Γ e σ ↔ σ = τ) ∧
      (overloading.analyze.state.sites.map fun site => site.2.ty?) =
        [some .int, some (.cls "B"), some .bool, some .bool, some .int, some (.cls "A"), some .int,
          some .bool, some .int, some (.cls "B")] ∧
      ¬ Program.WellFormed ⟨overloading.classes.reverse⟩ := by
  obtain ⟨table, h⟩ : ∃ table, overloading.analyze = .ok table overloading.analyze.state :=
    Outcome.eq_ok_of_isOk (by decide +kernel)
  refine ⟨⟨?_, ?_⟩, by decide +kernel, fun hw => ?_⟩
  · exact (analyze_decides_wellFormed overloading).1.mp ⟨_, _, h⟩
  · exact ((analyze_decides_wellFormed overloading).2 _ _ h).2
  · obtain ⟨t, q, hq⟩ := (analyze_decides_wellFormed ⟨overloading.classes.reverse⟩).1.mpr hw
    have hfail : (Program.analyze ⟨overloading.classes.reverse⟩).toExcept.isOk = false := by
      decide +kernel
    rw [hq] at hfail
    cases hfail

/-! ### Compilation -/

namespace Program

variable {p q : Program} {t : ClassTable} {f : Failure}

theorem compile_eq_ok (h : p.analyze = .ok t q) : ∃ text, p.compile = .ok text := by
  obtain ⟨-, hok, -, hrecords, -⟩ := of_analyze_ok h
  obtain ⟨text, htext⟩ := hok.writes hrecords 0
  have hempty : q.write t .empty = .ok () ⟨"" ++ text, 0⟩ := htext ""
  refine ⟨"" ++ text, ?_⟩
  unfold compile
  simp only [h, hempty]

theorem compile_eq_error (h : p.analyze = .error f q) : p.compile = .error f := by
  unfold compile
  simp only [h]

/-- **Compilation fails only as analysis does, and neither by a misuse.** -/
theorem compile_fails_as_analyze (p : Program) :
    (∀ m q, p.analyze ≠ .error (.misuse m) q) ∧ (∀ m, p.compile ≠ .error (.misuse m)) ∧
      ((∃ text, p.compile = .ok text) ↔ ∃ table q, p.analyze = .ok table q) ∧
      ∀ f, p.compile = .error f ↔ ∃ q, p.analyze = .error f q := by
  have hmisuse : ∀ m q, p.analyze ≠ .error (.misuse m) q := by
    intro m q h
    have hfault := (of_analyze_error h).1
    cases hfault
  cases h : p.analyze with
  | ok table q =>
    obtain ⟨text, htext⟩ := compile_eq_ok h
    refine ⟨fun _ _ => nofun, fun m => ?_, ?_, fun f => ?_⟩
    · rw [htext]
      nofun
    · exact ⟨fun _ => ⟨table, q, rfl⟩, fun _ => ⟨text, htext⟩⟩
    · rw [htext]
      exact ⟨nofun, fun ⟨_, hq⟩ => nomatch hq⟩
  | error f q =>
    have herror := compile_eq_error h
    refine ⟨fun m q' he => hmisuse m q' (h.trans he), fun m he => ?_, ?_, fun g => ?_⟩
    · rw [herror] at he
      rw [Except.error.inj he] at h
      exact hmisuse m q h
    · rw [herror]
      exact ⟨fun ⟨_, ht⟩ => (nomatch ht), fun ⟨_, _, ht⟩ => (nomatch ht)⟩
    · rw [herror]
      constructor
      · rintro ⟨⟩
        exact ⟨q, rfl⟩
      · rintro ⟨_, ⟨⟩⟩
        rfl

/-- `overloading` compiles; with the child before the parent, it fails with a fault. -/
theorem overloading_compiles : (∃ text, overloading.compile = .ok text) ∧
    ∃ f, compile ⟨overloading.classes.reverse⟩ = .error f ∧ f.isFault = true := by
  obtain ⟨table, h⟩ : ∃ table, overloading.analyze = .ok table overloading.analyze.state :=
    Outcome.eq_ok_of_isOk (by decide +kernel)
  refine ⟨(compile_fails_as_analyze overloading).2.2.1.mpr ⟨_, _, h⟩, ?_⟩
  have hfail : (analyze ⟨overloading.classes.reverse⟩).toExcept.isOk = false := by decide +kernel
  cases hr : analyze ⟨overloading.classes.reverse⟩ with
  | ok t q =>
    rw [hr] at hfail
    cases hfail
  | error f q =>
    refine ⟨f, ((compile_fails_as_analyze _).2.2.2 f).mpr ⟨q, hr⟩, ?_⟩
    cases f with
    | fault => rfl
    | misuse m => exact absurd hr ((compile_fails_as_analyze _).1 m q)

end Program

end ClassLang
