import ClassLang.Compile
import ClassLang.Proofs.Check.Members

/-!
# The checker accepts the programs that keep to the rules

Between two classes the environment holds the classes so far and nothing else (`Env.Between`). A
class that keeps to the rules takes it to the next such point, any other is refused with a fault
(`Env.Between.settles_class`). Along the classes of a program this gives what an analysis does:
it accepts a program just if it is well formed, and leaves it annotated (`Program.of_analyze_ok`,
`Program.of_analyze_error`).
-/

namespace ClassLang

open Outcome

/-- All classes so far are `cs`, and none is open. -/
structure Env.Between (env : Env) (cs : List Outline) : Prop where
  table : env.table.Records cs
  current : env.table.current = none
  scopes : env.scopes = .empty
  method : env.method = none
  hierarchy : Hierarchy cs

variable {env : Env} {earlier : List Outline} {c : ClassDecl} {name cls : String}

theorem Env.between_empty : Env.empty.Between [] := ⟨.empty, rfl, rfl, rfl, .nil⟩

namespace ClassDecl

theorem outline_names (c : ClassDecl) :
    (earlier ++ [c.outline]).map Outline.name = earlier.map Outline.name ++ [c.name] :=
  Outline.names_append_ofMembers

theorem formed_iff : c.Formed earlier ↔ c.name ∉ earlier.map Outline.name ∧
    (∀ q, c.parent = some q → q ∈ earlier.map Outline.name ++ [c.name]) ∧
      Member.AllJoin (earlier.map Outline.name ++ [c.name]) [] c.members := by
  constructor
  · rintro ⟨hfresh, hparent, htyped, hapart, hinitial⟩
    rw [c.outline_names] at hparent htyped
    exact ⟨hfresh, hparent, fun m hm => ⟨htyped m hm, hinitial m hm, List.forall_mem_nil _⟩, hapart⟩
  · rintro ⟨hfresh, hparent, hjoin, hapart⟩
    rw [← c.outline_names] at hparent hjoin
    exact ⟨hfresh, hparent, fun m hm => (hjoin m hm).1, hapart, fun m hm => (hjoin m hm).2.1⟩

theorem ok_iff : c.Ok .plain earlier ↔
    c.Formed earlier ∧ ∀ m ∈ c.members, m.Ok .plain (earlier ++ [c.outline]) c.name :=
  ⟨fun h => ⟨h.toFormed, h.bodies⟩, fun h => ⟨h.1, h.2⟩⟩

end ClassDecl

/-! ### One class -/

namespace Env.Between

theorem settles_enter (h : env.Between earlier) :
    (Env.enterClass name env).Settles (fun _ => name ∉ earlier.map Outline.name)
      fun _ env' => env'.Declaring earlier (.ofMembers name none []) := by
  rw [Env.enterClass, Env.onTable]
  by_cases hfresh : name ∈ earlier.map Outline.name
  · have hdup : ClassTable.enter name env.table =
        .error (.ofFault (.duplicateClass name)) env.table := by
      unfold ClassTable.enter
      simp only [h.current]
      rw [if_pos (h.table.contains_iff.mpr hfresh)]
    rw [hdup]
    exact Settles.fail fun _ hne => hne hfresh
  · obtain ⟨t, ht, hopen⟩ := ClassTable.enter_eq h.table h.current hfresh
    rw [ht]
    exact Settles.done hfresh ⟨hopen, h.scopes, h.method⟩

end Env.Between

namespace Env.Declaring

theorem settles_tieParent (h : env.Declaring earlier (.ofMembers cls none [])) :
    ∀ parent : Option String, (tieParent parent env).Settles
      (fun _ => ∀ q, parent = some q → q ∈ earlier.map Outline.name ++ [cls])
      fun _ env' => env'.Declaring earlier (.ofMembers cls parent [])
  | none => Settles.done (fun _ => nofun) h
  | some q => by
    have hq : env.table.contains q = true ↔ q ∈ earlier.map Outline.name ++ [cls] := by
      rw [h.records.contains_iff, Outline.names_append_ofMembers]
    rw [tieParent]
    by_cases hc : q ∈ earlier.map Outline.name ++ [cls]
    · obtain ⟨i, -, hstep⟩ := h.table.onCurrent_eq
      rw [if_pos (hq.mpr hc), Env.setParent, Env.onTable, ClassTable.setParent, hstep]
      refine Settles.done (fun _ hp => Option.some.inj hp ▸ hc) ?_
      exact h.update (fun _ => rfl) rfl fun j hj => hj.setParent (some q)
    · rw [if_neg (mt hq.mp hc)]
      exact Settles.fail fun _ hp => hc (hp q rfl)

theorem leaveClass_eq {c : Outline} (h : env.Declaring earlier c)
    (hcs : Hierarchy (earlier ++ [c])) :
    ∃ env', Env.leaveClass env = .ok () env' ∧ env'.Between (earlier ++ [c]) := by
  obtain ⟨i, hi, -⟩ := h.table.current?_eq
  have hin : env.inClass = true := by
    rw [Env.inClass, hi]
    rfl
  refine ⟨{ env with table := env.table.leave }, ?_, h.records.leave, rfl, h.scopes, h.method, hcs⟩
  unfold Env.leaveClass
  simp only [h.method, hin, if_true]

end Env.Declaring

namespace Env.Between

/-- **The checker accepts just the classes that keep to the rules.** -/
theorem settles_class (h : env.Between earlier) (c : ClassDecl) :
    (c.check env).Settles (fun _ => c.Ok .plain earlier) fun _ r =>
      r.1.Ok .annotated earlier ∧ r.1.outline = c.outline ∧
        r.2.Between (earlier ++ [c.outline]) := by
  have hcheck : (c.check env).Settles (fun _ => c.Ok .plain earlier) fun _ r =>
      r.1.name = c.name ∧ (∀ m ∈ r.1.members, m.Ok .annotated (earlier ++ [c.outline]) c.name) ∧
        r.2.Between (earlier ++ [c.outline]) := by
    unfold ClassDecl.check
    refine Settles.congr ?_ fun _ => ClassDecl.ok_iff.trans (and_congr_left' ClassDecl.formed_iff)
    simp only [and_assoc]
    refine (Settles.locate h.settles_enter).after fun env₁ hfresh h₁ => ?_
    refine (Settles.locate (h₁.settles_tieParent c.parent)).after fun env₂ hparent h₂ => ?_
    refine (Declaring.settles_declareList c.members h₂ (List.forall_mem_nil _)).after
      fun r hjoin hr => ?_
    obtain ⟨_, env₃⟩ := r
    obtain ⟨rfl, h₃⟩ := hr
    have hformed : c.Formed earlier := ClassDecl.formed_iff.mpr ⟨hfresh, hparent, hjoin⟩
    have hcs := hformed.hierarchy h.hierarchy
    have hmembers : ∀ m ∈ c.members, m.Typed ((earlier ++ [c.outline]).map Outline.name) ∧
        ∀ s, m.signature? c.outline.name = some s → c.outline.Offers s := fun m hm =>
      ⟨hformed.typed m hm, fun s hs => .declared (List.mem_filterMap.mpr ⟨m, hm, hs⟩)⟩
    refine (Declaring.settles_members hcs c.members h₃ hmembers).finish fun _ r _ hr => ?_
    obtain ⟨env', hleave, hbetween⟩ := hr.2.leaveClass_eq hcs
    refine ⟨({ c with members := r.1 }, env'), ?_, rfl, hr.1, hbetween⟩
    simp only [hleave, wrap_ok]
  -- the class that is left says the same, so it is formed and has the same outline
  refine (hcheck.and_state (R := fun r => r.1.bare = c.bare) (ClassDecl.bare_check c env)).mono
    fun _ r hc hr => ?_
  obtain ⟨⟨hname, hbodies, hbetween⟩, hbare⟩ := hr
  have houtline := ClassDecl.outline_eq_of_bare hbare
  refine ⟨⟨(ClassDecl.formed_iff_of_bare hbare).mpr hc.toFormed, ?_⟩, houtline, hbetween⟩
  rw [houtline, hname]
  exact hbodies

/-! ### All classes -/

theorem settles_classes : ∀ (cs : List ClassDecl) {env : Env} {earlier : List Outline},
    env.Between earlier →
    (checkEach ClassDecl.check cs env).Settles (fun _ => ClassDecl.AllOk .plain earlier cs)
      fun _ r => ClassDecl.AllOk .annotated earlier r.1 ∧
        r.2.Between (earlier ++ r.1.map ClassDecl.outline)
  | [], _, earlier, h => Settles.done .nil ⟨.nil, by simpa using h⟩
  | c :: cs, env, earlier, h => by
    have hcons : ClassDecl.AllOk .plain earlier (c :: cs) ↔
        c.Ok .plain earlier ∧ ClassDecl.AllOk .plain (earlier ++ [c.outline]) cs :=
      ⟨fun h => by cases h with | cons hc hrest => exact ⟨hc, hrest⟩,
        fun ⟨hc, hrest⟩ => .cons hc hrest⟩
    rw [checkEach]
    refine Settles.congr ?_ fun _ => hcons
    refine (h.settles_class c).after fun r _ hr => ?_
    obtain ⟨c', env'⟩ := r
    obtain ⟨hc', houtline, hbetween⟩ := hr
    refine (settles_classes cs hbetween).wrap fun _ r _ hr => ?_
    obtain ⟨cs', env''⟩ := r
    obtain ⟨hcs', hbetween'⟩ := hr
    rw [← houtline] at hcs' hbetween'
    rw [List.append_assoc, List.singleton_append] at hbetween'
    exact ⟨.cons hc' hcs', hbetween'⟩

end Env.Between

/-! ### Programs -/

namespace Program

variable {p q : Program} {t : ClassTable} {f : Failure}

theorem settles_check (p : Program) : (p.check .empty).Settles (fun _ => p.WellFormed) fun _ r =>
    r.1.Ok .annotated ∧ r.2.Between r.1.outlines :=
  (Env.Between.settles_classes p.classes Env.between_empty).wrap fun _ _ _ hr => hr

/-- An analysis that succeeds has found the program well formed; it leaves the program annotated
and its classes in the table. -/
theorem of_analyze_ok (h : p.analyze = .ok t q) :
    p.WellFormed ∧ q.Ok .annotated ∧ q.bare = p.bare ∧ t.Records q.outlines ∧
      Hierarchy q.outlines := by
  have hbare := bare_analyze p
  rw [h] at hbare
  have hcheck := settles_check p
  unfold analyze at h
  cases hc : p.check .empty with
  | error e r => simp [hc] at h
  | ok u r =>
    rw [hc] at h hcheck
    cases h
    obtain ⟨hwell, hok, hbetween⟩ := hcheck
    exact ⟨(hwell ()).mpr rfl, hok, hbare, hbetween.table, hbetween.hierarchy⟩

/-- An analysis that fails has found a fault, in a program that is not well formed. -/
theorem of_analyze_error (h : p.analyze = .error f q) : f.isFault = true ∧ ¬ p.WellFormed := by
  have hcheck := settles_check p
  unfold analyze at h
  cases hc : p.check .empty with
  | error e r =>
    rw [hc] at h hcheck
    cases h
    exact ⟨hcheck.1, hcheck.2 ()⟩
  | ok u r => simp [hc] at h

theorem analyze_ok_iff : (∃ t q, p.analyze = .ok t q) ↔ p.WellFormed := by
  constructor
  · rintro ⟨t, q, h⟩
    exact (of_analyze_ok h).1
  · intro hp
    cases h : p.analyze with
    | ok t q => exact ⟨t, q, rfl⟩
    | error f q => exact absurd hp (of_analyze_error h).2

end Program

end ClassLang
