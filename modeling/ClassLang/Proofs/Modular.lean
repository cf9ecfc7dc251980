import ClassLang.Proofs.Bindings
import ClassLang.Proofs.Table.Alike
import ClassLang.Proofs.Typing.Determined

/-!
# Checking is modular

What an analysis makes of a class depends on the class and on the classes it has to do with, not on
the other classes of the program nor on their order. If two programs are accepted, and a class of
both is declared alike, then it is annotated alike, recorded alike and written as the same code, and
questions about it have the same answers (`Program.common_class_alike`).
-/

namespace ClassLang

namespace Program

variable {p p' q q' : Program} {t t' : ClassTable} {c c' : ClassDecl} {cls : String}

/-- A class that an analysis leaves is one of the program, but for the slots that were filled. -/
theorem exists_blank_eq (h : p.analyze = .ok t q) (hc : c ∈ q.classes) :
    ∃ d ∈ p.classes, c.blank = d.blank := by
  have hmem : c.blank ∈ p.classes.map ClassDecl.blank := by
    rw [← Program.mk.inj (blank_of_analyze h)]
    exact List.mem_map_of_mem hc
  obtain ⟨d, hd, hdc⟩ := List.mem_map.mp hmem
  exact ⟨d, hd, hdc.symm⟩

theorem bare_of_mem (hp : p.bare = p) (hc : c ∈ p.classes) : c.bare = c := by
  have hclasses : p.classes.map ClassDecl.bare = p.classes.map id := by
    rw [List.map_id]
    exact congrArg Program.classes hp
  exact List.map_inj_left.mp hclasses c hc

/-- Classes of one name that analyses leave are equal when blank, if they were declared alike. -/
theorem blank_eq_of_name (hp : p.bare = p) (hp' : p'.bare = p')
    (hsame : ∀ c ∈ p.classes, ∀ c' ∈ p'.classes, c.name = c'.name → c.same c' = true)
    (h : p.analyze = .ok t q) (h' : p'.analyze = .ok t' q') (hc : c ∈ q.classes)
    (hc' : c' ∈ q'.classes) (hname : c.name = c'.name) : c.blank = c'.blank := by
  obtain ⟨d, hd, hcd⟩ := exists_blank_eq h hc
  obtain ⟨d', hd', hcd'⟩ := exists_blank_eq h' hc'
  have hdd : d.name = d'.name := by
    have hn : c.name = d.name := (ClassDecl.mk.inj hcd).2.1
    have hn' : c'.name = d'.name := (ClassDecl.mk.inj hcd').2.1
    rw [← hn, ← hn', hname]
  have heq : d = d' := by
    have hbare := (ClassDecl.same_iff d d').mp (hsame d hd d' hd' hdd)
    rwa [bare_of_mem hp hd, bare_of_mem hp' hd'] at hbare
  rw [hcd, hcd', heq]

/-- Programs whose common classes are declared alike agree. -/
theorem agree_of_same (hsame : ∀ c ∈ p.classes, ∀ c' ∈ p'.classes, c.name = c'.name →
    c.same c' = true) (h : Hierarchy p.outlines) (h' : Hierarchy p'.outlines) :
    Agree p.outlines p'.outlines := by
  refine ⟨fun o ho o' ho' hname => ?_, h, h'⟩
  obtain ⟨c, hc, rfl⟩ := List.mem_map.mp ho
  obtain ⟨c', hc', rfl⟩ := List.mem_map.mp ho'
  exact ClassDecl.outline_eq_of_bare ((ClassDecl.same_iff c c').mp (hsame c hc c' hc' hname))

/-- **Checking is modular.** Let two programs without annotations be accepted, and let every class of
both be declared alike. Then a class of both is left with the same annotations, has the same record
in both tables and is written as the same code. Members and methods are found alike from it, types
of both fit alike, and a call or a creation with arguments of types of both is resolved alike. -/
theorem common_class_alike (hp : p.bare = p) (hp' : p'.bare = p')
    (hsame : ∀ c ∈ p.classes, ∀ c' ∈ p'.classes, c.name = c'.name → c.same c' = true)
    (h : p.analyze = .ok t q) (h' : p'.analyze = .ok t' q') :
    (∀ cls ∈ p.classes.map ClassDecl.name, cls ∈ p'.classes.map ClassDecl.name →
      (∃ c, q.classes.filter (fun d => d.name = cls) = [c] ∧
        q'.classes.filter (fun d => d.name = cls) = [c] ∧ c.write t = c.write t') ∧
      (∃ i, t.find? cls = some i ∧ t'.find? cls = some i) ∧
      (∀ x, t.findMember? cls x = t'.findMember? cls x) ∧
      (∀ s, t.findMethod? cls s = t'.findMethod? cls s) ∧
      ∀ args, (∀ a ∈ args, a.Known (p.classes.map ClassDecl.name) ∧
          a.Known (p'.classes.map ClassDecl.name)) →
        (∀ f, t.resolveMethod cls f args = t'.resolveMethod cls f args) ∧
          t.resolveConstructor cls args = t'.resolveConstructor cls args) ∧
      ∀ a : Ty, a.Known (p.classes.map ClassDecl.name) → a.Known (p'.classes.map ClassDecl.name) →
        ∀ b, t.isOrBase b a = t'.isOrBase b a := by
  obtain ⟨-, hok, hbare, -, hq⟩ := of_analyze_ok h
  obtain ⟨-, hok', hbare', -, hq'⟩ := of_analyze_ok h'
  have houtlines := outlines_eq_of_bare hbare
  have houtlines' := outlines_eq_of_bare hbare'
  have hagree : Agree q.outlines q'.outlines := by
    rw [houtlines] at hq ⊢
    rw [houtlines'] at hq' ⊢
    exact agree_of_same hsame hq hq'
  have halike := alike_of_analyze h h' hagree
  rw [← p.names_outlines, ← p'.names_outlines, ← houtlines, ← houtlines']
  refine ⟨fun cls hcls hcls' => ⟨?_, ?_, fun x => ?_, fun s => ?_, fun args hargs => ⟨?_, ?_⟩⟩, ?_⟩
  · obtain ⟨c, hc, rfl⟩ : ∃ c ∈ q.classes, c.name = cls := by
      rwa [q.names_outlines, List.mem_map] at hcls
    obtain ⟨c', hc', hname⟩ : ∃ c' ∈ q'.classes, c'.name = c.name := by
      rwa [q'.names_outlines, List.mem_map] at hcls'
    obtain rfl := hok.agree hagree hok' hc hc'
      (blank_eq_of_name hp hp' hsame h h' hc hc' hname.symm)
    refine ⟨c, filter_classes hq hc, filter_classes hq' hc', ?_⟩
    obtain ⟨-, i, -, -, hi, hi', -⟩ := halike.find?_of_shared hcls hcls'
    funext o
    simp only [ClassDecl.write, hi, hi']
  · obtain ⟨-, i, -, -, hi, hi', -⟩ := halike.find?_of_shared hcls hcls'
    exact ⟨i, hi, hi'⟩
  · exact halike.nearest?_eq hcls hcls' fun _ _ => rfl
  · exact halike.nearest?_eq hcls hcls' fun _ _ => rfl
  · exact halike.resolveMethod_eq hcls hcls' hargs
  · exact halike.resolveConstructor_eq hcls hcls' hargs
  · exact fun a ha ha' b => halike.isOrBase_eq ⟨ha, ha'⟩ b

/-- The classes of `overloading` with one between them and one after them. -/
def widened : Program := ⟨overloading.classes.take 1 ++
  [⟨.unknown, "Z", none, [.field .unknown (.cls "A") "x"]⟩] ++ overloading.classes.drop 1 ++
  [⟨.unknown, "D", some "B", [.method .bool "f" ⟨.unknown, [⟨.cls "D", "d"⟩],
    [.ret .unknown (some (.bool .unset true))], .empty⟩]⟩]⟩

/-- The class `B` is left the same by the analyses of `overloading` and `widened`, and its call of
`f` means the same method, although `D` has an overload that is nearer to its own objects. -/
theorem overloading_in_widened : ∃ t q t' q', overloading.analyze = .ok t q ∧
    widened.analyze = .ok t' q' ∧ (∃ c, q.classes.filter (fun d => d.name = "B") = [c] ∧
      q'.classes.filter (fun d => d.name = "B") = [c] ∧ c.write t = c.write t') ∧
    t.resolveMethod "B" "f" [.cls "B"] = t'.resolveMethod "B" "f" [.cls "B"] := by
  obtain ⟨t, h⟩ : ∃ t, overloading.analyze = .ok t overloading.analyze.state :=
    Outcome.eq_ok_of_isOk (by decide +kernel)
  obtain ⟨t', h'⟩ : ∃ t, widened.analyze = .ok t widened.analyze.state :=
    Outcome.eq_ok_of_isOk (by decide +kernel)
  have hsame : ∀ c ∈ overloading.classes, ∀ c' ∈ widened.classes, c.name = c'.name →
      c.same c' = true := by
    decide +kernel
  have hknown : ∀ {names : List String}, "B" ∈ names → ∀ a ∈ [Ty.cls "B"], a.Known names := by
    intro names hB a ha name hname
    cases List.mem_singleton.mp ha
    cases hname
    exact hB
  obtain ⟨hclass, -, -, -, hresolve⟩ :=
    (common_class_alike rfl rfl hsame h h').1 "B" (by decide) (by decide)
  exact ⟨t, _, t', _, h, h', hclass, (hresolve [.cls "B"] fun a ha =>
    ⟨hknown (by decide) a ha, hknown (by decide) a ha⟩).1 "f"⟩

end Program

end ClassLang
