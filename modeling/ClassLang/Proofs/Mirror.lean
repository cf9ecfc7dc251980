import ClassLang.Proofs.Ancestry

/-!
# The class table mirrors the program

The table of a program is built up by many small changes: a class is entered, tied to its parent,
given its members one by one, and given each method once more when its body is checked. What an
analysis leaves is the program again, and nothing else: the classes in their order, each with the
parent, the fields and the methods of its declaration (`ClassInfo.Mirrors`,
`Program.table_mirrors`).

So although the layout of a class is written from the table, it can be read off the declaration
(`ClassDecl.layoutCode`).
-/

namespace ClassLang

variable {p q : Program} {t : ClassTable} {i : ClassInfo} {c : ClassDecl} {d : Outline}

/-! ### One class -/

/-- What stands under a name that is given once is found there. -/
theorem lookup_of_mem {α : Type} {l : List (String × α)} {f : String × α}
    (h : (l.map Prod.fst).Nodup) (hf : f ∈ l) : l.lookup f.1 = some f.2 := by
  have hsome : (l.lookup f.1).isSome = true := by
    rw [List.lookup_isSome_iff]
    exact ⟨f, hf, by simp⟩
  obtain ⟨a, ha⟩ := Option.isSome_iff_exists.mp hsome
  have heq : (f.1, a) = f := List.inj_on_of_nodup_map h (mem_of_lookup ha) hf rfl
  rw [ha, ← heq]

/-- The record of a class holds what the class declares: its parent, its fields once each, in their
order and with their types, and its methods and constructors, with the constructor that every class
starts out with. -/
structure ClassInfo.Mirrors (i : ClassInfo) (c : ClassDecl) : Prop where
  name : i.name = c.name
  parent : i.parent = c.parent
  fields : i.membersInOrder = (c.members.filterMap Member.field?).map fun f => (f.1, .value f.2)
  once : (i.membersInOrder.map Prod.fst).Nodup
  member : ∀ x e, i.members.get? x = some e ↔ (x, e) ∈ i.membersInOrder
  methods : ∀ s, s ∈ i.methods.toList ↔
    s = .ofConstructor c.name [] ∨ s ∈ c.members.filterMap (Member.signature? c.name)

namespace ClassInfo.Records

theorem membersInOrder_eq (h : i.Records d) (hd : (d.fields.map Prod.fst).Nodup) :
    i.membersInOrder = d.fields.map fun f => (f.1, .value f.2) := by
  rw [ClassInfo.membersInOrder, h.order, List.filterMap_map, ← List.filterMap_eq_map]
  refine List.filterMap_congr fun f hf => ?_
  simp only [Function.comp_apply, h.member, lookup_of_mem hd hf, Option.map_some]

theorem mirrors (h : i.Records c.outline) (hc : (c.outline.fields.map Prod.fst).Nodup) :
    i.Mirrors c := by
  have hmembers := h.membersInOrder_eq hc
  have hnames : i.membersInOrder.map Prod.fst = c.outline.fields.map Prod.fst := by
    rw [hmembers, List.map_map]
    rfl
  refine ⟨h.name, h.parent, hmembers, hnames ▸ hc, fun x e => ?_, fun s => ?_⟩
  · rw [h.member, Option.map_eq_some_iff, hmembers, List.mem_map]
    constructor
    · rintro ⟨τ, hτ, rfl⟩
      exact ⟨(x, τ), mem_of_lookup hτ, rfl⟩
    · rintro ⟨f, hf, hx⟩
      cases hx
      exact ⟨f.2, lookup_of_mem hc hf, rfl⟩
  · rw [h.method, Outline.offers_iff]
    rfl

end ClassInfo.Records

/-! ### The layout of a class -/

/-- The lines between the braces of a class: the parent's part, then the fields in the order of their
declaration. -/
def ClassDecl.layout (c : ClassDecl) : List String :=
  (c.parent.map fun q => s!"$BASE({q});").toList ++
    (c.members.filterMap Member.field?).map fun f => s!"{f.2.code} $MEMBER({f.1});"

/-- The code of a class up to its methods. -/
def ClassDecl.layoutCode (c : ClassDecl) : List String :=
  [s!"$CLASS({c.name})", "\x7b"] ++ c.layout.map ("\t" ++ ·) ++ ["\x7d;"]

theorem ClassInfo.Mirrors.layout_eq (h : i.Mirrors c) : i.layout = c.layout := by
  rw [ClassInfo.layout, ClassDecl.layout, h.parent, h.fields, List.filterMap_map,
    ← List.filterMap_eq_map]
  rfl

/-- The layout that is written from the record is that of the declaration. -/
theorem ClassInfo.Mirrors.write_eq (h : i.Mirrors c) (o : Output) : i.write o =
    { text := o.text ++ Output.indented o.indent c.layoutCode, indent := o.indent } := by
  rw [← Output.foldl_line, ClassInfo.write_eq, h.layout_eq, h.name, ClassDecl.layoutCode]

/-! ### All classes -/

namespace Program

theorem current_of_analyze (h : p.analyze = .ok t q) : t.current = none := by
  have hcheck := settles_check p
  unfold analyze at h
  cases hc : p.check .empty with
  | error e r => simp [hc] at h
  | ok u r =>
    rw [hc] at h hcheck
    cases h
    exact hcheck.2.2.current

theorem mirrors_of_records (h : p.analyze = .ok t q) (hc : c ∈ p.classes)
    (hi : i.Records c.outline) : i.Mirrors c := by
  obtain ⟨-, -, hbare, -, hclasses⟩ := of_analyze_ok h
  rw [outlines_eq_of_bare hbare] at hclasses
  exact hi.mirrors (hclasses.fields c.outline (List.mem_map_of_mem hc))

theorem mirrors_of_analyze (h : p.analyze = .ok t q) :
    List.Forall₂ ClassInfo.Mirrors t.classes p.classes := by
  obtain ⟨-, -, hbare, hrecords, -⟩ := of_analyze_ok h
  rw [outlines_eq_of_bare hbare] at hrecords
  have hdeclared : List.Forall₂ (fun c i => ClassInfo.Records i c.outline) p.classes t.classes :=
    (List.forall₂_map_right_iff.mp hrecords.classes).flip
  have hmem := (List.forall₂_and_left p.classes t.classes).mpr ⟨fun _ hc => hc, hdeclared⟩
  exact (hmem.imp fun c i hi => mirrors_of_records h hi.1 hi.2).flip

theorem find?_of_analyze (h : p.analyze = .ok t q) (hc : c ∈ p.classes) :
    ∃ i, t.find? c.name = some i ∧ i.Mirrors c := by
  obtain ⟨-, -, hbare, hrecords, -⟩ := of_analyze_ok h
  rw [outlines_eq_of_bare hbare] at hrecords
  obtain ⟨i, hi, hic⟩ := hrecords.find?_of_mem (List.mem_map_of_mem hc)
  exact ⟨i, hi, mirrors_of_records h hc hic⟩

/-- The classes that are left stand for those that were given, one by one. -/
theorem forall₂_bare (h : p.analyze = .ok t q) :
    List.Forall₂ (fun c c' => c'.bare = c.bare) p.classes q.classes := by
  have hbare : q.classes.map ClassDecl.bare = p.classes.map ClassDecl.bare :=
    congrArg Program.classes (of_analyze_ok h).2.2.1
  rw [← List.forall₂_eq_eq_eq, List.forall₂_map_left_iff, List.forall₂_map_right_iff] at hbare
  exact hbare.flip

theorem writes_members (h : p.analyze = .ok t q) {c' : ClassDecl} (hc : c' ∈ q.classes) :
    Writes (Member.writeList c'.name c'.members) := by
  obtain ⟨-, hok, -⟩ := of_analyze_ok h
  obtain ⟨_, hcok⟩ := ClassDecl.AllOk.exists_ok hok hc
  exact Member.writes_list hcok.bodies

/-- The text of a class: its layout, as it is declared, then its methods and constructors. -/
theorem write_class (h : p.analyze = .ok t q) {c' : ClassDecl} (hc : c ∈ p.classes)
    (hc' : c' ∈ q.classes) (hbare : c'.bare = c.bare) (o : Output) :
    ∃ methods, Member.writeList c.name c'.members ⟨"", o.indent⟩ = .ok () ⟨methods, o.indent⟩ ∧
      c'.write t o = .ok ()
        { text := o.text ++ Output.indented o.indent c.layoutCode ++ methods
          indent := o.indent } := by
  have hname : c'.bare.name = c.bare.name := congrArg ClassDecl.name hbare
  replace hname : c'.name = c.name := hname
  obtain ⟨i, hi, hmirrors⟩ := find?_of_analyze h hc
  have hwrites := writes_members h hc'
  rw [hname] at hwrites
  obtain ⟨methods, hmethods⟩ := hwrites o.indent
  have hempty := hmethods ""
  rw [String.empty_append] at hempty
  refine ⟨methods, hempty, ?_⟩
  rw [ClassDecl.write, hname, hi]
  simp only
  rw [hmirrors.write_eq, hmethods]

/-- **The table of an accepted program mirrors the program.** It lists the classes of the program in
their order, each with the parent, fields and methods of its declaration, and leaves none open. The
text of a class begins with its layout, which has the declared fields, in their order, and nothing
else. -/
theorem table_mirrors (h : p.analyze = .ok t q) :
    t.current = none ∧ List.Forall₂ ClassInfo.Mirrors t.classes p.classes ∧
      (∀ name i, t.find? name = some i ↔ i ∈ t.classes ∧ i.name = name) ∧
      List.Forall₂ (fun c c' => c'.same c = true ∧ ∀ o, ∃ methods,
        Member.writeList c.name c'.members ⟨"", o.indent⟩ = .ok () ⟨methods, o.indent⟩ ∧
        c'.write t o = .ok ()
          { text := o.text ++ Output.indented o.indent c.layoutCode ++ methods
            indent := o.indent }) p.classes q.classes := by
  refine ⟨current_of_analyze h, mirrors_of_analyze h,
    fun name i => (p.ordered_points.2 t q h).sound.inStep.find?_eq_some_iff, ?_⟩
  have hmem := (List.forall₂_and_left p.classes q.classes).mpr ⟨fun _ hc => hc, forall₂_bare h⟩
  have hmem' := ((List.forall₂_and_left q.classes p.classes).mpr ⟨fun _ hc => hc, hmem.flip⟩).flip
  refine hmem'.imp fun c c' hc => ⟨(ClassDecl.same_iff c' c).mpr hc.2.2, fun o => ?_⟩
  exact write_class h hc.2.1 hc.1 hc.2.2 o

/-- A class with constructors among its fields, one of them in place of the constructor that every
class starts out with:

    class Point { int y; cons(int z) { } bool x; cons() { } Point twin(Point z) { return z; } } -/
def point : ClassDecl := ⟨.unknown, "Point", none, [
  .field .unknown .int "y",
  .constructor ⟨.unknown, [⟨.int, "z"⟩], [], .empty⟩,
  .field .unknown .bool "x",
  .constructor ⟨.unknown, [], [], .empty⟩,
  .method (.cls "Point") "twin" ⟨.unknown, [⟨.cls "Point", "z"⟩],
    [.ret .unknown (some (.var .unset none "z" .empty .empty))], .empty⟩]⟩

/-- A class that inherits from `point`:

    class Pixel extends Point { Pixel next; int twin(Point z) { return 1; } } -/
def pixel : ClassDecl := ⟨.unknown, "Pixel", some "Point", [
  .field .unknown (.cls "Pixel") "next",
  .method .int "twin" ⟨.unknown, [⟨.cls "Point", "z"⟩],
    [.ret .unknown (some (.number .unset 1))], .empty⟩]⟩

def drawing : Program := ⟨[point, pixel]⟩

/-- What the table has for `drawing`, and the text of the layout of its second class. -/
theorem drawing_mirrored : ∃ t q, drawing.analyze = .ok t q ∧ t.current = none ∧
    t.classes.map ClassInfo.membersInOrder = [[("y", .value .int), ("x", .value .bool)],
      [("next", .value (.cls "Pixel"))]] ∧
    (∃ i ∈ t.classes, ∀ s, s ∈ i.methods.toList ↔ s = .ofConstructor "Point" [] ∨
      s ∈ [.ofConstructor "Point" [.int], .ofConstructor "Point" [],
        ⟨"twin", [.cls "Point"], .cls "Point"⟩]) ∧
    ∃ c ∈ q.classes, ∃ methods, c.write t .empty = .ok () ⟨"$CLASS(Pixel)\n\x7b\n\t$BASE(Point);\n" ++
      "\t$TYPE(Pixel)* $MEMBER(next);\n\x7d;\n" ++ methods, 0⟩ := by
  obtain ⟨t, q, h⟩ : ∃ t q, drawing.analyze = .ok t q :=
    (Outcome.eq_ok_of_isOk (by decide +kernel)).imp fun _ h => ⟨_, h⟩
  obtain ⟨hcurrent, hmirrors, -, hwritten⟩ := table_mirrors h
  have hlayout : "" ++ Output.indented 0 pixel.layoutCode =
      "$CLASS(Pixel)\n\x7b\n\t$BASE(Point);\n" ++
        "\t$TYPE(Pixel)* $MEMBER(next);\n\x7d;\n" := by decide +kernel
  obtain ⟨i, rest, hpoint, hrest, hi⟩ := List.forall₂_cons_right_iff.mp hmirrors
  obtain ⟨j, _, hpixel, hnil, rfl⟩ := List.forall₂_cons_right_iff.mp hrest
  obtain rfl := List.forall₂_nil_right_iff.mp hnil
  obtain ⟨_, _, -, hrest, hq⟩ := List.forall₂_cons_left_iff.mp hwritten
  obtain ⟨c, _, hc, -, rfl⟩ := List.forall₂_cons_left_iff.mp hrest
  obtain ⟨methods, -, hwrite⟩ := hc.2 .empty
  refine ⟨t, q, h, hcurrent, ?_, ⟨i, by simp [hi], hpoint.methods⟩, c, by simp [hq], methods, ?_⟩
  · rw [hi, List.map_cons, List.map_singleton, hpoint.fields, hpixel.fields]
    rfl
  · rw [← hlayout]
    exact hwrite

end Program

end ClassLang
